import Bistra.Analysis.AccessKind
import Bistra.Analysis.AccessedMemory
import Bistra.Analysis.Compute
import Bistra.Analysis.Overflow
import Bistra.Backends.Addressing
import Bistra.Backends.LLVMRuns
import Bistra.Backends.NamedValues
import Bistra.Bytecode.DeclRoundTrip
import Bistra.Bytecode.IdOrder
import Bistra.Bytecode.LoadSafety
import Bistra.Optimizer.Interface
import Bistra.Parser.Diagnostics
import Bistra.Parser.LetFolding
import Bistra.Parser.Printing
import Bistra.Parser.ScopeGrammar
import Bistra.Parser.Stacks
import Bistra.Parser.StringLiterals
import Bistra.Parser.Tokens
import Bistra.Program.Compare
import Bistra.Program.HandleRuns
import Bistra.Transforms.DistributeMeaning
import Bistra.Transforms.Fuse
import Bistra.Transforms.Layout
import Bistra.Transforms.SimplifyGuards
import Bistra.Transforms.SimplifyIndex
import Bistra.Transforms.Tile
import Bistra.Transforms.Unroll
import Bistra.Transforms.Vectorize
