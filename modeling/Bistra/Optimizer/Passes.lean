import Bistra.Analysis.AccessedMemory
import Bistra.Analysis.Compute
import Bistra.Library.Search
import Bistra.Optimizer.FuseLoops
import Bistra.Program.Hash
import Bistra.Transforms.DistributeRuns
import Bistra.Transforms.Promote
import Bistra.Transforms.Vectorize

/-! # The optimizer

`Optimizer.cpp`: the heuristics that change a whole program, and the passes of the search, each of
which hands variants of the program to the next one.  A result `none` is a failed assertion.
-/

namespace Bistra

open SearchM (Attempt attempts offer)
open Words (changeAll chooseAll)

variable {F : Type}

/-! ## Loops of a program -/

def isInnermostLoop (body : List (Stmt F)) : Bool := !body.any Stmt.isScope

def Program.collectInnermostLoops (p : Program F) : List LoopId :=
  (p.collectLoops.filter fun loop => isInnermostLoop loop.2).map (·.1.id)

/-- `getContainingLoop` of a loop. -/
def Program.getContainingLoop (p : Program F) (L : LoopId) : Option LoopId :=
  (p.scopeOf L).bind fun scope => scope.tail.head?

/-- `collectLoopHierarchy`, from the loop behind `lptr` on. -/
def Program.collectLoopHierarchy (p : Program F) : Option LoopId → Nat → List LoopId
  | some lptr, levels + 1 => lptr :: p.collectLoopHierarchy (p.getContainingLoop lptr) levels
  | _, _ => []

def addOnce (set : List LoopId) (elem : LoopId) : List LoopId :=
  if elem ∈ set then set else set ++ [elem]

/-- What the loops of `collectLastIndexForAllIndices` do with a last subscript. -/
def addLastIndex (set : List LoopId) : Expr F → List LoopId
  | .index L _ => addOnce set L
  | _ => set

/-- `collectLastIndexForAllIndices`.  The outer `none` is the last subscript of an access that has
none. -/
def collectLastIndexForAllIndices (s : Stmt F) : Option (Option LoopId) :=
  let accesses := s.collectStmts.flatMap Stmt.stores ++ s.collectStmts.flatMap Stmt.loads
  (accesses.mapM fun access : Access F => access.indices.getLast?).map fun lasts =>
    match lasts.foldl addLastIndex [] with
    | [L] => some L
    | _ => none

def Program.getComputeIOInfo (p : Program F) (L : LoopId) : Option ComputeCost :=
  (p.findLoop L).bind fun (header, body) => (Stmt.loop header body).estimate

def Program.getNumLoadsInLoop (p : Program F) (L : LoopId) : Option UInt64 :=
  (p.findLoop L).bind fun (header, body) =>
    let loads := (Stmt.loop header body).collectStmts.flatMap Stmt.loads
    let live := L :: Stmt.loopIds body
    (loads.mapM fun ld => getAccessedMemoryForSubscript p.loopTable (some live) ld.indices).map
      fun sizes => sizes.foldl (· + ·) 0

/-! ## Changes of a whole program -/

def tryToVectorizeAllLoops (p : Program F) (VF : VecWidth) : Option (Program F × Bool) :=
  changeAll (fun l p => (vectorize p l VF).map fun made => (made.1, made.2.isSome))
    (Stmt.loopIds p.body) p false

/-- What `sinkLoopsForConsecutiveIndexAccess` does with an innermost loop. -/
def sinkForLoop (l : LoopId) (p : Program F) : Option (Program F × Bool) :=
  (p.findLoop l).bind fun loop =>
    (collectLastIndexForAllIndices (.loop loop.1 loop.2)).bind fun
      | none => some (p, false)
      | some loopToSink =>
        let sunk := sink p loopToSink 8
        if sunk.1.verify then some sunk else none

def sinkLoopsForConsecutiveIndexAccess (p : Program F) : Option (Program F × Bool) :=
  changeAll sinkForLoop p.collectInnermostLoops p false

/-- `tryToTileForLocality` leaves the loops over the innermost loop and over `top` as they are. -/
def skipsTile (p : Program F) (inner top : LoopId) (tileSize : UInt32) : Option Bool :=
  (p.getNumLoadsInLoop top).bind fun IOPL =>
    match p.findLoop top, p.findLoop inner with
    | some (topHeader, topBody), some (innerHeader, _) =>
      -- Ignore loops that don't touch much memory.
      if IOPL < (1 : UInt64) <<< 13 then some true
      -- Don't touch loops that operate on a small tile.
      else if topHeader.end_ < tileSize || innerHeader.end_ < tileSize then some true
      -- All of the loops are consecutive on some dimension.
      else (collectLastIndexForAllIndices (.loop topHeader topBody)).map Option.isSome
    | _, _ => none

/-- What `tryToTileForLocality` does with an innermost loop. -/
def tileForLoop (inner : LoopId) (p : Program F) : Option (Program F × Bool) :=
  match p.getContainingLoop inner with
  | none => some (p, false)
  | some top =>
    (skipsTile p inner top 32).bind fun
      | true => some (p, false)
      | false =>
        (tile p inner 32).bind fun t1 => (tile t1.1 top 32).map fun t2 =>
          if t1.2.isNone && t2.2.isNone then (t2.1, false) else ((hoist t2.1 inner 1).1, true)

def tryToTileForLocality (p : Program F) : Option (Program F × Bool) :=
  changeAll tileForLoop p.collectInnermostLoops p false

/-- `distributeAllLoops` on the program. -/
def distributeLoops (p : Program F) : Option (Program F) :=
  match distributeAllLoops p .program (Stmt.splitWeights 0 p.body + 1) p.body false with
  | some (.finished q _) => some q
  | _ => none

/-- `promoteLICM`: the program that it leaves. -/
def promote [Zero F] (p : Program F) : Option (Program F) := ((promoteLICM.run p).2).map (·.2)

/-- `Backend`: what the optimizer uses of it.  What `evaluateCode` returns may depend on the programs
that have been evaluated before. -/
structure Backend (F : Type) where
  getNumRegisters : UInt32
  getRegisterWidth : VecWidth
  evaluateCode : List (Program F) → Program F → ℚ

def optimizeStatic [Field F] [LinearOrder F] (backend : Backend F) (p : Program F) :
    Option (Program F) := do
  let np ← p.clone
  let np ← distributeLoops np
  let np ← simplify np
  -- Sink loops to allow consecutive access.
  let (np, _) ← sinkLoopsForConsecutiveIndexAccess np
  -- Try to fuse shallow loops.
  let (np, _, _) ← tryToFuseAllShallowLoops np
  let (np, _) ← tryToVectorizeAllLoops np backend.getRegisterWidth
  let (np, _) ← tryToTileForLocality np
  -- Perform LICM and cleanup the program one last time.
  let np ← simplify np
  let np ← promote np
  simplify np

/-! ## The passes of the search -/

/-- `EvaluatorPass`: what it remembers, and the programs that the backend has evaluated, with the
results. -/
structure EvaluatorPass (F : Type) where
  bestTime : ℚ := 1000
  bestProgram : Option (Program F) := none
  alreadyRan : List UInt64 := []
  evaluated : List (Program F × ℚ) := []

/-- A part of the search. -/
abbrev Search (F : Type) := SearchM (EvaluatorPass F)

/-- The `doIt` of the next pass. -/
abbrev NextPass (F : Type) := SearchM.Visit (EvaluatorPass F) (Program F)

section Passes

variable (fpWord : F → UInt64) (backend : Backend F) (nextPass : NextPass F)

def EvaluatorPass.doIt (p : Program F) : Search F Unit := do
  let ev ← get
  -- Check if we already benchmarked this program.
  if p.hash fpWord ∈ ev.alreadyRan then pure ()
  else
    guard p.verify
    let _ ← p.estimateCompute
    let res := backend.evaluateCode (ev.evaluated.map (·.1)) p
    let ev := { ev with
      alreadyRan := p.hash fpWord :: ev.alreadyRan
      evaluated := ev.evaluated ++ [(p, res)] }
    if res < ev.bestTime then
      let copy ← p.clone
      set { ev with bestTime := res, bestProgram := some copy }
    else set ev

/-- The number of local registers that the statements of a loop store to. -/
def countStoreLocals (body : List (Stmt F)) : Nat :=
  body.countP fun | .storeLocal _ _ _ => true | _ => false

/-- The filters of `FilterPass::doIt`. -/
def FilterPass.accepts (p : Program F) : Bool :=
  p.collectLoops.all fun (_, body) =>
    body.length ≤ 64 && countStoreLocals body ≤ backend.getNumRegisters.toNat

def FilterPass.doIt (p : Program F) : Search F Unit :=
  offer (FilterPass.accepts backend p) p nextPass

/-- A pass that changes a clone of the program and hands it on. -/
def passClone (change : Program F → Option (Program F)) (p : Program F) : Search F Unit := do
  guard p.verify
  let np ← p.clone
  let changed ← change np
  nextPass changed

/-- A pass that changes a clone of the program, and hands on the clone, if it has been changed, and then
the program itself. -/
def passBoth (change : Program F → Option (Program F × Bool)) (p : Program F) : Search F Unit := do
  guard p.verify
  let np ← p.clone
  let made ← change np
  offer made.2 made.1 nextPass
  -- Try the original version.
  nextPass p

section Rewriting

variable [Field F] [LinearOrder F]

def PromoterPass.doIt : Program F → Search F Unit :=
  passClone nextPass fun np => (simplify np).bind promote

def FusePass.doIt : Program F → Search F Unit :=
  passBoth nextPass fun np => (tryToFuseAllShallowLoops np).map fun made => (made.1, made.2.2)

def DistributePass.doIt : Program F → Search F Unit :=
  passClone nextPass fun np => (distributeLoops np).bind simplify

end Rewriting

def VectorizerPass.doIt : Program F → Search F Unit :=
  passBoth nextPass (tryToVectorizeAllLoops · backend.getRegisterWidth)

def InterchangerPass.doIt : Program F → Search F Unit :=
  passBoth nextPass sinkLoopsForConsecutiveIndexAccess

/-- Tries `numTries` combinations for a loop hierarchy, if it is not skipped. -/
def tryAll (skips : Option Bool) (numTries : Nat)
    (attempt : Nat → Bool → Option (Attempt (Program F))) : Search F Unit := do
  if ← skips then pure ()
  else
    guard (numTries < 1000000)
    attempts attempt nextPass false (List.range numTries)

/-- The loop in the clone of `p` that `map` has for the loop `l` of `p`. -/
def Program.cloneOf (p : Program F) (l : LoopId) : LoopId := p.freshLoop + l

def WidnerPass.widths : List UInt32 := [2, 3, 4, 5]

/-- What `WidnerPass::doIt` does with the loop `l` of a hierarchy: the clone of `p`, and the number of
registers. -/
def WidnerPass.widenClone (p : Program F) (l : LoopId) (ws : UInt32) (np : Program F × Nat) :
    Option ((Program F × Nat) × Bool) :=
  (widen np.1 (p.cloneOf l) ws).map fun made => ((made.1, np.2 * ws.toNat), made.2.isSome)

/-- An attempt of `WidnerPass::doIt` with a hierarchy. -/
def WidnerPass.attempt (p : Program F) (hierarchy : List LoopId) (attemptID : Nat) (changed : Bool) :
    Option (Attempt (Program F)) :=
  p.clone.bind fun np =>
    (chooseAll widths (widenClone p) hierarchy attemptID (np, 1) changed).map fun made =>
      ⟨made.1.1, made.2, made.1.2 ≤ backend.getNumRegisters.toNat⟩

/-- The innermost loop is left out, because widening it is just like unrolling. -/
def WidnerPass.hierarchy (p : Program F) (inner : LoopId) : List LoopId :=
  (p.collectLoopHierarchy (some inner) 4).tail

/-- The hierarchies that are not widened. -/
def WidnerPass.skips (p : Program F) (hierarchy : List LoopId) : Option Bool :=
  match hierarchy.getLast? with
  | none => some true
  -- Don't touch loops that have zero compute (just write memory).
  | some top => (p.getComputeIOInfo top).map fun info => info.2 = 0

def WidnerPass.doIt (p : Program F) : Search F Unit := do
  guard p.verify
  forM p.collectInnermostLoops fun inner =>
    tryAll nextPass (skips p (hierarchy p inner)) (widths.length ^ (hierarchy p inner).length)
      (attempt backend p (hierarchy p inner))
  -- Try unwidened loops.
  nextPass p

/-- The sizes that `TilerPass` tries. -/
def TilerPass.tileSize : List UInt32 := [8, 16, 32, 64, 128, 256]

/-- `roundTileSize`; `none` is a division by zero. -/
def roundTileSize (tileSize stride : UInt32) : Option UInt32 :=
  if stride = 0 then none else some (tileSize - tileSize % stride)

/-- What `TilerPass::doIt` does with the loop `l` of a hierarchy of `levels` loops, on the clone `np`
of `p`. -/
def TilerPass.tileClone (p : Program F) (levels : Nat) (l : LoopId) (currBlockSize : UInt32)
    (np : Program F) : Option (Program F × Bool) :=
  (p.findLoop l).bind fun loop =>
    -- Adjust the tile size to the loop stride.
    (roundTileSize currBlockSize loop.1.stride).bind fun ts =>
      if ts = 0 then some (np, false)
      else (tile np (p.cloneOf l) ts).map fun made =>
        if made.2.isNone then (made.1, false) else hoist made.1 (p.cloneOf l) (.ofNat levels)

/-- An attempt of `TilerPass::doIt` with a hierarchy. -/
def TilerPass.attempt (p : Program F) (hierarchy : List LoopId) (attemptID : Nat) (changed : Bool) :
    Option (Attempt (Program F)) :=
  p.clone.bind fun np =>
    (chooseAll tileSize (tileClone p hierarchy.length) hierarchy attemptID np changed).map fun made =>
      ⟨made.1, made.2, true⟩

/-- The loops that are tiled together. -/
def TilerPass.hierarchy (p : Program F) (inner : LoopId) : List LoopId :=
  p.collectLoopHierarchy (some inner) 4

/-- The hierarchies that are not tiled. -/
def TilerPass.skips (p : Program F) (hierarchy : List LoopId) : Option Bool :=
  -- Don't tile a single loop.
  if hierarchy.length < 2 then some true
  else hierarchy.getLast?.bind fun top => (p.getComputeIOInfo top).bind fun info =>
    -- Don't touch loops that have zero compute (just write memory).
    if info.2 = 0 then some true
    -- Ignore loops that don't touch much memory.
    else (p.getNumLoadsInLoop top).map fun IOPL => IOPL < (1 : UInt64) <<< 13

def TilerPass.doIt (p : Program F) : Search F Unit := do
  guard p.verify
  nextPass p
  forM p.collectInnermostLoops fun inner =>
    tryAll nextPass (skips p (hierarchy p inner)) (tileSize.length ^ (hierarchy p inner).length)
      (attempt p (hierarchy p inner))

/-- `optimizeEvaluate`: what the evaluator remembers at the end.  The result is its `bestProgram`. -/
def optimizeEvaluate [Field F] [LinearOrder F] (p : Program F) : Option (EvaluatorPass F) :=
  let ps := EvaluatorPass.doIt fpWord backend
  let ps := FilterPass.doIt backend ps
  let ps := PromoterPass.doIt ps
  let ps := WidnerPass.doIt backend ps
  let ps := VectorizerPass.doIt backend ps
  let ps := FusePass.doIt ps
  let ps := TilerPass.doIt ps
  let ps := InterchangerPass.doIt ps
  let ps := DistributePass.doIt ps
  ((ps p).run {}).map (·.2)

end Passes

end Bistra
