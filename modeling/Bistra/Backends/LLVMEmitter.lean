import Bistra.Library.ControlFlow
import Bistra.Semantics.Trace

/-! # Code generation

The control flow that `LLVMEmitter::emit` of `LLVMBackend.cpp` builds for statements: a
block graph with one 64-bit index cell per loop.  The code for the expressions and the leaf
statements is a parameter (`Lowering`): what it computes is of no importance here.
-/

namespace Bistra

open ControlFlow

variable {F : Type}

/-- The contents of the index cells (`loopIndices_`). -/
abbrev Cells := LoopId → BitVec 64

/-- The instructions that the emitter inserts.  A leaf statement counts as one instruction, and
keeps the loops around it. -/
inductive Instr (F : Type) where
  | alloca (loop : LoopId)
  | storeIndex (loop : LoopId) (val : BitVec 64)
  | addIndex (loop : LoopId) (step : BitVec 64)
  | leaf (s : Stmt F) (scope : List LoopId)

/-- The comparisons that the emitter branches on. -/
inductive Cond (F : Type) where
  | indexBelow (loop : LoopId) (upperBound : BitVec 64)
  | inRange (index : Expr F) (first second : BitVec 64)

/-- What the generated code can see: the index cells and the memory, and the leaf statements
executed so far. -/
structure Frame (F : Type) where
  cells : Cells
  memory : State F
  events : List (Event F)

/-- What the code generated for index expressions and for leaf statements computes. -/
structure Lowering (F : Type) where
  generate : Expr F → Cells → State F → BitVec 64
  leaf : Stmt F → Cells → State F → State F

/-- The indices that the code of a leaf finds in the cells of the loops around it. -/
def Cells.env (cells : Cells) : Env := fun L => (cells L).toInt

def Instr.act (low : Lowering F) : Instr F → Frame F → Frame F
  -- The memory of a new cell holds anything; the emitter stores zero right after.
  | .alloca _, frame => frame
  | .storeIndex L val, frame => { frame with cells := Function.update frame.cells L val }
  | .addIndex L step, frame =>
    { frame with cells := Function.update frame.cells L (frame.cells L + step) }
  | .leaf s scope, frame =>
    { frame with
      memory := low.leaf s frame.cells frame.memory
      events := frame.events ++ [⟨s, frame.cells.env.indices scope⟩] }

def Cond.test (low : Lowering F) : Cond F → Frame F → Bool
  | .indexBelow L upperBound, frame => (frame.cells L).slt upperBound
  | .inRange index first second, frame =>
    let indexVal := low.generate index frame.cells frame.memory
    -- `CreateOr(a, b)` of `ICMP_SGE` and `ICMP_SLT`.
    first.sle indexVal || indexVal.slt second

/-! ## The emitter -/

abbrev Emitter (F : Type) := Builder (Instr F) (Cond F)

/-- `emit(Loop *)` up to the body: the index cell is created and zeroed, the header compares it
with the end, and the block for the next iteration adds the stride. -/
def Loop.emitHeader (header : Loop) (B : Emitter F) : Emitter F :=
  let B := (B.insertInstr (.alloca header.id)).insertInstr (.storeIndex header.id 0)
  let headerBB := B.size
  let body := B.size + 1
  let nextIter := B.size + 2
  let exit := B.size + 3
  let B := B.createBlock.createBlock.createBlock.createBlock
  let B := (B.terminate (.br headerBB)).setInsertPoint headerBB
  let upperBound := BitVec.ofNat 64 header.end_.toNat
  let B := (B.terminate (.condBr (.indexBelow header.id upperBound) body exit)).setInsertPoint nextIter
  let B := B.insertInstr (.addIndex header.id (BitVec.ofNat 64 header.stride.toNat))
  (B.terminate (.br headerBB)).setInsertPoint body

/-- `emit(IfRange *)` up to the body. -/
def emitGuard (val : Expr F) (start end_ : Int32) (B : Emitter F) : Emitter F :=
  let inrng := B.size
  let cont := B.size + 1
  let B := B.createBlock.createBlock
  let cond := Cond.inRange val (BitVec.ofInt 64 start.toInt) (BitVec.ofInt 64 end_.toInt)
  (B.terminate (.condBr cond inrng cont)).setInsertPoint inrng

mutual

def Stmt.emit (scope : List LoopId) : Stmt F → Emitter F → Emitter F
  | .loop header body, B =>
    let nextIter := B.size + 2
    let exit := B.size + 3
    let B := Stmt.emitBody (header.id :: scope) body (header.emitHeader B)
    (B.terminate (.br nextIter)).setInsertPoint exit
  | .ifRange val start end_ body, B =>
    let cont := B.size + 1
    let B := Stmt.emitBody scope body (emitGuard val start end_ B)
    (B.terminate (.br cont)).setInsertPoint cont
  | leaf, B => B.insertInstr (.leaf leaf scope)

def Stmt.emitBody (scope : List LoopId) : List (Stmt F) → Emitter F → Emitter F
  | [], B => B
  | s :: rest, B => Stmt.emitBody scope rest (s.emit scope B)

end

/-- The entry block, at which the emitter starts. -/
def Emitter.entry : Emitter F := ⟨1, fun _ => .fresh, 0⟩

def Program.emit (p : Program F) : FlowGraph (Instr F) (Cond F) :=
  ((Stmt.emitBody [] p.body .entry).terminate .ret).blocks

/-! ## What the emitter builds -/

theorem Emitter.entry_open : (Emitter.entry : Emitter F).Open where
  inside := Nat.one_pos
  open_ := rfl
  fresh _ _ := rfl

theorem Loop.emitHeader_eq {header : Loop} {B : Emitter F} (isOpen : B.Open) :
    header.emitHeader B =
      { size := B.size + 4
        insert := B.size + 1
        blocks := fun n =>
          if n = B.insert then
            ⟨(B.blocks B.insert).instrs ++ [.alloca header.id, .storeIndex header.id 0],
              some (.br B.size)⟩
          else if n = B.size then
            ⟨[], some (.condBr (.indexBelow header.id (BitVec.ofNat 64 header.end_.toNat))
              (B.size + 1) (B.size + 3))⟩
          else if n = B.size + 2 then
            ⟨[.addIndex header.id (BitVec.ofNat 64 header.stride.toNat)], some (.br B.size)⟩
          else B.blocks n } := by
  have inside := isOpen.inside
  have atHeader : B.blocks B.size = .fresh := isOpen.fresh _ (Nat.le_refl _)
  have atNext : B.blocks (B.size + 2) = .fresh := isOpen.fresh _ (Nat.le_add_right _ _)
  -- Each step leaves the insertion point open and the blocks to come empty.
  have open1 := (@Grows.insertInstr _ _ B.size B isOpen (.alloca header.id)).open_
  have open2 := (@Grows.insertInstr _ _ B.size _ open1 (.storeIndex header.id 0)).open_
  have open3 := (@Grows.createBlock _ _ B.size _ open2).open_
  have open4 := (@Grows.createBlock _ _ B.size _ open3).open_
  have open5 := (@Grows.createBlock _ _ B.size _ open4).open_
  rw [Loop.emitHeader, createBlock_eq open5, createBlock_eq open4, createBlock_eq open3,
    createBlock_eq open2]
  simp only [Builder.insertInstr, Builder.terminate, Builder.setInsertPoint]
  congr 1
  funext n
  have apart : B.size ≠ B.insert := by omega
  have apart' : B.size + 2 ≠ B.insert := by omega
  -- The block at the insertion point, the header, and the block for the next iteration.
  by_cases first : n = B.insert
  · subst first
    simp [Function.update_apply, apart.symm, apart'.symm]
  · by_cases second : n = B.size
    · subst second
      simp [Function.update_apply, apart, atHeader, Block.fresh]
    · by_cases third : n = B.size + 2
      · subst third
        simp [Function.update_apply, apart', atNext, Block.fresh]
      · simp [first, second, third]

theorem emitGuard_eq {val : Expr F} {start end_ : Int32} {B : Emitter F} (isOpen : B.Open) :
    emitGuard val start end_ B =
      { size := B.size + 2
        insert := B.size
        blocks := fun n =>
          if n = B.insert then
            ⟨(B.blocks B.insert).instrs,
              some (.condBr (.inRange val (BitVec.ofInt 64 start.toInt)
                (BitVec.ofInt 64 end_.toInt)) B.size (B.size + 1))⟩
          else B.blocks n } := by
  have inside := isOpen.inside
  have open1 := (@Grows.createBlock _ _ B.size B isOpen).open_
  rw [emitGuard, createBlock_eq open1, createBlock_eq isOpen]
  simp only [Builder.terminate, Builder.setInsertPoint]
  congr 1
  funext n
  by_cases first : n = B.insert
  · subst first
    simp
  · simp [first]

theorem Loop.emitHeader_point {σ : Type*} {header : Loop} {B : Emitter F} (isOpen : B.Open) (s : σ) :
    (header.emitHeader B).point s = ⟨B.size + 1, 0, s⟩ := by
  have inside := isOpen.inside
  have entry : B.size + 1 ≠ B.insert := by omega
  have fresh := isOpen.fresh (B.size + 1) (Nat.le_succ _)
  simp [Loop.emitHeader_eq isOpen, Builder.point, entry, fresh, Block.fresh]

theorem emitGuard_point {σ : Type*} {val : Expr F} {start end_ : Int32} {B : Emitter F}
    (isOpen : B.Open) (s : σ) : (emitGuard val start end_ B).point s = ⟨B.size, 0, s⟩ := by
  have inside := isOpen.inside
  have entry : B.size ≠ B.insert := by omega
  have fresh := isOpen.fresh B.size (Nat.le_refl _)
  simp [emitGuard_eq isOpen, Builder.point, entry, fresh, Block.fresh]

theorem Loop.emitHeader_grows (header : Loop) {B : Emitter F} (isOpen : B.Open) :
    Grows B.size B (header.emitHeader B) := by
  have inside := isOpen.inside
  rw [Loop.emitHeader_eq isOpen]
  exact
    { open_ :=
        { inside := by simp
          open_ := by
            have apart : B.size + 1 ≠ B.insert := by omega
            have new : B.blocks (B.size + 1) = .fresh := isOpen.fresh _ (Nat.le_succ _)
            simp [apart, new, Block.fresh]
          fresh := fun n past => by
            have past : B.size + 4 ≤ n := past
            have apart : n ≠ B.insert ∧ n ≠ B.size ∧ n ≠ B.size + 2 := by omega
            simpa [apart] using isOpen.fresh n (by omega) }
      size := Nat.le_add_right _ _
      completes := fun n => by
        by_cases first : n = B.insert
        · subst first
          simp [isOpen.open_]
        · by_cases new : B.size ≤ n
          · simp [isOpen.fresh n new, Block.fresh]
          · have apart : n ≠ B.size ∧ n ≠ B.size + 2 := by omega
            simp [first, apart]
      frame := fun n below apart => by
        have apart' : n ≠ B.size ∧ n ≠ B.size + 2 := by omega
        simp [apart, apart']
      insert := .inr (Nat.le_succ _) }

theorem emitGuard_grows (val : Expr F) (start end_ : Int32) {B : Emitter F} (isOpen : B.Open) :
    Grows B.size B (emitGuard val start end_ B) := by
  have inside := isOpen.inside
  rw [emitGuard_eq isOpen]
  exact
    { open_ :=
        { inside := by simp
          open_ := by
            have apart : B.size ≠ B.insert := by omega
            have new : B.blocks B.size = .fresh := isOpen.fresh _ (Nat.le_refl _)
            simp [apart, new, Block.fresh]
          fresh := fun n past => by
            have past : B.size + 2 ≤ n := past
            have apart : n ≠ B.insert := by omega
            simpa [apart] using isOpen.fresh n (by omega) }
      size := Nat.le_add_right _ _
      completes := fun n => by
        by_cases first : n = B.insert
        · subst first
          simp [isOpen.open_]
        · simp [first]
      frame := fun n _ apart => by simp [apart]
      insert := .inr (Nat.le_refl _) }

theorem Stmt.emitBody_grows {body : List (Stmt F)}
    (each : ∀ s ∈ body, ∀ (scope : List LoopId) (B : Emitter F), B.Open →
      Grows B.size B (s.emit scope B)) (scope : List LoopId) {base : Nat} {B : Emitter F}
    (isOpen : B.Open) (base_le : base ≤ B.size) : Grows base B (Stmt.emitBody scope body B) := by
  induction body generalizing B with
  | nil => exact Grows.refl isOpen
  | cons s rest ih =>
    have first := (each s (by simp) scope B isOpen).mono base_le
    exact first.trans (ih (fun t mem => each t (List.mem_cons_of_mem s mem)) first.open_
      (Nat.le_trans base_le first.size))

theorem Loop.emit_parts {header : Loop} {body : List (Stmt F)}
    (each : ∀ s ∈ body, ∀ (scope : List LoopId) (B : Emitter F), B.Open →
      Grows B.size B (s.emit scope B)) (scope : List LoopId) {B B' : Emitter F} (isOpen : B.Open)
    (emitted : Stmt.emitBody scope body (header.emitHeader B) = B') :
    Grows (B.size + 4) (header.emitHeader B) B' ∧ B'.blocks (B.size + 3) = .fresh ∧
      B.size + 3 ≠ B'.insert ∧
      Grows B.size B' ((B'.terminate (.br (B.size + 2))).setInsertPoint (B.size + 3)) := by
  subst emitted
  have inside := isOpen.inside
  have size : (header.emitHeader B).size = B.size + 4 := by rw [Loop.emitHeader_eq isOpen]
  have insert : (header.emitHeader B).insert = B.size + 1 := by rw [Loop.emitHeader_eq isOpen]
  have inner := Stmt.emitBody_grows each scope (header.emitHeader_grows isOpen).open_
    (Nat.le_of_eq size.symm)
  have grown := inner.size
  have ends := inner.insert
  rw [size] at grown
  rw [insert] at ends
  have apart : B.size + 3 ≠ (Stmt.emitBody scope body (header.emitHeader B)).insert := by omega
  have fresh : (Stmt.emitBody scope body (header.emitHeader B)).blocks (B.size + 3) = .fresh := by
    rw [inner.frame (B.size + 3) (by omega) (by omega), Loop.emitHeader_eq isOpen]
    have entry : B.size + 3 ≠ B.insert := by omega
    simpa [entry] using isOpen.fresh (B.size + 3) (by omega)
  refine ⟨inner, fresh, apart, ?_⟩
  exact Grows.jump inner.open_ _ (by omega) apart (by rw [fresh]; rfl) (Nat.le_add_right B.size 3)

theorem emitGuard_parts {val : Expr F} {start end_ : Int32} {body : List (Stmt F)}
    (each : ∀ s ∈ body, ∀ (scope : List LoopId) (B : Emitter F), B.Open →
      Grows B.size B (s.emit scope B)) (scope : List LoopId) {B B' : Emitter F} (isOpen : B.Open)
    (emitted : Stmt.emitBody scope body (emitGuard val start end_ B) = B') :
    Grows (B.size + 2) (emitGuard val start end_ B) B' ∧ B'.blocks (B.size + 1) = .fresh ∧
      B.size + 1 ≠ B'.insert ∧
      Grows B.size B' ((B'.terminate (.br (B.size + 1))).setInsertPoint (B.size + 1)) := by
  subst emitted
  have inside := isOpen.inside
  have size : (emitGuard val start end_ B).size = B.size + 2 := by rw [emitGuard_eq isOpen]
  have insert : (emitGuard val start end_ B).insert = B.size := by rw [emitGuard_eq isOpen]
  have inner := Stmt.emitBody_grows each scope (emitGuard_grows val start end_ isOpen).open_
    (Nat.le_of_eq size.symm)
  have grown := inner.size
  have ends := inner.insert
  rw [size] at grown
  rw [insert] at ends
  have apart : B.size + 1 ≠ (Stmt.emitBody scope body (emitGuard val start end_ B)).insert := by
    omega
  have fresh : (Stmt.emitBody scope body (emitGuard val start end_ B)).blocks (B.size + 1) =
      .fresh := by
    rw [inner.frame (B.size + 1) (by omega) (by omega), emitGuard_eq isOpen]
    have entry : B.size + 1 ≠ B.insert := by omega
    simpa [entry] using isOpen.fresh (B.size + 1) (by omega)
  refine ⟨inner, fresh, apart, ?_⟩
  exact Grows.jump inner.open_ _ (by omega) apart (by rw [fresh]; rfl) (Nat.le_succ B.size)

/-- The emitter keeps to the discipline of the builder: every part of the code that it has
finished stays. -/
theorem Stmt.emit_grows (s : Stmt F) : ∀ (scope : List LoopId) (B : Emitter F), B.Open →
    Grows B.size B (s.emit scope B) := by
  induction s using Stmt.inductTree with
  | loop header body ih =>
    intro scope B isOpen
    obtain ⟨inner, -, -, finish⟩ := Loop.emit_parts ih (header.id :: scope) isOpen rfl
    exact (header.emitHeader_grows isOpen).trans
      ((inner.mono (Nat.le_add_right _ _)).trans finish)
  | ifRange val start end_ body ih =>
    intro scope B isOpen
    obtain ⟨inner, -, -, finish⟩ := emitGuard_parts ih scope isOpen rfl
    exact (emitGuard_grows val start end_ isOpen).trans
      ((inner.mono (Nat.le_add_right _ _)).trans finish)
  | call | store | storeLocal =>
    intro scope B isOpen
    exact Grows.insertInstr isOpen _

/-! ## The finished blocks -/

section Finished

variable {G : FlowGraph (Instr F) (Cond F)} {B : Emitter F}

theorem Loop.finished_blocks {header : Loop} (isOpen : B.Open)
    (finished : Completes (header.emitHeader B).blocks G) :
    G B.insert = ⟨(B.blocks B.insert).instrs ++ [.alloca header.id, .storeIndex header.id 0],
        some (.br B.size)⟩ ∧
      G B.size = ⟨[], some (.condBr
        (.indexBelow header.id (BitVec.ofNat 64 header.end_.toNat)) (B.size + 1) (B.size + 3))⟩ ∧
      G (B.size + 2) =
        ⟨[.addIndex header.id (BitVec.ofNat 64 header.stride.toNat)], some (.br B.size)⟩ := by
  have inside := isOpen.inside
  have headerApart : B.size ≠ B.insert := by omega
  have nextApart : B.size + 2 ≠ B.insert := by omega
  rw [Loop.emitHeader_eq isOpen] at finished
  refine ⟨?_, ?_, ?_⟩
  · rw [(finished B.insert).2 (by simp)]
    simp
  · rw [(finished B.size).2 (by simp [headerApart])]
    simp [headerApart]
  · rw [(finished (B.size + 2)).2 (by simp [nextApart])]
    simp [nextApart]

theorem guard_finished_block {val : Expr F} {start end_ : Int32} (isOpen : B.Open)
    (finished : Completes (emitGuard val start end_ B).blocks G) :
    G B.insert = ⟨(B.blocks B.insert).instrs, some (.condBr (.inRange val
      (BitVec.ofInt 64 start.toInt) (BitVec.ofInt 64 end_.toInt)) B.size (B.size + 1))⟩ := by
  rw [emitGuard_eq isOpen] at finished
  rw [(finished B.insert).2 (by simp)]
  simp

end Finished

end Bistra
