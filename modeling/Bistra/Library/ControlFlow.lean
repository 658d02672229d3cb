import Mathlib.Logic.Function.Basic
import Mathlib.Logic.Relation

/-! # Control flow graphs and their construction

Graphs of basic blocks over arbitrary instructions and branch conditions, the machine that
follows them, and the builder that fills blocks one instruction at a time.  The builder
only ever appends to an open block or closes it, so a block that is closed at some moment
is a block of the finished graph, and what an open block holds is the beginning of the
finished block.  This is what connects a step of the construction with steps of the
machine.
-/

namespace ControlFlow

variable {ι κ σ : Type*}

/-- The last instruction of a block. -/
inductive Terminator (κ : Type*) where
  | br (target : Nat)
  | condBr (cond : κ) (ifTrue ifFalse : Nat)
  | ret

structure Block (ι κ : Type*) where
  instrs : List ι
  term : Option (Terminator κ)

def Block.fresh : Block ι κ := ⟨[], none⟩

/-- Blocks by number. -/
abbrev FlowGraph (ι κ : Type*) := Nat → Block ι κ

/-! ## The machine -/

/-- A place in a block and the state of the machine. -/
structure Config (σ : Type*) where
  block : Nat
  pc : Nat
  state : σ

/-- One step: an instruction acts on the state, a terminator moves to another block. -/
inductive Step (G : FlowGraph ι κ) (act : ι → σ → σ) (test : κ → σ → Bool) :
    Config σ → Config σ → Prop where
  | instr {b pc i s} : (G b).instrs[pc]? = some i → Step G act test ⟨b, pc, s⟩ ⟨b, pc + 1, act i s⟩
  | br {b pc s target} : (G b).instrs[pc]? = none → (G b).term = some (.br target) →
      Step G act test ⟨b, pc, s⟩ ⟨target, 0, s⟩
  | condBr {b pc s cond ifTrue ifFalse} : (G b).instrs[pc]? = none →
      (G b).term = some (.condBr cond ifTrue ifFalse) →
      Step G act test ⟨b, pc, s⟩ ⟨if test cond s then ifTrue else ifFalse, 0, s⟩

/-- The machine is at a `ret`. -/
def Halted (G : FlowGraph ι κ) (c : Config σ) : Prop :=
  (G c.block).instrs[c.pc]? = none ∧ (G c.block).term = some .ret

abbrev Steps (G : FlowGraph ι κ) (act : ι → σ → σ) (test : κ → σ → Bool) :
    Config σ → Config σ → Prop :=
  Relation.ReflTransGen (Step G act test)

section Machine

variable {G : FlowGraph ι κ} {act : ι → σ → σ} {test : κ → σ → Bool}

theorem step_det {a b c : Config σ} (first : Step G act test a b) (second : Step G act test a c) :
    b = c := by
  cases first with
  | instr here =>
    cases second with
    | instr here' => rw [here] at here'; injection here' with same; rw [same]
    | br past _ => rw [here] at past; cases past
    | condBr past _ => rw [here] at past; cases past
  | br past term =>
    cases second with
    | instr here => rw [past] at here; cases here
    | br _ term' => rw [term] at term'; injection term' with same; injection same with same; rw [same]
    | condBr _ term' => rw [term] at term'; injection term' with same; cases same
  | condBr past term =>
    cases second with
    | instr here => rw [past] at here; cases here
    | br _ term' => rw [term] at term'; injection term' with same; cases same
    | condBr _ term' =>
      rw [term] at term'
      injection term' with same
      injection same with cond ifTrue ifFalse
      rw [cond, ifTrue, ifFalse]

theorem not_step_of_halted {a b : Config σ} (halted : Halted G a) : ¬ Step G act test a b := by
  intro step
  cases step with
  | instr here => rw [halted.1] at here; cases here
  | br _ term => rw [halted.2] at term; injection term with same; cases same
  | condBr _ term => rw [halted.2] at term; injection term with same; cases same

/-- A machine halts in at most one configuration. -/
theorem halted_unique {a b c : Config σ} (toB : Steps G act test a b) (haltedB : Halted G b)
    (toC : Steps G act test a c) (haltedC : Halted G c) : b = c := by
  induction toB using Relation.ReflTransGen.head_induction_on with
  | refl =>
    cases toC.cases_head with
    | inl same => exact same
    | inr more =>
      obtain ⟨_, step, _⟩ := more
      exact absurd step (not_step_of_halted haltedB)
  | head step rest ih =>
    cases toC.cases_head with
    | inl same => exact absurd (same ▸ step) (not_step_of_halted (same ▸ haltedC))
    | inr more =>
      obtain ⟨_, step', rest'⟩ := more
      rw [step_det step' step] at rest'
      exact ih rest'

end Machine

/-! ## The builder -/

/-- A graph under construction and the block at which instructions are inserted. -/
structure Builder (ι κ : Type*) where
  size : Nat
  blocks : FlowGraph ι κ
  insert : Nat

namespace Builder

def createBlock (B : Builder ι κ) : Builder ι κ :=
  { B with size := B.size + 1, blocks := Function.update B.blocks B.size .fresh }

def setInsertPoint (B : Builder ι κ) (n : Nat) : Builder ι κ := { B with insert := n }

def insertInstr (B : Builder ι κ) (i : ι) : Builder ι κ :=
  let block := B.blocks B.insert
  { B with blocks := Function.update B.blocks B.insert { block with instrs := block.instrs ++ [i] } }

/-- Closes the block at the insertion point. -/
def terminate (B : Builder ι κ) (t : Terminator κ) : Builder ι κ :=
  let block := B.blocks B.insert
  { B with blocks := Function.update B.blocks B.insert { block with term := some t } }

/-- The configuration at the insertion point. -/
def point (B : Builder ι κ) (s : σ) : Config σ :=
  ⟨B.insert, (B.blocks B.insert).instrs.length, s⟩

/-- The insertion point is an open block, and the blocks to come are empty. -/
structure Open (B : Builder ι κ) : Prop where
  inside : B.insert < B.size
  open_ : (B.blocks B.insert).term = none
  fresh : ∀ n, B.size ≤ n → B.blocks n = .fresh

end Builder

/-- New blocks change nothing: the blocks to come are empty already. -/
theorem createBlock_eq {B : Builder ι κ} (isOpen : B.Open) :
    B.createBlock = { B with size := B.size + 1 } := by
  rw [Builder.createBlock, ← isOpen.fresh B.size (Nat.le_refl _), Function.update_eq_self]

/-- The graph `G` completes the graph `B`: closed blocks stay and open blocks grow. -/
def Completes (B G : FlowGraph ι κ) : Prop :=
  ∀ n, (B n).instrs <+: (G n).instrs ∧ ((B n).term ≠ none → G n = B n)

theorem Completes.refl (B : FlowGraph ι κ) : Completes B B := fun _ => ⟨List.prefix_refl _, fun _ => rfl⟩

theorem Completes.trans {A B C : FlowGraph ι κ} (first : Completes A B) (second : Completes B C) :
    Completes A C := by
  intro n
  refine ⟨(first n).1.trans (second n).1, fun closed => ?_⟩
  have same : B n = A n := (first n).2 closed
  rw [← same]
  exact (second n).2 (same ▸ closed)

/-- What a part of the construction may do: it ends at an open block, which is the one where it
started or one of the blocks from `base` on, and of the blocks below `base` it only touches
the one where it started. -/
structure Grows (base : Nat) (B B' : Builder ι κ) : Prop where
  open_ : B'.Open
  size : B.size ≤ B'.size
  completes : Completes B.blocks B'.blocks
  frame : ∀ n, n < base → n ≠ B.insert → B'.blocks n = B.blocks n
  insert : B'.insert = B.insert ∨ base ≤ B'.insert

namespace Grows

theorem refl {base : Nat} {B : Builder ι κ} (isOpen : B.Open) : Grows base B B where
  open_ := isOpen
  size := Nat.le_refl _
  completes := Completes.refl _
  frame _ _ _ := rfl
  insert := .inl rfl

theorem trans {base : Nat} {A B C : Builder ι κ} (first : Grows base A B)
    (second : Grows base B C) : Grows base A C where
  open_ := second.open_
  size := Nat.le_trans first.size second.size
  completes := first.completes.trans second.completes
  frame n below apart := by
    have apart' : n ≠ B.insert := by
      cases first.insert with
      | inl same => exact same ▸ apart
      | inr new => exact Nat.ne_of_lt (Nat.lt_of_lt_of_le below new)
    rw [second.frame n below apart', first.frame n below apart]
  insert := by
    cases second.insert with
    | inl same => exact same ▸ first.insert
    | inr new => exact .inr new

theorem mono {base base' : Nat} {B B' : Builder ι κ} (le : base ≤ base')
    (grows : Grows base' B B') : Grows base B B' where
  open_ := grows.open_
  size := grows.size
  completes := grows.completes
  frame n below := grows.frame n (Nat.lt_of_lt_of_le below le)
  insert := grows.insert.imp_right (Nat.le_trans le)

theorem insertInstr {base : Nat} {B : Builder ι κ} (isOpen : B.Open) (i : ι) :
    Grows base B (B.insertInstr i) where
  open_ :=
    { inside := isOpen.inside
      open_ := by simp [Builder.insertInstr, isOpen.open_]
      fresh := fun n past => by
        have apart : n ≠ B.insert := Nat.ne_of_gt (Nat.lt_of_lt_of_le isOpen.inside past)
        simpa [Builder.insertInstr, apart] using isOpen.fresh n past }
  size := Nat.le_refl _
  completes n := by
    by_cases here : n = B.insert
    · subst here
      simp [Builder.insertInstr, isOpen.open_]
    · simp [Builder.insertInstr, here]
  frame n _ apart := by simp [Builder.insertInstr, apart]
  insert := .inl rfl

theorem createBlock {base : Nat} {B : Builder ι κ} (isOpen : B.Open) :
    Grows base B B.createBlock := by
  rw [createBlock_eq isOpen]
  exact
    { open_ :=
        { inside := Nat.lt_succ_of_lt isOpen.inside
          open_ := isOpen.open_
          fresh := fun n past => isOpen.fresh n (Nat.le_of_succ_le past) }
      size := Nat.le_succ _
      completes := Completes.refl _
      frame := fun _ _ _ => rfl
      insert := .inl rfl }

theorem jump {base n : Nat} {B : Builder ι κ} (isOpen : B.Open) (t : Terminator κ)
    (inside : n < B.size) (apart : n ≠ B.insert) (target : (B.blocks n).term = none)
    (new : base ≤ n) : Grows base B ((B.terminate t).setInsertPoint n) where
  open_ :=
    { inside := inside
      open_ := by simpa [Builder.terminate, Builder.setInsertPoint, apart] using target
      fresh := fun m past => by
        have apart' : m ≠ B.insert := Nat.ne_of_gt (Nat.lt_of_lt_of_le isOpen.inside past)
        simpa [Builder.terminate, Builder.setInsertPoint, apart'] using isOpen.fresh m past }
  size := Nat.le_refl _
  completes m := by
    by_cases here : m = B.insert
    · subst here
      simp [Builder.terminate, Builder.setInsertPoint, isOpen.open_]
    · simp [Builder.terminate, Builder.setInsertPoint, here]
  frame m _ apart' := by simp [Builder.terminate, Builder.setInsertPoint, apart']
  insert := .inr new

end Grows

/-! ## Following a finished graph -/

section Follow

variable {G : FlowGraph ι κ} {act : ι → σ → σ} {test : κ → σ → Bool}

/-- The machine runs an instruction that the builder has inserted. -/
theorem step_insertInstr {B : Builder ι κ} {i : ι} (finished : Completes (B.insertInstr i).blocks G)
    (s : σ) : Step G act test (B.point s) ((B.insertInstr i).point (act i s)) := by
  have here : (G B.insert).instrs[(B.blocks B.insert).instrs.length]? = some i := by
    obtain ⟨rest, split⟩ := (finished B.insert).1
    rw [← split]
    simp [Builder.insertInstr]
  have target : (B.insertInstr i).point (act i s) =
      ⟨B.insert, (B.blocks B.insert).instrs.length + 1, act i s⟩ := by
    simp [Builder.point, Builder.insertInstr]
  rw [target]
  exact Step.instr here

theorem closed_block {B : Builder ι κ} {t : Terminator κ}
    (finished : Completes (B.terminate t).blocks G) :
    (G B.insert).instrs[(B.blocks B.insert).instrs.length]? = none ∧
      (G B.insert).term = some t := by
  have closed : (B.terminate t).blocks B.insert = ⟨(B.blocks B.insert).instrs, some t⟩ := by
    simp [Builder.terminate]
  rw [(finished B.insert).2 (by simp [closed]), closed]
  simp

theorem point_jump {B : Builder ι κ} {t : Terminator κ} {n : Nat} (fresh : B.blocks n = .fresh)
    (apart : n ≠ B.insert) (s : σ) : ((B.terminate t).setInsertPoint n).point s = ⟨n, 0, s⟩ := by
  simp [Builder.point, Builder.setInsertPoint, Builder.terminate, apart, fresh, Block.fresh]

theorem step_br {B : Builder ι κ} {target : Nat}
    (finished : Completes (B.terminate (.br target)).blocks G) (s : σ) :
    Step G act test (B.point s) ⟨target, 0, s⟩ :=
  Step.br (closed_block finished).1 (closed_block finished).2

theorem halted_ret {B : Builder ι κ} (finished : Completes (B.terminate .ret).blocks G) (s : σ) :
    Halted G (B.point s) :=
  closed_block finished

end Follow

end ControlFlow
