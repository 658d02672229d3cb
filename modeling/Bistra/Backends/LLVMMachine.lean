import Bistra.Backends.LLVMEmitter

/-! # Following the generated code

The generated control flow is followed block by block, on any machine whose states hold the index
cells.  The branch of a guard is always taken, because its condition is a disjunction that every
value satisfies.  So the code does for a statement whatever it does for the leaves, once for every
iteration of the loops around them.
-/

namespace Bistra

open ControlFlow

variable {F σ τ : Type}

/-! ## Index cells -/

theorem toInt_ofNat64 {n : Nat} (small : n < 2 ^ 63) : (BitVec.ofNat 64 n).toInt = n := by
  rw [BitVec.toInt_ofNat']
  exact Int.bmod_eq_of_le (by omega) (by omega)

theorem toInt_ofInt64 (n : Int32) : (BitVec.ofInt 64 n.toInt).toInt = n.toInt := by
  have low := n.le_toInt
  have high := n.toInt_lt
  rw [BitVec.toInt_ofInt]
  exact Int.bmod_eq_of_le (by omega) (by omega)

/-- The condition that is emitted for a verified guard holds whatever the value of the index. -/
theorem inRange_holds {start end_ : Int32} (ordered : start ≤ end_) (indexVal : BitVec 64) :
    ((BitVec.ofInt 64 start.toInt).sle indexVal || indexVal.slt (BitVec.ofInt 64 end_.toInt)) =
      true := by
  have le := Int32.le_iff_toInt_le.mp ordered
  simp only [BitVec.sle, BitVec.slt, Bool.or_eq_true, decide_eq_true_eq, toInt_ofInt64]
  omega

/-- The index cells of the loops around a statement hold the indices of these loops. -/
def Cells.Agree (scope : List LoopId) (cells : Cells) (env : Env) : Prop :=
  ∀ L ∈ scope, cells.env L = env L

theorem Cells.Agree.indices {scope : List LoopId} {cells : Cells} {env : Env}
    (agree : cells.Agree scope env) : cells.env.indices scope = env.indices scope :=
  List.map_congr_left fun L mem => by rw [agree L mem]

/-! ## Machines -/

/-- A machine that runs the generated code.  Its states hold the index cells, and the instructions
for loops touch nothing else. -/
structure CodeMachine (F σ : Type) where
  act : Instr F → σ → σ
  test : Cond F → σ → Bool
  cells : σ → Cells
  setCells : σ → Cells → σ
  cells_setCells : ∀ s new, cells (setCells s new) = new
  alloca : ∀ L s, act (.alloca L) s = s
  storeIndex : ∀ L val s,
    act (.storeIndex L val) s = setCells s (Function.update (cells s) L val)
  addIndex : ∀ L step s,
    act (.addIndex L step) s = setCells s (Function.update (cells s) L (cells s L + step))
  cells_leaf : ∀ leaf scope s, cells (act (.leaf leaf scope) s) = cells s
  indexBelow : ∀ L upperBound s, test (.indexBelow L upperBound) s = (cells s L).slt upperBound

/-- What the code of a program means on a machine: `run` says what a statement does, where it may be
run, and `holds` which states of the machine stand for a state of the meaning. -/
structure CodeMeaning (K : CodeMachine F σ) (decls : Decls) (τ : Type) where
  holds : σ → τ → Prop
  run : List LoopId → Env → Stmt F → τ → τ
  safe : List LoopId → Env → Stmt F → τ → Prop
  holds_setCells : ∀ {s t} cells, holds s t → holds (K.setCells s cells) t
  run_loop : ∀ scope env header body t, run scope env (.loop header body) t =
    Schedule.run (fun i => Schedule.run
      (run (header.id :: scope) (Function.update env header.id i)) body) header.iterations t
  run_ifRange : ∀ scope env val start end_ body t,
    run scope env (.ifRange val start end_ body) t = Schedule.run (run scope env) body t
  safe_loop : ∀ {scope env header body t}, safe scope env (.loop header body) t →
    Schedule.Along
      (fun i => Schedule.run (run (header.id :: scope) (Function.update env header.id i)) body)
      (fun i => Schedule.Along (run (header.id :: scope) (Function.update env header.id i))
        (safe (header.id :: scope) (Function.update env header.id i)) body) header.iterations t
  safe_ifRange : ∀ {scope env val start end_ body t},
    safe scope env (.ifRange val start end_ body) t →
      Schedule.Along (run scope env) (safe scope env) body t
  leaf : ∀ {scope env leaf s t}, leaf.isScope = false → leaf.verify decls scope = true →
    safe scope env leaf t → (K.cells s).Agree scope env → holds s t →
      holds (K.act (.leaf leaf scope) s) (run scope env leaf t)
  guard : ∀ {scope env val start end_ body s t}, val.verify decls scope = true → start ≤ end_ →
    safe scope env (.ifRange val start end_ body) t → (K.cells s).Agree scope env → holds s t →
      K.test (.inRange val (BitVec.ofInt 64 start.toInt) (BitVec.ofInt 64 end_.toInt)) s = true

section Machine

variable {K : CodeMachine F σ} {G : FlowGraph (Instr F) (Cond F)}

/-- What the code for a piece of a program does: it runs from where its emission starts to where it
ends, leaves a state with the given property, and keeps the cells of all loops but its own. -/
def CodeMachine.Computes (K : CodeMachine F σ) (G : FlowGraph (Instr F) (Cond F)) (B B' : Emitter F)
    (ids : List LoopId) (s : σ) (post : σ → Prop) : Prop :=
  ∃ s', Steps G K.act K.test (B.point s) (B'.point s') ∧ post s' ∧
    ∀ L, L ∉ ids → K.cells s' L = K.cells s L

/-! ## Loops -/

section Loop

variable {header : Loop} {top : Nat} {cells : Cells} {ids : List LoopId}

/-- The index cell holds the index of iteration `k`, the cells of the loops outside hold what they
held. -/
structure Cells.AtIteration (header : Loop) (ids : List LoopId) (cells : Cells) (k : Nat)
    (now : Cells) : Prop where
  index : now header.id = BitVec.ofNat 64 (k * header.stride.toNat)
  outside : ∀ L, L ≠ header.id → L ∉ ids → now L = cells L

theorem Cells.AtIteration.agree {scope : List LoopId} {env : Env} {k : Nat} {now : Cells}
    (here : Cells.AtIteration header ids cells k now)
    (below : k * header.stride.toNat < header.end_.toNat) (apart : ∀ L ∈ scope, L ∉ ids)
    (agree : cells.Agree scope env) :
    now.Agree (header.id :: scope)
      (Function.update env header.id (Int.ofNat (k * header.stride.toNat))) := by
  intro L mem
  by_cases this : L = header.id
  · rw [this, Cells.env, here.index, Function.update_self]
    exact toInt_ofNat64 (by have := header.end_.toNat_lt; omega)
  · have around := (List.mem_cons.mp mem).resolve_left this
    rw [Function.update_of_ne this, ← agree L around, Cells.env, here.outside L this (apart L around),
      Cells.env]

theorem CodeMachine.loop_enters (K : CodeMachine F σ) (ids : List LoopId) {B : Emitter F}
    (isOpen : B.Open) (finished : Completes (header.emitHeader B).blocks G) (s : σ) :
    ∃ now, Steps G K.act K.test (B.point s) ⟨B.size, 0, K.setCells s now⟩ ∧
      Cells.AtIteration header ids (K.cells s) 0 now := by
  obtain ⟨atEntry, -, -⟩ := Loop.finished_blocks isOpen finished
  let zero : σ := K.setCells s (Function.update (K.cells s) header.id 0)
  have alloca : Step G K.act K.test (B.point s)
      ⟨B.insert, (B.blocks B.insert).instrs.length + 1, s⟩ := by
    have step := @Step.instr _ _ _ G K.act K.test B.insert (B.blocks B.insert).instrs.length
      (.alloca header.id) s (by simp [atEntry])
    rwa [K.alloca] at step
  have store : Step G K.act K.test ⟨B.insert, (B.blocks B.insert).instrs.length + 1, s⟩
      ⟨B.insert, (B.blocks B.insert).instrs.length + 2, zero⟩ := by
    have step := @Step.instr _ _ _ G K.act K.test B.insert ((B.blocks B.insert).instrs.length + 1)
      (.storeIndex header.id 0) s (by simp [atEntry])
    rwa [K.storeIndex] at step
  have br : Step G K.act K.test ⟨B.insert, (B.blocks B.insert).instrs.length + 2, zero⟩
      ⟨B.size, 0, zero⟩ := Step.br (by simp [atEntry]) (by simp [atEntry])
  refine ⟨_, ((Relation.ReflTransGen.single alloca).tail store).tail br, by simp, ?_⟩
  intro L apart _
  simp [apart]

/-- The header compares the index of iteration `k` with the end. -/
theorem CodeMachine.header_step (K : CodeMachine F σ) (verified : header.verify = true) {k : Nat}
    {s : σ} (atHeader : G top = ⟨[], some (.condBr
      (.indexBelow header.id (BitVec.ofNat 64 header.end_.toNat)) (top + 1) (top + 3))⟩)
    (count : k ≤ (header.end_.toNat + header.stride.toNat - 1) / header.stride.toNat)
    (here : Cells.AtIteration header ids cells k (K.cells s)) :
    Step G K.act K.test ⟨top, 0, s⟩
      ⟨if k * header.stride.toNat < header.end_.toNat then top + 1 else top + 3, 0, s⟩ := by
  obtain ⟨-, -, -, strideSmall, -⟩ := Loop.verify_iff.mp verified
  have endSmall := header.end_.toNat_lt
  have inside : k * header.stride.toNat ≤ header.end_.toNat + header.stride.toNat - 1 :=
    (Nat.mul_le_mul_right _ count).trans (Nat.div_mul_le_self _ _)
  have test : K.test (.indexBelow header.id (BitVec.ofNat 64 header.end_.toNat)) s =
      decide (k * header.stride.toNat < header.end_.toNat) := by
    simp only [K.indexBelow, here.index, BitVec.slt, Int.ofNat_lt,
      toInt_ofNat64 (show k * header.stride.toNat < 2 ^ 63 by omega),
      toInt_ofNat64 (show header.end_.toNat < 2 ^ 63 by omega)]
  have branch := @Step.condBr _ _ _ G K.act K.test top 0 s
    (.indexBelow header.id (BitVec.ofNat 64 header.end_.toNat)) (top + 1) (top + 3)
    (by simp [atHeader]) (by simp [atHeader])
  simpa only [test, decide_eq_true_eq] using branch

theorem CodeMachine.next_steps (K : CodeMachine F σ) {k : Nat} {s : σ}
    (atNext : G (top + 2) =
      ⟨[.addIndex header.id (BitVec.ofNat 64 header.stride.toNat)], some (.br top)⟩)
    (here : Cells.AtIteration header ids cells k (K.cells s)) :
    ∃ now, Steps G K.act K.test ⟨top + 2, 0, s⟩ ⟨top, 0, K.setCells s now⟩ ∧
      Cells.AtIteration header ids cells (k + 1) now := by
  have add := @Step.instr _ _ _ G K.act K.test (top + 2) 0
    (.addIndex header.id (BitVec.ofNat 64 header.stride.toNat)) s (by simp [atNext])
  rw [K.addIndex] at add
  refine ⟨_, (Relation.ReflTransGen.single add).tail
    (Step.br (by simp [atNext]) (by simp [atNext])), ?_, ?_⟩
  · rw [Function.update_self, here.index, ← BitVec.ofNat_add, Nat.add_mul, Nat.one_mul]
  · intro L apart outside
    rw [Function.update_of_ne apart]
    exact here.outside L apart outside

/-- The iterations from `k` on, by induction on how many are left. -/
theorem CodeMachine.loop_steps {holds : σ → τ → Prop} {body : Int → τ → τ} {safe : Int → τ → Prop}
    (holds_setCells : ∀ {s t} cells, holds s t → holds (K.setCells s cells) t)
    (verified : header.verify = true) (apart : header.id ∉ ids)
    (atHeader : G top = ⟨[], some (.condBr
      (.indexBelow header.id (BitVec.ofNat 64 header.end_.toNat)) (top + 1) (top + 3))⟩)
    (atNext : G (top + 2) =
      ⟨[.addIndex header.id (BitVec.ofNat 64 header.stride.toNat)], some (.br top)⟩)
    (iteration : ∀ k s t, k * header.stride.toNat < header.end_.toNat →
      Cells.AtIteration header ids cells k (K.cells s) → holds s t →
      safe (Int.ofNat (k * header.stride.toNat)) t →
      ∃ s', Steps G K.act K.test ⟨top + 1, 0, s⟩ ⟨top + 2, 0, s'⟩ ∧
        holds s' (body (Int.ofNat (k * header.stride.toNat)) t) ∧
        ∀ L, L ∉ ids → K.cells s' L = K.cells s L)
    (m k : Nat) (s : σ) (t : τ)
    (count : k + m = (header.end_.toNat + header.stride.toNat - 1) / header.stride.toNat)
    (here : Cells.AtIteration header ids cells k (K.cells s)) (start : holds s t)
    (along : Schedule.Along body safe
      ((List.range' k m).map fun j => Int.ofNat (j * header.stride.toNat)) t) :
    ∃ s', Steps G K.act K.test ⟨top, 0, s⟩ ⟨top + 3, 0, s'⟩ ∧
      holds s' (Schedule.run body
        ((List.range' k m).map fun j => Int.ofNat (j * header.stride.toNat)) t) ∧
      ∀ L, L ≠ header.id → L ∉ ids → K.cells s' L = cells L := by
  obtain ⟨-, -, positive, -, -⟩ := Loop.verify_iff.mp verified
  -- The induction is on the number of iterations that are left.
  induction m generalizing k s t with
  | zero =>
    have done : ¬ k * header.stride.toNat < header.end_.toNat := by
      rw [← IterationSpace.lt_count_iff positive]
      omega
    have compare := K.header_step verified atHeader (by omega) here
    rw [if_neg done] at compare
    exact ⟨s, Relation.ReflTransGen.single compare, start, here.outside⟩
  | succ m ih =>
    have more : k * header.stride.toNat < header.end_.toNat := by
      rw [← IterationSpace.lt_count_iff positive]
      omega
    rw [List.range'_succ, List.map_cons] at along ⊢
    have compare := K.header_step verified atHeader (by omega) here
    rw [if_pos more] at compare
    obtain ⟨bodyEnd, runBody, bodyHolds, kept⟩ := iteration k s t more here start along.1
    -- The body has loops of its own, but it does not touch the index cell of this one.
    have still : Cells.AtIteration header ids cells k (K.cells bodyEnd) :=
      ⟨(kept _ apart).trans here.index,
        fun L other outside => (kept L outside).trans (here.outside L other outside)⟩
    obtain ⟨now, runNext, atNow⟩ := K.next_steps atNext still
    obtain ⟨last, runRest, restHolds, restKept⟩ := ih (k + 1) (K.setCells bodyEnd now) _ (by omega)
      (by rwa [K.cells_setCells]) (holds_setCells now bodyHolds) along.2
    refine ⟨last, ?_, restHolds, restKept⟩
    exact (Relation.ReflTransGen.head compare runBody).trans (runNext.trans runRest)

end Loop

/-! ## Statements -/

namespace CodeMeaning

variable {decls : Decls} (A : CodeMeaning K decls τ)

/-- A statement that is verified and safe is computed by its code, which keeps the cells of the loops
around it. -/
def Compiles (G : FlowGraph (Instr F) (Cond F)) (leaf : Stmt F) : Prop :=
  ∀ {scope : List LoopId} {env : Env} {B : Emitter F} {s : σ} {t : τ},
    leaf.verify decls scope = true → (leaf.collectLoops.map (·.1.id)).Nodup →
    (∀ L ∈ scope, L ∉ leaf.collectLoops.map (·.1.id)) → A.safe scope env leaf t → B.Open →
    Completes (leaf.emit scope B).blocks G → (K.cells s).Agree scope env → A.holds s t →
    K.Computes G B (leaf.emit scope B) (leaf.collectLoops.map (·.1.id)) s
      (A.holds · (A.run scope env leaf t))

theorem body_computes {body : List (Stmt F)} {scope : List LoopId}
    (each : ∀ stmt ∈ body, A.Compiles G stmt)
    (verified : ∀ stmt ∈ body, stmt.verify decls scope = true) (nodup : (Stmt.loopIds body).Nodup)
    (apart : ∀ L ∈ scope, L ∉ Stmt.loopIds body) {env : Env} {B : Emitter F} {s : σ} {t : τ}
    (safe : Schedule.Along (A.run scope env) (A.safe scope env) body t) (isOpen : B.Open)
    (finished : Completes (Stmt.emitBody scope body B).blocks G) (agree : (K.cells s).Agree scope env)
    (start : A.holds s t) :
    K.Computes G B (Stmt.emitBody scope body B) (Stmt.loopIds body) s
      (A.holds · (Schedule.run (A.run scope env) body t)) := by
  induction body generalizing B s t with
  | nil => exact ⟨s, Relation.ReflTransGen.refl, start, fun _ _ => rfl⟩
  | cons stmt rest ih =>
    simp only [Stmt.loopIds, Stmt.collectLoopsBody, List.flatMap_cons, List.map_append,
      List.nodup_append, List.mem_append, not_or] at nodup apart
    have grown := stmt.emit_grows scope B isOpen
    have rest_grown : Grows (stmt.emit scope B).size (stmt.emit scope B)
        (Stmt.emitBody scope rest (stmt.emit scope B)) :=
      Stmt.emitBody_grows (fun t _ => t.emit_grows) scope grown.open_ (Nat.le_refl _)
    obtain ⟨middle, runFirst, firstHolds, firstKept⟩ := each stmt List.mem_cons_self
      (verified stmt List.mem_cons_self) nodup.1 (fun L mem => (apart L mem).1) safe.1 isOpen
      (rest_grown.completes.trans finished) agree start
    -- The loops of the first statement are none of those around the body.
    have still : (K.cells middle).Agree scope env := by
      intro L mem
      rw [Cells.env, firstKept L (apart L mem).1]
      exact agree L mem
    obtain ⟨last, runRest, restHolds, restKept⟩ := ih
      (fun t mem => each t (List.mem_cons_of_mem stmt mem))
      (fun t mem => verified t (List.mem_cons_of_mem stmt mem)) nodup.2.1
      (fun L mem => (apart L mem).2) safe.2 grown.open_ finished still firstHolds
    refine ⟨last, runFirst.trans runRest, restHolds, fun L outside => ?_⟩
    simp only [Stmt.loopIds, Stmt.collectLoopsBody, List.flatMap_cons, List.map_append,
      List.mem_append, not_or] at outside
    rw [restKept L outside.2, firstKept L outside.1]

/-- The code for a statement computes the statement. -/
theorem compiles (stmt : Stmt F) : A.Compiles G stmt := by
  induction stmt using Stmt.inductTree with
  | loop header body ih =>
    intro scope env B s t verified nodup apart safe isOpen finished agree start
    simp only [Stmt.verify, Bool.and_eq_true, Stmt.verifyBody_eq, List.all_eq_true] at verified
    simp only [Stmt.collectLoops_loop, List.map_cons, List.nodup_cons, List.mem_cons,
      not_or] at nodup apart
    obtain ⟨inner, fresh, exitApart, finish⟩ := Loop.emit_parts
      (fun t (_ : t ∈ body) => t.emit_grows) (header.id :: scope) isOpen rfl
    have bodyFinished := finish.completes.trans finished
    have headFinished := inner.completes.trans bodyFinished
    obtain ⟨-, atHeader, atNext⟩ := Loop.finished_blocks isOpen headFinished
    obtain ⟨now, enter, atFirst⟩ := K.loop_enters (Stmt.loopIds body) isOpen headFinished s
    have headerFree : header.id ∉ Stmt.loopIds body := nodup.1
    have outer : ∀ L ∈ header.id :: scope, L ∉ Stmt.loopIds body := by
      intro L mem
      cases List.mem_cons.mp mem with
      | inl same => exact same ▸ headerFree
      | inr around => exact (apart L around).2
    let inside : Int → Stmt F → τ → τ := fun i =>
      A.run (header.id :: scope) (Function.update env header.id i)
    -- One iteration: the body, from its first block to the block for the next iteration.
    have iteration : ∀ k s' t', k * header.stride.toNat < header.end_.toNat →
        Cells.AtIteration header (Stmt.loopIds body) (K.cells s) k (K.cells s') → A.holds s' t' →
        Schedule.Along (inside (Int.ofNat (k * header.stride.toNat))) (A.safe (header.id :: scope)
          (Function.update env header.id (Int.ofNat (k * header.stride.toNat)))) body t' →
        ∃ s'', Steps G K.act K.test ⟨B.size + 1, 0, s'⟩ ⟨B.size + 2, 0, s''⟩ ∧
          A.holds s'' (Schedule.run (inside (Int.ofNat (k * header.stride.toNat))) body t') ∧
          ∀ L, L ∉ Stmt.loopIds body → K.cells s'' L = K.cells s' L := by
      intro k here t' below atK holdsHere safeHere
      have still := atK.agree below (fun L mem => (apart L mem).2) agree
      obtain ⟨bodyEnd, runs, holdsEnd, kept⟩ := A.body_computes ih verified.2 nodup.2 outer safeHere
        (header.emitHeader_grows isOpen).open_ bodyFinished still holdsHere
      rw [Loop.emitHeader_point isOpen] at runs
      exact ⟨bodyEnd, runs.tail (step_br finished bodyEnd), holdsEnd, kept⟩
    have iterations : header.iterations = (List.range' 0
        ((header.end_.toNat + header.stride.toNat - 1) / header.stride.toNat)).map
          fun j => Int.ofNat (j * header.stride.toNat) := by
      rw [Loop.iterations, IterationSpace.strided, List.range_eq_range', List.map_map]
      rfl
    have along := A.safe_loop safe
    rw [iterations] at along
    obtain ⟨last, runs, lastHolds, kept⟩ := K.loop_steps A.holds_setCells verified.1 headerFree
      atHeader atNext iteration _ 0 (K.setCells s now) t (Nat.zero_add _)
      (by rwa [K.cells_setCells]) (A.holds_setCells now start) along
    refine ⟨last, ?_, ?_, ?_⟩
    · rw [Stmt.emit, point_jump fresh exitApart]
      exact enter.trans runs
    · rw [A.run_loop, iterations]
      exact lastHolds
    · intro L outside
      simp only [Stmt.collectLoops_loop, List.map_cons, List.mem_cons, not_or] at outside
      exact kept L outside.1 outside.2
  | ifRange val start end_ body ih =>
    intro scope env B s t verified nodup apart safe isOpen finished agree holdsHere
    simp only [Stmt.verify, Bool.and_eq_true, Stmt.verifyBody_eq, List.all_eq_true,
      decide_eq_true_eq] at verified
    simp only [Stmt.collectLoops_ifRange] at nodup apart
    obtain ⟨inner, fresh, exitApart, finish⟩ := emitGuard_parts
      (fun t (_ : t ∈ body) => t.emit_grows) scope isOpen rfl
    have bodyFinished := finish.completes.trans finished
    have atGuard := guard_finished_block isOpen (inner.completes.trans bodyFinished)
    have enter := @Step.condBr _ _ _ G K.act K.test B.insert
      (B.blocks B.insert).instrs.length s _ _ _ (by simp [atGuard]) (by rw [atGuard])
    rw [A.guard verified.1.2 verified.1.1 safe agree holdsHere, if_pos rfl] at enter
    obtain ⟨last, runs, lastHolds, kept⟩ := A.body_computes ih verified.2 nodup apart
      (A.safe_ifRange safe) (emitGuard_grows val start end_ isOpen).open_ bodyFinished agree holdsHere
    rw [emitGuard_point isOpen] at runs
    have leave := @step_br _ _ _ G K.act K.test _ _ finished last
    refine ⟨last, ?_, ?_, ?_⟩
    · rw [Stmt.emit, point_jump fresh exitApart]
      exact (Relation.ReflTransGen.head enter runs).tail leave
    · rw [A.run_ifRange]
      exact lastHolds
    · rw [Stmt.collectLoops_ifRange]
      exact kept
  | call | store | storeLocal =>
    intro scope env B s t verified _ _ safe isOpen finished agree start
    exact ⟨_, Relation.ReflTransGen.single (step_insertInstr finished s),
      A.leaf rfl verified safe agree start, fun L _ => by rw [K.cells_leaf]⟩

end CodeMeaning

/-- The code for a program halts, and has computed the program. -/
theorem CodeMeaning.program_computes {p : Program F} (A : CodeMeaning K p.decls τ)
    (verified : p.verify = true) {env : Env} {s : σ} {t : τ}
    (safe : Schedule.Along (A.run [] env) (A.safe [] env) p.body t) (start : A.holds s t) :
    ∃ c, Steps p.emit K.act K.test ⟨0, 0, s⟩ c ∧ Halted p.emit c ∧
      A.holds c.state (Schedule.run (A.run [] env) p.body t) := by
  have grown : Grows 1 (Emitter.entry : Emitter F) (Stmt.emitBody [] p.body .entry) :=
    Stmt.emitBody_grows (fun s _ => s.emit_grows) [] Emitter.entry_open (Nat.le_refl _)
  have finished : Completes (Stmt.emitBody [] p.body .entry).blocks p.emit := by
    intro n
    by_cases here : n = (Stmt.emitBody [] p.body .entry).insert
    · subst here
      simp [Program.emit, Builder.terminate, grown.open_.open_]
    · simp [Program.emit, Builder.terminate, here]
  obtain ⟨last, runs, holdsLast, -⟩ := A.body_computes (fun s _ => A.compiles s)
    (Program.verify_body verified) (Program.nodup_loopIds verified) (by simp) safe
    Emitter.entry_open finished (by simp [Cells.Agree]) start
  exact ⟨_, runs, halted_ret (Completes.refl _) last, holdsLast⟩

end Machine

end Bistra
