import Bistra.Program.ScopeEdits

/-! # Runs of operations on handles and scopes

The links between handles and nodes stay consistent in every run, and the operations on scopes are
those on lists.  The parent of a handle can go wrong: `operator=(ASTHandle &&)` takes it from the
other handle, which need not be in the same node.
-/

namespace Bistra

/-- The operations of `ASTHandle`. -/
inductive HandleOp where
  | construct (ref owner : Option NodeId)
  | setReference (h : HandleId) (ref : Option NodeId)
  | take (h : HandleId)
  | moveConstruct (other : HandleId)
  | moveAssign (h other : HandleId)

/-- The operations of `Scope` on `body_`. -/
inductive ScopeOp where
  | addStmt (S s : NodeId)
  | removeStmt (S s : NodeId)
  | insertBeforeStmt (S s where_ : NodeId)
  | insertAfterStmt (S s where_ : NodeId)
  | replaceStmt (S newS oldS : NodeId)
  | takeContent (S other : NodeId)
  | clear (S : NodeId)

inductive Op where
  | handle (op : HandleOp)
  | scope (op : ScopeOp)

/-- The operation on lists. -/
def ScopeOp.onLists (f : Forest) : ScopeOp → Forest
  | .addStmt S s => f.addStmt S s
  | .removeStmt S s => f.removeStmt S s
  | .insertBeforeStmt S s where_ => f.insertBeforeStmt S s where_
  | .insertAfterStmt S s where_ => f.insertAfterStmt S s where_
  | .replaceStmt S newS oldS => f.replaceStmt S newS oldS
  | .takeContent S other => f.takeContent S other
  | .clear S => f.clear S

namespace Heap

section Run

variable (grow : Nat → Nat) (depth : Nat)

/-- Whether a pointer is null or to a node that is there. -/
def valid (heap : Heap) (ref : Option NodeId) : Bool := ref.all heap.alive

def handleStep (heap : Heap) : HandleOp → Option Heap
  | .construct ref owner => if heap.valid ref then some (heap.construct ref owner) else none
  | .setReference h ref =>
    if h < heap.next && heap.valid ref then some (heap.setReference h ref) else none
  | .take h => if h < heap.next then (heap.take h).map Prod.fst else none
  | .moveConstruct other => if other < heap.next then some (heap.moveConstruct other) else none
  | .moveAssign h other =>
    if h < heap.next && other < heap.next then some (heap.moveAssign h other) else none

def scopeStep (heap : Heap) : ScopeOp → Option Heap
  | .addStmt S s => heap.addStmt grow depth S s
  | .removeStmt S s => heap.removeStmt depth S s
  | .insertBeforeStmt S s where_ => heap.insertBeforeStmt grow depth S s where_
  | .insertAfterStmt S s where_ => heap.insertAfterStmt grow depth S s where_
  | .replaceStmt S newS oldS => heap.replaceStmt depth S newS oldS
  | .takeContent S other => heap.takeContent grow depth S other
  | .clear S => heap.clear depth S

def step (heap : Heap) : Op → Option Heap
  | .handle op => heap.handleStep op
  | .scope op => heap.scopeStep grow depth op

def run (heap : Heap) (ops : List Op) : Option Heap := ops.foldlM (step grow depth) heap

/-- What an operation on a scope asks for.  A destructor that `replaceStmt` runs may come upon a
node twice, and nothing is said about it here. -/
def ready (heap : Heap) : ScopeOp → Prop
  | .addStmt S s => heap.alive S = true ∧ heap.alive s = true
  | .removeStmt S _ => heap.alive S = true
  | .insertBeforeStmt S s where_ | .insertAfterStmt S s where_ =>
    heap.alive S = true ∧ heap.alive s = true ∧ where_ ∈ heap.contents S
  | .replaceStmt _ _ _ => False
  | .takeContent S other => heap.alive S = true ∧ heap.alive other = true ∧ S ≠ other
  | .clear S => heap.alive S = true

/-- No handle in a node is assigned from a handle with another parent. -/
def keepsParents (heap : Heap) : Op → Prop
  | .handle (.moveAssign h other) => ∀ n, h ∈ heap.held n → heap.parent other = heap.parent h
  | _ => True

/-- Every operation of the run keeps the parents. -/
def KeepsParents (heap : Heap) : List Op → Prop
  | [] => True
  | op :: ops =>
    heap.keepsParents op ∧ ∀ heap', heap.step grow depth op = some heap' → heap'.KeepsParents ops

end Run

variable {heap heap' : Heap} {grow : Nat → Nat} {depth : Nat}

/-! ## The links -/

theorem valid_iff {ref : Option NodeId} :
    heap.valid ref = true ↔ ∀ n, ref = some n → heap.alive n = true := by
  cases ref <;> simp [valid]

theorem consistent_handleStep (consistent : heap.Consistent) {op : HandleOp}
    (result : heap.handleStep op = some heap') : heap'.Consistent := by
  cases op with
  | construct ref owner =>
    simp only [handleStep, Option.ite_none_right_eq_some, Option.some.injEq] at result
    obtain ⟨valid, rfl⟩ := result
    exact consistent.construct (valid_iff.mp valid)
  | setReference h ref =>
    simp only [handleStep, Option.ite_none_right_eq_some, Option.some.injEq, Bool.and_eq_true,
      decide_eq_true_eq] at result
    obtain ⟨⟨exists_, valid⟩, rfl⟩ := result
    exact consistent.setReference exists_ (valid_iff.mp valid)
  | take h =>
    simp only [handleStep, take, get_eq consistent.links, Option.ite_none_right_eq_some] at result
    obtain ⟨exists_, rest⟩ := result
    cases rest
    exact consistent.setReference exists_ (by simp)
  | moveConstruct other =>
    simp only [handleStep, Option.ite_none_right_eq_some, Option.some.injEq] at result
    obtain ⟨-, rfl⟩ := result
    exact consistent.moveConstruct
  | moveAssign h other =>
    simp only [handleStep, Option.ite_none_right_eq_some, Option.some.injEq, Bool.and_eq_true,
      decide_eq_true_eq] at result
    obtain ⟨⟨exists_, -⟩, rfl⟩ := result
    exact consistent.moveAssign exists_

theorem scopeStep_spec (consistent : heap.Consistent) {op : ScopeOp}
    (result : heap.scopeStep grow depth op = some heap') :
    heap'.Consistent ∧ (heap.Placed → heap'.Placed) ∧
      ∀ T, heap'.alive T = true → heap'.contents T = op.onLists heap.contents T := by
  have edits : ∀ {S : NodeId} {f : Forest}, Edits S heap heap' ∧ heap'.contents = f →
      heap'.Consistent ∧ (heap.Placed → heap'.Placed) ∧
        ∀ T, heap'.alive T = true → heap'.contents T = f T := fun spec =>
    ⟨spec.1.consistent, spec.1.placed, fun T _ => congrFun spec.2 T⟩
  cases op with
  | addStmt S s => exact edits (addStmt_spec consistent result)
  | removeStmt S s => exact edits (removeStmt_spec consistent result)
  | insertBeforeStmt S s where_ => exact edits (insertBeforeStmt_spec consistent result)
  | insertAfterStmt S s where_ => exact edits (insertAfterStmt_spec consistent result)
  | replaceStmt S newS oldS =>
    obtain ⟨after, placed, -, values⟩ := replaceStmt_spec consistent result
    exact ⟨after, placed, values⟩
  | takeContent S other =>
    obtain ⟨middle, first, second, values⟩ := takeContent_spec consistent result
    exact ⟨second.consistent, second.placed ∘ first.placed, fun T _ => congrFun values T⟩
  | clear S => exact edits (clear_spec consistent result)

theorem consistent_step (consistent : heap.Consistent) {op : Op}
    (result : heap.step grow depth op = some heap') : heap'.Consistent := by
  cases op with
  | handle op => exact consistent_handleStep consistent result
  | scope op => exact (scopeStep_spec consistent result).1

theorem consistent_run (consistent : heap.Consistent) {ops : List Op}
    (result : heap.run grow depth ops = some heap') : heap'.Consistent := by
  induction ops generalizing heap with
  | nil =>
    cases result
    exact consistent
  | cons op ops ih =>
    obtain ⟨middle, first, rest⟩ := Option.bind_eq_some_iff.mp result
    exact ih (consistent_step consistent first) rest

/-! ## The parents -/

theorem placed_handleStep (consistent : heap.Consistent) (placed : heap.Placed) {op : HandleOp}
    (keeps : heap.keepsParents (.handle op)) (result : heap.handleStep op = some heap') :
    heap'.Placed := by
  have fresh : ∀ ref owner, (heap.construct ref owner).Placed := fun ref owner n u inside => by
    have old := consistent.bound n u inside
    exact (Function.update_of_ne (Nat.ne_of_lt old) ..).trans (placed n u inside)
  cases op with
  | construct ref owner =>
    simp only [handleStep, Option.ite_none_right_eq_some, Option.some.injEq] at result
    obtain ⟨-, rfl⟩ := result
    exact fresh ref owner
  | setReference h ref =>
    simp only [handleStep, Option.ite_none_right_eq_some, Option.some.injEq] at result
    obtain ⟨-, rfl⟩ := result
    exact placed
  | take h =>
    simp only [handleStep, take, get_eq consistent.links, Option.ite_none_right_eq_some] at result
    obtain ⟨-, rest⟩ := result
    cases rest
    exact placed
  | moveConstruct other =>
    simp only [handleStep, Option.ite_none_right_eq_some, Option.some.injEq] at result
    obtain ⟨-, rfl⟩ := result
    exact fresh _ _
  | moveAssign h other =>
    simp only [handleStep, Option.ite_none_right_eq_some, Option.some.injEq] at result
    obtain ⟨-, rfl⟩ := result
    intro n u inside
    -- The handle that is assigned takes its parent from the other one, and the step keeps parents.
    by_cases same : u = h
    · subst same
      have parent := (keeps n inside).trans (placed n u inside)
      exact (Function.update_self ..).trans parent
    · exact (Function.update_of_ne same ..).trans (placed n u inside)

theorem placed_run (consistent : heap.Consistent) (placed : heap.Placed) {ops : List Op}
    (keeps : heap.KeepsParents grow depth ops) (result : heap.run grow depth ops = some heap') :
    heap'.Placed := by
  induction ops generalizing heap with
  | nil =>
    cases result
    exact placed
  | cons op ops ih =>
    obtain ⟨middle, first, rest⟩ := Option.bind_eq_some_iff.mp result
    refine ih (consistent_step consistent first) ?_ (keeps.2 middle first) rest
    cases op with
    | handle op => exact placed_handleStep consistent placed keeps.1 first
    | scope op => exact (scopeStep_spec consistent first).2.1 placed

/-! ## The operations come to an end -/

theorem guard_of {p : Prop} [Decidable p] {α : Type} {next : Option α} (holds : p)
    (returns : ∃ a, next = some a) : ∃ a, (do guard p; next) = some a := by
  obtain ⟨a, returned⟩ := returns
  exact ⟨a, by simpa [guard, holds] using returned⟩

theorem emplace_returns (consistent : heap.Consistent) {S s : NodeId} (pos : Nat)
    (live : heap.alive s = true) :
    ∃ heap', heap.emplace grow depth S pos (some s) = some heap' := by
  obtain ⟨heap', result, -⟩ := emplace_spec grow depth pos consistent
    (s := some s) (S := S) fun n same => Option.some.inj same ▸ live
  exact ⟨heap', result⟩

theorem find_returns {S where_ : NodeId} (mem : where_ ∈ heap.contents S) :
    ∃ pos, heap.find S where_ = some pos := by
  obtain ⟨h, inside, refers⟩ := List.mem_filterMap.mp mem
  exact Option.isSome_iff_exists.mp
    (List.findIdx?_isSome.trans (List.any_eq_true.mpr ⟨h, inside, decide_eq_true refers⟩))

theorem clear_returns (consistent : heap.Consistent) {S : NodeId} (live : heap.alive S = true) :
    ∃ heap', heap.clear depth S = some heap' := by
  refine guard_of live ?_
  have releases := releases_clear consistent fun u mem => consistent.lt_of_body (T := S) mem
  generalize (heap.body S).foldl (fun heap h => heap.setReference h none) heap = middle at releases
  have empty : ∀ u ∈ heap.body S, middle.ref u = none :=
    fun u mem => (releases.ref u).trans (if_pos mem)
  dsimp only
  rw [congrFun releases.body S, destroyAll_of_empty empty]
  exact ⟨_, rfl⟩

theorem scopeStep_returns (consistent : heap.Consistent) {op : ScopeOp} (ready : heap.ready op) :
    ∃ heap', heap.scopeStep grow depth op = some heap' := by
  cases op with
  | addStmt S s =>
    exact guard_of (Bool.and_eq_true_iff.mpr ready) (emplace_returns consistent _ ready.2)
  | removeStmt S s =>
    refine guard_of ready ?_
    obtain ⟨middle, unregistered, releases⟩ := releases_unregister (s := s) consistent
      fun u mem => consistent.lt_of_body (T := S) mem
    obtain ⟨last, erased, -⟩ := @eraseEmpty_spec middle S depth releases.consistent
    rw [unregistered]
    exact ⟨last, erased⟩
  | insertBeforeStmt S s where_ =>
    obtain ⟨aliveS, live, mem⟩ := ready
    obtain ⟨pos, found⟩ := find_returns mem
    refine guard_of (Bool.and_eq_true_iff.mpr ⟨aliveS, live⟩) ?_
    rw [found]
    exact emplace_returns consistent pos live
  | insertAfterStmt S s where_ =>
    obtain ⟨aliveS, live, mem⟩ := ready
    obtain ⟨pos, found⟩ := find_returns mem
    refine guard_of (Bool.and_eq_true_iff.mpr ⟨aliveS, live⟩) ?_
    rw [found]
    exact emplace_returns consistent (pos + 1) live
  | replaceStmt S newS oldS => exact ready.elim
  | takeContent S other =>
    obtain ⟨aliveS, aliveOther, distinct⟩ := ready
    refine guard_of (by simp [aliveS, aliveOther, distinct]) ?_
    obtain ⟨middle, moved, edits, -⟩ := @takeAll_spec heap S grow depth other distinct.symm
      (heap.body other) (consistent.body_nodup other) consistent fun _ mem => mem
    rw [moved]
    exact clear_returns edits.consistent (by rwa [edits.alive])
  | clear S => exact clear_returns consistent ready

/-! ## Runs -/

/-- In every run a handle refers to a node if and only if it is the owner handle of the node, every
node stands in one place at most, and the operations on scopes are those on lists.  The parent of
what stands in a node is the node as long as no handle there is assigned from a handle with another
parent. -/
theorem run_ownership (consistent : heap.Consistent) (placed : heap.Placed) {ops : List Op}
    (result : heap.run grow depth ops = some heap') :
    (∀ h n, heap'.ref h = some n ↔ heap'.owner n = some h) ∧
      (∀ S T n, n ∈ heap'.contents S → n ∈ heap'.contents T → S = T) ∧
      (∀ S, (heap'.contents S).Nodup) ∧
      (∀ op, heap'.ready op → ∃ last, heap'.scopeStep grow depth op = some last) ∧
      (∀ op last, heap'.scopeStep grow depth op = some last → ∀ T, last.alive T = true →
        last.contents T = op.onLists heap'.contents T) ∧
      (heap.KeepsParents grow depth ops → ∀ S n, n ∈ heap'.contents S →
        heap'.getParent n = some S) := by
  have after := consistent_run consistent result
  refine ⟨after.links, fun S T n inS inT => ?_, fun S => ?_, fun op => scopeStep_returns after,
    fun op last stepped => (scopeStep_spec after stepped).2.2, fun keeps S n mem => ?_⟩
  · obtain ⟨h, memS, refers⟩ := List.mem_filterMap.mp inS
    obtain ⟨u, memT, held⟩ := List.mem_filterMap.mp inT
    cases after.links.unique refers held
    exact after.apart S T h (List.mem_append_left _ memS) (List.mem_append_left _ memT)
  · refine (after.body_nodup S).filterMap fun h u n refers held => ?_
    exact after.links.unique refers held
  · obtain ⟨h, inside, refers⟩ := List.mem_filterMap.mp mem
    exact after.getParent_of_held (placed_run consistent placed keeps result)
      (List.mem_append_left _ inside) refers

/-- No handle yet, and every node is there. -/
def empty : Heap where
  ref _ := none
  owner _ := none
  parent _ := none
  body _ := []
  capacity _ := 0
  operands _ := []
  alive _ := true
  next := 0

theorem consistent_empty : empty.Consistent where
  links h n := by simp [empty]
  live h n refers := by simp [empty] at refers
  fresh h _ := rfl
  bound n h inside := by simp [empty, held] at inside
  nodup n := by simp [empty, held]
  apart n m h inside := by simp [empty, held] at inside

theorem placed_empty : empty.Placed := fun n h inside => by simp [empty, held] at inside

/-- Two scopes with a statement each, and the content of one goes over to the other one. -/
theorem two_scopes_run :
    ∃ heap', empty.run (· + 1) 1 [.scope (.addStmt 0 2), .scope (.addStmt 1 3),
        .scope (.insertBeforeStmt 1 4 3), .scope (.takeContent 0 1)] = some heap' ∧
      (∀ h n, heap'.ref h = some n ↔ heap'.owner n = some h) ∧
      heap'.contents 0 = [2, 4, 3] ∧ heap'.getParent 3 = some 0 := by
  obtain ⟨heap', result⟩ := Option.isSome_iff_exists.mp (show (empty.run (· + 1) 1
    [.scope (.addStmt 0 2), .scope (.addStmt 1 3), .scope (.insertBeforeStmt 1 4 3),
      .scope (.takeContent 0 1)]).isSome = true by decide +kernel)
  have values : heap'.contents 0 = [2, 4, 3] := by
    have computed : (empty.run (· + 1) 1 [.scope (.addStmt 0 2), .scope (.addStmt 1 3),
      .scope (.insertBeforeStmt 1 4 3), .scope (.takeContent 0 1)]).map (·.contents 0) =
        some [2, 4, 3] := by decide +kernel
    rw [result] at computed
    exact Option.some.inj computed
  have spec := run_ownership consistent_empty placed_empty result
  have keeps : empty.KeepsParents (· + 1) 1 [.scope (.addStmt 0 2), .scope (.addStmt 1 3),
      .scope (.insertBeforeStmt 1 4 3), .scope (.takeContent 0 1)] :=
    ⟨trivial, fun _ _ => ⟨trivial, fun _ _ => ⟨trivial, fun _ _ => ⟨trivial, fun _ _ => trivial⟩⟩⟩⟩
  exact ⟨heap', result, spec.1, values, spec.2.2.2.2.2 keeps 0 3 (by simp [values])⟩

/-- The handle of the statement in one scope is assigned from the handle in another scope: the
statement that it refers to then stands in the one, and its parent is the other. -/
theorem getParent_wrong_after_moveAssign :
    ¬ ∀ (heap heap' : Heap) (ops : List Op), heap.Consistent → heap.Placed →
      heap.run (· + 1) 1 ops = some heap' →
        ∀ S n, n ∈ heap'.contents S → heap'.getParent n = some S := by
  intro always
  obtain ⟨heap', result⟩ := Option.isSome_iff_exists.mp (show (empty.run (· + 1) 1
    [.scope (.addStmt 0 2), .scope (.addStmt 1 3), .handle (.moveAssign 0 1)]).isSome = true by
      decide +kernel)
  have computed : (empty.run (· + 1) 1 [.scope (.addStmt 0 2), .scope (.addStmt 1 3),
      .handle (.moveAssign 0 1)]).map (fun heap => (heap.contents 0, heap.getParent 3)) =
        some ([3], some 1) := by decide +kernel
  rw [result] at computed
  obtain ⟨values, parent⟩ := Prod.mk.inj (Option.some.inj computed)
  have named := always empty heap' _ consistent_empty placed_empty result 0 3 (by rw [values]; simp)
  cases parent.symm.trans named

end Heap

end Bistra
