import Bistra.Program.Handles

/-! # Ownership

What the operations on handles and on scopes keep, and what they do to the statements of the scopes.
-/

namespace Bistra

namespace Heap

variable {heap heap' : Heap} {h other : HandleId} {n S : NodeId} {ref owner : Option NodeId}

/-! ## Consistent heaps -/

/-- The handles in a node. -/
def held (heap : Heap) (n : NodeId) : List HandleId := heap.body n ++ heap.operands n

/-- A handle refers to a node if and only if it is the owner handle of the node; and memory is in
order: no node that is referred to is gone, and no handle is in two places. -/
structure Consistent (heap : Heap) : Prop where
  links : heap.Mutual
  live : ∀ h n, heap.ref h = some n → heap.alive n = true
  fresh : ∀ h, heap.next ≤ h → heap.ref h = none
  bound : ∀ n, ∀ h ∈ heap.held n, h < heap.next
  nodup : ∀ n, (heap.held n).Nodup
  apart : ∀ n m h, h ∈ heap.held n → h ∈ heap.held m → n = m

/-- The parent of a handle in a node is that node. -/
def Placed (heap : Heap) : Prop := ∀ n, ∀ h ∈ heap.held n, heap.parent h = some n

/-- The statements of a scope, without the handles that are empty. -/
def contents (heap : Heap) (S : NodeId) : List NodeId := (heap.body S).filterMap heap.ref

theorem Consistent.getParent_of_held (consistent : heap.Consistent) (placed : heap.Placed)
    (inside : h ∈ heap.held S) (refers : heap.ref h = some n) : heap.getParent n = some S := by
  rw [getParent, (consistent.links h n).mp refers]
  exact placed S h inside

theorem get_eq (links : heap.Mutual) : heap.get h = some (heap.ref h) := by
  unfold get verify
  cases refers : heap.ref h with
  | none => rfl
  | some n => simp [(links h n).mp refers]

/-! ## Handles -/

theorem ref_setReference (links : heap.Mutual) (u : HandleId) :
    (heap.setReference h ref).ref u = if u = h then ref else heap.without ref u :=
  Links.ref_attach links

theorem Consistent.setReference (consistent : heap.Consistent) (exists_ : h < heap.next)
    (live : ∀ n, ref = some n → heap.alive n = true) : (heap.setReference h ref).Consistent where
  links := consistent.links.attach h ref
  live u n refers := by
    rw [ref_setReference consistent.links] at refers
    by_cases same : u = h
    · exact live n (by simpa [same] using refers)
    · refine consistent.live u n ?_
      simp only [same, if_false, Links.without] at refers
      grind
  fresh u new := by
    have behind : heap.next ≤ u := new
    have other : u ≠ h := (Nat.lt_of_lt_of_le exists_ behind).ne'
    rw [ref_setReference consistent.links, if_neg other, Links.without]
    simp [consistent.fresh u behind]
  bound := consistent.bound
  nodup := consistent.nodup
  apart := consistent.apart

theorem construct_toLinks (fresh : heap.ref heap.next = none) :
    (heap.construct ref owner).toLinks = heap.attach heap.next ref := by
  have same : Function.update heap.ref heap.next none = heap.ref := by
    rw [← fresh, Function.update_eq_self]
  unfold construct setReference
  rw [same]

theorem Consistent.construct (consistent : heap.Consistent)
    (live : ∀ n, ref = some n → heap.alive n = true) : (heap.construct ref owner).Consistent := by
  have fresh := consistent.fresh heap.next le_rfl
  have same : Function.update heap.ref heap.next none = heap.ref := by
    rw [← fresh, Function.update_eq_self]
  have grown : Consistent { heap with
      parent := Function.update heap.parent heap.next owner, next := heap.next + 1 } :=
    { consistent with
      fresh := fun u new => consistent.fresh u (Nat.le_of_succ_le new)
      bound := fun n u inside => Nat.lt_succ_of_lt (consistent.bound n u inside) }
  unfold Heap.construct
  rw [same]
  exact grown.setReference (Nat.lt_succ_self _) live

theorem ref_construct (consistent : heap.Consistent) (u : HandleId) :
    (heap.construct ref owner).ref u = if u = heap.next then ref else heap.without ref u := by
  rw [construct_toLinks (consistent.fresh _ le_rfl), Links.ref_attach consistent.links]

theorem Consistent.moveConstruct (consistent : heap.Consistent) :
    (heap.moveConstruct other).Consistent :=
  consistent.construct fun n refers => consistent.live other n refers

theorem moveConstruct_toLinks (consistent : heap.Consistent) :
    (heap.moveConstruct other).toLinks = heap.move heap.next other :=
  construct_toLinks (consistent.fresh _ le_rfl)

theorem Consistent.moveAssign (consistent : heap.Consistent) (exists_ : h < heap.next) :
    (heap.moveAssign h other).Consistent := by
  have moved : Consistent
      { heap with parent := Function.update heap.parent h (heap.parent other) } :=
    { consistent with }
  exact moved.setReference exists_ fun n refers => consistent.live other n refers

/-! ## Destructors -/

theorem destroyAll_of_empty {delete : Heap → NodeId → Option Heap} {hs : List HandleId}
    (empty : ∀ h ∈ hs, heap.ref h = none) : hs.foldlM (destroy delete) heap = some heap := by
  induction hs with
  | nil => rfl
  | cons h hs ih =>
    rw [List.foldlM_cons, destroy, empty h List.mem_cons_self]
    exact ih fun u mem => empty u (List.mem_cons_of_mem _ mem)

/-- What the destructors of `n` and of the nodes below it leave: handles are emptied only in `n` and
in nodes that are gone. -/
structure Frees (n : NodeId) (heap heap' : Heap) : Prop where
  consistent : heap'.Consistent
  parent : heap'.parent = heap.parent
  next : heap'.next = heap.next
  ref : ∀ h, heap'.ref h = heap.ref h ∨ heap'.ref h = none
  owner : ∀ m, heap'.owner m = heap.owner m ∨ heap'.owner m = none
  alive : ∀ m, heap'.alive m = true → heap.alive m = true
  body : ∀ m, heap'.body m = heap.body m ∨ heap'.alive m = false ∧ heap'.body m = []
  operands : ∀ m, heap'.operands m = heap.operands m ∨ heap'.alive m = false ∧ heap'.operands m = []
  emptied : ∀ h, heap'.ref h ≠ heap.ref h →
    ∃ m, h ∈ heap.held m ∧ (m = n ∨ heap'.alive m = false)
  gone : ∀ m, heap.alive m = true → heap'.alive m = false → ∀ h ∈ heap.held m, heap'.ref h = none

theorem Frees.refl (consistent : heap.Consistent) : Frees n heap heap where
  consistent := consistent
  parent := rfl
  next := rfl
  ref _ := .inl rfl
  owner _ := .inl rfl
  alive _ live := live
  body _ := .inl rfl
  operands _ := .inl rfl
  emptied _ changed := absurd rfl changed
  gone _ live dead := absurd (live.symm.trans dead) (by decide)

theorem Frees.held_of_alive (frees : Frees n heap heap') {m : NodeId}
    (live : heap'.alive m = true) : heap'.held m = heap.held m := by
  have body := frees.body m
  have operands := frees.operands m
  unfold held
  grind

theorem Frees.held_subset (frees : Frees n heap heap') (m : NodeId) :
    heap'.held m ⊆ heap.held m := by
  intro h inside
  have body := frees.body m
  have operands := frees.operands m
  simp only [held, List.mem_append] at inside ⊢
  grind

theorem Frees.trans {last : Heap} (first : Frees n heap heap') (second : Frees n heap' last) :
    Frees n heap last where
  consistent := second.consistent
  parent := second.parent.trans first.parent
  next := second.next.trans first.next
  ref h := by
    have before := first.ref h
    have after := second.ref h
    grind
  owner m := by
    have before := first.owner m
    have after := second.owner m
    grind
  alive m live := first.alive m (second.alive m live)
  body m := by
    have before := first.body m
    have after := second.body m
    have still := second.alive m
    grind
  operands m := by
    have before := first.operands m
    have after := second.operands m
    have still := second.alive m
    grind
  emptied h changed := by
    -- A handle that has been emptied was emptied by the first destructor or by the second.
    by_cases early : heap'.ref h = heap.ref h
    · obtain ⟨m, inside, gone⟩ := second.emptied h (early ▸ changed)
      exact ⟨m, first.held_subset m inside, gone⟩
    · obtain ⟨m, inside, gone⟩ := first.emptied h early
      have still := second.alive m
      exact ⟨m, inside, by grind⟩
  gone m live dead h inside := by
    have after := second.ref h
    -- A node that is gone at the end was gone in between, or the second destructor has met it.
    cases middle : heap'.alive m with
    | false =>
      have empty := first.gone m live middle h inside
      grind
    | true =>
      rw [← first.held_of_alive middle] at inside
      exact second.gone m middle dead h inside

theorem Frees.setReference (freed : Frees n heap heap') (consistent : heap.Consistent)
    (inside : h ∈ heap.held n) : Frees n heap (heap'.setReference h none) where
  consistent := by
    refine freed.consistent.setReference ?_ (by simp)
    rw [freed.next]
    exact consistent.bound n h inside
  parent := freed.parent
  next := freed.next
  ref u := by
    rw [ref_setReference freed.consistent.links, Links.without]
    have before := freed.ref u
    grind
  owner m := by
    have moved := Links.owner_attach (s := h) (v := m) (r := none) freed.consistent.links
    have before := freed.owner m
    simp only [Heap.setReference, moved]
    grind
  alive := freed.alive
  body := freed.body
  operands := freed.operands
  emptied u changed := by
    -- The handle is one of `n`, or it has been emptied before.
    by_cases same : u = h
    · exact ⟨n, same ▸ inside, .inl rfl⟩
    · refine freed.emptied u ?_
      rw [ref_setReference freed.consistent.links, if_neg same, Links.without] at changed
      grind
  gone m live dead u within := by
    have empty := freed.gone m live dead u within
    rw [ref_setReference freed.consistent.links, Links.without]
    grind

theorem Frees.remove (freed : Frees n heap heap') (nobody : ∀ h, heap'.ref h ≠ some n)
    (empty : ∀ h ∈ heap.held n, heap'.ref h = none) :
    Frees n heap { heap' with
      body := Function.update heap'.body n []
      operands := Function.update heap'.operands n []
      alive := Function.update heap'.alive n false } := by
  have held_eq : ∀ m, Function.update heap'.body n [] m ++ Function.update heap'.operands n [] m =
      if m = n then [] else heap'.held m := by
    intro m
    by_cases same : m = n <;> simp [same, held]
  have same := freed.consistent
  refine { freed with
    consistent := { same with live := ?_, bound := ?_, nodup := ?_, apart := ?_ }
    alive := ?_, body := ?_, operands := ?_, emptied := ?_, gone := ?_ }
  · intro h m refers
    -- Nobody refers to `n`, so every node that is referred to is still there.
    have other : m ≠ n := fun eq => nobody h (eq ▸ refers)
    simp only [Function.update_of_ne other]
    exact same.live h m refers
  · intro m h inside
    simp only [held, held_eq] at inside
    have bound := same.bound m h
    grind
  · intro m
    have nodup := same.nodup m
    simp only [held, held_eq]
    grind
  · intro m k h inM inK
    simp only [held, held_eq] at inM inK
    have apart := same.apart m k h
    grind
  · intro m live
    have alive := freed.alive m
    grind [Function.update_apply]
  · intro m
    have body := freed.body m
    grind [Function.update_apply]
  · intro m
    have operands := freed.operands m
    grind [Function.update_apply]
  · intro h changed
    obtain ⟨m, inside, gone⟩ := freed.emptied h changed
    exact ⟨m, inside, by grind [Function.update_apply]⟩
  · intro m live dead h inside
    -- The handles of `n` are empty, and those of the other nodes that are gone were empty before.
    by_cases same : m = n
    · exact empty h (same ▸ inside)
    · have wasDead := (Function.update_of_ne same false heap'.alive).symm.trans dead
      exact freed.gone m live wasDead h inside

/-- The destructors run into everything that a node owns. -/
theorem frees_delete {depth : Nat} (consistent : heap.Consistent) (unowned : heap.owner n = none)
    (deleted : heap.delete depth n = some heap') : Frees n heap heap' ∧ heap'.alive n = false := by
  induction depth generalizing heap heap' n with
  | zero => cases deleted
  | succ depth ih =>
    -- One handle of the node.
    have step : ∀ {before after : Heap} {h : HandleId}, Frees n heap before → h ∈ heap.held n →
        before.destroy (Heap.delete depth) h = some after → Frees n heap after ∧
          (∀ u, before.ref u = none → after.ref u = none) ∧ after.ref h = none := by
      intro before after h freed inside destroyed
      unfold destroy at destroyed
      cases refers : before.ref h with
      | none =>
        rw [refers] at destroyed
        cases destroyed
        exact ⟨freed, fun _ empty => empty, refers⟩
      | some m =>
        have released : { before with
            ref := Function.update before.ref h none
            owner := Function.update before.owner m none } = before.setReference h none := by
          simp only [Heap.setReference, Links.attach, Links.release, refers]
        simp only [refers, released] at destroyed
        have empties := freed.setReference consistent inside
        have unowned' : (before.setReference h none).owner m = none := by
          have moved := Links.owner_attach (s := h) (v := m) (r := none) freed.consistent.links
          simp only [Heap.setReference, moved, (freed.consistent.links h m).mp refers]
          simp
        obtain ⟨below, gone⟩ := ih empties.consistent unowned' destroyed
        refine ⟨empties.trans { below with emptied := fun u changed => ?_ }, fun u was => ?_, ?_⟩
        · obtain ⟨k, inK, which⟩ := below.emptied u changed
          exact ⟨k, inK, .inr (which.elim (fun same => same ▸ gone) id)⟩
        · have empty : (before.setReference h none).ref u = none := by
            rw [ref_setReference freed.consistent.links, Links.without]
            grind
          exact (below.ref u).elim (fun same => same.trans empty) id
        · have emptied : (before.setReference h none).ref h = none := by
            rw [ref_setReference freed.consistent.links, if_pos rfl]
          exact (below.ref h).elim (fun same => same.trans emptied) id
    -- All of them, in order.
    have all : ∀ (hs : List HandleId) {before after : Heap}, Frees n heap before →
        (∀ h ∈ hs, h ∈ heap.held n) → hs.foldlM (destroy (Heap.delete depth)) before = some after →
          Frees n heap after ∧ (∀ h, before.ref h = none → after.ref h = none) ∧
            ∀ h ∈ hs, after.ref h = none := by
      intro hs
      induction hs with
      | nil =>
        intro before after freed _ destroyed
        cases destroyed
        exact ⟨freed, fun _ empty => empty, by simp⟩
      | cons h hs ihAll =>
        intro before after freed inside destroyed
        rw [List.foldlM_cons, Option.bind_eq_bind, Option.bind_eq_some_iff] at destroyed
        obtain ⟨middle, first, rest⟩ := destroyed
        obtain ⟨freed', kept, empty⟩ := step freed (inside h List.mem_cons_self) first
        obtain ⟨freed'', kept', others⟩ := ihAll freed'
          (fun u mem => inside u (List.mem_cons_of_mem _ mem)) rest
        refine ⟨freed'', fun u was => kept' u (kept u was), fun u mem => ?_⟩
        rcases List.mem_cons.mp mem with rfl | mem
        · exact kept' u empty
        · exact others u mem
    rw [Heap.delete] at deleted
    split at deleted
    · rw [Option.bind_eq_bind, Option.bind_eq_some_iff] at deleted
      obtain ⟨inner, destroyed, same⟩ := deleted
      cases same
      obtain ⟨freed, -, empty⟩ := all _ (Frees.refl consistent) (fun h inside => inside) destroyed
      have nobody : ∀ h, inner.ref h ≠ some n := by
        intro h refers
        have names := (freed.consistent.links h n).mp refers
        have before := freed.owner n
        rw [names, unowned] at before
        simp at before
      exact ⟨freed.remove nobody empty, by simp⟩
    · cases deleted

/-! ## Vectors of handles -/

/-- Handles move, and the nodes stay as they are. -/
structure Moves (heap heap' : Heap) : Prop where
  body : heap'.body = heap.body
  operands : heap'.operands = heap.operands
  alive : heap'.alive = heap.alive
  capacity : heap'.capacity = heap.capacity
  next : heap.next ≤ heap'.next

theorem Moves.refl (heap : Heap) : Moves heap heap := ⟨rfl, rfl, rfl, rfl, le_rfl⟩

theorem Moves.trans {last : Heap} (first : Moves heap heap') (second : Moves heap' last) :
    Moves heap last :=
  ⟨second.body.trans first.body, second.operands.trans first.operands,
    second.alive.trans first.alive, second.capacity.trans first.capacity,
    first.next.trans second.next⟩

theorem moves_construct (heap : Heap) (ref owner : Option NodeId) :
    Moves heap (heap.construct ref owner) :=
  ⟨rfl, rfl, rfl, rfl, Nat.le_succ _⟩

theorem moves_relocate (heap : Heap) (hs : List HandleId) : Moves heap (heap.relocate hs) := by
  induction hs generalizing heap with
  | nil => exact .refl heap
  | cons h hs ih => exact (moves_construct heap _ _).trans (ih _)

theorem moves_moveBackward (heap : Heap) (hs : List HandleId) : Moves heap (heap.moveBackward hs) := by
  fun_induction Heap.moveBackward heap hs with
  | case1 heap h other hs ih =>
    have first : Moves heap (heap.moveAssign h other) := ⟨rfl, rfl, rfl, rfl, le_rfl⟩
    exact first.trans ih
  | case2 => exact .refl _

theorem next_relocate (heap : Heap) (hs : List HandleId) :
    (heap.relocate hs).next = heap.next + hs.length := by
  induction hs generalizing heap with
  | nil => rfl
  | cons h hs ih =>
    rw [Heap.relocate, ih, List.length_cons, Nat.add_comm hs.length, ← Nat.add_assoc]
    rfl

theorem relocate_append (heap : Heap) (hs hs' : List HandleId) :
    heap.relocate (hs ++ hs') = (heap.relocate hs).relocate hs' := by
  induction hs generalizing heap with
  | nil => rfl
  | cons h hs ih => exact ih _

theorem Consistent.relocate (consistent : heap.Consistent) (hs : List HandleId) :
    (heap.relocate hs).Consistent := by
  induction hs generalizing heap with
  | nil => exact consistent
  | cons h hs ih => exact ih consistent.moveConstruct

theorem Consistent.moveBackward {hs : List HandleId} (consistent : heap.Consistent)
    (exist : ∀ h ∈ hs, h < heap.next) : (heap.moveBackward hs).Consistent := by
  fun_induction Heap.moveBackward heap hs with
  | case1 heap h other hs ih =>
    exact ih (consistent.moveAssign (exist h List.mem_cons_self))
      fun u mem => exist u (List.mem_cons_of_mem _ mem)
  | case2 heap => exact consistent

theorem relocate_toLinks (consistent : heap.Consistent) (hs : List HandleId) :
    (heap.relocate hs).toLinks =
      heap.toLinks.relocate ((List.range' heap.next hs.length).zip hs) := by
  induction hs generalizing heap with
  | nil => rfl
  | cons h hs ih =>
    rw [Heap.relocate, ih consistent.moveConstruct, moveConstruct_toLinks consistent]
    rfl

theorem moveBackward_toLinks (heap : Heap) (hs : List HandleId) :
    (heap.moveBackward hs).toLinks = heap.toLinks.shift hs := by
  fun_induction Heap.moveBackward heap hs with
  | case1 heap h other hs ih => exact ih
  | case2 heap hs short =>
    unfold Links.shift
    split
    · exact absurd rfl (short _ _ _)
    · rfl

theorem ref_relocate {hs : List HandleId} (consistent : heap.Consistent) (nodup : hs.Nodup)
    (exist : ∀ h ∈ hs, h < heap.next) :
    (List.range' heap.next hs.length).map (heap.relocate hs).ref = hs.map heap.ref ∧
      (∀ h ∈ hs, (heap.relocate hs).ref h = none) ∧
        ∀ u < heap.next, u ∉ hs → (heap.relocate hs).ref u = heap.ref u := by
  have firsts : ((List.range' heap.next hs.length).zip hs).map (·.1) =
      List.range' heap.next hs.length := List.map_fst_zip (by simp)
  have seconds : ((List.range' heap.next hs.length).zip hs).map (·.2) = hs :=
    List.map_snd_zip (by simp)
  -- The new storage is behind all handles that exist, so the places are different.
  have apart : (((List.range' heap.next hs.length).zip hs).map (·.1) ++
      ((List.range' heap.next hs.length).zip hs).map (·.2)).Nodup := by
    rw [firsts, seconds, List.nodup_append]
    refine ⟨List.nodup_range', nodup, fun u new v old same => ?_⟩
    exact absurd (same ▸ (List.mem_range'_1.mp new).1) (Nat.not_le.mpr (exist v old))
  obtain ⟨moved, others⟩ := Links.ref_relocate consistent.links apart
  rw [firsts, seconds] at others
  simp only [relocate_toLinks consistent hs]
  refine ⟨?_, fun h mem => ?_, fun u old outside => others u (fun new => ?_) outside⟩
  · calc (List.range' heap.next hs.length).map _
        = ((List.range' heap.next hs.length).zip hs).map fun pair =>
            (heap.toLinks.relocate ((List.range' heap.next hs.length).zip hs)).ref pair.1 := by
          rw [← firsts, List.map_map, firsts]
          rfl
      _ = ((List.range' heap.next hs.length).zip hs).map fun pair => heap.ref pair.2 :=
          List.map_congr_left fun pair mem => (moved pair mem).1
      _ = hs.map heap.ref := by
          conv_rhs => rw [← seconds, List.map_map]
          rfl
  · rw [← seconds] at mem
    obtain ⟨pair, inside, rfl⟩ := List.mem_map.mp mem
    exact (moved pair inside).2
  · exact absurd (List.mem_range'_1.mp new).1 (Nat.not_le.mpr old)

theorem parent_relocate {hs : List HandleId} (exist : ∀ h ∈ hs, h < heap.next)
    (placed : ∀ h ∈ hs, heap.parent h = some S) :
    (∀ u < heap.next, (heap.relocate hs).parent u = heap.parent u) ∧
      ∀ u ∈ List.range' heap.next hs.length, (heap.relocate hs).parent u = some S := by
  induction hs generalizing heap with
  | nil => simp [Heap.relocate]
  | cons h hs ih =>
    have kept : ∀ u < heap.next, (heap.moveConstruct h).parent u = heap.parent u :=
      fun u old => Function.update_of_ne (Nat.ne_of_lt old) _ _
    obtain ⟨old, new⟩ := @ih (heap.moveConstruct h)
      (fun u mem => Nat.lt_succ_of_lt (exist u (List.mem_cons_of_mem _ mem)))
      (fun u mem => by
        rw [kept u (exist u (List.mem_cons_of_mem _ mem))]
        exact placed u (List.mem_cons_of_mem _ mem))
    refine ⟨fun u below => ?_, fun u mem => ?_⟩
    · rw [Heap.relocate, old u (Nat.lt_succ_of_lt below), kept u below]
    · rw [List.length_cons, List.range'_succ, List.mem_cons] at mem
      rcases mem with rfl | mem
      · rw [Heap.relocate, old heap.next (Nat.lt_succ_self _)]
        exact (Function.update_self ..).trans (placed h List.mem_cons_self)
      · exact new u mem

theorem parent_moveBackward {hs : List HandleId} (placed : ∀ h ∈ hs, heap.parent h = some S)
    (u : HandleId) : (heap.moveBackward hs).parent u = heap.parent u := by
  fun_induction Heap.moveBackward heap hs with
  | case1 heap h other hs ih =>
    have same : (heap.moveAssign h other).parent = heap.parent := by
      refine (Function.update_eq_self_iff ..).mpr ?_
      rw [placed h List.mem_cons_self, placed other (by simp)]
    rw [ih (fun v mem => by rw [same]; exact placed v (List.mem_cons_of_mem _ mem)), same]
  | case2 heap => rfl

section Body

variable {hs : List HandleId} {capacity : NodeId → Nat}

theorem Consistent.setBody (consistent : heap.Consistent) (moves : Moves heap heap')
    (moved : heap'.Consistent) (elements : ∀ h ∈ hs, h ∈ heap.body S ∨ heap.next ≤ h)
    (exist : ∀ h ∈ hs, h < heap'.next) (nodup : hs.Nodup) :
    Consistent { heap' with
      body := Function.update heap'.body S hs, capacity := capacity } := by
  have held_eq : ∀ m, Function.update heap'.body S hs m ++ heap'.operands m =
      if m = S then hs ++ heap.operands S else heap.held m := by
    intro m
    by_cases same : m = S
    · simp [same, moves.operands]
    · simp [same, held, moves.body, moves.operands]
  -- A new element is in no node yet.
  have new : ∀ h m, heap.next ≤ h → h ∉ heap.held m := fun h m fresh inside =>
    absurd (consistent.bound m h inside) (Nat.not_lt.mpr fresh)
  have outside : ∀ h ∈ hs, ∀ m, h ∈ heap.held m → m = S ∧ h ∉ heap.operands S := by
    intro h mem m inside
    rcases elements h mem with old | fresh
    · refine ⟨consistent.apart m S h inside (List.mem_append_left _ old), fun operand => ?_⟩
      exact (List.nodup_append.mp (consistent.nodup S)).2.2 h old h operand rfl
    · exact absurd inside (new h m fresh)
  refine { moved with bound := ?_, nodup := ?_, apart := ?_ }
  · intro m h inside
    simp only [held, held_eq] at inside
    split at inside
    · rcases List.mem_append.mp inside with mem | operand
      · exact exist h mem
      · exact (consistent.bound S h (List.mem_append_right _ operand)).trans_le moves.next
    · exact (consistent.bound m h inside).trans_le moves.next
  · intro m
    simp only [held, held_eq]
    split
    · refine List.nodup_append.mpr ⟨nodup, (List.nodup_append.mp (consistent.nodup S)).2.1, ?_⟩
      rintro h mem _ operand rfl
      exact (outside h mem S (List.mem_append_right _ operand)).2 operand
    · exact consistent.nodup m
  · intro m k h inM inK
    simp only [held, held_eq] at inM inK
    have old : ∀ j, h ∈ (if j = S then hs ++ heap.operands S else heap.held j) →
        (h ∈ hs ∧ j = S) ∨ h ∈ heap.held j := by
      intro j inside
      split at inside
      next same =>
        rcases List.mem_append.mp inside with mem | operand
        · exact .inl ⟨mem, same⟩
        · exact .inr (same ▸ List.mem_append_right _ operand)
      next => exact .inr inside
    rcases old m inM with ⟨mem, rfl⟩ | wasM <;> rcases old k inK with ⟨mem', rfl⟩ | wasK
    · rfl
    · exact (outside h mem k wasK).1.symm
    · exact (outside h mem' m wasM).1
    · exact consistent.apart m k h wasM wasK

theorem Placed.setBody (placed : heap.Placed) (moves : Moves heap heap')
    (consistent : heap.Consistent) (parents : ∀ h ∈ hs, heap'.parent h = some S)
    (kept : ∀ u < heap.next, u ∉ heap.body S → heap'.parent u = heap.parent u) :
    Placed { heap' with body := Function.update heap'.body S hs, capacity := capacity } := by
  intro m h inside
  have other : ∀ j, h ∈ heap.held j → h ∉ heap.body S → heap'.parent h = some j := fun j mem notBody =>
    (kept h (consistent.bound j h mem) notBody).trans (placed j h mem)
  simp only [held, moves.body, moves.operands] at inside
  by_cases same : m = S
  · subst same
    rw [Function.update_self] at inside
    rcases List.mem_append.mp inside with mem | operand
    · exact parents h mem
    · refine other m (List.mem_append_right _ operand) fun body => ?_
      exact (List.nodup_append.mp (consistent.nodup m)).2.2 h body h operand rfl
  · rw [Function.update_of_ne same] at inside
    exact other m inside fun body =>
      same (consistent.apart m S h inside (List.mem_append_left _ body))

end Body

/-- Handles move, and only the body of `S` gets other elements. -/
structure Edits (S : NodeId) (heap heap' : Heap) : Prop where
  consistent : heap'.Consistent
  placed : heap.Placed → heap'.Placed
  alive : heap'.alive = heap.alive
  next : heap.next ≤ heap'.next
  operands : heap'.operands = heap.operands
  others : ∀ T, T ≠ S → heap'.body T = heap.body T

theorem Edits.trans {last : Heap} (first : Edits S heap heap') (second : Edits S heap' last) :
    Edits S heap last where
  consistent := second.consistent
  placed := second.placed ∘ first.placed
  alive := second.alive.trans first.alive
  next := first.next.trans second.next
  operands := second.operands.trans first.operands
  others T other := (second.others T other).trans (first.others T other)

/-- What `emplace` at `pos` leaves: the statement is taken away from where it was, and stands in the
body of `S` between the statements before `pos` and those behind it. -/
structure Emplaced (S : NodeId) (pos : Nat) (s : Option NodeId) (heap heap' : Heap) : Prop
    extends Edits S heap heap' where
  untouched : ∀ u < heap.next, u ∉ heap.body S → heap'.ref u = heap.without s u
  contents : heap'.contents S = ((heap.body S).take pos).filterMap (heap.without s) ++
    s.toList ++ ((heap.body S).drop pos).filterMap (heap.without s)

/-- It is enough to know where the elements of the new body come from and what they hold. -/
theorem Emplaced.of_moved {hs : List HandleId} {capacity : NodeId → Nat} {pos : Nat}
    {s : Option NodeId} (consistent : heap.Consistent) (moves : Moves heap heap')
    (moved : heap'.Consistent) (elements : ∀ h ∈ hs, h ∈ heap.body S ∨ heap.next ≤ h)
    (exist : ∀ h ∈ hs, h < heap'.next) (nodup : hs.Nodup)
    (parents : heap.Placed → (∀ h ∈ hs, heap'.parent h = some S) ∧
      ∀ u < heap.next, u ∉ heap.body S → heap'.parent u = heap.parent u)
    (untouched : ∀ u < heap.next, u ∉ heap.body S → heap'.ref u = heap.without s u)
    (values : hs.map heap'.ref = ((heap.body S).take pos).map (heap.without s) ++
      s :: ((heap.body S).drop pos).map (heap.without s)) :
    Emplaced S pos s heap
      { heap' with body := Function.update heap'.body S hs, capacity := capacity } where
  consistent := consistent.setBody moves moved elements exist nodup
  placed placed := placed.setBody moves consistent (parents placed).1 (parents placed).2
  alive := moves.alive
  next := moves.next
  operands := moves.operands
  others T other := by
    change Function.update heap'.body S hs T = heap.body T
    rw [Function.update_of_ne other, moves.body]
  untouched := untouched
  contents := by
    have single : [s].filterMap id = s.toList := by cases s <;> rfl
    have held := congrArg (List.filterMap id) values
    rw [← List.singleton_append, List.filterMap_append, List.filterMap_append, single,
      List.filterMap_map, List.filterMap_map, List.filterMap_map, ← List.append_assoc] at held
    change (Function.update heap'.body S hs S).filterMap heap'.ref = _
    rw [Function.update_self]
    exact held

theorem emplaced_relocate {pos : Nat} {s : Option NodeId} {capacity : NodeId → Nat}
    (consistent : heap.Consistent) (live : ∀ n, s = some n → heap.alive n = true) :
    (∀ h ∈ heap.body S, ((heap.construct s (some S)).relocate (heap.body S)).ref h = none) ∧
    Emplaced S pos s heap
      { (heap.construct s (some S)).relocate (heap.body S) with
        body := Function.update ((heap.construct s (some S)).relocate (heap.body S)).body S
          ((List.range' (heap.next + 1) (heap.body S).length).take pos ++
            heap.next :: (List.range' (heap.next + 1) (heap.body S).length).drop pos)
        capacity := capacity } := by
  have bodyBound : ∀ h ∈ heap.body S, h < heap.next := fun h mem =>
    consistent.bound S h (List.mem_append_left _ mem)
  have exist : ∀ h ∈ heap.body S, h < (heap.construct s (some S)).next := fun h mem =>
    Nat.lt_succ_of_lt (bodyBound h mem)
  have refs : ∀ u, (heap.construct s (some S)).ref u = _ := ref_construct consistent
  have made : (heap.construct s (some S)).Consistent := consistent.construct live
  obtain ⟨values, emptied, kept⟩ := ref_relocate made
    (List.nodup_append.mp (consistent.nodup S)).1 exist
  have there : (List.range' (heap.next + 1) (heap.body S).length).map
      ((heap.construct s (some S)).relocate (heap.body S)).ref =
        (heap.body S).map (heap.without s) := by
    refine values.trans (List.map_congr_left fun h mem => ?_)
    rw [refs, if_neg (Nat.ne_of_lt (bodyBound h mem))]
  have newRef : ((heap.construct s (some S)).relocate (heap.body S)).ref heap.next = s := by
    rw [kept heap.next (Nat.lt_succ_self _) fun mem => absurd (bodyBound _ mem) (Nat.lt_irrefl _),
      refs, if_pos rfl]
  -- The elements are at the addresses behind the old ones.
  have places : List.Perm ((List.range' (heap.next + 1) (heap.body S).length).take pos ++
      heap.next :: (List.range' (heap.next + 1) (heap.body S).length).drop pos)
        (List.range' heap.next ((heap.body S).length + 1)) := by
    rw [List.range'_succ]
    refine List.perm_middle.trans (List.Perm.cons _ ?_)
    rw [List.take_append_drop]
  have parents := fun placed : heap.Placed => parent_relocate (S := S) exist fun h mem => by
    have old : (heap.construct s (some S)).parent h = heap.parent h :=
      Function.update_of_ne (Nat.ne_of_lt (bodyBound h mem)) _ _
    rw [old, placed S h (List.mem_append_left _ mem)]
  refine ⟨emptied, .of_moved consistent
    ((moves_construct heap s (some S)).trans (moves_relocate _ (heap.body S))) (made.relocate _)
    (fun h mem => .inr (List.mem_range'_1.mp (places.mem_iff.mp mem)).1) (fun h mem => ?_)
    (places.nodup_iff.mpr List.nodup_range')
    (fun placed => ⟨fun h mem => ?_, fun u old outside => ?_⟩) (fun u old outside => ?_) ?_⟩
  · rw [next_relocate]
    have below := (List.mem_range'_1.mp (places.mem_iff.mp mem)).2
    rwa [Nat.add_comm (heap.body S).length, ← Nat.add_assoc] at below
  · have place := places.mem_iff.mp mem
    rw [List.range'_succ, List.mem_cons] at place
    rcases place with rfl | fresh
    · rw [(parents placed).1 _ (Nat.lt_succ_self _)]
      exact Function.update_self ..
    · exact (parents placed).2 h fresh
  · rw [(parents placed).1 u (Nat.lt_succ_of_lt old)]
    exact Function.update_of_ne (Nat.ne_of_lt old) _ _
  · rw [kept u (Nat.lt_succ_of_lt old) outside, refs, if_neg (Nat.ne_of_lt old)]
  · rw [List.map_append, List.map_cons, newRef, List.map_take, List.map_drop, there, List.map_take,
      List.map_drop]

/-- Every parent in the chain of a shift is `S`, so the assignments leave the parents alone. -/
theorem parent_shift {s : Option NodeId} {last : HandleId} {front : List HandleId}
    (placed : ∀ h ∈ last :: front, heap.parent h = some S) (old : last ≠ heap.next) (u : HandleId) :
    (((heap.construct s (some S)).moveConstruct last).moveBackward
      (last :: front ++ [heap.next])).parent u =
        if u = heap.next + 1 ∨ u = heap.next then some S else heap.parent u := by
  have before : ∀ v, ((heap.construct s (some S)).moveConstruct last).parent v =
      if v = heap.next + 1 ∨ v = heap.next then some S else heap.parent v := by
    intro v
    change Function.update (Function.update heap.parent heap.next (some S)) (heap.next + 1)
      (Function.update heap.parent heap.next (some S) last) v = _
    rw [Function.update_of_ne old, placed last List.mem_cons_self]
    by_cases newest : v = heap.next + 1
    · rw [newest, Function.update_self, if_pos (.inl rfl)]
    · rw [Function.update_of_ne newest]
      by_cases made : v = heap.next
      · rw [made, Function.update_self, if_pos (.inr rfl)]
      · rw [Function.update_of_ne made, if_neg (not_or.mpr ⟨newest, made⟩)]
  rw [parent_moveBackward (S := S) (fun h mem => ?_) u, before]
  rw [before]
  split
  · rfl
  next others =>
    rcases List.mem_append.mp mem with inFront | new
    · exact placed h inFront
    · exact absurd (.inr (List.mem_singleton.mp new)) others

/-- The vector has room: the elements behind the new one are shifted. -/
theorem emplaced_shift {s : Option NodeId} {pos : Nat} {last : HandleId} {front : List HandleId}
    (consistent : heap.Consistent) (live : ∀ n, s = some n → heap.alive n = true)
    (behind : ((heap.body S).drop pos).reverse = last :: front) :
    (((heap.construct s (some S)).moveConstruct last).moveBackward
      (last :: front ++ [heap.next])).ref heap.next = none ∧
    Emplaced S pos s heap
      { ((heap.construct s (some S)).moveConstruct last).moveBackward
          (last :: front ++ [heap.next]) with
        body := Function.update (((heap.construct s (some S)).moveConstruct last).moveBackward
          (last :: front ++ [heap.next])).body S (heap.body S ++ [heap.next + 1]) } := by
  have bodyBound : ∀ h ∈ heap.body S, h < heap.next := fun h mem =>
    consistent.bound S h (List.mem_append_left _ mem)
  have bodyNodup := (List.nodup_append.mp (consistent.nodup S)).1
  have refs : ∀ u, (heap.construct s (some S)).ref u = _ := ref_construct consistent
  have made : (heap.construct s (some S)).Consistent := consistent.construct live
  have shifted : ∀ h ∈ last :: front, h ∈ (heap.body S).drop pos := fun h mem =>
    List.mem_reverse.mp (behind ▸ mem)
  have inBody : ∀ h ∈ last :: front, h ∈ heap.body S := fun h mem =>
    List.mem_of_mem_drop (shifted h mem)
  have chain : ∀ h ∈ last :: front ++ [heap.next], h < heap.next + 1 := fun h mem => by
    rcases List.mem_append.mp mem with old | new
    · exact Nat.lt_succ_of_lt (bodyBound h (inBody h old))
    · rw [List.mem_singleton.mp new]
      exact Nat.lt_succ_self _
  have nodup : ((heap.next + 1) :: (last :: front ++ [heap.next])).Nodup := by
    refine List.nodup_cons.mpr ⟨fun mem => absurd (chain _ mem) (Nat.lt_irrefl _), ?_⟩
    refine List.nodup_append.mpr ⟨?_, List.nodup_singleton _, fun h mem u single same => ?_⟩
    · rw [← behind]
      exact List.nodup_reverse.mpr (bodyNodup.sublist (List.drop_sublist pos _))
    · rw [List.mem_singleton.mp single] at same
      exact absurd (same ▸ bodyBound h (inBody h mem)) (Nat.lt_irrefl _)
  -- The first step of the shift is the construction of the element behind the last one.
  have links : (((heap.construct s (some S)).moveConstruct last).moveBackward
      (last :: front ++ [heap.next])).toLinks = (heap.construct s (some S)).toLinks.shift
        ((heap.next + 1) :: (last :: front ++ [heap.next])) := by
    rw [moveBackward_toLinks, moveConstruct_toLinks made]
    rfl
  have values := Links.map_ref_shift made.links nodup (made.fresh _ le_rfl)
  have kept : ∀ u, u ∉ (heap.next + 1) :: (last :: front ++ [heap.next]) → _ := fun u outside =>
    Links.ref_shift_of_notMem made.links outside
  rw [← links] at values kept
  have newRef : (heap.construct s (some S)).ref heap.next = s := (refs _).trans (if_pos rfl)
  rw [List.map_append, List.map_singleton, newRef, ← List.cons_append, List.map_append,
    List.map_singleton] at values
  obtain ⟨shiftedRefs, temporary⟩ := List.append_inj' values rfl
  have moves := moves_moveBackward ((heap.construct s (some S)).moveConstruct last)
    (last :: front ++ [heap.next])
  have room : heap.next + 2 ≤ _ := moves.next
  have parents : heap.Placed → ∀ u, _ := fun placed =>
    parent_shift (S := S) (s := s) (fun h mem => placed S h (List.mem_append_left _ (inBody h mem)))
      (Nat.ne_of_lt (bodyBound last (inBody last List.mem_cons_self)))
  refine ⟨by simpa using temporary, .of_moved consistent
    (((moves_construct heap s (some S)).trans (moves_construct _ _ _)).trans moves)
    (made.moveConstruct.moveBackward fun h mem => Nat.lt_succ_of_lt (chain h mem))
    (fun h mem => ?_) (fun h mem => ?_) ?_ (fun placed => ⟨fun h mem => ?_, fun u old _ => ?_⟩)
    (fun u old outside => ?_) ?_⟩
  · rcases List.mem_append.mp mem with old | new
    · exact .inl old
    · rw [List.mem_singleton.mp new]
      exact .inr (Nat.le_succ _)
  · rcases List.mem_append.mp mem with old | new
    · exact (bodyBound h old).trans_le ((Nat.le_add_right _ 2).trans room)
    · rw [List.mem_singleton.mp new]
      exact room
  · refine List.nodup_append.mpr ⟨bodyNodup, List.nodup_singleton _, fun h mem u single same => ?_⟩
    rw [List.mem_singleton.mp single] at same
    exact absurd (same ▸ bodyBound h mem) (Nat.not_lt.mpr (Nat.le_succ _))
  · rw [parents placed]
    rcases List.mem_append.mp mem with old | new
    · rw [placed S h (List.mem_append_left _ old), ite_self]
    · rw [List.mem_singleton.mp new, if_pos (.inl rfl)]
  · exact (parents placed u).trans (if_neg (not_or.mpr
      ⟨Nat.ne_of_lt (Nat.lt_succ_of_lt old), Nat.ne_of_lt old⟩))
  · rw [kept u (fun mem => ?_), refs, if_neg (Nat.ne_of_lt old)]
    rcases List.mem_cons.mp mem with newest | mem
    · exact Nat.ne_of_lt (Nat.lt_succ_of_lt old) newest
    · rcases List.mem_append.mp mem with inFront | new
      · exact outside (inBody u inFront)
      · exact Nat.ne_of_lt old (List.mem_singleton.mp new)
  · have behind' : (heap.body S).drop pos = (last :: front).reverse := by
      rw [← behind, List.reverse_reverse]
    have without : ∀ h ∈ heap.body S, (heap.construct s (some S)).ref h = heap.without s h :=
      fun h mem => (refs h).trans (if_neg (Nat.ne_of_lt (bodyBound h mem)))
    have before : ((heap.body S).take pos).map (((heap.construct s (some S)).moveConstruct
        last).moveBackward (last :: front ++ [heap.next])).ref =
          ((heap.body S).take pos).map (heap.without s) := by
      refine List.map_congr_left fun u mem => ?_
      have old := bodyBound u (List.mem_of_mem_take mem)
      rw [← without u (List.mem_of_mem_take mem)]
      refine kept u fun inChain => ?_
      rcases List.mem_cons.mp inChain with newest | inChain
      · exact Nat.ne_of_lt (Nat.lt_succ_of_lt old) newest
      · rcases List.mem_append.mp inChain with inFront | new
        · exact List.disjoint_take_drop bodyNodup le_rfl mem (shifted u inFront)
        · exact Nat.ne_of_lt old (List.mem_singleton.mp new)
    have after : ((heap.body S).drop pos ++ [heap.next + 1]).map (((heap.construct s
        (some S)).moveConstruct last).moveBackward (last :: front ++ [heap.next])).ref =
          s :: ((heap.body S).drop pos).map (heap.without s) := by
      have turned := congrArg List.reverse shiftedRefs
      rw [List.map_cons, List.reverse_cons, List.reverse_append, ← List.map_reverse,
        ← List.map_reverse, ← behind'] at turned
      rw [List.map_append, List.map_singleton, turned]
      exact congrArg (s :: ·) (List.map_congr_left fun h mem =>
        without h (List.mem_of_mem_drop mem))
    rw [← List.take_append_drop pos (heap.body S), List.append_assoc, List.map_append]
    rw [List.take_append_drop, before, after]

theorem emplaced_back {s : Option NodeId} {pos : Nat} (consistent : heap.Consistent)
    (live : ∀ n, s = some n → heap.alive n = true) (behind : (heap.body S).drop pos = []) :
    Emplaced S pos s heap { heap.construct s (some S) with
      body := Function.update (heap.construct s (some S)).body S (heap.body S ++ [heap.next]) } := by
  have bodyBound : ∀ h ∈ heap.body S, h < heap.next := fun h mem =>
    consistent.bound S h (List.mem_append_left _ mem)
  have refs : ∀ u, (heap.construct s (some S)).ref u = _ := ref_construct consistent
  -- The position is the end of the vector, so no element stands behind it.
  have all : (heap.body S).take pos = heap.body S := by
    conv_rhs => rw [← List.take_append_drop pos (heap.body S), behind, List.append_nil]
  refine .of_moved consistent (moves_construct _ _ _) (consistent.construct live)
    (fun h mem => ?_) (fun h mem => ?_) ?_ (fun placed => ⟨fun h mem => ?_, fun u old _ => ?_⟩)
    (fun u old _ => (refs u).trans (if_neg (Nat.ne_of_lt old))) ?_
  · rcases List.mem_append.mp mem with old | new
    · exact .inl old
    · exact .inr (List.mem_singleton.mp new).ge
  · rcases List.mem_append.mp mem with old | new
    · exact Nat.lt_succ_of_lt (bodyBound h old)
    · rw [List.mem_singleton.mp new]
      exact Nat.lt_succ_self _
  · refine List.nodup_append.mpr ⟨(List.nodup_append.mp (consistent.nodup S)).1,
      List.nodup_singleton _, fun h mem u single same => ?_⟩
    rw [List.mem_singleton.mp single] at same
    exact absurd (same ▸ bodyBound h mem) (Nat.lt_irrefl _)
  · rcases List.mem_append.mp mem with old | new
    · exact (Function.update_of_ne (Nat.ne_of_lt (bodyBound h old)) _ _).trans
        (placed S h (List.mem_append_left _ old))
    · rw [List.mem_singleton.mp new]
      exact Function.update_self ..
  · exact Function.update_of_ne (Nat.ne_of_lt old) _ _
  · rw [List.map_append, List.map_singleton, refs heap.next, if_pos rfl, all, behind, List.map_nil]
    congr 1
    exact List.map_congr_left fun h mem => (refs h).trans (if_neg (Nat.ne_of_lt (bodyBound h mem)))

theorem emplace_spec (grow : Nat → Nat) (depth pos : Nat) {s : Option NodeId}
    (consistent : heap.Consistent) (live : ∀ n, s = some n → heap.alive n = true) :
    ∃ heap', heap.emplace grow depth S pos s = some heap' ∧ Emplaced S pos s heap heap' := by
  unfold emplace
  by_cases full : (heap.body S).length = heap.capacity S
  · obtain ⟨emptied, emplaced⟩ := @emplaced_relocate heap S pos s (Function.update
      ((heap.construct s (some S)).relocate (heap.body S)).capacity S
        (grow (heap.body S).length)) consistent live
    refine ⟨_, ?_, emplaced⟩
    simp only [if_pos full]
    rw [← relocate_append, List.take_append_drop, destroyAll_of_empty emptied]
    rfl
  · simp only [if_neg full]
    cases behind : ((heap.body S).drop pos).reverse with
    | nil => exact ⟨_, rfl, emplaced_back consistent live (List.reverse_eq_nil_iff.mp behind)⟩
    | cons last front =>
      obtain ⟨temporary, emplaced⟩ := emplaced_shift consistent live behind
      refine ⟨_, ?_, emplaced⟩
      simp only [destroy, temporary]
      rfl

end Heap

end Bistra
