import Bistra.Program.Ownership

/-! # What the operations on scopes do

Every operation on scopes acts on the statements of the scopes like an operation on lists, whatever
handles it moves for it, and keeps the heap consistent.
-/

namespace Bistra

/-- The statements of each scope. -/
abbrev Forest := NodeId → List NodeId

namespace Forest

variable (f : Forest) (S : NodeId)

/-- Every scope without the statement `s`. -/
def withdraw (s : NodeId) : Forest := fun T => (f T).filter (· ≠ s)

def clear : Forest := Function.update f S []

def takeContent (other : NodeId) : Forest :=
  Function.update (Function.update f S (f S ++ f other)) other []

def addStmt (s : NodeId) : Forest := Function.update (f.withdraw s) S (f.withdraw s S ++ [s])

def removeStmt (s : NodeId) : Forest := Function.update f S (f.withdraw s S)

def insertBeforeStmt (s where_ : NodeId) : Forest :=
  Function.update (f.withdraw s) S (((f S).takeWhile (· ≠ where_)).filter (· ≠ s) ++
    s :: ((f S).dropWhile (· ≠ where_)).filter (· ≠ s))

def insertAfterStmt (s where_ : NodeId) : Forest :=
  Function.update (f.withdraw s) S
    (((f S).takeWhile (· ≠ where_) ++ [where_]).filter (· ≠ s) ++
      s :: ((f S).dropWhile (· ≠ where_)).tail.filter (· ≠ s))

/-- Nothing happens if the old statement is not there. -/
def replaceStmt (newS oldS : NodeId) : Forest :=
  if oldS ∈ f S then
    Function.update (f.withdraw newS) S (((f S).takeWhile (· ≠ oldS)).filter (· ≠ newS) ++
      newS :: ((f S).dropWhile (· ≠ oldS)).tail.filter (· ≠ newS))
  else f

end Forest

namespace Heap

variable {heap heap' : Heap} {h : HandleId} {S T s where_ : NodeId} {grow : Nat → Nat} {depth : Nat}

/-! ## Handles in bodies -/

theorem Consistent.lt_of_body (consistent : heap.Consistent) (mem : h ∈ heap.body T) :
    h < heap.next :=
  consistent.bound T h (List.mem_append_left _ mem)

theorem Consistent.body_nodup (consistent : heap.Consistent) (T : NodeId) : (heap.body T).Nodup :=
  (List.nodup_append.mp (consistent.nodup T)).1

theorem Consistent.notMem_body (consistent : heap.Consistent) (mem : h ∈ heap.body T)
    (other : T ≠ S) : h ∉ heap.body S := fun within =>
  other (consistent.apart T S h (List.mem_append_left _ mem) (List.mem_append_left _ within))

theorem contents_congr (body : heap'.body T = heap.body T)
    (refs : ∀ h ∈ heap.body T, heap'.ref h = heap.ref h) : heap'.contents T = heap.contents T := by
  rw [contents, contents, body]
  exact List.filterMap_congr refs

theorem contents_without (body : heap'.body T = heap.body T)
    (refs : ∀ h ∈ heap.body T, heap'.ref h = heap.without (some s) h) :
    heap'.contents T = Forest.withdraw heap.contents s T := by
  rw [contents, body, List.filterMap_congr refs, Links.filterMap_without]
  exact List.filter_congr fun v _ => by simp

theorem filterMap_withdraw (hs : List HandleId) :
    hs.filterMap (heap.without (some s)) = (hs.filterMap heap.ref).filter (· ≠ s) := by
  rw [Links.filterMap_without]
  exact List.filter_congr fun v _ => by simp

theorem Emplaced.contents_other {pos : Nat} (emplaced : Emplaced S pos (some s) heap heap')
    (consistent : heap.Consistent) (other : T ≠ S) :
    heap'.contents T = Forest.withdraw heap.contents s T :=
  contents_without (emplaced.others T other) fun h mem =>
    emplaced.untouched h (consistent.lt_of_body mem) (consistent.notMem_body mem other)

theorem contents_split {before behind : List HandleId} (parts : heap.body S = before ++ h :: behind)
    (refers : heap.ref h = some where_) (first : ∀ u ∈ before, heap.ref u ≠ some where_) :
    (heap.contents S).takeWhile (· ≠ where_) = before.filterMap heap.ref ∧
      (heap.contents S).dropWhile (· ≠ where_) = where_ :: behind.filterMap heap.ref := by
  have values : heap.contents S = before.filterMap heap.ref ++ where_ :: behind.filterMap heap.ref := by
    rw [contents, parts, List.filterMap_append, List.filterMap_cons_some refers]
  have others : ∀ v ∈ before.filterMap heap.ref, decide (v ≠ where_) = true := by
    intro v mem
    obtain ⟨u, inside, held⟩ := List.mem_filterMap.mp mem
    exact decide_eq_true fun same => first u inside (same ▸ held)
  rw [values, List.takeWhile_append_of_pos others, List.dropWhile_append_of_pos others]
  simp

theorem find_spec {pos : Nat} (found : heap.find S where_ = some pos) :
    ∃ before h behind, heap.body S = before ++ h :: behind ∧ before.length = pos ∧
      heap.ref h = some where_ ∧ ∀ u ∈ before, heap.ref u ≠ some where_ := by
  obtain ⟨inside, holds, earlier⟩ := List.findIdx?_eq_some_iff_getElem.mp found
  refine ⟨(heap.body S).take pos, (heap.body S)[pos], (heap.body S).drop (pos + 1), ?_, ?_,
    of_decide_eq_true holds, fun u mem => ?_⟩
  · rw [← List.drop_eq_getElem_cons inside, List.take_append_drop]
  · rw [List.length_take, Nat.min_eq_left (Nat.le_of_lt inside)]
  · obtain ⟨i, bound, rfl⟩ := List.mem_take_iff_getElem.mp mem
    have below := earlier i (Nat.lt_of_lt_of_le bound (Nat.min_le_left _ _))
    simpa using below

/-! ## Inserting -/

theorem guard_some {p : Prop} [Decidable p] {α : Type} {next : Option α} {a : α}
    (result : (do guard p; next) = some a) : p ∧ next = some a := by
  by_cases holds : p
  · simpa [guard, holds] using result
  · simp [guard, holds] at result

theorem addStmt_spec (consistent : heap.Consistent) (result : heap.addStmt grow depth S s = some heap') :
    Edits S heap heap' ∧ heap'.contents = Forest.addStmt heap.contents S s := by
  obtain ⟨alive, placed⟩ := guard_some result
  obtain ⟨-, live⟩ := Bool.and_eq_true_iff.mp alive
  obtain ⟨_, same, emplaced⟩ := emplace_spec grow depth (heap.body S).length consistent
    (s := some s) (S := S) fun n same => Option.some.inj same ▸ live
  cases placed.symm.trans same
  refine ⟨emplaced.toEdits, funext fun T => ?_⟩
  by_cases here : T = S
  · subst here
    rw [emplaced.contents, List.take_length, List.drop_length, filterMap_withdraw, Forest.addStmt,
      Function.update_self]
    simp [Forest.withdraw, contents]
  · rw [emplaced.contents_other consistent here, Forest.addStmt, Function.update_of_ne here]

theorem insertBeforeStmt_spec (consistent : heap.Consistent)
    (result : heap.insertBeforeStmt grow depth S s where_ = some heap') :
    Edits S heap heap' ∧ heap'.contents = Forest.insertBeforeStmt heap.contents S s where_ := by
  obtain ⟨alive, found⟩ := guard_some result
  obtain ⟨-, live⟩ := Bool.and_eq_true_iff.mp alive
  obtain ⟨pos, found, placed⟩ := Option.bind_eq_some_iff.mp found
  obtain ⟨_, same, emplaced⟩ := emplace_spec grow depth pos consistent
    (s := some s) (S := S) fun n same => Option.some.inj same ▸ live
  cases placed.symm.trans same
  obtain ⟨before, h, behind, parts, rfl, refers, first⟩ := find_spec found
  obtain ⟨front, rest⟩ := contents_split parts refers first
  refine ⟨emplaced.toEdits, funext fun T => ?_⟩
  by_cases here : T = S
  · subst here
    rw [emplaced.contents, parts, List.take_left, List.drop_left, filterMap_withdraw,
      filterMap_withdraw, Forest.insertBeforeStmt, Function.update_self, front, rest,
      List.filterMap_cons_some refers]
    simp
  · rw [emplaced.contents_other consistent here, Forest.insertBeforeStmt,
      Function.update_of_ne here]

theorem insertAfterStmt_spec (consistent : heap.Consistent)
    (result : heap.insertAfterStmt grow depth S s where_ = some heap') :
    Edits S heap heap' ∧ heap'.contents = Forest.insertAfterStmt heap.contents S s where_ := by
  obtain ⟨alive, found⟩ := guard_some result
  obtain ⟨-, live⟩ := Bool.and_eq_true_iff.mp alive
  obtain ⟨pos, found, placed⟩ := Option.bind_eq_some_iff.mp found
  obtain ⟨_, same, emplaced⟩ := emplace_spec grow depth (pos + 1) consistent
    (s := some s) (S := S) fun n same => Option.some.inj same ▸ live
  cases placed.symm.trans same
  obtain ⟨before, h, behind, parts, rfl, refers, first⟩ := find_spec found
  obtain ⟨front, rest⟩ := contents_split parts refers first
  have split : heap.body S = (before ++ [h]) ++ behind := by rw [parts, List.append_assoc]; rfl
  have size : (before ++ [h]).length = before.length + 1 := by simp
  refine ⟨emplaced.toEdits, funext fun T => ?_⟩
  by_cases here : T = S
  · subst here
    rw [emplaced.contents, split, ← size, List.take_left, List.drop_left, filterMap_withdraw,
      filterMap_withdraw, Forest.insertAfterStmt, Function.update_self, front, rest,
      List.filterMap_append, List.filterMap_cons_some refers]
    simp
  · rw [emplaced.contents_other consistent here, Forest.insertAfterStmt, Function.update_of_ne here]

/-! ## Removing -/

theorem removeIf_spec {free hs : List HandleId} (consistent : heap.Consistent)
    (exist : ∀ u ∈ free ++ hs, u < heap.next) :
    ∃ heap', heap.removeIf free hs = some (heap', (heap.compact free hs).2) ∧
      heap'.toLinks = (heap.compact free hs).1 ∧ Moves heap heap' ∧ heap'.Consistent ∧
        ((∀ u ∈ free ++ hs, heap.parent u = some S) → heap'.parent = heap.parent) := by
  induction hs generalizing heap free with
  | nil => exact ⟨heap, rfl, rfl, .refl heap, consistent, fun _ => rfl⟩
  | cons h hs ih =>
    cases held : heap.ref h with
    -- An empty handle is a place that the elements behind it move to.
    | none =>
      obtain ⟨heap', result, links, moves, after, parents⟩ := @ih heap (free ++ [h]) consistent
        (by simpa using exist)
      simp only [removeIf, get_eq consistent.links, held, Links.compact, Option.bind_eq_bind,
        Option.bind_some]
      exact ⟨heap', result, links, moves, after, fun placed => parents (by simpa using placed)⟩
    | some v =>
      cases free with
      -- As long as no place is free the elements stay.
      | nil =>
        obtain ⟨heap', result, links, moves, after, parents⟩ := @ih heap [] consistent
          fun u mem => exist u (List.mem_cons_of_mem _ mem)
        simp only [removeIf, get_eq consistent.links, held, Links.compact, Option.bind_eq_bind,
          Option.bind_some, result]
        exact ⟨heap', rfl, links, moves, after,
          fun placed => parents fun u mem => placed u (List.mem_cons_of_mem _ mem)⟩
      | cons first free =>
        have inside : ∀ u ∈ (free ++ [h]) ++ hs, u ∈ (first :: free) ++ h :: hs := by
          intro u mem
          simp only [List.mem_append, List.mem_cons] at mem ⊢
          tauto
        obtain ⟨heap', result, links, moves, after, parents⟩ :=
          @ih (heap.moveAssign first h) (free ++ [h])
            (consistent.moveAssign (exist first List.mem_cons_self))
            fun u mem => exist u (inside u mem)
        simp only [removeIf, get_eq consistent.links, held, Links.compact, Option.bind_eq_bind,
          Option.bind_some, result]
        have assigned : Moves heap (heap.moveAssign first h) := ⟨rfl, rfl, rfl, rfl, le_rfl⟩
        refine ⟨heap', rfl, links, assigned.trans moves, after, fun placed => ?_⟩
        -- Every handle in the body has the same parent, so the assignment does not change it.
        have same : (heap.moveAssign first h).parent = heap.parent := by
          refine (Function.update_eq_self_iff ..).mpr ?_
          rw [placed first List.mem_cons_self, placed h (by simp)]
        rw [parents fun u mem => by rw [same]; exact placed u (inside u mem), same]

theorem eraseEmpty_spec (consistent : heap.Consistent) :
    ∃ heap', heap.eraseEmpty depth S = some heap' ∧ Edits S heap heap' ∧
      heap'.contents = heap.contents := by
  have exist : ∀ u ∈ [] ++ heap.body S, u < heap.next := fun u mem => consistent.lt_of_body mem
  obtain ⟨moved, result, links, moves, after, parents⟩ :=
    @removeIf_spec heap S [] (heap.body S) consistent exist
  obtain ⟨tail, parts, values, empty⟩ : ∃ tail, heap.body S =
      (heap.compact [] (heap.body S)).2 ++ tail ∧ _ ∧ ∀ u ∈ tail, _ :=
    @Links.compact_spec _ _ heap.toLinks _ _ [] (heap.body S) consistent.links
      (consistent.body_nodup S) (by simp)
  have kept : ∀ u, u ∉ heap.body S → (heap.compact [] (heap.body S)).1.ref u = heap.ref u :=
    fun u outside => Links.ref_compact_of_notMem consistent.links outside
  rw [← links] at values empty kept
  -- What the elements are moved to comes first, and the rest of the vector is erased.
  have dropped : ∀ kept : List HandleId, heap.body S = kept ++ tail →
      (heap.body S).drop kept.length = tail := fun kept parts => by rw [parts, List.drop_left]
  have sub : ∀ u ∈ (heap.compact [] (heap.body S)).2, u ∈ heap.body S := fun u mem => by
    rw [parts]
    exact List.mem_append_left _ mem
  have keptNodup : (heap.compact [] (heap.body S)).2.Nodup := by
    have nodup := consistent.body_nodup S
    rw [parts] at nodup
    exact (List.nodup_append.mp nodup).1
  refine ⟨{ moved with body := Function.update moved.body S (heap.compact [] (heap.body S)).2 },
    ?_, ⟨consistent.setBody moves after (fun u mem => .inl (sub u mem))
      (fun u mem => (consistent.lt_of_body (sub u mem)).trans_le moves.next) keptNodup,
      fun placed => ?_, moves.alive, moves.next, moves.operands, fun T other => ?_⟩,
    funext fun T => ?_⟩
  · simp only [eraseEmpty, result, Option.bind_eq_bind, Option.bind_some, dropped _ parts]
    rw [destroyAll_of_empty empty]
    rfl
  · have same := parents fun u mem => placed S u (List.mem_append_left _ mem)
    refine placed.setBody moves consistent (fun u mem => ?_) fun u _ _ => by rw [same]
    rw [same]
    exact placed S u (List.mem_append_left _ (sub u mem))
  · exact (Function.update_of_ne other ..).trans (by rw [moves.body])
  -- The statements of this scope are those of its handles that are not empty, in the same order.
  · by_cases here : T = S
    · subst here
      rw [contents]
      simp only [Function.update_self]
      have held := congrArg (List.filterMap id) values
      rwa [List.filterMap_map, List.filterMap_map, Function.id_comp, Function.id_comp,
        List.filterMap_some] at held
    · refine contents_congr ?_ fun u mem => kept u ?_
      · exact (Function.update_of_ne here ..).trans (by rw [moves.body])
      · exact consistent.notMem_body mem here

/-- What a loop over handles of a body leaves that only lets go of statements. -/
structure Releases (released : HandleId → Prop) [DecidablePred released] (heap heap' : Heap) :
    Prop extends Moves heap heap' where
  consistent : heap'.Consistent
  parent : heap'.parent = heap.parent
  ref : ∀ u, heap'.ref u = if released u then none else heap.ref u

theorem releases_setReference (consistent : heap.Consistent) (exists_ : h < heap.next) :
    Releases (· = h) heap (heap.setReference h none) where
  toMoves := ⟨rfl, rfl, rfl, rfl, le_rfl⟩
  consistent := consistent.setReference exists_ (by simp)
  parent := rfl
  ref u := by
    rw [ref_setReference consistent.links, Links.without]
    grind

theorem releases_clear (consistent : heap.Consistent) {hs : List HandleId}
    (exist : ∀ u ∈ hs, u < heap.next) :
    Releases (· ∈ hs) heap (hs.foldl (fun heap h => heap.setReference h none) heap) := by
  induction hs generalizing heap with
  | nil => exact ⟨.refl heap, consistent, rfl, fun u => by simp⟩
  | cons h hs ih =>
    have first := releases_setReference consistent (exist h List.mem_cons_self)
    have rest := ih first.consistent fun u mem => exist u (List.mem_cons_of_mem _ mem)
    refine ⟨first.toMoves.trans rest.toMoves, rest.consistent, rest.parent, fun u => ?_⟩
    rw [List.foldl_cons, rest.ref, first.ref]
    grind

theorem releases_unregister (consistent : heap.Consistent) {hs : List HandleId}
    (exist : ∀ u ∈ hs, u < heap.next) :
    ∃ heap', hs.foldlM (unregister s) heap = some heap' ∧
      Releases (fun u => u ∈ hs ∧ heap.ref u = some s) heap heap' := by
  induction hs generalizing heap with
  | nil => exact ⟨heap, rfl, .refl heap, consistent, rfl, fun u => by simp⟩
  | cons h hs ih =>
    have others : ∀ u ∈ hs, u < heap.next := fun u mem => exist u (List.mem_cons_of_mem _ mem)
    by_cases same : heap.ref h = some s
    · have first := releases_setReference consistent (exist h List.mem_cons_self)
      obtain ⟨heap', result, rest⟩ := ih first.consistent others
      refine ⟨heap', ?_, first.toMoves.trans rest.toMoves, rest.consistent, rest.parent,
        fun u => ?_⟩
      · simpa [unregister, get_eq consistent.links, same] using result
      · rw [rest.ref, first.ref]
        grind
    · obtain ⟨heap', result, rest⟩ := ih consistent others
      refine ⟨heap', ?_, rest.toMoves, rest.consistent, rest.parent, fun u => ?_⟩
      · simpa [unregister, get_eq consistent.links, same] using result
      · rw [rest.ref]
        grind

theorem Releases.edits {released : HandleId → Prop} [DecidablePred released]
    (releases : Releases released heap heap') (S : NodeId) : Edits S heap heap' where
  consistent := releases.consistent
  placed placed n u inside := by
    rw [releases.parent]
    unfold held at inside
    rw [releases.body, releases.operands] at inside
    exact placed n u inside
  alive := releases.alive
  next := releases.next
  operands := releases.operands
  others T _ := by rw [releases.body]

theorem removeStmt_spec (consistent : heap.Consistent)
    (result : heap.removeStmt depth S s = some heap') :
    Edits S heap heap' ∧ heap'.contents = Forest.removeStmt heap.contents S s := by
  obtain ⟨-, removed⟩ := guard_some result
  obtain ⟨middle, unregistered, releases⟩ := releases_unregister (s := s) consistent
    fun u mem => consistent.lt_of_body (T := S) mem
  obtain ⟨_, erased, edits, same⟩ := @eraseEmpty_spec middle S depth releases.consistent
  rw [unregistered] at removed
  cases removed.symm.trans erased
  refine ⟨(releases.edits S).trans edits, same.trans (funext fun T => ?_)⟩
  have body : middle.body T = heap.body T := by rw [releases.body]
  by_cases here : T = S
  · subst here
    rw [Forest.removeStmt, Function.update_self]
    refine contents_without body fun u mem => ?_
    rw [releases.ref, Links.without]
    grind
  · rw [Forest.removeStmt, Function.update_of_ne here]
    refine contents_congr body fun u mem => ?_
    rw [releases.ref, if_neg]
    exact fun both => consistent.notMem_body mem here both.1

theorem clear_spec (consistent : heap.Consistent) (result : heap.clear depth S = some heap') :
    Edits S heap heap' ∧ heap'.contents = Forest.clear heap.contents S := by
  obtain ⟨-, cleared⟩ := guard_some result
  have releases := releases_clear consistent fun u mem => consistent.lt_of_body (T := S) mem
  generalize (heap.body S).foldl (fun heap h => heap.setReference h none) heap = middle
    at cleared releases
  have empty : ∀ u ∈ heap.body S, middle.ref u = none :=
    fun u mem => (releases.ref u).trans (if_pos mem)
  dsimp only at cleared
  rw [congrFun releases.body S, destroyAll_of_empty empty] at cleared
  cases cleared
  refine ⟨(releases.edits S).trans ⟨releases.consistent.setBody (.refl _) releases.consistent
    (by simp) (by simp) List.nodup_nil, fun placed => placed.setBody (.refl _) releases.consistent
      (by simp) fun _ _ _ => rfl, rfl, le_rfl, rfl, fun T other => Function.update_of_ne other ..⟩,
    funext fun T => ?_⟩
  by_cases here : T = S
  · subst here
    rw [contents, Forest.clear, Function.update_self]
    simp only [Function.update_self, List.filterMap_nil]
  · rw [Forest.clear, Function.update_of_ne here]
    refine contents_congr ?_ fun u mem => ?_
    · exact (Function.update_of_ne here ..).trans (by rw [releases.body])
    · exact (releases.ref u).trans (if_neg (consistent.notMem_body mem here))

/-! ## Taking the content of another scope -/

theorem takeStmt_spec {other : NodeId} (consistent : heap.Consistent) (mem : h ∈ heap.body other)
    (distinct : other ≠ S) :
    ∃ heap', heap.takeStmt grow depth S h = some heap' ∧ Edits S heap heap' ∧
      heap'.contents S = heap.contents S ++ (heap.ref h).toList ∧
        ∀ u < heap.next, u ∉ heap.body S → heap'.ref u = if u = h then none else heap.ref u := by
  have exists_ := consistent.lt_of_body mem
  have releases := releases_setReference consistent exists_
  obtain ⟨heap', result, emplaced⟩ := @emplace_spec (heap.setReference h none) S grow depth
    (heap.body S).length (heap.ref h) releases.consistent fun n refers => consistent.live h n refers
  -- The statement is in no handle any more when the new element is made.
  have nowhere : ∀ u, (heap.setReference h none).without (heap.ref h) u =
      if u = h then none else heap.ref u := by
    intro u
    have unique := fun v => consistent.links.unique (s := u) (t := h) (v := v)
    rw [Links.without, releases.ref]
    cases held : heap.ref u with
    | none => grind
    | some v =>
      have here := unique v held
      grind
  refine ⟨heap', ?_, (releases.edits S).trans emplaced.toEdits, ?_, fun u old outside => ?_⟩
  · simp only [takeStmt, get_eq consistent.links, Option.bind_eq_bind, Option.bind_some]
    exact result
  · have kept : (heap.body S).filterMap ((heap.setReference h none).without (heap.ref h)) =
        heap.contents S := List.filterMap_congr fun u within => by
      rw [nowhere, if_neg fun same : u = h => consistent.notMem_body mem distinct (same ▸ within)]
    rw [emplaced.contents, releases.body, List.take_length, List.drop_length, kept]
    simp
  · rw [emplaced.untouched u old (by rw [releases.body]; exact outside), nowhere]

theorem takeAll_spec {other : NodeId} (distinct : other ≠ S) {hs : List HandleId} (nodup : hs.Nodup)
    (consistent : heap.Consistent) (within : ∀ u ∈ hs, u ∈ heap.body other) :
    ∃ heap', hs.foldlM (takeStmt grow depth S) heap = some heap' ∧ Edits S heap heap' ∧
      heap'.contents S = heap.contents S ++ hs.filterMap heap.ref ∧
        ∀ T ≠ S, ∀ u ∈ heap.body T, heap'.ref u = if u ∈ hs then none else heap.ref u := by
  induction hs generalizing heap with
  | nil =>
    exact ⟨heap, rfl, ⟨consistent, id, rfl, le_rfl, rfl, fun _ _ => rfl⟩, by simp, by simp⟩
  | cons h hs ih =>
    obtain ⟨middle, first, edits, values, refs⟩ :=
      @takeStmt_spec heap h S grow depth other consistent (within h List.mem_cons_self) distinct
    have body : middle.body other = heap.body other := edits.others other distinct
    obtain ⟨heap', rest, edits', values', refs'⟩ := ih nodup.tail edits.consistent fun u mem => by
      rw [body]
      exact within u (List.mem_cons_of_mem _ mem)
    have kept : ∀ T ≠ S, ∀ u ∈ heap.body T, middle.ref u = if u = h then none else heap.ref u :=
      fun T other u mem => refs u (consistent.lt_of_body mem) (consistent.notMem_body mem other)
    refine ⟨heap', ?_, edits.trans edits', ?_, fun T other u mem => ?_⟩
    · rw [List.foldlM_cons, first]
      exact rest
    · have later : hs.filterMap middle.ref = hs.filterMap heap.ref := List.filterMap_congr
        fun u mem => by
          rw [kept other distinct u (within u (List.mem_cons_of_mem _ mem)),
            if_neg fun same : u = h => (List.nodup_cons.mp nodup).1 (same ▸ mem)]
      rw [values', values, later, List.append_assoc]
      cases held : heap.ref h <;> simp [held]
    · rw [refs' T other u (by rwa [edits.others T other]), kept T other u mem]
      grind

theorem takeContent_spec {other : NodeId} (consistent : heap.Consistent)
    (result : heap.takeContent grow depth S other = some heap') :
    ∃ middle, Edits S heap middle ∧ Edits other middle heap' ∧
      heap'.contents = Forest.takeContent heap.contents S other := by
  obtain ⟨alive, taken⟩ := guard_some result
  have distinct : other ≠ S := fun same => by simp [same] at alive
  obtain ⟨middle, moved, edits, values, refs⟩ := @takeAll_spec heap S grow depth other distinct
    (heap.body other) (consistent.body_nodup other) consistent fun _ mem => mem
  rw [moved] at taken
  obtain ⟨edits', same⟩ := clear_spec edits.consistent taken
  refine ⟨middle, edits, edits', same.trans (funext fun T => ?_)⟩
  rw [Forest.clear, Forest.takeContent]
  by_cases there : T = other
  · subst there
    rw [Function.update_self, Function.update_self]
  by_cases here : T = S
  · subst here
    rw [Function.update_of_ne there, Function.update_of_ne there, Function.update_self, values]
    rfl
  · rw [Function.update_of_ne there, Function.update_of_ne there, Function.update_of_ne here]
    refine contents_congr (edits.others T here) fun u mem => ?_
    rw [refs T here u mem, if_neg (consistent.notMem_body mem there)]

/-! ## Replacing -/

theorem alive_destroy {delete : Heap → NodeId → Option Heap} {n : NodeId}
    (shrinks : ∀ before after m, delete before m = some after → after.alive n = true →
      before.alive n = true)
    (destroyed : heap.destroy delete h = some heap') (live : heap'.alive n = true) :
    heap.alive n = true := by
  unfold destroy at destroyed
  split at destroyed
  · cases destroyed
    exact live
  · have before := shrinks _ _ _ destroyed live
    exact before

theorem alive_delete {n m : NodeId} (deleted : heap.delete depth m = some heap')
    (live : heap'.alive n = true) : heap.alive n = true := by
  induction depth generalizing heap heap' m with
  | zero => cases deleted
  | succ depth ih =>
    have all : ∀ (hs : List HandleId) {before after : Heap},
        hs.foldlM (destroy (delete depth)) before = some after →
          after.alive n = true → before.alive n = true := by
      intro hs
      induction hs with
      | nil =>
        intro before after result live
        cases result
        exact live
      | cons h hs rest =>
        intro before after result live
        obtain ⟨middle, first, later⟩ := Option.bind_eq_some_iff.mp result
        exact alive_destroy (fun _ _ _ deleted live => ih deleted live) first (rest later live)
    unfold delete at deleted
    split at deleted
    · obtain ⟨after, destroyed, deleted⟩ := Option.bind_eq_some_iff.mp deleted
      cases deleted
      refine all _ destroyed ?_
      by_cases same : n = m
      · simp [same] at live
      · exact (Function.update_of_ne same ..).symm.trans live
    · cases deleted

theorem dead_delete {n : NodeId} (deleted : heap.delete depth n = some heap') :
    heap'.alive n = false := by
  cases depth with
  | zero => cases deleted
  | succ depth =>
    unfold delete at deleted
    split at deleted
    · obtain ⟨after, -, deleted⟩ := Option.bind_eq_some_iff.mp deleted
      cases deleted
      exact Function.update_self ..
    · cases deleted

section Replace

variable {newS oldS n : NodeId} {hs : List HandleId}

theorem alive_replaceAll (result : hs.foldlM (replaceIn depth S newS oldS) heap = some heap')
    (live : heap'.alive n = true) : heap.alive n = true := by
  induction hs generalizing heap with
  | nil =>
    cases result
    exact live
  | cons h hs ih =>
    obtain ⟨middle, first, rest⟩ := Option.bind_eq_some_iff.mp result
    have before := ih rest
    obtain ⟨-, replaced⟩ := guard_some first
    obtain ⟨value, -, replaced⟩ := Option.bind_eq_some_iff.mp replaced
    split at replaced
    · exact @alive_delete (heap.setReference h (some newS)) _ _ _ _ replaced before
    · cases replaced
      exact before

/-- The loop does nothing at handles that do not refer to the old statement. -/
theorem replaceAll_of_absent (consistent : heap.Consistent)
    (absent : ∀ u ∈ hs, heap.ref u ≠ some oldS)
    (result : hs.foldlM (replaceIn depth S newS oldS) heap = some heap') : heap' = heap := by
  induction hs with
  | nil => exact (Option.some.inj result).symm
  | cons h hs ih =>
    obtain ⟨middle, first, rest⟩ := Option.bind_eq_some_iff.mp result
    obtain ⟨-, replaced⟩ := guard_some first
    rw [get_eq consistent.links, Option.bind_eq_bind, Option.bind_some,
      if_neg (absent h List.mem_cons_self)] at replaced
    cases replaced
    exact ih (fun u mem => absent u (List.mem_cons_of_mem _ mem)) rest

/-- What `replaceStmt` does when the old statement is in the scope. -/
structure Replaced (S newS oldS : NodeId) (h : HandleId) (heap heap' : Heap) : Prop where
  consistent : (heap.setReference h (some newS)).Consistent
  frees : Frees oldS (heap.setReference h (some newS)) heap'
  gone : heap'.alive oldS = false

theorem replaceAll_spec (consistent : heap.Consistent) (exist : ∀ u ∈ hs, u < heap.next)
    (live : heap.alive newS = true) (still : heap'.alive newS = true)
    (result : hs.foldlM (replaceIn depth S newS oldS) heap = some heap') :
    (heap' = heap ∧ ∀ u ∈ hs, heap.ref u ≠ some oldS) ∨
      ∃ h ∈ hs, heap.ref h = some oldS ∧ Replaced S newS oldS h heap heap' := by
  induction hs with
  | nil => exact .inl ⟨(Option.some.inj result).symm, by simp⟩
  | cons h hs ih =>
    obtain ⟨middle, first, rest⟩ := Option.bind_eq_some_iff.mp result
    obtain ⟨-, replaced⟩ := guard_some first
    rw [get_eq consistent.links, Option.bind_eq_bind, Option.bind_some] at replaced
    by_cases here : heap.ref h = some oldS
    · rw [if_pos here] at replaced
      have after : (heap.setReference h (some newS)).Consistent :=
        consistent.setReference (exist h List.mem_cons_self)
          fun n same => Option.some.inj same ▸ live
      have distinct : newS ≠ oldS := fun same => by
        have dead := dead_delete replaced
        rw [← same, alive_replaceAll rest still] at dead
        cases dead
      -- Nothing refers to the old statement when it is deleted.
      have unowned : (heap.setReference h (some newS)).owner oldS = none := by
        cases owned : (heap.setReference h (some newS)).owner oldS with
        | none => rfl
        | some u =>
          have refers := (after.links u oldS).mpr owned
          rw [ref_setReference consistent.links, Links.without] at refers
          have unique := consistent.links.unique (s := u) (t := h) (v := oldS)
          grind
      obtain ⟨frees, gone⟩ := frees_delete after unowned replaced
      have absent : ∀ u ∈ hs, middle.ref u ≠ some oldS := fun u _ refers => by
        simp [frees.consistent.live u oldS refers] at gone
      cases replaceAll_of_absent frees.consistent absent rest
      exact .inr ⟨h, List.mem_cons_self, here, after, frees, gone⟩
    · rw [if_neg here] at replaced
      cases replaced
      obtain ⟨same, absent⟩ | ⟨u, mem, held, spec⟩ :=
        ih (fun u mem => exist u (List.mem_cons_of_mem _ mem)) rest
      · exact .inl ⟨same, List.forall_mem_cons.mpr ⟨here, absent⟩⟩
      · exact .inr ⟨u, List.mem_cons_of_mem _ mem, held, spec⟩

theorem Replaced.ref (replaced : Replaced S newS oldS h heap heap') {T : NodeId} {u : HandleId}
    (live : heap'.alive T = true) (inside : u ∈ heap.held T) :
    heap'.ref u = (heap.setReference h (some newS)).ref u := by
  by_contra changed
  obtain ⟨m, mem, gone⟩ := replaced.frees.emptied u changed
  cases replaced.consistent.apart T m u inside mem
  have dead := replaced.gone
  grind

theorem Replaced.contents (replaced : Replaced S newS oldS h heap heap')
    (consistent : heap.Consistent) (mem : h ∈ heap.body S) (refers : heap.ref h = some oldS)
    (live : heap'.alive T = true) :
    heap'.contents T = Forest.replaceStmt heap.contents S newS oldS T := by
  have body : heap'.body T = heap.body T := by
    obtain same | ⟨dead, -⟩ := replaced.frees.body T
    · exact same
    · simp [live] at dead
  have refs : ∀ u ∈ heap.body T,
      heap'.ref u = if u = h then some newS else heap.without (some newS) u := fun u within => by
    rw [replaced.ref live (List.mem_append_left _ within), ref_setReference consistent.links]
  have there : oldS ∈ heap.contents S := List.mem_filterMap.mpr ⟨h, mem, refers⟩
  rw [Forest.replaceStmt, if_pos there]
  by_cases here : T = S
  · subst here
    obtain ⟨before, behind, parts⟩ := List.append_of_mem mem
    -- One handle refers to the old statement; the handles before and behind it do not.
    have nodup := consistent.body_nodup T
    rw [parts] at nodup
    have apart := List.nodup_middle.mp nodup
    have others : ∀ u, u = h → u ∉ before ++ behind := fun u same =>
      same ▸ (List.nodup_cons.mp apart).1
    have first : ∀ u ∈ before, heap.ref u ≠ some oldS := fun u within same =>
      others u (consistent.links.unique same refers) (List.mem_append_left _ within)
    obtain ⟨front, rest⟩ := contents_split parts refers first
    have away : ∀ hs : List HandleId, hs ⊆ before ++ behind → hs ⊆ heap.body T →
        hs.filterMap heap'.ref = (hs.filterMap heap.ref).filter (· ≠ newS) := by
      intro hs apart within
      rw [← filterMap_withdraw]
      refine List.filterMap_congr fun u mem => ?_
      rw [refs u (within mem), if_neg fun same : u = h => others u same (apart mem)]
    rw [Function.update_self, front, rest, Heap.contents, body]
    have self : heap'.ref h = some newS := (refs h mem).trans (if_pos rfl)
    rw [parts, List.filterMap_append, List.filterMap_cons_some self,
      away before (List.subset_append_left ..) (by rw [parts]; exact List.subset_append_left ..),
      away behind (List.subset_append_right ..) (by simp [parts]), List.tail_cons]
  -- Other scopes do not hold the old statement, and the new one is taken away from them.
  · rw [Function.update_of_ne here]
    refine contents_without body fun u within => ?_
    rw [refs u within, if_neg fun same : u = h => consistent.notMem_body within here (same ▸ mem)]

theorem replaceStmt_spec (consistent : heap.Consistent)
    (result : heap.replaceStmt depth S newS oldS = some heap') :
    heap'.Consistent ∧ (heap.Placed → heap'.Placed) ∧ heap'.alive S = true ∧
      ∀ T, heap'.alive T = true →
        heap'.contents T = Forest.replaceStmt heap.contents S newS oldS T := by
  obtain ⟨alive, result⟩ := guard_some result
  obtain ⟨⟨aliveS, live⟩, -⟩ : (heap.alive S = true ∧ heap.alive newS = true) ∧ _ := by
    simpa only [Bool.and_eq_true] using alive
  obtain ⟨-, result⟩ := guard_some result
  obtain ⟨last, replaced, result⟩ := Option.bind_eq_some_iff.mp result
  obtain ⟨kept, result⟩ := guard_some result
  obtain ⟨still, parent⟩ : last.alive newS = true ∧ last.getParent newS = some S := by
    simpa using kept
  cases result
  obtain ⟨same, absent⟩ | ⟨h, mem, refers, spec⟩ := replaceAll_spec consistent
    (fun u mem => consistent.lt_of_body mem) live still replaced
  · have outside : oldS ∉ heap.contents S := fun mem => by
      obtain ⟨u, inside, held⟩ := List.mem_filterMap.mp mem
      exact absent u inside held
    subst same
    exact ⟨consistent, id, aliveS, fun T _ => by rw [Forest.replaceStmt, if_neg outside]⟩
  · refine ⟨spec.frees.consistent, fun placed n u inside => ?_, ?_,
      fun T live => spec.contents consistent mem refers live⟩
    · rw [spec.frees.parent]
      exact placed n u (spec.frees.held_subset n inside)
    · by_contra dead
      have empty := spec.frees.gone S aliveS (by simpa using dead) h (List.mem_append_left _ mem)
      obtain ⟨u, owned, -⟩ := Option.bind_eq_some_iff.mp parent
      -- The owner handle of the new statement is the one that was set.
      have set : (heap.setReference h (some newS)).owner newS = some h :=
        (spec.consistent.links h newS).mp
          ((ref_setReference consistent.links h).trans (if_pos rfl))
      have last := (spec.frees.consistent.links u newS).mpr owned
      obtain same | none := spec.frees.owner newS
      · cases owned.symm.trans (same.trans set)
        cases last.symm.trans empty
      · cases owned.symm.trans none

end Replace

end Heap

end Bistra
