import Mathlib.Data.List.Infix
import Mathlib.Data.List.Range

/-! # Tables that give out identifiers

An element gets the position of the first entry that it equals, and a new entry at the end if there
is none.  The equality is a parameter: it need not be the equality of the elements.
-/

namespace IdTable

variable {α : Type*} (eq : α → α → Bool)

/-- The identifier of an element, and the table that contains it. -/
def getIdFor (table : List α) (x : α) : Nat × List α :=
  match table.findIdx? (eq · x) with
  | some id => (id, table)
  | none => (table.length, table ++ [x])

/-- The identifier of an element in a table that has an entry for it. -/
def idOf (table : List α) (x : α) : Nat := table.findIdx (eq · x)

/-- No entry equals an earlier one. -/
def Separated (table : List α) : Prop := table.Pairwise fun a b => eq a b = false

variable {eq}

theorem prefix_getIdFor (table : List α) (x : α) : table <+: (getIdFor eq table x).2 := by
  rw [getIdFor]
  split
  · exact List.prefix_rfl
  · exact List.prefix_append _ _

theorem getIdFor_of_any {table : List α} {x : α} (known : table.any (eq · x) = true) :
    getIdFor eq table x = (idOf eq table x, table) := by
  rw [List.any_eq_true] at known
  have below : idOf eq table x < table.length := List.findIdx_lt_length.mpr known
  have found : table.findIdx? (eq · x) = some (idOf eq table x) := by
    rw [List.findIdx?_eq_some_iff_findIdx_eq]
    exact ⟨below, rfl⟩
  rw [getIdFor, found]

theorem getIdFor_of_not_any {table : List α} {x : α} (new : table.any (eq · x) = false) :
    getIdFor eq table x = (table.length, table ++ [x]) := by
  rw [List.any_eq_false] at new
  have absent : table.findIdx? (eq · x) = none := by
    rw [List.findIdx?_eq_none_iff]
    exact fun y mem => by simpa using new y mem
  rw [getIdFor, absent]

theorem idOf_of_extends {table final : List α} {x : α} (grown : table <+: final)
    (known : table.any (eq · x) = true) : idOf eq final x = idOf eq table x := by
  obtain ⟨rest, rfl⟩ := grown
  rw [List.any_eq_true] at known
  rw [idOf, idOf, List.findIdx_append, if_pos (List.findIdx_lt_length.mpr known)]

theorem any_getIdFor (refl : ∀ x, eq x x = true) (table : List α) (x : α) :
    (getIdFor eq table x).2.any (eq · x) = true := by
  cases known : table.any (eq · x) with
  | true => rwa [getIdFor_of_any known]
  | false => simp [getIdFor_of_not_any known, refl]

/-- The identifier that an element gets is the one that it has in every later table. -/
theorem getIdFor_fst (refl : ∀ x, eq x x = true) {table final : List α} {x : α}
    (grown : (getIdFor eq table x).2 <+: final) :
    (getIdFor eq table x).1 = idOf eq final x := by
  rw [idOf_of_extends grown (any_getIdFor refl table x)]
  cases known : table.any (eq · x) with
  | true => rw [getIdFor_of_any known]
  | false =>
    rw [getIdFor_of_not_any known, idOf, List.findIdx_append, if_neg]
    · simp [List.findIdx_cons, refl]
    · rw [List.findIdx_lt_length, ← List.any_eq_true, known]
      exact Bool.false_ne_true

theorem getElem?_idOf {table : List α} {x : α} (known : table.any (eq · x) = true) :
    ∃ y, table[idOf eq table x]? = some y ∧ eq y x = true := by
  rw [List.any_eq_true] at known
  have below : idOf eq table x < table.length := List.findIdx_lt_length.mpr known
  have equal : eq table[idOf eq table x] x = true := List.findIdx_getElem (p := (eq · x))
  exact ⟨_, List.getElem?_eq_getElem below, equal⟩

theorem separated_getIdFor {table : List α} (separated : Separated eq table) (x : α) :
    Separated eq (getIdFor eq table x).2 := by
  cases known : table.any (eq · x) with
  | true => rwa [getIdFor_of_any known]
  | false =>
    rw [getIdFor_of_not_any known, Separated, List.pairwise_append]
    refine ⟨separated, List.pairwise_singleton _ _, ?_⟩
    intro y mem z memZ
    rw [List.mem_singleton.mp memZ]
    simpa using List.any_eq_false.mp known y mem

theorem mem_getIdFor {table : List α} {x y : α} (mem : y ∈ (getIdFor eq table x).2) :
    y ∈ table ∨ y = x := by
  cases known : table.any (eq · x) with
  | true =>
    rw [getIdFor_of_any known] at mem
    exact .inl mem
  | false =>
    rw [getIdFor_of_not_any known, List.mem_append, List.mem_singleton] at mem
    exact mem

/-- Entries that differ from themselves do not exist, so no entry occurs twice. -/
theorem Separated.nodup (refl : ∀ x, eq x x = true) {table : List α}
    (separated : Separated eq table) : table.Nodup :=
  separated.imp fun {a b} different same => by
    subst same
    rw [refl a] at different
    cases different

theorem nodup_of_separated [DecidableEq α] {table : List α}
    (separated : Separated (fun a b => decide (a = b)) table) : table.Nodup :=
  separated.imp fun different => of_decide_eq_false different

theorem foldl_getIdFor {table : List α} (separated : Separated eq table) :
    table.foldl (fun t x => (getIdFor eq t x).2) [] = table := by
  suffices ∀ done rest : List α, Separated eq (done ++ rest) →
      rest.foldl (fun t x => (getIdFor eq t x).2) done = done ++ rest from this [] table separated
  intro done rest separated
  induction rest generalizing done with
  | nil => simp
  | cons x rest ih =>
    have new : done.any (eq · x) = false := by
      rw [List.any_eq_false]
      intro y mem
      have := (List.pairwise_append.mp separated).2.2 y mem x List.mem_cons_self
      simp [this]
    rw [List.foldl_cons, getIdFor_of_not_any new, ih _ (by simpa using separated)]
    simp

theorem prefix_foldl (xs : List α) : ∀ table : List α,
    table <+: xs.foldl (fun t x => (getIdFor eq t x).2) table := by
  induction xs with
  | nil => exact fun table => List.prefix_rfl
  | cons x xs ih => exact fun table => (prefix_getIdFor table x).trans (ih _)

theorem mem_foldl [DecidableEq α] {x : α} {xs : List α} (mem : x ∈ xs) (table : List α) :
    x ∈ xs.foldl (fun t x => (getIdFor (fun a b => decide (a = b)) t x).2) table := by
  induction xs generalizing table with
  | nil => cases mem
  | cons y xs ih =>
    rcases List.mem_cons.mp mem with rfl | mem
    · obtain ⟨z, memZ, same⟩ := List.any_eq_true.mp
        (@any_getIdFor α (fun a b => decide (a = b)) (fun x => decide_eq_true rfl) table x)
      rw [decide_eq_true_eq] at same
      exact (prefix_foldl xs _).subset (same ▸ memZ)
    · exact ih mem _

/-! ## Definitions before uses -/

section Order

variable {β ι κ : Type*} {defines : β → ι} {uses : β → List ι}

/-- Every identifier that a record uses is known before or is defined by an earlier record. -/
def UsesBefore (defines : β → ι) (uses : β → List ι) (known : List ι) : List β → Prop
  | [] => True
  | r :: rs => (∀ id ∈ uses r, id ∈ known) ∧ UsesBefore defines uses (known ++ [defines r]) rs

theorem usesBefore_append {known : List ι} {rs rs' : List β} :
    UsesBefore defines uses known (rs ++ rs') ↔ UsesBefore defines uses known rs ∧
      UsesBefore defines uses (known ++ rs.map defines) rs' := by
  induction rs generalizing known with
  | nil => simp [UsesBefore]
  | cons r rs ih => simp [UsesBefore, ih, and_assoc]

theorem UsesBefore.map {γ : Type*} {f : ι → κ} {g : β → γ} {defines' : γ → κ} {uses' : γ → List κ}
    {known : List ι} {rs : List β} (order : UsesBefore defines uses known rs)
    (defined : ∀ r, defines' (g r) = f (defines r)) (used : ∀ r, uses' (g r) = (uses r).map f) :
    UsesBefore defines' uses' (known.map f) (rs.map g) := by
  induction rs generalizing known with
  | nil => trivial
  | cons r rs ih =>
    constructor
    · rw [used]
      intro id' mem
      obtain ⟨id, memUses, rfl⟩ := List.mem_map.mp mem
      exact List.mem_map_of_mem (order.1 id memUses)
    · have rest := ih order.2
      rwa [List.map_append, List.map_singleton, ← defined] at rest

end Order

end IdTable
