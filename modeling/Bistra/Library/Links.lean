import Mathlib.Data.List.Nodup
import Mathlib.Data.List.Infix
import Mathlib.Logic.Function.Basic

/-! # Mutual links

A slot holds at most one value, and a value knows the slot that holds it.  A value moves by being
attached to another slot, which takes it away from the slot where it was and lets go of the value
that was there.  Vectors of slots are shifted, relocated and compacted by such moves; each of these
lemmas says where the values are afterwards.
-/

/-- What the slots hold, and where the values are held. -/
structure Links (σ ν : Type) where
  ref : σ → Option ν
  owner : ν → Option σ

namespace Links

variable {σ ν : Type} {l : Links σ ν} {s t u : σ} {v : ν} {r : Option ν}

/-- A slot holds a value if and only if the value names the slot. -/
def Mutual (l : Links σ ν) : Prop := ∀ s v, l.ref s = some v ↔ l.owner v = some s

theorem Mutual.unique (mutual_ : l.Mutual) (first : l.ref s = some v) (second : l.ref t = some v) :
    s = t :=
  Option.some.inj (((mutual_ s v).mp first).symm.trans ((mutual_ t v).mp second))

variable [DecidableEq σ] [DecidableEq ν]

/-- Where the values are held once the slot `s` has let go of its value. -/
def release (l : Links σ ν) (s : σ) : ν → Option σ :=
  match l.ref s with
  | some old => Function.update l.owner old none
  | none => l.owner

/-- Lets the slot `s` hold `r`. -/
def attach (l : Links σ ν) (s : σ) (r : Option ν) : Links σ ν :=
  let owner := l.release s
  let ref := Function.update l.ref s r
  match r with
  | none => ⟨ref, owner⟩
  | some v =>
    -- The slot where the new value was is empty.
    let ref := match owner v with
      | some t => Function.update ref t none
      | none => ref
    ⟨ref, Function.update owner v (some s)⟩

/-- What the slots hold when `r` has been taken away. -/
def without (l : Links σ ν) (r : Option ν) (u : σ) : Option ν :=
  if l.ref u = r then none else l.ref u

theorem release_apply (mutual_ : l.Mutual) :
    l.release s v = if l.owner v = some s then none else l.owner v := by
  unfold release
  cases held : l.ref s with
  | none =>
    have free : l.owner v ≠ some s := fun names => by simp [(mutual_ s v).mpr names] at held
    rw [if_neg free]
  | some old =>
    simp only [Function.update_apply]
    by_cases same : v = old
    · rw [if_pos same, if_pos (same ▸ (mutual_ s old).mp held)]
    · have free : l.owner v ≠ some s := fun names =>
        same (Option.some.inj (((mutual_ s v).mpr names).symm.trans held))
      rw [if_neg same, if_neg free]

theorem ref_attach (mutual_ : l.Mutual) :
    (l.attach s r).ref u = if u = s then r else l.without r u := by
  cases r with
  | none =>
    simp only [attach, without, Function.update_apply]
    grind
  | some v =>
    simp only [attach, release_apply mutual_, without]
    have atU := mutual_ u v
    have atS := mutual_ s v
    cases names : l.owner v with
    | none => grind [Function.update_apply]
    | some t =>
      by_cases same : t = s
      · simp only [same, if_true, Function.update_apply]
        grind
      · simp only [Option.some.injEq, same, if_false, Function.update_apply]
        grind

theorem owner_attach (mutual_ : l.Mutual) :
    (l.attach s r).owner v =
      if r = some v then some s else if l.owner v = some s then none else l.owner v := by
  cases r with
  | none => simp [attach, release_apply mutual_]
  | some v' =>
    simp only [attach, Function.update_apply, release_apply mutual_, Option.some.injEq]
    grind

theorem Mutual.attach (mutual_ : l.Mutual) (s : σ) (r : Option ν) : (l.attach s r).Mutual := by
  intro u v
  rw [ref_attach mutual_, owner_attach mutual_]
  have here := mutual_ u v
  have there := mutual_ s v
  grind [without]

omit [DecidableEq σ] in
theorem filterMap_without (slots : List σ) :
    slots.filterMap (l.without r) = (slots.filterMap l.ref).filter fun v => some v ≠ r := by
  rw [List.filter_filterMap]
  congr 1
  funext u
  unfold without
  cases held : l.ref u with
  | none => simp
  | some v =>
    by_cases same : some v = r
    · rw [if_pos same, Option.filter_some]
      simp [same]
    · rw [if_neg same, Option.filter_some]
      simp [same]

/-! ## Moves -/

/-- Moves what the slot `t` holds to the slot `s`. -/
def move (l : Links σ ν) (s t : σ) : Links σ ν := l.attach s (l.ref t)

theorem Mutual.move (mutual_ : l.Mutual) (s t : σ) : (l.move s t).Mutual := mutual_.attach s _

theorem ref_move (mutual_ : l.Mutual) :
    (l.move s t).ref u = if u = s then l.ref t else if u = t then none else l.ref u := by
  rw [move, ref_attach mutual_, without]
  by_cases same : u = t
  · simp [same]
  · have other : l.ref u = l.ref t → l.ref u = none := by
      intro equal
      cases held : l.ref u with
      | none => rfl
      | some v => exact absurd (mutual_.unique held (equal ▸ held)) same
    grind

/-- Each slot of the list takes what the next one holds. -/
def shift (l : Links σ ν) : List σ → Links σ ν
  | s :: t :: slots => (l.move s t).shift (t :: slots)
  | _ => l

theorem ref_shift_of_notMem {slots : List σ} (mutual_ : l.Mutual) (outside : u ∉ slots) :
    (l.shift slots).ref u = l.ref u := by
  fun_induction Links.shift l slots with
  | case1 l s t slots ih =>
    simp only [List.mem_cons, not_or] at outside ih
    rw [ih (mutual_.move s t) outside.2, ref_move mutual_, if_neg outside.1, if_neg outside.2.1]
  | case2 => rfl

theorem map_ref_shift {slots : List σ} (mutual_ : l.Mutual) (nodup : (s :: slots).Nodup)
    (empty : l.ref s = none) :
    (s :: slots).map (l.shift (s :: slots)).ref = slots.map l.ref ++ [none] := by
  induction slots generalizing l s with
  | nil => simp [shift, empty]
  | cons t slots ih =>
    have notHere : s ∉ t :: slots := (List.nodup_cons.mp nodup).1
    have notThere : t ∉ slots := (List.nodup_cons.mp nodup.tail).1
    have emptyT : (l.move s t).ref t = none := by
      rw [ref_move mutual_, if_neg (fun same : t = s => notHere (same ▸ List.mem_cons_self)),
        if_pos rfl]
    have rest := ih (mutual_.move s t) nodup.tail emptyT
    have first : ((l.move s t).shift (t :: slots)).ref s = l.ref t := by
      rw [ref_shift_of_notMem (mutual_.move s t) notHere, ref_move mutual_, if_pos rfl]
    have kept : slots.map (l.move s t).ref = slots.map l.ref := by
      refine List.map_congr_left fun u mem => ?_
      rw [ref_move mutual_, if_neg fun same : u = s => notHere (same ▸ List.mem_cons_of_mem _ mem),
        if_neg fun same : u = t => notThere (same ▸ mem)]
    rw [shift, List.map_cons, first, rest, kept]
    rfl

/-- Moves the contents of slots to new slots, from the first pair on. -/
def relocate (l : Links σ ν) : List (σ × σ) → Links σ ν
  | [] => l
  | (s, t) :: pairs => (l.move s t).relocate pairs

theorem ref_relocate {pairs : List (σ × σ)} (mutual_ : l.Mutual)
    (nodup : (pairs.map (·.1) ++ pairs.map (·.2)).Nodup) :
    (∀ pair ∈ pairs, (l.relocate pairs).ref pair.1 = l.ref pair.2 ∧
      (l.relocate pairs).ref pair.2 = none) ∧
    ∀ u, u ∉ pairs.map (·.1) → u ∉ pairs.map (·.2) → (l.relocate pairs).ref u = l.ref u := by
  induction pairs generalizing l with
  | nil => simp [relocate]
  | cons pair pairs ih =>
    obtain ⟨s, t⟩ := pair
    have moved := fun u => ref_move (s := s) (t := t) (u := u) mutual_
    -- The slots are all different, so the moves that follow do not touch these two.
    have apart : s ≠ t ∧ (s ∉ pairs.map (·.1) ∧ s ∉ pairs.map (·.2)) ∧
        (t ∉ pairs.map (·.1) ∧ t ∉ pairs.map (·.2)) ∧
          (pairs.map (·.1) ++ pairs.map (·.2)).Nodup := by
      simp only [List.map_cons, List.cons_append, List.nodup_cons, List.mem_append, List.mem_cons,
        not_or, List.nodup_append] at nodup ⊢
      grind
    obtain ⟨inside, outside⟩ := ih (mutual_.move s t) apart.2.2.2
    rw [relocate]
    refine ⟨fun p mem => ?_, fun u notNew notOld => ?_⟩
    · rcases List.mem_cons.mp mem with rfl | mem
      · rw [outside s apart.2.1.1 apart.2.1.2, outside t apart.2.2.1.1 apart.2.2.1.2, moved, moved,
          if_pos rfl, if_neg apart.1.symm, if_pos rfl]
        exact ⟨rfl, rfl⟩
      · have old := List.mem_map_of_mem (f := fun p : σ × σ => p.2) mem
        rw [(inside p mem).1, (inside p mem).2, moved,
          if_neg fun same : p.2 = s => apart.2.1.2 (same ▸ old),
          if_neg fun same : p.2 = t => apart.2.2.1.2 (same ▸ old)]
        exact ⟨rfl, rfl⟩
    · simp only [List.map_cons, List.mem_cons, not_or] at notNew notOld
      rw [outside u notNew.2 notOld.2, moved, if_neg notNew.1, if_neg notOld.1]

/-- Moves the contents of the slots behind the empty slots `free` to the front, in order; the slots
that hold something afterwards come with the result. -/
def compact (l : Links σ ν) (free : List σ) : List σ → Links σ ν × List σ
  | [] => (l, [])
  | t :: slots =>
    match l.ref t, free with
    | none, _ => l.compact (free ++ [t]) slots
    | some _, [] =>
      let rest := l.compact [] slots
      (rest.1, t :: rest.2)
    | some _, s :: free =>
      let rest := (l.move s t).compact (free ++ [t]) slots
      (rest.1, s :: rest.2)

theorem ref_compact_of_notMem {free slots : List σ} (mutual_ : l.Mutual)
    (outside : u ∉ free ++ slots) : (l.compact free slots).1.ref u = l.ref u := by
  induction slots generalizing l free with
  | nil => rfl
  | cons t slots ih =>
    cases held : l.ref t with
    | none =>
      simp only [compact, held]
      exact ih mutual_ (by simpa using outside)
    | some v =>
      cases free with
      | nil =>
        simp only [compact, held]
        exact ih mutual_ (by simp_all)
      | cons s free =>
        simp only [compact, held]
        simp only [List.cons_append, List.mem_cons, List.mem_append, not_or] at outside
        rw [ih (mutual_.move s t) (by simp_all), ref_move mutual_, if_neg outside.1,
          if_neg outside.2.2.1]

/-- The slots of the result come first, they hold what was there in the same order, and the slots
behind them are empty. -/
theorem compact_spec {free slots : List σ} (mutual_ : l.Mutual) (nodup : (free ++ slots).Nodup)
    (empty : ∀ s ∈ free, l.ref s = none) :
    ∃ tail, free ++ slots = (l.compact free slots).2 ++ tail ∧
      (l.compact free slots).2.map (l.compact free slots).1.ref =
        (slots.filterMap l.ref).map some ∧
      ∀ u ∈ tail, (l.compact free slots).1.ref u = none := by
  induction slots generalizing l free with
  | nil => exact ⟨free, by simp [compact], by simp [compact], by simpa [compact] using empty⟩
  | cons t slots ih =>
    cases held : l.ref t with
    -- The slot is empty: it is one more place to move to.
    | none =>
      obtain ⟨tail, parts, values, rest⟩ := @ih l (free ++ [t]) mutual_
        (by simpa using nodup) (by grind)
      simp only [compact, held]
      refine ⟨tail, by simpa using parts, ?_, rest⟩
      rw [List.filterMap_cons_none held]
      exact values
    | some v =>
      cases free with
      | nil =>
        -- The slot holds something and there is no place to move it to, so it stays.
        have notThere : t ∉ slots := (List.nodup_cons.mp nodup).1
        obtain ⟨tail, parts, values, rest⟩ := @ih l [] mutual_ nodup.tail (by simp)
        simp only [compact, held]
        refine ⟨tail, congrArg (t :: ·) parts, ?_, rest⟩
        rw [List.map_cons, ref_compact_of_notMem mutual_ notThere, held, values,
          List.filterMap_cons_some held, List.map_cons]
      | cons s free =>
        -- The value moves to the first free slot, and the slot it comes from is free.
        have notHere : s ∉ free ++ t :: slots := (List.nodup_cons.mp nodup).1
        have distinct : s ≠ t := fun same => notHere (by simp [same])
        have notThere : t ∉ slots := by grind
        have moved := fun u => ref_move (s := s) (t := t) (u := u) mutual_
        obtain ⟨tail, parts, values, rest⟩ := @ih (l.move s t) (free ++ [t])
          (mutual_.move s t) (by grind) (by grind)
        have kept : slots.filterMap (l.move s t).ref = slots.filterMap l.ref :=
          List.filterMap_congr fun u mem => by grind
        simp only [compact, held]
        refine ⟨tail, by simpa using parts, ?_, rest⟩
        rw [List.map_cons, ref_compact_of_notMem (mutual_.move s t) (by simpa using notHere), moved,
          if_pos rfl, held, values, kept, List.filterMap_cons_some held, List.map_cons]

end Links
