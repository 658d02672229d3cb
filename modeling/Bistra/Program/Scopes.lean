import Bistra.Program.Verify

/-! # The loops around a loop

What an index may refer to depends on the loops around it.  A pass that works inside a loop finds
them through the parents of the loop.
-/

namespace Bistra

variable {F : Type}

mutual

/-- The loops around the body of the loop `L`, from `L` on; `scope` are those around the
statement. -/
def Stmt.scopeOf (L : LoopId) (scope : List LoopId) : Stmt F → Option (List LoopId)
  | .loop header body =>
    if header.id = L then some (header.id :: scope)
    else Stmt.scopeOfBody L (header.id :: scope) body
  | .ifRange _ _ _ body => Stmt.scopeOfBody L scope body
  | _ => none

def Stmt.scopeOfBody (L : LoopId) (scope : List LoopId) : List (Stmt F) → Option (List LoopId)
  | [] => none
  | s :: rest => (s.scopeOf L scope).or (Stmt.scopeOfBody L scope rest)

end

def Program.scopeOf (p : Program F) (L : LoopId) : Option (List LoopId) :=
  Stmt.scopeOfBody L [] p.body

theorem Stmt.scopeOfBody_eq (L : LoopId) (scope : List LoopId) (body : List (Stmt F)) :
    Stmt.scopeOfBody L scope body = body.findSome? (Stmt.scopeOf L scope) := by
  induction body with
  | nil => rfl
  | cons s rest ih =>
    rw [Stmt.scopeOfBody, ih, List.findSome?_cons]
    cases s.scopeOf L scope <;> rfl

theorem Stmt.scopeOf_spec {decls : Decls} {L : LoopId} {s : Stmt F} :
    ∀ {scope inner : List LoopId}, s.verify decls scope = true →
      s.scopeOf L scope = some inner →
      ∃ loop ∈ s.collectLoops, loop.1.id = L ∧ ∀ t ∈ loop.2, t.verify decls inner = true := by
  induction s using Stmt.inductTree with
  | loop header body ih =>
    intro scope inner verified found
    simp only [Stmt.verify, Bool.and_eq_true, Stmt.verifyBody_eq, List.all_eq_true] at verified
    rw [Stmt.scopeOf] at found
    split at found
    next here =>
      cases found
      exact ⟨(header, body), by simp, here, verified.2⟩
    next =>
      rw [Stmt.scopeOfBody_eq] at found
      obtain ⟨s, mem, found⟩ := List.exists_of_findSome?_eq_some found
      obtain ⟨loop, memLoop, spec⟩ := ih s mem (verified.2 s mem) found
      refine ⟨loop, ?_, spec⟩
      rw [Stmt.collectLoops_loop]
      exact List.mem_cons_of_mem _ (List.mem_flatMap.mpr ⟨s, mem, memLoop⟩)
  | ifRange val start end_ body ih =>
    intro scope inner verified found
    simp only [Stmt.verify, Bool.and_eq_true, Stmt.verifyBody_eq, List.all_eq_true] at verified
    rw [Stmt.scopeOf, Stmt.scopeOfBody_eq] at found
    obtain ⟨s, mem, found⟩ := List.exists_of_findSome?_eq_some found
    obtain ⟨loop, memLoop, spec⟩ := ih s mem (verified.2 s mem) found
    refine ⟨loop, ?_, spec⟩
    rw [Stmt.collectLoops_ifRange]
    exact List.mem_flatMap.mpr ⟨s, mem, memLoop⟩
  | call | store | storeLocal =>
    intro scope inner verified found
    cases found

theorem Stmt.scopeOf_isSome {s : Stmt F} {loop : Loop × List (Stmt F)} :
    ∀ {scope : List LoopId}, loop ∈ s.collectLoops → (s.scopeOf loop.1.id scope).isSome = true := by
  have below : ∀ {body : List (Stmt F)} {scope : List LoopId} {s : Stmt F}, s ∈ body →
      (s.scopeOf loop.1.id scope).isSome = true →
      (Stmt.scopeOfBody loop.1.id scope body).isSome = true := by
    intro body scope s mem found
    rw [Stmt.scopeOfBody_eq, List.findSome?_isSome_iff]
    exact ⟨s, mem, found⟩
  induction s using Stmt.inductTree with
  | loop header body ih =>
    intro scope mem
    rw [Stmt.scopeOf]
    split
    · rfl
    next differs =>
      rw [Stmt.collectLoops_loop] at mem
      cases List.mem_cons.mp mem with
      | inl here => exact (differs (by rw [here])).elim
      | inr inner =>
        obtain ⟨s, memS, memLoop⟩ := List.mem_flatMap.mp inner
        exact below memS (ih s memS memLoop)
  | ifRange val start end_ body ih =>
    intro scope mem
    rw [Stmt.collectLoops_ifRange] at mem
    obtain ⟨s, memS, memLoop⟩ := List.mem_flatMap.mp mem
    exact below memS (ih s memS memLoop)
  | call | store | storeLocal =>
    intro scope mem
    cases mem

theorem Program.scopeOf_eq_some {p : Program F} (verified : p.verify = true)
    {loop : Loop × List (Stmt F)} (mem : loop ∈ p.collectLoops) :
    ∃ scope, p.scopeOf loop.1.id = some scope ∧ ∀ t ∈ loop.2, t.verify p.decls scope = true := by
  obtain ⟨s, memBody, memLoop⟩ := List.mem_flatMap.mp mem
  have some : (p.scopeOf loop.1.id).isSome = true := by
    rw [Program.scopeOf, Stmt.scopeOfBody_eq, List.findSome?_isSome_iff]
    exact ⟨s, memBody, Stmt.scopeOf_isSome memLoop⟩
  obtain ⟨scope, found⟩ := Option.isSome_iff_exists.mp some
  refine ⟨scope, found, ?_⟩
  rw [Program.scopeOf, Stmt.scopeOfBody_eq] at found
  obtain ⟨t, memT, found⟩ := List.exists_of_findSome?_eq_some found
  obtain ⟨other, memOther, same, spec⟩ :=
    Stmt.scopeOf_spec (Program.verify_body verified t memT) found
  have memOther : other ∈ p.collectLoops := List.mem_flatMap.mpr ⟨t, memT, memOther⟩
  rwa [List.inj_on_of_nodup_map (Program.nodup_loopIds verified) memOther mem same] at spec

end Bistra
