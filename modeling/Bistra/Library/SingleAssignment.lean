import Mathlib.Data.List.Basic

/-! # Straight-line code in single-assignment form

Every instruction defines one value, and later instructions refer to it by the place of the
instruction.  So the values that have been computed are a list that only grows, and what is known of
a value stays true while more code is emitted and run (`Computes.frame`).
-/

namespace SingleAssignment

variable {ι V σ α β : Type}

/-! ## The machine -/

/-- Runs code on the values `regs` of the instructions before it.  An instruction defines a value and
changes the state, or goes wrong. -/
def run (act : ι → List V → σ → Option (V × σ)) : List ι → List V → σ → Option (List V × σ)
  | [], regs, s => some (regs, s)
  | i :: code, regs, s =>
    (act i regs s).bind fun step => run act code (regs ++ [step.1]) step.2

section Run

variable {act : ι → List V → σ → Option (V × σ)}

theorem run_append (code more : List ι) (regs : List V) (s : σ) :
    run act (code ++ more) regs s =
      (run act code regs s).bind fun ran => run act more ran.1 ran.2 := by
  induction code generalizing regs s with
  | nil => rfl
  | cons i code ih =>
    rw [List.cons_append, run, run, Option.bind_assoc]
    exact congrArg _ (funext fun step => ih _ _)

/-- Code defines a value for every instruction and keeps the values before it. -/
theorem run_extends {code : List ι} {regs regs' : List V} {s s' : σ}
    (ran : run act code regs s = some (regs', s')) :
    ∃ new, regs' = regs ++ new ∧ new.length = code.length := by
  induction code generalizing regs s with
  | nil =>
    cases ran
    exact ⟨[], (List.append_nil _).symm, rfl⟩
  | cons i code ih =>
    obtain ⟨⟨v, mid⟩, -, ran⟩ := Option.bind_eq_some_iff.mp ran
    obtain ⟨new, same, length⟩ := ih ran
    exact ⟨v :: new, by rw [same, List.append_assoc, List.singleton_append], by simp [length]⟩

end Run

/-! ## Emission -/

/-- Appends code and returns what refers to its values; an emission fails where the emitter has an
assertion that fails. -/
def Emission (ι α : Type) := List ι → Option (α × List ι)

namespace Emission

instance : Monad (Emission ι) where
  pure a code := some (a, code)
  bind x f code := (x code).bind fun done => f done.1 done.2

/-- Appends one instruction; its value goes by its place. -/
def insert (i : ι) : Emission ι Nat := fun code => some (code.length, code ++ [i])

/-- An emission that needs the value of `o`. -/
def ofOption (o : Option α) : Emission ι α := fun code => o.map (·, code)

theorem bind_eq (x : Emission ι α) (f : α → Emission ι β) (code : List ι) :
    (x >>= f) code = (x code).bind fun done => f done.1 done.2 := rfl

end Emission

/-! ## What emitted code does -/

/-- The emission succeeds whatever has been emitted before it, and the code that it appends, run
where `P` holds of the values and the state, runs to its end and leaves `Q`. -/
def Computes (act : ι → List V → σ → Option (V × σ)) (P : List V → σ → Prop) (x : Emission ι α)
    (Q : α → List V → σ → Prop) : Prop :=
  ∀ code, ∃ a more, x code = some (a, code ++ more) ∧
    ∀ regs s, regs.length = code.length → P regs s →
      ∃ regs' s', run act more regs s = some (regs', s') ∧ Q a regs' s'

namespace Computes

variable {act : ι → List V → σ → Option (V × σ)} {P P' : List V → σ → Prop} {x : Emission ι α}
  {Q Q' : α → List V → σ → Prop}

theorem ret {a : α} (post : ∀ regs s, P regs s → Q a regs s) :
    Computes act P (pure a : Emission ι α) Q :=
  fun code => ⟨a, [], by rw [List.append_nil]; rfl, fun regs s _ pre =>
    ⟨regs, s, rfl, post regs s pre⟩⟩

theorem andThen {f : α → Emission ι β} {R : β → List V → σ → Prop} (first : Computes act P x Q)
    (next : ∀ a, Computes act (Q a) (f a) R) : Computes act P (x >>= f) R := by
  intro code
  obtain ⟨a, more, emitted, runs⟩ := first code
  obtain ⟨b, rest, emittedRest, runsRest⟩ := next a (code ++ more)
  refine ⟨b, more ++ rest, ?_, ?_⟩
  · rw [Emission.bind_eq, emitted, Option.bind_some, emittedRest, List.append_assoc]
  · intro regs s length pre
    obtain ⟨mid, s', ran, post⟩ := runs regs s length pre
    obtain ⟨new, same, newLength⟩ := run_extends ran
    have midLength : mid.length = (code ++ more).length := by
      rw [same, List.length_append, List.length_append, length, newLength]
    obtain ⟨last, s'', ranRest, final⟩ := runsRest mid s' midLength post
    exact ⟨last, s'', by rw [run_append, ran, Option.bind_some, ranRest], final⟩

theorem insert {i : ι} {Q : Nat → List V → σ → Prop}
    (acts : ∀ regs s, P regs s → ∃ v s', act i regs s = some (v, s') ∧
      Q regs.length (regs ++ [v]) s') : Computes act P (Emission.insert i) Q := by
  intro code
  refine ⟨code.length, [i], rfl, fun regs s length pre => ?_⟩
  obtain ⟨v, s', acted, post⟩ := acts regs s pre
  exact ⟨regs ++ [v], s', by rw [run, acted]; rfl, length ▸ post⟩

theorem known {o : Option β} {b : β} {f : β → Emission ι α} (known : o = some b)
    (next : Computes act P (f b) Q) : Computes act P (Emission.ofOption o >>= f) Q := by
  intro code
  obtain ⟨a, more, emitted, runs⟩ := next code
  refine ⟨a, more, ?_, runs⟩
  rw [Emission.bind_eq, Emission.ofOption, known]
  exact emitted

theorem weaken (holds : Computes act P x Q) (pre : ∀ regs s, P' regs s → P regs s)
    (post : ∀ a regs s, Q a regs s → Q' a regs s) : Computes act P' x Q' := by
  intro code
  obtain ⟨a, more, emitted, runs⟩ := holds code
  refine ⟨a, more, emitted, fun regs s length this => ?_⟩
  obtain ⟨regs', s', ran, final⟩ := runs regs s length (pre regs s this)
  exact ⟨regs', s', ran, post a regs' s' final⟩

/-- What is known of the values before the code stays true. -/
theorem frame {R : List V → Prop} (stable : ∀ regs new, R regs → R (regs ++ new))
    (holds : Computes act P x Q) :
    Computes act (fun regs s => P regs s ∧ R regs) x fun a regs s => Q a regs s ∧ R regs := by
  intro code
  obtain ⟨a, more, emitted, runs⟩ := holds code
  refine ⟨a, more, emitted, fun regs s length this => ?_⟩
  obtain ⟨regs', s', ran, post⟩ := runs regs s length this.1
  obtain ⟨new, same, -⟩ := run_extends ran
  exact ⟨regs', s', ran, post, same ▸ stable regs new this.2⟩

theorem whole (holds : Computes act P x Q) :
    ∃ a code, x [] = some (a, code) ∧ ∀ s, P [] s →
      ∃ regs s', run act code [] s = some (regs, s') ∧ Q a regs s' := by
  obtain ⟨a, code, emitted, runs⟩ := holds []
  exact ⟨a, code, emitted, fun s pre => runs [] s rfl pre⟩

end Computes

end SingleAssignment
