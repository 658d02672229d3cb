import Mathlib.Algebra.Group.Nat.Defs
import Mathlib.Control.Lawful
import Mathlib.Data.List.Forall2
import Mathlib.Logic.Relation

/-! # Searches

A search goes through variants of what it has been given, and hands each one to the next stage.  A
stage that fails ends the search.  `Emits` says what a stage hands on when it returns; stages that
are put behind each other emit what the last one makes of everything that the earlier ones emit.
-/

/-- A part of a search, which changes a state or fails. -/
abbrev SearchM (σ : Type) := StateT σ Option

namespace SearchM

variable {σ α β γ : Type}

/-- What is done with a candidate. -/
abbrev Visit (σ α : Type) := α → SearchM σ Unit

/-- A part of a stage, given the next stage, hands on the candidates `outs` and returns a value: it
leaves the state that the next stage leaves after these candidates. -/
def Emits (x : Visit σ α → SearchM σ β) (spec : β → List α → Prop) : Prop :=
  ∀ (next : Visit σ α) (s : σ) (b : β) (s' : σ), (x next).run s = some (b, s') →
    ∃ outs, spec b outs ∧ (forM outs next).run s = some ((), s')

theorem run_bind {x : SearchM σ α} {f : α → SearchM σ β} {s s' : σ} {b : β} :
    (x >>= f).run s = some (b, s') ↔
      ∃ a t, x.run s = some (a, t) ∧ (f a).run t = some (b, s') := by
  rw [StateT.run_bind]
  show (x.run s).bind _ = _ ↔ _
  rw [Option.bind_eq_some_iff]
  exact ⟨fun ⟨⟨a, t⟩, first, rest⟩ => ⟨a, t, first, rest⟩, fun ⟨a, t, first, rest⟩ =>
    ⟨(a, t), first, rest⟩⟩

theorem run_lift {o : Option α} {s s' : σ} {a : α} :
    (liftM o : SearchM σ α).run s = some (a, s') ↔ o = some a ∧ s' = s := by
  cases o with
  | none => exact ⟨nofun, fun ⟨same, _⟩ => nomatch same⟩
  | some b =>
    show some (b, s) = some (a, s') ↔ _
    simp only [Option.some.injEq, Prod.mk.injEq]
    exact and_congr_right' eq_comm

theorem run_guard {condition : Prop} [Decidable condition] {s s' : σ} :
    (guard condition : SearchM σ Unit).run s = some ((), s') ↔ condition ∧ s' = s := by
  by_cases holds : condition
  · rw [guard, if_pos holds]
    show some ((), s) = some ((), s') ↔ _
    simp [holds, eq_comm]
  · rw [guard, if_neg holds]
    exact ⟨nofun, fun both => absurd both.1 holds⟩

theorem run_forM_append {next : Visit σ α} {first rest : List α} {s s' : σ} :
    (forM (first ++ rest) next).run s = some ((), s') ↔
      ∃ t, (forM first next).run s = some ((), t) ∧ (forM rest next).run t = some ((), s') := by
  induction first generalizing s with
  | nil => exact ⟨fun done => ⟨s, rfl, done⟩, fun ⟨t, same, done⟩ => by cases same; exact done⟩
  | cons a first ih =>
    rw [List.cons_append, List.forM_cons, List.forM_cons, run_bind]
    constructor
    · rintro ⟨⟨⟩, t, visited, done⟩
      obtain ⟨u, first, rest⟩ := ih.mp done
      exact ⟨u, run_bind.mpr ⟨(), t, visited, first⟩, rest⟩
    · rintro ⟨u, first, rest⟩
      obtain ⟨⟨⟩, t, visited, first⟩ := run_bind.mp first
      exact ⟨(), t, visited, ih.mpr ⟨u, first, rest⟩⟩

namespace Emits

variable {x : Visit σ α → SearchM σ β} {S S' : β → List α → Prop}

theorem weaken (emits : Emits x S) (implies : ∀ b outs, S b outs → S' b outs) : Emits x S' :=
  fun next s b s' returned =>
    let ⟨outs, spec, run⟩ := emits next s b s' returned
    ⟨outs, implies b outs spec, run⟩

theorem lift {o : Option β} : Emits (fun _ : Visit σ α => (liftM o : SearchM σ β)) fun b outs =>
    o = some b ∧ outs = [] := by
  intro next s b s' returned
  obtain ⟨same, rfl⟩ := run_lift.mp returned
  exact ⟨[], ⟨same, rfl⟩, rfl⟩

theorem ret {b : β} : Emits (fun _ : Visit σ α => (pure b : SearchM σ β)) fun b' outs =>
    b' = b ∧ outs = [] := by
  intro next s b' s' returned
  cases returned
  exact ⟨[], ⟨rfl, rfl⟩, rfl⟩

theorem emit (a : α) : Emits (fun next : Visit σ α => next a) fun _ outs => outs = [a] := by
  intro next s b s' returned
  refine ⟨[a], rfl, ?_⟩
  rw [List.forM_cons]
  exact run_bind.mpr ⟨(), s', returned, rfl⟩

theorem andThen {y : β → Visit σ α → SearchM σ γ} {T : β → γ → List α → Prop} (first : Emits x S)
    (second : ∀ b, Emits (y b) (T b)) :
    Emits (fun next => x next >>= fun b => y b next) fun c outs =>
      ∃ b outs1 outs2, S b outs1 ∧ T b c outs2 ∧ outs = outs1 ++ outs2 := by
  intro next s c s' returned
  obtain ⟨b, t, returned1, returned2⟩ := run_bind.mp returned
  obtain ⟨outs1, spec1, run1⟩ := first next s b t returned1
  obtain ⟨outs2, spec2, run2⟩ := second b next t c s' returned2
  exact ⟨outs1 ++ outs2, ⟨b, outs1, outs2, spec1, spec2, rfl⟩,
    run_forM_append.mpr ⟨t, run1, run2⟩⟩

theorem bindLift {o : Option γ} {y : γ → Visit σ α → SearchM σ β}
    (rest : ∀ c, o = some c → Emits (y c) S) :
    Emits (fun next => (liftM o : SearchM σ γ) >>= fun c => y c next) S := by
  intro next s b s' returned
  obtain ⟨c, t, first, later⟩ := run_bind.mp returned
  obtain ⟨found, rfl⟩ := run_lift.mp first
  exact rest c found next t b s' later

theorem bindCheck {condition : Prop} [Decidable condition]
    {y : Unit → Visit σ α → SearchM σ β} (rest : condition → Emits (y ()) S) :
    Emits (fun next => (guard condition : SearchM σ Unit) >>= fun u => y u next) S := by
  intro next s b s' returned
  obtain ⟨⟨⟩, t, first, later⟩ := run_bind.mp returned
  obtain ⟨holds, rfl⟩ := run_guard.mp first
  exact rest holds next t b s' later

theorem forEach {z : γ → Visit σ α → SearchM σ Unit} {T : γ → List α → Prop}
    (each : ∀ c, Emits (z c) fun _ => T c) (cs : List γ) :
    Emits (fun next => forM cs fun c => z c next) fun _ outs =>
      ∃ parts, List.Forall₂ T cs parts ∧ outs = parts.flatten := by
  induction cs with
  | nil =>
    refine ret.weaken fun _ outs spec => ⟨[], .nil, spec.2⟩
  | cons c cs ih =>
    have step := (each c).andThen fun _ => ih
    refine Emits.weaken step ?_
    rintro _ outs ⟨_, outs1, _, here, ⟨parts, rest, rfl⟩, rfl⟩
    exact ⟨outs1 :: parts, .cons here rest, rfl⟩

theorem behind {stage1 : Visit σ α → SearchM σ β} {stage2 : Visit σ γ → Visit σ α}
    {S : β → List α → Prop} {T : α → List γ → Prop} (first : Emits stage1 S)
    (second : ∀ a, Emits (stage2 · a) fun _ => T a) :
    Emits (fun next => stage1 (stage2 next)) fun b outs =>
      ∃ mids parts, S b mids ∧ List.Forall₂ T mids parts ∧ outs = parts.flatten := by
  intro next s b s' returned
  obtain ⟨mids, spec, run⟩ := first (stage2 next) s b s' returned
  obtain ⟨_, ⟨parts, each, rfl⟩, run⟩ := forEach second mids next s () s' run
  exact ⟨parts.flatten, ⟨mids, parts, spec, each, rfl⟩, run⟩

end Emits

theorem exists_of_mem {R : α → β → Prop} {l : List α} {l' : List β} (each : List.Forall₂ R l l')
    {a : α} (mem : a ∈ l) : ∃ b ∈ l', R a b := by
  induction each with
  | nil => cases mem
  | cons here _ ih =>
    cases mem with
    | head => exact ⟨_, List.mem_cons_self, here⟩
    | tail _ later =>
      obtain ⟨b, memB, related⟩ := ih later
      exact ⟨b, List.mem_cons_of_mem _ memB, related⟩

/-- A stage offers exactly the variants `V a` of a candidate `a`, whenever it returns. -/
def Offers (stage : Visit σ β → Visit σ α) (V : α → β → Prop) : Prop :=
  ∀ a, Emits (stage · a) fun _ outs => ∀ b, b ∈ outs ↔ V a b

theorem Offers.behind {stage1 : Visit σ β → Visit σ α} {stage2 : Visit σ γ → Visit σ β}
    {V : α → β → Prop} {W : β → γ → Prop} (first : Offers stage1 V) (second : Offers stage2 W) :
    Offers (fun next => stage1 (stage2 next)) (Relation.Comp V W) := by
  intro a
  refine ((first a).behind second).weaken ?_
  rintro _ outs ⟨mids, parts, offered, each, rfl⟩ c
  rw [List.mem_flatten]
  constructor
  · rintro ⟨part, mem, inPart⟩
    obtain ⟨b, memB, offers⟩ := exists_of_mem each.flip mem
    exact ⟨b, (offered b).mp memB, (offers c).mp inPart⟩
  · rintro ⟨b, variant, offers⟩
    obtain ⟨part, mem, whole⟩ := exists_of_mem each ((offered b).mpr variant)
    exact ⟨part, mem, (whole c).mpr offers⟩

/-! ## Numbered attempts -/

/-- Hands a candidate on if the condition holds. -/
def offer (condition : Bool) (a : α) (next : Visit σ α) : SearchM σ Unit :=
  if condition then next a else pure ()

theorem offer_emits (condition : Bool) (a : α) : Emits (offer (σ := σ) condition a) fun _ outs =>
    ∀ b, b ∈ outs ↔ condition = true ∧ b = a := by
  cases condition with
  | true => exact (Emits.emit a).weaken (by simp)
  | false => exact Emits.ret.weaken (by simp)

theorem Emits.either {x y : Visit σ α → SearchM σ Unit} {V W : α → Prop}
    (first : Emits x fun _ outs => ∀ a, a ∈ outs ↔ V a)
    (second : Emits y fun _ outs => ∀ a, a ∈ outs ↔ W a) :
    Emits (fun next => x next >>= fun _ => y next) fun _ outs => ∀ a, a ∈ outs ↔ V a ∨ W a := by
  refine (first.andThen fun _ => second).weaken ?_
  rintro _ _ ⟨_, outs1, outs2, here, later, rfl⟩ a
  rw [List.mem_append, here, later]

theorem emit_emits (a : α) : Emits (fun next : Visit σ α => next a) fun _ outs =>
    ∀ b, b ∈ outs ↔ b = a :=
  (Emits.emit a).weaken (by simp)

theorem emits_forM {z : γ → Visit σ α → SearchM σ Unit} {V : γ → α → Prop}
    (each : ∀ c, Emits (z c) fun _ outs => ∀ a, a ∈ outs ↔ V c a) (cs : List γ) :
    Emits (fun next => forM cs fun c => z c next) fun _ outs => ∀ a, a ∈ outs ↔ ∃ c ∈ cs, V c a := by
  induction cs with
  | nil =>
    refine Emits.ret.weaken ?_
    rintro _ _ ⟨-, rfl⟩ a
    simp
  | cons c cs ih =>
    refine Emits.weaken ((each c).either ih) fun _ outs spec a => (spec a).trans ?_
    rw [List.exists_mem_cons_iff]

/-- What an attempt makes: a variant, whether it differs, and whether it may be handed on. -/
structure Attempt (α : Type) where
  variant : α
  changed : Bool
  fits : Bool

/-- Attempts to make a variant.  An attempt is given a flag, which it may set; the variant is handed
on if it fits and the flag is set. -/
def attempts (attempt : γ → Bool → Option (Attempt α)) (next : Visit σ α) :
    Bool → List γ → SearchM σ Unit
  | _, [] => pure ()
  | flag, id :: rest => do
    let made ← attempt id flag
    offer (made.changed && made.fits) made.variant next
    attempts attempt next made.changed rest

/-- The variant of the attempt `id` fits, and this attempt or one of those `before` it has changed
something. -/
def HandedOn (attempt : γ → Bool → Option (Attempt α)) (flag : Bool) (before : List γ) (id : γ)
    (a : α) : Prop :=
  (∃ made, attempt id false = some made ∧ made.fits = true ∧ made.variant = a) ∧
    (flag = true ∨ ∃ earlier ∈ before ++ [id], ∃ made, attempt earlier false = some made ∧
      made.changed = true)

theorem attempts_emits {attempt : γ → Bool → Option (Attempt α)}
    (sticky : ∀ id flag, attempt id flag =
      (attempt id false).map fun made => { made with changed := flag || made.changed }) :
    ∀ (ids : List γ) (flag : Bool),
      Emits (fun next : Visit σ α => attempts attempt next flag ids) fun _ outs =>
        ∀ a, a ∈ outs ↔ ∃ before id after, ids = before ++ id :: after ∧
          HandedOn attempt flag before id a
  | [], flag => Emits.ret.weaken <| by
    rintro _ _ ⟨-, rfl⟩ a
    simp
  -- The first attempt has made its variant; the flag goes on to the others as it has left it.
  | id :: rest, flag => by
    refine Emits.weaken (Emits.lift.andThen fun made =>
      (offer_emits _ made.variant).andThen fun _ => attempts_emits sticky rest made.changed) ?_
    rintro _ _ ⟨made, _, _, ⟨here, rfl⟩, ⟨_, outs1, outs2, first, later, rfl⟩, rfl⟩ a
    rw [sticky, Option.map_eq_some_iff] at here
    obtain ⟨made, here, rfl⟩ := here
    rw [List.nil_append, List.mem_append, first, later]
    constructor
    -- What is handed on is the variant of this attempt, or of a later one.
    · rintro (⟨set, rfl⟩ | ⟨before, other, after, rfl, found, set⟩)
      · rw [Bool.and_eq_true, Bool.or_eq_true] at set
        refine ⟨[], id, rest, rfl, ⟨made, here, set.2, rfl⟩, set.1.imp_right fun now => ?_⟩
        exact ⟨id, List.mem_singleton_self id, made, here, now⟩
      · refine ⟨id :: before, other, after, rfl, found, ?_⟩
        rw [Bool.or_eq_true] at set
        obtain (set | now) | ⟨earlier, mem, set⟩ := set
        · exact .inl set
        · exact .inr ⟨id, List.mem_cons_self, made, here, now⟩
        · exact .inr ⟨earlier, List.mem_cons_of_mem _ mem, set⟩
    · rintro ⟨before, other, after, same, ⟨single, found, fits, rfl⟩, set⟩
      cases before with
      -- At the attempt itself nothing has been set before, except by the flag.
      | nil =>
        cases same
        cases here.symm.trans found
        refine .inl ⟨?_, rfl⟩
        rw [Bool.and_eq_true, Bool.or_eq_true]
        refine ⟨set.imp_right ?_, fits⟩
        rintro ⟨earlier, mem, single', found', now⟩
        cases List.mem_singleton.mp mem
        cases found.symm.trans found'
        exact now
      | cons b before =>
        cases same
        -- The change that set the flag is this attempt's, or one behind it.
        refine .inr ⟨before, other, after, rfl, ⟨single, found, fits, rfl⟩, ?_⟩
        rw [Bool.or_eq_true]
        obtain set | ⟨earlier, mem, single', found', now⟩ := set
        · exact .inl (.inl set)
        · cases mem with
          | head =>
            cases here.symm.trans found'
            exact .inl (.inr now)
          | tail _ mem => exact .inr ⟨earlier, mem, single', found', now⟩

/-- The attempts before the attempt `id`. -/
theorem before_of_range {n id : Nat} {before after : List Nat}
    (split : List.range n = before ++ id :: after) : id < n ∧ before = List.range id := by
  have here : (List.range n)[before.length]? = some id := by
    rw [split, List.getElem?_append_right (Nat.le_refl _), Nat.sub_self, List.getElem?_cons_zero]
  obtain ⟨below, same⟩ := List.getElem?_eq_some_iff.mp here
  rw [List.getElem_range] at same
  rw [List.length_range, same] at below
  have first := congrArg (List.take before.length) split
  rw [List.take_left, List.take_range, same, Nat.min_eq_left (Nat.le_of_lt below)] at first
  exact ⟨below, first.symm⟩

theorem range_split {n id : Nat} (below : id < n) :
    ∃ after, List.range n = List.range id ++ id :: after := by
  obtain ⟨m, rfl⟩ : ∃ m, n = id + (m + 1) := ⟨n - id - 1, by omega⟩
  rw [List.range_add, List.range_succ_eq_map, List.map_cons, Nat.add_zero]
  exact ⟨_, rfl⟩

/-- What every visit keeps, the visits of a list of candidates keep. -/
theorem forM_invariant {visit : Visit σ α} {I : List α → σ → Prop}
    (step : ∀ tried a s s', I tried s → (visit a).run s = some ((), s') → I (tried ++ [a]) s') :
    ∀ {outs tried : List α} {s s' : σ}, I tried s → (forM outs visit).run s = some ((), s') →
      I (tried ++ outs) s'
  | [], tried, s, s', holds, run => by
    cases run
    rwa [List.append_nil]
  | a :: outs, tried, s, s', holds, run => by
    rw [List.forM_cons] at run
    obtain ⟨⟨⟩, t, visited, rest⟩ := run_bind.mp run
    have later := forM_invariant step (step tried a s t holds visited) rest
    rwa [List.append_assoc, List.singleton_append] at later

end SearchM

/-! ## Words

The attempts of a search are numbered: a number is read as a word, whose letters are chosen by its
digits, the least significant one first.
-/

namespace Words

variable {α : Type}

/-- The word of length `k` with the number `id`. -/
def word (letters : List α) : Nat → Nat → List α
  | 0, _ => []
  | k + 1, id => letters[id % letters.length]?.toList ++ word letters k (id / letters.length)

theorem word_succ {letters : List α} {id : Nat} {a : α}
    (letter : letters[id % letters.length]? = some a) (k : Nat) :
    word letters (k + 1) id = a :: word letters k (id / letters.length) := by
  rw [word, letter]
  rfl

theorem exists_word {letters : List α} {w : List α} (each : ∀ a ∈ w, a ∈ letters) :
    ∃ id < letters.length ^ w.length, word letters w.length id = w := by
  induction w with
  | nil => exact ⟨0, Nat.one_pos, rfl⟩
  | cons a w ih =>
    rw [List.forall_mem_cons] at each
    obtain ⟨i, below, here⟩ := List.mem_iff_getElem.mp each.1
    obtain ⟨id, small, rest⟩ := ih each.2
    have digit : (i + letters.length * id) % letters.length = i := by
      rw [Nat.add_mul_mod_self_left, Nat.mod_eq_of_lt below]
    have others : (i + letters.length * id) / letters.length = id := by
      rw [Nat.add_mul_div_left _ _ (by omega), Nat.div_eq_of_lt below, Nat.zero_add]
    refine ⟨i + letters.length * id, ?_, ?_⟩
    · calc i + letters.length * id < letters.length * (id + 1) := by rw [Nat.mul_succ]; omega
        _ ≤ letters.length * letters.length ^ w.length := Nat.mul_le_mul_left _ small
        _ = letters.length ^ (a :: w).length := by rw [List.length_cons, Nat.pow_succ, Nat.mul_comm]
    · have letter : letters[(i + letters.length * id) % letters.length]? = some a := by
        rw [digit, List.getElem?_eq_getElem below, here]
      rw [List.length_cons, word_succ letter, others, rest]

theorem length_word {letters : List α} (nonempty : letters ≠ []) (k id : Nat) :
    (word letters k id).length = k := by
  induction k generalizing id with
  | zero => rfl
  | succ k ih =>
    have below := Nat.mod_lt id (List.length_pos_iff.mpr nonempty)
    rw [word_succ (List.getElem?_eq_getElem below), List.length_cons, ih]

theorem mem_letters {letters : List α} {k id : Nat} {a : α} (mem : a ∈ word letters k id) :
    a ∈ letters := by
  induction k generalizing id with
  | zero => cases mem
  | succ k ih =>
    cases List.mem_append.mp mem with
    | inl here => exact List.mem_of_getElem? (Option.mem_toList.mp here)
    | inr later => exact ih later

/-! ### Changes in a row -/

variable {ι β : Type}

/-- Makes the changes for the members of a list one after another.  The flag is set if one of them has
changed something. -/
def changeAll (change : ι → β → Option (β × Bool)) : List ι → β → Bool → Option (β × Bool)
  | [], b, flag => some (b, flag)
  | i :: rest, b, flag =>
    (change i b).bind fun made => changeAll change rest made.1 (flag || made.2)

theorem changeAll_related {R : β → β → Prop} (refl : ∀ b, R b b)
    (trans : ∀ {a b c}, R a b → R b c → R a c) {change : ι → β → Option (β × Bool)}
    (each : ∀ {i b made}, change i b = some made → R b made.1) {is : List ι} :
    ∀ {b : β} {flag : Bool} {made : β × Bool}, changeAll change is b flag = some made →
      R b made.1 := by
  induction is with
  | nil =>
    intro b flag made same
    cases same
    exact refl b
  | cons i rest ih =>
    intro b flag made same
    obtain ⟨first, here, later⟩ := Option.bind_eq_some_iff.mp same
    exact trans (each here) (ih later)

/-- Makes a change for each member of a list, with the letters of the word with the number `id`. -/
def chooseAll (letters : List α) (change : ι → α → β → Option (β × Bool)) :
    List ι → Nat → β → Bool → Option (β × Bool)
  | [], _, b, flag => some (b, flag)
  | i :: rest, id, b, flag =>
    letters[id % letters.length]?.bind fun letter => (change i letter b).bind fun made =>
      chooseAll letters change rest (id / letters.length) made.1 (flag || made.2)

theorem chooseAll_eq {letters : List α} (nonempty : letters ≠ [])
    (change : ι → α → β → Option (β × Bool)) (is : List ι) :
    ∀ (id : Nat) (b : β) (flag : Bool), chooseAll letters change is id b flag =
      changeAll (fun choice b => change choice.1 choice.2 b) (is.zip (word letters is.length id)) b
        flag := by
  induction is with
  | nil => exact fun _ _ _ => rfl
  | cons i rest ih =>
    intro id b flag
    have below := Nat.mod_lt id (List.length_pos_iff.mpr nonempty)
    rw [chooseAll, List.length_cons, word_succ (List.getElem?_eq_getElem below), List.zip_cons_cons,
      changeAll, List.getElem?_eq_getElem below, Option.bind_some]
    exact Option.bind_congr fun made _ => ih _ _ _

theorem chooseAll_flag (letters : List α) (change : ι → α → β → Option (β × Bool)) (is : List ι) :
    ∀ (id : Nat) (b : β) (flag : Bool), chooseAll letters change is id b flag =
      (chooseAll letters change is id b false).map fun made => (made.1, flag || made.2) := by
  induction is with
  | nil =>
    intro id b flag
    rw [chooseAll, chooseAll, Option.map_some, Bool.or_false]
  | cons i rest ih =>
    intro id b flag
    simp only [chooseAll, Option.map_bind, Function.comp_def]
    refine Option.bind_congr fun letter _ => Option.bind_congr fun made _ => ?_
    rw [ih, ih _ _ (false || made.2), Option.map_map]
    simp [Function.comp_def, Bool.or_assoc]

end Words
