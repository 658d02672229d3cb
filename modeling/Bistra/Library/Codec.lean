import Mathlib.Data.List.Basic

/-! # Reading what was written

Readers of byte streams.  `Answers read bytes answer` says what a reader makes of a stream that
starts with `bytes`, whatever follows: it fails, or it consumes exactly these bytes and returns the
answer.  The rules build the answer of a composed reader from those of its parts.
-/

namespace Codec

variable {α β : Type}

/-- A reader takes bytes from the front of the stream; `none` is a failure. -/
abbrev Reader := StateT (List UInt8) Option

/-- The answer of a reader to a stream that starts with `bytes`. -/
def Answers (read : Reader α) (bytes : List UInt8) (answer : Option α) : Prop :=
  ∀ rest, read (bytes ++ rest) = answer.map (·, rest)

/-- A stream has one answer. -/
theorem Answers.unique {read : Reader α} {bytes : List UInt8} {answer answer' : Option α}
    (first : Answers read bytes answer) (second : Answers read bytes answer') :
    answer = answer' := by
  have same := (first []).symm.trans (second [])
  cases answer <;> cases answer' <;> simp_all

theorem Answers.pure (a : α) : Answers (Pure.pure a) [] (some a) := fun _ => rfl

theorem Answers.bind {read : Reader α} {next : α → Reader β} {bytes bytes' : List UInt8}
    {answer : Option α} {answer' : α → Option β} (first : Answers read bytes answer)
    (second : ∀ a, answer = some a → Answers (next a) bytes' (answer' a)) :
    Answers (read >>= next) (bytes ++ bytes') (answer.bind answer') := by
  intro rest
  show (read (bytes ++ bytes' ++ rest)).bind (fun r => next r.1 r.2) = _
  rw [List.append_assoc, first]
  cases answer with
  | none => rfl
  | some a => exact second a rfl rest

theorem Answers.bind_some {read : Reader α} {next : α → Reader β} {bytes bytes' : List UInt8}
    {a : α} {answer : Option β} (first : Answers read bytes (some a))
    (second : Answers (next a) bytes' answer) :
    Answers (read >>= next) (bytes ++ bytes') answer := by
  intro rest
  show (read (bytes ++ bytes' ++ rest)).bind (fun r => next r.1 r.2) = _
  rw [List.append_assoc, first]
  exact second rest

theorem Answers.bind_nil {read : Reader α} {next : α → Reader β} {bytes : List UInt8}
    {answer : Option α} {answer' : α → Option β} (first : Answers read bytes answer)
    (second : ∀ a, answer = some a → Answers (next a) [] (answer' a)) :
    Answers (read >>= next) bytes (answer.bind answer') := by
  rw [← List.append_nil bytes]
  exact first.bind second

theorem Answers.bind_some_nil {read : Reader α} {next : α → Reader β} {bytes : List UInt8} {a : α}
    {answer : Option β} (first : Answers read bytes (some a))
    (second : Answers (next a) [] answer) : Answers (read >>= next) bytes answer := by
  rw [← List.append_nil bytes]
  exact first.bind_some second

theorem Answers.bind_none {read : Reader α} {next : α → Reader β} {bytes : List UInt8}
    (bytes' : List UInt8) (fails : Answers read bytes none) :
    Answers (read >>= next) (bytes ++ bytes') none := by
  intro rest
  show (read (bytes ++ bytes' ++ rest)).bind (fun r => next r.1 r.2) = _
  rw [List.append_assoc, fails]
  rfl

/-- A computation that may fail and reads nothing. -/
def ofOption (answer : Option α) : Reader α := fun bytes => answer.map (·, bytes)

theorem Answers.ofOption (answer : Option α) : Answers (ofOption answer) [] answer := fun _ => rfl

theorem Answers.bind_ofOption {read : Reader α} {next : α → Option β} {bytes : List UInt8} {a : α}
    (first : Answers read bytes (some a)) :
    Answers (read >>= fun a => Codec.ofOption (next a)) bytes (next a) :=
  first.bind_nil fun a _ => Answers.ofOption (next a)

theorem Answers.ofOption_bind {known : Option α} {next : α → Reader β} {bytes : List UInt8} {a : α}
    {answer : Option β} (same : known = some a) (second : Answers (next a) bytes answer) :
    Answers (Codec.ofOption known >>= next) bytes answer := by
  subst same
  exact second

/-! ## Words -/

/-- One byte. -/
def readU8 : Reader UInt8
  | [] => none
  | byte :: rest => some (byte, rest)

/-- A word of four bytes, the most significant one first. -/
def readU32 : Reader UInt32 := do
  let res : UInt32 := 0
  let res := (res <<< 8) + (← readU8).toUInt32
  let res := (res <<< 8) + (← readU8).toUInt32
  let res := (res <<< 8) + (← readU8).toUInt32
  let res := (res <<< 8) + (← readU8).toUInt32
  return res

/-- The bytes of a word, the most significant one first. -/
def writeU32 (num : UInt32) : List UInt8 :=
  [(num >>> 24).toUInt8, (num >>> 16).toUInt8, (num >>> 8).toUInt8, (num >>> 0).toUInt8]

theorem answers_readU8 (byte : UInt8) : Answers readU8 [byte] (some byte) := fun _ => rfl

theorem join_bytes (num : UInt32) :
    (((((((0 : UInt32) <<< 8) + (num >>> 24).toUInt8.toUInt32) <<< 8) +
      (num >>> 16).toUInt8.toUInt32) <<< 8) + (num >>> 8).toUInt8.toUInt32) <<< 8 +
        (num >>> 0).toUInt8.toUInt32 = num := by
  have eight : UInt32.toNat 8 % 32 = 8 := rfl
  have sixteen : UInt32.toNat 16 % 32 = 16 := rfl
  have twentyFour : UInt32.toNat 24 % 32 = 24 := rfl
  apply UInt32.toNat_inj.mp
  simp only [UInt32.toNat_add, UInt32.toNat_shiftLeft, UInt8.toNat_toUInt32,
    UInt32.toNat_toUInt8, UInt32.toNat_shiftRight, Nat.shiftLeft_eq, Nat.shiftRight_eq_div_pow,
    eight, sixteen, twentyFour, UInt32.toNat_zero, Nat.zero_mod, Nat.pow_zero, Nat.div_one]
  have := num.toNat_lt
  omega

theorem answers_readU32 (num : UInt32) : Answers readU32 (writeU32 num) (some num) := by
  intro rest
  have read : readU32 (writeU32 num ++ rest) =
      some ((((((((0 : UInt32) <<< 8) + (num >>> 24).toUInt8.toUInt32) <<< 8) +
        (num >>> 16).toUInt8.toUInt32) <<< 8) + (num >>> 8).toUInt8.toUInt32) <<< 8 +
          (num >>> 0).toUInt8.toUInt32, rest) := rfl
  rw [read, join_bytes]
  rfl

/-! ## Repetition -/

/-- Runs a reader `n` times, passing a state along. -/
def iterate (step : α → Reader α) : Nat → α → Reader α
  | 0, state => pure state
  | n + 1, state => step state >>= iterate step n

/-- A stream of items is read one by one; the steps fold over the items. -/
theorem answers_iterate {ι : Type} {step : α → Reader α} {write : ι → List UInt8}
    {next : α → ι → Option α} :
    ∀ {items : List ι}, (∀ item ∈ items, ∀ state, Answers (step state) (write item)
      (next state item)) →
      ∀ state, Answers (iterate step items.length state) (items.flatMap write)
        (items.foldlM next state)
  | [], _, state => Answers.pure state
  | item :: items, each, state => by
    rw [List.forall_mem_cons] at each
    rw [List.flatMap_cons, List.foldlM_cons]
    exact (each.1 state).bind fun state' _ => answers_iterate each.2 state'

/-- Reading items whose steps succeed folds over them.  The steps may rely on an invariant of the
state. -/
theorem answers_fold {ι : Type} {step : α → Reader α} {write : ι → List UInt8} {next : α → ι → α}
    (inv : α → Prop) (keeps : ∀ state item, inv state → inv (next state item)) :
    ∀ {items : List ι}, (∀ item ∈ items, ∀ state, inv state →
      Answers (step state) (write item) (some (next state item))) →
      ∀ state, inv state → Answers (iterate step items.length state) (items.flatMap write)
        (some (items.foldl next state))
  | [], _, state, _ => Answers.pure state
  | item :: items, each, state, holds => by
    rw [List.forall_mem_cons] at each
    rw [List.flatMap_cons, List.foldl_cons]
    exact (each.1 state holds).bind_some
      (answers_fold inv keeps each.2 _ (keeps state item holds))

end Codec
