import Bistra.Library.Codec
import Bistra.Library.Procedure

/-! # Byte streams

`StreamWriter` and `StreamReader`.  A stream is a list of bytes, and a `float` is given by its bits.
-/

namespace Bistra

open Procedure

/-! ## The writer -/

inductive StreamValue where
  | byte (num : UInt8)
  | word (num : UInt32)
  | float (bits : UInt32)
  | str (s : List UInt8)
  deriving DecidableEq

/-- The type of a value. -/
inductive StreamType where
  | byte | word | float | str

def StreamValue.type : StreamValue → StreamType
  | .byte _ => .byte
  | .word _ => .word
  | .float _ => .float
  | .str _ => .str

namespace StreamWriter

/-- `write(uint8_t)`. -/
def writeU8 (stream : List UInt8) (num : UInt8) : List UInt8 := stream ++ [num]

/-- `write(uint32_t)`. -/
def writeU32 (stream : List UInt8) (num : UInt32) : List UInt8 :=
  let stream := writeU8 stream (num >>> 24).toUInt8
  let stream := writeU8 stream (num >>> 16).toUInt8
  let stream := writeU8 stream (num >>> 8).toUInt8
  writeU8 stream (num >>> 0).toUInt8

/-- `write(float)`. -/
def writeF32 (stream : List UInt8) (bits : UInt32) : List UInt8 := writeU32 stream bits

/-- `write(const std::string &)`; `none` is a failed assertion. -/
def writeStr (stream s : List UInt8) : Option (List UInt8) :=
  if s.length < 256 then
    some (s.foldl (fun stream c => stream ++ [c]) (writeU8 stream (UInt8.ofNat s.length)))
  else none

/-- The overloads of `write`. -/
def write (stream : List UInt8) : StreamValue → Option (List UInt8)
  | .byte num => some (writeU8 stream num)
  | .word num => some (writeU32 stream num)
  | .float bits => some (writeF32 stream bits)
  | .str s => writeStr stream s

end StreamWriter

/-! ## The reader -/

/-- What a reader does with memory: it takes the byte at a position of the stream, the element with
some number of a table, or the value of some id of a map. -/
inductive StreamAccess where
  | byte (size pos : Nat)
  | element (size id : Nat)
  | key (ids : List UInt32) (id : UInt32)

/-- The access is inside the stream, the table or the map. -/
def StreamAccess.inside : StreamAccess → Bool
  | .byte size pos => pos < size
  | .element size id => id < size
  | .key ids id => id ∈ ids

structure StreamReader where
  stream : List UInt8
  pos : Nat

/-- A function that reads a stream. -/
abbrev Load (α : Type) := Procedure StreamAccess.inside StreamReader α

namespace StreamReader

/-- `stream_[pos_++]`. -/
def next : Load UInt8 := do
  let SR ← getState
  check (.byte SR.stream.length SR.pos)
  let byte ← ofOption SR.stream[SR.pos]?
  modifyState fun SR => { SR with pos := SR.pos + 1 }
  return byte

def readU8 : Load UInt8 := do
  let SR ← getState
  assert (SR.stream.length > SR.pos)
  next

def readU32 : Load UInt32 := do
  let res : UInt32 := 0
  let res := (res <<< 8) + (← readU8).toUInt32
  let res := (res <<< 8) + (← readU8).toUInt32
  let res := (res <<< 8) + (← readU8).toUInt32
  let res := (res <<< 8) + (← readU8).toUInt32
  return res

def readF32 : Load UInt32 := readU32

/-- The loop of `readStr`, which takes `len` bytes without looking whether they are there. -/
def readChars : Nat → List UInt8 → Load (List UInt8)
  | 0, res => pure res
  | len + 1, res => do
    let c ← next
    readChars len (res ++ [c])

def readStr : Load (List UInt8) := do
  let len ← readU8
  readChars len.toNat []

def hasMore (SR : StreamReader) : Bool := SR.pos ≠ SR.stream.length

/-- The functions that read a value. -/
def read : StreamType → Load StreamValue
  | .byte => return .byte (← readU8)
  | .word => return .word (← readU32)
  | .float => return .float (← readF32)
  | .str => return .str (← readStr)

/-- Reads values of the given types in order. -/
def readAll : List StreamType → Load (List StreamValue)
  | [] => pure []
  | type :: types => do
    let value ← read type
    let values ← readAll types
    return value :: values

end StreamReader

/-! ## Round trip -/

def StreamValue.bytes : StreamValue → List UInt8
  | .byte num => [num]
  | .word num => Codec.writeU32 num
  | .float bits => Codec.writeU32 bits
  | .str s => UInt8.ofNat s.length :: s

/-- The assertion of `StreamWriter::write` on strings. -/
def StreamValue.Fits : StreamValue → Prop
  | .str s => s.length < 256
  | _ => True

theorem StreamWriter.write_eq (stream : List UInt8) {value : StreamValue} (fits : value.Fits) :
    StreamWriter.write stream value = some (stream ++ value.bytes) := by
  cases value with
  | byte num => rfl
  | word num | float num =>
    simp [write, writeF32, writeU32, writeU8, StreamValue.bytes, Codec.writeU32]
  | str s =>
    have append : ∀ (s stream : List UInt8),
        s.foldl (fun stream c => stream ++ [c]) stream = stream ++ s := by
      intro s
      induction s with
      | nil => simp
      | cons c s ih => intro stream; rw [List.foldl_cons, ih, List.append_assoc, List.singleton_append]
    have fits : s.length < 256 := fits
    rw [write, writeStr, if_pos fits, append, writeU8, List.append_assoc, List.singleton_append]
    rfl

theorem StreamWriter.writeAll_eq {values : List StreamValue} (fits : ∀ value ∈ values, value.Fits)
    (stream : List UInt8) :
    values.foldlM StreamWriter.write stream =
      some (stream ++ values.flatMap StreamValue.bytes) := by
  induction values generalizing stream with
  | nil => simp
  | cons value values ih =>
    obtain ⟨first, rest⟩ := List.forall_mem_cons.mp fits
    rw [List.foldlM_cons, write_eq stream first, Option.bind_eq_bind, Option.bind_some, ih rest,
      List.flatMap_cons, List.append_assoc]

/-- Wherever these bytes stand, the reader moves behind them and returns the value. -/
def Consumes {α : Type} (x : Load α) (bytes : List UInt8) (a : α) : Prop :=
  ∀ before rest, x.Returns ⟨before ++ (bytes ++ rest), before.length⟩ a
    ⟨before ++ (bytes ++ rest), before.length + bytes.length⟩

section Rules

variable {α β : Type} {a : α} {b : β}

theorem Consumes.pure (a : α) : Consumes (Pure.pure a) [] a :=
  fun _ _ => returns_pure.mpr ⟨rfl, rfl⟩

theorem Consumes.bind {x : Load α} {f : α → Load β} {bytes more : List UInt8}
    (first : Consumes x bytes a) (next : Consumes (f a) more b) :
    Consumes (x >>= f) (bytes ++ more) b := by
  intro before rest
  have early := first before (more ++ rest)
  have later := next (before ++ bytes) rest
  simp only [List.append_assoc, List.length_append, Nat.add_assoc] at early later ⊢
  exact returns_bind.mpr ⟨a, _, early, later⟩

theorem Consumes.map {x : Load α} {f : α → β} {bytes : List UInt8} (first : Consumes x bytes a) :
    Consumes (do return f (← x)) bytes (f a) := by
  rw [← List.append_nil bytes]
  exact first.bind (.pure (f a))

theorem consumes_next (byte : UInt8) : Consumes StreamReader.next [byte] byte := by
  intro before rest
  have inside : before.length < (before ++ ([byte] ++ rest)).length := by simp
  simp only [StreamReader.next, returns_bind, returns_getState, returns_check, returns_ofOption,
    returns_modifyState, returns_pure, StreamAccess.inside, decide_eq_true_eq]
  refine ⟨_, _, ⟨rfl, rfl⟩, (), _, ⟨inside, rfl⟩, byte, _, ⟨by simp, rfl⟩, (), _, rfl, rfl, rfl⟩

theorem consumes_readU8 (byte : UInt8) : Consumes StreamReader.readU8 [byte] byte := by
  intro before rest
  have inside : before.length < (before ++ ([byte] ++ rest)).length := by simp
  simp only [StreamReader.readU8, returns_bind, returns_getState, returns_assert,
    decide_eq_true_eq]
  exact ⟨_, _, ⟨rfl, rfl⟩, (), _, ⟨inside, rfl⟩, consumes_next byte before rest⟩

theorem consumes_readU32 (num : UInt32) :
    Consumes StreamReader.readU32 (Codec.writeU32 num) num := by
  have joined : Consumes StreamReader.readU32 (Codec.writeU32 num) _ :=
    (consumes_readU8 _).bind ((consumes_readU8 _).bind ((consumes_readU8 _).bind
      (consumes_readU8 _).map))
  rwa [Codec.join_bytes] at joined

theorem consumes_readChars (s res : List UInt8) :
    Consumes (StreamReader.readChars s.length res) s (res ++ s) := by
  induction s generalizing res with
  | nil => rw [List.append_nil]; exact .pure res
  | cons c s ih =>
    have later := (consumes_next c).bind
      (f := fun c => StreamReader.readChars s.length (res ++ [c])) (ih (res ++ [c]))
    rwa [List.append_assoc, List.singleton_append] at later

theorem consumes_readStr {s : List UInt8} (short : s.length < 256) :
    Consumes StreamReader.readStr (UInt8.ofNat s.length :: s) s := by
  refine (consumes_readU8 (UInt8.ofNat s.length)).bind ?_
  rw [UInt8.toNat_ofNat_of_lt' short]
  exact consumes_readChars s []

theorem consumes_read {value : StreamValue} (fits : value.Fits) :
    Consumes (StreamReader.read value.type) value.bytes value := by
  cases value with
  | byte num => exact (consumes_readU8 num).map
  | word num => exact (consumes_readU32 num).map
  | float bits => exact (consumes_readU32 bits).map
  | str s => exact (consumes_readStr fits).map

theorem consumes_readAll {values : List StreamValue} (fits : ∀ value ∈ values, value.Fits) :
    Consumes (StreamReader.readAll (values.map StreamValue.type))
      (values.flatMap StreamValue.bytes) values := by
  induction values with
  | nil => exact .pure []
  | cons value values ih =>
    obtain ⟨first, rest⟩ := List.forall_mem_cons.mp fits
    exact (consumes_read first).bind (ih rest).map

end Rules

/-- What has been written is read back, whatever follows, and the reader has more to read exactly if
something follows. -/
theorem readAll_written {values : List StreamValue} (fits : ∀ value ∈ values, value.Fits)
    (rest : List UInt8) :
    ∃ stream, values.foldlM StreamWriter.write [] = some stream ∧
      (StreamReader.readAll (values.map StreamValue.type)).Returns ⟨stream ++ rest, 0⟩ values
        ⟨stream ++ rest, stream.length⟩ ∧
      (StreamReader.hasMore ⟨stream ++ rest, stream.length⟩ = false ↔ rest = []) := by
  refine ⟨_, StreamWriter.writeAll_eq fits [], ?_, ?_⟩
  · simpa using consumes_readAll fits [] rest
  · simp [StreamReader.hasMore]

/-- The stream of the words, strings and bytes that a test writes. -/
theorem readAll_written_words : ∃ stream,
    [.word 0x11223344, .str [104, 105], .byte 17, .str []].foldlM StreamWriter.write [] =
        some stream ∧
      (StreamReader.readAll [.word, .str, .byte, .str]).Returns ⟨stream ++ [9], 0⟩
        [.word 0x11223344, .str [104, 105], .byte 17, .str []] ⟨stream ++ [9], stream.length⟩ ∧
      (StreamReader.hasMore ⟨stream ++ [9], stream.length⟩ = false ↔ [(9 : UInt8)] = []) :=
  readAll_written (by simp [StreamValue.Fits]) [9]

end Bistra
