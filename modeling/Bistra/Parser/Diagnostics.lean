import Bistra.Parser.Lexer

/-! # Diagnostics

`getLineCol` and `diagnose` of `ParserContext`.  A `DebugLoc` is the number of characters of the
buffer before it; the terminating NUL is at the length of the buffer.
-/

namespace Bistra

/-! ## Lines and columns -/

/-- The counters of `getLineCol` when its loop has come to `p`. -/
def lineColAt (buffer : List Char) : Nat → UInt32 × UInt32
  | 0 => (0, 0)
  | p + 1 =>
    let (line, col) := lineColAt buffer p
    -- The pointer has moved already, so the first character of the buffer is never tested.
    if buffer[p + 1]? = some '\n' then (line + 1, 0) else (line, col + 1)

/-- `ParserContext::getLineCol`, or nothing if its assertion fails. -/
def getLineCol (buffer : List Char) : Option Nat → Option (UInt32 × UInt32)
  | none => some (0, 0)
  | some pos => if buffer.length > pos then some (lineColAt buffer pos) else none

/-- The newlines strictly before a position. -/
def newlinesBefore (buffer : List Char) (pos : Nat) : Nat := (buffer.take pos).count '\n'

/-- The distance of a position from the first character of its line. -/
def distanceInLine (buffer : List Char) (pos : Nat) : Nat :=
  ((buffer.take pos).reverse.takeWhile (· ≠ '\n')).length

section Positions

variable {buffer : List Char} {pos : Nat}

theorem newlinesBefore_succ (inside : pos < buffer.length) :
    newlinesBefore buffer (pos + 1) =
      newlinesBefore buffer pos + if buffer[pos]? = some '\n' then 1 else 0 := by
  rw [newlinesBefore, newlinesBefore, List.take_succ_eq_append_getElem inside, List.count_append,
    List.getElem?_eq_getElem inside, List.count_singleton]
  simp

theorem distanceInLine_succ (inside : pos < buffer.length) :
    distanceInLine buffer (pos + 1) =
      if buffer[pos]? = some '\n' then 0 else distanceInLine buffer pos + 1 := by
  rw [distanceInLine, distanceInLine, List.take_succ_eq_append_getElem inside,
    List.reverse_append, List.reverse_singleton, List.singleton_append,
    List.getElem?_eq_getElem inside]
  by_cases newline : buffer[pos] = '\n'
  · simp [newline]
  · simp [newline]

theorem newlinesBefore_mono {before : Nat} (le : before ≤ pos) :
    newlinesBefore buffer before ≤ newlinesBefore buffer pos :=
  (List.take_sublist_take_left le).count_le _

theorem distanceInLine_of_first (inside : pos ≤ buffer.length)
    (first : newlinesBefore buffer pos = 0) : distanceInLine buffer pos = pos := by
  have none : ∀ c ∈ (buffer.take pos).reverse, c ≠ '\n' := by
    rintro c mem rfl
    exact List.count_eq_zero.mp first (List.mem_reverse.mp mem)
  rw [distanceInLine, List.takeWhile_eq_self_iff.mpr (by simpa using none), List.length_reverse,
    List.length_take, Nat.min_eq_left inside]

/-- What the loop has counted: the newlines behind the first character up to the position itself,
and the distance from the last of them. -/
theorem lineColAt_eq (inside : pos < buffer.length) : lineColAt buffer pos =
    (UInt32.ofNat (newlinesBefore buffer (pos + 1) - newlinesBefore buffer 1),
      UInt32.ofNat (if newlinesBefore buffer (pos + 1) = newlinesBefore buffer 1 then pos
        else distanceInLine buffer (pos + 1))) := by
  induction pos with
  | zero => simp [lineColAt]
  | succ pos ih =>
    have mono : newlinesBefore buffer 1 ≤ newlinesBefore buffer (pos + 1) :=
      newlinesBefore_mono (by omega)
    rw [lineColAt, ih (by omega), newlinesBefore_succ inside, distanceInLine_succ inside]
    by_cases newline : buffer[pos + 1]? = some '\n'
    · have counted : newlinesBefore buffer (pos + 1) + 1 - newlinesBefore buffer 1 =
          newlinesBefore buffer (pos + 1) - newlinesBefore buffer 1 + 1 := by omega
      have other : newlinesBefore buffer (pos + 1) + 1 ≠ newlinesBefore buffer 1 := by omega
      simp [newline, counted, other, UInt32.ofNat_add]
    · by_cases first : newlinesBefore buffer (pos + 1) = newlinesBefore buffer 1
      · simp [newline, first, UInt32.ofNat_add]
      · simp [newline, first, UInt32.ofNat_add]

end Positions

/-- `getLineCol` tells the line of a position, and its distance in the line plus a constant. -/
def Locates (buffer : List Char) (c pos : Nat) : Prop :=
  (getLineCol buffer (some pos)).map (fun cur => (cur.1.toNat, cur.2.toNat)) =
    some (newlinesBefore buffer pos, distanceInLine buffer pos + c)

/-- `getLineCol` does so at every position of a buffer, with one constant. -/
def LocatesAll (buffer : List Char) : Prop :=
  ∃ c, ∀ pos ≤ buffer.length, Locates buffer c pos

/-- For which positions `getLineCol` is right, with which constant. -/
theorem locates_iff (buffer : List Char) (c pos : Nat) : Locates buffer c pos ↔
    pos < buffer.length ∧ newlinesBefore buffer pos < 2 ^ 32 ∧
      distanceInLine buffer pos + c < 2 ^ 32 ∧
      (pos = 0 ∧ c = 0 ∨
        buffer.head? ≠ some '\n' ∧ buffer[pos]? ≠ some '\n' ∧
          c = (if newlinesBefore buffer pos = 0 then 0 else 1) ∨
        -- Two errors cancel out on an empty line behind a leading newline.
        0 < pos ∧ buffer.head? = some '\n' ∧ buffer[pos]? = some '\n' ∧
          distanceInLine buffer pos = 0 ∧ c = 0) := by
  by_cases inside : pos < buffer.length
  · have first : newlinesBefore buffer 1 = if buffer.head? = some '\n' then 1 else 0 := by
      rw [newlinesBefore_succ (by omega), List.head?_eq_getElem?]
      simp [newlinesBefore]
    have behind := newlinesBefore_succ inside
    have distance := distanceInLine_succ inside
    have onFirst := distanceInLine_of_first inside.le
    have mono : 0 < pos → newlinesBefore buffer 1 ≤ newlinesBefore buffer pos :=
      fun later => newlinesBefore_mono later
    have counted : Locates buffer c pos ↔
        (newlinesBefore buffer (pos + 1) - newlinesBefore buffer 1) % 2 ^ 32 =
          newlinesBefore buffer pos ∧
        (if newlinesBefore buffer (pos + 1) = newlinesBefore buffer 1 then pos
          else distanceInLine buffer (pos + 1)) % 2 ^ 32 = distanceInLine buffer pos + c := by
      simp [Locates, getLineCol, inside, lineColAt_eq inside]
    rw [counted, behind, distance, first]
    by_cases start : pos = 0
    · -- The loop does not run.
      subst start
      simp [List.head?_eq_getElem?, inside, newlinesBefore, distanceInLine, eq_comm]
      omega
    · rw [first] at mono
      simp only [inside, true_and, start, false_and, false_or, ne_eq]
      generalize newlinesBefore buffer pos = lines at *
      generalize distanceInLine buffer pos = dist at *
      by_cases newline : buffer[pos]? = some '\n' <;>
      by_cases leading : buffer.head? = some '\n' <;>
      simp only [newline, leading, if_true, if_false, not_true, not_false_eq_true, false_and,
        true_and, or_false, false_or, and_false] at mono ⊢
      · have later : lines ≠ 0 := by omega
        simp [later]
        omega
      · have counted : (lines + 1 - 0) % 2 ^ 32 ≠ lines := by omega
        simp only [counted, false_and]
      · have skipped : (lines + 0 - 1) % 2 ^ 32 ≠ lines := by omega
        simp only [skipped, false_and]
      · by_cases onLine : lines = 0
        · have same := onFirst onLine
          simp [onLine]
          omega
        · simp [onLine]
          omega
  · have outside : ¬ Locates buffer c pos := by
      rw [Locates, getLineCol, if_neg (by omega)]
      exact nofun
    simp [outside, inside]

/-- On the first line the column is the distance, on the second line it is one more, and at the end
of the buffer the assertion fails. -/
theorem getLineCol_two_lines :
    getLineCol ['a', '\n', 'b'] (some 0) = some (0, 0) ∧
      getLineCol ['a', '\n', 'b'] (some 2) = some (1, 1) ∧
      getLineCol ['a', '\n', 'b'] (some 3) = none ∧ ¬ LocatesAll ['a', '\n', 'b'] := by
  refine ⟨rfl, rfl, rfl, ?_⟩
  rintro ⟨c, located⟩
  cases located 3 (by decide)

/-! ## Messages -/

inductive DiagnoseKind where
  | error | warning | note
  deriving DecidableEq, Repr

/-- What stands before the message. -/
def DiagnoseKind.label : DiagnoseKind → String
  | .error => " error: "
  | .warning => " warning: "
  | .note => " note: "

/-- The loop of `diagnose` that looks for the start of the line. -/
def lineStart (buffer : List Char) : Nat → Nat
  | 0 => 0
  | start + 1 => if buffer[start]? ≠ some '\n' then lineStart buffer start else start + 1

/-- `ParserContext::diagnose`: what it prints, or nothing if the assertion of `getLineCol` fails. -/
def ParserContext.diagnose (filename : String) (buffer : List Char) (kind : DiagnoseKind) (loc : Option Nat)
    (message : String) : Option String := do
  let cur ← getLineCol buffer loc
  let head := filename ++ ":" ++ toString cur.1 ++ ":" ++ toString cur.2 ++ ":" ++ kind.label ++
    message ++ "\n"
  match loc with
  | none => return head ++ "\n"
  | some pos =>
    let start := lineStart buffer pos
    let line := (buffer.take pos).drop start ++ (buffer.drop pos).takeWhile (· ≠ '\n')
    return head ++ String.ofList line ++ "\n" ++
      String.ofList (List.replicate (pos - start) ' ') ++ "^\n\n"

/-- The marker of `diagnose` stands under the position on every line: the blanks before it are the
distance that the column of `getLineCol` misses by one on the first line. -/
theorem lineStart_add_distanceInLine {buffer : List Char} {pos : Nat}
    (inside : pos ≤ buffer.length) : lineStart buffer pos + distanceInLine buffer pos = pos := by
  induction pos with
  | zero => rfl
  | succ pos ih =>
    rw [lineStart, distanceInLine_succ inside]
    by_cases newline : buffer[pos]? = some '\n'
    · simp [newline]
    · have earlier := ih (by omega)
      simp only [newline, ne_eq, not_false_eq_true, if_true, if_false]
      omega

end Bistra
