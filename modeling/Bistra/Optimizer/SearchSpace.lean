import Bistra.Optimizer.Passes

/-! # The search space

What each pass of the search hands to the next one, and so the candidates that reach the evaluator.
-/

namespace Bistra

open SearchM
open Words

variable {F : Type}

/-! ## What the passes hand on -/

/-- A combination is handed on from the first one on that changes something. -/
def Tried (skips : Option Bool) (numTries : Nat)
    (attempt : Nat → Bool → Option (Attempt (Program F))) (q : Program F) : Prop :=
  skips = some false ∧ ∃ id < numTries, HandedOn attempt false (List.range id) id q

/-- The clone of the program, changed. -/
def ClonePassed (change : Program F → Option (Program F)) (p q : Program F) : Prop :=
  ∃ np, p.clone = some np ∧ change np = some q

/-- The clone of the program, if something has been changed, or the program itself. -/
def BothPassed (change : Program F → Option (Program F × Bool)) (p q : Program F) : Prop :=
  (∃ np, p.clone = some np ∧ change np = some (q, true)) ∨ q = p

def FilterPass.Variant (backend : Backend F) (p q : Program F) : Prop :=
  FilterPass.accepts backend p = true ∧ q = p

def WidnerPass.Variant (backend : Backend F) (p q : Program F) : Prop :=
  (∃ inner ∈ p.collectInnermostLoops, Tried (skips p (hierarchy p inner))
    (widths.length ^ (hierarchy p inner).length) (attempt backend p (hierarchy p inner)) q) ∨ q = p

def TilerPass.Variant (p q : Program F) : Prop :=
  q = p ∨ ∃ inner ∈ p.collectInnermostLoops, Tried (skips p (hierarchy p inner))
    (tileSize.length ^ (hierarchy p inner).length) (attempt p (hierarchy p inner)) q

def VectorizerPass.Variant (backend : Backend F) : Program F → Program F → Prop :=
  BothPassed (tryToVectorizeAllLoops · backend.getRegisterWidth)

def InterchangerPass.Variant : Program F → Program F → Prop :=
  BothPassed sinkLoopsForConsecutiveIndexAccess

section Rewriting

variable [Field F] [LinearOrder F]

def PromoterPass.Variant : Program F → Program F → Prop :=
  ClonePassed fun np => (simplify np).bind promote

def FusePass.Variant : Program F → Program F → Prop :=
  BothPassed fun np => (tryToFuseAllShallowLoops np).map fun made => (made.1, made.2.2)

def DistributePass.Variant : Program F → Program F → Prop :=
  ClonePassed fun np => (distributeLoops np).bind simplify

end Rewriting

section Offers

variable {backend : Backend F}

theorem tryAll_emits {skips : Option Bool} {numTries : Nat}
    {attempt : Nat → Bool → Option (Attempt (Program F))}
    (sticky : ∀ id flag, attempt id flag =
      (attempt id false).map fun made => { made with changed := flag || made.changed }) :
    Emits (fun nextPass => tryAll nextPass skips numTries attempt) fun _ outs =>
      ∀ q, q ∈ outs ↔ Tried skips numTries attempt q := by
  apply Emits.bindLift
  rintro (_ | _) known
  · apply Emits.bindCheck
    intro few
    refine (attempts_emits sticky _ false).weaken fun _ outs spec q => (spec q).trans ?_
    constructor
    · rintro ⟨before, id, after, split, handed⟩
      obtain ⟨below, rfl⟩ := before_of_range split
      exact ⟨known, id, below, handed⟩
    · rintro ⟨-, id, below, handed⟩
      obtain ⟨after, split⟩ := range_split below
      exact ⟨_, id, after, split, handed⟩
  · refine Emits.ret.weaken ?_
    rintro _ _ ⟨-, rfl⟩ q
    simp [Tried, known]

theorem passClone_offers (change : Program F → Option (Program F)) :
    Offers (fun nextPass => passClone nextPass change) (ClonePassed change) := by
  intro p
  apply Emits.bindCheck
  intro verified
  apply Emits.bindLift
  intro np cloned
  apply Emits.bindLift
  intro changed found
  refine (emit_emits changed).weaken fun _ outs spec q => (spec q).trans ?_
  constructor
  · rintro rfl
    exact ⟨np, cloned, found⟩
  · rintro ⟨np', cloned', found'⟩
    cases cloned.symm.trans cloned'
    exact Option.some.inj (found'.symm.trans found)

theorem passBoth_offers (change : Program F → Option (Program F × Bool)) :
    Offers (fun nextPass => passBoth nextPass change) (BothPassed change) := by
  intro p
  apply Emits.bindCheck
  intro verified
  apply Emits.bindLift
  intro np cloned
  apply Emits.bindLift
  intro made found
  refine ((offer_emits made.2 made.1).either (emit_emits p)).weaken fun _ outs spec q =>
    (spec q).trans (or_congr_left ?_)
  constructor
  · rintro ⟨changed, rfl⟩
    exact ⟨np, cloned, found.trans (by rw [← changed])⟩
  · rintro ⟨np', cloned', found'⟩
    cases cloned.symm.trans cloned'
    cases found.symm.trans found'
    exact ⟨rfl, rfl⟩

theorem FilterPass.offers : Offers (FilterPass.doIt backend) (FilterPass.Variant backend) :=
  fun p => offer_emits _ p

theorem WidnerPass.attempt_flag {p : Program F} {hierarchy : List LoopId} (id : Nat) (flag : Bool) :
    attempt backend p hierarchy id flag = (attempt backend p hierarchy id false).map
      fun made => { made with changed := flag || made.changed } := by
  simp only [attempt, Option.map_bind, Option.map_map, Function.comp_def]
  exact Option.bind_congr fun np _ => by
    rw [chooseAll_flag, Option.map_map]
    rfl

theorem WidnerPass.offers : Offers (WidnerPass.doIt backend) (WidnerPass.Variant backend) := by
  intro p
  apply Emits.bindCheck
  intro verified
  exact (emits_forM (fun _ => tryAll_emits attempt_flag) _).either (emit_emits p)

theorem TilerPass.attempt_flag {p : Program F} {hierarchy : List LoopId} (id : Nat) (flag : Bool) :
    attempt p hierarchy id flag = (attempt p hierarchy id false).map
      fun made => { made with changed := flag || made.changed } := by
  simp only [attempt, Option.map_bind, Option.map_map, Function.comp_def]
  exact Option.bind_congr fun np _ => by
    rw [chooseAll_flag, Option.map_map]
    rfl

theorem TilerPass.offers : Offers (TilerPass.doIt (F := F)) TilerPass.Variant := by
  intro p
  apply Emits.bindCheck
  intro verified
  exact (emit_emits p).either (emits_forM (fun _ => tryAll_emits attempt_flag) _)

end Offers

/-! ## The combinations -/

section Combinations

variable {backend : Backend F}

/-- Tiles the loops of a hierarchy of `p` in the clone `np`, each with its own size. -/
def tileEach (p : Program F) (hierarchy : List LoopId) (sizes : List UInt32) (np : Program F) :
    Option (Program F × Bool) :=
  changeAll (fun choice np => TilerPass.tileClone p hierarchy.length choice.1 choice.2 np)
    (hierarchy.zip sizes) np false

/-- Widens the loops of a hierarchy of `p` in the clone `np`, each with its own width. -/
def widenEach (p : Program F) (hierarchy : List LoopId) (ws : List UInt32) (np : Program F) :
    Option (Program F × Bool) :=
  changeAll (fun choice np => (widen np (p.cloneOf choice.1) choice.2).map fun made =>
    (made.1, made.2.isSome)) (hierarchy.zip ws) np false

theorem TilerPass.attempt_eq (p : Program F) (hierarchy : List LoopId) (id : Nat) :
    attempt p hierarchy id false = p.clone.bind fun np =>
      (tileEach p hierarchy (word tileSize hierarchy.length id) np).map fun made =>
        ⟨made.1, made.2, true⟩ := by
  have letters : tileSize ≠ [] := by decide
  simp only [attempt, tileEach, chooseAll_eq letters]

theorem WidnerPass.changeAll_widenClone (p : Program F) (choices : List (LoopId × UInt32)) :
    ∀ (np : Program F) (numRegs : Nat) (flag : Bool),
      changeAll (fun choice np => widenClone p choice.1 choice.2 np) choices (np, numRegs) flag =
        (changeAll (fun choice np => (widen np (p.cloneOf choice.1) choice.2).map fun made =>
          (made.1, made.2.isSome)) choices np flag).map fun made =>
            ((made.1, numRegs * ((choices.map (·.2)).map UInt32.toNat).prod), made.2) := by
  induction choices with
  | nil =>
    intro np numRegs flag
    rw [changeAll, changeAll, Option.map_some, List.map_nil, List.map_nil, List.prod_nil, Nat.mul_one]
  | cons choice rest ih =>
    intro np numRegs flag
    rw [changeAll, changeAll, widenClone, Option.bind_map, Option.bind_map, Option.map_bind]
    refine Option.bind_congr fun made _ => ?_
    rw [Function.comp_apply, ih]
    simp only [Function.comp_apply, List.map_cons, List.prod_cons, Nat.mul_assoc]

theorem WidnerPass.attempt_eq (p : Program F) (hierarchy : List LoopId) (id : Nat) :
    attempt backend p hierarchy id false = p.clone.bind fun np =>
      (widenEach p hierarchy (word widths hierarchy.length id) np).map fun made =>
        ⟨made.1, made.2, ((word widths hierarchy.length id).map UInt32.toNat).prod ≤
          backend.getNumRegisters.toNat⟩ := by
  have letters : widths ≠ [] := by decide
  have chosen : (hierarchy.zip (word widths hierarchy.length id)).map (·.2) =
      word widths hierarchy.length id :=
    List.map_snd_zip (length_word letters _ _).le
  simp only [attempt, widenEach, chooseAll_eq letters, changeAll_widenClone, chosen, Option.map_map,
    Function.comp_def, Nat.one_mul]

/-- The programs that the tiler hands on, for a program `p`: `p` itself, every combination of tile sizes
for the loops around an innermost loop with which a loop is hoisted, and nothing but combinations. -/
structure TilerPass.Tries (p : Program F) (outs : List (Program F)) : Prop where
  self : p ∈ outs
  every : ∀ inner ∈ p.collectInnermostLoops, skips p (hierarchy p inner) = some false →
    ∀ sizes : List UInt32, sizes.length = (hierarchy p inner).length →
      (∀ size ∈ sizes, size ∈ tileSize) → ∀ np q, p.clone = some np →
        tileEach p (hierarchy p inner) sizes np = some (q, true) → q ∈ outs
  only : ∀ q ∈ outs, q = p ∨ ∃ inner ∈ p.collectInnermostLoops, ∃ sizes np changed,
    skips p (hierarchy p inner) = some false ∧ sizes.length = (hierarchy p inner).length ∧
      (∀ size ∈ sizes, size ∈ tileSize) ∧ p.clone = some np ∧
        tileEach p (hierarchy p inner) sizes np = some (q, changed)

/-- The tiler tries all combinations of tile sizes. -/
theorem TilerPass.doIt_triesSizes {p : Program F} {nextPass : NextPass F} {s s' : EvaluatorPass F}
    (returned : (TilerPass.doIt nextPass p).run s = some ((), s')) :
    ∃ outs : List (Program F), TilerPass.Tries p outs ∧ (forM outs nextPass).run s = some ((), s') := by
  have letters : tileSize ≠ [] := by decide
  obtain ⟨outs, spec, run⟩ := TilerPass.offers p nextPass s () s' returned
  refine ⟨outs, ⟨(spec p).mpr (.inl rfl), ?_, fun q mem => ((spec q).mp mem).imp_right ?_⟩, run⟩
  · intro inner memI kept sizes length each np q cloned tiled
    obtain ⟨id, below, spelled⟩ := exists_word each
    rw [length] at below spelled
    rw [← spelled] at tiled
    have made : attempt p (hierarchy p inner) id false = some ⟨q, true, true⟩ := by
      rw [attempt_eq, cloned, Option.bind_some, tiled, Option.map_some]
    refine (spec q).mpr (.inr ⟨inner, memI, kept, id, below, ⟨_, made, rfl, rfl⟩, .inr ?_⟩)
    exact ⟨id, List.mem_append_right _ (List.mem_singleton_self id), _, made, rfl⟩
  · rintro ⟨inner, memI, kept, id, -, ⟨made, found, -, rfl⟩, -⟩
    rw [attempt_eq, Option.bind_eq_some_iff] at found
    obtain ⟨np, cloned, found⟩ := found
    obtain ⟨tiled, tiles, rfl⟩ := Option.map_eq_some_iff.mp found
    exact ⟨inner, memI, _, np, tiled.2, kept, length_word letters _ id, fun _ => mem_letters, cloned,
      tiles⟩

/-- The programs that the widener hands on, for a program `p`: every combination of widths for the loops
around an innermost loop with which a loop is widened, as far as there are enough registers, and `p`
itself; and nothing but combinations for which there are enough registers. -/
structure WidnerPass.Tries (backend : Backend F) (p : Program F) (outs : List (Program F)) : Prop where
  self : p ∈ outs
  every : ∀ inner ∈ p.collectInnermostLoops, skips p (hierarchy p inner) = some false →
    ∀ ws : List UInt32, ws.length = (hierarchy p inner).length → (∀ w ∈ ws, w ∈ widths) →
      (ws.map UInt32.toNat).prod ≤ backend.getNumRegisters.toNat → ∀ np q, p.clone = some np →
        widenEach p (hierarchy p inner) ws np = some (q, true) → q ∈ outs
  only : ∀ q ∈ outs, q = p ∨ ∃ inner ∈ p.collectInnermostLoops, ∃ ws np changed,
    skips p (hierarchy p inner) = some false ∧ ws.length = (hierarchy p inner).length ∧
      (∀ w ∈ ws, w ∈ widths) ∧ (ws.map UInt32.toNat).prod ≤ backend.getNumRegisters.toNat ∧
        p.clone = some np ∧ widenEach p (hierarchy p inner) ws np = some (q, changed)

/-- The widener tries all combinations of widths for which there are enough registers. -/
theorem WidnerPass.doIt_triesWidths {p : Program F} {nextPass : NextPass F} {s s' : EvaluatorPass F}
    (returned : (WidnerPass.doIt backend nextPass p).run s = some ((), s')) :
    ∃ outs : List (Program F), WidnerPass.Tries backend p outs ∧
      (forM outs nextPass).run s = some ((), s') := by
  have letters : widths ≠ [] := by decide
  obtain ⟨outs, spec, run⟩ := WidnerPass.offers p nextPass s () s' returned
  refine ⟨outs, ⟨(spec p).mpr (.inr rfl), ?_, fun q mem => ((spec q).mp mem).symm.imp_right ?_⟩, run⟩
  · intro inner memI kept ws length each fits np q cloned widened
    obtain ⟨id, below, spelled⟩ := exists_word each
    rw [length] at below spelled
    rw [← spelled] at widened fits
    have made : attempt backend p (hierarchy p inner) id false = some ⟨q, true, true⟩ := by
      rw [attempt_eq, cloned, Option.bind_some, widened, Option.map_some, decide_eq_true fits]
    refine (spec q).mpr (.inl ⟨inner, memI, kept, id, below, ⟨_, made, rfl, rfl⟩, .inr ?_⟩)
    exact ⟨id, List.mem_append_right _ (List.mem_singleton_self id), _, made, rfl⟩
  · rintro ⟨inner, memI, kept, id, -, ⟨made, found, fits, rfl⟩, -⟩
    rw [attempt_eq, Option.bind_eq_some_iff] at found
    obtain ⟨np, cloned, found⟩ := found
    obtain ⟨widened, widens, rfl⟩ := Option.map_eq_some_iff.mp found
    exact ⟨inner, memI, _, np, widened.2, kept, length_word letters _ id, fun _ => mem_letters,
      of_decide_eq_true fits, cloned, widens⟩

end Combinations

/-- A backend for which a program takes a second for each of its loops. -/
def loopCounter : Backend ℚ where
  getNumRegisters := 16
  getRegisterWidth := .four
  evaluateCode := fun _ p => p.collectLoops.length

/-- `for (i in 0 .. 128) for (j in 0 .. 128) S[i] += A[i,j]` -/
def rowTotals : Program ℚ where
  name := "row_totals"
  args := [⟨"S", ⟨[128], ["x"], .float32Ty, oneDim⟩⟩,
    ⟨"A", ⟨[128, 128], ["x", "y"], .float32Ty, twoDims⟩⟩]
  vars := []
  body := [.loop ⟨0, "i", 128, 1⟩ [.loop ⟨1, "j", 128, 1⟩
    [.store 0 [.indexOf 0] (.load 1 [.indexOf 0, .indexOf 1] (.scalar .float32Ty)) true]]]

theorem TilerPass.doIt_triesSizes_rowTotals : ∃ s' outs, TilerPass.Tries rowTotals outs ∧
    (forM outs fun _ => pure () : Search ℚ Unit).run {} = some ((), s') := by
  have returns : ((TilerPass.doIt (fun _ => pure ()) rowTotals).run {}).isSome = true := by
    decide +kernel
  obtain ⟨⟨⟨⟩, s'⟩, returned⟩ := Option.isSome_iff_exists.mp returns
  exact ⟨s', TilerPass.doIt_triesSizes returned⟩

theorem WidnerPass.doIt_triesWidths_rowTotals : ∃ s' outs, WidnerPass.Tries loopCounter rowTotals outs ∧
    (forM outs fun _ => pure () : Search ℚ Unit).run {} = some ((), s') := by
  have returns : ((WidnerPass.doIt loopCounter (fun _ => pure ()) rowTotals).run {}).isSome = true := by
    decide +kernel
  obtain ⟨⟨⟨⟩, s'⟩, returned⟩ := Option.isSome_iff_exists.mp returns
  exact ⟨s', WidnerPass.doIt_triesWidths returned⟩

/-! ## The candidates -/

section Candidates

variable [Field F] [LinearOrder F]

/-- The programs that reach the evaluator. -/
def Candidate (backend : Backend F) : Program F → Program F → Prop :=
  Relation.Comp DistributePass.Variant <|
  Relation.Comp InterchangerPass.Variant <|
  Relation.Comp TilerPass.Variant <|
  Relation.Comp FusePass.Variant <|
  Relation.Comp (VectorizerPass.Variant backend) <|
  Relation.Comp (WidnerPass.Variant backend) <|
  Relation.Comp PromoterPass.Variant (FilterPass.Variant backend)

theorem candidate_offers (backend : Backend F) :
    Offers (fun ps => DistributePass.doIt <| InterchangerPass.doIt <| TilerPass.doIt <|
      FusePass.doIt <| VectorizerPass.doIt backend <| WidnerPass.doIt backend <| PromoterPass.doIt <|
      FilterPass.doIt backend ps) (Candidate backend) :=
  (passClone_offers _).behind <| (passBoth_offers _).behind <| TilerPass.offers.behind <|
    (passBoth_offers _).behind <| (passBoth_offers _).behind <| WidnerPass.offers.behind <|
    (passClone_offers _).behind FilterPass.offers

end Candidates

end Bistra
