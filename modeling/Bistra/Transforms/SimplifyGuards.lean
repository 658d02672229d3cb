import Bistra.Analysis.RangeSound
import Bistra.Transforms.SimplifyFixpoint

/-! # The guards that simplification analyzes

The range analysis asserts that the last index of a loop is an `int`.  A round meets the assertion
for the indices in its guards, which belong to loops of the program in every round.
-/

namespace Bistra

variable {F : Type}

/-! ## The range analysis -/

def Expr.hasRange : Expr F → Bool
  | .const _ | .index _ _ => true
  | .binary kind lhs rhs => lhs.hasRange && rhs.hasRange && kind != .div && kind != .pow
  | _ => false

/-- The loops whose indices the range analysis may read. -/
def Expr.rangeIndices : Expr F → List LoopId
  | .index loop _ => [loop]
  | .binary _ lhs rhs => lhs.rangeIndices ++ rhs.rangeIndices
  | _ => []

/-- The last index of every loop whose index the range analysis reads is an `int`.  The right
operand is read when the left one has a range. -/
def Expr.LastIndicesFit (loops : LoopTable) : Expr F → Prop
  | .index loop _ =>
    ∀ header, loops loop = some header → (header.end_ - header.stride).toNat < 2 ^ 31
  | .binary _ lhs rhs =>
    lhs.LastIndicesFit loops ∧ (lhs.hasRange = true → rhs.LastIndicesFit loops)
  | _ => True

/-- The result of the analysis is a range or not, and a range is in order. -/
structure KnownRange (known : Bool) (result : Option IntRange) : Prop where
  isSome : result.isSome = known
  ordered : ∀ range ∈ result, range.1 ≤ range.2

theorem knownRange_of_checkedRange {range : IntRange} (le : range.1 ≤ range.2) :
    ∃ result, checkedRange range = some result ∧ KnownRange true result :=
  ⟨some range, if_pos le, rfl, fun _ same => Option.some.inj same ▸ le⟩

/-- On ranges that are in order no assertion about a binary expression fails. -/
theorem BinOpKind.intRange_known (kind : BinOpKind) {L R : IntRange} (orderedL : L.1 ≤ L.2)
    (orderedR : R.1 ≤ R.2) : ∃ result, kind.intRange L R = some result ∧
      KnownRange (kind != .div && kind != .pow) result := by
  have corners : ∀ f, (cornerRange f L R).1 ≤ (cornerRange f L R).2 := by
    intro f
    rw [Int32.le_iff_toInt_le]
    simp only [cornerRange, toInt_min, toInt_max]
    exact (min_le_left _ _).trans ((min_le_left _ _).trans
      ((le_max_left _ _).trans (le_max_left _ _)))
  have minima : Min.min L.1 R.1 ≤ Min.min L.2 R.2 := by
    rw [Int32.le_iff_toInt_le] at orderedL orderedR ⊢
    rw [toInt_min, toInt_min]
    exact min_le_min orderedL orderedR
  cases kind with
  | mul | add | sub => exact knownRange_of_checkedRange (corners _)
  | min | max => exact knownRange_of_checkedRange minima
  | div | pow => exact ⟨none, rfl, rfl, fun _ some => by cases some⟩

/-- The analysis of an expression whose last indices fit, and only of such a one, ends. -/
theorem computeKnownIntegerRange_spec {loops : LoopTable} {e : Expr F}
    (known : ∀ L ∈ e.rangeIndices, (loops L).isSome = true) :
    (e.LastIndicesFit loops → ∃ result, computeKnownIntegerRange loops none e = some result ∧
      KnownRange e.hasRange result) ∧
    (¬ e.LastIndicesFit loops → computeKnownIntegerRange loops none e = none) := by
  induction e using Expr.inductTree with
  | const val => exact ⟨fun _ => ⟨_, rfl, rfl, by simp⟩, fun not => absurd trivial not⟩
  | index loop type =>
    obtain ⟨header, found⟩ := Option.isSome_iff_exists.mp (known loop (by simp [Expr.rangeIndices]))
    have signed := toInt32_toInt (header.end_ - header.stride)
    have range := (header.end_ - header.stride).toNat_lt
    have asserted : (0 : Int32) ≤ (header.end_ - header.stride).toInt32 ↔
        (header.end_ - header.stride).toNat < 2 ^ 31 := by
      rw [Int32.le_iff_toInt_le, signed]
      show (0 : Int) ≤ _ ↔ _
      split <;> omega
    simp only [Expr.LastIndicesFit, found, Option.some.injEq, forall_eq', computeKnownIntegerRange,
      Option.any_none, Bool.false_eq_true, if_false, Option.bind_some]
    constructor
    · intro fits
      exact knownRange_of_checkedRange (asserted.mpr fits)
    · intro large
      exact if_neg fun le => large (asserted.mp le)
  | binary kind lhs rhs ihL ihR =>
    simp only [Expr.rangeIndices, List.mem_append] at known
    obtain ⟨endsL, failsL⟩ := ihL fun L mem => known L (.inl mem)
    obtain ⟨endsR, failsR⟩ := ihR fun L mem => known L (.inr mem)
    by_cases fitsL : lhs.LastIndicesFit loops
    · obtain ⟨resultL, foundL, knownL⟩ := endsL fitsL
      cases resultL with
      | none =>
        -- Without a range on the left the right operand is not analyzed.
        have unknown : lhs.hasRange = false := knownL.isSome.symm
        constructor
        · intro _
          refine ⟨none, by simp [computeKnownIntegerRange, foundL], ?_, fun _ some => by cases some⟩
          simp [Expr.hasRange, unknown]
        · intro large
          exact absurd ⟨fitsL, fun has => absurd has (by simp [unknown])⟩ large
      | some rangeL =>
        have hasL : lhs.hasRange = true := knownL.isSome.symm
        by_cases fitsR : rhs.LastIndicesFit loops
        · obtain ⟨resultR, foundR, knownR⟩ := endsR fitsR
          refine ⟨fun _ => ?_, fun large => absurd ⟨fitsL, fun _ => fitsR⟩ large⟩
          cases resultR with
          | none =>
            have unknown : rhs.hasRange = false := knownR.isSome.symm
            refine ⟨none, by simp [computeKnownIntegerRange, foundL, foundR], ?_,
              fun _ some => by cases some⟩
            simp [Expr.hasRange, unknown]
          | some rangeR =>
            have hasR : rhs.hasRange = true := knownR.isSome.symm
            simp only [computeKnownIntegerRange, foundL, foundR, Expr.hasRange, hasL, hasR,
              Bool.true_and]
            exact kind.intRange_known (knownL.ordered rangeL rfl) (knownR.ordered rangeR rfl)
        · refine ⟨fun fits => absurd (fits.2 hasL) fitsR, fun _ => ?_⟩
          simp [computeKnownIntegerRange, foundL, failsR fitsR]
    · refine ⟨fun fits => absurd fits.1 fitsL, fun _ => ?_⟩
      simp [computeKnownIntegerRange, failsL fitsL]
  | constFP | constString | unary | broadcast | gep | load | loadLocal =>
    exact ⟨fun _ => ⟨none, rfl, rfl, fun _ some => by cases some⟩, fun not => absurd trivial not⟩

theorem computeKnownIntegerRange_isSome {loops : LoopTable} {e : Expr F}
    (known : ∀ L ∈ e.rangeIndices, (loops L).isSome = true) :
    (computeKnownIntegerRange loops none e).isSome = true ↔ e.LastIndicesFit loops := by
  obtain ⟨ends, fails⟩ := computeKnownIntegerRange_spec known
  by_cases fits : e.LastIndicesFit loops
  · obtain ⟨result, found, -⟩ := ends fits
    simp [found, fits]
  · simp [fails fits, fits]

/-! ## The loops of the guards -/

mutual

/-- The indices that guards are analyzed for belong to loops around them. -/
def Stmt.GuardsScoped (scope : List LoopId) : Stmt F → Prop
  | .loop header body => Stmt.GuardsScopedBody (header.id :: scope) body
  | .ifRange val _ _ body =>
    (∀ L ∈ val.rangeIndices, L ∈ scope) ∧ Stmt.GuardsScopedBody scope body
  | _ => True

def Stmt.GuardsScopedBody (scope : List LoopId) : List (Stmt F) → Prop
  | [] => True
  | s :: rest => s.GuardsScoped scope ∧ Stmt.GuardsScopedBody scope rest

end

theorem Stmt.guardsScopedBody_iff {scope : List LoopId} {body : List (Stmt F)} :
    Stmt.GuardsScopedBody scope body ↔ ∀ s ∈ body, s.GuardsScoped scope := by
  induction body with
  | nil => simp [Stmt.GuardsScopedBody]
  | cons s rest ih => simp [Stmt.GuardsScopedBody, ih]

theorem Expr.rangeIndices_subset (e : Expr F) :
    ∀ L ∈ e.rangeIndices, ∃ index ∈ e.collectIndices, index.1 = L := by
  induction e using Expr.inductTree with
  | index loop type => simp [Expr.rangeIndices, Expr.collectIndices]
  | binary kind lhs rhs ihL ihR =>
    intro L mem
    rw [Expr.collectIndices]
    cases List.mem_append.mp mem with
    | inl left =>
      obtain ⟨index, found, same⟩ := ihL L left
      exact ⟨index, List.mem_append_left _ found, same⟩
    | inr right =>
      obtain ⟨index, found, same⟩ := ihR L right
      exact ⟨index, List.mem_append_right _ found, same⟩
  | const | constFP | constString | unary | broadcast | gep | load | loadLocal =>
    intro L mem
    cases mem

theorem Stmt.guardsScoped_of_verify {decls : Decls} {s : Stmt F} : ∀ {scope : List LoopId},
    s.verify decls scope = true → s.GuardsScoped scope := by
  induction s using Stmt.inductTree with
  | loop header body ih =>
    intro scope verified
    simp only [Stmt.verify, Bool.and_eq_true, Stmt.verifyBody_eq, List.all_eq_true] at verified
    exact Stmt.guardsScopedBody_iff.mpr fun s mem => ih s mem (verified.2 s mem)
  | ifRange val start end_ body ih =>
    intro scope verified
    simp only [Stmt.verify, Bool.and_eq_true, Stmt.verifyBody_eq, List.all_eq_true] at verified
    refine ⟨fun L mem => ?_, Stmt.guardsScopedBody_iff.mpr fun s mem => ih s mem (verified.2 s mem)⟩
    obtain ⟨index, found, rfl⟩ := val.rangeIndices_subset L mem
    exact (Expr.scoped_of_verify verified.1.2 index found).1
  | call | store | storeLocal => exact fun _ => trivial

theorem Stmt.GuardsScoped.mem {s : Stmt F} : ∀ {scope : List LoopId}, s.GuardsScoped scope →
    ∀ guard ∈ s.collectIfs, ∀ L ∈ guard.1.rangeIndices,
      L ∈ scope ∨ ∃ loop ∈ s.collectLoops, loop.1.id = L := by
  induction s using Stmt.inductTree with
  | loop header body ih =>
    intro scope inScope guard mem L memL
    rw [Stmt.collectIfs_loop] at mem
    obtain ⟨s, memS, memGuard⟩ := List.mem_flatMap.mp mem
    rw [Stmt.collectLoops_loop]
    obtain inner | ⟨loop, memLoop, same⟩ :=
      ih s memS (Stmt.guardsScopedBody_iff.mp inScope s memS) guard memGuard L memL
    -- The loop is this one, one around it, or one in the body.
    · cases List.mem_cons.mp inner with
      | inl here => exact .inr ⟨(header, body), List.mem_cons_self, here.symm⟩
      | inr outer => exact .inl outer
    · exact .inr ⟨loop, List.mem_cons_of_mem _ (List.mem_flatMap.mpr ⟨s, memS, memLoop⟩), same⟩
  | ifRange val start end_ body ih =>
    intro scope inScope guard mem L memL
    rw [Stmt.collectIfs_ifRange] at mem
    rw [Stmt.collectLoops_ifRange]
    cases List.mem_cons.mp mem with
    | inl here =>
      subst here
      exact .inl (inScope.1 L memL)
    | inr inner =>
      obtain ⟨s, memS, memGuard⟩ := List.mem_flatMap.mp inner
      obtain outer | ⟨loop, memLoop, same⟩ :=
        ih s memS (Stmt.guardsScopedBody_iff.mp inScope.2 s memS) guard memGuard L memL
      · exact .inl outer
      · exact .inr ⟨loop, List.mem_flatMap.mpr ⟨s, memS, memLoop⟩, same⟩
  | call | store | storeLocal =>
    intro scope _ guard mem
    simp [Stmt.collectIfs, Stmt.collectStmts] at mem

/-! ## The rounds keep the guards in their loops -/

/-- The loops around a body that scope its guards also scope those of the new body. -/
def Stmt.KeepsGuards (body new : List (Stmt F)) : Prop :=
  ∀ scope, Stmt.GuardsScopedBody scope body → Stmt.GuardsScopedBody scope new

theorem Stmt.KeepsGuards.append {body new rest newRest : List (Stmt F)}
    (first : Stmt.KeepsGuards body new) (second : Stmt.KeepsGuards rest newRest) :
    Stmt.KeepsGuards (body ++ rest) (new ++ newRest) := by
  intro scope
  simp only [Stmt.guardsScopedBody_iff, List.forall_mem_append]
  rw [← Stmt.guardsScopedBody_iff, ← Stmt.guardsScopedBody_iff, ← Stmt.guardsScopedBody_iff,
    ← Stmt.guardsScopedBody_iff]
  exact fun both => ⟨first scope both.1, second scope both.2⟩

theorem Stmt.KeepsGuards.loop {header : Loop} {body new : List (Stmt F)}
    (keeps : Stmt.KeepsGuards body new) : Stmt.KeepsGuards [.loop header body] [.loop header new] :=
  fun _ both => ⟨keeps _ both.1, trivial⟩

theorem Stmt.KeepsGuards.ifRange {val : Expr F} {start end_ : Int32} {body new : List (Stmt F)}
    (keeps : Stmt.KeepsGuards body new) :
    Stmt.KeepsGuards [.ifRange val start end_ body] [.ifRange val start end_ new] :=
  fun _ both => ⟨⟨both.1.1, keeps _ both.1.2⟩, trivial⟩

theorem removeEmptyLoops_keepsGuards (body : List (Stmt F)) :
    Stmt.KeepsGuards body (removeEmptyLoops body) := by
  apply Stmt.rebuildBody_induct Stmt.KeepsGuards
  · exact fun _ => id
  · exact fun _ _ _ _ => Stmt.KeepsGuards.append
  · exact fun _ _ _ => id
  · intro header old new keeps
    split
    · exact fun _ _ => trivial
    · exact keeps.loop
  · exact fun _ _ _ _ _ => Stmt.KeepsGuards.ifRange

theorem simplifyIfs_keepsGuards (loops : LoopTable) (body : List (Stmt F)) :
    Stmt.KeepsGuards body (simplifyIfs loops body) := by
  apply Stmt.rebuildBody_induct Stmt.KeepsGuards
  · exact fun _ => id
  · exact fun _ _ _ _ => Stmt.KeepsGuards.append
  · exact fun _ _ _ => id
  · exact fun _ _ _ => Stmt.KeepsGuards.loop
  · intro val start end_ old new keeps
    split
    · exact keeps.ifRange
    · exact fun _ _ => trivial
    · exact fun scope both => keeps scope both.1.2

theorem Expr.rangeIndices_replaceIndex {L : LoopId} {val : Int} (e : Expr F) :
    ∀ K ∈ (Expr.replaceIndex L (.const val) e).rangeIndices, K ∈ e.rangeIndices ∧ K ≠ L := by
  induction e using Expr.inductTree with
  | index loop type =>
    intro K mem
    rw [Expr.replaceIndex, Expr.mapIndex] at mem
    split at mem
    next => cases mem
    next apart =>
      rw [List.mem_singleton.mp mem]
      exact ⟨List.mem_cons_self, apart⟩
  | binary kind lhs rhs ihL ihR =>
    intro K mem
    cases List.mem_append.mp mem with
    | inl left => exact ⟨List.mem_append_left _ (ihL K left).1, (ihL K left).2⟩
    | inr right => exact ⟨List.mem_append_right _ (ihR K right).1, (ihR K right).2⟩
  | const | constFP | constString | unary | broadcast | gep | load | loadLocal =>
    intro K mem
    cases mem

theorem Stmt.GuardsScoped.replaceIndex {L : LoopId} {val : Int} {s : Stmt F} :
    ∀ {scope scope' : List LoopId}, (∀ K ∈ scope, K ≠ L → K ∈ scope') → s.GuardsScoped scope →
      (s.mapExprs (Expr.replaceIndex L (.const val))).GuardsScoped scope' := by
  induction s using Stmt.inductTree with
  | loop header body ih =>
    intro scope scope' moved inScope
    rw [Stmt.mapExprs, Stmt.mapExprsBody_eq, Stmt.GuardsScoped, Stmt.guardsScopedBody_iff]
    intro s' mem
    obtain ⟨s, memS, rfl⟩ := List.mem_map.mp mem
    apply ih s memS _ (Stmt.guardsScopedBody_iff.mp inScope s memS)
    intro K memK apart
    cases List.mem_cons.mp memK with
    | inl here => exact here ▸ List.mem_cons_self
    | inr outer => exact List.mem_cons_of_mem _ (moved K outer apart)
  | ifRange value start end_ body ih =>
    intro scope scope' moved inScope
    rw [Stmt.mapExprs, Stmt.mapExprsBody_eq, Stmt.GuardsScoped, Stmt.guardsScopedBody_iff]
    constructor
    · intro K mem
      obtain ⟨old, apart⟩ := value.rangeIndices_replaceIndex K mem
      exact moved K (inScope.1 K old) apart
    · intro s' mem
      obtain ⟨s, memS, rfl⟩ := List.mem_map.mp mem
      exact ih s memS moved (Stmt.guardsScopedBody_iff.mp inScope.2 s memS)
  | call | store | storeLocal => exact fun _ _ => trivial

theorem removeTrip1Loops_keepsGuards (body : List (Stmt F)) :
    Stmt.KeepsGuards body (removeTrip1Loops body) := by
  apply Stmt.rebuildBody_induct Stmt.KeepsGuards
  · exact fun _ => id
  · exact fun _ _ _ _ => Stmt.KeepsGuards.append
  · exact fun _ _ _ => id
  · intro header old new keeps
    split
    · intro scope both
      rw [Stmt.guardsScopedBody_iff, Stmt.replaceIndex]
      intro s' mem
      obtain ⟨s, memS, rfl⟩ := List.mem_map.mp mem
      apply Stmt.GuardsScoped.replaceIndex _ (Stmt.guardsScopedBody_iff.mp (keeps _ both.1) s memS)
      exact fun K memK apart => List.mem_of_ne_of_mem apart memK
    · exact keeps.loop
  · exact fun _ _ _ _ _ => Stmt.KeepsGuards.ifRange

section Rounds

variable [StdPow] [Field F] [LinearOrder F] {p : Program F}

theorem Expr.rangeIndices_enterLoads {e : Expr F} : ∀ {N : Expr F} {changed : Bool},
    e.enterLoads = some (N, changed) → N.rangeIndices = e.rangeIndices := by
  induction e using Expr.inductTree with
  | binary kind lhs rhs ihL ihR =>
    intro N changed result
    rw [Expr.enterLoads] at result
    split at result
    next lhs' _ rhs' _ resultL resultR =>
      cases result
      rw [Expr.rangeIndices, ihL resultL, ihR resultR, Expr.rangeIndices]
    next => cases result
  | unary kind val ih | broadcast val vf ih | gep arg indices ih | load arg indices type ih =>
    intro N changed result
    rw [Expr.enterLoads] at result
    obtain ⟨below, -, same⟩ := Option.map_eq_some_iff.mp result
    cases same
    rfl
  | index | const | constFP | constString | loadLocal =>
    intro N changed result
    rw [Expr.enterLoads] at result <;> try simp
    cases result
    rfl

theorem Expr.rangeIndices_simplifyExpr {e N : Expr F} {changed : Bool}
    (simplified : e.simplifyExpr = some (N, changed)) : N.rangeIndices ⊆ e.rangeIndices :=
  Expr.simplifyExpr_keeps (P := fun N => N.rangeIndices ⊆ e.rangeIndices)
    (fun _ => List.nil_subset _) (fun _ => List.nil_subset _)
    (by simp [Expr.rangeIndices]) (List.Subset.refl _) simplified

theorem Stmt.simplifyExprsBody_keepsGuards_of {body : List (Stmt F)}
    (each : ∀ s ∈ body, ∀ {N : Stmt F} {changed : Bool} {scope : List LoopId},
      s.simplifyExprs = some (N, changed) → s.GuardsScoped scope → N.GuardsScoped scope) :
    ∀ {Ns : List (Stmt F)} {changed : Bool}, Stmt.simplifyExprsBody body = some (Ns, changed) →
      Stmt.KeepsGuards body Ns := by
  induction body with
  | nil =>
    intro Ns changed result
    cases result
    exact fun _ => id
  | cons s rest ih =>
    intro Ns changed result scope both
    rw [List.forall_mem_cons] at each
    obtain ⟨⟨N, changedS⟩, resultS, result⟩ := Option.bind_eq_some_iff.mp result
    obtain ⟨⟨Ns, changedRest⟩, resultRest, same⟩ := Option.map_eq_some_iff.mp result
    cases same
    exact ⟨each.1 resultS both.1, ih each.2 resultRest scope both.2⟩

theorem Stmt.simplifyExprs_keepsGuards {s : Stmt F} : ∀ {N : Stmt F} {changed : Bool}
    {scope : List LoopId}, s.simplifyExprs = some (N, changed) → s.GuardsScoped scope →
      N.GuardsScoped scope := by
  induction s using Stmt.inductTree with
  | loop header body ih =>
    intro N changed scope result inScope
    obtain ⟨⟨Ns, changedBody⟩, resultBody, same⟩ := Option.map_eq_some_iff.mp result
    cases same
    exact Stmt.simplifyExprsBody_keepsGuards_of ih resultBody _ inScope
  | ifRange val start end_ body ih =>
    intro N changed scope result inScope
    obtain ⟨⟨val1, changed1⟩, result1, result⟩ := Option.bind_eq_some_iff.mp result
    obtain ⟨⟨val2, changed2⟩, result2, result⟩ := Option.bind_eq_some_iff.mp result
    obtain ⟨⟨Ns, changedBody⟩, resultBody, same⟩ := Option.map_eq_some_iff.mp result
    cases same
    refine ⟨fun L mem => inScope.1 L ?_,
      Stmt.simplifyExprsBody_keepsGuards_of ih resultBody _ inScope.2⟩
    rw [← Expr.rangeIndices_enterLoads result1]
    exact Expr.rangeIndices_simplifyExpr result2 mem
  | call name params =>
    intro N changed scope result _
    obtain ⟨_, -, same⟩ := Option.map_eq_some_iff.mp result
    cases same
    trivial
  | store arg indices value accumulate =>
    intro N changed scope result _
    obtain ⟨_, -, result⟩ := Option.bind_eq_some_iff.mp result
    obtain ⟨_, -, same⟩ := Option.map_eq_some_iff.mp result
    cases same
    trivial
  | storeLocal var value accumulate =>
    intro N changed scope result _
    obtain ⟨_, -, same⟩ := Option.map_eq_some_iff.mp result
    cases same
    trivial

theorem Program.simplifyRound_keepsGuards {q : Program F} {changed : Bool}
    (round : p.simplifyRound = some (q, changed)) : Stmt.KeepsGuards p.body q.body := by
  obtain ⟨folded, changed, result, known⟩ :=
    Program.simplifyRound_isSome.mp (Option.isSome_iff_exists.mpr ⟨_, round⟩)
  rw [Program.simplifyRound_eq result known] at round
  simp only [Option.some.injEq, Prod.mk.injEq] at round
  obtain ⟨rfl, -⟩ := round
  intro scope inScope
  apply removeTrip1Loops_keepsGuards
  apply simplifyIfs_keepsGuards
  apply removeEmptyLoops_keepsGuards
  exact Stmt.simplifyExprsBody_keepsGuards_of (fun s _ => s.simplifyExprs_keepsGuards) result scope
    inScope

theorem Program.Rounds.guardsScoped {q : Program F} (verified : p.verify = true)
    (reach : p.Rounds q) : Stmt.GuardsScopedBody [] q.body := by
  induction reach with
  | start =>
    exact Stmt.guardsScopedBody_iff.mpr fun s mem =>
      Stmt.guardsScoped_of_verify (Program.verify_body verified s mem)
  | next _ round ih => exact Program.simplifyRound_keepsGuards round [] ih

/-! ## Termination -/

/-- The assertions of the range analysis hold for the guards that the round analyzes. -/
def Program.GuardIndicesFit (p : Program F) : Prop :=
  ∀ folded changed, Stmt.simplifyExprsBody p.body = some (folded, changed) →
    ∀ guard ∈ (removeEmptyLoops folded).flatMap Stmt.collectIfs,
      guard.1.LastIndicesFit (Program.loopTable { p with body := removeEmptyLoops folded })

theorem Program.simplifyRound_isSome_iff (folds : Stmt.FoldsSafelyBody p.body)
    (guards : Stmt.GuardsScopedBody [] p.body) :
    p.simplifyRound.isSome = true ↔ p.GuardIndicesFit := by
  obtain ⟨⟨folded, changed⟩, result⟩ := Option.isSome_iff_exists.mp
    (Stmt.simplifyExprsBody_defined fun s mem => Stmt.simplifyExprs_defined (folds.mem mem))
  have filled : Stmt.GuardsScopedBody [] (removeEmptyLoops folded) :=
    removeEmptyLoops_keepsGuards folded [] (Stmt.simplifyExprsBody_keepsGuards_of
      (fun s _ => s.simplifyExprs_keepsGuards) result [] guards)
  have known : ∀ guard ∈ (removeEmptyLoops folded).flatMap Stmt.collectIfs,
      ∀ L ∈ guard.1.rangeIndices,
        (Program.loopTable { p with body := removeEmptyLoops folded } L).isSome = true := by
    intro guard mem L memL
    obtain ⟨s, memS, memGuard⟩ := List.mem_flatMap.mp mem
    obtain none | ⟨loop, memLoop, same⟩ :=
      Stmt.GuardsScoped.mem (Stmt.guardsScopedBody_iff.mp filled s memS) guard memGuard L memL
    · cases none
    · simp only [Program.loopTable, Option.isSome_map, Program.findLoop, List.find?_isSome,
        decide_eq_true_eq]
      exact ⟨loop, List.mem_flatMap.mpr ⟨s, memS, memLoop⟩, same⟩
  -- The analysis ends for the guards of the round if the last indices that it reads are of type
  -- `int`.
  have checked : p.guardsKnown folded = true ↔ p.GuardIndicesFit := by
    simp only [Program.guardsKnown, List.all_eq_true, Program.GuardIndicesFit, result,
      Option.some.injEq, Prod.mk.injEq, and_imp, forall_eq', forall_apply_eq_imp_iff]
    exact forall₂_congr fun guard mem => computeKnownIntegerRange_isSome (known guard mem)
  rw [Program.simplifyRound_isSome, ← checked]
  constructor
  · rintro ⟨folded', changed', result', known⟩
    cases result.symm.trans result'
    exact known
  · exact fun known => ⟨folded, changed, result, known⟩

/-- **The fixpoint of simplification.**  Where constants can be folded, `simplify` ends at a program
that it does not change exactly when in every round the guards are analyzed for loops whose last
index is an `int`. -/
theorem simplify_fixpoint_iff (verified : p.verify = true)
    (folds : ∀ q, p.Rounds q → Stmt.FoldsSafelyBody q.body) :
    (∃ p', simplify p = some p' ∧ simplify p' = some p') ↔
      ∀ q, p.Rounds q → q.GuardIndicesFit := by
  constructor
  · rintro ⟨p', ends, -⟩ q reach
    rw [← Program.simplifyRound_isSome_iff (folds q reach) (reach.guardsScoped verified)]
    exact reach.isSome_simplifyRound (Option.isSome_iff_exists.mpr ⟨p', ends⟩)
  · intro fits
    obtain ⟨p', ends, last⟩ := Program.simplifyRounds_last (fun q reach =>
      (Program.simplifyRound_isSome_iff (folds q reach) (reach.guardsScoped verified)).mpr
        (fits q reach)) (Nat.lt_succ_self (Stmt.sizeBody p.body))
    refine ⟨p', ends, ?_⟩
    simp [simplify, Program.simplifyRounds, last]

end Rounds

theorem simplify_fixpoint_checkedFill :
    ∃ p', simplify (checkedFill 10) = some p' ∧ simplify p' = some p' := by
  have verified : (checkedFill 10).verify = true := by decide
  have folds : ∀ q, (checkedFill 10).Rounds q → Stmt.FoldsSafelyBody q.body := by
    intro q reach
    cases rounds_checkedFill reach with
    | inl first => exact first ▸ folds_checkedFill _ 10
    | inr last => exact last ▸ folds_fill _
  refine (simplify_fixpoint_iff verified folds).mpr fun q reach => ?_
  refine (Program.simplifyRound_isSome_iff (folds q reach) (reach.guardsScoped verified)).mp ?_
  cases rounds_checkedFill reach with
  | inl first => rw [first, simplifyRound_checkedFill, Option.isSome_some]
  | inr last => rw [last, simplifyRound_fill, Option.isSome_some]

/-- `for (i in 0 .. 3000000000) if (i in 0 .. 5) A[0] = 1` -/
def checkedLongLoop : Program ℚ :=
  { fill with
    body := [.loop ⟨0, "i", 3000000000, 1⟩
      [.ifRange (.indexOf 0) 0 5 [.store 0 [.const 0] (.constFP 1) false]]] }

/-- The last index of the loop is not an `int`, and the analysis of the guard stops. -/
theorem simplify_stops_checkedLongLoop : checkedLongLoop.verify = true ∧
    (∀ q, checkedLongLoop.Rounds q → Stmt.FoldsSafelyBody q.body) ∧
    simplify checkedLongLoop = none := by
  have fold : Stmt.simplifyExprsBody checkedLongLoop.body =
      some (checkedLongLoop.body, false) := by
    simp [checkedLongLoop, Stmt.simplifyExprsBody, Stmt.simplifyExprs, Expr.indexOf,
      Expr.enterLoads, Expr.simplifyExpr, Expr.processList, Expr.process]
  have round : checkedLongLoop.simplifyRound = none := by
    rw [Program.simplifyRound, fold]
    rfl
  refine ⟨by decide, fun q reach => ?_, by simp [simplify, Program.simplifyRounds, round]⟩
  have start : q = checkedLongLoop := by
    induction reach with
    | start => rfl
    | next _ step ih =>
      rw [ih, round] at step
      cases step
  rw [start]
  simp [checkedLongLoop, Stmt.FoldsBody, Stmt.Folds, Expr.indexOf, Expr.LoadsFold, Expr.FoldsList,
    Expr.Folds, Expr.enterLoads]

end Bistra
