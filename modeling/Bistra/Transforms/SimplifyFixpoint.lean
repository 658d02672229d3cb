import Bistra.Transforms.SimplifyRounds

/-! # The fixpoint of simplification

The visitor leaves expressions that it does not change again: it edits operands without a flag, but
every such edit is complete after one pass.  So the round that changes nothing ends in a program
that `simplify` leaves as it is.
-/

namespace Bistra

variable {F : Type} [StdPow] [Field F] [LinearOrder F]

/-! ## Folded expressions -/

/-- `simplifyExpr` does nothing at a node with these operands. -/
structure BinOpKind.Stuck (kind : BinOpKind) (SL SR : Expr F) : Prop where
  placed : (!SR.isConst && SL.isConst && kind.isCommutative) = false
  simplify : kind.simplify SL SR = some (.binary kind SL SR, false)

/-- `simplifyExpr` does nothing in the expression. -/
def Expr.Folded : Expr F → Prop
  | .binary kind lhs rhs => kind.Stuck lhs rhs ∧ lhs.Folded ∧ rhs.Folded
  | _ => True

theorem Expr.Folded.simplifyExpr {e : Expr F} (folded : e.Folded) :
    e.simplifyExpr = some (e, false) := by
  induction e using Expr.inductTree with
  | binary kind lhs rhs ihL ihR =>
    obtain ⟨stuck, left, right⟩ := folded
    simp only [Expr.simplifyExpr, ihL left, ihR right, stuck.placed, Bool.false_eq_true, if_false,
      stuck.simplify]
  | index | const | constFP | constString | unary | broadcast | gep | load | loadLocal => rfl

theorem BinOpKind.folded_simplify {kind : BinOpKind} {SL SR N : Expr F} {changed : Bool}
    (placed : (!SR.isConst && SL.isConst && kind.isCommutative) = false)
    (left : SL.Folded) (right : SR.Folded)
    (simplified : kind.simplify SL SR = some (N, changed)) : N.Folded := by
  obtain ⟨val, rfl⟩ | ⟨val, rfl⟩ | rfl | rfl | ⟨rfl, rfl⟩ := BinOpKind.simplify_cases simplified
  · trivial
  · trivial
  · exact left
  · exact right
  · exact ⟨⟨placed, simplified⟩, left, right⟩

theorem Expr.folded_simplifyExpr {e N : Expr F} {changed : Bool}
    (simplified : e.simplifyExpr = some (N, changed)) : N.Folded := by
  induction e using Expr.inductTree generalizing N changed with
  | binary kind lhs rhs ihL ihR =>
    simp only [Expr.simplifyExpr] at simplified
    split at simplified
    next SL _ SR _ simplifiedL simplifiedR =>
      split at simplified
      next swap =>
        -- The constant that has been moved to the right stays there.
        simp only [Bool.and_eq_true, Bool.not_eq_true'] at swap
        exact BinOpKind.folded_simplify (by simp [swap.1.1]) (ihR simplifiedR) (ihL simplifiedL)
          simplified
      next placed =>
        rw [Bool.not_eq_true] at placed
        exact BinOpKind.folded_simplify placed (ihL simplifiedL) (ihR simplifiedR) simplified
    next => cases simplified
  | index | const | constFP | constString | unary | broadcast | gep | load | loadLocal =>
    cases simplified
    trivial

/-! ## Visited expressions -/

/-- The visitor `f` changes nothing in `e`. -/
abbrev Expr.FixedBy {α : Type} (f : α → Option (α × Bool)) (e : α) : Prop := f e = some (e, false)

/-- What `simplifyExpr` sees of a node below which it does not look. -/
def Expr.SameAtom (e N : Expr F) : Prop := N = e ∨ e.isConst = false ∧ N.isConst = false

omit [StdPow] in
theorem Expr.isZero_of_not_const {e : Expr F} (open_ : e.isConst = false) : e.isZero = false := by
  cases e with
  | const | constFP => cases open_
  | _ => rfl

omit [StdPow] in
theorem Expr.isOne_of_not_const {e : Expr F} (open_ : e.isConst = false) : e.isOne = false := by
  cases e with
  | const | constFP => cases open_
  | _ => rfl

omit [StdPow] [Field F] [LinearOrder F] in
theorem Expr.SameAtom.isConst {e N : Expr F} (same : e.SameAtom N) : N.isConst = e.isConst := by
  obtain rfl | ⟨before, after⟩ := same
  · rfl
  · rw [before, after]

omit [StdPow] in
theorem Expr.SameAtom.isZero {e N : Expr F} (same : e.SameAtom N) : N.isZero = e.isZero := by
  obtain rfl | ⟨before, after⟩ := same
  · rfl
  · rw [Expr.isZero_of_not_const before, Expr.isZero_of_not_const after]

omit [StdPow] in
theorem Expr.SameAtom.isOne {e N : Expr F} (same : e.SameAtom N) : N.isOne = e.isOne := by
  obtain rfl | ⟨before, after⟩ := same
  · rfl
  · rw [Expr.isOne_of_not_const before, Expr.isOne_of_not_const after]

theorem BinOpKind.simplify_eq_of_not_const {kind : BinOpKind} {SL SR : Expr F}
    (open_ : SL.isConst = false ∨ SR.isConst = false) :
    kind.simplify SL SR = match kind.identity SL SR with
      | some e => some (e, true)
      | none => some (.binary kind SL SR, false) := by
  rw [BinOpKind.simplify.eq_def]
  split
  · exact (open_.elim (fun left => by cases left) fun right => by cases right)
  · exact (open_.elim (fun left => by cases left) fun right => by cases right)
  · rfl

omit [StdPow] in
theorem BinOpKind.identity_congr {kind : BinOpKind} {SL SR L R : Expr F} (left : SL.SameAtom L)
    (right : SR.SameAtom R) (unchanged : kind.identity SL SR = none) : kind.identity L R = none := by
  cases kind with
  | mul | add | div =>
    simp only [BinOpKind.identity, left.isZero, left.isOne, right.isZero, right.isOne] at unchanged ⊢
    split_ifs at unchanged ⊢
    rfl
  | sub | max | min | pow => rfl

theorem BinOpKind.Stuck.congr {kind : BinOpKind} {SL SR L R : Expr F} (stuck : kind.Stuck SL SR)
    (left : SL.SameAtom L) (right : SR.SameAtom R) : kind.Stuck L R := by
  have placed : (!R.isConst && L.isConst && kind.isCommutative) = false := by
    rw [left.isConst, right.isConst]
    exact stuck.placed
  have simplify := stuck.simplify
  cases constants : SL.isConst && SR.isConst with
  | true =>
    -- Constants are not changed below.
    simp only [Bool.and_eq_true] at constants
    have same : L = SL ∧ R = SR := by
      obtain rfl | ⟨open_, -⟩ := left
      · obtain rfl | ⟨open_, -⟩ := right
        · exact ⟨rfl, rfl⟩
        · exact absurd constants.2 (by simp [open_])
      · exact absurd constants.1 (by simp [open_])
    rwa [same.1, same.2]
  | false =>
    rw [Bool.and_eq_false_iff] at constants
    rw [BinOpKind.simplify_eq_of_not_const constants] at simplify
    refine ⟨placed, ?_⟩
    rw [BinOpKind.simplify_eq_of_not_const (by rwa [left.isConst, right.isConst])]
    cases identity : kind.identity SL SR with
    | some e => simp [identity] at simplify
    | none => rw [BinOpKind.identity_congr left right identity]

omit [StdPow] [Field F] [LinearOrder F] in
theorem Expr.fixedList {f : Expr F → Option (Expr F × Bool)}
    {fs : List (Expr F) → Option (List (Expr F) × Bool)} (nil : fs [] = some ([], false))
    (cons : ∀ e es, fs (e :: es) = match f e, fs es with
      | some (e, changed), some (es, changedRest) => some (e :: es, changed || changedRest)
      | _, _ => none)
    {es : List (Expr F)}
    (each : ∀ e ∈ es, ∀ N changed, f e = some (N, changed) → Expr.FixedBy f N) :
    ∀ {Ns : List (Expr F)} {changed : Bool}, fs es = some (Ns, changed) → Expr.FixedBy fs Ns := by
  induction es with
  | nil =>
    intro Ns changed result
    rw [nil] at result
    cases result
    exact nil
  | cons e es ih =>
    intro Ns changed result
    rw [List.forall_mem_cons] at each
    rw [cons] at result
    split at result
    next N changedE Ns changedRest resultE resultEs =>
      cases result
      have first : f N = some (N, false) := each.1 N changedE resultE
      have rest : fs Ns = some (Ns, false) := ih each.2 resultEs
      rw [Expr.FixedBy, cons, first, rest]
      rfl
    next => cases result

theorem Expr.fixedBy_enterLoads_simplifyExpr {e N : Expr F} {changed : Bool}
    (visited : Expr.FixedBy Expr.enterLoads e) (simplified : e.simplifyExpr = some (N, changed)) :
    Expr.FixedBy Expr.enterLoads N := by
  -- In a binary expression the visitor changes nothing if it changes neither operand.
  have operands : ∀ {kind : BinOpKind} {lhs rhs : Expr F},
      Expr.FixedBy Expr.enterLoads (.binary kind lhs rhs) ↔
        Expr.FixedBy Expr.enterLoads lhs ∧ Expr.FixedBy Expr.enterLoads rhs := by
    intro kind lhs rhs
    simp only [Expr.FixedBy]
    rw [Expr.enterLoads]
    constructor
    · intro result
      split at result
      next lhs' changedL rhs' changedR left right =>
        simp only [Option.some.injEq, Prod.mk.injEq, Expr.binary.injEq, true_and,
          Bool.or_eq_false_iff] at result
        obtain ⟨⟨rfl, rfl⟩, rfl, rfl⟩ := result
        exact ⟨left, right⟩
      next => cases result
    · intro both
      rw [both.1, both.2]
      rfl
  exact Expr.simplifyExpr_keeps (fun _ => Expr.enterLoads.eq_def _) (fun _ => Expr.enterLoads.eq_def _)
    operands visited simplified

/-- What the visitor leaves of an expression: it changes nothing there again, and a folded
expression stays folded. -/
structure Expr.Settled (e N : Expr F) : Prop where
  fixed : Expr.FixedBy Expr.enterLoads N
  atom : e.SameAtom N
  folded : e.Folded → N.Folded

theorem Expr.process_fixed {e : Expr F}
    (enter : ∀ N : Expr F, N.size ≤ e.size → ∀ N' changed, N.enterLoads = some (N', changed) →
      N.Settled N') :
    ∀ N changed, e.process = some (N, changed) → Expr.FixedBy Expr.process N := by
  intro N' changed result
  rw [Expr.process] at result
  split at result
  · cases result
  next N changedE simplified =>
    obtain ⟨⟨N'', changedLoads⟩, entered, same⟩ := Option.map_eq_some_iff.mp result
    cases same
    have settled := enter N (Expr.size_simplifyExpr simplified).1 N' changedLoads entered
    have folded := settled.folded (Expr.folded_simplifyExpr simplified)
    rw [Expr.FixedBy, Expr.process]
    split
    next crash =>
      rw [folded.simplifyExpr] at crash
      cases crash
    next again =>
      rw [folded.simplifyExpr] at again
      cases again
      rw [settled.fixed]
      rfl

/-- One pass of the visitor is complete, by induction on the size. -/
theorem Expr.enterLoads_settled (e : Expr F) :
    ∀ N changed, e.enterLoads = some (N, changed) → e.Settled N := by
  induction size : e.size using Nat.strong_induction_on generalizing e with
  | _ n ih =>
    subst size
    -- The induction is on the size, as for the visitor.
    have smaller : ∀ e' : Expr F, e'.size < e.size → ∀ N changed,
        e'.enterLoads = some (N, changed) → e'.Settled N := fun e' less => ih e'.size less e' rfl
    intro N changed result
    cases e with
    | binary kind lhs rhs =>
      rw [Expr.enterLoads] at result
      split at result
      next lhs' changedL rhs' changedR resultL resultR =>
        cases result
        have left := smaller lhs (by simp only [Expr.size]; omega) _ _ resultL
        have right := smaller rhs (by simp only [Expr.size]; omega) _ _ resultR
        refine ⟨?_, .inr ⟨rfl, rfl⟩, fun folded => ?_⟩
        · rw [Expr.FixedBy, Expr.enterLoads, left.fixed, right.fixed]
          rfl
        · obtain ⟨stuck, foldedL, foldedR⟩ := folded
          exact ⟨stuck.congr left.atom right.atom, left.folded foldedL, right.folded foldedR⟩
      next => cases result
    | unary kind val | broadcast val vf =>
      rw [Expr.enterLoads] at result
      obtain ⟨⟨val', changed'⟩, entered, same⟩ := Option.map_eq_some_iff.mp result
      cases same
      have inner := smaller val (by simp only [Expr.size]; omega) _ _ entered
      refine ⟨?_, .inr ⟨rfl, rfl⟩, fun _ => trivial⟩
      rw [Expr.FixedBy, Expr.enterLoads, inner.fixed]
      rfl
    | gep arg indices =>
      rw [Expr.enterLoads] at result
      obtain ⟨⟨indices', changed'⟩, entered, same⟩ := Option.map_eq_some_iff.mp result
      cases same
      have inner : Expr.FixedBy Expr.enterLoadsList indices' := by
        apply Expr.fixedList (f := Expr.enterLoads) _ _ _ entered
        · rw [Expr.enterLoadsList]
        · exact Expr.enterLoadsList.eq_2
        · intro e mem N changed result
          have below := Expr.size_lt_sizeList mem
          exact (smaller e (by simp only [Expr.size]; omega) N changed result).fixed
      refine ⟨?_, .inr ⟨rfl, rfl⟩, fun _ => trivial⟩
      rw [Expr.FixedBy, Expr.enterLoads, inner]
      rfl
    | load arg indices type =>
      rw [Expr.enterLoads] at result
      obtain ⟨⟨indices', changed'⟩, entered, same⟩ := Option.map_eq_some_iff.mp result
      cases same
      have inner : Expr.FixedBy Expr.processList indices' := by
        apply Expr.fixedList (f := Expr.process) _ _ _ entered
        · rw [Expr.processList]
        · exact Expr.processList.eq_2
        · intro e mem
          have below := Expr.size_lt_sizeList mem
          apply Expr.process_fixed
          intro N le
          exact smaller N (by simp only [Expr.size]; omega)
      refine ⟨?_, .inr ⟨rfl, rfl⟩, fun _ => trivial⟩
      rw [Expr.FixedBy, Expr.enterLoads, inner]
      rfl
    | index | const | constFP | constString | loadLocal =>
      rw [Expr.enterLoads] at result <;> try simp
      cases result
      exact ⟨Expr.enterLoads.eq_def _, .inl rfl, id⟩

/-- What `process` leaves is left by it. -/
theorem Expr.fixedBy_process {e N : Expr F} {changed : Bool}
    (result : e.process = some (N, changed)) : Expr.FixedBy Expr.process N :=
  Expr.process_fixed (fun N _ => N.enterLoads_settled) N changed result

theorem Expr.fixedBy_processList {es Ns : List (Expr F)} {changed : Bool}
    (result : Expr.processList es = some (Ns, changed)) : Expr.FixedBy Expr.processList Ns := by
  apply Expr.fixedList (f := Expr.process) _ _ _ result
  · rw [Expr.processList]
  · exact Expr.processList.eq_2
  · exact fun e _ N changed => Expr.fixedBy_process

theorem Expr.fixedBy_enterLoadsList {es Ns : List (Expr F)} {changed : Bool}
    (result : Expr.enterLoadsList es = some (Ns, changed)) :
    Expr.FixedBy Expr.enterLoadsList Ns := by
  apply Expr.fixedList (f := Expr.enterLoads) _ _ _ result
  · rw [Expr.enterLoadsList]
  · exact Expr.enterLoadsList.eq_2
  · exact fun e _ N changed result => (e.enterLoads_settled N changed result).fixed

theorem Stmt.simplifyExprsBody_fixed_of {body : List (Stmt F)}
    (each : ∀ s ∈ body, ∀ {N : Stmt F} {changed : Bool}, s.simplifyExprs = some (N, changed) →
      N.simplifyExprs = some (N, false)) :
    ∀ {Ns : List (Stmt F)} {changed : Bool}, Stmt.simplifyExprsBody body = some (Ns, changed) →
      Stmt.simplifyExprsBody Ns = some (Ns, false) := by
  induction body with
  | nil =>
    intro Ns changed result
    cases result
    rfl
  | cons s rest ih =>
    intro Ns changed result
    rw [List.forall_mem_cons] at each
    obtain ⟨⟨N, changedS⟩, resultS, result⟩ := Option.bind_eq_some_iff.mp result
    obtain ⟨⟨Ns, changedRest⟩, resultRest, same⟩ := Option.map_eq_some_iff.mp result
    cases same
    simp only [Stmt.simplifyExprsBody, each.1 resultS, ih each.2 resultRest, Option.bind_some,
      Option.map_some, Bool.or_self]

theorem Stmt.simplifyExprs_fixed {s : Stmt F} : ∀ {N : Stmt F} {changed : Bool},
    s.simplifyExprs = some (N, changed) → N.simplifyExprs = some (N, false) := by
  induction s using Stmt.inductTree with
  | loop header body ih =>
    intro N changed result
    obtain ⟨⟨Ns, changedBody⟩, resultBody, same⟩ := Option.map_eq_some_iff.mp result
    cases same
    rw [Stmt.simplifyExprs, Stmt.simplifyExprsBody_fixed_of ih resultBody]
    rfl
  | ifRange val start end_ body ih =>
    intro N changed result
    obtain ⟨⟨val1, changed1⟩, result1, result⟩ := Option.bind_eq_some_iff.mp result
    obtain ⟨⟨val2, changed2⟩, result2, result⟩ := Option.bind_eq_some_iff.mp result
    obtain ⟨⟨Ns, changedBody⟩, resultBody, same⟩ := Option.map_eq_some_iff.mp result
    cases same
    have result2 : val1.simplifyExpr = some (val2, changed2) := result2
    -- The value is visited before it is processed, so what is visited has been processed before.
    have visited : val2.enterLoads = some (val2, false) :=
      Expr.fixedBy_enterLoads_simplifyExpr (val.enterLoads_settled val1 changed1 result1).fixed
        result2
    simp only [Stmt.simplifyExprs, visited, Option.bind_some,
      (Expr.folded_simplifyExpr result2).simplifyExpr,
      Stmt.simplifyExprsBody_fixed_of ih resultBody, Option.map_some, Bool.or_self]
  | call name params =>
    intro N changed result
    obtain ⟨⟨Ns, changedNs⟩, resultNs, same⟩ := Option.map_eq_some_iff.mp result
    cases same
    have fixed : Expr.enterLoadsList Ns = some (Ns, false) := Expr.fixedBy_enterLoadsList resultNs
    rw [Stmt.simplifyExprs, fixed]
    rfl
  | store arg indices value accumulate =>
    intro N changed result
    obtain ⟨⟨Ns, changedNs⟩, resultNs, result⟩ := Option.bind_eq_some_iff.mp result
    obtain ⟨⟨value', changedV⟩, resultV, same⟩ := Option.map_eq_some_iff.mp result
    cases same
    have fixed : Expr.processList Ns = some (Ns, false) := Expr.fixedBy_processList resultNs
    have fixedV : value'.process = some (value', false) := Expr.fixedBy_process resultV
    simp only [Stmt.simplifyExprs, fixed, fixedV, Option.bind_some, Option.map_some, Bool.or_self]
  | storeLocal var value accumulate =>
    intro N changed result
    obtain ⟨⟨value', changedV⟩, resultV, same⟩ := Option.map_eq_some_iff.mp result
    cases same
    have fixedV : value'.process = some (value', false) := Expr.fixedBy_process resultV
    rw [Stmt.simplifyExprs, fixedV]
    rfl

/-! ## The last round -/

omit [StdPow] [Field F] [LinearOrder F] in
/-- Scopes that stay what they are make bodies that stay what they are. -/
theorem Stmt.rebuildBody_self {onLoop : Loop → List (Stmt F) → List (Stmt F) → List (Stmt F)}
    {onIf : Expr F → Int32 → Int32 → List (Stmt F) → List (Stmt F)} {body : List (Stmt F)}
    (loops : ∀ loop ∈ Stmt.collectLoopsBody body,
      onLoop loop.1 loop.2 loop.2 = [.loop loop.1 loop.2])
    (guards : ∀ guard ∈ body.flatMap Stmt.collectIfs, ∀ inner,
      onIf guard.1 guard.2.1 guard.2.2 inner = [.ifRange guard.1 guard.2.1 guard.2.2 inner]) :
    Stmt.rebuildBody onLoop onIf body = body := by
  have bodies : ∀ body : List (Stmt F), (∀ s ∈ body, s.rebuild onLoop onIf = [s]) →
      body.flatMap (Stmt.rebuild onLoop onIf) = body := by
    intro body each
    rw [List.flatMap_congr each]
    exact List.flatMap_singleton' body
  -- Each scope is rebuilt to itself, from the inside to the outside.
  have each : ∀ s : Stmt F, (∀ loop ∈ s.collectLoops,
        onLoop loop.1 loop.2 loop.2 = [.loop loop.1 loop.2]) →
      (∀ guard ∈ s.collectIfs, ∀ inner,
        onIf guard.1 guard.2.1 guard.2.2 inner = [.ifRange guard.1 guard.2.1 guard.2.2 inner]) →
      s.rebuild onLoop onIf = [s] := by
    intro s
    induction s using Stmt.inductTree with
    | loop header body ih =>
      intro loops guards
      simp only [Stmt.collectLoops_loop, Stmt.collectIfs_loop, List.mem_cons,
        List.mem_flatMap] at loops guards
      have same : body.flatMap (Stmt.rebuild onLoop onIf) = body := bodies body fun s mem =>
        ih s mem (fun loop memLoop => loops loop (.inr ⟨s, mem, memLoop⟩))
          (fun guard memGuard => guards guard ⟨s, mem, memGuard⟩)
      rw [Stmt.rebuild, Stmt.rebuildBody_eq, same]
      exact loops (header, body) (.inl rfl)
    | ifRange val start end_ body ih =>
      intro loops guards
      simp only [Stmt.collectLoops_ifRange, Stmt.collectIfs_ifRange, List.mem_cons,
        List.mem_flatMap] at loops guards
      have same : body.flatMap (Stmt.rebuild onLoop onIf) = body := bodies body fun s mem =>
        ih s mem (fun loop memLoop => loops loop ⟨s, mem, memLoop⟩)
          (fun guard memGuard => guards guard (.inr ⟨s, mem, memGuard⟩))
      rw [Stmt.rebuild, Stmt.rebuildBody_eq, same]
      exact guards (val, start, end_) (.inl rfl) body
    | call | store | storeLocal =>
      intro _ _
      rfl
  rw [Stmt.rebuildBody_eq]
  exact bodies body fun s mem => each s
    (fun loop memLoop => loops loop (List.mem_flatMap.mpr ⟨s, mem, memLoop⟩))
    (fun guard memGuard => guards guard (List.mem_flatMap.mpr ⟨s, mem, memGuard⟩))

variable {p : Program F}

/-- A round that reports no change leaves a program that the next round does not change. -/
theorem Program.simplifyRound_fixed {q : Program F} (round : p.simplifyRound = some (q, false)) :
    q.simplifyRound = some (q, false) := by
  obtain ⟨folded, changed, result, known⟩ :=
    Program.simplifyRound_isSome.mp (Option.isSome_iff_exists.mpr ⟨_, round⟩)
  rw [Program.simplifyRound_eq result known] at round
  simp only [Option.some.injEq, Prod.mk.injEq, Bool.or_eq_false_iff, List.any_eq_false] at round
  obtain ⟨left, ⟨⟨-, filled⟩, undecided⟩, several⟩ := round
  -- The round has reported no change, so none of the three passes has found anything to do.
  have sameFilled : removeEmptyLoops folded = folded := by
    apply Stmt.rebuildBody_self
    · intro loop mem
      rw [if_neg (filled loop mem)]
    · exact fun guard _ inner => rfl
  rw [sameFilled] at undecided several left
  have sameGuards : simplifyIfs (Program.loopTable { p with body := folded }) folded = folded := by
    apply Stmt.rebuildBody_self
    · exact fun loop _ => rfl
    · intro guard mem inner
      have intersect := undecided guard mem
      simp only [ne_eq, decide_not, Bool.not_eq_true', decide_eq_false_iff_not, not_not] at intersect
      simp only [intersect]
  rw [sameGuards] at several left
  have sameTrips : removeTrip1Loops folded = folded := by
    apply Stmt.rebuildBody_self
    · intro loop mem
      rw [if_neg (by simpa using several loop mem)]
    · exact fun guard _ inner => rfl
  rw [sameTrips] at left
  subst left
  have again : Stmt.simplifyExprsBody folded = some (folded, false) :=
    Stmt.simplifyExprsBody_fixed_of (fun s _ => s.simplifyExprs_fixed) result
  have same : Program.simplifyRound { p with body := folded } = _ :=
    Program.simplifyRound_eq again known
  simp only [sameFilled, sameGuards, sameTrips, List.any_eq_false.mpr filled,
    List.any_eq_false.mpr undecided, List.any_eq_false.mpr several, Bool.or_self] at same
  exact same

/-- The bound of `simplify` is not met, and the last round reports no change. -/
theorem Program.simplifyRounds_last {n : Nat} : ∀ {p : Program F},
    (∀ q, p.Rounds q → q.simplifyRound.isSome = true) → Stmt.sizeBody p.body < n →
    ∃ p', p.simplifyRounds n = some p' ∧ p'.simplifyRound = some (p', false) := by
  induction n with
  | zero =>
    intro p _ small
    cases small
  | succ n ih =>
    intro p ends small
    obtain ⟨⟨q, changed⟩, round⟩ := Option.isSome_iff_exists.mp (ends p .start)
    cases changed with
    | false => exact ⟨q, by simp [Program.simplifyRounds, round], Program.simplifyRound_fixed round⟩
    | true =>
      have first : p.Rounds q := Program.Rounds.start.next round
      have smaller := Program.simplifyRound_shrinks round
      obtain ⟨p', rounds, last⟩ := ih (fun r reach => ends r (first.trans reach)) (by omega)
      exact ⟨p', by simpa [Program.simplifyRounds, round] using rounds, last⟩

theorem Program.Rounds.isSome_simplifyRound {q : Program F} (reach : p.Rounds q) :
    ∀ {n : Nat}, (p.simplifyRounds n).isSome = true → q.simplifyRound.isSome = true := by
  -- The rounds from `q` on are the last ones of those from `p`.
  have later : ∃ m, ∀ n, (p.simplifyRounds n).isSome = true →
      (q.simplifyRounds (n - m)).isSome = true := by
    induction reach with
    | start => exact ⟨0, fun n ends => ends⟩
    | next _ round ih =>
      obtain ⟨m, ends⟩ := ih
      refine ⟨m + 1, fun n some => ?_⟩
      have before := ends n some
      cases left : n - m with
      | zero =>
        rw [left] at before
        cases before
      | succ k =>
        rw [left] at before
        rw [show n - (m + 1) = k by omega]
        simpa [Program.simplifyRounds, round] using before
  obtain ⟨m, ends⟩ := later
  intro n some
  have rest := ends n some
  cases left : n - m with
  | zero =>
    rw [left] at rest
    cases rest
  | succ k =>
    rw [left] at rest
    cases round : q.simplifyRound with
    | some _ => rfl
    | none => simp [Program.simplifyRounds, round] at rest

end Bistra
