import Mathlib.Algebra.Order.Field.Rat
import Bistra.Transforms.SimplifyDefined
import Bistra.Transforms.SimplifySound

/-! # The rounds of simplification

A round that changes something removes a node, so the rounds end.  When every round meets
`RoundSafe`, the program does at the end what it did at the start.
-/

namespace Bistra

variable {F : Type}

/-! ## Every change removes a node -/

theorem Stmt.sizeBody_append (body rest : List (Stmt F)) :
    Stmt.sizeBody (body ++ rest) = Stmt.sizeBody body + Stmt.sizeBody rest := by
  induction body with
  | nil => simp [Stmt.sizeBody]
  | cons s body ih => simp [Stmt.sizeBody, ih, Nat.add_assoc]

theorem Stmt.sizeBody_singleton (s : Stmt F) : Stmt.sizeBody [s] = s.size := by
  simp [Stmt.sizeBody]

/-- The rebuilt body is not larger, and it is smaller if it was hit. -/
def Stmt.Shrinks (hit : List (Stmt F) → Prop) (body new : List (Stmt F)) : Prop :=
  Stmt.sizeBody new ≤ Stmt.sizeBody body ∧ (hit body → Stmt.sizeBody new < Stmt.sizeBody body)

theorem Stmt.Shrinks.append {hit : List (Stmt F) → Prop} {body new rest newRest : List (Stmt F)}
    (splits : hit (body ++ rest) → hit body ∨ hit rest) (first : Stmt.Shrinks hit body new)
    (second : Stmt.Shrinks hit rest newRest) : Stmt.Shrinks hit (body ++ rest) (new ++ newRest) := by
  obtain ⟨le, less⟩ := first
  obtain ⟨leRest, lessRest⟩ := second
  simp only [Stmt.Shrinks, Stmt.sizeBody_append]
  refine ⟨by omega, fun both => ?_⟩
  cases splits both with
  | inl left => have := less left; omega
  | inr right => have := lessRest right; omega

theorem Stmt.Shrinks.scope {hit : List (Stmt F) → Prop} {body new : List (Stmt F)} {s t : Stmt F}
    (hits : hit [s] → hit body) (shrinks : Stmt.Shrinks hit body new)
    (same : t.size + Stmt.sizeBody body = s.size + Stmt.sizeBody new) :
    Stmt.Shrinks hit [s] [t] := by
  obtain ⟨le, less⟩ := shrinks
  simp only [Stmt.Shrinks, Stmt.sizeBody_singleton]
  exact ⟨by omega, fun this => by have := less (hits this); omega⟩

theorem Stmt.Shrinks.unwrap {hit : List (Stmt F) → Prop} {body new : List (Stmt F)} {s : Stmt F}
    (le : Stmt.sizeBody new ≤ Stmt.sizeBody body) (inside : Stmt.sizeBody body < s.size) :
    Stmt.Shrinks hit [s] new := by
  simp only [Stmt.Shrinks, Stmt.sizeBody_singleton]
  exact ⟨by omega, fun _ => by omega⟩

section Fold

variable [StdPow] [Field F] [LinearOrder F]

theorem Expr.size_process {e : Expr F} {N : Expr F} {changed : Bool}
    (result : e.process = some (N, changed)) :
    N.size ≤ e.size ∧ (changed = true → N.size < e.size) :=
  (Expr.process_soundAt (fun N _ => Expr.enterLoads_soundAt N) N changed result).1

theorem Stmt.size_simplifyExprsBody_of {body : List (Stmt F)}
    (each : ∀ s ∈ body, ∀ {N : Stmt F} {changed : Bool}, s.simplifyExprs = some (N, changed) →
      N.size ≤ s.size ∧ (changed = true → N.size < s.size)) :
    ∀ {Ns : List (Stmt F)} {changed : Bool}, Stmt.simplifyExprsBody body = some (Ns, changed) →
      Stmt.sizeBody Ns ≤ Stmt.sizeBody body ∧
        (changed = true → Stmt.sizeBody Ns < Stmt.sizeBody body) := by
  induction body with
  | nil =>
    intro Ns changed result
    cases result
    simp
  | cons s rest ih =>
    intro Ns changed result
    rw [List.forall_mem_cons] at each
    obtain ⟨⟨N, changedS⟩, resultS, result⟩ := Option.bind_eq_some_iff.mp result
    obtain ⟨⟨Ns, changedRest⟩, resultRest, same⟩ := Option.map_eq_some_iff.mp result
    cases same
    obtain ⟨leN, lessN⟩ := each.1 resultS
    obtain ⟨leNs, lessNs⟩ := ih each.2 resultRest
    simp only [Stmt.sizeBody, Bool.or_eq_true]
    refine ⟨by omega, fun some => ?_⟩
    cases some with
    | inl first => have := lessN first; omega
    | inr later => have := lessNs later; omega

theorem Stmt.size_simplifyExprs {s : Stmt F} : ∀ {N : Stmt F} {changed : Bool},
    s.simplifyExprs = some (N, changed) →
      N.size ≤ s.size ∧ (changed = true → N.size < s.size) := by
  induction s using Stmt.inductTree with
  | loop header body ih =>
    intro N changed result
    obtain ⟨⟨Ns, changedBody⟩, resultBody, same⟩ := Option.map_eq_some_iff.mp result
    cases same
    obtain ⟨le, less⟩ := Stmt.size_simplifyExprsBody_of ih resultBody
    simp only [Stmt.size]
    exact ⟨by omega, fun some => by have := less some; omega⟩
  | ifRange val start end_ body ih =>
    intro N changed result
    obtain ⟨⟨val1, changed1⟩, result1, result⟩ := Option.bind_eq_some_iff.mp result
    obtain ⟨⟨val2, changed2⟩, result2, result⟩ := Option.bind_eq_some_iff.mp result
    obtain ⟨⟨Ns, changedBody⟩, resultBody, same⟩ := Option.map_eq_some_iff.mp result
    cases same
    obtain ⟨leBody, lessBody⟩ := Stmt.size_simplifyExprsBody_of ih resultBody
    obtain ⟨⟨le1, less1⟩, -⟩ := Expr.enterLoads_soundAt val val1 changed1 result1
    obtain ⟨le2, less2⟩ : val2.size ≤ val1.size ∧ (changed2 = true → val2.size < val1.size) :=
      Expr.size_simplifyExpr result2
    simp only [Stmt.size, Bool.or_eq_true]
    refine ⟨by omega, fun some => ?_⟩
    -- The value of the guard shrinks when it is visited or simplified, or the body does.
    rcases some with (first | second) | third
    · have := less1 first; omega
    · have := less2 second; omega
    · have := lessBody third; omega
  | call name params =>
    intro N changed result
    obtain ⟨⟨Ns, changedNs⟩, resultNs, same⟩ := Option.map_eq_some_iff.mp result
    cases same
    obtain ⟨⟨le, less⟩, -⟩ :=
      Expr.enterLoadsList_soundAt (fun e _ => Expr.enterLoads_soundAt e) Ns _ resultNs
    simp only [Stmt.size]
    exact ⟨by omega, fun some => by have := less some; omega⟩
  | store arg indices value accumulate =>
    intro N changed result
    obtain ⟨⟨Ns, changedNs⟩, resultNs, result⟩ := Option.bind_eq_some_iff.mp result
    obtain ⟨⟨value', changedV⟩, resultV, same⟩ := Option.map_eq_some_iff.mp result
    cases same
    have process := fun e : Expr F => Expr.process_soundAt fun N (_ : N.size ≤ e.size) =>
      Expr.enterLoads_soundAt N
    obtain ⟨⟨le, less⟩, -⟩ := Expr.processList_soundAt (fun e _ => process e) Ns changedNs resultNs
    obtain ⟨leV, lessV⟩ := Expr.size_process resultV
    simp only [Stmt.size, Bool.or_eq_true]
    refine ⟨by omega, fun some => ?_⟩
    cases some with
    | inl first => have := less first; omega
    | inr second => have := lessV second; omega
  | storeLocal var value accumulate =>
    intro N changed result
    obtain ⟨⟨value', changedV⟩, resultV, same⟩ := Option.map_eq_some_iff.mp result
    cases same
    obtain ⟨le, less⟩ := Expr.size_process resultV
    simp only [Stmt.size]
    exact ⟨by omega, fun some => by have := less some; omega⟩

end Fold

theorem Expr.size_mapIndex {f : LoopId → ExprType → Expr F} (one : ∀ L type, (f L type).size = 1)
    (e : Expr F) : (e.mapIndex f).size = e.size := by
  have lists : ∀ es : List (Expr F), (∀ e ∈ es, (e.mapIndex f).size = e.size) →
      Expr.sizeList (es.map (Expr.mapIndex f)) = Expr.sizeList es := by
    intro es each
    induction es with
    | nil => rfl
    | cons e es ih =>
      simp only [List.mem_cons, forall_eq_or_imp] at each
      simp only [List.map_cons, Expr.sizeList, each.1, ih each.2]
  induction e using Expr.inductTree with
  | index loop type => exact one loop type
  | const | constFP | constString | loadLocal => rfl
  | binary kind lhs rhs ihL ihR => simp only [Expr.mapIndex, Expr.size, ihL, ihR]
  | unary kind val ih | broadcast val vf ih => simp only [Expr.mapIndex, Expr.size, ih]
  | gep arg indices ih | load arg indices type ih =>
    simp only [Expr.mapIndex, Expr.mapIndexList_eq, Expr.size, lists indices ih]

theorem Stmt.size_mapExprs {f : Expr F → Expr F} (same : ∀ e, (f e).size = e.size) (s : Stmt F) :
    (s.mapExprs f).size = s.size := by
  have bodies : ∀ body : List (Stmt F), (∀ s ∈ body, (s.mapExprs f).size = s.size) →
      Stmt.sizeBody (body.map (Stmt.mapExprs f)) = Stmt.sizeBody body := by
    intro body each
    induction body with
    | nil => rfl
    | cons s rest ih =>
      simp only [List.mem_cons, forall_eq_or_imp] at each
      simp only [List.map_cons, Stmt.sizeBody, each.1, ih each.2]
  have lists : ∀ es : List (Expr F), Expr.sizeList (es.map f) = Expr.sizeList es := by
    intro es
    induction es with
    | nil => rfl
    | cons e es ih => simp only [List.map_cons, Expr.sizeList, same, ih]
  induction s using Stmt.inductTree with
  | loop header body ih | ifRange val start end_ body ih =>
    simp only [Stmt.mapExprs, Stmt.mapExprsBody_eq, Stmt.size, bodies body ih, same]
  | call name params | store arg indices value accumulate | storeLocal var value accumulate =>
    simp only [Stmt.mapExprs, Stmt.size, lists, same]

theorem Stmt.sizeBody_replaceIndex (L : LoopId) (val : Int) (body : List (Stmt F)) :
    Stmt.sizeBody (Stmt.replaceIndex L (.const val) body) = Stmt.sizeBody body := by
  induction body with
  | nil => rfl
  | cons s rest ih =>
    have one := Stmt.size_mapExprs (f := Expr.replaceIndex L (.const val))
      (fun e => Expr.size_mapIndex (fun K type => by split <;> rfl) e) s
    simp only [Stmt.replaceIndex, List.map_cons, Stmt.sizeBody] at ih ⊢
    rw [one, ih]

section Shrinks

variable {body : List (Stmt F)}

/-- A relation between bodies and rebuilt bodies that holds for the leaves and is kept by what
happens to a scope. -/
theorem Stmt.rebuildBody_induct {onLoop : Loop → List (Stmt F) → List (Stmt F) → List (Stmt F)}
    {onIf : Expr F → Int32 → Int32 → List (Stmt F) → List (Stmt F)}
    (R : List (Stmt F) → List (Stmt F) → Prop) (nil : R [] [])
    (append : ∀ body new rest newRest, R body new → R rest newRest →
      R (body ++ rest) (new ++ newRest))
    (leaf : ∀ s : Stmt F, s.isScope = false → R [s] [s])
    (loop : ∀ header old new, R old new → R [.loop header old] (onLoop header old new))
    (guard : ∀ val start end_ old new, R old new →
      R [.ifRange val start end_ old] (onIf val start end_ new)) (body : List (Stmt F)) :
    R body (Stmt.rebuildBody onLoop onIf body) := by
  have bodies : ∀ body : List (Stmt F), (∀ s ∈ body, R [s] (s.rebuild onLoop onIf)) →
      R body (body.flatMap (Stmt.rebuild onLoop onIf)) := by
    intro body each
    induction body with
    | nil => exact nil
    | cons s rest ih =>
      rw [List.forall_mem_cons] at each
      exact append [s] _ rest _ each.1 (ih each.2)
  -- From the inside to the outside: a scope is rebuilt from its rebuilt body.
  have each : ∀ s : Stmt F, R [s] (s.rebuild onLoop onIf) := by
    intro s
    induction s using Stmt.inductTree with
    | loop header body ih =>
      rw [Stmt.rebuild, Stmt.rebuildBody_eq]
      exact loop header body _ (bodies body ih)
    | ifRange val start end_ body ih =>
      rw [Stmt.rebuild, Stmt.rebuildBody_eq]
      exact guard val start end_ body _ (bodies body ih)
    | call | store | storeLocal => exact leaf _ rfl
  rw [Stmt.rebuildBody_eq]
  exact bodies body fun s _ => each s

/-- A body is hit if one of its loops is. -/
abbrev Stmt.LoopHit (hit : Loop × List (Stmt F) → Bool) (body : List (Stmt F)) : Prop :=
  (Stmt.collectLoopsBody body).any hit = true

theorem Stmt.loopHit_append {hit : Loop × List (Stmt F) → Bool} {rest : List (Stmt F)} :
    Stmt.LoopHit hit (body ++ rest) → Stmt.LoopHit hit body ∨ Stmt.LoopHit hit rest := by
  simp [Stmt.LoopHit, Stmt.collectLoopsBody]

theorem Stmt.loopHit_loop {hit : Loop × List (Stmt F) → Bool} {header : Loop}
    (miss : hit (header, body) = false) :
    Stmt.LoopHit hit [.loop header body] → Stmt.LoopHit hit body := by
  simp [Stmt.LoopHit, Stmt.collectLoopsBody, miss]

theorem Stmt.loopHit_ifRange {hit : Loop × List (Stmt F) → Bool} {val : Expr F}
    {start end_ : Int32} :
    Stmt.LoopHit hit [.ifRange val start end_ body] → Stmt.LoopHit hit body := by
  simp [Stmt.LoopHit, Stmt.collectLoopsBody]

theorem Stmt.not_loopHit_leaf {hit : Loop × List (Stmt F) → Bool} {s : Stmt F}
    (leaf : s.isScope = false) : ¬ Stmt.LoopHit hit [s] := by
  cases s with
  | loop | ifRange => cases leaf
  | call | store | storeLocal => simp [Stmt.LoopHit, Stmt.collectLoopsBody, Stmt.collectLoops,
    Stmt.collectStmts]

theorem removeEmptyLoops_shrinks (body : List (Stmt F)) :
    Stmt.Shrinks (Stmt.LoopHit fun loop => loop.2.isEmpty) body (removeEmptyLoops body) := by
  apply Stmt.rebuildBody_induct (Stmt.Shrinks (Stmt.LoopHit fun loop => loop.2.isEmpty))
  · exact ⟨Nat.le_refl _, fun hit => by cases hit⟩
  · intro body new rest newRest first second
    exact first.append Stmt.loopHit_append second
  · intro s leaf
    exact ⟨Nat.le_refl _, fun hit => absurd hit (Stmt.not_loopHit_leaf leaf)⟩
  · intro header old new shrinks
    have inside : Stmt.sizeBody old < (Stmt.loop header old).size := Nat.lt_succ_self _
    cases empty : old.isEmpty with
    | true => exact Stmt.Shrinks.unwrap (Nat.zero_le _) inside
    | false =>
      apply Stmt.Shrinks.scope (Stmt.loopHit_loop empty) shrinks
      simp only [Stmt.size]
      omega
  · intro val start end_ old new shrinks
    apply Stmt.Shrinks.scope Stmt.loopHit_ifRange shrinks
    simp only [Stmt.size]
    omega

theorem removeTrip1Loops_shrinks (body : List (Stmt F)) :
    Stmt.Shrinks (Stmt.LoopHit fun loop => loop.1.end_ = loop.1.stride) body
      (removeTrip1Loops body) := by
  apply Stmt.rebuildBody_induct
    (Stmt.Shrinks (Stmt.LoopHit fun loop => loop.1.end_ = loop.1.stride))
  · exact ⟨Nat.le_refl _, fun hit => by cases hit⟩
  · intro body new rest newRest first second
    exact first.append Stmt.loopHit_append second
  · intro s leaf
    exact ⟨Nat.le_refl _, fun hit => absurd hit (Stmt.not_loopHit_leaf leaf)⟩
  · intro header old new shrinks
    have inside : Stmt.sizeBody old < (Stmt.loop header old).size := Nat.lt_succ_self _
    by_cases once : header.end_ = header.stride
    · rw [if_pos once]
      apply Stmt.Shrinks.unwrap _ inside
      rw [Stmt.sizeBody_replaceIndex]
      exact shrinks.1
    · rw [if_neg once]
      apply Stmt.Shrinks.scope (Stmt.loopHit_loop (by simp [once])) shrinks
      simp only [Stmt.size]
      omega
  · intro val start end_ old new shrinks
    apply Stmt.Shrinks.scope Stmt.loopHit_ifRange shrinks
    simp only [Stmt.size]
    omega

/-- A body is hit if one of its guards is decided. -/
abbrev Stmt.GuardHit (loops : LoopTable) (body : List (Stmt F)) : Prop :=
  (body.flatMap Stmt.collectIfs).any
    (fun guard => guardRelation loops guard.1 guard.2.1 guard.2.2 ≠ .intersect) = true

theorem simplifyIfs_shrinks (loops : LoopTable) (body : List (Stmt F)) :
    Stmt.Shrinks (Stmt.GuardHit loops) body (simplifyIfs loops body) := by
  apply Stmt.rebuildBody_induct (Stmt.Shrinks (Stmt.GuardHit loops))
  · exact ⟨Nat.le_refl _, fun hit => by cases hit⟩
  · intro body new rest newRest first second
    apply first.append _ second
    simp [Stmt.GuardHit]
  · intro s leaf
    refine ⟨Nat.le_refl _, fun hit => ?_⟩
    cases s with
    | loop | ifRange => cases leaf
    | call | store | storeLocal =>
      simp [Stmt.GuardHit, Stmt.collectIfs, Stmt.collectStmts] at hit
  -- A loop stays around its rebuilt body.
  · intro header old new shrinks
    apply Stmt.Shrinks.scope _ shrinks
    · simp only [Stmt.size]
      omega
    · simp [Stmt.GuardHit]
  · intro val start end_ old new shrinks
    -- A guard that is decided goes away, with its body or without it.
    have inside : Stmt.sizeBody old < (Stmt.ifRange val start end_ old).size := by
      simp only [Stmt.size]
      omega
    split
    next undecided =>
      apply Stmt.Shrinks.scope _ shrinks
      · simp only [Stmt.size]
        omega
      · simp [Stmt.GuardHit, undecided]
    next => exact Stmt.Shrinks.unwrap (Nat.zero_le _) inside
    next => exact Stmt.Shrinks.unwrap shrinks.1 inside

end Shrinks

/-! ## Rounds -/

section Rounds

variable [StdPow] [Field F] [LinearOrder F] {p : Program F}

/-- What a round must not meet: constants that cannot be folded, a power that `std::pow` rounds, a
guard that is decided as its exact range does not decide it, and a vector index of a loop that runs
once. -/
def Program.RoundSafe (p : Program F) : Prop :=
  Stmt.FoldsSafelyBody p.body ∧ Stmt.FoldsBody BinOpKind.Exact p.body ∧
  ∀ folded changed, Stmt.simplifyExprsBody p.body = some (folded, changed) →
    let filled : Program F := { p with body := removeEmptyLoops folded }
    (∀ guard ∈ filled.body.flatMap Stmt.collectIfs,
      GuardSafe filled.loopTable guard.1 guard.2.1 guard.2.2) ∧
    (∀ loop ∈ Stmt.collectLoopsBody (simplifyIfs filled.loopTable filled.body),
      loop.1.end_ = loop.1.stride → Stmt.ScalarIndex loop.1.id loop.2)

theorem simplifyExprsBody_sameAs (verified : p.verify = true)
    (folds : Stmt.FoldsBody BinOpKind.Exact p.body) {folded : List (Stmt F)}
    {changed : Bool} (result : Stmt.simplifyExprsBody p.body = some (folded, changed)) :
    Stmt.SameAs p [] p.body folded := by
  have each := Program.verify_body verified
  obtain ⟨verifyN, execN, loopsN⟩ := Stmt.simplifyExprsBody_sound folds result
    (List.all_eq_true.mpr each)
  refine ⟨List.all_eq_true.mp verifyN, fun M env _ st => execN M env st, ?_⟩
  have ids := congrArg (List.map Loop.id) loopsN
  simp only [List.map_map] at ids
  have same : Stmt.loopIds folded = Stmt.loopIds p.body := by
    simpa only [Stmt.loopIds, Stmt.collectLoopsBody, Function.comp_def] using ids
  rw [same]

theorem Program.simplifyRound_eq {folded : List (Stmt F)} {changed : Bool}
    (result : Stmt.simplifyExprsBody p.body = some (folded, changed))
    (known : ((removeEmptyLoops folded).flatMap Stmt.collectIfs).all (fun guard =>
      (computeKnownIntegerRange (Program.loopTable { p with body := removeEmptyLoops folded })
        none guard.1).isSome) = true) :
    p.simplifyRound =
      let loops := Program.loopTable { p with body := removeEmptyLoops folded }
      let guarded := simplifyIfs loops (removeEmptyLoops folded)
      some ({ p with body := removeTrip1Loops guarded },
        changed || (Stmt.collectLoopsBody folded).any (fun loop => loop.2.isEmpty) ||
          ((removeEmptyLoops folded).flatMap Stmt.collectIfs).any (fun guard =>
            guardRelation loops guard.1 guard.2.1 guard.2.2 ≠ .intersect) ||
          (Stmt.collectLoopsBody guarded).any fun loop => loop.1.end_ = loop.1.stride) := by
  rw [Program.simplifyRound, result]
  exact if_pos known

/-- The guards that a round analyzes when the expressions are folded. -/
def Program.guardsKnown (p : Program F) (folded : List (Stmt F)) : Bool :=
  ((removeEmptyLoops folded).flatMap Stmt.collectIfs).all fun guard =>
    (computeKnownIntegerRange (Program.loopTable { p with body := removeEmptyLoops folded })
      none guard.1).isSome

theorem Program.simplifyRound_isSome : p.simplifyRound.isSome = true ↔
    ∃ folded changed, Stmt.simplifyExprsBody p.body = some (folded, changed) ∧
      p.guardsKnown folded = true := by
  constructor
  · intro ends
    obtain ⟨q, round⟩ := Option.isSome_iff_exists.mp ends
    obtain ⟨⟨folded, changed⟩, result, round⟩ := Option.bind_eq_some_iff.mp round
    exact ⟨folded, changed, result, (Option.ite_none_right_eq_some.mp round).1⟩
  · rintro ⟨folded, changed, result, known⟩
    rw [Program.simplifyRound_eq result known]
    rfl

theorem Program.simplifyRound_shrinks {q : Program F} (round : p.simplifyRound = some (q, true)) :
    Stmt.sizeBody q.body < Stmt.sizeBody p.body := by
  obtain ⟨folded, changed, result, known⟩ :=
    Program.simplifyRound_isSome.mp (Option.isSome_iff_exists.mpr ⟨_, round⟩)
  rw [Program.simplifyRound_eq result known] at round
  simp only [Option.some.injEq, Prod.mk.injEq, Bool.or_eq_true] at round
  obtain ⟨rfl, some⟩ := round
  obtain ⟨le, less⟩ := Stmt.size_simplifyExprsBody_of (fun s _ => s.size_simplifyExprs) result
  let loops := Program.loopTable { p with body := removeEmptyLoops folded }
  obtain ⟨leFill, lessFill⟩ := removeEmptyLoops_shrinks folded
  obtain ⟨leGuard, lessGuard⟩ := simplifyIfs_shrinks loops (removeEmptyLoops folded)
  obtain ⟨leTrip, lessTrip⟩ :=
    removeTrip1Loops_shrinks (simplifyIfs loops (removeEmptyLoops folded))
  show Stmt.sizeBody (removeTrip1Loops (simplifyIfs loops (removeEmptyLoops folded))) <
    Stmt.sizeBody p.body
  obtain ((change | empty) | decided) | trips := some
  · have := less change
    omega
  · have := lessFill empty
    omega
  · have := lessGuard decided
    omega
  · have := lessTrip trips
    omega

theorem Program.simplifyRound_sound (verified : p.verify = true) (safe : p.RoundSafe) :
    ∃ q changed, p.simplifyRound = some (q, changed) ∧ q.verify = true ∧
      ∀ (M : Machine F) (st : State F), q.run M st = p.run M st := by
  obtain ⟨defined, folds, conditions⟩ := safe
  obtain ⟨⟨folded, changed⟩, result⟩ := Option.isSome_iff_exists.mp
    (Stmt.simplifyExprsBody_defined fun s mem => Stmt.simplifyExprs_defined (defined.mem mem))
  obtain ⟨guards, once⟩ := conditions folded changed result
  obtain ⟨verifyFolded, runFolded⟩ :=
    Program.of_sameAs verified (simplifyExprsBody_sameAs verified folds result)
  -- Each of the other steps starts from the program that the step before it left.
  obtain ⟨verifyFilled, runFilled⟩ :=
    Program.of_sameAs verifyFolded (removeEmptyLoops_sameAs verifyFolded)
  obtain ⟨verifyGuarded, runGuarded⟩ :=
    Program.of_sameAs verifyFilled (simplifyIfs_sameAs verifyFilled guards)
  obtain ⟨verifyLast, runLast⟩ :=
    Program.of_sameAs verifyGuarded (removeTrip1Loops_sameAs verifyGuarded once)
  have known : p.guardsKnown folded = true :=
    List.all_eq_true.mpr fun guard mem => (guards guard mem).1
  refine ⟨_, _, Program.simplifyRound_eq result known, verifyLast, fun M st => ?_⟩
  exact (runLast M st).trans ((runGuarded M st).trans ((runFilled M st).trans (runFolded M st)))

/-- The programs at the start of the rounds of `simplify`. -/
inductive Program.Rounds (p : Program F) : Program F → Prop where
  | start : p.Rounds p
  | next {q r : Program F} : p.Rounds q → q.simplifyRound = some (r, true) → p.Rounds r

theorem Program.Rounds.trans {p q r : Program F} (first : p.Rounds q) (second : q.Rounds r) :
    p.Rounds r := by
  induction second with
  | start => exact first
  | next _ round ih => exact ih.next round

/-- As many rounds as the program has nodes are enough. -/
theorem Program.simplifyRounds_sound {n : Nat} : ∀ {p : Program F}, p.verify = true →
    (∀ q, p.Rounds q → q.RoundSafe) → Stmt.sizeBody p.body < n →
    ∃ p', p.simplifyRounds n = some p' ∧ p'.verify = true ∧
      ∀ (M : Machine F) (st : State F), p'.run M st = p.run M st := by
  induction n with
  | zero =>
    intro p _ _ small
    cases small
  | succ n ih =>
    intro p verified safe small
    obtain ⟨q, changed, round, verifyQ, runQ⟩ :=
      Program.simplifyRound_sound verified (safe p .start)
    cases changed with
    | false =>
      exact ⟨q, by simp [Program.simplifyRounds, round], verifyQ, runQ⟩
    | true =>
      have first : p.Rounds q := Program.Rounds.start.next round
      have smaller := Program.simplifyRound_shrinks round
      obtain ⟨p', rounds, verified', run'⟩ :=
        ih verifyQ (fun r reach => safe r (first.trans reach)) (by omega)
      refine ⟨p', ?_, verified', fun M st => (run' M st).trans (runQ M st)⟩
      simpa [Program.simplifyRounds, round] using rounds

/-- **Simplification.**  When every round is safe, `simplify` ends, and the program that it
leaves is well formed and does what the program did before. -/
theorem simplify_preserves (verified : p.verify = true)
    (safe : ∀ q, p.Rounds q → q.RoundSafe) :
    ∃ p', simplify p = some p' ∧ p'.verify = true ∧
      ∀ (M : Machine F) (st : State F), p'.run M st = p.run M st :=
  Program.simplifyRounds_sound verified safe (Nat.lt_succ_self _)

end Rounds

/-- `for (i in 0 .. 10) A[i] = 1` -/
def fill : Program ℚ where
  name := "fill"
  args := [⟨"A", ⟨[10], ["x"], .float32Ty, oneDim⟩⟩]
  vars := []
  body := [.loop ⟨0, "i", 10, 1⟩ [.store 0 [.indexOf 0] (.constFP 1) false]]

/-- `for (i in 0 .. 10) if (i in 0 .. end) A[i] = 1` -/
def checkedFill (end_ : Int32) : Program ℚ :=
  { fill with
    body := [.loop ⟨0, "i", 10, 1⟩
      [.ifRange (.indexOf 0) 0 end_ [.store 0 [.indexOf 0] (.constFP 1) false]]] }

theorem fold_fill : Stmt.simplifyExprsBody fill.body = some (fill.body, false) := by
  simp [fill, Stmt.simplifyExprsBody, Stmt.simplifyExprs, Expr.indexOf, Expr.enterLoads,
    Expr.simplifyExpr, Expr.processList, Expr.process]

theorem fold_checkedFill (end_ : Int32) :
    Stmt.simplifyExprsBody (checkedFill end_).body = some ((checkedFill end_).body, false) := by
  simp [checkedFill, Stmt.simplifyExprsBody, Stmt.simplifyExprs, Expr.indexOf, Expr.enterLoads,
    Expr.simplifyExpr, Expr.processList, Expr.process]

theorem simplifyRound_fill : fill.simplifyRound = some (fill, false) := by
  rw [Program.simplifyRound, fold_fill]
  rfl

theorem simplifyRound_checkedFill : (checkedFill 10).simplifyRound = some (fill, true) := by
  rw [Program.simplifyRound, fold_checkedFill]
  rfl

/-- The check of the whole range is removed in the first round, and the second is the last. -/
theorem rounds_checkedFill {q : Program ℚ} (reach : (checkedFill 10).Rounds q) :
    q = checkedFill 10 ∨ q = fill := by
  induction reach with
  | start => exact .inl rfl
  | next _ step ih =>
    cases ih with
    | inl first =>
      rw [first, simplifyRound_checkedFill] at step
      exact .inr (congrArg Prod.fst (Option.some.inj step)).symm
    | inr last =>
      rw [last, simplifyRound_fill] at step
      cases congrArg Prod.snd (Option.some.inj step)

theorem folds_checkedFill (R : BinOpKind → Expr ℚ → Expr ℚ → Prop) (end_ : Int32) :
    Stmt.FoldsBody R (checkedFill end_).body := by
  simp [checkedFill, Stmt.FoldsBody, Stmt.Folds, Expr.indexOf, Expr.LoadsFold, Expr.FoldsList,
    Expr.Folds, Expr.enterLoads]

theorem folds_fill (R : BinOpKind → Expr ℚ → Expr ℚ → Prop) : Stmt.FoldsBody R fill.body := by
  simp [fill, Stmt.FoldsBody, Stmt.Folds, Expr.indexOf, Expr.FoldsList, Expr.Folds]

/-- Simplifying `checkedFill`: the check of the whole range is removed. -/
theorem simplify_preserves_checkedFill : ∃ p', simplify (checkedFill 10) = some p' ∧
    p'.verify = true ∧
      ∀ (M : Machine ℚ) (st : State ℚ), p'.run M st = (checkedFill 10).run M st := by
  apply simplify_preserves (by decide)
  intro q reach
  cases rounds_checkedFill reach with
  | inl first =>
    subst first
    refine ⟨folds_checkedFill _ 10, folds_checkedFill _ 10, ?_⟩
    intro folded changed result
    rw [fold_checkedFill] at result
    cases result
    refine ⟨fun guard mem => ?_, fun loop mem once => ?_⟩
    · cases List.mem_singleton.mp mem
      exact ⟨rfl, _, rfl, by decide, by decide⟩
    · cases List.mem_singleton.mp mem
      exact absurd once (by decide)
  | inr last =>
    subst last
    refine ⟨folds_fill _, folds_fill _, ?_⟩
    intro folded changed result
    rw [fold_fill] at result
    cases result
    refine ⟨fun guard mem => ?_, fun loop mem once => ?_⟩
    · cases mem
    · cases List.mem_singleton.mp mem
      exact absurd once (by decide)

/-- Simplification does not always preserve what a program does: the check that cuts off the
last iteration is removed. -/
theorem simplify_changes_meaning : (checkedFill 9).verify = true ∧
    ∃ p', simplify (checkedFill 9) = some p' ∧
      p'.run .bare .zero ≠ (checkedFill 9).run .bare .zero := by
  have round : (checkedFill 9).simplifyRound = some (fill, true) := by
    rw [Program.simplifyRound, fold_checkedFill]
    rfl
  have simplified : simplify (checkedFill 9) = some fill := by
    have size : Stmt.sizeBody (checkedFill 9).body + 1 = 8 := rfl
    rw [simplify, size]
    simp [Program.simplifyRounds, round, simplifyRound_fill]
  refine ⟨by decide, fill, simplified, fun same => ?_⟩
  have cell := congrArg (fun st => st.bufs 0 [9]) same
  exact absurd cell (by decide)

end Bistra
