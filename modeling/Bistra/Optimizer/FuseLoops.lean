import Bistra.Program.Compare
import Bistra.Transforms.Fuse
import Bistra.Transforms.SimplifyRounds

/-! # Fusing all shallow loops

`tryToFuseAllShallowLoops` of `Optimizer.cpp`.  After a loop has been fused the program is simplified
and the scan starts again, on fewer loops than before.
-/

namespace Bistra

variable {F : Type}

/-! ## The driver -/

/-- `getNextStmt` on a loop. -/
def Program.getNextStmt (p : Program F) (L : LoopId) : Option (Stmt F) :=
  (p.locate L).bind fun c => c.followers.head?

/-- `collectArgsUsed`, without repetitions. -/
def collectArgsUsed (s : Stmt F) : List ArgId :=
  (s.collectExprs.filterMap fun
    | .gep arg _ => some arg
    | _ => none).dedup

/-- The heuristics: the loops share most of the buffers. -/
def sharesBuffers (s s2 : Stmt F) : Bool :=
  let buffers1 := collectArgsUsed s
  let buffers2 := collectArgsUsed s2
  let numShared := (buffers1.filter fun A => buffers2.contains A).length
  max buffers1.length buffers2.length / 2 ≤ numShared

/-- A loop and the loop that directly follows it. -/
def Program.nextLoop (p : Program F) (L : LoopId) : Option (Stmt F × Stmt F) :=
  (p.locate L).bind fun c =>
    match p.getNextStmt L with
    | some (.loop header2 body2) => some (.loop c.header c.body, .loop header2 body2)
    | _ => none

/-- How a scan over the loops ends. -/
inductive Scan (F : Type) where
  /-- `return false`. -/
  | stop
  /-- The loop has come to its end. -/
  | done
  /-- An assertion has failed. -/
  | failed
  /-- A loop has been fused. -/
  | fused (p : Program F)

/-- The loop over `collectLoops(p)`, up to `goto restart`. -/
def Program.scanLoops (p : Program F) : List LoopId → Scan F
  | [] => .done
  | L :: rest =>
    match p.nextLoop L with
    -- We were not able to find a consecutive loop.
    | none => .stop
    | some (s, s2) =>
      if sharesBuffers s s2 then
        match fuse p L 8 with
        | (_, none) => .failed
        | (q, some true) => .fused q
        | (q, some false) => q.scanLoops rest
      else p.scanLoops rest

section Driver

variable [Field F] [LinearOrder F]

/-- `tryToFuseAllShallowLoops`, with a bound on the number of scans: the program, the variable
`changed` when the function returns, and the result. -/
def tryToFuse : Nat → Program F → Bool → Option (Program F × Bool × Bool)
  | 0, _, _ => none
  | fuel + 1, p, changed =>
    match p.scanLoops (Stmt.loopIds p.body) with
    | .stop => some (p, changed, false)
    | .done => some (p, changed, changed)
    | .failed => none
    | .fused q => (simplify q).bind fun r => tryToFuse fuel r true

/-- `tryToFuseAllShallowLoops`.  Every scan but the last removes a loop, so the bound is not met. -/
def tryToFuseAllShallowLoops (p : Program F) : Option (Program F × Bool × Bool) :=
  tryToFuse (numLoops p.body + 1) p false

end Driver

/-! ## The loops that are left -/

section Loops

/-- The loops of `new` are among those of `body`, in the same order. -/
abbrev Stmt.LoopsWithin (new body : List (Stmt F)) : Prop :=
  (Stmt.loopIds new).Sublist (Stmt.loopIds body)

theorem Stmt.loopsWithin_rebuild {onLoop : Loop → List (Stmt F) → List (Stmt F) → List (Stmt F)}
    {onIf : Expr F → Int32 → Int32 → List (Stmt F) → List (Stmt F)}
    (loop : ∀ header old new, Stmt.LoopsWithin new old →
      Stmt.LoopsWithin (onLoop header old new) [.loop header old])
    (guard : ∀ val start end_ new, Stmt.LoopsWithin (onIf val start end_ new) new)
    (body : List (Stmt F)) : Stmt.LoopsWithin (Stmt.rebuildBody onLoop onIf body) body := by
  refine Stmt.rebuildBody_induct (fun old new => Stmt.LoopsWithin new old) (List.Sublist.refl _) ?_
    (fun s _ => List.Sublist.refl _) loop ?_ body
  · intro body new rest newRest first second
    rw [Stmt.LoopsWithin, Stmt.loopIds_append, Stmt.loopIds_append]
    exact first.append second
  · intro val start end_ old new within
    rw [Stmt.LoopsWithin, Stmt.loopIds_ifRange]
    exact (guard val start end_ new).trans within

theorem Stmt.LoopsWithin.loop {old new : List (Stmt F)} (within : Stmt.LoopsWithin new old)
    (header : Loop) : Stmt.LoopsWithin [.loop header new] [.loop header old] := by
  rw [Stmt.LoopsWithin, Stmt.loopIds_loop, Stmt.loopIds_loop]
  exact within.cons_cons _

theorem Stmt.LoopsWithin.unwrap {old new : List (Stmt F)} (within : Stmt.LoopsWithin new old)
    (header : Loop) : Stmt.LoopsWithin new [.loop header old] := by
  rw [Stmt.LoopsWithin, Stmt.loopIds_loop]
  exact within.trans (List.sublist_cons_self _ _)

theorem removeEmptyLoops_loopsWithin (body : List (Stmt F)) :
    Stmt.LoopsWithin (removeEmptyLoops body) body := by
  refine Stmt.loopsWithin_rebuild (fun header old new within => ?_) (fun val start end_ new => ?_) body
  · split
    · exact List.nil_sublist _
    · exact within.loop header
  · rw [Stmt.LoopsWithin, Stmt.loopIds_ifRange]

theorem simplifyIfs_loopsWithin (loops : LoopTable) (body : List (Stmt F)) :
    Stmt.LoopsWithin (simplifyIfs loops body) body := by
  refine Stmt.loopsWithin_rebuild (fun header _ _ within => within.loop header)
    (fun val start end_ new => ?_) body
  split
  · rw [Stmt.LoopsWithin, Stmt.loopIds_ifRange]
  · exact List.nil_sublist _
  · exact List.Sublist.refl _

theorem removeTrip1Loops_loopsWithin (body : List (Stmt F)) :
    Stmt.LoopsWithin (removeTrip1Loops body) body := by
  refine Stmt.loopsWithin_rebuild (fun header old new within => ?_) (fun val start end_ new => ?_) body
  · split
    · rw [Stmt.LoopsWithin, Stmt.replaceIndex, Stmt.loopIds_mapExprs]
      exact within.unwrap header
    · exact within.loop header
  · rw [Stmt.LoopsWithin, Stmt.loopIds_ifRange]

variable [Field F] [LinearOrder F]

theorem Stmt.loopIds_simplifyExprsBody_of {body : List (Stmt F)}
    (each : ∀ s ∈ body, ∀ N changed, s.simplifyExprs = some (N, changed) →
      Stmt.loopIds [N] = Stmt.loopIds [s]) :
    ∀ {folded : List (Stmt F)} {changed : Bool},
      Stmt.simplifyExprsBody body = some (folded, changed) →
        Stmt.loopIds folded = Stmt.loopIds body := by
  induction body with
  | nil =>
    intro folded changed result
    cases result
    rfl
  | cons s rest ih =>
    intro folded changed result
    simp only [Stmt.simplifyExprsBody] at result
    obtain ⟨⟨N, changedS⟩, resultS, result⟩ := Option.bind_eq_some_iff.mp result
    obtain ⟨⟨Ns, changedRest⟩, resultRest, same⟩ := Option.map_eq_some_iff.mp result
    cases same
    have here := each s List.mem_cons_self N changedS resultS
    have later := ih (fun t mem => each t (List.mem_cons_of_mem s mem)) resultRest
    simp only [Stmt.loopIds_cons, Stmt.loopIds_nil, List.append_nil] at here ⊢
    rw [here, later]

theorem Stmt.loopIds_simplifyExprs (s : Stmt F) : ∀ N changed,
    s.simplifyExprs = some (N, changed) → Stmt.loopIds [N] = Stmt.loopIds [s] := by
  induction s using Stmt.inductTree with
  | loop header body ih =>
    intro N changed result
    simp only [Stmt.simplifyExprs] at result
    obtain ⟨⟨new, changedBody⟩, resultBody, same⟩ := Option.map_eq_some_iff.mp result
    cases same
    rw [Stmt.loopIds_loop, Stmt.loopIds_loop, Stmt.loopIds_simplifyExprsBody_of ih resultBody]
  | ifRange val start end_ body ih =>
    intro N changed result
    simp only [Stmt.simplifyExprs] at result
    obtain ⟨⟨val', _⟩, -, result⟩ := Option.bind_eq_some_iff.mp result
    obtain ⟨⟨val'', _⟩, -, result⟩ := Option.bind_eq_some_iff.mp result
    obtain ⟨⟨new, changedBody⟩, resultBody, same⟩ := Option.map_eq_some_iff.mp result
    cases same
    rw [Stmt.loopIds_ifRange, Stmt.loopIds_ifRange, Stmt.loopIds_simplifyExprsBody_of ih resultBody]
  | call name params =>
    intro N changed result
    obtain ⟨new, -, same⟩ := Option.map_eq_some_iff.mp result
    cases same
    rfl
  | store arg indices value accumulate =>
    intro N changed result
    obtain ⟨new, -, result⟩ := Option.bind_eq_some_iff.mp result
    obtain ⟨new', -, same⟩ := Option.map_eq_some_iff.mp result
    cases same
    rfl
  | storeLocal var value accumulate =>
    intro N changed result
    obtain ⟨new, -, same⟩ := Option.map_eq_some_iff.mp result
    cases same
    rfl

theorem Program.simplifyRound_loopsWithin {p q : Program F} {changed : Bool}
    (round : p.simplifyRound = some (q, changed)) : Stmt.LoopsWithin q.body p.body := by
  rw [Program.simplifyRound] at round
  obtain ⟨⟨folded, changedFolded⟩, resultFolded, round⟩ := Option.bind_eq_some_iff.mp round
  obtain ⟨-, same⟩ := Option.ite_none_right_eq_some.mp round
  cases same
  have folds := Stmt.loopIds_simplifyExprsBody_of (fun s _ => Stmt.loopIds_simplifyExprs s)
    resultFolded
  rw [Stmt.LoopsWithin, ← folds]
  exact (removeTrip1Loops_loopsWithin _).trans
    ((simplifyIfs_loopsWithin _ _).trans (removeEmptyLoops_loopsWithin folded))

theorem simplify_loopsWithin {p q : Program F} (result : simplify p = some q) :
    Stmt.LoopsWithin q.body p.body := by
  have rounds : ∀ (n : Nat) (p : Program F), p.simplifyRounds n = some q →
      Stmt.LoopsWithin q.body p.body := by
    intro n
    induction n with
    | zero => exact nofun
    | succ n ih =>
      intro p result
      rw [Program.simplifyRounds] at result
      obtain ⟨⟨r, changed⟩, round, later⟩ := Option.bind_eq_some_iff.mp result
      have once := Program.simplifyRound_loopsWithin round
      cases changed with
      | true => exact (ih r later).trans once
      | false =>
        cases later
        exact once
  exact rounds _ p result

omit [Field F] [LinearOrder F] in
theorem loopIds_mergeNext {loops : LoopTable} {header : Loop} {body rest : List (Stmt F)}
    (fusable : mayFuseNext loops header body rest = some true) :
    (Stmt.loopIds (mergeNext header body rest) ++ Stmt.loopIds rest.tail).Sublist
      (Stmt.loopIds body ++ Stmt.loopIds rest) := by
  match rest with
  | .loop header2 body2 :: rest =>
    rw [mergeNext, List.tail_cons, Stmt.loopIds_append, Stmt.replaceIndex, Stmt.loopIds_mapExprs,
      Stmt.loopIds_cons, Stmt.ids_loop, List.append_assoc]
    exact List.Sublist.append_left (List.sublist_cons_self _ _) _

omit [Field F] [LinearOrder F] in
theorem fuseChildren_loopsWithin {fuse : Loop → List (Stmt F) → List (Stmt F) →
    List (Stmt F) × Option Bool}
    (each : ∀ header body rest, Stmt.LoopsWithin (fuse header body rest).1
      (.loop header body :: rest)) (body : List (Stmt F)) :
    Stmt.LoopsWithin (fuseChildren fuse body).1 body := by
  induction body with
  | nil => exact List.Sublist.refl _
  | cons s rest ih =>
    have skip : Stmt.LoopsWithin (s :: (fuseChildren fuse rest).1) (s :: rest) := by
      rw [Stmt.LoopsWithin, Stmt.loopIds_cons, Stmt.loopIds_cons]
      exact List.Sublist.append_left ih _
    cases s with
    | loop header body =>
      have here := each header body rest
      rw [fuseChildren]
      split
      next => exact skip
      next same => rwa [same] at here
      next same => rwa [same] at here
    | ifRange | call | store | storeLocal => exact skip

omit [Field F] [LinearOrder F] in
theorem fuseAt_loopsWithin {loops : LoopTable} {fuel : Nat} : ∀ {levels : UInt32} (header : Loop)
    (body rest : List (Stmt F)),
    Stmt.LoopsWithin (fuseAt loops fuel levels header body rest).1 (.loop header body :: rest) := by
  induction fuel with
  | zero => exact fun _ _ _ => List.Sublist.refl _
  | succ fuel ih =>
    intro levels header body rest
    by_cases fusable : mayFuseNext loops header body rest = some true
    · obtain ⟨verdict, -, ran⟩ := fuseAt_fusable fusable fuel levels
      have children := fuseChildren_loopsWithin (fun header body rest =>
        @ih (levels - 1) header body rest) (mergeNext header body rest)
      rw [ran, Stmt.LoopsWithin, Stmt.loopIds_cons, Stmt.ids_loop, Stmt.loopIds_cons, Stmt.ids_loop,
        List.cons_append, List.cons_append]
      exact ((children.append_right _).trans (loopIds_mergeNext fusable)).cons_cons _
    · rw [fuseAt_stop fusable]

omit [Field F] [LinearOrder F] in
theorem Place.fill_loopsWithin {K : Place F} {hole hole' : List (Stmt F)}
    (within : Stmt.LoopsWithin hole' hole) : Stmt.LoopsWithin (K.fill hole') (K.fill hole) := by
  have general : ∀ (path : List (OpenScope F)) {hole hole' : List (Stmt F)},
      Stmt.LoopsWithin hole' hole →
        Stmt.LoopsWithin (reassemble path hole') (reassemble path hole) := by
    intro path
    induction path with
    | nil => exact id
    | cons f path ih =>
      intro hole hole' within
      refine ih ?_
      rw [Stmt.LoopsWithin, OpenScope.loopIds_attach, OpenScope.loopIds_attach]
      exact List.Sublist.append_left ((List.Sublist.append_left within _).append_right _) _
  rw [Stmt.LoopsWithin, Place.fill, Place.fill, Stmt.loopIds_append, Stmt.loopIds_append,
    Stmt.loopIds_append, Stmt.loopIds_append]
  exact (List.Sublist.append_left (general K.path within) _).append_right _

omit [Field F] [LinearOrder F] in
theorem fuse_loopsWithin (p : Program F) (L : LoopId) (levels : UInt32) :
    Stmt.LoopsWithin (fuse p L levels).1.body p.body := by
  unfold fuse
  cases located : p.locate L with
  | none => exact List.Sublist.refl _
  | some c =>
    have content : p.body = c.upToEnd.fill (.loop c.header c.body :: c.followers) := by
      rw [Cursor.content_upToEnd, (Program.locate_spec located).1]
    have here : Stmt.LoopsWithin (fuseAt p.loopTable (numLoops p.body) levels c.header c.body
        c.followers).1 (.loop c.header c.body :: c.followers) :=
      fuseAt_loopsWithin c.header c.body c.followers
    have filled := Place.fill_loopsWithin (K := c.upToEnd) here
    rw [← content] at filled
    exact filled

omit [Field F] [LinearOrder F] in
theorem Program.nextLoop_later {p : Program F} {L : LoopId} {s s2 : Stmt F}
    (next : p.nextLoop L = some (s, s2)) :
    ∃ before M after, Stmt.loopIds p.body = before ++ L :: after ∧ M ∈ after := by
  obtain ⟨c, located, next⟩ := Option.bind_eq_some_iff.mp next
  obtain ⟨content, id⟩ := Program.locate_spec located
  rw [← Cursor.content_upToEnd] at content
  -- The place adds loops before the hole and behind it, whatever the hole is filled with.
  have around : ∀ K : Place F, ∃ before after, ∀ hole,
      Stmt.loopIds (K.fill hole) = before ++ Stmt.loopIds hole ++ after := by
    have general : ∀ path : List (OpenScope F), ∃ before after, ∀ hole,
        Stmt.loopIds (reassemble path hole) = before ++ Stmt.loopIds hole ++ after := by
      intro path
      induction path with
      | nil => exact ⟨[], [], fun hole => by simp [reassemble]⟩
      | cons f path ih =>
        obtain ⟨before, after, same⟩ := ih
        refine ⟨before ++ f.head.loops ++ Stmt.loopIds f.before, Stmt.loopIds f.after ++ after,
          fun hole => ?_⟩
        rw [reassemble_cons, same, OpenScope.loopIds_attach]
        simp only [List.append_assoc]
    intro K
    obtain ⟨before, after, same⟩ := general K.path
    refine ⟨Stmt.loopIds K.before ++ before, after ++ Stmt.loopIds K.after, fun hole => ?_⟩
    rw [Place.fill, Stmt.loopIds_append, Stmt.loopIds_append, same]
    simp only [List.append_assoc]
  obtain ⟨before, after, same⟩ := around c.upToEnd
  rw [Program.getNextStmt, located, Option.bind_some] at next
  cases followers : c.followers with
  | nil => simp [followers] at next
  | cons t rest =>
    cases t with
    | loop header2 body2 =>
      refine ⟨before, header2.id, Stmt.loopIds c.body ++ header2.id :: Stmt.loopIds body2 ++
        Stmt.loopIds rest ++ after, ?_, by simp⟩
      rw [← content, same, followers, Stmt.loopIds_cons, Stmt.loopIds_cons, Stmt.ids_loop,
        Stmt.ids_loop, id]
      simp only [List.append_assoc, List.cons_append]
    | ifRange | call | store | storeLocal => simp [followers] at next

omit [Field F] [LinearOrder F] in
theorem Program.exists_nextLoop_none {p : Program F} (nodup : (Stmt.loopIds p.body).Nodup)
    (some_ : Stmt.loopIds p.body ≠ []) : ∃ L ∈ Stmt.loopIds p.body, p.nextLoop L = none := by
  refine ⟨(Stmt.loopIds p.body).getLast some_, List.getLast_mem some_, ?_⟩
  by_contra next
  obtain ⟨⟨s, s2⟩, next⟩ := Option.ne_none_iff_exists'.mp next
  obtain ⟨before, M, after, same, mem⟩ := Program.nextLoop_later next
  generalize last : (Stmt.loopIds p.body).getLast some_ = L at same
  have behind : L ∈ after := by
    have nonempty : after ≠ [] := List.ne_nil_of_mem mem
    have whole : (Stmt.loopIds p.body).getLast? = after.getLast? := by
      rw [same, List.getLast?_append, List.getLast?_cons, List.getLast?_eq_some_getLast nonempty]
      simp
    rw [List.getLast?_eq_some_getLast some_, last] at whole
    exact List.mem_of_getLast? whole.symm
  rw [same] at nodup
  exact (List.nodup_cons.mp (List.nodup_append.mp nodup).2.1).1 behind

end Loops

/-! ## What a scan comes to -/

section Scans

variable {p : Program F} {L : LoopId}

/-- The scan goes on behind the loop. -/
def Program.Passes (p : Program F) (L : LoopId) : Prop :=
  ∃ s s2, p.nextLoop L = some (s, s2) ∧
    (sharesBuffers s s2 = true → (fuse p L 8).2 = some false)

/-- The loop is directly followed by a loop with which it meets the heuristics, and `fuse` comes to
this verdict on it. -/
def Program.Verdict (p : Program F) (L : LoopId) (verdict : Option Bool) : Prop :=
  ∃ s s2, p.nextLoop L = some (s, s2) ∧ sharesBuffers s s2 = true ∧ (fuse p L 8).2 = verdict

/-- The scan comes to the loop. -/
def Program.ComesTo (p : Program F) (L : LoopId) : Prop :=
  ∃ before after, Stmt.loopIds p.body = before ++ L :: after ∧ ∀ K ∈ before, p.Passes K

theorem fuse_of_false (verdict : (fuse p L 8).2 = some false) : (fuse p L 8).1 = p := by
  cases located : p.locate L with
  | none => rw [fuse, located]
  | some c =>
    refine fuse_unchanged located 8 fun fusable => ?_
    rw [fuse, located] at verdict
    obtain ⟨fuel, more⟩ : ∃ less, (Stmt.loopIds p.body).length = less + 1 := by
      refine Nat.exists_eq_succ_of_ne_zero fun none => ?_
      have merged := (numLoops_fuse located 8 1).mpr (by simp [nestedPairs, fusable])
      have few : numLoops p.body = 0 := none
      omega
    obtain ⟨answer, fused, ran⟩ := fuseAt_fusable fusable fuel 8
    simp only [more, ran] at verdict
    exact fused verdict

theorem Program.scanLoops_pass {rest : List LoopId} (passes : p.Passes L) :
    p.scanLoops (L :: rest) = p.scanLoops rest := by
  obtain ⟨s, s2, next, kept⟩ := passes
  simp only [Program.scanLoops, next]
  by_cases shares : sharesBuffers s s2 = true
  · have verdict := kept shares
    have same : fuse p L 8 = (p, some false) := Prod.ext (fuse_of_false verdict) verdict
    rw [if_pos shares, same]
  · rw [if_neg shares]

theorem Program.scanLoops_append {before rest : List LoopId} (passes : ∀ K ∈ before, p.Passes K) :
    p.scanLoops (before ++ rest) = p.scanLoops rest := by
  induction before with
  | nil => rfl
  | cons L before ih =>
    rw [List.cons_append, Program.scanLoops_pass (passes L List.mem_cons_self)]
    exact ih fun K mem => passes K (List.mem_cons_of_mem _ mem)

/-- The scan passes all the loops, or comes to one at which it ends. -/
theorem Program.passes_or_comesTo (p : Program F) : (∀ L ∈ Stmt.loopIds p.body, p.Passes L) ∨
    ∃ L, p.ComesTo L ∧ ¬ p.Passes L ∧ L ∈ Stmt.loopIds p.body := by
  have general : ∀ ids : List LoopId, (∀ L ∈ ids, p.Passes L) ∨
      ∃ before L after, ids = before ++ L :: after ∧ (∀ K ∈ before, p.Passes K) ∧ ¬ p.Passes L := by
    intro ids
    induction ids with
    | nil => exact .inl (by simp)
    | cons L ids ih =>
      by_cases here : p.Passes L
      · obtain all | ⟨before, M, after, rfl, passes, ends⟩ := ih
        · exact .inl (List.forall_mem_cons.mpr ⟨here, all⟩)
        · exact .inr ⟨L :: before, M, after, rfl, List.forall_mem_cons.mpr ⟨here, passes⟩, ends⟩
      · exact .inr ⟨[], L, ids, rfl, by simp, here⟩
  obtain all | ⟨before, L, after, same, passes, ends⟩ := general (Stmt.loopIds p.body)
  · exact .inl all
  · exact .inr ⟨L, ⟨before, after, same, passes⟩, ends, by simp [same]⟩

theorem Program.ComesTo.scan (comes : p.ComesTo L) :
    ∃ after, p.scanLoops (Stmt.loopIds p.body) = p.scanLoops (L :: after) := by
  obtain ⟨before, after, same, passes⟩ := comes
  exact ⟨after, by rw [same, Program.scanLoops_append passes]⟩

theorem Program.ComesTo.stop (comes : p.ComesTo L) (last : p.nextLoop L = none) :
    p.scanLoops (Stmt.loopIds p.body) = .stop := by
  obtain ⟨after, same⟩ := comes.scan
  simp only [same, Program.scanLoops, last]

theorem Program.ComesTo.failed (comes : p.ComesTo L) (verdict : p.Verdict L none) :
    p.scanLoops (Stmt.loopIds p.body) = .failed := by
  obtain ⟨after, same⟩ := comes.scan
  obtain ⟨s, s2, next, shares, verdict⟩ := verdict
  have answer : fuse p L 8 = ((fuse p L 8).1, none) := Prod.ext rfl verdict
  rw [same, Program.scanLoops, next]
  simp only
  rw [if_pos shares, answer]

theorem Program.ComesTo.fused (comes : p.ComesTo L) (verdict : p.Verdict L (some true)) :
    p.scanLoops (Stmt.loopIds p.body) = .fused (fuse p L 8).1 := by
  obtain ⟨after, same⟩ := comes.scan
  obtain ⟨s, s2, next, shares, verdict⟩ := verdict
  have answer : fuse p L 8 = ((fuse p L 8).1, some true) := Prod.ext rfl verdict
  rw [same, Program.scanLoops, next]
  simp only
  rw [if_pos shares, answer]

/-- How a scan over all the loops of a program ends. -/
theorem Program.scanLoops_spec (nodup : (Stmt.loopIds p.body).Nodup) :
    (Stmt.loopIds p.body = [] ∧ p.scanLoops (Stmt.loopIds p.body) = .done) ∨
      ∃ L, p.ComesTo L ∧ (p.nextLoop L = none ∨ p.Verdict L none ∨ p.Verdict L (some true)) := by
  obtain all | ⟨L, comes, ends, -⟩ := p.passes_or_comesTo
  · refine .inl ?_
    by_cases none : Stmt.loopIds p.body = []
    · exact ⟨none, by rw [none, Program.scanLoops]⟩
    · obtain ⟨L, mem, last⟩ := Program.exists_nextLoop_none nodup none
      obtain ⟨s, s2, next, -⟩ := all L mem
      cases last.symm.trans next
  · refine .inr ⟨L, comes, ?_⟩
    cases next : p.nextLoop L with
    | none => exact .inl rfl
    | some pair =>
      obtain ⟨s, s2⟩ := pair
      by_cases shares : sharesBuffers s s2 = true
      · cases verdict : (fuse p L 8).2 with
        | none => exact .inr (.inl ⟨s, s2, next, shares, verdict⟩)
        | some fused =>
          cases fused with
          | false => exact absurd ⟨s, s2, next, fun _ => verdict⟩ ends
          | true => exact .inr (.inr ⟨s, s2, next, shares, verdict⟩)
      · exact absurd ⟨s, s2, next, fun shares' => absurd shares' shares⟩ ends

end Scans

/-! ## Runs of the driver -/

section Runs

variable [Field F] [LinearOrder F] {p q : Program F} {L : LoopId}

/-- One round of the driver: the first loop to be fused is fused, and the program simplified. -/
def Program.FuseStep (p q : Program F) : Prop :=
  ∃ L, p.ComesTo L ∧ p.Verdict L (some true) ∧ simplify (fuse p L 8).1 = some q

theorem Program.FuseStep.loopsWithin (step : p.FuseStep q) : Stmt.LoopsWithin q.body p.body := by
  obtain ⟨L, -, -, result⟩ := step
  exact (simplify_loopsWithin result).trans (fuse_loopsWithin p L 8)

/-- A round leaves fewer loops. -/
theorem Program.FuseStep.fewer (step : p.FuseStep q) : numLoops q.body < numLoops p.body := by
  obtain ⟨L, -, ⟨s, s2, next, -, verdict⟩, result⟩ := step
  obtain ⟨c, located, -⟩ := Option.bind_eq_some_iff.mp next
  have within := (simplify_loopsWithin result).length_le
  have merged := (numLoops_fuse located 8 1).mpr ?_
  · exact Nat.lt_of_le_of_lt within merged
  · rw [nestedPairs, Bool.and_eq_true]
    refine ⟨decide_eq_true ?_, by simp⟩
    rw [fuse, located] at verdict
    by_contra stop
    cases fuel : (Stmt.loopIds p.body).length with
    | zero => simp [fuel, fuseAt] at verdict
    | succ fuel =>
      simp only [fuel, fuseAt_stop stop] at verdict
      exact stop verdict

theorem tryToFuse_step (step : p.FuseStep q) (fuel : Nat) (changed : Bool) :
    tryToFuse (fuel + 1) p changed = tryToFuse fuel q true := by
  obtain ⟨L, comes, verdict, result⟩ := step
  rw [tryToFuse, comes.fused verdict]
  simp only [result, Option.bind_some]

/-- Where the driver stops: it returns false at a loop that no other one follows, and tells the
truth only when no loop is left. -/
theorem tryToFuse_spec {fuel : Nat} {changed : Bool} {q : Program F} {changed' result : Bool} :
    ∀ {p : Program F}, (Stmt.loopIds p.body).Nodup →
      tryToFuse fuel p changed = some (q, changed', result) →
        (q = p ∧ changed' = changed ∨ Relation.TransGen Program.FuseStep p q ∧ changed' = true) ∧
          ((∃ L, q.ComesTo L ∧ q.nextLoop L = none) ∧ result = false ∨
            Stmt.loopIds q.body = [] ∧ result = changed') := by
  induction fuel generalizing changed with
  -- Without fuel nothing is returned.
  | zero => exact nofun
  | succ fuel ih =>
    intro p nodup returned
    obtain ⟨none, done⟩ | ⟨L, comes, last | failed | fused⟩ := Program.scanLoops_spec nodup
    · rw [tryToFuse, done] at returned
      cases returned
      exact ⟨.inl ⟨rfl, rfl⟩, .inr ⟨none, rfl⟩⟩
    · rw [tryToFuse, comes.stop last] at returned
      cases returned
      exact ⟨.inl ⟨rfl, rfl⟩, .inl ⟨⟨L, comes, last⟩, rfl⟩⟩
    · rw [tryToFuse, comes.failed failed] at returned
      cases returned
    · cases simplified : simplify (fuse p L 8).1 with
      | none =>
        rw [tryToFuse, comes.fused fused] at returned
        simp [simplified] at returned
      | some r =>
        -- The loops have been fused, and the driver starts again with the simplified program.
        have step : p.FuseStep r := ⟨L, comes, fused, simplified⟩
        rw [tryToFuse_step step] at returned
        obtain ⟨path, final⟩ := ih (nodup.sublist step.loopsWithin) returned
        refine ⟨.inr ?_, final⟩
        obtain ⟨rfl, same⟩ | ⟨path, same⟩ := path
        · exact ⟨.single step, same⟩
        · exact ⟨.head step path, same⟩

/-- When fusing leads to a program without loops, the driver gets there. -/
theorem tryToFuse_of_path {fuel : Nat} {changed : Bool} (path : Relation.TransGen Program.FuseStep p q)
    (none : Stmt.loopIds q.body = []) (enough : numLoops p.body < fuel) :
    tryToFuse fuel p changed = some (q, true, true) := by
  induction path using Relation.TransGen.head_induction_on generalizing fuel changed with
  | @single p step =>
    obtain ⟨fuel, rfl⟩ : ∃ less, fuel = less + 2 := ⟨fuel - 2, by have := step.fewer; omega⟩
    rw [tryToFuse_step step, tryToFuse, none, Program.scanLoops]
  | @head p r step path ih =>
    obtain ⟨fuel, rfl⟩ : ∃ less, fuel = less + 1 := ⟨fuel - 1, by omega⟩
    rw [tryToFuse_step step]
    exact ih (by have := step.fewer; omega)

/-- `tryToFuseAllShallowLoops` returns, its result tells whether it has fused loops, and no loop is
left that it could fuse with the loop directly behind it. -/
def Program.FusesAll (p : Program F) : Prop :=
  ∃ q changed result, tryToFuseAllShallowLoops p = some (q, changed, result) ∧
    (result = true ↔ changed = true) ∧ ∀ L, ¬ q.Verdict L (some true)

/-- The driver does its work and reports it exactly when there is nothing to do and no assertion
fails on the way to a loop that no other one follows, or when fusing and simplifying leads to a
program without loops. -/
theorem fusesAll_iff (verified : p.verify = true) :
    p.FusesAll ↔
      ((∀ L, ¬ p.Verdict L (some true)) ∧ ∀ L, p.ComesTo L → ¬ p.Verdict L none) ∨
        ∃ q, Relation.TransGen Program.FuseStep p q ∧ Stmt.loopIds q.body = [] := by
  have nodup := Program.nodup_loopIds verified
  have empty : ∀ {q : Program F}, Stmt.loopIds q.body = [] → ∀ L, ¬ q.Verdict L (some true) := by
    rintro q none L ⟨s, s2, next, -⟩
    obtain ⟨before, M, after, same, -⟩ := Program.nextLoop_later next
    simp [none] at same
  constructor
  · rintro ⟨q, changed, result, returned, truthful, complete⟩
    obtain ⟨⟨rfl, rfl⟩ | ⟨path, rfl⟩, final⟩ := tryToFuse_spec nodup returned
    · refine .inl ⟨complete, fun L comes failed => ?_⟩
      rw [tryToFuseAllShallowLoops, tryToFuse, comes.failed failed] at returned
      cases returned
    · obtain ⟨-, rfl⟩ | ⟨none, -⟩ := final
      · simp at truthful
      · exact .inr ⟨q, path, none⟩
  · rintro (⟨complete, safe⟩ | ⟨q, path, none⟩)
    · refine ⟨p, false, false, ?_, by simp, complete⟩
      obtain ⟨-, done⟩ | ⟨L, comes, last | failed | fused⟩ := Program.scanLoops_spec nodup
      · rw [tryToFuseAllShallowLoops, tryToFuse, done]
      · rw [tryToFuseAllShallowLoops, tryToFuse, comes.stop last]
      · exact absurd failed (safe L comes)
      · exact absurd fused (complete L)
    · exact ⟨q, true, true, tryToFuse_of_path path none (Nat.lt_succ_self _), by simp, empty none⟩

end Runs

/-- Two loops of different lengths, which nothing fuses. -/
def unequalStores : Program Rat :=
  { twoStores with body := [.loop ⟨0, "i", 10, 1⟩ [.store 0 [.indexOf 0] (.constFP 0) false],
      .loop ⟨1, "j", 5, 1⟩ [.store 1 [.indexOf 1] (.constFP 0) false]] }

/-- Two loops that run once. -/
def unitStores : Program Rat :=
  { twoStores with body := [.loop ⟨0, "i", 1, 1⟩ [.store 0 [.indexOf 0] (.constFP 0) false],
      .loop ⟨1, "j", 1, 1⟩ [.store 1 [.indexOf 1] (.constFP 0) false]] }

/-- What is left when the two loops of `unitStores` have been fused and simplified. -/
def unrolledStores : Program Rat :=
  { twoStores with body := [.store 0 [.const 0] (.constFP 0) false,
      .store 1 [.const 0] (.constFP 0) false] }

theorem simplify_unitStores : simplify (fuse unitStores 0 8).1 = some unrolledStores := by
  have folds : Stmt.simplifyExprsBody (fuse unitStores 0 8).1.body =
      some ((fuse unitStores 0 8).1.body, false) := by
    have merged : (fuse unitStores 0 8).1.body = [.loop ⟨0, "i", 1, 1⟩
      [.store 0 [.indexOf 0] (.constFP 0) false, .store 1 [.indexOf 0] (.constFP 0) false]] := by rfl
    simp [merged, Stmt.simplifyExprsBody, Stmt.simplifyExprs, Expr.indexOf, Expr.enterLoads,
      Expr.simplifyExpr, Expr.processList, Expr.process]
  have folds' : Stmt.simplifyExprsBody unrolledStores.body = some (unrolledStores.body, false) := by
    simp [unrolledStores, Stmt.simplifyExprsBody, Stmt.simplifyExprs, Expr.enterLoads,
      Expr.simplifyExpr, Expr.processList, Expr.process]
  have first : (fuse unitStores 0 8).1.simplifyRound = some (unrolledStores, true) := by
    rw [Program.simplifyRound, folds]
    rfl
  have second : unrolledStores.simplifyRound = some (unrolledStores, false) := by
    rw [Program.simplifyRound, folds']
    rfl
  obtain ⟨n, enough⟩ : ∃ n, Stmt.sizeBody (fuse unitStores 0 8).1.body + 1 = n + 2 :=
    ⟨_, (by rfl : _ = Stmt.sizeBody unrolledStores.body + 2)⟩
  rw [simplify, enough]
  simp only [Program.simplifyRounds, first, second, Option.bind_some, if_true, Bool.false_eq_true,
    if_false]

theorem fuseStep_unitStores : unitStores.FuseStep unrolledStores := by
  have next : unitStores.nextLoop 0 = some
      (.loop ⟨0, "i", 1, 1⟩ [.store 0 [.indexOf 0] (.constFP 0) false],
        .loop ⟨1, "j", 1, 1⟩ [.store 1 [.indexOf 1] (.constFP 0) false]) := by rfl
  have comes : unitStores.ComesTo 0 := ⟨[], [1], by decide +kernel, nofun⟩
  exact ⟨0, comes, ⟨_, _, next, by decide +kernel, by decide +kernel⟩, simplify_unitStores⟩
/-- Nothing is to do, and everything is done. -/
theorem fusesAll_unequalStores_unitStores : unequalStores.FusesAll ∧ unitStores.FusesAll := by
  have known : ∀ L s s2, unequalStores.nextLoop L = some (s, s2) → L = 0 := by
    intro L s s2 next
    obtain ⟨before, M, after, same, mem⟩ := Program.nextLoop_later next
    have ids : Stmt.loopIds unequalStores.body = [0, 1] := by decide +kernel
    rw [ids] at same
    cases before with
    | nil => exact (List.cons.inj same).1.symm
    | cons K before =>
      have tail := (List.cons.inj same).2
      cases before with
      | nil =>
        cases (List.cons.inj tail).2
        cases mem
      | cons => simp at tail
  have refused : (fuse unequalStores 0 8).2 = some false := by decide +kernel
  refine ⟨(fusesAll_iff (by decide +kernel)).mpr (.inl ⟨?_, ?_⟩),
    (fusesAll_iff (by decide +kernel)).mpr (.inr ⟨_, .single fuseStep_unitStores, by rfl⟩)⟩
  · rintro L ⟨s, s2, next, -, verdict⟩
    cases known L s s2 next
    cases refused.symm.trans verdict
  · rintro L - ⟨s, s2, next, -, verdict⟩
    cases known L s s2 next
    cases refused.symm.trans verdict

/-- The two loops of `twoStores` in one. -/
def mergedStores : Program Rat :=
  { twoStores with body := [.loop ⟨0, "i", 10, 1⟩
      [.store 0 [.indexOf 0] (.constFP 0) false, .store 1 [.indexOf 0] (.constFP 0) false]] }

theorem simplify_mergedStores : simplify mergedStores = some mergedStores := by
  have folds : Stmt.simplifyExprsBody mergedStores.body = some (mergedStores.body, false) := by
    simp [mergedStores, Stmt.simplifyExprsBody, Stmt.simplifyExprs, Expr.indexOf, Expr.enterLoads,
      Expr.simplifyExpr, Expr.processList, Expr.process]
  have round : mergedStores.simplifyRound = some (mergedStores, false) := by
    rw [Program.simplifyRound, folds]
    rfl
  rw [simplify, Program.simplifyRounds, round]
  rfl

/-- The two loops are fused, and the driver returns false at the loop that is left. -/
theorem fusesAll_fails_twoStores : twoStores.verify = true ∧ ¬ twoStores.FusesAll := by
  refine ⟨by decide +kernel, ?_⟩
  rintro ⟨q, changed, result, returned, truthful, -⟩
  have fused : twoStores.scanLoops (Stmt.loopIds twoStores.body) = .fused mergedStores := by rfl
  have stops : mergedStores.scanLoops (Stmt.loopIds mergedStores.body) = .stop := by rfl
  have loops : numLoops twoStores.body = 2 := by rfl
  rw [tryToFuseAllShallowLoops, loops, tryToFuse, fused] at returned
  simp only [simplify_mergedStores, Option.bind_some, tryToFuse, stops] at returned
  cases returned
  exact Bool.false_ne_true (truthful.mpr rfl)

end Bistra
