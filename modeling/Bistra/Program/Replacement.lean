import Bistra.Program.Cursor

/-! # Replacing a loop

What `insertBeforeStmt` and `removeStmt` do to the scopes around a loop.  The relation gives one
case for the body that the loop is in and one for the scopes above it, and every property of a
replacement is proved along them.
-/

namespace Bistra

variable {F : Type}

/-- `body'` is `body` with `pieces` in the place of one statement `target`.  The body is in the loops
`scope`, and the statement is in the loops `inner`. -/
inductive Replaces (target : Stmt F) (pieces : List (Stmt F)) (inner : List LoopId) :
    List LoopId → List (Stmt F) → List (Stmt F) → Prop where
  | here (before after : List (Stmt F)) :
    Replaces target pieces inner inner (before ++ target :: after) (before ++ (pieces ++ after))
  | within (head : ScopeHead F) (before after : List (Stmt F)) {scope : List LoopId}
      {body body' : List (Stmt F)} :
    Replaces target pieces inner (head.loops ++ scope) body body' →
      Replaces target pieces inner scope (before ++ head.wrap body :: after)
        (before ++ head.wrap body' :: after)

variable {target : Stmt F} {pieces : List (Stmt F)} {inner scope : List LoopId}
  {body body' : List (Stmt F)}

theorem Replaces.frame (replaced : Replaces target pieces inner scope body body')
    (front back : List (Stmt F)) :
    Replaces target pieces inner scope (front ++ body ++ back) (front ++ body' ++ back) := by
  cases replaced with
  | here before after => simpa using Replaces.here (front ++ before) (after ++ back)
  | within head before after below =>
    simpa using Replaces.within head (front ++ before) (after ++ back) below

theorem Replaces.attach {f : OpenScope F}
    (replaced : Replaces target pieces inner (f.head.loops ++ scope) body body') :
    Replaces target pieces inner scope (f.attach body) (f.attach body') :=
  Replaces.within f.head [] [] (replaced.frame f.before f.after)

theorem Replaces.fill {K : Place F}
    (replaced : Replaces target pieces inner (pathLoops K.path) body body') :
    Replaces target pieces inner [] (K.fill body) (K.fill body') := by
  have general : ∀ {path : List (OpenScope F)} {body body' : List (Stmt F)},
      Replaces target pieces inner (pathLoops path) body body' →
      Replaces target pieces inner [] (reassemble path body) (reassemble path body') := by
    intro path
    induction path with
    | nil => exact id
    | cons f path ih =>
      intro body body' replaced
      exact ih (Replaces.attach replaced)
  exact (general replaced).frame K.before K.after

/-! ## `substLoop` -/

theorem Stmt.replaces_substLoopBody {f : Loop → List (Stmt F) → List (Stmt F)} {header : Loop}
    {content : List (Stmt F)}
    (each : ∀ s ∈ body, (header, content) ∈ s.collectLoops →
      (s.collectLoops.map (·.1.id)).Nodup → ∀ scope, ∃ inner,
        Replaces (.loop header content) (f header content) inner scope [s]
          (s.substLoop header.id f))
    (nodup : (Stmt.loopIds body).Nodup) (mem : (header, content) ∈ Stmt.collectLoopsBody body)
    (scope : List LoopId) : ∃ inner, Replaces (.loop header content) (f header content) inner scope
      body (body.flatMap (Stmt.substLoop header.id f)) := by
  obtain ⟨s, memBody, memLoop⟩ := List.mem_flatMap.mp mem
  obtain ⟨front, back, rfl⟩ := List.append_of_mem memBody
  simp only [Stmt.loopIds_append, Stmt.loopIds_cons] at nodup
  have hit : header.id ∈ s.collectLoops.map (·.1.id) :=
    List.mem_map_of_mem (f := fun loop : Loop × List (Stmt F) => loop.1.id) memLoop
  obtain ⟨-, nodupRest, apart⟩ := List.nodup_append.mp nodup
  obtain ⟨nodupS, -, apartBack⟩ := List.nodup_append.mp nodupRest
  -- The loop occurs once, so the other statements of the body stay.
  have absentFront : header.id ∉ Stmt.loopIds front := fun clash =>
    apart _ clash _ (List.mem_append_left _ hit) rfl
  have absentBack : header.id ∉ Stmt.loopIds back := fun clash => apartBack _ hit _ clash rfl
  obtain ⟨inner, replaced⟩ := each s memBody memLoop nodupS scope
  refine ⟨inner, ?_⟩
  rw [List.flatMap_append, List.flatMap_cons, Stmt.substLoopBody_of_not_mem absentFront,
    Stmt.substLoopBody_of_not_mem absentBack]
  simpa using replaced.frame front back

theorem Stmt.replaces_substLoop {f : Loop → List (Stmt F) → List (Stmt F)} {header : Loop}
    {content : List (Stmt F)} {s : Stmt F} (nodup : (s.collectLoops.map (·.1.id)).Nodup)
    (mem : (header, content) ∈ s.collectLoops) : ∀ scope, ∃ inner,
      Replaces (.loop header content) (f header content) inner scope [s]
        (s.substLoop header.id f) := by
  induction s using Stmt.inductTree with
  | loop head body ih =>
    intro scope
    rw [Stmt.ids_loop] at nodup
    obtain ⟨outside, nodup⟩ := List.nodup_cons.mp nodup
    rw [Stmt.collectLoops_loop] at mem
    rw [Stmt.substLoop]
    cases List.mem_cons.mp mem with
    | inl same =>
      cases same
      rw [if_pos rfl]
      exact ⟨scope, by simpa using @Replaces.here F _ _ scope [] []⟩
    | inr below =>
      have miss : head.id ≠ header.id := by
        intro same
        apply outside
        rw [same]
        exact List.mem_map_of_mem (f := fun loop : Loop × List (Stmt F) => loop.1.id) below
      obtain ⟨inner, replaced⟩ := Stmt.replaces_substLoopBody
        (fun s memS memLoop nodupS => ih s memS nodupS memLoop) nodup below (head.id :: scope)
      rw [if_neg miss, Stmt.substLoopBody_eq]
      exact ⟨inner, Replaces.within (.loop head) [] [] replaced⟩
  | ifRange val start end_ body ih =>
    intro scope
    rw [Stmt.ids_ifRange] at nodup
    rw [Stmt.collectLoops_ifRange] at mem
    obtain ⟨inner, replaced⟩ := Stmt.replaces_substLoopBody
      (fun s memS memLoop nodupS => ih s memS nodupS memLoop) nodup mem scope
    rw [Stmt.substLoop, Stmt.substLoopBody_eq]
    exact ⟨inner, Replaces.within (.ifRange val start end_) [] [] replaced⟩
  | call | store | storeLocal => cases mem

/-- `substLoop` replaces the loop. -/
theorem Stmt.replaces_body {f : Loop → List (Stmt F) → List (Stmt F)} {header : Loop}
    {content : List (Stmt F)} (nodup : (Stmt.loopIds body).Nodup)
    (mem : (header, content) ∈ Stmt.collectLoopsBody body) (scope : List LoopId) :
    ∃ inner, Replaces (.loop header content) (f header content) inner scope body
      (Stmt.substLoopBody header.id f body) := by
  rw [Stmt.substLoopBody_eq]
  exact Stmt.replaces_substLoopBody
    (fun s _ memLoop nodupS => Stmt.replaces_substLoop nodupS memLoop) nodup mem scope

/-! ## What a replacement keeps -/

/-- What `m` says about a body comes from what it says about the parts of the body. -/
structure Compositional {β : Type} (m : List LoopId → List (Stmt F) → β) : Prop where
  append : ∀ {scope : List LoopId} {body body' : List (Stmt F)} (before after : List (Stmt F)),
    m scope body' = m scope body →
      m scope (before ++ (body' ++ after)) = m scope (before ++ (body ++ after))
  wrap : ∀ {scope : List LoopId} {body body' : List (Stmt F)} (head : ScopeHead F),
    m (head.loops ++ scope) body' = m (head.loops ++ scope) body →
      m scope [head.wrap body'] = m scope [head.wrap body]

theorem compositional_verifyBody (decls : Decls) :
    Compositional (F := F) (Stmt.verifyBody decls) where
  append before after same := by
    simp only [Stmt.verifyBody_eq, List.all_append] at same ⊢
    rw [same]
  wrap head same := by
    cases head with
    | loop header =>
      simp only [ScopeHead.wrap, Stmt.verifyBody, Stmt.verify]
      exact congrArg (header.verify && · && true) same
    | ifRange val start end_ =>
      simp only [ScopeHead.wrap, Stmt.verifyBody, Stmt.verify]
      exact congrArg (decide (start ≤ end_) && val.verify decls _ && · && true) same

theorem ScopeHead.verify_wrap {decls : Decls} {head : ScopeHead F} :
    (head.wrap body).verify decls scope = true ↔
      (head.wrap []).verify decls scope = true ∧
        Stmt.verifyBody decls (head.loops ++ scope) body = true := by
  cases head <;> simp [ScopeHead.wrap, ScopeHead.loops, Stmt.verify]

theorem Replaces.verify_target {decls : Decls}
    (replaced : Replaces target pieces inner scope body body')
    (verified : Stmt.verifyBody decls scope body = true) : target.verify decls inner = true := by
  induction replaced with
  | here before after =>
    rw [Stmt.verifyBody_eq, List.all_append, List.all_cons, Bool.and_eq_true,
      Bool.and_eq_true] at verified
    exact verified.2.1
  | within head before after below ih =>
    rw [Stmt.verifyBody_eq, List.all_append, List.all_cons, Bool.and_eq_true,
      Bool.and_eq_true] at verified
    exact ih (ScopeHead.verify_wrap.mp verified.2.1).2

theorem Replaces.congr {β : Type} {m : List LoopId → List (Stmt F) → β} (parts : Compositional m)
    (replaced : Replaces target pieces inner scope body body')
    (same : m inner pieces = m inner [target]) : m scope body' = m scope body := by
  induction replaced with
  | here before after => exact parts.append before after same
  | within head before after below ih => exact parts.append before after (parts.wrap head ih)

theorem Replaces.verify {decls : Decls}
    (replaced : Replaces target pieces inner scope body body')
    (kept : Stmt.verifyBody decls inner pieces = true)
    (verified : Stmt.verifyBody decls scope body = true) :
    Stmt.verifyBody decls scope body' = true := by
  have targetVerified := replaced.verify_target verified
  rw [replaced.congr (compositional_verifyBody decls), verified]
  rw [kept, Stmt.verifyBody, targetVerified]
  rfl

theorem ScopeHead.loopIds_wrap_cons (head : ScopeHead F) (body after : List (Stmt F)) :
    Stmt.loopIds (head.wrap body :: after) =
      head.loops ++ (Stmt.loopIds body ++ Stmt.loopIds after) := by
  rw [← List.singleton_append, Stmt.loopIds_append, Stmt.loopIds_wrap, List.append_assoc]

theorem Replaces.inner_subset (replaced : Replaces target pieces inner scope body body') :
    ∀ L ∈ inner, L ∈ scope ∨ L ∈ Stmt.loopIds body := by
  induction replaced with
  | here before after => exact fun L mem => .inl mem
  | within head before after below ih =>
    intro L mem
    have found := ih L mem
    simp only [Stmt.loopIds_append, ScopeHead.loopIds_wrap_cons, List.mem_append] at found ⊢
    tauto

theorem Replaces.loopIds (replaced : Replaces target pieces inner scope body body') :
    ∃ before after, Stmt.loopIds body = before ++ (target.collectLoops.map (·.1.id) ++ after) ∧
      Stmt.loopIds body' = before ++ (Stmt.loopIds pieces ++ after) := by
  induction replaced with
  | here before after =>
    exact ⟨Stmt.loopIds before, Stmt.loopIds after, by simp, by simp⟩
  | within head before after below ih =>
    obtain ⟨first, rest, old, new⟩ := ih
    refine ⟨Stmt.loopIds before ++ (head.loops ++ first), rest ++ Stmt.loopIds after, ?_, ?_⟩
    · rw [Stmt.loopIds_append, ScopeHead.loopIds_wrap_cons, old]
      simp
    · rw [Stmt.loopIds_append, ScopeHead.loopIds_wrap_cons, new]
      simp

/-- A program in which a statement has been replaced is verified when the new statements are, and
bring no loop that the program has. -/
theorem Replaces.verify_program {p : Program F} (verified : p.verify = true)
    (replaced : Replaces target pieces inner [] p.body body')
    (kept : Stmt.verifyBody p.decls inner pieces = true) (nodup : (Stmt.loopIds pieces).Nodup)
    (fresh : ∀ K ∈ Stmt.loopIds pieces, K ∉ Stmt.loopIds p.body) :
    ({ p with body := body' } : Program F).verify = true := by
  obtain ⟨before, after, old, new⟩ := replaced.loopIds
  have ids := Program.nodup_loopIds verified
  simp only [Program.verify, Bool.and_eq_true, decide_eq_true_eq] at verified ⊢
  refine ⟨⟨verified.1.1, replaced.verify kept verified.1.2⟩, ?_⟩
  rw [old] at ids fresh
  rw [new]
  simp only [List.mem_append, not_or] at fresh
  simp only [List.nodup_append, List.mem_append] at ids ⊢
  obtain ⟨nodupBefore, ⟨-, nodupAfter, -⟩, apart⟩ := ids
  refine ⟨nodupBefore, ⟨nodup, nodupAfter, ?_⟩, ?_⟩
  · exact fun K memK K' memK' same => (fresh K memK).2.2 (same ▸ memK')
  · intro K memK K' memK' same
    cases memK' with
    | inl piece => exact (fresh K' piece).1 (same ▸ memK)
    | inr memAfter => exact apart K memK K' (.inr memAfter) same

end Bistra
