import Mathlib.Data.List.Perm.Subperm
import Bistra.Program.Preservation

/-! # The place of a loop

A pass that is given a pointer to a loop reaches the scopes around it through `getParent`, and the
statements beside it through their bodies.  A cursor is a loop together with this surrounding: the
scopes around the loop, innermost first, each with the statements before and after.
-/

namespace Bistra

variable {F : Type}

/-- What a scope is besides its body. -/
inductive ScopeHead (F : Type) where
  | loop (header : Loop)
  | ifRange (val : Expr F) (start end_ : Int32)

def ScopeHead.wrap : ScopeHead F → List (Stmt F) → Stmt F
  | .loop header, body => .loop header body
  | .ifRange val start end_, body => .ifRange val start end_ body

/-- The loops that a scope adds to those around it. -/
def ScopeHead.loops : ScopeHead F → List LoopId
  | .loop header => [header.id]
  | .ifRange _ _ _ => []

/-- A scope with a hole in its body. -/
structure OpenScope (F : Type) where
  head : ScopeHead F
  before : List (Stmt F)
  after : List (Stmt F)

/-- The scope with the hole filled. -/
def OpenScope.attach (f : OpenScope F) (hole : List (Stmt F)) : List (Stmt F) :=
  [f.head.wrap (f.before ++ hole ++ f.after)]

/-- The scopes of a path, innermost first, put around a list of statements. -/
def reassemble (path : List (OpenScope F)) (hole : List (Stmt F)) : List (Stmt F) :=
  path.foldl (fun hole f => f.attach hole) hole

/-- A program with a hole in its body or in the body of a scope. -/
structure Place (F : Type) where
  path : List (OpenScope F)
  before : List (Stmt F)
  after : List (Stmt F)

/-- The body of the program with the hole filled. -/
def Place.fill (K : Place F) (hole : List (Stmt F)) : List (Stmt F) :=
  K.before ++ reassemble K.path hole ++ K.after

/-- A loop where it stands in a program. -/
structure Cursor (F : Type) where
  place : Place F
  header : Loop
  body : List (Stmt F)

/-- The body of the program around the loop. -/
def Cursor.content (c : Cursor F) : List (Stmt F) := c.place.fill [.loop c.header c.body]

/-! ## Finding a loop -/

mutual

/-- Finds the loop `L` in a statement below the scopes of `path`. -/
def Stmt.locate (L : LoopId) (path : List (OpenScope F)) :
    Stmt F → Option (List (OpenScope F) × Loop × List (Stmt F))
  | .loop header body =>
    if header.id = L then some (path, header, body)
    else Stmt.locateBody L (.loop header) path [] body
  | .ifRange val start end_ body => Stmt.locateBody L (.ifRange val start end_) path [] body
  | _ => none

def Stmt.locateBody (L : LoopId) (head : ScopeHead F) (path : List (OpenScope F))
    (before : List (Stmt F)) : List (Stmt F) → Option (List (OpenScope F) × Loop × List (Stmt F))
  | [] => none
  | s :: rest =>
    (s.locate L (⟨head, before, rest⟩ :: path)).or
      (Stmt.locateBody L head path (before ++ [s]) rest)

end

/-- Finds the loop in the body of a program, after the statements `before`. -/
def locateProgram (L : LoopId) (before : List (Stmt F)) : List (Stmt F) → Option (Cursor F)
  | [] => none
  | s :: rest =>
    ((s.locate L []).map fun found => ⟨⟨found.1, before, rest⟩, found.2.1, found.2.2⟩).or
      (locateProgram L (before ++ [s]) rest)

/-- The loop `L` where it stands in the program. -/
def Program.locate (p : Program F) (L : LoopId) : Option (Cursor F) := locateProgram L [] p.body

@[simp] theorem reassemble_nil (hole : List (Stmt F)) : reassemble [] hole = hole := rfl

@[simp] theorem reassemble_cons (f : OpenScope F) (path : List (OpenScope F)) (hole : List (Stmt F)) :
    reassemble (f :: path) hole = reassemble path (f.attach hole) := rfl

@[simp] theorem reassemble_append (inner outer : List (OpenScope F)) (hole : List (Stmt F)) :
    reassemble (inner ++ outer) hole = reassemble outer (reassemble inner hole) := by
  simp [reassemble]

theorem Stmt.locateBody_spec {L : LoopId} {head : ScopeHead F} {path : List (OpenScope F)}
    {body : List (Stmt F)} {found : List (OpenScope F) × Loop × List (Stmt F)} :
    ∀ {before : List (Stmt F)}, Stmt.locateBody L head path before body = some found →
      ∃ first s rest, body = first ++ s :: rest ∧
        s.locate L (⟨head, before ++ first, rest⟩ :: path) = some found := by
  induction body with
  | nil => exact nofun
  | cons s rest ih =>
    intro before located
    rw [Stmt.locateBody] at located
    cases here : s.locate L (⟨head, before, rest⟩ :: path) with
    | some found' =>
      rw [here, Option.some_or, Option.some.injEq] at located
      exact ⟨[], s, rest, rfl, by rw [List.append_nil, here, located]⟩
    | none =>
      rw [here, Option.none_or] at located
      obtain ⟨first, t, after, split, located⟩ := ih located
      refine ⟨s :: first, t, after, by rw [split, List.cons_append], ?_⟩
      rwa [List.append_assoc, List.singleton_append] at located

theorem Stmt.locate_spec {L : LoopId} {s : Stmt F} :
    ∀ {path : List (OpenScope F)} {found : List (OpenScope F) × Loop × List (Stmt F)},
      s.locate L path = some found → ∃ inner, found.1 = inner ++ path ∧
        reassemble inner [.loop found.2.1 found.2.2] = [s] ∧ found.2.1.id = L := by
  -- A loop that is found below a statement of the body has the scope around it on its path.
  have below : ∀ {body : List (Stmt F)} {head : ScopeHead F} {path : List (OpenScope F)}
      {found : List (OpenScope F) × Loop × List (Stmt F)},
      (∀ s ∈ body, ∀ {path found}, s.locate L path = some found → ∃ inner,
        found.1 = inner ++ path ∧ reassemble inner [.loop found.2.1 found.2.2] = [s] ∧
          found.2.1.id = L) →
      Stmt.locateBody L head path [] body = some found → ∃ inner, found.1 = inner ++ path ∧
        reassemble inner [.loop found.2.1 found.2.2] = [head.wrap body] ∧ found.2.1.id = L := by
    intro body head path found ih located
    obtain ⟨first, s, rest, split, located⟩ := Stmt.locateBody_spec located
    obtain ⟨inner, path', whole, id⟩ := ih s (by simp [split]) located
    refine ⟨inner ++ [⟨head, first, rest⟩], ?_, ?_, id⟩
    · rw [path', List.append_assoc]
      rfl
    · rw [reassemble_append, whole, split]
      simp [OpenScope.attach]
  induction s using Stmt.inductTree with
  | loop header body ih =>
    intro path found located
    rw [Stmt.locate] at located
    split at located
    -- The loop is the statement itself, so nothing is around it.
    next here =>
      cases located
      exact ⟨[], rfl, rfl, here⟩
    next => exact below ih located
  | ifRange val start end_ body ih =>
    intro path found located
    rw [Stmt.locate] at located
    exact below ih located
  | call | store | storeLocal => exact nofun

theorem Program.locate_spec {p : Program F} {L : LoopId} {c : Cursor F}
    (located : p.locate L = some c) : c.content = p.body ∧ c.header.id = L := by
  have general : ∀ {body before : List (Stmt F)}, locateProgram L before body = some c →
      c.content = before ++ body ∧ c.header.id = L := by
    intro body
    induction body with
    | nil => exact nofun
    | cons s rest ih =>
      intro before located
      rw [locateProgram] at located
      cases here : s.locate L [] with
      | some found =>
        rw [here, Option.map_some, Option.some_or, Option.some.injEq] at located
        obtain ⟨inner, path, whole, id⟩ := Stmt.locate_spec here
        rw [List.append_nil] at path
        subst located
        refine ⟨?_, id⟩
        simp only [Cursor.content, Place.fill, path, whole, List.append_assoc,
          List.singleton_append]
      | none =>
        rw [here, Option.map_none, Option.none_or] at located
        rw [List.append_cons before s rest]
        exact ih located
  exact general located

theorem Stmt.locate_isSome {L : LoopId} {s : Stmt F} : ∀ {path : List (OpenScope F)},
    L ∈ s.collectLoops.map (·.1.id) → (s.locate L path).isSome = true := by
  have below : ∀ {body : List (Stmt F)} {head : ScopeHead F} {path : List (OpenScope F)},
      (∀ s ∈ body, ∀ {path : List (OpenScope F)}, L ∈ s.collectLoops.map (·.1.id) →
        (s.locate L path).isSome = true) →
      L ∈ Stmt.loopIds body → ∀ before,
        (Stmt.locateBody L head path before body).isSome = true := by
    intro body head path
    induction body with
    | nil => simp
    | cons s rest ih =>
      intro each mem before
      rw [Stmt.loopIds_cons, List.mem_append] at mem
      rw [Stmt.locateBody, Option.isSome_or, Bool.or_eq_true]
      cases mem with
      | inl here => exact .inl (each s List.mem_cons_self here)
      | inr later => exact .inr (ih (fun s mem => each s (List.mem_cons_of_mem _ mem)) later _)
  induction s using Stmt.inductTree with
  | loop header body ih =>
    intro path mem
    rw [Stmt.ids_loop] at mem
    rw [Stmt.locate]
    split
    · rfl
    next differs =>
      refine below ih ?_ []
      exact (List.mem_cons.mp mem).resolve_left fun same => differs same.symm
  | ifRange val start end_ body ih =>
    intro path mem
    rw [Stmt.ids_ifRange] at mem
    rw [Stmt.locate]
    exact below ih mem []
  | call | store | storeLocal =>
    intro path mem
    cases mem

theorem Program.locate_isSome {p : Program F} {L : LoopId} (mem : L ∈ Stmt.loopIds p.body) :
    (p.locate L).isSome = true := by
  have general : ∀ {body : List (Stmt F)}, L ∈ Stmt.loopIds body → ∀ before,
      (locateProgram L before body).isSome = true := by
    intro body
    induction body with
    | nil => simp
    | cons s rest ih =>
      intro mem before
      rw [Stmt.loopIds_cons, List.mem_append] at mem
      rw [locateProgram, Option.isSome_or, Option.isSome_map, Bool.or_eq_true]
      cases mem with
      | inl here => exact .inl (Stmt.locate_isSome here)
      | inr later => exact .inr (ih later _)
  exact general mem []

/-! ## The loops around a place -/

def pathLoops (path : List (OpenScope F)) : List LoopId := path.flatMap fun f => f.head.loops

@[simp] theorem pathLoops_nil : pathLoops ([] : List (OpenScope F)) = [] := rfl

@[simp] theorem pathLoops_cons (f : OpenScope F) (path : List (OpenScope F)) :
    pathLoops (f :: path) = f.head.loops ++ pathLoops path := rfl

@[simp] theorem Stmt.loopIds_wrap (head : ScopeHead F) (body : List (Stmt F)) :
    Stmt.loopIds [head.wrap body] = head.loops ++ Stmt.loopIds body := by
  cases head with
  | loop header => exact Stmt.loopIds_loop header body
  | ifRange val start end_ => exact Stmt.loopIds_ifRange val start end_ body

theorem OpenScope.loopIds_attach (f : OpenScope F) (hole : List (Stmt F)) :
    Stmt.loopIds (f.attach hole) =
      f.head.loops ++ (Stmt.loopIds f.before ++ Stmt.loopIds hole ++ Stmt.loopIds f.after) := by
  rw [OpenScope.attach, Stmt.loopIds_wrap, Stmt.loopIds_append, Stmt.loopIds_append]

/-- What is collected from a program, when a scope contributes something of its own, only changes
its order when the contents of a place do. -/
theorem Place.flatMap_perm {β : Type} {f : Stmt F → List β} {own : ScopeHead F → List β}
    (scope : ∀ head body, f (ScopeHead.wrap head body) = own head ++ body.flatMap f)
    {hole hole' : List (Stmt F)} (same : (hole'.flatMap f).Perm (hole.flatMap f)) (K : Place F) :
    ((K.fill hole').flatMap f).Perm ((K.fill hole).flatMap f) := by
  have general : ∀ {path : List (OpenScope F)} {hole hole' : List (Stmt F)},
      (hole'.flatMap f).Perm (hole.flatMap f) →
      ((reassemble path hole').flatMap f).Perm ((reassemble path hole).flatMap f) := by
    intro path
    induction path with
    | nil => exact id
    | cons f path ih =>
      intro hole hole' same
      apply ih
      simp only [OpenScope.attach, List.flatMap_cons, List.flatMap_nil, List.append_nil, scope,
        List.flatMap_append]
      exact ((same.append_left _).append_right _).append_left _
  simp only [Place.fill, List.flatMap_append]
  exact ((general same).append_left _).append_right _

theorem Stmt.loopIds_eq_flatMap (body : List (Stmt F)) :
    Stmt.loopIds body = body.flatMap fun s => s.collectLoops.map (·.1.id) := by
  simp only [Stmt.loopIds, Stmt.collectLoopsBody, List.map_flatMap]

theorem Place.loopIds_perm {K : Place F} {hole hole' : List (Stmt F)}
    (same : (Stmt.loopIds hole').Perm (Stmt.loopIds hole)) :
    (Stmt.loopIds (K.fill hole')).Perm (Stmt.loopIds (K.fill hole)) := by
  simp only [Stmt.loopIds_eq_flatMap] at same ⊢
  have scope : ∀ (head : ScopeHead F) body, (head.wrap body).collectLoops.map (·.1.id) =
      head.loops ++ body.flatMap fun s => s.collectLoops.map (·.1.id) := by
    intro head body
    rw [← Stmt.loopIds_eq_flatMap]
    cases head with
    | loop header => exact Stmt.ids_loop header body
    | ifRange val start end_ => exact Stmt.ids_ifRange val start end_ body
  exact Place.flatMap_perm scope same K

theorem Place.loopIds_subperm (K : Place F) (hole : List (Stmt F)) :
    (pathLoops K.path ++ Stmt.loopIds hole).Subperm (Stmt.loopIds (K.fill hole)) := by
  have general : ∀ {path : List (OpenScope F)} {hole : List (Stmt F)},
      (pathLoops path ++ Stmt.loopIds hole).Subperm (Stmt.loopIds (reassemble path hole)) := by
    intro path
    induction path with
    | nil => exact fun {hole} => List.Subperm.refl _
    | cons f path ih =>
      intro hole
      have inner : (f.head.loops ++ Stmt.loopIds hole).Sublist (Stmt.loopIds (f.attach hole)) := by
        rw [OpenScope.loopIds_attach, List.append_assoc (Stmt.loopIds f.before)]
        apply List.Sublist.append_left
        exact (List.sublist_append_left _ _).trans (List.sublist_append_right _ _)
      have outer : (pathLoops (f :: path) ++ Stmt.loopIds hole).Perm
          (pathLoops path ++ (f.head.loops ++ Stmt.loopIds hole)) := by
        rw [pathLoops_cons, ← List.append_assoc]
        exact List.perm_append_comm.append_right _
      exact outer.subperm.trans ((inner.append_left _).subperm.trans ih)
  simp only [Place.fill, Stmt.loopIds_append]
  apply general.trans
  exact ((List.sublist_append_right _ _).trans (List.sublist_append_left _ _)).subperm

/-! ## Verified places -/

section Verify

variable {decls : Decls} {scope : List LoopId}

theorem OpenScope.verify_attach {f : OpenScope F} {hole : List (Stmt F)} :
    Stmt.verifyBody decls scope (f.attach hole) = true ↔
      Stmt.verifyBody decls scope (f.attach []) = true ∧
        Stmt.verifyBody decls (f.head.loops ++ scope) hole = true := by
  obtain ⟨head, before, after⟩ := f
  cases head with
  | loop header =>
    simp only [OpenScope.attach, ScopeHead.wrap, ScopeHead.loops, Stmt.verifyBody_eq, List.all_cons,
      List.all_nil, List.all_append, Stmt.verify, Bool.and_eq_true, List.cons_append,
      List.nil_append]
    tauto
  | ifRange val start end_ =>
    simp only [OpenScope.attach, ScopeHead.wrap, ScopeHead.loops, Stmt.verifyBody_eq, List.all_cons,
      List.all_nil, List.all_append, Stmt.verify, Bool.and_eq_true, List.nil_append]
    tauto

theorem Place.verify_fill {K : Place F} {hole : List (Stmt F)} :
    Stmt.verifyBody decls [] (K.fill hole) = true ↔
      Stmt.verifyBody decls [] (K.fill []) = true ∧
        Stmt.verifyBody decls (pathLoops K.path) hole = true := by
  have general : ∀ {path : List (OpenScope F)} {hole : List (Stmt F)},
      Stmt.verifyBody decls [] (reassemble path hole) = true ↔
        Stmt.verifyBody decls [] (reassemble path []) = true ∧
          Stmt.verifyBody decls (pathLoops path) hole = true := by
    intro path
    induction path with
    | nil => simp
    | cons f path ih =>
      intro hole
      have filled := @ih (f.attach hole)
      have empty := @ih (f.attach [])
      rw [OpenScope.verify_attach] at filled
      rw [reassemble_cons, reassemble_cons, pathLoops_cons]
      tauto
  obtain ⟨path, before, after⟩ := K
  have inner := @general path hole
  simp only [Place.fill, Stmt.verifyBody_eq, List.all_append, Bool.and_eq_true] at inner ⊢
  tauto

/-- A program in which the contents of a place have been replaced. -/
theorem Program.verify_fill {p : Program F} (verified : p.verify = true) {K : Place F}
    {hole hole' : List (Stmt F)} (content : p.body = K.fill hole)
    (kept : Stmt.verifyBody p.decls (pathLoops K.path) hole = true →
      Stmt.verifyBody p.decls (pathLoops K.path) hole' = true)
    (loops : (Stmt.loopIds hole').Perm (Stmt.loopIds hole)) :
    ({ p with body := K.fill hole' } : Program F).verify = true := by
  simp only [Program.verify, Bool.and_eq_true, decide_eq_true_eq] at verified ⊢
  obtain ⟨⟨names, body⟩, nodup⟩ := verified
  rw [content] at body nodup
  obtain ⟨around, inside⟩ := Place.verify_fill.mp body
  exact ⟨⟨names, Place.verify_fill.mpr ⟨around, kept inside⟩⟩,
    (Place.loopIds_perm loops).nodup_iff.mpr nodup⟩

theorem Program.nodup_fill {p : Program F} (verified : p.verify = true) {K : Place F}
    {hole : List (Stmt F)} (content : p.body = K.fill hole) :
    (pathLoops K.path ++ Stmt.loopIds hole).Nodup := by
  obtain ⟨loops, perm, sub⟩ := K.loopIds_subperm hole
  rw [← perm.nodup_iff]
  exact (content ▸ Program.nodup_loopIds verified).sublist sub

end Verify

end Bistra
