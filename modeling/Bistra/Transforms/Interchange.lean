import Mathlib.Algebra.Order.Field.Rat
import Mathlib.Data.List.TakeWhile
import Mathlib.Logic.Relation
import Bistra.Semantics.Instances

/-! # Loop interchange

`hoist` and `sink` of `Transforms.cpp`: a loop changes places with the scope around it as long as it
is the only statement of that scope.
-/

namespace Bistra

variable {F : Type}

/-- The loop is the only statement of the scope. -/
def OpenScope.isOnly (f : OpenScope F) : Bool := f.before.isEmpty && f.after.isEmpty

/-- `hoist`, where the loop stands. -/
def Cursor.hoist : Nat → Cursor F → Cursor F × Bool
  | 0, c => (c, false)
  | levels + 1, c =>
    match c.place.path with
    -- the parent is the program, which no handle owns
    | [] => (c, false)
    | parent :: path =>
      if parent.isOnly then
        -- the parent takes the content of the loop, the loop takes the parent
        let swapped : Cursor F :=
          ⟨{ c.place with path := path }, c.header, [parent.head.wrap c.body]⟩
        ((swapped.hoist levels).1, true)
      else (c, false)

/-- The inner loop, when it is the only statement of the loop. -/
def Cursor.inner (c : Cursor F) : Option (Cursor F) :=
  match c.body with
  | [.loop header body] =>
    some ⟨{ c.place with path := ⟨.loop c.header, [], []⟩ :: c.place.path }, header, body⟩
  | _ => none

/-- `sink`, where the loop stands. -/
def Cursor.sink : Nat → Cursor F → Cursor F × Bool
  | 0, c => (c, false)
  | levels + 1, c =>
    match c.inner with
    | none => (c, false)
    | some inner =>
      match inner.hoist 1 with
      | (_, false) => (c, false)
      | (hoisted, true) =>
        -- the loop is now the only statement of the loop that was inside it
        ((hoisted.inner.map fun sunk => (sunk.sink levels).1).getD hoisted, true)

/-- Changes the program around the loop `L`. -/
def Program.edit (p : Program F) (L : LoopId) (f : Cursor F → Cursor F × Bool) :
    Program F × Bool :=
  match p.locate L with
  | some c => ({ p with body := (f c).1.content }, (f c).2)
  | none => (p, false)

def hoist (p : Program F) (L : LoopId) (levels : UInt32) : Program F × Bool :=
  p.edit L (Cursor.hoist levels.toNat)

def sink (p : Program F) (L : LoopId) (levels : UInt32) : Program F × Bool :=
  p.edit L (Cursor.sink levels.toNat)

/-! ## How far a loop moves -/

/-- Scopes put around a list of statements, innermost first. -/
def wrapAll (heads : List (ScopeHead F)) (body : List (Stmt F)) : List (Stmt F) :=
  heads.foldl (fun body head => [head.wrap body]) body

/-- The scopes around the loop that have no other statement. -/
def Cursor.onlyScopes (c : Cursor F) : List (ScopeHead F) :=
  (c.place.path.takeWhile OpenScope.isOnly).map (·.head)

/-- The number of levels that a loop can be moved up. -/
def Cursor.hoistable (c : Cursor F) : Nat := c.onlyScopes.length

mutual

/-- The loops of a nest, from the statement down, as long as one is the only statement of the one
around it. -/
def Stmt.nestDepth : Stmt F → Nat
  | .loop _ body => Stmt.nestDepthBody body + 1
  | _ => 0

def Stmt.nestDepthBody : List (Stmt F) → Nat
  | [] => 0
  | s :: rest => if rest.isEmpty then s.nestDepth else 0

end

/-- The number of levels that a loop can be moved down. -/
def Cursor.sinkable (c : Cursor F) : Nat := Stmt.nestDepthBody c.body

/-- The loop `k` levels further up. -/
def Cursor.moveUp (k : Nat) (c : Cursor F) : Cursor F where
  place := { c.place with path := c.place.path.drop k }
  header := c.header
  body := wrapAll ((c.place.path.take k).map (·.head)) c.body

theorem Cursor.hoist_eq (levels : Nat) (c : Cursor F) :
    c.hoist levels =
      (c.moveUp (min levels c.hoistable), decide (0 < min levels c.hoistable)) := by
  induction levels generalizing c with
  | zero => simp [Cursor.hoist, Cursor.moveUp, wrapAll]
  | succ levels ih =>
    obtain ⟨⟨path, before, after⟩, header, body⟩ := c
    cases path with
    | nil => simp [Cursor.hoist, Cursor.moveUp, Cursor.hoistable, Cursor.onlyScopes, wrapAll]
    | cons parent path =>
      cases only : parent.isOnly with
      | false =>
        simp [Cursor.hoist, Cursor.moveUp, Cursor.hoistable, Cursor.onlyScopes, wrapAll, only]
      | true =>
        simp only [Cursor.hoist, only, if_true, ih]
        simp [Cursor.moveUp, Cursor.hoistable, Cursor.onlyScopes, wrapAll, only]

@[simp] theorem wrapAll_append (inner outer : List (ScopeHead F)) (body : List (Stmt F)) :
    wrapAll (inner ++ outer) body = wrapAll outer (wrapAll inner body) := by
  simp [wrapAll]

theorem Cursor.moveUp_zero (c : Cursor F) : c.moveUp 0 = c := rfl

theorem Cursor.moveUp_add (c : Cursor F) (k j : Nat) :
    c.moveUp (k + j) = (c.moveUp k).moveUp j := by
  simp only [Cursor.moveUp, List.drop_drop, List.take_add, List.map_append, wrapAll_append]

theorem Cursor.hoistable_moveUp {c : Cursor F} {k : Nat} (within : k ≤ c.hoistable) :
    (c.moveUp k).hoistable = c.hoistable - k := by
  have general : ∀ {path : List (OpenScope F)} {k : Nat},
      k ≤ (path.takeWhile OpenScope.isOnly).length →
      ((path.drop k).takeWhile OpenScope.isOnly).length =
        (path.takeWhile OpenScope.isOnly).length - k := by
    intro path
    induction path with
    | nil => simp
    | cons f path ih =>
      intro k within
      cases k with
      | zero => rfl
      | succ k =>
        cases only : f.isOnly with
        | false => simp [only] at within
        | true =>
          simp only [List.takeWhile_cons, only, if_true, List.length_cons] at within ⊢
          rw [List.drop_succ_cons, ih (by omega)]
          omega
  simp only [Cursor.hoistable, Cursor.onlyScopes, List.length_map] at within ⊢
  exact general within

theorem reassemble_only {path : List (OpenScope F)} (only : ∀ f ∈ path, f.isOnly = true)
    (hole : List (Stmt F)) : reassemble path hole = wrapAll (path.map (·.head)) hole := by
  induction path generalizing hole with
  | nil => rfl
  | cons f path ih =>
    have here := only f List.mem_cons_self
    simp only [OpenScope.isOnly, Bool.and_eq_true, List.isEmpty_iff] at here
    have attach : f.attach hole = [f.head.wrap hole] := by
      rw [OpenScope.attach, here.1, here.2, List.nil_append, List.append_nil]
    rw [reassemble_cons, ih fun f mem => only f (List.mem_cons_of_mem _ mem), attach]
    rfl

/-- The program around a loop, as a place further up and the scopes below it. -/
theorem Cursor.content_eq {c : Cursor F} {k : Nat} (within : k ≤ c.hoistable) :
    c.content = (c.moveUp k).place.fill
      (wrapAll ((c.place.path.take k).map (·.head)) [.loop c.header c.body]) := by
  have only : ∀ f ∈ c.place.path.take k, f.isOnly = true := by
    intro f mem
    simp only [Cursor.hoistable, Cursor.onlyScopes, List.length_map] at within
    rw [← List.takeWhile_append_dropWhile (p := OpenScope.isOnly) (l := c.place.path),
      List.take_append_of_le_length within] at mem
    exact List.mem_takeWhile_imp (List.mem_of_mem_take mem)
  have split := reassemble_append (c.place.path.take k) (c.place.path.drop k)
    [.loop c.header c.body]
  rw [List.take_append_drop, reassemble_only only] at split
  simp only [Cursor.content, Place.fill, Cursor.moveUp, split]

theorem Cursor.inner_eq_some {c inner : Cursor F} (some : c.inner = some inner) :
    ∃ header body, c.body = [.loop header body] ∧
      inner = ⟨{ c.place with path := ⟨.loop c.header, [], []⟩ :: c.place.path }, header, body⟩ := by
  rw [Cursor.inner] at some
  split at some
  next header body only => exact ⟨header, body, only, (Option.some.inj some).symm⟩
  next => cases some

theorem Cursor.inner_eq_none {c : Cursor F} (none : c.inner = none) : c.sinkable = 0 := by
  obtain ⟨place, header, body⟩ := c
  simp only [Cursor.inner] at none
  split at none
  next => cases none
  next other =>
    match body with
    | [] => rfl
    | [s] =>
      cases s with
      | loop inner rest => exact (other inner rest rfl).elim
      | ifRange | call | store | storeLocal => rfl
    | _ :: _ :: _ => rfl

theorem Cursor.sink_succ {c : Cursor F} {first : Loop} {rest : List (Stmt F)}
    (body : c.body = [.loop first rest]) (levels : Nat) :
    c.sink (levels + 1) = ((Cursor.sink levels
      ⟨{ c.place with path := ⟨.loop first, [], []⟩ :: c.place.path }, c.header, rest⟩).1, true) := by
  have inside : c.inner = some
      ⟨{ c.place with path := ⟨.loop c.header, [], []⟩ :: c.place.path }, first, rest⟩ := by
    rw [Cursor.inner, body]
  rw [Cursor.sink, inside]
  rfl

/-- Sinking a loop is the inverse of hoisting it as many levels. -/
theorem Cursor.sink_spec (levels : Nat) (c : Cursor F) :
    ∃ sunk, c.sink levels = (sunk, decide (0 < min levels c.sinkable)) ∧
      sunk.moveUp (min levels c.sinkable) = c ∧ min levels c.sinkable ≤ sunk.hoistable := by
  induction levels generalizing c with
  | zero => exact ⟨c, by simp [Cursor.sink], by simp [Cursor.moveUp_zero], by simp⟩
  | succ levels ih =>
    cases inside : c.inner with
    | none =>
      rw [Cursor.inner_eq_none inside, Nat.min_zero]
      exact ⟨c, by simp [Cursor.sink, inside], Cursor.moveUp_zero c, Nat.zero_le _⟩
    | some inner =>
      obtain ⟨first, rest, body, rfl⟩ := Cursor.inner_eq_some inside
      -- the loop below the loop that was inside it
      let next : Cursor F :=
        ⟨{ c.place with path := ⟨.loop first, [], []⟩ :: c.place.path }, c.header, rest⟩
      obtain ⟨sunk, ran, up, within⟩ := ih next
      have depth : min (levels + 1) c.sinkable = min levels next.sinkable + 1 := by
        simp only [Cursor.sinkable, body, Stmt.nestDepthBody, Stmt.nestDepth, List.isEmpty_nil,
          if_true, next, Nat.succ_min_succ]
      have onlyNext : 1 ≤ next.hoistable := by
        simp [next, Cursor.hoistable, Cursor.onlyScopes, OpenScope.isOnly]
      have back : next.moveUp 1 = c := by
        simp only [next, Cursor.moveUp, List.drop_succ_cons, List.drop_zero, List.take_succ_cons,
          List.take_zero, List.map_cons, List.map_nil, wrapAll, List.foldl_cons, List.foldl_nil,
          ScopeHead.wrap, ← body]
      have left := Cursor.hoistable_moveUp within
      rw [up] at left
      refine ⟨sunk, ?_, ?_, ?_⟩
      · simp only [Cursor.sink_succ body, depth, Nat.zero_lt_succ, decide_true]
        exact congrArg (·.1, true) ran
      · rw [depth, Cursor.moveUp_add, up, back]
      · omega

/-! ## What interchange keeps -/

section Interchange

variable {p p' : Program F} {K : Place F} {head : ScopeHead F} {header : Loop}
  {body : List (Stmt F)}

theorem Program.verify_interchange (verified : p.verify = true)
    (content : p.body = K.fill [head.wrap [.loop header body]]) :
    ({ p with body := K.fill [.loop header [head.wrap body]] } : Program F).verify = true := by
  apply Program.verify_fill verified content
  · intro inside
    cases head with
    | loop outer =>
      simp only [ScopeHead.wrap, Stmt.verifyBody_eq, List.all_cons, List.all_nil, Bool.and_true,
        Stmt.verify, Bool.and_eq_true, List.all_eq_true] at inside ⊢
      refine ⟨inside.2.1, inside.1, fun s mem => ?_⟩
      apply Stmt.verify_extends List.prefix_rfl List.prefix_rfl _ (inside.2.2 s mem)
      exact (List.Perm.swap _ _ _).subset
    | ifRange val start end_ =>
      simp only [ScopeHead.wrap, Stmt.verifyBody_eq, List.all_cons, List.all_nil, Bool.and_true,
        Stmt.verify, Bool.and_eq_true, List.all_eq_true] at inside ⊢
      have guard := Expr.verify_extends List.prefix_rfl List.prefix_rfl
        (List.subset_cons_self header.id _) inside.1.2
      exact ⟨inside.2.1, ⟨inside.1.1, guard⟩, inside.2.2⟩
  · rw [Stmt.loopIds_loop, Stmt.loopIds_wrap, Stmt.loopIds_wrap, Stmt.loopIds_loop]
    exact List.perm_middle.symm

theorem Place.flatMap_interchange {β : Type} {f : Stmt F → List β} {own : ScopeHead F → List β}
    (scope : ∀ head body, f (ScopeHead.wrap head body) = own head ++ body.flatMap f) :
    ((K.fill [.loop header [head.wrap body]]).flatMap f).Perm
      ((K.fill [head.wrap [.loop header body]]).flatMap f) := by
  apply Place.flatMap_perm scope
  have loop := fun body => scope (.loop header) body
  simp only [ScopeHead.wrap] at loop
  simp only [List.flatMap_cons, List.flatMap_nil, List.append_nil, loop, scope]
  rw [← List.append_assoc, ← List.append_assoc]
  exact List.perm_append_comm.append_right _

/-- The guards that a scope adds to those in its body. -/
def ScopeHead.guards : ScopeHead F → List (Expr F × Int32 × Int32)
  | .loop _ => []
  | .ifRange val start end_ => [(val, start, end_)]

theorem Program.fixedGuards_interchange (fixed : p.fixedGuards = true)
    (content : p.body = K.fill [head.wrap [.loop header body]]) :
    ({ p with body := K.fill [.loop header [head.wrap body]] } : Program F).fixedGuards = true := by
  have guards : ∀ (head : ScopeHead F) body, (head.wrap body).collectIfs =
      head.guards ++ body.flatMap Stmt.collectIfs := by
    intro head body
    cases head with
    | loop header => exact Stmt.collectIfs_loop header body
    | ifRange val start end_ => exact Stmt.collectIfs_ifRange val start end_ body
  have stores : ∀ (head : ScopeHead F) body, (head.wrap body).argsWritten =
      [] ++ body.flatMap Stmt.argsWritten := by
    intro head body
    cases head with
    | loop header => exact Stmt.argsWritten_loop header body
    | ifRange val start end_ => exact Stmt.argsWritten_ifRange val start end_ body
  have sets : ∀ (head : ScopeHead F) body, (head.wrap body).varsWritten =
      [] ++ body.flatMap Stmt.varsWritten := by
    intro head body
    cases head with
    | loop header => exact Stmt.varsWritten_loop header body
    | ifRange val start end_ => exact Stmt.varsWritten_ifRange val start end_ body
  simp only [Program.fixedGuards, content, List.all_eq_true, Expr.avoids, Bool.and_eq_true,
    decide_eq_true_eq, (Place.flatMap_interchange guards).mem_iff,
    (Place.flatMap_interchange stores).mem_iff, (Place.flatMap_interchange sets).mem_iff] at fixed ⊢
  exact fixed

variable [Field F] [LinearOrder F]

/-- The program executes the same instances of statements, from every state. -/
def SameInstances (p p' : Program F) : Prop :=
  ∀ (M : Machine F) (st : State F),
    ((p'.trace M st).map Event.referred).Perm ((p.trace M st).map Event.referred)

theorem Program.sameInstances_interchange (verified : p.verify = true) (fixed : p.fixedGuards = true)
    (content : p.body = K.fill [head.wrap [.loop header body]]) :
    SameInstances p { p with body := K.fill [.loop header [head.wrap body]] } := by
  intro M st
  have inside : Stmt.verifyBody p.decls (pathLoops K.path) [head.wrap [.loop header body]] = true :=
    (Place.verify_fill.mp (content ▸ (by
      simp only [Program.verify, Bool.and_eq_true] at verified
      exact verified.1.2))).2
  have inner : header.id ∉ head.loops ++ pathLoops K.path := by
    have nodup := Program.nodup_fill verified content
    rw [Stmt.loopIds_wrap, Stmt.loopIds_loop, ← List.append_assoc] at nodup
    have apart := (List.nodup_append.mp nodup).2.2
    intro mem
    refine apart header.id ?_ header.id List.mem_cons_self rfl
    exact List.perm_append_comm.mem_iff.mp mem
  rw [Program.trace_referred (Program.verify_interchange verified content)
    (Program.fixedGuards_interchange fixed content), Program.trace_referred verified fixed, content]
  exact Place.instances_perm (fun env => ScopeHead.instances_interchange inside inner st env) _

end Interchange

/-! ## Runs of `hoist` and `sink` -/

/-- One loop has changed places with the scope around it. -/
def Interchanged (p p' : Program F) : Prop :=
  ∃ (K : Place F) (head : ScopeHead F) (header : Loop) (body : List (Stmt F)),
    p.body = K.fill [head.wrap [.loop header body]] ∧
      p' = { p with body := K.fill [.loop header [head.wrap body]] }

/-- The loop `L` has left the scopes `heads`, innermost first, and is now around them. -/
def MovedOut (p : Program F) (L : LoopId) (heads : List (ScopeHead F)) (p' : Program F) : Prop :=
  ∃ (K : Place F) (header : Loop) (body : List (Stmt F)), header.id = L ∧
    p.body = K.fill (wrapAll heads [.loop header body]) ∧
      p' = { p with body := K.fill [.loop header (wrapAll heads body)] }

section Runs

variable {p : Program F} {L : LoopId} {c : Cursor F}

theorem Cursor.moveUp_interchanged (p : Program F) {k : Nat} (within : k ≤ c.hoistable) :
    Relation.ReflTransGen Interchanged { p with body := c.content }
      { p with body := (c.moveUp k).content } := by
  induction k with
  | zero => exact .refl
  | succ k ih =>
    apply (ih (Nat.le_of_succ_le within)).tail
    have left := Cursor.hoistable_moveUp (Nat.le_of_succ_le within)
    have content := Cursor.content_eq (c := c.moveUp k) (k := 1) (by omega)
    rw [Cursor.moveUp_add]
    generalize c.moveUp k = d at left content ⊢
    obtain ⟨⟨path, before, after⟩, header, body⟩ := d
    cases path with
    | nil =>
      simp only [Cursor.hoistable, Cursor.onlyScopes, List.takeWhile_nil, List.map_nil,
        List.length_nil] at left within
      omega
    | cons parent path => exact ⟨⟨path, before, after⟩, parent.head, header, body, content, rfl⟩

theorem Cursor.sink_interchanged (p : Program F) (levels : Nat) (c : Cursor F) :
    Relation.ReflTransGen Interchanged { p with body := c.content }
      { p with body := (c.sink levels).1.content } := by
  induction levels generalizing c with
  | zero => exact .refl
  | succ levels ih =>
    cases inside : c.inner with
    | none =>
      simp only [Cursor.sink, inside]
      exact .refl
    | some inner =>
      obtain ⟨first, rest, body, rfl⟩ := Cursor.inner_eq_some inside
      rw [Cursor.sink_succ body]
      apply Relation.ReflTransGen.head _ (ih _)
      refine ⟨c.place, .loop c.header, first, rest, ?_, rfl⟩
      simp only [Cursor.content, body, ScopeHead.wrap]

theorem Cursor.movedOut (p : Program F) {k : Nat} (within : k ≤ c.hoistable) :
    MovedOut { p with body := c.content } c.header.id
      ((c.place.path.take k).map (·.head)) { p with body := (c.moveUp k).content } :=
  ⟨(c.moveUp k).place, c.header, c.body, rfl, Cursor.content_eq within, rfl⟩

theorem Program.edit_located {f : Cursor F → Cursor F × Bool} (located : p.locate L = some c) :
    p.edit L f = ({ p with body := (f c).1.content }, (f c).2) := by
  rw [Program.edit, located]

theorem Program.edit_moved {f : Cursor F → Cursor F × Bool} {p' : Program F}
    (moved : p.edit L f = (p', true)) : ∃ c, p.locate L = some c ∧ (f c).2 = true ∧
      p = { p with body := c.content } ∧ p' = { p with body := (f c).1.content } := by
  rw [Program.edit] at moved
  split at moved
  next c located =>
    rw [Prod.mk.injEq] at moved
    refine ⟨c, located, moved.2, ?_, moved.1.symm⟩
    rw [(Program.locate_spec located).1]
  next => cases (Prod.mk.inj moved).2

variable [Field F] [LinearOrder F]

theorem Interchanged.keeps {p p' : Program F} (steps : Relation.ReflTransGen Interchanged p p')
    (verified : p.verify = true) (fixed : p.fixedGuards = true) :
    p'.verify = true ∧ p'.fixedGuards = true ∧ SameInstances p p' := by
  induction steps with
  | refl => exact ⟨verified, fixed, fun M st => List.Perm.refl _⟩
  | tail _ step ih =>
    obtain ⟨verified', fixed', same⟩ := ih
    obtain ⟨K, head, header, body, content, rfl⟩ := step
    exact ⟨Program.verify_interchange verified' content,
      Program.fixedGuards_interchange fixed' content, fun M st =>
        (Program.sameInstances_interchange verified' fixed' content M st).trans (same M st)⟩

/-- **Interchange.**  When the guards of a verified program read nothing that the program writes,
`hoist` and `sink` only reorder the instances of its statements: the result is verified, executes
the same instances from every state, and differs in that the loop has left a chain of scopes and is
now around them (`hoist`), or the other way round (`sink`). -/
theorem interchange_reorders {p : Program F} (verified : p.verify = true)
    (fixed : p.fixedGuards = true) (L : LoopId) (levels : UInt32) :
    (∀ p', hoist p L levels = (p', true) → p'.verify = true ∧ SameInstances p p' ∧
      ∃ heads, heads ≠ [] ∧ MovedOut p L heads p') ∧
    (∀ p', sink p L levels = (p', true) → p'.verify = true ∧ SameInstances p p' ∧
      ∃ heads, heads ≠ [] ∧ MovedOut p' L heads p) := by
  constructor
  · intro p' moved
    obtain ⟨c, located, far, before, after⟩ := Program.edit_moved moved
    rw [Cursor.hoist_eq, decide_eq_true_eq] at far
    rw [Cursor.hoist_eq] at after
    have within := Nat.min_le_right levels.toNat c.hoistable
    -- `hoist` moves the loop up one scope after the other.
    have steps := Cursor.moveUp_interchanged p within
    rw [← before, ← after] at steps
    have out := Cursor.movedOut p within
    rw [← before, ← after, (Program.locate_spec located).2] at out
    obtain ⟨verified', -, same⟩ := Interchanged.keeps steps verified fixed
    refine ⟨verified', same, _, ?_, out⟩
    apply List.ne_nil_of_length_pos
    have long : c.hoistable ≤ c.place.path.length := by
      simp only [Cursor.hoistable, Cursor.onlyScopes, List.length_map]
      exact (List.takeWhile_sublist _).length_le
    rw [List.length_map, List.length_take]
    omega
  · intro p' moved
    obtain ⟨c, located, far, before, after⟩ := Program.edit_moved moved
    obtain ⟨sunk, ran, up, within⟩ := Cursor.sink_spec levels.toNat c
    rw [ran, decide_eq_true_eq] at far
    -- `sink` is what hoisting the inner loops amounts to.
    have steps := Cursor.sink_interchanged p levels.toNat c
    rw [← before, ← after] at steps
    rw [ran] at after
    have out := Cursor.movedOut p within
    have header : (sunk.moveUp (min levels.toNat c.sinkable)).header = c.header := by rw [up]
    rw [up, ← before, ← after, show sunk.header = c.header from header,
      (Program.locate_spec located).2] at out
    obtain ⟨verified', -, same⟩ := Interchanged.keeps steps verified fixed
    refine ⟨verified', same, _, ?_, out⟩
    apply List.ne_nil_of_length_pos
    have long : sunk.hoistable ≤ sunk.place.path.length := by
      simp only [Cursor.hoistable, Cursor.onlyScopes, List.length_map]
      exact (List.takeWhile_sublist _).length_le
    rw [List.length_map, List.length_take]
    omega

end Runs

/-- `for (i in 0 .. 4) if (i in 1 .. 3) for (j in 0 .. 5) A[i, j] = 0`. -/
def guardedNest : Program Rat where
  name := "nest"
  args := [⟨"A", [4, 5], ["x", "y"], .float32Ty, twoDims⟩]
  vars := []
  body := [.loop ⟨0, "i", 4, 1⟩ [.ifRange (.indexOf 0) 1 3 [.loop ⟨1, "j", 5, 1⟩
    [.store 0 [.indexOf 0, .indexOf 1] (.constFP 0) false]]]]

theorem interchange_reorders_guardedNest : ∃ p', hoist guardedNest 1 2 = (p', true) ∧
    p'.verify = true ∧ SameInstances guardedNest p' ∧
      ∃ heads, heads ≠ [] ∧ MovedOut guardedNest 1 heads p' := by
  have moved : hoist guardedNest 1 2 = ((hoist guardedNest 1 2).1, true) :=
    Prod.ext rfl (by decide +kernel)
  exact ⟨_, moved, (interchange_reorders (by decide +kernel) (by decide +kernel) 1 2).1 _ moved⟩

/-- `if (x in 0 .. 1) for (i in 0 .. 2) x = 1`. -/
def guardedStore : Program Rat where
  name := "f"
  args := []
  vars := [⟨"x", .scalar .indexTy⟩]
  body := [.ifRange (.loadLocal 0 (.scalar .indexTy)) 0 1
    [.loop ⟨0, "i", 2, 1⟩ [.storeLocal 0 (.const 1) false]]]

/-- A guard that reads what the program writes is evaluated once before, and in every iteration
after. -/
theorem hoist_changes_instances : ∃ p', guardedStore.verify = true ∧
    hoist guardedStore 0 1 = (p', true) ∧ ¬ SameInstances guardedStore p' := by
  refine ⟨(hoist guardedStore 0 1).1, by decide +kernel, Prod.ext rfl (by decide +kernel), ?_⟩
  intro same
  have lengths := (same Machine.bare State.zero).length_eq
  exact absurd lengths (by decide +kernel)

end Bistra
