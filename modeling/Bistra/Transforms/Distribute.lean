import Mathlib.Data.List.SplitBy
import Bistra.Program.Clone
import Bistra.Program.Outline
import Bistra.Program.Replacement
import Bistra.Program.Scopes
import Bistra.Transforms.Tile

/-! # Distribution

`distributeAllLoops` of `Transforms.cpp`: a loop that has a scope beside other statements is split
into consecutive loops, and the pass starts again from the scope that it has been given, until no
loop is split.  That scope may be a loop that is split itself; it is then no part of the program any
more, and the pass goes on to ask for its parent.
-/

namespace Bistra

variable {F : Type}

/-- The packets of `splitScopes`: consecutive statements that are no scopes go together, and every
scope has its own packet. -/
def packets (body : List (Stmt F)) : List (List (Stmt F)) :=
  body.splitBy fun s t => !s.isScope && !t.isScope

/-- The loop for the packet number `cnt`.  Its address comes after those of the clones. -/
def splitHeader (base : LoopId) (header : Loop) (cnt : Nat) : Loop :=
  ⟨2 * base + cnt, newIndexName header.name "split" cnt, header.end_, header.stride⟩

/-- The new loop around the clones of a packet.  `scope` holds the loops around the packet, and `none`
is a failed assertion of `clone`. -/
def splitPacket (p : Program F) (scope : List LoopId) (header : Loop)
    (packet : List (Stmt F) × Nat) : Option (Stmt F) :=
  (Stmt.cloneBodyChecked p.decls p.freshLoop scope id packet.1).map fun content =>
    let NL := splitHeader p.freshLoop header packet.2
    .loop NL (Stmt.replaceIndex header.id (.indexOf NL.id) content)

/-- `splitScopes`: what takes the place of the loop, if it is split.  The outer `none` is a failed
assertion. -/
def splitScopes (p : Program F) (L : LoopId) : Option (Option (List (Stmt F))) :=
  match p.findLoop L, p.scopeOf L with
  | some (header, body), some scope =>
    if header.verify && Stmt.verifyBody p.decls scope body then
      if (packets body).length < 2 then some none
      else ((packets body).zipIdx.mapM (splitPacket p scope header)).map some
    else none
  | _, _ => none

/-- The loop of `distributeAllLoops` over the collected loops: the first one that is split, and what
takes its place. -/
def firstSplit (p : Program F) : List LoopId → Option (Option (LoopId × List (Stmt F)))
  | [] => some none
  | L :: rest => (splitScopes p L).bind fun
    | some pieces => some (some (L, pieces))
    | none => firstSplit p rest

/-- Where the scope that a pass has been given is in the program. -/
inductive ScopeAt (F : Type) where
  | program
  | inside (place : Place F) (head : ScopeHead F)

/-- The program, when the scope has the given body. -/
def ScopeAt.around (p : Program F) (body : List (Stmt F)) : ScopeAt F → Program F
  | .program => { p with body }
  | .inside K head => { p with body := K.fill [head.wrap body] }

def ScopeAt.own : ScopeAt F → List LoopId
  | .program => []
  | .inside _ head => head.loops

def ScopeAt.loops : ScopeAt F → List LoopId
  | .program => []
  | .inside K head => head.loops ++ pathLoops K.path

def ScopeAt.verify (p : Program F) (body : List (Stmt F)) : ScopeAt F → Bool
  | .program => p.verify
  | .inside K head => (head.wrap body).verify p.decls (pathLoops K.path)

/-- How `distributeAllLoops` ends. -/
inductive Distributed (F : Type) where
  /-- It returns. -/
  | finished (p : Program F) (changed : Bool)
  /-- It has split the scope that it has been given.  The scope is no part of the program any more
  but keeps its body, so it is split again, and there is no parent to insert the new loops into. -/
  | detached

/-- `distributeAllLoops` on the scope `s` of the program, which has the given body; `none` is a failed
assertion, or not enough fuel. -/
def distributeAllLoops (p : Program F) (s : ScopeAt F) :
    Nat → List (Stmt F) → Bool → Option (Distributed F)
  | 0, _, _ => none
  | fuel + 1, body, changed =>
    let q := s.around p body
    if s.verify q body then
      (firstSplit q (s.own ++ Stmt.loopIds body)).bind fun
        | none => some (.finished q changed)
        | some (L, pieces) =>
          if L ∈ s.own then some .detached
          else distributeAllLoops p s fuel (Stmt.substLoopBody L (fun _ _ => pieces) body) true
    else none

/-- The parent of a loop, and its body. -/
def Cursor.parent (c : Cursor F) : ScopeAt F × List (Stmt F) :=
  match c.place.path with
  | [] => (.program, c.content)
  | f :: path =>
    (.inside ⟨path, c.place.before, c.place.after⟩ f.head,
      f.before ++ .loop c.header c.body :: f.after)

/-- The `distribute` case of `applyPragmaCommand`, on the loop `L`. -/
def distribute (p : Program F) (L : LoopId) (fuel : Nat) : Option (Distributed F) :=
  (p.locate L).bind fun c => distributeAllLoops p c.parent.1 fuel c.parent.2 false

/-! ## Packets -/

theorem packets_append_scope (before after : List (Stmt F)) {s : Stmt F} (scope : s.isScope = true) :
    packets (before ++ s :: after) = packets before ++ [s] :: packets after := by
  rw [packets, List.splitBy_append_cons after (by simp [scope])]
  have alone : List.splitBy (fun s t : Stmt F => !s.isScope && !t.isScope) ([s] ++ after) =
      [s] :: packets after := by
    rw [List.splitBy_append (by simp [scope])]
    rfl
  exact congrArg (packets before ++ ·) alone

theorem length_packets_scopes (before after : List (Stmt F)) {scopes : List (Stmt F)}
    (each : ∀ s ∈ scopes, s.isScope = true) (nonempty : scopes ≠ []) :
    (packets (before ++ (scopes ++ after))).length =
      (packets before).length + scopes.length + (packets after).length := by
  induction scopes generalizing before with
  | nil => exact absurd rfl nonempty
  | cons s rest ih =>
    rw [List.forall_mem_cons] at each
    rw [List.cons_append, packets_append_scope _ _ each.1, List.length_append, List.length_cons]
    cases rest with
    | nil => simp; omega
    | cons t rest =>
      have inner := ih [] each.2 (List.cons_ne_nil t rest)
      rw [List.nil_append] at inner
      have none : (packets ([] : List (Stmt F))).length = 0 := rfl
      simp only [inner, none, List.length_cons]
      omega

theorem splitBy_map {α β : Type} {r : α → α → Bool} {q : β → β → Bool} {f : α → β}
    (same : ∀ a b, q (f a) (f b) = r a b) (l : List α) :
    (l.map f).splitBy q = (l.splitBy r).map (List.map f) := by
  obtain ⟨flat, filled, chains, apart⟩ := List.splitBy_eq_iff.mp (rfl : l.splitBy r = l.splitBy r)
  rw [List.splitBy_eq_iff]
  refine ⟨?_, ?_, ?_, ?_⟩
  · rw [← List.map_flatten, ← flat]
  · intro none
    obtain ⟨group, mem, empty⟩ := List.mem_map.mp none
    exact filled (List.map_eq_nil_iff.mp empty ▸ mem)
  · intro group' mem'
    obtain ⟨group, mem, rfl⟩ := List.mem_map.mp mem'
    rw [List.isChain_map]
    simpa only [same] using chains group mem
  · rw [List.isChain_map]
    refine apart.imp ?_
    intro group next differ
    obtain ⟨some, someNext, differ⟩ := differ
    refine ⟨by simpa using some, by simpa using someNext, ?_⟩
    rw [List.getLast_map, List.head_map, same, differ]

theorem packets_map {f : Stmt F → Stmt F} (same : ∀ s, (f s).isScope = s.isScope)
    (body : List (Stmt F)) : packets (body.map f) = (packets body).map (List.map f) :=
  splitBy_map (fun s t => by rw [same, same]) body

theorem packets_lt_two {body : List (Stmt F)} (few : (packets body).length < 2) :
    (∀ s ∈ body, s.isScope = false) ∨ ∃ s, body = [s] ∧ s.isScope = true := by
  by_cases leaves : ∀ s ∈ body, s.isScope = false
  · exact .inl leaves
  · push Not at leaves
    obtain ⟨s, mem, scope⟩ := leaves
    rw [ne_eq, Bool.not_eq_false] at scope
    obtain ⟨before, after, rfl⟩ := List.append_of_mem mem
    rw [packets_append_scope before after scope, List.length_append, List.length_cons] at few
    -- The packet of a scope is the only one, so nothing stands before it or after it.
    have noneBefore : packets before = [] := List.eq_nil_of_length_eq_zero (by omega)
    have noneAfter : packets after = [] := List.eq_nil_of_length_eq_zero (by omega)
    rw [packets, List.splitBy_eq_nil] at noneBefore noneAfter
    exact .inr ⟨s, by rw [noneBefore, noneAfter, List.nil_append], scope⟩

/-! ## The loops that take the place of a loop -/

/-- The clones of a packet, with the index of the new loop. -/
def splitContent (base : LoopId) (header : Loop) (packet : List (Stmt F) × Nat) : List (Stmt F) :=
  Stmt.cloneBody base (Function.update id header.id (splitHeader base header packet.2).id) packet.1

/-- What takes the place of a loop when `clone` completes. -/
def splitLoops (base : LoopId) (header : Loop) (body : List (Stmt F)) : List (Stmt F) :=
  (packets body).zipIdx.map fun packet =>
    .loop (splitHeader base header packet.2) (splitContent base header packet)

theorem mem_packet {body packet : List (Stmt F)} {cnt : Nat}
    (mem : (packet, cnt) ∈ (packets body).zipIdx) {s : Stmt F} (memS : s ∈ packet) : s ∈ body := by
  rw [← List.flatten_splitBy (fun s t : Stmt F => !s.isScope && !t.isScope) body]
  exact List.mem_flatten_of_mem (List.fst_mem_of_mem_zipIdx mem) memS

theorem exists_packet {body : List (Stmt F)} {s : Stmt F} (mem : s ∈ body) :
    ∃ packet ∈ (packets body).zipIdx, s ∈ packet.1 := by
  rw [← List.flatten_splitBy (fun s t : Stmt F => !s.isScope && !t.isScope) body] at mem
  obtain ⟨packet, memPacket, memS⟩ := List.mem_flatten.mp mem
  obtain ⟨cnt, below, rfl⟩ := List.mem_iff_getElem.mp memPacket
  exact ⟨_, List.mk_mem_zipIdx_iff_getElem?.mpr (List.getElem?_eq_getElem below), memS⟩

section Pieces

variable {p : Program F} {scope : List LoopId} {header : Loop} {body : List (Stmt F)}

theorem splitPacket_eq (known : header.id < p.freshLoop) :
    splitPacket p scope header = fun packet : List (Stmt F) × Nat =>
      (Stmt.cloneBodyChecked p.decls p.freshLoop scope id packet.1).map fun _ =>
        .loop (splitHeader p.freshLoop header packet.2)
          (splitContent p.freshLoop header packet) := by
  funext packet
  rw [splitPacket]
  cases cloned : Stmt.cloneBodyChecked p.decls p.freshLoop scope id packet.1 with
  | none => rfl
  | some content =>
    have context : (fun K => if id K = header.id then (splitHeader p.freshLoop header packet.2).id
          else id K) =
        Function.update id header.id (splitHeader p.freshLoop header packet.2).id := by
      funext K
      rw [Function.update_apply]
      rfl
    have made : Stmt.replaceIndex header.id (.indexOf (splitHeader p.freshLoop header packet.2).id)
        content = splitContent p.freshLoop header packet := by
      rw [Stmt.eq_cloneBody cloned, splitContent, ← context, Stmt.cloneBody_eq, Stmt.cloneBody_eq]
      simp only [Stmt.replaceIndex, List.map_map]
      refine List.map_congr_left fun s mem => ?_
      exact Stmt.replaceIndex_clone fun K _ =>
        (Nat.lt_of_lt_of_le known (Nat.le_add_right _ K)).ne'
    simp only [Option.map_some, made]

theorem mapM_map_eq_some {α β γ : Type} {g : α → Option β} {f : α → γ} {l : List α} {cs : List γ} :
    (l.mapM fun a => (g a).map fun _ => f a) = some cs ↔
      cs = l.map f ∧ ∀ a ∈ l, (g a).isSome = true := by
  induction l generalizing cs with
  | nil => exact ⟨fun same => ⟨(Option.some.inj same).symm, nofun⟩, fun same => congrArg some same.1.symm⟩
  | cons a rest ih =>
    rw [List.mapM_cons, List.forall_mem_cons, List.map_cons]
    cases made : g a with
    | none => simp
    | some b =>
      simp only [Option.map_some, Option.pure_def, Option.bind_eq_bind, Option.bind_some,
        Option.bind_eq_some_iff, ih, Option.some.injEq, Option.isSome_some, true_and]
      constructor
      · rintro ⟨cs, ⟨rfl, each⟩, rfl⟩
        exact ⟨rfl, each⟩
      · rintro ⟨rfl, each⟩
        exact ⟨_, ⟨rfl, each⟩, rfl⟩

/-- The statements are verified, and they stay so when their indices become scalar. -/
def Narrows (decls : Decls) (body : List (Stmt F)) : Prop :=
  ∃ scope, Stmt.verifyBody decls scope body = true ∧
    Stmt.verifyBody decls scope (body.map Stmt.narrow) = true

theorem narrows_iff {decls : Decls} (verified : Stmt.verifyBody decls scope body = true) :
    Narrows decls body ↔ Stmt.verifyBody decls scope (body.map Stmt.narrow) = true := by
  constructor
  · intro ⟨scope', verified', narrowed⟩
    simp only [Stmt.verifyBody_eq, List.all_map, List.all_eq_true,
      Function.comp_apply] at verified verified' narrowed ⊢
    intro s mem
    rw [Stmt.verify_narrow_eq (verified s mem) (verified' s mem), narrowed s mem]
  · exact fun narrowed => ⟨scope, verified, narrowed⟩

theorem isSome_cloneBodyChecked {decls : Decls} {base : LoopId}
    (verified : Stmt.verifyBody decls scope body = true) :
    (Stmt.cloneBodyChecked decls base scope id body).isSome = true ↔
      Stmt.verifyBody decls scope (body.map Stmt.narrow) = true := by
  have stay : ∀ L ∈ scope, id L ∈ scope := fun L mem => mem
  have verifiedS := verified
  rw [Stmt.verifyBody_eq, List.all_eq_true] at verifiedS
  have same : Stmt.verifyBody decls scope (Stmt.cloneBody base id body) =
      Stmt.verifyBody decls scope (body.map Stmt.narrow) := by
    rw [Stmt.verifyBody_eq, Stmt.verifyBody_eq, Stmt.cloneBody_eq]
    exact all_map_eq fun s mem => Stmt.verify_clone_eq (verifiedS s mem) stay
  rw [← same]
  constructor
  · intro some
    obtain ⟨body', cloned⟩ := Option.isSome_iff_exists.mp some
    rw [← Stmt.eq_cloneBody cloned]
    exact Stmt.verify_of_cloneBodyChecked
      (fun s _ _ => Stmt.verify_of_cloneChecked stay) verified cloned
  · intro kept
    rw [Stmt.cloneBody_eq, Stmt.verifyBody_eq, List.all_map, List.all_eq_true] at kept
    rw [Stmt.cloneBodyChecked_eq fun s mem =>
      Stmt.cloneChecked_of_clone (verifiedS s mem) (kept s mem)]
    rfl

theorem splitScopes_cases (verified : p.verify = true) (mem : (header, body) ∈ p.collectLoops) :
    ((packets body).length < 2 ∧ splitScopes p header.id = some none) ∨
    (2 ≤ (packets body).length ∧ Narrows p.decls body ∧
      splitScopes p header.id = some (some (splitLoops p.freshLoop header body))) ∨
    (2 ≤ (packets body).length ∧ ¬ Narrows p.decls body ∧ splitScopes p header.id = none) := by
  obtain ⟨scope, scopeOf, inScope⟩ := Program.scopeOf_eq_some verified mem
  have bodyVerified : Stmt.verifyBody p.decls scope body = true := by
    rw [Stmt.verifyBody_eq, List.all_eq_true]
    exact inScope
  have known : header.id < p.freshLoop :=
    Program.lt_freshLoop ((Program.loopIds_sublist mem).subset List.mem_cons_self)
  have run : splitScopes p header.id = if (packets body).length < 2 then some none
      else ((packets body).zipIdx.mapM (splitPacket p scope header)).map some := by
    simp only [splitScopes, Program.findLoop_of_mem verified mem, scopeOf, bodyVerified,
      Program.verify_loop verified mem, Bool.and_self, if_true]
  by_cases few : (packets body).length < 2
  · exact .inl ⟨few, run.trans (if_pos few)⟩
  · rw [if_neg few, splitPacket_eq known] at run
    refine .inr ?_
    -- The packets together are the body, so their clones complete when that of the body does.
    have completes : Narrows p.decls body ↔ ∀ packet ∈ (packets body).zipIdx,
        (Stmt.cloneBodyChecked p.decls p.freshLoop scope id packet.1).isSome = true := by
      have inPacket : ∀ packet ∈ (packets body).zipIdx,
          Stmt.verifyBody p.decls scope packet.1 = true := by
        intro packet memPacket
        rw [Stmt.verifyBody_eq, List.all_eq_true]
        exact fun s memS => inScope s (mem_packet memPacket memS)
      rw [narrows_iff bodyVerified,
        forall₂_congr fun packet memPacket => isSome_cloneBodyChecked (inPacket packet memPacket)]
      simp only [Stmt.verifyBody_eq, List.all_map, List.all_eq_true]
      constructor
      · exact fun each packet memPacket s memS => each s (mem_packet memPacket memS)
      · intro each s memS
        obtain ⟨packet, memPacket, memS⟩ := exists_packet memS
        exact each packet memPacket s memS
    by_cases narrows : Narrows p.decls body
    · refine .inl ⟨Nat.not_lt.mp few, narrows, ?_⟩
      rw [run, mapM_map_eq_some.mpr ⟨rfl, completes.mp narrows⟩]
      rfl
    · refine .inr ⟨Nat.not_lt.mp few, narrows, ?_⟩
      rw [run, Option.map_eq_none_iff, Option.eq_none_iff_forall_ne_some]
      exact fun pieces made => narrows (completes.mpr (mapM_map_eq_some.mp made).2)

/-! ### The new loops -/

@[simp] theorem length_splitLoops (base : LoopId) (header : Loop) (body : List (Stmt F)) :
    (splitLoops base header body).length = (packets body).length := by
  rw [splitLoops, List.length_map, List.length_zipIdx]

theorem isScope_splitLoops {base : LoopId} :
    ∀ s ∈ splitLoops base header body, s.isScope = true := by
  intro s mem
  obtain ⟨packet, -, rfl⟩ := List.mem_map.mp mem
  rfl

theorem scalar_splitLoops {base : LoopId} : Stmt.AllScalar (splitLoops base header body) := by
  intro s mem e memRoot
  obtain ⟨packet, -, rfl⟩ := List.mem_map.mp mem
  rw [Stmt.collectRoots_loop, splitContent, Stmt.cloneBody_eq, List.flatMap_map] at memRoot
  obtain ⟨s, -, memRoot⟩ := List.mem_flatMap.mp memRoot
  exact Stmt.scalar_clone e memRoot

theorem loopIds_splitLoops (base : LoopId) (header : Loop) (body : List (Stmt F)) :
    (Stmt.loopIds (splitLoops base header body)).Perm
      (List.range' (2 * base) (packets body).length ++ (Stmt.loopIds body).map (base + ·)) := by
  have general : ∀ (groups : List (List (Stmt F))) (cnt : Nat),
      (Stmt.loopIds ((groups.zipIdx cnt).map fun packet =>
        .loop (splitHeader base header packet.2) (splitContent base header packet))).Perm
        (List.range' (2 * base + cnt) groups.length ++
          (Stmt.loopIds groups.flatten).map (base + ·)) := by
    intro groups
    induction groups with
    | nil => exact fun _ => List.Perm.refl _
    | cons packet rest ih =>
      intro cnt
      rw [List.zipIdx_cons, List.map_cons, Stmt.loopIds_cons, Stmt.ids_loop, splitContent,
        Stmt.loopIds_clone, List.length_cons, List.range'_succ, List.flatten_cons,
        Stmt.loopIds_append, List.map_append, List.cons_append, List.cons_append]
      refine List.Perm.cons _ ?_
      apply ((ih (cnt + 1)).append_left _).trans
      rw [← List.append_assoc, ← List.append_assoc]
      exact List.perm_append_comm.append_right _
  have whole := general (packets body) 0
  rwa [packets, List.flatten_splitBy] at whole

theorem nodup_splitLoops {base : LoopId} (nodup : (Stmt.loopIds body).Nodup)
    (known : ∀ K ∈ Stmt.loopIds body, K < base) :
    (Stmt.loopIds (splitLoops base header body)).Nodup := by
  rw [(loopIds_splitLoops base header body).nodup_iff, List.nodup_append]
  refine ⟨List.nodup_range', nodup.map fun a b same => Nat.add_left_cancel same, ?_⟩
  intro a memA b memB same
  obtain ⟨K, memK, rfl⟩ := List.mem_map.mp memB
  have first : 2 * base ≤ base + K := same ▸ (List.mem_range'_1.mp memA).1
  have below : K < base := known K memK
  rw [Nat.two_mul] at first
  exact Nat.not_lt.mpr (Nat.le_of_add_le_add_left first) below

theorem le_of_mem_splitLoops {base K : LoopId} (mem : K ∈ Stmt.loopIds (splitLoops base header body)) :
    base ≤ K := by
  rw [(loopIds_splitLoops base header body).mem_iff, List.mem_append] at mem
  cases mem with
  | inl new =>
    have first : 2 * base ≤ K := (List.mem_range'_1.mp new).1
    exact (Nat.le_mul_of_pos_left base Nat.two_pos).trans first
  | inr copy =>
    obtain ⟨K, -, rfl⟩ := List.mem_map.mp copy
    exact Nat.le_add_right _ _

theorem verify_splitHeader {base cnt : Nat} (checked : header.verify = true) :
    (splitHeader base header cnt).verify = true := by
  rw [Loop.verify_iff] at checked ⊢
  obtain ⟨nonempty, whole, positive, small, legal⟩ := checked
  exact ⟨nonempty, whole, positive, small, isLegalName_newIndexName legal (by decide +kernel)⟩

theorem verify_splitLoops {decls : Decls} {base : LoopId}
    (verified : (Stmt.loop header body).verify decls scope = true) :
    Stmt.verifyBody decls scope (splitLoops base header body) = true ↔
      (Stmt.loop header body).narrow.verify decls scope = true := by
  rw [Stmt.verify, Bool.and_eq_true, Stmt.verifyBody_eq, List.all_eq_true] at verified
  obtain ⟨checked, inside⟩ := verified
  have moved : ∀ cnt, ∀ L ∈ header.id :: scope,
      Function.update id header.id (splitHeader base header cnt).id L ∈
        (splitHeader base header cnt).id :: scope := by
    intro cnt L mem
    -- In the new loop its index stands for that of the old one.
    by_cases here : L = header.id
    · simp [here]
    · rw [Function.update_of_ne here]
      exact List.mem_cons_of_mem _ (List.mem_of_ne_of_mem here mem)
  have content : ∀ packet ∈ (packets body).zipIdx,
      (Stmt.loop (splitHeader base header packet.2) (splitContent base header packet)).verify decls
          scope = true ↔ ∀ s ∈ packet.1, s.narrow.verify decls (header.id :: scope) = true := by
    intro packet memPacket
    rw [Stmt.verify, verify_splitHeader checked, Bool.true_and, splitContent, Stmt.cloneBody_eq,
      Stmt.verifyBody_eq, List.all_map, List.all_eq_true]
    refine forall₂_congr fun s memS => ?_
    rw [Function.comp_apply, Stmt.verify_clone_eq (inside s (mem_packet memPacket memS)) (moved _)]
  rw [Stmt.narrow_loop, Stmt.verify, checked, Bool.true_and, Stmt.verifyBody_eq, splitLoops,
    Stmt.verifyBody_eq, List.all_map, List.all_map, List.all_eq_true, List.all_eq_true]
  constructor
  · intro each s memS
    obtain ⟨packet, memPacket, memS⟩ := exists_packet memS
    exact (content packet memPacket).mp (each packet memPacket) s memS
  · intro each packet memPacket
    exact (content packet memPacket).mpr fun s memS => each s (mem_packet memPacket memS)

theorem outline_splitLoops {decls : Decls} {base : LoopId}
    (verified : (Stmt.loop header body).verify decls scope = true)
    (nodup : (Stmt.loopIds body).Nodup) (known : ∀ K ∈ header.id :: Stmt.loopIds body, K < base)
    (around : ∀ K ∈ scope, K < base) :
    (splitLoops base header body).flatMap (Stmt.outline scope) =
      (Stmt.loop header body).narrow.outline scope := by
  rw [Stmt.verify, Bool.and_eq_true, Stmt.verifyBody_eq, List.all_eq_true] at verified
  have below : header.id < base := known _ List.mem_cons_self
  have content : ∀ packet ∈ (packets body).zipIdx,
      (Stmt.loop (splitHeader base header packet.2) (splitContent base header packet)).outline scope =
        (packet.1.flatMap fun s => s.narrow.outline (header.id :: scope)).map
          (Occurrence.under (.loop header.end_ header.stride)) := by
    intro packet memPacket
    -- The addresses of the new loops come after those of the clones, and these after all that are
    -- taken.
    have new : 2 * base ≤ (splitHeader base header packet.2).id := Nat.le_add_right _ _
    have apart : ∀ L < base, (splitHeader base header packet.2).id ≠ L := by
      intro L small
      exact (Nat.lt_of_lt_of_le small
        ((Nat.le_mul_of_pos_left base Nat.two_pos).trans new)).ne'
    rw [Stmt.outline, splitContent, Stmt.outlineBody_eq, Stmt.cloneBody_eq, List.flatMap_map]
    congr 1
    refine List.flatMap_congr fun s memS => ?_
    have memBody := mem_packet memPacket memS
    apply Stmt.outline_clone (verified.2 s memBody) (Stmt.nodup_ids nodup memBody)
    · intro L mem
      by_cases here : L = header.id
      · simp [here]
      · have memScope := List.mem_of_ne_of_mem here mem
        rw [Function.update_of_ne here, id, List.idxOf_cons_ne _ (apart L (around L memScope)),
          List.idxOf_cons_ne _ (Ne.symm here)]
    · intro L mem K memK
      by_cases here : L = header.id
      · -- The new loops come after the clones.
        have small : K < base := known K (List.mem_cons_of_mem _ (Stmt.mem_loopIds memBody memK))
        rw [here, Function.update_self]
        intro same
        rw [same, Nat.two_mul] at new
        exact Nat.not_lt.mpr (Nat.le_of_add_le_add_left new) small
      · have memScope := List.mem_of_ne_of_mem here mem
        rw [Function.update_of_ne here]
        exact (Nat.lt_of_lt_of_le (around L memScope) (Nat.le_add_right _ _)).ne
  rw [splitLoops, List.flatMap_map, List.flatMap_congr content, Stmt.narrow_loop, Stmt.outline,
    Stmt.outlineBody_eq, List.flatMap_map]
  -- The packets one behind the other are the body.
  have together : ((packets body).zipIdx.map Prod.fst).flatten = body := by
    rw [List.zipIdx_map_fst, packets, List.flatten_splitBy]
  conv_rhs => rw [← together]
  rw [← List.flatMap_def, List.flatMap_assoc, List.map_flatMap]

end Pieces

end Bistra
