import Bistra.Semantics.Footprint
import Bistra.Transforms.DistributeRuns

/-! # What distribution preserves

A split runs all iterations of a packet before those of the next one.  `spread` is the normal form that
splitting ends with, without the clones.  It does what the program has done when, in every loop, the
parts of the body that end in loops of their own commute across iterations, and a split does not change
what it does.
-/

namespace Bistra

variable {F : Type}

/-! ## The normal form -/

/-- The packets of the body of a loop.  An empty body makes one loop as well. -/
def groups : List (Stmt F) → List (List (Stmt F))
  | [] => [[]]
  | s :: rest => packets (s :: rest)

mutual

/-- The statement after every loop in it has been split as far as possible. -/
def Stmt.spread : Stmt F → List (Stmt F)
  | .loop header body => (groups (Stmt.spreadBody body)).map (.loop header)
  | .ifRange val start end_ body => [.ifRange val start end_ (Stmt.spreadBody body)]
  | s => [s]

def Stmt.spreadBody : List (Stmt F) → List (Stmt F)
  | [] => []
  | s :: rest => s.spread ++ Stmt.spreadBody rest

end

@[simp] theorem Stmt.spreadBody_eq (body : List (Stmt F)) :
    Stmt.spreadBody body = body.flatMap Stmt.spread := by
  induction body with
  | nil => rfl
  | cons s rest ih => simp [Stmt.spreadBody, ih]

theorem groups_of_ne_nil {body : List (Stmt F)} (nonempty : body ≠ []) :
    groups body = packets body := by
  cases body with
  | nil => exact absurd rfl nonempty
  | cons s rest => rfl

theorem flatten_groups (body : List (Stmt F)) : (groups body).flatten = body := by
  cases body with
  | nil => rfl
  | cons s rest => exact List.flatten_splitBy _ (s :: rest)

theorem groups_map {f : Stmt F → Stmt F} (same : ∀ s, (f s).isScope = s.isScope)
    (body : List (Stmt F)) : groups (body.map f) = (groups body).map (List.map f) := by
  cases body with
  | nil => rfl
  | cons s rest => exact packets_map same (s :: rest)

theorem groups_ne_nil (body : List (Stmt F)) : groups body ≠ [] := by
  cases body with
  | nil => exact List.cons_ne_nil _ _
  | cons s rest => exact List.splitBy_ne_nil.mpr (List.cons_ne_nil _ _)

theorem Stmt.spread_leaf {s : Stmt F} (leaf : s.isScope = false) : s.spread = [s] := by
  cases s with
  | loop | ifRange => cases leaf
  | call | store | storeLocal => rfl

theorem Stmt.spread_ne_nil (s : Stmt F) : s.spread ≠ [] := by
  cases s with
  | loop header body =>
    rw [Stmt.spread, ne_eq, List.map_eq_nil_iff]
    exact groups_ne_nil _
  | ifRange | call | store | storeLocal => exact List.cons_ne_nil _ _

theorem Stmt.spreadBody_ne_nil {body : List (Stmt F)} (nonempty : body ≠ []) :
    Stmt.spreadBody body ≠ [] := by
  cases body with
  | nil => exact absurd rfl nonempty
  | cons s rest =>
    rw [Stmt.spreadBody, ne_eq, List.append_eq_nil_iff]
    exact fun both => s.spread_ne_nil both.1

theorem Stmt.isScope_spread {s : Stmt F} (scope : s.isScope = true) :
    ∀ t ∈ s.spread, t.isScope = true := by
  intro t mem
  cases s with
  | loop header body =>
    obtain ⟨group, -, rfl⟩ := List.mem_map.mp mem
    rfl
  | ifRange val start end_ body =>
    rw [List.mem_singleton.mp mem]
    rfl
  | call | store | storeLocal => cases scope

theorem packets_scopes (before after : List (Stmt F)) {scopes : List (Stmt F)}
    (each : ∀ s ∈ scopes, s.isScope = true) (nonempty : scopes ≠ []) :
    packets (before ++ (scopes ++ after)) =
      packets before ++ (scopes.map fun s => [s]) ++ packets after := by
  induction scopes generalizing before with
  | nil => exact absurd rfl nonempty
  | cons s rest ih =>
    rw [List.forall_mem_cons] at each
    rw [List.cons_append, packets_append_scope _ _ each.1]
    cases rest with
    | nil => simp
    | cons t rest =>
      have inner := ih [] each.2 (List.cons_ne_nil t rest)
      rw [List.nil_append] at inner
      rw [inner]
      simp [packets]

theorem Stmt.spreadBody_leaves {body : List (Stmt F)} (leaves : ∀ s ∈ body, s.isScope = false) :
    Stmt.spreadBody body = body := by
  rw [Stmt.spreadBody_eq, List.flatMap_congr fun s mem => Stmt.spread_leaf (leaves s mem)]
  exact List.flatMap_singleton' body

theorem packets_leaves {body : List (Stmt F)} (leaves : ∀ s ∈ body, s.isScope = false)
    (nonempty : body ≠ []) : packets body = [body] := by
  apply List.splitBy_of_isChain nonempty
  apply List.Pairwise.isChain
  apply List.pairwise_of_forall_mem_list
  intro s memS t memT
  rw [leaves s memS, leaves t memT]
  rfl

theorem packets_spreadBody_append {body : List (Stmt F)} : ∀ {before : List (Stmt F)},
    (∀ s ∈ before, s.isScope = false) →
    packets (before ++ Stmt.spreadBody body) =
      (packets (before ++ body)).flatMap fun packet => packets (Stmt.spreadBody packet) := by
  have leading : ∀ {before : List (Stmt F)}, (∀ s ∈ before, s.isScope = false) →
      (packets before).flatMap (fun packet => packets (Stmt.spreadBody packet)) =
        packets before := by
    intro before leaves
    by_cases empty : before = []
    · subst empty
      rfl
    · rw [packets_leaves leaves empty, List.flatMap_singleton, Stmt.spreadBody_leaves leaves,
        packets_leaves leaves empty]
  induction body with
  | nil =>
    intro before leaves
    rw [Stmt.spreadBody, List.append_nil, leading leaves]
  | cons s rest ih =>
    intro before leaves
    cases scope : s.isScope with
    | false =>
      -- The leaf joins those before it.
      have joined := @ih (before ++ [s]) (List.forall_mem_append.mpr
        ⟨leaves, List.forall_mem_singleton.mpr scope⟩)
      rw [List.append_assoc, List.append_assoc] at joined
      rw [Stmt.spreadBody, Stmt.spread_leaf scope]
      exact joined
    | true =>
      have later := @ih [] nofun
      have alone : packets (Stmt.spreadBody [s]) = s.spread.map fun t => [t] := by
        have inner := packets_scopes [] [] (Stmt.isScope_spread scope) s.spread_ne_nil
        simp only [List.nil_append, List.append_nil] at inner
        rw [Stmt.spreadBody, Stmt.spreadBody, List.append_nil, inner]
        simp [packets]
      rw [List.nil_append, List.nil_append] at later
      rw [Stmt.spreadBody, packets_scopes _ _ (Stmt.isScope_spread scope) s.spread_ne_nil,
        packets_append_scope _ _ scope, List.flatMap_append, List.flatMap_cons, leading leaves, alone,
        later, List.append_assoc]

theorem packets_spreadBody (body : List (Stmt F)) :
    packets (Stmt.spreadBody body) =
      (packets body).flatMap fun packet => packets (Stmt.spreadBody packet) :=
  @packets_spreadBody_append F body [] nofun

theorem Stmt.spreadBody_clone_of {base : LoopId} {ctx : LoopId → LoopId} {body : List (Stmt F)}
    (each : ∀ s ∈ body, (s.clone base ctx).spread = s.spread.map (Stmt.clone base ctx)) :
    Stmt.spreadBody (Stmt.cloneBody base ctx body) =
      (Stmt.spreadBody body).map (Stmt.clone base ctx) := by
  rw [Stmt.spreadBody_eq, Stmt.spreadBody_eq, Stmt.cloneBody_eq, List.flatMap_map,
    List.flatMap_congr each, List.map_flatMap]

theorem Stmt.spread_clone {base : LoopId} {s : Stmt F} : ∀ ctx : LoopId → LoopId,
    (s.clone base ctx).spread = s.spread.map (Stmt.clone base ctx) := by
  induction s using Stmt.inductTree with
  | loop header body ih =>
    intro ctx
    rw [Stmt.clone, Stmt.spread, Stmt.spreadBody_clone_of fun s mem => ih s mem _,
      groups_map (Stmt.isScope_clone base _), Stmt.spread, List.map_map, List.map_map]
    apply List.map_congr_left
    intro group _
    rw [Function.comp, Function.comp, Stmt.clone, Stmt.cloneBody_eq]
  | ifRange val start end_ body ih =>
    intro ctx
    rw [Stmt.clone, Stmt.spread, Stmt.spreadBody_clone_of fun s mem => ih s mem _, Stmt.spread,
      List.map_singleton, Stmt.clone, Stmt.cloneBody_eq]
  | call | store | storeLocal => exact fun _ => rfl

theorem Stmt.spreadBody_clone (base : LoopId) (ctx : LoopId → LoopId) (body : List (Stmt F)) :
    Stmt.spreadBody (Stmt.cloneBody base ctx body) =
      (Stmt.spreadBody body).map (Stmt.clone base ctx) :=
  Stmt.spreadBody_clone_of fun s _ => s.spread_clone ctx

theorem sublist_of_mem_groups {body group : List (Stmt F)} (mem : group ∈ groups body) :
    group.Sublist body := by
  have part := List.sublist_flatten_of_mem mem
  rwa [flatten_groups] at part

theorem Stmt.spreadBody_subset_of {body group : List (Stmt F)} (each : ∀ s ∈ body, ∀ t ∈ s.spread,
      t.collectLoops.map (·.1.id) ⊆ s.collectLoops.map (·.1.id) ∧ t.collectRoots ⊆ s.collectRoots)
    (inside : group ⊆ Stmt.spreadBody body) :
    Stmt.loopIds group ⊆ Stmt.loopIds body ∧
      group.flatMap Stmt.collectRoots ⊆ body.flatMap Stmt.collectRoots := by
  rw [Stmt.spreadBody_eq] at inside
  constructor
  · intro K memK
    obtain ⟨loop, memLoop, rfl⟩ := List.mem_map.mp memK
    obtain ⟨t, memT, memLoop⟩ := List.mem_flatMap.mp memLoop
    obtain ⟨s, memS, memSpread⟩ := List.mem_flatMap.mp (inside memT)
    exact Stmt.mem_loopIds memS ((each s memS t memSpread).1 (List.mem_map_of_mem memLoop))
  · intro e memE
    obtain ⟨t, memT, memRoot⟩ := List.mem_flatMap.mp memE
    obtain ⟨s, memS, memSpread⟩ := List.mem_flatMap.mp (inside memT)
    exact List.mem_flatMap.mpr ⟨s, memS, (each s memS t memSpread).2 memRoot⟩

theorem Stmt.mem_spread {s : Stmt F} : ∀ t ∈ s.spread,
    t.collectLoops.map (·.1.id) ⊆ s.collectLoops.map (·.1.id) ∧ t.collectRoots ⊆ s.collectRoots := by
  induction s using Stmt.inductTree with
  | loop header body ih =>
    intro t mem
    obtain ⟨group, memGroup, rfl⟩ := List.mem_map.mp mem
    obtain ⟨loops, roots⟩ := Stmt.spreadBody_subset_of ih (sublist_of_mem_groups memGroup).subset
    rw [Stmt.ids_loop, Stmt.ids_loop, Stmt.collectRoots_loop, Stmt.collectRoots_loop]
    exact ⟨List.cons_subset_cons _ loops, roots⟩
  | ifRange val start end_ body ih =>
    intro t mem
    rw [List.mem_singleton.mp mem]
    obtain ⟨loops, roots⟩ := Stmt.spreadBody_subset_of ih (List.Subset.refl _)
    rw [Stmt.ids_ifRange, Stmt.ids_ifRange, Stmt.collectRoots_ifRange, Stmt.collectRoots_ifRange]
    exact ⟨loops, List.cons_subset_cons _ roots⟩
  | call | store | storeLocal =>
    intro t mem
    rw [List.mem_singleton.mp mem]
    exact ⟨List.Subset.refl _, List.Subset.refl _⟩

theorem Stmt.spreadBody_subset {body group : List (Stmt F)}
    (inside : group ⊆ Stmt.spreadBody body) :
    Stmt.loopIds group ⊆ Stmt.loopIds body ∧
      group.flatMap Stmt.collectRoots ⊆ body.flatMap Stmt.collectRoots :=
  Stmt.spreadBody_subset_of (fun _ _ => Stmt.mem_spread) inside

theorem Stmt.clone_narrow {base : LoopId} {s : Stmt F} : ∀ ctx : LoopId → LoopId,
    s.narrow.clone base ctx = s.clone base ctx := by
  have expr : ∀ (ctx : LoopId → LoopId) (e : Expr F), (e.clone id).clone ctx = e.clone ctx := by
    intro ctx e
    rw [Expr.clone, Expr.clone, Expr.mapIndex_mapIndex]
    rfl
  induction s using Stmt.inductTree with
  | loop header body ih =>
    intro ctx
    rw [Stmt.narrow_loop, Stmt.clone, Stmt.clone, Stmt.cloneBody_eq, Stmt.cloneBody_eq, List.map_map]
    exact congrArg _ (List.map_congr_left fun s mem => ih s mem _)
  | ifRange val start end_ body ih =>
    intro ctx
    rw [Stmt.narrow_ifRange, Stmt.clone, Stmt.clone, Stmt.cloneBody_eq, Stmt.cloneBody_eq,
      List.map_map, expr]
    exact congrArg _ (List.map_congr_left fun s mem => ih s mem _)
  | call | store | storeLocal =>
    intro ctx
    rw [Stmt.narrow, Stmt.clone_leaf rfl, Stmt.clone_leaf rfl, Stmt.mapExprs_mapExprs]
    simp only [expr]

theorem Stmt.scalar_narrow {s : Stmt F} : ∀ e ∈ s.narrow.collectRoots,
    ∀ index ∈ e.collectIndices, index.2 = .scalar .indexTy := by
  intro e mem
  rw [Stmt.narrow, Stmt.collectRoots_mapExprs] at mem
  obtain ⟨e, -, rfl⟩ := List.mem_map.mp mem
  exact Expr.scalar_clone

/-- In the normal form of narrowed statements every index is scalar, and its loop is known. -/
theorem Stmt.known_spreadBody {decls : Decls} {base : LoopId} {header : Loop} {inner : List LoopId}
    {content group : List (Stmt F)}
    (narrowed : (Stmt.loop header content).narrow.verify decls inner = true)
    (known : ∀ K ∈ header.id :: Stmt.loopIds content, K < base) (around : ∀ K ∈ inner, K < base)
    (inside : group ⊆ Stmt.spreadBody (content.map Stmt.narrow)) :
    (∀ K ∈ header.id :: Stmt.loopIds group, K < base) ∧
      ∀ s ∈ group, ∀ e ∈ s.collectRoots, ∀ index ∈ e.collectIndices,
        index.1 < base ∧ index.2 = .scalar .indexTy := by
  obtain ⟨loops, roots⟩ := Stmt.spreadBody_subset inside
  have ids : Stmt.loopIds (content.map Stmt.narrow) = Stmt.loopIds content :=
    Stmt.loopIds_mapExprs _ _
  refine ⟨fun K mem => known K (List.cons_subset_cons _ (ids ▸ loops) mem), ?_⟩
  intro s memS e memRoot index memIndex
  have memRoots := roots (List.mem_flatMap.mpr ⟨s, memS, memRoot⟩)
  constructor
  · rw [Stmt.narrow_loop] at narrowed
    obtain ⟨owner, -⟩ := Stmt.scoped_of_verify narrowed e
      (by rw [Stmt.collectRoots_loop]; exact memRoots) index memIndex
    rw [Stmt.ids_loop, ids] at owner
    exact owner.elim (around _) (known _)
  · obtain ⟨s', memS', memE⟩ := List.mem_flatMap.mp memRoots
    obtain ⟨s'', -, rfl⟩ := List.mem_map.mp memS'
    exact Stmt.scalar_narrow e memE index memIndex

theorem Stmt.spread_settled {s : Stmt F}
    (few : ∀ loop ∈ s.collectLoops, (packets loop.2).length < 2) : s.spread = [s] := by
  have below : ∀ {body : List (Stmt F)}, (∀ s ∈ body, s.spread = [s]) →
      Stmt.spreadBody body = body := by
    intro body each
    rw [Stmt.spreadBody_eq, List.flatMap_congr each, List.flatMap_singleton']
  induction s using Stmt.inductTree with
  | loop header body ih =>
    rw [Stmt.collectLoops_loop, List.forall_mem_cons] at few
    have alone : groups body = [body] := by
      have flat := flatten_groups body
      cases body with
      | nil => rfl
      | cons s rest =>
        obtain ⟨group, one⟩ : ∃ group, packets (s :: rest) = [group] :=
          List.length_eq_one_iff.mp (Nat.le_antisymm (Nat.le_of_lt_succ few.1)
            (List.length_pos_iff.mpr (groups_ne_nil (s :: rest))))
        rw [groups, one, List.flatten_singleton] at flat
        rw [groups, one, flat]
    rw [Stmt.spread, below fun s mem => ih s mem fun loop memLoop =>
      few.2 loop (List.mem_flatMap.mpr ⟨s, mem, memLoop⟩), alone, List.map_singleton]
  | ifRange val start end_ body ih =>
    rw [Stmt.collectLoops_ifRange] at few
    rw [Stmt.spread, below fun s mem => ih s mem fun loop memLoop =>
      few loop (List.mem_flatMap.mpr ⟨s, mem, memLoop⟩)]
  | call | store | storeLocal => rfl

/-! ## What the normal form does -/

section Semantics

variable [Field F] [LinearOrder F]

/-- Whether a statement is a scope, and what it does. -/
abbrev Action (F : Type) := Bool × (Env → State F → State F)

def Stmt.action (M : Machine F) (s : Stmt F) : Action F := (s.isScope, s.exec M)

/-- `groups` on actions. -/
def Action.groups : List (Action F) → List (List (Action F))
  | [] => [[]]
  | a :: rest => (a :: rest).splitBy fun a b => !a.1 && !b.1

variable {M : Machine F}

theorem groups_action (body : List (Stmt F)) :
    Action.groups (body.map (Stmt.action M)) = (groups body).map (List.map (Stmt.action M)) := by
  cases body with
  | nil => rfl
  | cons s rest => exact splitBy_map (fun s t => rfl) (s :: rest)

/-- Bodies of the same actions do the same. -/
theorem execBody_of_actions {body body' : List (Stmt F)}
    (same : body'.map (Stmt.action M) = body.map (Stmt.action M)) (env : Env) (st : State F) :
    Stmt.execBody M env body' st = Stmt.execBody M env body st := by
  have run : ∀ body : List (Stmt F), Stmt.execBody M env body st =
      Schedule.run (fun a : Action F => a.2 env) (body.map (Stmt.action M)) st := by
    intro body
    rw [Stmt.execBody_eq_run, Schedule.run_map]
    rfl
  rw [run, run, same]

theorem ScopeHead.action_congr {head : ScopeHead F} {body body' : List (Stmt F)}
    (same : body'.map (Stmt.action M) = body.map (Stmt.action M)) :
    (head.wrap body').action M = (head.wrap body).action M := by
  have run := fun env => funext (execBody_of_actions same env)
  cases head with
  | loop header =>
    apply Prod.ext
    · rfl
    · funext env st
      exact Stmt.exec_loop_congr rfl (fun i _ st => congrFun (run _) st) st
  | ifRange val start end_ =>
    apply Prod.ext
    · rfl
    · funext env st
      simp only [Stmt.action, ScopeHead.wrap, Stmt.exec, run env]

theorem actions_loop_congr {header : Loop} {body body' : List (Stmt F)}
    (same : body'.map (Stmt.action M) = body.map (Stmt.action M)) :
    ((groups body').map (.loop header)).map (Stmt.action M) =
      ((groups body).map (.loop header)).map (Stmt.action M) := by
  have parts : (groups body').map (List.map (Stmt.action M)) =
      (groups body).map (List.map (Stmt.action M)) := by
    rw [← groups_action, ← groups_action, same]
  have loop : (Stmt.action M ∘ Stmt.loop header).FactorsThrough (List.map (Stmt.action M)) :=
    fun _ _ same => @ScopeHead.action_congr F _ _ M (.loop header) _ _ same
  have : Nonempty (Action F) := ⟨false, fun _ => id⟩
  obtain ⟨make, made⟩ := (Function.factorsThrough_iff _).mp loop
  rw [List.map_map, List.map_map, made, ← List.map_map, parts, List.map_map]

/-- The actions of the normal form of a body. -/
def Stmt.actions (M : Machine F) (body : List (Stmt F)) : List (Action F) :=
  (Stmt.spreadBody body).map (Stmt.action M)

theorem compositional_actions :
    Compositional fun _ (body : List (Stmt F)) => Stmt.actions M body where
  append before after same := by
    simp only [Stmt.actions, Stmt.spreadBody_eq, List.flatMap_append, List.map_append] at same ⊢
    rw [same]
  wrap head same := by
    cases head with
    | loop header =>
      simp only [Stmt.actions, ScopeHead.wrap, Stmt.spreadBody, Stmt.spread, List.append_nil]
      exact actions_loop_congr same
    | ifRange val start end_ =>
      simp only [Stmt.actions, ScopeHead.wrap, Stmt.spreadBody, Stmt.spread, List.append_nil,
        List.map_singleton]
      exact congrArg (fun a => [a]) (@ScopeHead.action_congr F _ _ M (.ifRange val start end_) _ _ same)

/-- A new loop does what the loop does on the packet. -/
theorem exec_splitLoop {base cnt : Nat} {header : Loop} {group : List (Stmt F)}
    (known : ∀ K ∈ header.id :: Stmt.loopIds group, K < base)
    (indices : ∀ s ∈ group, ∀ e ∈ s.collectRoots, ∀ index ∈ e.collectIndices,
      index.1 < base ∧ index.2 = .scalar .indexTy) (env : Env) (st : State F) :
    (Stmt.loop (splitHeader base header cnt)
      (group.map (Stmt.clone base (Function.update id header.id
        (splitHeader base header cnt).id)))).exec M env st = (Stmt.loop header group).exec M env st := by
  -- The address of a new loop is that of no loop and of no clone.
  have new : ∀ L < base, ∀ K < base, (splitHeader base header cnt).id ≠ base + K ∧
      L ≠ (splitHeader base header cnt).id := by
    intro L belowL K belowK
    have first : base + base ≤ (splitHeader base header cnt).id :=
      Nat.two_mul base ▸ Nat.le_add_right _ _
    constructor
    · intro clash
      rw [clash] at first
      exact Nat.not_lt.mpr (Nat.le_of_add_le_add_left first) belowK
    · exact (belowL.trans_le ((Nat.le_add_right base base).trans first)).ne
  have iterations : (splitHeader base header cnt).iterations = header.iterations := rfl
  apply Stmt.exec_loop_congr iterations
  intro i _ st
  apply Stmt.execBody_map
  intro s mem st
  have loops : ∀ loop ∈ s.collectLoops, loop.1.id < base := fun loop memLoop =>
    known _ (List.mem_cons_of_mem _ (Stmt.mem_loopIds mem (List.mem_map_of_mem memLoop)))
  apply Stmt.exec_clone loops (indices s mem)
  intro L below
  -- The new loop has the iterations of the old one, and its index is taken for that of the old one.
  by_cases here : L = header.id
  · subst here
    rw [Function.update_self, Function.update_self, Function.update_self]
    exact ⟨fun K belowK _ => (new header.id below K belowK).1, rfl⟩
  · rw [Function.update_of_ne here, Function.update_of_ne here, id,
      Function.update_of_ne (new L below L below).2]
    exact ⟨fun K _ _ => (below.trans_le (Nat.le_add_right _ K)).ne, rfl⟩

/-- The normal form of a new loop does what the loop does on the normal form of the packet. -/
theorem actions_splitPacket {base : LoopId} {header : Loop} {packet : List (Stmt F) × Nat}
    (filled : packet.1 ≠ [])
    (known : ∀ group ⊆ Stmt.spreadBody (packet.1.map Stmt.narrow),
      (∀ K ∈ header.id :: Stmt.loopIds group, K < base) ∧
        ∀ s ∈ group, ∀ e ∈ s.collectRoots, ∀ index ∈ e.collectIndices,
          index.1 < base ∧ index.2 = .scalar .indexTy) :
    (Stmt.loop (splitHeader base header packet.2)
      (splitContent base header packet)).spread.map (Stmt.action M) =
      ((packets (Stmt.spreadBody (packet.1.map Stmt.narrow))).map (.loop header)).map
        (Stmt.action M) := by
  have copies : splitContent base header packet = Stmt.cloneBody base (Function.update id header.id
      (splitHeader base header packet.2).id) (packet.1.map Stmt.narrow) := by
    rw [splitContent, Stmt.cloneBody_eq, Stmt.cloneBody_eq, List.map_map]
    exact List.map_congr_left fun s _ => (Stmt.clone_narrow _).symm
  have spread : Stmt.spreadBody (packet.1.map Stmt.narrow) ≠ [] :=
    Stmt.spreadBody_ne_nil (mt List.map_eq_nil_iff.mp filled)
  rw [Stmt.spread, copies, Stmt.spreadBody_clone, groups_map (Stmt.isScope_clone base _),
    groups_of_ne_nil spread, List.map_map, List.map_map, List.map_map]
  apply List.map_congr_left
  intro part mem
  rw [← groups_of_ne_nil spread] at mem
  obtain ⟨below, indices⟩ := known part (sublist_of_mem_groups mem).subset
  apply Prod.ext
  · rfl
  · funext env st
    exact exec_splitLoop below indices env st

theorem splitInvariant_actions (decls : Decls) :
    SplitInvariant decls fun _ (body : List (Stmt F)) => Stmt.actions M body where
  toCompositional := compositional_actions
  split := by
    intro base header content inner _ narrowed many _ known around
    have nonempty : content.map Stmt.narrow ≠ [] := by
      intro empty
      rw [List.map_eq_nil_iff.mp empty] at many
      cases many
    -- Each new loop does on its packet what the loop does; the loops together are the groups.
    have piece : ∀ packet ∈ (packets content).zipIdx,
        (Stmt.loop (splitHeader base header packet.2)
          (splitContent base header packet)).spread.map (Stmt.action M) =
        ((packets (Stmt.spreadBody (packet.1.map Stmt.narrow))).map (.loop header)).map
          (Stmt.action M) := by
      intro packet mem
      apply actions_splitPacket (List.ne_nil_of_mem_splitBy (List.fst_mem_of_mem_zipIdx mem))
      intro group inside
      apply Stmt.known_spreadBody narrowed known around
      intro t memT
      rw [Stmt.spreadBody_eq] at inside ⊢
      obtain ⟨s, memS, memSpread⟩ := List.mem_flatMap.mp (inside memT)
      obtain ⟨s, memPacket, rfl⟩ := List.mem_map.mp memS
      exact List.mem_flatMap.mpr ⟨_, List.mem_map_of_mem (mem_packet mem memPacket), memSpread⟩
    have together : (packets content).zipIdx.map Prod.fst = packets content :=
      List.zipIdx_map_fst _ _
    rw [Stmt.narrow_loop]
    simp only [Stmt.actions, Stmt.spreadBody_eq, splitLoops, List.flatMap_map, List.map_flatMap,
      List.flatMap_singleton]
    rw [List.flatMap_congr piece, Stmt.spread, groups_of_ne_nil (Stmt.spreadBody_ne_nil nonempty),
      packets_spreadBody, packets_map (f := Stmt.narrow) (Stmt.isScope_mapExprs _)]
    conv_rhs => rw [← together]
    simp only [List.flatMap_map, List.map_flatMap]

/-! ## Narrowing -/

/-- The first lane of an expression does not depend on the width of its indices. -/
theorem Expr.eval_narrow {st : State F} {env : Env} {e : Expr F} :
    (e.clone id).eval M st env 0 = e.eval M st env 0 := by
  have subscripts : ∀ {indices : List (Expr F)},
      (∀ e ∈ indices, (e.clone id).eval M st env 0 = e.eval M st env 0) →
      Expr.subscripts M st env (indices.map (Expr.clone id)) = Expr.subscripts M st env indices := by
    intro indices each
    rw [Expr.subscripts_eq, Expr.subscripts_eq, List.map_map]
    apply List.map_congr_left
    intro e mem
    rw [Function.comp, each e mem]
  induction e using Expr.inductTree with
  | index loop type => simp [Expr.clone, Expr.mapIndex, Expr.indexOf, Expr.eval]
  | const | constFP | constString | loadLocal => rfl
  | binary kind lhs rhs ihL ihR => exact congrArg₂ (M.binOp kind) ihL ihR
  | unary kind val ih => exact congrArg (M.unOp kind) ih
  | broadcast val vf ih => exact ih
  | gep arg indices ih | load arg indices type ih =>
    rw [Expr.eval, ← subscripts ih, Expr.clone, Expr.mapIndex, Expr.mapIndexList_eq, Expr.eval]

theorem Stmt.actions_map {f : Stmt F → Stmt F} {body : List (Stmt F)}
    (each : ∀ s ∈ body, (f s).spread.map (Stmt.action M) = s.spread.map (Stmt.action M)) :
    Stmt.actions M (body.map f) = Stmt.actions M body := by
  rw [Stmt.actions, Stmt.actions, Stmt.spreadBody_eq, Stmt.spreadBody_eq, List.flatMap_map,
    List.map_flatMap, List.map_flatMap]
  exact List.flatMap_congr each

theorem Stmt.actions_narrow {s : Stmt F}
    (scalar : ∀ e ∈ s.leafExprs, ∀ index ∈ e.collectIndices, index.2 = .scalar .indexTy) :
    s.narrow.spread.map (Stmt.action M) = s.spread.map (Stmt.action M) := by
  induction s using Stmt.inductTree with
  | loop header body ih =>
    rw [Stmt.leafExprs, Stmt.leafExprsBody_eq] at scalar
    rw [Stmt.narrow_loop, Stmt.spread, Stmt.spread]
    apply actions_loop_congr
    apply Stmt.actions_map
    exact fun s mem => ih s mem fun e memE => scalar e (List.mem_flatMap.mpr ⟨s, mem, memE⟩)
  | ifRange val start end_ body ih =>
    have inside : ∀ s ∈ body, ∀ e ∈ s.leafExprs, e ∈ (Stmt.ifRange val start end_ body).leafExprs := by
      intro s mem e memE
      rw [Stmt.leafExprs, if_pos (List.any_eq_true.mpr ⟨s, mem, Stmt.hasLeaf_of_mem_leafExprs memE⟩),
        Stmt.leafExprsBody_eq]
      exact List.mem_cons_of_mem _ (List.mem_flatMap.mpr ⟨s, mem, memE⟩)
    have same := Stmt.actions_map fun s mem => ih s mem fun e memE => scalar e (inside s mem e memE)
    rw [Stmt.narrow_ifRange, Stmt.spread, Stmt.spread, List.map_singleton, List.map_singleton]
    congr 1
    apply Prod.ext
    · rfl
    · funext env st
      simp only [Stmt.action, Stmt.exec, Expr.eval_narrow, funext (execBody_of_actions same env)]
  | call | store | storeLocal =>
    rw [Stmt.narrow_of_scalar]
    rwa [Stmt.collectRoots_leaf rfl]

theorem Stmt.actions_narrowSplit {s : Stmt F}
    (scalar : ∀ loop ∈ s.collectLoops, (Stmt.loop loop.1 loop.2).splits = true → ∀ t ∈ loop.2,
      ∀ e ∈ t.leafExprs, ∀ index ∈ e.collectIndices, index.2 = .scalar .indexTy) :
    s.narrowSplit.spread.map (Stmt.action M) = s.spread.map (Stmt.action M) := by
  induction s using Stmt.inductTree with
  | loop header body ih =>
    rw [Stmt.collectLoops_loop, List.forall_mem_cons] at scalar
    rw [Stmt.narrowSplit]
    split
    -- The loop is split, so its body becomes narrow, which changes no action.
    next splits =>
      rw [← Stmt.narrow_loop]
      apply Stmt.actions_narrow
      intro e mem
      rw [Stmt.leafExprs, Stmt.leafExprsBody_eq] at mem
      obtain ⟨t, memT, memE⟩ := List.mem_flatMap.mp mem
      exact scalar.1 splits t memT e memE
    next =>
      rw [Stmt.spread, Stmt.spread, Stmt.narrowSplitBody_eq]
      apply actions_loop_congr
      apply Stmt.actions_map
      exact fun s mem => ih s mem fun loop memLoop =>
        scalar.2 loop (List.mem_flatMap.mpr ⟨s, mem, memLoop⟩)
  | ifRange val start end_ body ih =>
    rw [Stmt.collectLoops_ifRange] at scalar
    have same : Stmt.actions M (body.map Stmt.narrowSplit) = Stmt.actions M body :=
      Stmt.actions_map fun s mem => ih s mem fun loop memLoop =>
        scalar loop (List.mem_flatMap.mpr ⟨s, mem, memLoop⟩)
    rw [Stmt.narrowSplit, Stmt.narrowSplitBody_eq, Stmt.spread, Stmt.spread, List.map_singleton,
      List.map_singleton]
    exact congrArg (fun a => [a]) (@ScopeHead.action_congr F _ _ M (.ifRange val start end_) _ _ same)
  | call | store | storeLocal => rfl

/-! ## Running the packets one after the other -/

mutual

/-- In every loop, the parts of the body that end in loops of their own may be run one after the
other: a later part of an iteration commutes with an earlier part of a later iteration. -/
def Stmt.Distributable (M : Machine F) : Stmt F → Env → Prop
  | .loop header body, env =>
    (header.iterations.Pairwise fun i j =>
      (groups (Stmt.spreadBody body)).Pairwise fun first second =>
        Function.Commute (Stmt.execBody M (Function.update env header.id j) first)
          (Stmt.execBody M (Function.update env header.id i) second)) ∧
    ∀ i ∈ header.iterations, Stmt.DistributableBody M body (Function.update env header.id i)
  | .ifRange _ _ _ body, env => Stmt.DistributableBody M body env
  | _, _ => True

def Stmt.DistributableBody (M : Machine F) : List (Stmt F) → Env → Prop
  | [], _ => True
  | s :: rest, env => s.Distributable M env ∧ Stmt.DistributableBody M rest env

end

@[simp] theorem Stmt.distributableBody_iff (body : List (Stmt F)) (env : Env) :
    Stmt.DistributableBody M body env ↔ ∀ s ∈ body, s.Distributable M env := by
  induction body with
  | nil => simp [Stmt.DistributableBody]
  | cons s rest ih => simp [Stmt.DistributableBody, ih]

theorem Stmt.execBody_flatten {env : Env} {bodies : List (List (Stmt F))} (st : State F) :
    Stmt.execBody M env bodies.flatten st = Schedule.run (Stmt.execBody M env) bodies st := by
  induction bodies generalizing st with
  | nil => rfl
  | cons body rest ih => rw [List.flatten_cons, Stmt.execBody_append, ih, Schedule.run_cons]

theorem Stmt.execBody_spreadBody_of {body : List (Stmt F)} {env : Env}
    (each : ∀ s ∈ body, ∀ st, Stmt.execBody M env s.spread st = s.exec M env st) (st : State F) :
    Stmt.execBody M env (Stmt.spreadBody body) st = Stmt.execBody M env body st := by
  rw [Stmt.spreadBody_eq]
  exact Stmt.execBody_flatMap each st

theorem Stmt.exec_spread {s : Stmt F} : ∀ {env : Env}, s.Distributable M env → ∀ st,
    Stmt.execBody M env s.spread st = s.exec M env st := by
  induction s using Stmt.inductTree with
  | loop header body ih =>
    intro env distributable st
    rw [Stmt.Distributable] at distributable
    obtain ⟨commute, inside⟩ := distributable
    -- An iteration runs the normal forms of the parts one after the other.
    have parts : ∀ i st, Schedule.run (Stmt.execBody M (Function.update env header.id i))
        (groups (Stmt.spreadBody body)) st =
          Stmt.execBody M (Function.update env header.id i) (Stmt.spreadBody body) st := by
      intro i st
      rw [← Stmt.execBody_flatten, flatten_groups]
    calc Stmt.execBody M env (Stmt.loop header body).spread st
        = Schedule.run (fun group => Schedule.run (fun i =>
            Stmt.execBody M (Function.update env header.id i) group) header.iterations)
            (groups (Stmt.spreadBody body)) st := by
          rw [Stmt.spread, Stmt.execBody_eq_run, Schedule.run_map]
          rfl
      _ = Schedule.run (fun i => Schedule.run (fun group =>
            Stmt.execBody M (Function.update env header.id i) group)
            (groups (Stmt.spreadBody body))) header.iterations st :=
          (Schedule.run_interchange commute st).symm
      _ = (Stmt.loop header body).exec M env st := by
          rw [Stmt.exec]
          apply Schedule.run_congr
          intro i memI st
          rw [parts]
          apply Stmt.execBody_spreadBody_of
          intro s mem
          exact ih s mem ((Stmt.distributableBody_iff body _).mp (inside i memI) s mem)
  | ifRange val start end_ body ih =>
    intro env distributable st
    rw [Stmt.Distributable, Stmt.distributableBody_iff] at distributable
    have same := Stmt.execBody_spreadBody_of fun s mem => ih s mem (distributable s mem)
    rw [Stmt.spread, Stmt.execBody_singleton, Stmt.exec, Stmt.exec, same]
  | call | store | storeLocal => exact fun _ _ => rfl

/-! ## Distributing a program -/

/-- In every loop of the program, the parts that end in loops of their own may be run one after the
other. -/
def Program.Distributable (M : Machine F) (p : Program F) : Prop :=
  Stmt.DistributableBody M p.body fun _ => 0

end Semantics

/-- `for (i in 0 .. 4) { C[i] = 0; for (j in 0 .. 2) C[i] += X[j]; }` -/
def rowSums : Program ℚ where
  name := "row_sums"
  args := [⟨"C", ⟨[4], ["x"], .float32Ty, oneDim⟩⟩, ⟨"X", ⟨[2], ["y"], .float32Ty, oneDim⟩⟩]
  vars := []
  body := [.loop ⟨0, "i", 4, 1⟩ [.store 0 [.indexOf 0] (.constFP 0) false,
    .loop ⟨1, "j", 2, 1⟩
      [.store 0 [.indexOf 0] (.load 1 [.indexOf 1] (.scalar .float32Ty)) true]]]

/-- A later iteration of `rowSums` clears another cell. -/
theorem distributable_rowSums (M : Machine ℚ) : rowSums.Distributable M := by
  -- Clearing a cell of `C` commutes with adding to another one.
  have apart : ∀ i j : Int, i ≠ j → ∀ env : Env, Function.Commute
      (Stmt.execBody M (Function.update env 0 j) [.store 0 [.indexOf 0] (.constFP 0) false])
      (Stmt.execBody M (Function.update env 0 i) [.loop ⟨1, "j", 2, 1⟩
        [.store 0 [.indexOf 0] (.load 1 [.indexOf 1] (.scalar .float32Ty)) true]]) := by
    intro i j differ env
    apply Stmt.commute_exec (fun env => env 0 = i)
    · intro loop mem env here k _
      rw [List.mem_singleton.mp mem]
      exact here
    · intro u mem leaf env' here
      cases List.mem_cons.mp mem with
      | inl outer => cases outer ▸ leaf
      | inr inner =>
      cases List.mem_singleton.mp inner
      have verified : (Stmt.store 0 [.indexOf 0] (.constFP 0) false : Stmt ℚ).verify rowSums.decls
          [0] = true := by decide
      have verified' : (Stmt.store 0 [.indexOf 0] (.load 1 [.indexOf 1] (.scalar .float32Ty)) true :
          Stmt ℚ).verify rowSums.decls [1, 0] = true := by decide
      apply Stmt.Independent.commute verified verified' rfl rfl
      refine ⟨?_, ?_, .inr ?_, ?_, .inl rfl⟩
      · refine ⟨fun st w memW r memR buf cell touchesW touchesR => ?_, by rintro _ ⟨⟩⟩
        cases List.mem_singleton.mp memW
        cases List.mem_singleton.mp memR
        cases touchesW.1.symm.trans touchesR.1
      · exact ⟨fun st w _ r none => absurd none List.not_mem_nil, by rintro _ ⟨⟩⟩
      · intro st w memW w' memW' buf cell touches touches'
        cases List.mem_singleton.mp memW
        cases List.mem_singleton.mp memW'
        obtain ⟨-, lane, below, place⟩ := touches
        obtain ⟨-, lane', below', place'⟩ := touches'
        cases Nat.lt_one_iff.mp below
        cases Nat.lt_one_iff.mp below'
        rw [place] at place'
        simp [Expr.indexOf, Expr.eval, Scalar.toInt, here] at place'
        exact differ place'.symm
      · rintro _ ⟨⟩
    · rintro _ ⟨⟩
    · exact Function.update_self ..
  have distinct : (Loop.iterations ⟨0, "i", 4, 1⟩).Pairwise fun i j => i ≠ j := by decide
  refine ⟨⟨distinct.imp fun differ => ?_, fun i _ => ?_⟩, trivial⟩
  · exact List.pairwise_pair.mpr (apart _ _ differ _)
  · refine ⟨trivial, ⟨?_, fun _ _ => ⟨trivial, trivial⟩⟩, trivial⟩
    exact List.pairwise_of_forall fun i j => List.pairwise_singleton _ _

/-- `for (i in 0 .. 2) { A[0] = i; for (j in 0 .. 1) B[i] = A[0]; }` -/
def copyThroughCell : Program ℚ where
  name := "copy_through_cell"
  args := [⟨"A", ⟨[1], ["x"], .indexTy, oneDim⟩⟩, ⟨"B", ⟨[2], ["y"], .indexTy, oneDim⟩⟩]
  vars := []
  body := [.loop ⟨0, "i", 2, 1⟩ [.store 0 [.const 0] (.indexOf 0) false,
    .loop ⟨1, "j", 1, 1⟩
      [.store 1 [.indexOf 0] (.load 0 [.const 0] (.scalar .indexTy)) false]]]

end Bistra
