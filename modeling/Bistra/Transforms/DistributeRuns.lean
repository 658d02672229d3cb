import Bistra.Transforms.Distribute

/-! # What distribution does

One split moves the gaps between the packets of a loop to the body around the loop, so that the gaps,
weighted with the number of loops around them, become fewer.  It clones the body of the loop, which
makes the indices in it scalar and keeps everything else.
-/

namespace Bistra

variable {F : Type}

/-! ## Which loops are split -/

mutual

/-- The loop is split sooner or later: it has several packets, or it gets them when a loop in its body
is split. -/
def Stmt.splits : Stmt F → Bool
  | .loop _ body => decide (2 ≤ (packets body).length) || Stmt.splitsBody body
  | _ => false

def Stmt.splitsBody : List (Stmt F) → Bool
  | [] => false
  | s :: rest => s.splits || Stmt.splitsBody rest

end

mutual

/-- The statement after the indices in the bodies of the loops that are split have become scalar. -/
def Stmt.narrowSplit : Stmt F → Stmt F
  | .loop header body =>
    if (Stmt.loop header body).splits then .loop header (body.map Stmt.narrow)
    else .loop header (Stmt.narrowSplitBody body)
  | .ifRange val start end_ body => .ifRange val start end_ (Stmt.narrowSplitBody body)
  | s => s

def Stmt.narrowSplitBody : List (Stmt F) → List (Stmt F)
  | [] => []
  | s :: rest => s.narrowSplit :: Stmt.narrowSplitBody rest

end

mutual

/-- The gaps between the packets of a loop, each with the number of loops around it up to the next
`IfRange`.  There are `depth` such loops around the statement. -/
def Stmt.splitWeight (depth : Nat) : Stmt F → Nat
  | .loop _ body => ((packets body).length - 1) * (depth + 1) + Stmt.splitWeights (depth + 1) body
  | .ifRange _ _ _ body => Stmt.splitWeights 0 body
  | _ => 0

def Stmt.splitWeights (depth : Nat) : List (Stmt F) → Nat
  | [] => 0
  | s :: rest => s.splitWeight depth + Stmt.splitWeights depth rest

end

@[simp] theorem Stmt.splitsBody_eq (body : List (Stmt F)) :
    Stmt.splitsBody body = body.any Stmt.splits := by
  induction body with
  | nil => rfl
  | cons s rest ih => simp [Stmt.splitsBody, ih]

@[simp] theorem Stmt.narrowSplitBody_eq (body : List (Stmt F)) :
    Stmt.narrowSplitBody body = body.map Stmt.narrowSplit := by
  induction body with
  | nil => rfl
  | cons s rest ih => simp [Stmt.narrowSplitBody, ih]

@[simp] theorem Stmt.splitWeights_eq (depth : Nat) (body : List (Stmt F)) :
    Stmt.splitWeights depth body = (body.map (Stmt.splitWeight depth)).sum := by
  induction body with
  | nil => rfl
  | cons s rest ih => simp [Stmt.splitWeights, ih]

@[simp] theorem ScopeHead.isScope_wrap (head : ScopeHead F) (body : List (Stmt F)) :
    (head.wrap body).isScope = true := by
  cases head <;> rfl

theorem Stmt.splits_of_many {header : Loop} {body : List (Stmt F)}
    (many : 2 ≤ (packets body).length) : (Stmt.loop header body).splits = true := by
  rw [Stmt.splits, decide_eq_true many, Bool.true_or]

theorem Stmt.narrowSplit_of_scalar {s : Stmt F}
    (scalar : ∀ e ∈ s.collectRoots, ∀ index ∈ e.collectIndices, index.2 = .scalar .indexTy) :
    s.narrowSplit = s := by
  induction s using Stmt.inductTree with
  | loop header body ih =>
    have each : ∀ s ∈ body, ∀ e ∈ s.collectRoots, ∀ index ∈ e.collectIndices,
        index.2 = .scalar .indexTy := fun s mem e memRoot =>
      scalar e (by rw [Stmt.collectRoots_loop]; exact List.mem_flatMap.mpr ⟨s, mem, memRoot⟩)
    rw [Stmt.narrowSplit, Stmt.narrowSplitBody_eq,
      map_eq_self fun s mem => Stmt.narrow_of_scalar (each s mem),
      map_eq_self fun s mem => ih s mem (each s mem), ite_self]
  | ifRange val start end_ body ih =>
    rw [Stmt.narrowSplit, Stmt.narrowSplitBody_eq]
    congr 1
    apply map_eq_self
    intro s mem
    apply ih s mem
    intro e memRoot
    apply scalar
    rw [Stmt.collectRoots_ifRange]
    exact List.mem_cons_of_mem _ (List.mem_flatMap.mpr ⟨s, mem, memRoot⟩)
  | call | store | storeLocal => rfl

theorem Stmt.splits_eq_false {s : Stmt F}
    (few : ∀ loop ∈ s.collectLoops, (packets loop.2).length < 2) :
    s.splits = false ∧ s.narrowSplit = s := by
  induction s using Stmt.inductTree with
  | loop header body ih =>
    rw [Stmt.collectLoops_loop, List.forall_mem_cons] at few
    have each : ∀ s ∈ body, s.splits = false ∧ s.narrowSplit = s := fun s mem =>
      ih s mem fun loop memLoop => few.2 loop (List.mem_flatMap.mpr ⟨s, mem, memLoop⟩)
    have whole : (Stmt.loop header body).splits = false := by
      rw [Stmt.splits, Stmt.splitsBody_eq, Bool.or_eq_false_iff, decide_eq_false_iff_not,
        List.any_eq_false]
      exact ⟨Nat.not_le.mpr few.1, fun s mem => Bool.not_eq_true _ ▸ (each s mem).1⟩
    refine ⟨whole, ?_⟩
    rw [Stmt.narrowSplit, whole, Stmt.narrowSplitBody_eq,
      map_eq_self fun s mem => (each s mem).2]
    exact if_neg Bool.false_ne_true
  | ifRange val start end_ body ih =>
    rw [Stmt.collectLoops_ifRange] at few
    refine ⟨rfl, ?_⟩
    rw [Stmt.narrowSplit, Stmt.narrowSplitBody_eq]
    congr 1
    exact map_eq_self fun s mem =>
      (ih s mem fun loop memLoop => few loop (List.mem_flatMap.mpr ⟨s, mem, memLoop⟩)).2
  | call | store | storeLocal => exact ⟨rfl, rfl⟩

theorem Stmt.length_outline_narrowSplit {s : Stmt F} : ∀ loops : List LoopId,
    (s.narrowSplit.outline loops).length = (s.outline loops).length := by
  induction s using Stmt.inductTree with
  | loop header body ih =>
    intro loops
    rw [Stmt.narrowSplit]
    split
    · rw [← Stmt.narrow_loop, Stmt.length_outline_narrow]
    · simp only [Stmt.narrowSplitBody_eq, Stmt.outline, Stmt.outlineBody_eq, List.length_map,
        List.flatMap_map, List.length_flatMap]
      rw [List.map_congr_left fun s mem => ih s mem _]
  | ifRange val start end_ body ih =>
    intro loops
    simp only [Stmt.narrowSplit, Stmt.narrowSplitBody_eq, Stmt.outline, Stmt.outlineBody_eq,
      List.length_map, List.flatMap_map, List.length_flatMap]
    rw [List.map_congr_left fun s mem => ih s mem _]
  | call | store | storeLocal => exact fun _ => rfl

theorem Stmt.outline_narrowSplit_iff {s : Stmt F} : ∀ {loops : List LoopId},
    s.narrowSplit.outline loops = s.outline loops ↔
      ∀ loop ∈ s.collectLoops, (Stmt.loop loop.1 loop.2).splits = true → ∀ t ∈ loop.2,
        ∀ e ∈ t.leafExprs, ∀ index ∈ e.collectIndices, index.2 = .scalar .indexTy := by
  induction s using Stmt.inductTree with
  | loop header body ih =>
    intro loops
    rw [Stmt.collectLoops_loop, List.forall_mem_cons, Stmt.narrowSplit]
    split
    -- The loop is split: what its leaves show has to be scalar.
    next splits =>
      rw [← Stmt.narrow_loop, Stmt.outline_narrow_iff, Stmt.leafExprs, Stmt.leafExprsBody_eq]
      simp only [splits, List.mem_flatMap, forall_exists_index, and_imp, true_imp_iff]
      constructor
      · intro scalar
        refine ⟨fun t mem e memE => scalar e t mem memE, ?_⟩
        intro loop s memS memLoop _ t memT e memE
        exact scalar e s memS (Stmt.leafExprs_of_loop memLoop t memT memE)
      · exact fun scalar e t mem memE => scalar.1 t mem e memE
    -- The loop stays: only loops below it may be split.
    next stays =>
      rw [Stmt.outline, Stmt.outline, Stmt.outlineBody_eq, Stmt.outlineBody_eq,
        Stmt.narrowSplitBody_eq, (Occurrence.under_injective _).list_map.eq_iff,
        Stmt.outlineBody_map_iff fun s _ => Stmt.length_outline_narrowSplit _,
        forall₂_congr fun s mem => ih s mem]
      simp only [List.mem_flatMap, forall_exists_index, and_imp]
      constructor
      · exact fun each => ⟨fun splits => absurd splits stays,
          fun loop s memS memLoop => each s memS loop memLoop⟩
      · exact fun each s memS loop memLoop => each.2 loop s memS memLoop
  | ifRange val start end_ body ih =>
    intro loops
    rw [Stmt.collectLoops_ifRange, Stmt.narrowSplit, Stmt.outline, Stmt.outline,
      Stmt.outlineBody_eq, Stmt.outlineBody_eq, Stmt.narrowSplitBody_eq,
      (Occurrence.under_injective _).list_map.eq_iff,
      Stmt.outlineBody_map_iff fun s _ => Stmt.length_outline_narrowSplit _,
      forall₂_congr fun s mem => ih s mem]
    simp only [List.mem_flatMap, forall_exists_index, and_imp]
    constructor
    · exact fun each loop s memS memLoop => each s memS loop memLoop
    · exact fun each s memS loop memLoop => each loop s memS memLoop
  | call | store | storeLocal =>
    intro loops
    simp [Stmt.narrowSplit]

/-! ## One split -/

section Split

variable {base : LoopId} {header : Loop} {content : List (Stmt F)} {inner scope : List LoopId}
  {body body' : List (Stmt F)}

theorem ScopeHead.length_packets (head : ScopeHead F) (before after body body' : List (Stmt F)) :
    (packets (before ++ head.wrap body' :: after)).length =
      (packets (before ++ head.wrap body :: after)).length := by
  rw [packets_append_scope _ _ (head.isScope_wrap body'),
    packets_append_scope _ _ (head.isScope_wrap body)]
  simp

theorem length_packets_split (many : 2 ≤ (packets content).length) (before after : List (Stmt F)) :
    (packets (before ++ (splitLoops base header content ++ after))).length =
      (packets before).length + (packets content).length + (packets after).length := by
  rw [length_packets_scopes _ _ isScope_splitLoops, length_splitLoops]
  intro none
  have := congrArg List.length none
  rw [length_splitLoops, List.length_nil] at this
  omega

theorem Replaces.splits (many : 2 ≤ (packets content).length)
    (replaced : Replaces (.loop header content) (splitLoops base header content) inner scope body body')
    (outer : Loop) : (Stmt.loop outer body').splits = (Stmt.loop outer body).splits := by
  induction replaced generalizing outer with
  | here before after =>
    have old : (Stmt.loop outer (before ++ .loop header content :: after)).splits = true := by
      rw [Stmt.splits, Stmt.splitsBody_eq, List.any_append, List.any_cons,
        Stmt.splits_of_many many]
      simp
    rw [old]
    apply Stmt.splits_of_many
    rw [length_packets_split many]
    omega
  | @within head before after scope body body' below ih =>
    have below : (head.wrap body').splits = (head.wrap body).splits := by
      cases head with
      | loop outer' => exact ih outer'
      | ifRange val start end_ => rfl
    rw [Stmt.splits, Stmt.splits, head.length_packets before after body body', Stmt.splitsBody_eq,
      Stmt.splitsBody_eq, List.any_append, List.any_append, List.any_cons, List.any_cons, below]

theorem Stmt.splitWeight_clone {base : LoopId} {s : Stmt F} : ∀ (ctx : LoopId → LoopId)
    (depth : Nat), (s.clone base ctx).splitWeight depth = s.splitWeight depth := by
  induction s using Stmt.inductTree with
  | loop header body ih =>
    intro ctx depth
    simp only [Stmt.clone, Stmt.splitWeight, Stmt.cloneBody_eq, Stmt.splitWeights_eq,
      packets_map (Stmt.isScope_clone base _), List.length_map, List.map_map, Function.comp_def]
    rw [List.map_congr_left fun s mem => ih s mem _ _]
  | ifRange val start end_ body ih =>
    intro ctx depth
    simp only [Stmt.clone, Stmt.splitWeight, Stmt.cloneBody_eq, Stmt.splitWeights_eq,
      List.map_map, Function.comp_def]
    rw [List.map_congr_left fun s mem => ih s mem _ _]
  | call | store | storeLocal => exact fun _ _ => rfl

theorem length_packets_splitContent {packet : List (Stmt F) × Nat}
    (mem : packet ∈ (packets content).zipIdx) :
    (packets (splitContent base header packet)).length = 1 := by
  have memPacket : packet.1 ∈ packets content := List.fst_mem_of_mem_zipIdx mem
  have alone : packets packet.1 = [packet.1] :=
    List.splitBy_of_isChain (List.ne_nil_of_mem_splitBy memPacket)
      (List.isChain_of_mem_splitBy memPacket)
  rw [splitContent, Stmt.cloneBody_eq, packets_map (Stmt.isScope_clone base _), alone]
  rfl

theorem splitWeights_splitLoops (depth : Nat) :
    Stmt.splitWeights depth (splitLoops base header content) =
      Stmt.splitWeights (depth + 1) content := by
  have each : ∀ packet ∈ (packets content).zipIdx,
      (Stmt.loop (splitHeader base header packet.2)
        (splitContent base header packet)).splitWeight depth =
      (packet.1.map (Stmt.splitWeight (depth + 1))).sum := by
    intro packet mem
    rw [Stmt.splitWeight, length_packets_splitContent mem, Nat.sub_self, Nat.zero_mul,
      Nat.zero_add, splitContent, Stmt.cloneBody_eq, Stmt.splitWeights_eq, List.map_map]
    congr 1
    exact List.map_congr_left fun s _ => Stmt.splitWeight_clone _ _
  have together : ((packets content).zipIdx.map Prod.fst).flatten = content := by
    rw [List.zipIdx_map_fst, packets, List.flatten_splitBy]
  simp only [Stmt.splitWeights_eq, splitLoops, List.map_map, Function.comp_def]
  rw [List.map_congr_left each]
  conv_rhs => rw [← together, List.map_flatten, List.sum_flatten, List.map_map, List.map_map]
  rfl

/-- A split makes the weight of the body around the loop smaller: the gaps of the loop move to that
body, where there is one loop less around them. -/
theorem Replaces.splitWeight_lt (many : 2 ≤ (packets content).length)
    (replaced : Replaces (.loop header content) (splitLoops base header content) inner scope body body')
    (depth : Nat) :
    ((packets body').length - 1) * depth + Stmt.splitWeights depth body' <
      ((packets body).length - 1) * depth + Stmt.splitWeights depth body := by
  induction replaced generalizing depth with
  | here before after =>
    -- The loop is one packet of the body around it, and its packets take the place of this one.
    have old : (packets (before ++ .loop header content :: after)).length =
        (packets before).length + 1 + (packets after).length := by
      rw [packets_append_scope _ _ rfl, List.length_append, List.length_cons]
      omega
    have pieces := @splitWeights_splitLoops F base header content depth
    rw [length_packets_split many, old]
    simp only [Stmt.splitWeights_eq, List.map_append, List.map_cons, List.sum_append,
      List.sum_cons, Stmt.splitWeight] at pieces ⊢
    rw [pieces]
    obtain ⟨gaps, count⟩ := Nat.exists_eq_add_of_le many
    have new : (packets before).length + (packets content).length + (packets after).length - 1 =
        (packets before).length + (packets after).length + (gaps + 1) := by omega
    have moved : (packets before).length + 1 + (packets after).length - 1 =
        (packets before).length + (packets after).length := by omega
    have inside : (packets content).length - 1 = gaps + 1 := by omega
    rw [new, moved, inside, Nat.add_mul _ (gaps + 1), Nat.mul_succ (gaps + 1)]
    omega
  | @within head before after scope body body' below ih =>
    have below : (head.wrap body').splitWeight depth < (head.wrap body).splitWeight depth := by
      -- Inside a loop the weights count one more loop around; an `IfRange` starts to count anew.
      cases head with
      | loop outer => exact ih (depth + 1)
      | ifRange val start end_ =>
        have fewer := ih 0
        rw [Nat.mul_zero, Nat.mul_zero, Nat.zero_add, Nat.zero_add] at fewer
        exact fewer
    rw [head.length_packets before after body body', Stmt.splitWeights_eq, Stmt.splitWeights_eq,
      List.map_append, List.map_append, List.map_cons, List.map_cons, List.sum_append,
      List.sum_append, List.sum_cons, List.sum_cons]
    omega

theorem Replaces.narrow {target : Stmt F} {pieces : List (Stmt F)}
    (replaced : Replaces target pieces inner scope body body') :
    Replaces target.narrow (pieces.map Stmt.narrow) inner scope (body.map Stmt.narrow)
      (body'.map Stmt.narrow) := by
  induction replaced with
  | here before after =>
    simpa only [List.map_append, List.map_cons] using
      Replaces.here (before.map Stmt.narrow) (after.map Stmt.narrow)
  | within head before after below ih =>
    rw [List.map_append, List.map_append, List.map_cons, List.map_cons]
    cases head with
    | loop outer =>
      rw [ScopeHead.wrap, ScopeHead.wrap, Stmt.narrow_loop, Stmt.narrow_loop]
      exact Replaces.within (.loop outer) _ _ ih
    | ifRange val start end_ =>
      rw [ScopeHead.wrap, ScopeHead.wrap, Stmt.narrow_ifRange, Stmt.narrow_ifRange]
      exact Replaces.within (.ifRange (val.clone id) start end_) _ _ ih

/-- In the body with scalar indices in the bodies of the loops that are split, a split replaces the
narrowed loop. -/
theorem Replaces.narrowSplit (many : 2 ≤ (packets content).length)
    (replaced : Replaces (.loop header content) (splitLoops base header content) inner scope body body') :
    Replaces (Stmt.loop header content).narrow (splitLoops base header content) inner scope
      (body.map Stmt.narrowSplit) (body'.map Stmt.narrowSplit) := by
  induction replaced with
  | here before after =>
    have target : (Stmt.loop header content).narrowSplit = (Stmt.loop header content).narrow := by
      rw [Stmt.narrowSplit, if_pos (Stmt.splits_of_many many), Stmt.narrow_loop]
    have pieces : (splitLoops base header content).map Stmt.narrowSplit =
        splitLoops base header content :=
      map_eq_self fun s mem => Stmt.narrowSplit_of_scalar (scalar_splitLoops s mem)
    rw [List.map_append, List.map_append, List.map_cons, List.map_append, target, pieces]
    exact Replaces.here _ _
  | within head before after below ih =>
    rw [List.map_append, List.map_append, List.map_cons, List.map_cons]
    cases head with
    | loop outer =>
      rw [ScopeHead.wrap, ScopeHead.wrap, Stmt.narrowSplit, Stmt.narrowSplit,
        Replaces.splits many below outer]
      -- The loops around the split loop, up to the next `IfRange`, are split as well.
      split
      · have pieces : (splitLoops base header content).map Stmt.narrow =
            splitLoops base header content :=
          map_eq_self fun s mem => Stmt.narrow_of_scalar (scalar_splitLoops s mem)
        have narrowed := below.narrow
        rw [pieces] at narrowed
        exact Replaces.within (.loop outer) _ _ narrowed
      · rw [Stmt.narrowSplitBody_eq, Stmt.narrowSplitBody_eq]
        exact Replaces.within (.loop outer) _ _ ih
    | ifRange val start end_ =>
      rw [ScopeHead.wrap, ScopeHead.wrap, Stmt.narrowSplit, Stmt.narrowSplit,
        Stmt.narrowSplitBody_eq, Stmt.narrowSplitBody_eq]
      exact Replaces.within (.ifRange val start end_) _ _ ih

theorem compositional_outline :
    Compositional fun scope (body : List (Stmt F)) => body.flatMap (Stmt.outline scope) where
  append before after same := by
    simp only [List.flatMap_append] at same ⊢
    rw [same]
  wrap head same := by
    cases head with
    | loop header =>
      simp only [ScopeHead.wrap, List.flatMap_singleton, Stmt.outline, Stmt.outlineBody_eq]
      exact congrArg (List.map _) same
    | ifRange val start end_ =>
      simp only [ScopeHead.wrap, List.flatMap_singleton, Stmt.outline, Stmt.outlineBody_eq]
      exact congrArg (List.map _) same

/-- `m` does not tell the new loops from the narrowed loop that they come from. -/
structure SplitInvariant {β : Type} (decls : Decls) (m : List LoopId → List (Stmt F) → β) : Prop
    extends Compositional m where
  split : ∀ {base : LoopId} {header : Loop} {content : List (Stmt F)} {inner : List LoopId},
    (Stmt.loop header content).verify decls inner = true →
    (Stmt.loop header content).narrow.verify decls inner = true →
    2 ≤ (packets content).length → (Stmt.loopIds content).Nodup → (∀ K ∈ header.id :: Stmt.loopIds content, K < base) →
    (∀ K ∈ inner, K < base) →
      m inner (splitLoops base header content) = m inner [(Stmt.loop header content).narrow]

theorem splitInvariant_verifyBody (decls : Decls) :
    SplitInvariant (F := F) decls (Stmt.verifyBody decls) where
  toCompositional := compositional_verifyBody decls
  split verified narrowed _ _ _ _ := by
    rw [(verify_splitLoops verified).mpr narrowed, Stmt.verifyBody, narrowed]
    rfl

theorem splitInvariant_outline (decls : Decls) :
    SplitInvariant (F := F) decls fun scope body => body.flatMap (Stmt.outline scope) where
  toCompositional := compositional_outline
  split verified _ _ nodup known around := by
    rw [List.flatMap_singleton]
    exact outline_splitLoops verified nodup known around

end Split

/-! ## The scope that the pass has been given -/

section Run

variable {p : Program F} {s : ScopeAt F} {body body' : List (Stmt F)}

@[simp] theorem ScopeAt.decls_around : (s.around p body).decls = p.decls := by
  cases s <;> rfl

theorem ScopeAt.verifyWhole (verified : (s.around p body).verify = true) :
    s.verify (s.around p body) body = true ∧ Stmt.verifyBody p.decls s.loops body = true := by
  cases s with
  | program =>
    have bodies := Program.verify_body verified
    refine ⟨verified, ?_⟩
    rw [Stmt.verifyBody_eq, List.all_eq_true]
    exact bodies
  | inside K head =>
    have bodies := Program.verify_body verified
    have whole : Stmt.verifyBody p.decls [] (K.fill [head.wrap body]) = true := by
      rw [Stmt.verifyBody_eq, List.all_eq_true]
      exact bodies
    have inside := (Place.verify_fill.mp whole).2
    rw [Stmt.verifyBody, Stmt.verifyBody, Bool.and_true] at inside
    exact ⟨inside, (ScopeHead.verify_wrap.mp inside).2⟩

theorem ScopeAt.replaces_around {target : Stmt F} {pieces : List (Stmt F)} {inner : List LoopId}
    (replaced : Replaces target pieces inner s.loops body body') :
    Replaces target pieces inner [] (s.around p body).body (s.around p body').body := by
  cases s with
  | program => exact replaced
  | inside K head => exact Replaces.fill (Replaces.within head [] [] replaced)

theorem ScopeHead.mem_collectLoops (head : ScopeHead F) {loop : Loop × List (Stmt F)}
    (mem : loop ∈ Stmt.collectLoopsBody body) :
    loop ∈ Stmt.collectLoopsBody [head.wrap body] := by
  rw [Stmt.collectLoopsBody, List.flatMap_singleton]
  cases head with
  | loop header =>
    rw [ScopeHead.wrap, Stmt.collectLoops_loop]
    exact List.mem_cons_of_mem _ mem
  | ifRange val start end_ =>
    rw [ScopeHead.wrap, Stmt.collectLoops_ifRange]
    exact mem

theorem Place.mem_collectLoops {K : Place F} {loop : Loop × List (Stmt F)} {hole : List (Stmt F)}
    (mem : loop ∈ Stmt.collectLoopsBody hole) : loop ∈ Stmt.collectLoopsBody (K.fill hole) := by
  have general : ∀ {path : List (OpenScope F)} {hole : List (Stmt F)},
      loop ∈ Stmt.collectLoopsBody hole → loop ∈ Stmt.collectLoopsBody (reassemble path hole) := by
    intro path
    induction path with
    | nil => exact id
    | cons f path ih =>
      intro hole mem
      apply ih
      apply ScopeHead.mem_collectLoops
      simp only [Stmt.collectLoopsBody, List.flatMap_append, List.mem_append] at mem ⊢
      exact .inl (.inr mem)
  simp only [Place.fill, Stmt.collectLoopsBody, List.flatMap_append, List.mem_append]
  exact .inl (.inr (general mem))

theorem ScopeAt.mem_collectLoops {loop : Loop × List (Stmt F)}
    (mem : loop ∈ Stmt.collectLoopsBody body) : loop ∈ (s.around p body).collectLoops := by
  cases s with
  | program => exact mem
  | inside K head =>
    exact Place.mem_collectLoops (head.mem_collectLoops mem)

theorem ScopeAt.own_mem_collectLoops (K : Place F) (header : Loop) :
    (header, body) ∈ ((ScopeAt.inside K (.loop header)).around p body).collectLoops := by
  apply Place.mem_collectLoops
  rw [ScopeHead.wrap, Stmt.collectLoopsBody, List.flatMap_singleton, Stmt.collectLoops_loop]
  exact List.mem_cons_self

theorem ScopeAt.loop_of_mem {L : LoopId} (mem : L ∈ s.own ++ Stmt.loopIds body) :
    (∃ K header, s = .inside K (.loop header) ∧ header.id = L ∧
        (header, body) ∈ (s.around p body).collectLoops) ∨
      ∃ loop ∈ Stmt.collectLoopsBody body, loop.1.id = L := by
  rw [List.mem_append] at mem
  cases mem with
  | inl own =>
    cases s with
    | program => cases own
    | inside K head =>
      cases head with
      | ifRange val start end_ => cases own
      | loop header =>
        exact .inl ⟨K, header, rfl, (List.mem_singleton.mp own).symm,
          ScopeAt.own_mem_collectLoops K header⟩
  | inr below =>
    obtain ⟨loop, memLoop, same⟩ := List.mem_map.mp below
    exact .inr ⟨loop, memLoop, same⟩

/-- What the loop of `distributeAllLoops` finds. -/
theorem firstSplit_cases {q : Program F} (verified : q.verify = true) : ∀ {Ls : List LoopId},
    (∀ L ∈ Ls, ∃ loop ∈ q.collectLoops, loop.1.id = L) →
    (firstSplit q Ls = some none ∧
      ∀ loop ∈ q.collectLoops, loop.1.id ∈ Ls → (packets loop.2).length < 2) ∨
    ∃ header content, header.id ∈ Ls ∧ (header, content) ∈ q.collectLoops ∧
      2 ≤ (packets content).length ∧
      ((Narrows q.decls content ∧
          firstSplit q Ls = some (some (header.id, splitLoops q.freshLoop header content))) ∨
        (¬ Narrows q.decls content ∧ firstSplit q Ls = none))
  | [], _ => .inl ⟨rfl, fun _ _ none => absurd none List.not_mem_nil⟩
  | L :: rest, each => by
    rw [List.forall_mem_cons] at each
    obtain ⟨⟨⟨header, content⟩, mem, rfl⟩, each⟩ := each
    rw [firstSplit]
    -- A loop with less than two packets is passed; the first one with more is split, or an
    -- assertion fails.
    rcases splitScopes_cases verified mem with ⟨few, run⟩ | ⟨many, narrows, run⟩ | ⟨many, narrows, run⟩
    · rw [run, Option.bind_some]
      rcases firstSplit_cases verified each with ⟨none, small⟩ | ⟨header', content', memRest, found⟩
      · refine .inl ⟨none, fun loop memLoop memIds => ?_⟩
        cases List.mem_cons.mp memIds with
        | inl here =>
          rw [List.inj_on_of_nodup_map (Program.nodup_loopIds verified) memLoop mem here]
          exact few
        | inr later => exact small loop memLoop later
      · exact .inr ⟨header', content', List.mem_cons_of_mem _ memRest, found⟩
    · rw [run]
      exact .inr ⟨header, content, List.mem_cons_self, mem, many, .inl ⟨narrows, rfl⟩⟩
    · rw [run]
      exact .inr ⟨header, content, List.mem_cons_self, mem, many, .inr ⟨narrows, rfl⟩⟩

theorem ScopeAt.nodup_loopIds (verified : (s.around p body).verify = true) :
    (Stmt.loopIds body).Nodup := by
  cases s with
  | program => exact Program.nodup_loopIds verified
  | inside K head =>
    have filled : ((ScopeAt.inside K head).around p body).body = K.fill [head.wrap body] := rfl
    have nodup := Program.nodup_fill verified filled
    rw [Stmt.loopIds_wrap] at nodup
    exact (List.nodup_append.mp (List.nodup_append.mp nodup).2.1).2.1

/-- What one split does to the body of the scope. -/
structure SplitStep (p : Program F) (s : ScopeAt F) (body body' : List (Stmt F)) : Prop where
  verified : (s.around p body').verify = true
  weight : Stmt.splitWeights 0 body' < Stmt.splitWeights 0 body
  splits : ∀ outer, (Stmt.loop outer body').splits = (Stmt.loop outer body).splits
  keeps : ∀ {β : Type} {m : List LoopId → List (Stmt F) → β}, SplitInvariant p.decls m →
    m s.loops (body'.map Stmt.narrowSplit) = m s.loops (body.map Stmt.narrowSplit)

theorem splitStep_of_narrows {header : Loop} {content : List (Stmt F)}
    (verified : (s.around p body).verify = true)
    (mem : (header, content) ∈ Stmt.collectLoopsBody body) (many : 2 ≤ (packets content).length)
    (narrows : Narrows p.decls content) :
    SplitStep p s body (Stmt.substLoopBody header.id
      (fun _ _ => splitLoops (s.around p body).freshLoop header content) body) := by
  obtain ⟨inner, replaced⟩ := Stmt.replaces_body
    (f := fun _ _ => splitLoops (s.around p body).freshLoop header content)
    (ScopeAt.nodup_loopIds verified) mem s.loops
  have whole := ScopeAt.replaces_around (p := p) replaced
  have below := Program.loopIds_sublist (ScopeAt.mem_collectLoops (s := s) (p := p) mem)
  have nodup := (Program.nodup_loopIds verified).sublist below
  have nodupContent : (Stmt.loopIds content).Nodup := (List.nodup_cons.mp nodup).2
  -- All loops have addresses below those that the split uses.
  have known : ∀ K ∈ header.id :: Stmt.loopIds content, K < (s.around p body).freshLoop :=
    fun K memK => Program.lt_freshLoop (below.subset memK)
  have around : ∀ K ∈ inner, K < (s.around p body).freshLoop := fun K memK =>
    Program.lt_freshLoop ((whole.inner_subset K memK).resolve_left List.not_mem_nil)
  have target := replaced.verify_target (ScopeAt.verifyWhole verified).2
  have narrowed : (Stmt.loop header content).narrow.verify p.decls inner = true := by
    rw [Stmt.verify, Bool.and_eq_true] at target
    rw [Stmt.narrow_loop, Stmt.verify, target.1, Bool.true_and]
    exact (narrows_iff target.2).mp narrows
  have kept : Stmt.verifyBody p.decls inner
      (splitLoops (s.around p body).freshLoop header content) = true :=
    (verify_splitLoops target).mpr narrowed
  exact {
    verified := by
      have fresh : ∀ K ∈ Stmt.loopIds (splitLoops (s.around p body).freshLoop header content),
          K ∉ Stmt.loopIds (s.around p body).body := fun K memK old =>
        Nat.not_lt.mpr (le_of_mem_splitLoops memK) (Program.lt_freshLoop old)
      have result := whole.verify_program verified (by rwa [ScopeAt.decls_around])
        (nodup_splitLoops nodupContent fun K memK => known K (List.mem_cons_of_mem _ memK)) fresh
      -- The result is the scope with the new loops in the place of the old one.
      cases s with
      | program => exact result
      | inside => exact result
    weight := by
      have fewer := replaced.splitWeight_lt many 0
      rwa [Nat.mul_zero, Nat.mul_zero, Nat.zero_add, Nat.zero_add] at fewer
    splits := replaced.splits many
    keeps := fun invariant => (replaced.narrowSplit many).congr invariant.toCompositional
      (invariant.split target narrowed many nodupContent known around) }

def ScopeAt.splits (body : List (Stmt F)) : ScopeAt F → Bool
  | .inside _ (.loop header) => (Stmt.loop header body).splits
  | _ => false

/-- The verified loops of the scope have less than two packets. -/
def ScopeAt.Settled (s : ScopeAt F) (body : List (Stmt F)) : Prop :=
  s.splits body = false ∧ ∀ loop ∈ Stmt.collectLoopsBody body, (packets loop.2).length < 2

/-- One round of `distributeAllLoops`. -/
theorem distributeAllLoops_cases (verified : (s.around p body).verify = true) (fuel : Nat)
    (changed : Bool) :
    (distributeAllLoops p s (fuel + 1) body changed = some (.finished (s.around p body) changed) ∧
      s.Settled body) ∨
    (s.splits body = true ∧ ∀ p' changed',
      distributeAllLoops p s (fuel + 1) body changed ≠ some (.finished p' changed')) ∨
    (∃ body', SplitStep p s body body' ∧
      distributeAllLoops p s (fuel + 1) body changed = distributeAllLoops p s fuel body' true) ∨
    (Stmt.verifyBody p.decls s.loops (body.map Stmt.narrowSplit) = false ∧
      distributeAllLoops p s (fuel + 1) body changed = none) := by
  obtain ⟨whole, inside⟩ := ScopeAt.verifyWhole verified
  -- A loop is found by its id, and ids are different.
  have same : ∀ {loop loop' : Loop × List (Stmt F)}, loop ∈ (s.around p body).collectLoops →
      loop' ∈ (s.around p body).collectLoops → loop.1.id = loop'.1.id → loop = loop' :=
    fun mem mem' ids => List.inj_on_of_nodup_map (Program.nodup_loopIds verified) mem mem' ids
  have each : ∀ L ∈ s.own ++ Stmt.loopIds body,
      ∃ loop ∈ (s.around p body).collectLoops, loop.1.id = L := by
    intro L mem
    rcases ScopeAt.loop_of_mem (p := p) mem with ⟨K, header, -, hit, memQ⟩ | ⟨loop, memLoop, hit⟩
    · exact ⟨(header, body), memQ, hit⟩
    · exact ⟨loop, ScopeAt.mem_collectLoops memLoop, hit⟩
  have run := distributeAllLoops.eq_2 p s body changed fuel
  simp only [whole, if_true] at run
  rcases firstSplit_cases verified each with ⟨none, small⟩ | ⟨header, content, memIds, memQ, many, found⟩
  -- No loop is split, and the pass ends here.
  · rw [none, Option.bind_some] at run
    have few : ∀ loop ∈ Stmt.collectLoopsBody body, (packets loop.2).length < 2 := fun loop mem =>
      small loop (ScopeAt.mem_collectLoops mem)
        (List.mem_append_right _ (List.mem_map_of_mem (f := fun loop : Loop × List (Stmt F) => loop.1.id) mem))
    refine .inl ⟨run, ?_, few⟩
    cases s with
    | program => rfl
    | inside K head =>
      cases head with
      | ifRange val start end_ => rfl
      | loop header =>
        have own := small _ (ScopeAt.own_mem_collectLoops K header)
          (List.mem_append_left _ List.mem_cons_self)
        apply (Stmt.splits_eq_false _).1
        rw [Stmt.collectLoops_loop, List.forall_mem_cons]
        exact ⟨own, few⟩
  · by_cases own : header.id ∈ s.own
    · -- The scope itself is split: it is detached, unless an assertion fails.
      refine .inr (.inl ⟨?_, ?_⟩)
      · cases s with
        | program => cases own
        | inside K head =>
          cases head with
          | ifRange val start end_ => cases own
          | loop header' =>
            have whole := same memQ (ScopeAt.own_mem_collectLoops K header')
              (List.mem_singleton.mp own)
            cases whole
            rw [ScopeAt.splits]
            exact Stmt.splits_of_many many
      · intro p' changed'
        rcases found with ⟨-, found⟩ | ⟨-, found⟩
        · rw [run, found, Option.bind_some]
          simp only [own, if_true]
          rintro ⟨⟩
        · rw [run, found]
          rintro ⟨⟩
    · obtain ⟨loop, memBody, hit⟩ : ∃ loop ∈ Stmt.collectLoopsBody body, loop.1.id = header.id := by
        -- The loop that is split is below the scope.
        rcases ScopeAt.loop_of_mem (p := p) memIds with ⟨K, header', isLoop, hit, -⟩ | found
        · subst isLoop
          exact absurd (List.mem_singleton.mpr hit.symm) own
        · exact found
      have loopIs := same (ScopeAt.mem_collectLoops memBody) memQ hit
      subst loopIs
      rw [ScopeAt.decls_around] at found
      rcases found with ⟨narrows, found⟩ | ⟨stuck, found⟩
      · rw [found, Option.bind_some] at run
        exact .inr (.inr (.inl ⟨_, splitStep_of_narrows verified memBody many narrows,
          run.trans (if_neg own)⟩))
      · rw [found, Option.bind_none] at run
        refine .inr (.inr (.inr ⟨?_, run⟩))
        rw [Bool.eq_false_iff]
        intro typed
        obtain ⟨inner, replaced⟩ := Stmt.replaces_body (f := splitLoops 0)
          (ScopeAt.nodup_loopIds verified) memBody s.loops
        have target := replaced.verify_target inside
        have narrowed := (replaced.narrowSplit many).verify_target typed
        rw [Stmt.verify, Bool.and_eq_true] at target
        rw [Stmt.narrow_loop, Stmt.verify, Bool.and_eq_true] at narrowed
        exact stuck ((narrows_iff target.2).mpr narrowed.2)

/-! ## Whole runs -/

theorem SplitStep.splits_eq (step : SplitStep p s body body') : s.splits body' = s.splits body := by
  cases s with
  | program => rfl
  | inside K head =>
    cases head with
    | loop header => exact step.splits header
    | ifRange val start end_ => rfl

theorem ScopeAt.Settled.narrowSplit (settled : s.Settled body) : body.map Stmt.narrowSplit = body := by
  apply map_eq_self
  intro t mem
  exact (Stmt.splits_eq_false fun loop memLoop =>
    settled.2 loop (List.mem_flatMap.mpr ⟨t, mem, memLoop⟩)).2

/-- What a run that returns has done to the scope. -/
structure Distributes (p : Program F) (s : ScopeAt F) (body body' : List (Stmt F)) : Prop where
  verified : (s.around p body').verify = true
  settled : s.Settled body'
  stays : s.splits body = false
  types : Stmt.verifyBody p.decls s.loops (body.map Stmt.narrowSplit) = true
  keeps : ∀ {β : Type} {m : List LoopId → List (Stmt F) → β}, SplitInvariant p.decls m →
    m s.loops body' = m s.loops (body.map Stmt.narrowSplit)

theorem Distributes.of_step {last : List (Stmt F)} (step : SplitStep p s body body')
    (rest : Distributes p s body' last) : Distributes p s body last where
  verified := rest.verified
  settled := rest.settled
  stays := step.splits_eq ▸ rest.stays
  types := step.keeps (splitInvariant_verifyBody p.decls) ▸ rest.types
  keeps invariant := (rest.keeps invariant).trans (step.keeps invariant)

theorem distributes_of_finished {p' : Program F} {changed' : Bool} : ∀ {fuel : Nat}
    {body : List (Stmt F)} {changed : Bool}, (s.around p body).verify = true →
      distributeAllLoops p s fuel body changed = some (.finished p' changed') →
      ∃ body', p' = s.around p body' ∧ Distributes p s body body'
  | 0, _, _, _, run => nomatch run
  | fuel + 1, body, changed, verified, run => by
    rcases distributeAllLoops_cases verified fuel changed with
      ⟨done, settled⟩ | ⟨-, never⟩ | ⟨body', step, next⟩ | ⟨-, failed⟩
    · rw [done] at run
      cases run
      refine ⟨body, rfl, verified, settled, settled.1, ?_, fun _ => ?_⟩
      · rw [settled.narrowSplit]
        exact (ScopeAt.verifyWhole verified).2
      · rw [settled.narrowSplit]
    · exact absurd run (never p' changed')
    · obtain ⟨last, same, rest⟩ := distributes_of_finished step.verified (next ▸ run)
      exact ⟨last, same, rest.of_step step⟩
    · rw [failed] at run
      cases run

/-- The pass returns: the weight of the scope is enough fuel. -/
theorem finished_of_weight : ∀ {fuel : Nat} {body : List (Stmt F)} (changed : Bool),
    Stmt.splitWeights 0 body < fuel → (s.around p body).verify = true → s.splits body = false →
    Stmt.verifyBody p.decls s.loops (body.map Stmt.narrowSplit) = true →
    ∃ p' changed', distributeAllLoops p s fuel body changed = some (.finished p' changed')
  | 0, _, _, enough, _, _, _ => absurd enough (Nat.not_lt_zero _)
  | fuel + 1, body, changed, enough, verified, stays, types => by
    rcases distributeAllLoops_cases verified fuel changed with
      ⟨done, -⟩ | ⟨splits, -⟩ | ⟨body', step, next⟩ | ⟨stuck, -⟩
    · exact ⟨_, _, done⟩
    · rw [stays] at splits
      cases splits
    · rw [next]
      exact finished_of_weight true (Nat.lt_of_lt_of_le step.weight (Nat.le_of_lt_succ enough))
        step.verified (step.splits_eq.trans stays)
        ((step.keeps (splitInvariant_verifyBody p.decls)).trans types)
    · rw [types] at stuck
      cases stuck

theorem finishes_iff (verified : (s.around p body).verify = true) (changed : Bool) :
    (∃ fuel p' changed', distributeAllLoops p s fuel body changed = some (.finished p' changed')) ↔
      s.splits body = false ∧
        Stmt.verifyBody p.decls s.loops (body.map Stmt.narrowSplit) = true := by
  constructor
  · intro ⟨fuel, p', changed', run⟩
    obtain ⟨body', -, spec⟩ := distributes_of_finished verified run
    exact ⟨spec.stays, spec.types⟩
  · intro ⟨stays, types⟩
    exact ⟨_, finished_of_weight changed (Nat.lt_succ_self _) verified stays types⟩

end Run

/-! ## Distributing a program -/

/-- The form that interchanging loops asks for: a loop has no scope in its body, or nothing but one
scope. -/
def Program.LoopsNest (p : Program F) : Prop :=
  ∀ loop ∈ p.collectLoops,
    (∀ s ∈ loop.2, s.isScope = false) ∨ ∃ s, loop.2 = [s] ∧ s.isScope = true

/-- Cloning the bodies of the loops that are split loses no vector index that a leaf shows, and the
types still agree without those that none shows. -/
structure Program.SplitsScalar (p : Program F) : Prop where
  leaves : ∀ loop ∈ p.collectLoops, (Stmt.loop loop.1 loop.2).splits = true → ∀ s ∈ loop.2,
    ∀ e ∈ s.leafExprs, ∀ index ∈ e.collectIndices, index.2 = .scalar .indexTy
  types : Stmt.verifyBody p.decls [] (p.body.map Stmt.narrowSplit) = true

theorem Program.outline_narrowSplit_iff {p : Program F} :
    (p.body.map Stmt.narrowSplit).flatMap (Stmt.outline []) = p.outline ↔
      ∀ loop ∈ p.collectLoops, (Stmt.loop loop.1 loop.2).splits = true → ∀ s ∈ loop.2,
        ∀ e ∈ s.leafExprs, ∀ index ∈ e.collectIndices, index.2 = .scalar .indexTy := by
  rw [Program.outline, Stmt.outlineBody_eq,
    Stmt.outlineBody_map_iff fun s _ => Stmt.length_outline_narrowSplit _,
    forall₂_congr fun s mem => Stmt.outline_narrowSplit_iff]
  simp only [Program.collectLoops, Stmt.collectLoopsBody, List.mem_flatMap, forall_exists_index,
    and_imp]
  constructor
  · exact fun each loop s memS memLoop => each s memS loop memLoop
  · exact fun each s memS loop memLoop => each loop s memS memLoop

/-- **Distributing** a verified program ends with nested loops and the same leaves, in the same order
and below the same scopes, exactly when no vector index is lost. -/
theorem distributeAllLoops_normalizes {p : Program F} (verified : p.verify = true) :
    (∃ fuel p' changed,
      distributeAllLoops p .program fuel p.body false = some (.finished p' changed) ∧
        p'.LoopsNest ∧ p'.outline = p.outline) ↔ p.SplitsScalar := by
  have outlineOf : ∀ {p' : Program F} {body' : List (Stmt F)},
      p' = ScopeAt.program.around p body' → Distributes p .program p.body body' →
      p'.outline = (p.body.map Stmt.narrowSplit).flatMap (Stmt.outline []) := by
    intro p' body' same spec
    rw [same, Program.outline, Stmt.outlineBody_eq]
    exact spec.keeps (splitInvariant_outline p.decls)
  constructor
  · intro ⟨fuel, p', changed, run, _, kept⟩
    obtain ⟨body', same, spec⟩ := distributes_of_finished (s := .program) verified run
    exact ⟨Program.outline_narrowSplit_iff.mp ((outlineOf same spec).symm.trans kept), spec.types⟩
  · intro scalar
    obtain ⟨p', changed, run⟩ := finished_of_weight (s := .program) false (Nat.lt_succ_self _)
      verified rfl scalar.types
    obtain ⟨body', same, spec⟩ := distributes_of_finished (s := .program) verified run
    refine ⟨_, p', changed, run, ?_, ?_⟩
    · intro loop mem
      rw [same] at mem
      exact packets_lt_two (spec.settled.2 loop mem)
    · rw [outlineOf same spec]
      exact Program.outline_narrowSplit_iff.mpr scalar.leaves

/-- `for (i in 0 .. 4) { A[i] = 0; for (j in 0 .. 2) B[j] = 1; }` -/
def storeBesideLoop : Program Int where
  name := "store_beside_loop"
  args := [⟨"A", ⟨[4], ["x"], .float32Ty, oneDim⟩⟩, ⟨"B", ⟨[2], ["y"], .float32Ty, oneDim⟩⟩]
  vars := []
  body := [.loop ⟨0, "i", 4, 1⟩ [.store 0 [.indexOf 0] (.constFP 0) false,
    .loop ⟨1, "j", 2, 1⟩ [.store 1 [.indexOf 1] (.constFP 1) false]]]

theorem distributeAllLoops_normalizes_storeBesideLoop :
    ∃ fuel p' changed, distributeAllLoops storeBesideLoop .program fuel storeBesideLoop.body false =
        some (.finished p' changed) ∧
      p'.LoopsNest ∧ p'.outline = storeBesideLoop.outline :=
  (distributeAllLoops_normalizes (by decide)).mpr ⟨by decide, by decide⟩

/-- `for (i in 0 .. 8, 4) { A[i].4 = i; for (j in 0 .. 2) B[j] = 1; }`, where the loop over `i` has been
vectorized. -/
def vectorBesideLoop : Program Int where
  name := "vector_beside_loop"
  args := [⟨"A", ⟨[8], ["x"], .indexTy, oneDim⟩⟩, ⟨"B", ⟨[2], ["y"], .float32Ty, oneDim⟩⟩]
  vars := []
  body := [.loop ⟨0, "i", 8, 4⟩
    [.store 0 [.indexOf 0] (.index 0 ⟨.indexTy, ⟨4, VecWidth.fits_four⟩⟩) false,
      .loop ⟨1, "j", 2, 1⟩ [.store 1 [.indexOf 1] (.constFP 1) false]]]

/-- Distribution does not always keep the leaves: the vector store becomes a scalar one. -/
theorem distributeAllLoops_loses_vector : vectorBesideLoop.verify = true ∧
    ∀ fuel p' changed, distributeAllLoops vectorBesideLoop .program fuel vectorBesideLoop.body false =
      some (.finished p' changed) → p'.outline ≠ vectorBesideLoop.outline := by
  refine ⟨by decide, fun fuel p' changed run kept => ?_⟩
  have verified : (ScopeAt.program.around vectorBesideLoop vectorBesideLoop.body).verify = true := by
    decide
  obtain ⟨body', same, spec⟩ := distributes_of_finished verified run
  rw [same, Program.outline, Stmt.outlineBody_eq] at kept
  have narrowed := congrArg (List.map fun o => o.leaf.roots.map Expr.getType)
    ((spec.keeps (splitInvariant_outline _)).symm.trans kept)
  exact absurd narrowed (by decide)

/-! ## The command -/

theorem Cursor.around_parent {p : Program F} {L : LoopId} {c : Cursor F}
    (located : p.locate L = some c) : c.parent.1.around p c.parent.2 = p := by
  obtain ⟨content, -⟩ := Program.locate_spec located
  obtain ⟨⟨path, before, after⟩, header, body⟩ := c
  cases path with
  | nil =>
    simp only [Cursor.parent, ScopeAt.around, content]
  | cons f path =>
    simp only [Cursor.content, Place.fill, reassemble_cons, OpenScope.attach, List.append_assoc,
      List.singleton_append] at content
    simp only [Cursor.parent, ScopeAt.around, Place.fill, List.append_assoc, content]

/-- The `distribute` command on a loop returns, and leaves a verified program, exactly when the parent
of the loop is not split itself and the types still agree when the indices in the loops that are split
have become scalar. -/
theorem distribute_finishes {p : Program F} (verified : p.verify = true) {L : LoopId}
    (mem : L ∈ Stmt.loopIds p.body) :
    ∃ c, p.locate L = some c ∧
      ((∃ fuel p' changed, distribute p L fuel = some (.finished p' changed) ∧ p'.verify = true) ↔
        c.parent.1.splits c.parent.2 = false ∧
          Stmt.verifyBody p.decls c.parent.1.loops (c.parent.2.map Stmt.narrowSplit) = true) := by
  obtain ⟨c, located⟩ := Option.isSome_iff_exists.mp (Program.locate_isSome mem)
  have whole := Cursor.around_parent located
  have verified : (c.parent.1.around p c.parent.2).verify = true := by rw [whole, verified]
  refine ⟨c, located, ?_⟩
  rw [← finishes_iff verified false]
  simp only [distribute, located, Option.bind_some]
  constructor
  · exact fun ⟨fuel, p', changed, run, _⟩ => ⟨fuel, p', changed, run⟩
  · intro ⟨fuel, p', changed, run⟩
    obtain ⟨body', same, spec⟩ := distributes_of_finished verified run
    exact ⟨fuel, p', changed, run, same ▸ spec.verified⟩

theorem distribute_finishes_storeBesideLoop : ∃ fuel p' changed,
    distribute storeBesideLoop 0 fuel = some (.finished p' changed) ∧ p'.verify = true := by
  obtain ⟨c, located, finishes⟩ :=
    distribute_finishes (p := storeBesideLoop) (L := 0) (by decide) (by decide)
  have narrow : (storeBesideLoop.locate 0).all (fun c => !c.parent.1.splits c.parent.2 &&
      Stmt.verifyBody storeBesideLoop.decls c.parent.1.loops (c.parent.2.map Stmt.narrowSplit)) =
        true := by
    decide
  rw [located, Option.all_some, Bool.and_eq_true, Bool.not_eq_true'] at narrow
  exact finishes.mpr narrow

/-- The command does not work at every depth: the parent of the inner loop is split, and the pass goes
on with it. -/
theorem distribute_detaches : storeBesideLoop.verify = true ∧ 1 ∈ Stmt.loopIds storeBesideLoop.body ∧
    ∀ fuel, distribute storeBesideLoop 1 (fuel + 1) = some .detached :=
  ⟨by decide, by decide, fun _ => rfl⟩

end Bistra
