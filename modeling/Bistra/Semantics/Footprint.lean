import Bistra.Semantics.Rewrite

/-! # Footprints

What a statement reads and writes.  The effect of a leaf statement changes every cell by
itself, so two leaves commute when neither changes what the other one reads and their effects
commute at every cell that both write.
-/

namespace Bistra

variable {F : Type}

/-! ## Effects -/

/-- What happens to each cell and to each lane of a local, and the calls that are made. -/
structure Effect (F : Type) where
  cells : ArgId → List Int → Scalar F → Scalar F
  locals : VarId → Nat → Scalar F → Scalar F
  calls : List (CallRecord F)

def State.apply (st : State F) (E : Effect F) : State F where
  bufs buf cell := E.cells buf cell (st.bufs buf cell)
  locals var lane := E.locals var lane (st.locals var lane)
  calls := st.calls ++ E.calls

/-- The effects may happen in either order. -/
structure Effect.Commutes (E E' : Effect F) : Prop where
  cells : ∀ buf cell x,
    E.cells buf cell (E'.cells buf cell x) = E'.cells buf cell (E.cells buf cell x)
  locals : ∀ var lane x,
    E.locals var lane (E'.locals var lane x) = E'.locals var lane (E.locals var lane x)
  calls : E.calls = [] ∨ E'.calls = []

theorem State.apply_comm {E E' : Effect F} (commutes : E.Commutes E') (st : State F) :
    (st.apply E).apply E' = (st.apply E').apply E := by
  apply State.ext
  · funext buf cell
    exact (commutes.cells buf cell _).symm
  · funext var lane
    exact (commutes.locals var lane _).symm
  · cases commutes.calls with
    | inl none => simp [State.apply, none]
    | inr none => simp [State.apply, none]

section Semantics

variable [Field F] [LinearOrder F]

/-- The effect of a leaf statement that runs in the state `st`. -/
def Stmt.effect (M : Machine F) (env : Env) (st : State F) : Stmt F → Effect F
  | .store arg indices value accumulate =>
    { cells := fun buf cell x =>
        if buf = arg then
          match laneOf (Expr.subscripts M st env indices) value.getType.width.val cell with
          | some lane =>
            if accumulate then
              M.binOp .add (x.as value.getType.elementType) (value.eval M st env lane)
            else value.eval M st env lane
          | none => x
        else x
      locals := fun _ _ x => x
      calls := [] }
  | .storeLocal dest value accumulate =>
    { cells := fun _ _ x => x
      locals := fun var lane x =>
        if var = dest ∧ lane < value.getType.width.val then
          if accumulate then
            M.binOp .add (x.as value.getType.elementType) (value.eval M st env lane)
          else value.eval M st env lane
        else x
      calls := [] }
  | .call name params =>
    { cells := fun _ _ x => x
      locals := fun _ _ x => x
      calls := [⟨name, params.map (Expr.lanes M st env)⟩] }
  | _ => ⟨fun _ _ x => x, fun _ _ x => x, []⟩

theorem Stmt.exec_leaf {M : Machine F} {s : Stmt F} (leaf : s.isScope = false) (env : Env)
    (st : State F) : s.exec M env st = st.apply (s.effect M env st) := by
  cases s with
  | loop | ifRange => cases leaf
  | call name params => rfl
  | store arg indices value accumulate =>
    apply State.ext
    · funext buf cell
      simp only [Stmt.exec, State.store, State.writeLanes, State.apply, Stmt.effect]
      by_cases here : buf = arg
      · subst here
        simp only [if_true]
        -- In the buffer that is stored to, a cell changes if one of the lanes is in it.
        cases found : laneOf (Expr.subscripts M st env indices) value.getType.width.val cell with
        | none => rfl
        | some lane =>
          simp only [State.storedLanes]
          rw [← (laneOf_eq_some found).2]
      · simp only [if_neg here]
    · rfl
    · simp [Stmt.exec, State.store, State.apply, Stmt.effect]
  | storeLocal dest value accumulate =>
    apply State.ext
    · rfl
    · funext var lane
      simp only [Stmt.exec, State.storeLocal, State.writeLocal, State.apply, Stmt.effect]
      -- A store to a local variable sets the lanes of the value and leaves the others.
      by_cases here : var = dest
      · subst here
        simp
      · simp [here]
    · simp [Stmt.exec, State.storeLocal, State.apply, Stmt.effect]

/-! ## What is read -/

def Access.Touches (M : Machine F) (env : Env) (st : State F) (access : Access F) (buf : ArgId)
    (cell : List Int) : Prop :=
  buf = access.arg ∧ ∃ lane < access.type.width.val,
    cell = cellAt (Expr.subscripts M st env access.indices) lane

/-- The states agree on what an expression reads. -/
structure Expr.Agrees (M : Machine F) (env : Env) (st st' : State F) (e : Expr F) : Prop where
  cells : ∀ ld ∈ e.collectLoads, ∀ buf cell, ld.Touches M env st buf cell →
    st'.bufs buf cell = st.bufs buf cell
  locals : ∀ var ∈ e.collectLocals, st'.locals var = st.locals var

theorem Expr.eval_agrees {M : Machine F} {env : Env} {st st' : State F} {decls : Decls}
    {scope : List LoopId} {e : Expr F} (verified : e.verify decls scope = true)
    (agrees : e.Agrees M env st st') :
    ∀ lane < e.getType.width.val, e.eval M st' env lane = e.eval M st env lane := by
  obtain ⟨cells, locals⟩ := agrees
  -- Where the subscripts have the same values, the same cells are loaded.
  have subscripts : ∀ {indices : List (Expr F)},
      (∀ e ∈ indices, ∀ lane < e.getType.width.val, e.eval M st' env lane = e.eval M st env lane) →
      Expr.subscripts M st' env indices = Expr.subscripts M st env indices := by
    intro indices each
    rw [Expr.subscripts_eq, Expr.subscripts_eq]
    refine List.map_congr_left fun e mem => ?_
    rw [each e mem 0 e.getType.width.property.1]
  induction e using Expr.inductTree with
  | index | const | constFP | constString => exact fun _ _ => rfl
  | binary kind lhs rhs ihL ihR =>
    simp only [Expr.collectLoads, Expr.collectLocals, List.mem_append] at cells locals
    simp only [Expr.verify, Bool.and_eq_true, decide_eq_true_eq] at verified
    intro lane below
    rw [Expr.eval, Expr.eval,
      ihL verified.1.2 (fun ld mem => cells ld (.inl mem)) (fun var mem => locals var (.inl mem))
        lane below,
      ihR verified.2 (fun ld mem => cells ld (.inr mem)) (fun var mem => locals var (.inr mem))
        lane (by rw [← verified.1.1]; exact below)]
  | unary kind val ih =>
    intro lane below
    rw [Expr.eval, Expr.eval, ih verified cells locals lane below]
  | broadcast val vf ih =>
    simp only [Expr.verify, Bool.and_eq_true] at verified
    intro lane _
    rw [Expr.eval, Expr.eval, ih verified.1 cells locals 0 val.getType.width.property.1]
  | gep arg indices ih =>
    simp only [Expr.collectLoads, Expr.collectLocals, Expr.collectLoadsList_eq,
      Expr.collectLocalsList_eq, List.mem_flatMap] at cells locals
    simp only [Expr.verify, Bool.and_eq_true, Expr.verifyIndices_eq, List.all_eq_true] at verified
    intro lane _
    rw [Expr.eval, Expr.eval, subscripts]
    exact fun e mem => ih e mem (verified.1 e mem).1 (fun ld memLd => cells ld ⟨e, mem, memLd⟩)
      (fun var memVar => locals var ⟨e, mem, memVar⟩)
  | load arg indices type ih =>
    simp only [Expr.collectLoads, Expr.collectLocals, Expr.collectLoadsList_eq,
      Expr.collectLocalsList_eq, List.mem_cons, List.mem_flatMap] at cells locals
    simp only [Expr.verify, Bool.and_eq_true, Expr.verifyIndices_eq, List.all_eq_true] at verified
    intro lane below
    rw [Expr.eval, Expr.eval, subscripts]
    · rw [cells ⟨arg, indices, type⟩ (.inl rfl) arg _ ⟨rfl, lane, below, rfl⟩]
    · exact fun e mem => ih e mem (verified.1 e mem).1
        (fun ld memLd => cells ld (.inr ⟨e, mem, memLd⟩))
        (fun var memVar => locals var ⟨e, mem, memVar⟩)
  | loadLocal var type =>
    intro lane _
    rw [Expr.eval, Expr.eval, locals var (by simp [Expr.collectLocals])]

theorem Stmt.bufs_apply_effect {M : Machine F} {env : Env} {st st' : State F} {s : Stmt F}
    {buf : ArgId} {cell : List Int}
    (untouched : ∀ w ∈ s.stores, ¬ w.Touches M env st' buf cell) :
    (st.apply (s.effect M env st')).bufs buf cell = st.bufs buf cell := by
  cases s with
  | loop | ifRange | call | storeLocal => rfl
  | store arg indices value accumulate =>
    simp only [State.apply, Stmt.effect]
    by_cases here : buf = arg
    · have none : laneOf (Expr.subscripts M st' env indices) value.getType.width.val cell = none := by
        rw [laneOf_eq_none]
        intro lane below same
        exact untouched _ (List.mem_singleton.mpr rfl) ⟨here, lane, below, same⟩
      rw [if_pos here, none]
    · rw [if_neg here]

theorem Stmt.locals_apply_effect {M : Machine F} {env : Env} {st st' : State F} {s : Stmt F}
    {var : VarId} (unset : var ∉ s.varsWrite) :
    (st.apply (s.effect M env st')).locals var = st.locals var := by
  cases s with
  | loop | ifRange | call | store => rfl
  | storeLocal dest value accumulate =>
    have other : var ≠ dest := by simpa [Stmt.varsWrite] using unset
    funext lane
    simp [State.apply, Stmt.effect, other]

theorem Stmt.effect_agrees {M : Machine F} {env : Env} {st st' : State F} {decls : Decls}
    {scope : List LoopId} {s : Stmt F} (verified : s.verify decls scope = true)
    (agrees : ∀ e ∈ s.roots, e.Agrees M env st st') :
    s.effect M env st' = s.effect M env st := by
  have eval : ∀ e ∈ s.roots, ∀ lane < e.getType.width.val,
      e.eval M st' env lane = e.eval M st env lane := fun e mem =>
    Expr.eval_agrees (Stmt.verify_roots verified e mem) (agrees e mem)
  cases s with
  | loop | ifRange => rfl
  | call name params =>
    have lanes : params.map (Expr.lanes M st' env) = params.map (Expr.lanes M st env) := by
      apply List.map_congr_left
      intro e mem
      apply List.map_congr_left
      intro lane below
      exact eval e mem lane (List.mem_range.mp below)
    simp only [Stmt.effect, lanes]
  | store arg indices value accumulate =>
    have subscripts : Expr.subscripts M st' env indices = Expr.subscripts M st env indices := by
      rw [Expr.subscripts_eq, Expr.subscripts_eq]
      apply List.map_congr_left
      intro e mem
      rw [eval e (by simp [Stmt.roots, mem]) 0 e.getType.width.property.1]
    simp only [Stmt.effect, subscripts, Effect.mk.injEq, and_true]
    funext buf cell x
    -- The cells that are stored to depend on the subscripts, what is stored on the value.
    cases found : laneOf (Expr.subscripts M st env indices) value.getType.width.val cell with
    | none => rfl
    | some lane =>
      simp only [eval value (by simp [Stmt.roots]) lane (laneOf_eq_some found).1]
  | storeLocal dest value accumulate =>
    simp only [Stmt.effect, Effect.mk.injEq, true_and, and_true]
    funext var lane x
    by_cases here : var = dest ∧ lane < value.getType.width.val
    · simp only [if_pos here, eval value (by simp [Stmt.roots]) lane here.2]
    · simp only [if_neg here]

/-! ## Leaves that may change places -/

/-- What the leaf `t` writes is not read by the leaf `s`. -/
structure Stmt.Unread (M : Machine F) (t : Stmt F) (env' : Env) (s : Stmt F) (env : Env) :
    Prop where
  cells : ∀ st, ∀ w ∈ t.stores, ∀ r ∈ s.loads, ∀ buf cell, w.Touches M env' st buf cell →
    ¬ r.Touches M env st buf cell
  vars : ∀ var ∈ t.varsWrite, var ∉ s.varsRead

theorem Stmt.Unread.agrees {M : Machine F} {s t : Stmt F} {env env' : Env}
    (unread : Stmt.Unread M t env' s env) (leafT : t.isScope = false) (st : State F) :
    ∀ e ∈ s.roots, e.Agrees M env st (t.exec M env' st) := by
  obtain ⟨cells, vars⟩ := unread
  intro e memRoot
  constructor
  · intro ld mem buf cell touches
    rw [Stmt.exec_leaf leafT, Stmt.bufs_apply_effect]
    intro w memW touchesW
    exact cells st w memW ld (List.mem_flatMap.mpr ⟨e, memRoot, mem⟩) buf cell touchesW touches
  · intro var mem
    rw [Stmt.exec_leaf leafT, Stmt.locals_apply_effect]
    intro memW
    exact vars var memW (List.mem_flatMap.mpr ⟨e, memRoot, mem⟩)

theorem Stmt.effect_unread {M : Machine F} {s t : Stmt F} {env env' : Env} {decls : Decls}
    {scope : List LoopId} (verified : s.verify decls scope = true) (leafT : t.isScope = false)
    (unread : Stmt.Unread M t env' s env) (st : State F) :
    s.effect M env (t.exec M env' st) = s.effect M env st :=
  Stmt.effect_agrees verified (unread.agrees leafT st)

theorem Machine.binOp_add_right_comm (M : Machine F) {kind : ElemKind} {x a b : Scalar F}
    (typedX : x.HasKind kind) (typedA : a.HasKind kind) (typedB : b.HasKind kind) :
    M.binOp .add (M.binOp .add x a) b = M.binOp .add (M.binOp .add x b) a := by
  cases x <;> cases a <;> cases b <;> cases kind <;>
    first
    | exact typedX.elim
    | exact typedA.elim
    | exact typedB.elim
    | simp only [Machine.binOp, BinOpKind.onInt, Machine.binOpFP, add_right_comm]

/-- Two leaves that may run in either order: neither reads what the other one writes, and they
write different cells unless both add to them. -/
structure Stmt.Independent (M : Machine F) (s : Stmt F) (env : Env) (t : Stmt F) (env' : Env) :
    Prop where
  forth : Stmt.Unread M s env t env'
  back : Stmt.Unread M t env' s env
  cells : s.accumulates = true ∧ t.accumulates = true ∨
    ∀ st, ∀ w ∈ s.stores, ∀ w' ∈ t.stores, ∀ buf cell, w.Touches M env st buf cell →
      ¬ w'.Touches M env' st buf cell
  vars : ∀ var ∈ s.varsWrite, var ∉ t.varsWrite
  calls : s.isCall = false ∨ t.isCall = false

/-- A leaf leaves a cell that it does not store to. -/
theorem Stmt.effect_cells {M : Machine F} {env : Env} {st : State F} {s : Stmt F} {buf : ArgId}
    {cell : List Int} (untouched : ∀ w ∈ s.stores, ¬ w.Touches M env st buf cell) (x : Scalar F) :
    (s.effect M env st).cells buf cell x = x := by
  let filled : State F := { st with bufs := fun _ _ => x }
  show (filled.apply (s.effect M env st)).bufs buf cell = filled.bufs buf cell
  exact Stmt.bufs_apply_effect untouched

/-- What an accumulating store adds to a cell that it stores to. -/
theorem Stmt.effect_accumulates {M : Machine F} {env : Env} {st : State F} {s : Stmt F}
    {decls : Decls} {scope : List LoopId} (verified : s.verify decls scope = true)
    (accumulates : s.accumulates = true) {w : Access F} (mem : w ∈ s.stores) {buf : ArgId}
    {cell : List Int} (touches : w.Touches M env st buf cell) :
    ∃ decl, decls.args[buf]? = some decl ∧ ∃ v : Scalar F, v.HasKind decl.type.elementType ∧
      ∀ x, (s.effect M env st).cells buf cell x =
        M.binOp .add (x.as decl.type.elementType) v := by
  cases s with
  | loop | ifRange | call | storeLocal => cases mem
  | store arg indices value accumulate =>
    cases List.mem_singleton.mp mem
    obtain ⟨rfl, lane, below, rfl⟩ := touches
    simp only [Stmt.accumulates] at accumulates
    subst accumulates
    simp only [Stmt.verify, Bool.and_eq_true] at verified
    obtain ⟨⟨-, access⟩, typed⟩ := verified
    simp only [Decls.verifyAccess] at access
    split at access
    next decl declared =>
      simp only [Option.all_some, Bool.and_eq_true, decide_eq_true_eq] at access
      obtain ⟨lane', found⟩ : ∃ lane', laneOf (Expr.subscripts M st env indices)
          value.getType.width.val (cellAt (Expr.subscripts M st env indices) lane) =
            some lane' := by
        rw [← Option.ne_none_iff_exists']
        intro none
        exact laneOf_eq_none.mp none lane below rfl
      refine ⟨decl, declared, value.eval M st env lane', ?_, fun x => ?_⟩
      · exact access.2 ▸ Expr.eval_hasKind typed lane'
      · simp only [Stmt.effect, if_true, found, access.2]
    next => cases access

theorem Stmt.Independent.effects {M : Machine F} {s t : Stmt F} {env env' : Env} {decls : Decls}
    {scope scope' : List LoopId} (verified : s.verify decls scope = true)
    (verified' : t.verify decls scope' = true) (independent : Stmt.Independent M s env t env')
    (st : State F) : (s.effect M env st).Commutes (t.effect M env' st) := by
  obtain ⟨-, -, cells, vars, calls⟩ := independent
  constructor
  · intro buf cell x
    -- A cell that both leaves store to gets two summands; otherwise at most one of them changes it.
    by_cases touches : ∃ w ∈ s.stores, w.Touches M env st buf cell
    · by_cases touches' : ∃ w ∈ t.stores, w.Touches M env' st buf cell
      · obtain ⟨w, mem, touches⟩ := touches
        obtain ⟨w', mem', touches'⟩ := touches'
        cases cells with
        | inr apart => exact absurd touches' (apart st w mem w' mem' buf cell touches)
        | inl both =>
          obtain ⟨decl, declared, v, typed, adds⟩ :=
            Stmt.effect_accumulates verified both.1 mem touches
          obtain ⟨decl', declared', v', typed', adds'⟩ :=
            Stmt.effect_accumulates verified' both.2 mem' touches'
          rw [declared, Option.some.injEq] at declared'
          subst declared'
          have typedX := x.as_hasKind decl.type.elementType
          rw [adds, adds, adds', adds', Scalar.as_of_hasKind (M.binOp_hasKind .add typedX typed),
            Scalar.as_of_hasKind (M.binOp_hasKind .add typedX typed')]
          exact M.binOp_add_right_comm typedX typed' typed
      · simp only [not_exists, not_and] at touches'
        rw [Stmt.effect_cells touches', Stmt.effect_cells touches']
    · simp only [not_exists, not_and] at touches
      rw [Stmt.effect_cells touches, Stmt.effect_cells touches]
  -- The leaves set different variables.
  · intro var lane x
    cases s with
    | loop | ifRange | call | store => rfl
    | storeLocal dest value accumulate =>
      cases t with
      | loop | ifRange | call | store => rfl
      | storeLocal dest' value' accumulate' =>
        have differ : dest ≠ dest' := by simpa [Stmt.varsWrite] using vars
        by_cases here : var = dest
        · subst here
          simp [Stmt.effect, differ]
        · simp [Stmt.effect, here]
  -- One of the leaves makes no call.
  · cases calls with
    | inl quiet =>
      cases s with
      | call => cases quiet
      | loop | ifRange | store | storeLocal => exact .inl rfl
    | inr quiet =>
      cases t with
      | call => cases quiet
      | loop | ifRange | store | storeLocal => exact .inr rfl

/-- Independent leaves may run in either order. -/
theorem Stmt.Independent.commute {M : Machine F} {s t : Stmt F} {env env' : Env} {decls : Decls}
    {scope scope' : List LoopId} (verified : s.verify decls scope = true)
    (verified' : t.verify decls scope' = true) (leaf : s.isScope = false)
    (leaf' : t.isScope = false) (independent : Stmt.Independent M s env t env') :
    Function.Commute (s.exec M env) (t.exec M env') := by
  intro st
  calc s.exec M env (t.exec M env' st)
      = (st.apply (t.effect M env' st)).apply (s.effect M env st) := by
        rw [Stmt.exec_leaf leaf, Stmt.effect_unread verified leaf' independent.back,
          Stmt.exec_leaf leaf']
    _ = (st.apply (s.effect M env st)).apply (t.effect M env' st) :=
        (State.apply_comm (independent.effects verified verified' st) st).symm
    _ = t.exec M env' (s.exec M env st) := by
        rw [Stmt.exec_leaf leaf', Stmt.effect_unread verified' leaf independent.forth,
          Stmt.exec_leaf leaf]

/-! ## Statements that may change places -/

/-- An action commutes with a statement when it commutes with the leaves of the statement and
does not change what its guards decide. -/
theorem Stmt.commute_exec {M : Machine F} {g : State F → State F} (inside : Env → Prop)
    {s : Stmt F}
    (enter : ∀ loop ∈ s.collectLoops, ∀ env, inside env → ∀ i ∈ loop.1.iterations,
      inside (Function.update env loop.1.id i))
    (leaves : ∀ u ∈ s.collectStmts, u.isScope = false → ∀ env, inside env →
      Function.Commute g (u.exec M env))
    (guards : ∀ guard ∈ s.collectIfs, ∀ env, inside env → ∀ st,
      guard.1.eval M (g st) env 0 = guard.1.eval M st env 0) :
    ∀ {env}, inside env → Function.Commute g (s.exec M env) := by
  induction s using Stmt.inductTree with
  | loop header body ih =>
    intro env here
    simp only [Stmt.collectLoops_loop, List.mem_cons, List.mem_flatMap] at enter
    simp only [Stmt.collectIfs_loop, List.mem_flatMap] at guards
    apply Schedule.commute_run
    intro i memI st
    simp only [Stmt.execBody_eq_run]
    refine Schedule.commute_run (fun s mem => ?_) st
    apply ih s mem (fun loop memLoop => enter loop (.inr ⟨s, mem, memLoop⟩)) _
      (fun guard memGuard => guards guard ⟨s, mem, memGuard⟩)
    · exact enter (header, body) (.inl rfl) env here i memI
    · intro u memU
      apply leaves u
      rw [Stmt.collectStmts, Stmt.collectStmtsBody_eq]
      exact List.mem_cons_of_mem _ (List.mem_flatMap.mpr ⟨s, mem, memU⟩)
  | ifRange val start end_ body ih =>
    intro env here st
    simp only [Stmt.collectLoops_ifRange, List.mem_flatMap] at enter
    simp only [Stmt.collectIfs_ifRange, List.mem_cons, List.mem_flatMap] at guards
    simp only [Stmt.exec, guards (val, start, end_) (.inl rfl) env here st]
    -- The action does not change what the guard decides, so both sides take the same branch.
    split
    · simp only [Stmt.execBody_eq_run]
      refine Schedule.commute_run (fun s mem => ?_) st
      apply ih s mem (fun loop memLoop => enter loop ⟨s, mem, memLoop⟩) _
        (fun guard memGuard => guards guard (.inr ⟨s, mem, memGuard⟩)) here
      intro u memU
      apply leaves u
      rw [Stmt.collectStmts, Stmt.collectStmtsBody_eq]
      exact List.mem_cons_of_mem _ (List.mem_flatMap.mpr ⟨s, mem, memU⟩)
    · rfl
  | call name params | store arg indices value accumulate | storeLocal var value accumulate =>
    intro env here
    exact leaves _ (Stmt.mem_collectStmts_self _) rfl env here

end Semantics

end Bistra
