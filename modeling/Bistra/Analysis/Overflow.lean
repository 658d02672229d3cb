import Bistra.Analysis.RangeSound
import Bistra.Semantics.Footprint

/-! # The overflow warnings

`detectOverflow` of `bistrac.cpp`, and the cells that the executions of a program touch.
-/

namespace Bistra

variable {F : Type}

-- The order that `exactRange` uses.
local instance subscriptOrder : Preorder Int := Int.instLinearOrder.toPreorder

/-! ## The warnings -/

/-- `detectOverflow` on the subscripts of an access, from the dimension `i` on: the dimensions that
it warns of.  `none` is a failed assertion, or an access to a dimension that is not there. -/
def detectOverflowFrom (loops : LoopTable) :
    List UInt32 → List (Expr F) → Nat → Option (List Nat)
  | _, [], _ => some []
  | [], _ :: _, _ => none
  | dim :: dims, idx :: indices, i =>
    match computeKnownIntegerRange loops none idx with
    | none => none
    | some none => detectOverflowFrom loops dims indices (i + 1)
    | some (some range) =>
      let bufferSize := dim.toInt32
      (detectOverflowFrom loops dims indices (i + 1)).map fun warnings =>
        if range.1 < 0 ∨ bufferSize < range.2 then i :: warnings else warnings

/-- `getDims` of the buffer of an access. -/
def Program.dims (p : Program F) (access : Access F) : List UInt32 :=
  (p.args[access.arg]?.map (·.type.getDims)).getD []

mutual

/-- The statements that `isRangeProtected` does not find behind a check. -/
def Stmt.unprotected : Stmt F → List (Stmt F)
  | .loop _ body => Stmt.unprotectedBody body
  | .ifRange _ _ _ _ => []
  | .call name params => [.call name params]
  | .store arg indices value accumulate => [.store arg indices value accumulate]
  | .storeLocal var value accumulate => [.storeLocal var value accumulate]

def Stmt.unprotectedBody : List (Stmt F) → List (Stmt F)
  | [] => []
  | s :: rest => s.unprotected ++ Stmt.unprotectedBody rest

end

/-- The loads and the stores that `detectOverflow` looks at. -/
def Program.analyzed (p : Program F) : List (Access F) :=
  (Stmt.unprotectedBody p.body).flatMap Stmt.loads ++
    (Stmt.unprotectedBody p.body).flatMap Stmt.stores

/-- `detectOverflow` on a program: the warnings for every access. -/
def Program.detectOverflow (p : Program F) : Option (List (List Nat)) :=
  p.analyzed.mapM fun access => detectOverflowFrom p.loopTable (p.dims access) access.indices 0

/-- `detectOverflow` emits no warning. -/
def Program.Silent (p : Program F) : Prop :=
  ∃ warnings, p.detectOverflow = some warnings ∧ ∀ w ∈ warnings, w = []

/-! ## Executions -/

section Executions

variable [Field F] [LinearOrder F]

mutual

/-- The statements that a run from `st` evaluates, each with the indices and the state there. -/
def Stmt.visits (M : Machine F) (env : Env) : Stmt F → State F → List (Stmt F × Env × State F)
  | .loop header body, st =>
    Schedule.trace (fun i => Stmt.execBody M (Function.update env header.id i) body)
      (fun i => Stmt.visitsBody M (Function.update env header.id i) body) header.iterations st
  | .ifRange val start end_ body, st =>
    (.ifRange val start end_ body, env, st) ::
      if inRange start end_ (val.eval M st env 0).toInt then Stmt.visitsBody M env body st else []
  | leaf, st => [(leaf, env, st)]

def Stmt.visitsBody (M : Machine F) (env : Env) :
    List (Stmt F) → State F → List (Stmt F × Env × State F)
  | [], _ => []
  | s :: rest, st => s.visits M env st ++ Stmt.visitsBody M env rest (s.exec M env st)

end

/-- What a run of the program evaluates. -/
def Program.visits (M : Machine F) (p : Program F) (st : State F) :
    List (Stmt F × Env × State F) := Stmt.visitsBody M (fun _ => 0) p.body st

/-- The run touches a cell of a buffer, with one of the lanes of a load or of a store. -/
def Program.TouchesCell (M : Machine F) (p : Program F) (st : State F) (buf : ArgId)
    (cell : List Int) : Prop :=
  ∃ visit ∈ p.visits M st, ∃ access ∈ visit.1.stores ++ visit.1.loads,
    access.Touches M visit.2.1 visit.2.2 buf cell

/-- Every subscript of the cell is within its dimension of the buffer. -/
def Program.HasCell (p : Program F) (buf : ArgId) (cell : List Int) : Prop :=
  ∃ decl, p.args[buf]? = some decl ∧
    List.Forall₂ (fun (i : Int) dim => 0 ≤ i ∧ i < dim.toNat) cell decl.type.getDims

/-- No warning means no overflow. -/
def Program.OverflowReported (p : Program F) : Prop :=
  p.Silent → ∀ (M : Machine F) st buf cell, p.TouchesCell M st buf cell → p.HasCell buf cell

end Executions

/-! ## Subscripts -/

/-- A subscript, the size of its dimension, and how far the lanes reach behind it: the last
subscript counts up with the lanes. -/
def Access.subscripts (width : Nat) : List UInt32 → List (Expr F) → List (Expr F × UInt32 × Nat)
  | dim :: dims, idx :: indices =>
    (idx, dim, if indices = [] then width - 1 else 0) :: Access.subscripts width dims indices
  | _, _ => []

section Subscripts

variable {loops : LoopTable} {width : Nat} {dims : List UInt32} {indices : List (Expr F)}

theorem le_of_detectOverflowFrom {i : Nat} (silent : detectOverflowFrom loops dims indices i = some []) :
    ∀ x ∈ Access.subscripts width dims indices, ∀ I, boundedRange loops none x.1 = some I →
      0 ≤ I.fst ∧ I.snd ≤ x.2.1.toInt32.toInt := by
  induction indices generalizing dims i with
  | nil => cases dims <;> exact fun _ mem => nomatch mem
  | cons idx indices ih =>
    cases dims with
    | nil => exact fun _ mem => nomatch mem
    | cons dim dims =>
      have rest : ∀ {warnings}, detectOverflowFrom loops dims indices (i + 1) = some warnings →
          (warnings = [] → ∀ x ∈ Access.subscripts width dims indices, ∀ I,
            boundedRange loops none x.1 = some I → 0 ≤ I.fst ∧ I.snd ≤ x.2.1.toInt32.toInt) :=
        fun computed empty => ih (empty ▸ computed)
      simp only [detectOverflowFrom] at silent
      rw [Access.subscripts]
      split at silent
      next => cases silent
      next unknown =>
        refine List.forall_mem_cons.mpr ⟨fun I known => ?_, rest silent rfl⟩
        obtain ⟨range, computed, -⟩ := computeKnownIntegerRange_of_bounded known
        -- An unknown range gives no warning, but a bounded range is always known.
        cases unknown.symm.trans computed
      next range computed =>
        obtain ⟨warnings, later, same⟩ := Option.map_eq_some_iff.mp silent
        split at same
        next => cases same
        next quiet =>
          refine List.forall_mem_cons.mpr ⟨fun I known => ?_, rest later same⟩
          obtain ⟨range', computed', low, high⟩ := computeKnownIntegerRange_of_bounded known
          cases computed.symm.trans computed'
          -- The comparisons of the source are on `int`, those of the statement on integers.
          rw [Int32.lt_iff_toInt_lt, Int32.lt_iff_toInt_lt, low, high] at quiet
          simp only [Int32.toInt_zero] at quiet
          exact ⟨by omega, show I.snd ≤ dim.toInt32.toInt by omega⟩

theorem detectOverflowFrom_of_le {i : Nat} (fits : indices.length = dims.length)
    (inside : ∀ x ∈ Access.subscripts width dims indices, ∃ I,
      boundedRange loops none x.1 = some I ∧ 0 ≤ I.fst ∧ I.snd ≤ x.2.1.toInt32.toInt) :
    detectOverflowFrom loops dims indices i = some [] := by
  induction indices generalizing dims i with
  | nil => cases dims <;> rfl
  | cons idx indices ih =>
    cases dims with
    | nil => cases fits
    | cons dim dims =>
      obtain ⟨⟨I, known, nonneg, below⟩, rest⟩ := List.forall_mem_cons.mp inside
      obtain ⟨range, computed, low, high⟩ := computeKnownIntegerRange_of_bounded known
      have below : I.snd ≤ dim.toInt32.toInt := below
      have quiet : ¬(range.1 < 0 ∨ dim.toInt32 < range.2) := by
        rw [Int32.lt_iff_toInt_lt, Int32.lt_iff_toInt_lt, low, high]
        simp only [Int32.toInt_zero]
        omega
      simp only [detectOverflowFrom, computed, ih (Nat.succ.inj fits) rest, Option.map_some,
        if_neg quiet]

theorem inside_cellAt {value : Expr F → Int} {lane : Nat} (isLane : lane < width)
    (fits : indices.length = dims.length)
    (inside : ∀ x ∈ Access.subscripts width dims indices,
      0 ≤ value x.1 ∧ value x.1 + x.2.2 < x.2.1.toNat) :
    List.Forall₂ (fun (i : Int) (dim : UInt32) => 0 ≤ i ∧ i < dim.toNat)
      (cellAt (indices.map value) lane) dims := by
  induction indices generalizing dims with
  | nil =>
    cases dims with
    | nil => exact .nil
    | cons => cases fits
  | cons idx indices ih =>
    cases dims with
    | nil => cases fits
    | cons dim dims =>
      obtain ⟨first, rest⟩ := List.forall_mem_cons.mp inside
      have later := ih (Nat.succ.inj fits) rest
      cases indices with
      | nil =>
        cases dims with
        | cons => cases fits
        | nil =>
          simp only [if_pos] at first
          exact .cons ⟨by omega, by omega⟩ .nil
      | cons next indices =>
        simp only [reduceCtorEq, if_false] at first
        exact .cons ⟨by omega, by omega⟩ later

theorem lt_of_inside_cellAt {value : Expr F → Int}
    (inside : List.Forall₂ (fun (i : Int) (dim : UInt32) => 0 ≤ i ∧ i < dim.toNat)
      (cellAt (indices.map value) (width - 1)) dims) :
    ∀ x ∈ Access.subscripts width dims indices, value x.1 + x.2.2 < x.2.1.toNat := by
  induction indices generalizing dims with
  | nil => cases dims <;> exact fun _ mem => nomatch mem
  | cons idx indices ih =>
    cases indices with
    | nil =>
      cases inside with
      | cons first rest =>
        cases rest
        exact List.forall_mem_cons.mpr ⟨by simpa using first.2, fun _ mem => nomatch mem⟩
    | cons next indices =>
      cases inside with
      | cons first rest =>
        refine List.forall_mem_cons.mpr ⟨?_, ih rest⟩
        simp only [reduceCtorEq, if_false]
        have := first.2
        omega

end Subscripts

/-! ## What runs -/

section Visits

variable [Field F] [LinearOrder F] {M : Machine F} {p : Program F}

theorem Stmt.visitsBody_eq (M : Machine F) (env : Env) (body : List (Stmt F)) (st : State F) :
    Stmt.visitsBody M env body st =
      Schedule.trace (fun s => s.exec M env) (fun s => s.visits M env) body st := by
  induction body generalizing st with
  | nil => rfl
  | cons s rest ih => rw [Stmt.visitsBody, Schedule.trace, ih]

theorem Stmt.visits_reachable (verified : p.verify = true) {s : Stmt F}
    (loops : s.collectLoops ⊆ p.collectLoops) {env : Env} (reach : p.Reachable env) {st : State F}
    {visit : Stmt F × Env × State F} (mem : visit ∈ s.visits M env st) :
    visit.1 ∈ s.collectStmts ∧ p.Reachable visit.2.1 := by
  induction s using Stmt.inductTree generalizing env st with
  | loop header body ih =>
    rw [Stmt.visits] at mem
    -- A visit below the loop belongs to an iteration, and there to a statement of the body.
    obtain ⟨i, memI, st', inner⟩ := Schedule.mem_trace mem
    rw [Stmt.visitsBody_eq] at inner
    obtain ⟨s, memS, st'', here⟩ := Schedule.mem_trace inner
    have below : ∀ t ∈ body, t.collectLoops ⊆ p.collectLoops := fun t memT loop memLoop =>
      loops (by simpa using .inr ⟨t, memT, memLoop⟩)
    have declared : (header, body) ∈ p.collectLoops := loops (by simp)
    have entered : p.Reachable (Function.update env header.id i) :=
      -- The iteration only sets the index of this loop, to one of its iterations.
      reach.enter verified declared memI
    obtain ⟨found, reached⟩ := ih s memS (below s memS) entered here
    refine ⟨?_, reached⟩
    simpa [Stmt.collectStmts] using .inr ⟨s, memS, found⟩
  | ifRange val start end_ body ih =>
    rw [Stmt.visits, List.mem_cons] at mem
    rcases mem with rfl | inner
    · exact ⟨Stmt.mem_collectStmts_self _, reach⟩
    · split at inner
      · rw [Stmt.visitsBody_eq] at inner
        obtain ⟨s, memS, st', here⟩ := Schedule.mem_trace inner
        have below : s.collectLoops ⊆ p.collectLoops := fun loop memLoop =>
          loops (by simpa using ⟨s, memS, memLoop⟩)
        obtain ⟨found, reached⟩ := ih s memS below reach here
        refine ⟨?_, reached⟩
        simpa [Stmt.collectStmts] using .inr ⟨s, memS, found⟩
      · cases inner
  | call | store | storeLocal =>
    rw [Stmt.visits, List.mem_singleton] at mem
    subst mem
    exact ⟨Stmt.mem_collectStmts_self _, reach⟩
    all_goals exact nofun

/-- Without checks every leaf is evaluated at all indices that the loops have. -/
theorem Stmt.visits_of_reachable {decls : Decls} {s leaf : Stmt F} {scope : List LoopId}
    (verified : s.verify decls scope = true) (unchecked : s.collectIfs = [])
    (loops : s.collectLoops ⊆ p.collectLoops) (mem : leaf ∈ s.collectStmts)
    (isLeaf : leaf.isScope = false) {env env' : Env} (reach : p.Reachable env')
    (same : ∀ L ∈ scope, env L = env' L) (st : State F) :
    ∃ visit ∈ s.visits M env st, visit.1 = leaf ∧ ∃ scope', leaf.verify decls scope' = true ∧
      ∀ L ∈ scope', visit.2.1 L = env' L := by
  induction s using Stmt.inductTree generalizing env scope st with
  | loop header body ih =>
    simp only [Stmt.collectStmts, Stmt.collectStmtsBody_eq, List.mem_cons, List.mem_flatMap] at mem
    simp only [Stmt.verify, Bool.and_eq_true, Stmt.verifyBody_eq, List.all_eq_true] at verified
    simp only [Stmt.collectIfs_loop, List.flatMap_eq_nil_iff] at unchecked
    rcases mem with rfl | ⟨s, memS, memLeaf⟩
    · cases isLeaf
    · have here : env' header.id ∈ header.iterations := reach (header, body) (loops (by simp))
      have below : s.collectLoops ⊆ p.collectLoops := fun loop memLoop =>
        loops (by simpa using .inr ⟨s, memS, memLoop⟩)
      -- The iteration is the one that `env'` asks for, and the statement the one with the leaf.
      obtain ⟨st', inner⟩ := Schedule.subset_trace
        (fun i => Stmt.execBody M (Function.update env header.id i) body)
        (fun i => Stmt.visitsBody M (Function.update env header.id i) body) st here
      obtain ⟨st'', part⟩ := Schedule.subset_trace
        (fun s => s.exec M (Function.update env header.id (env' header.id)))
        (fun s => s.visits M (Function.update env header.id (env' header.id))) st' memS
      rw [← Stmt.visitsBody_eq] at part
      have agree : ∀ L ∈ header.id :: scope,
          Function.update env header.id (env' header.id) L = env' L := by
        intro L memL
        by_cases isHeader : L = header.id
        · rw [isHeader, Function.update_self]
        · rw [Function.update_of_ne isHeader]
          exact same L ((List.mem_cons.mp memL).resolve_left isHeader)
      obtain ⟨visit, visited, found⟩ :=
        ih s memS (verified.2 s memS) (unchecked s memS) below memLeaf agree st''
      exact ⟨visit, inner (part visited), found⟩
  | ifRange val start end_ body ih => simp at unchecked
  | call | store | storeLocal =>
    cases List.mem_singleton.mp mem
    exact ⟨_, List.mem_singleton_self _, rfl, scope, verified, same⟩

end Visits

/-! ## Programs without checks -/

/-- The program has no `IfRange`. -/
def Program.checkFree (p : Program F) : Bool := p.body.all fun s => s.collectIfs.isEmpty

def Program.accesses (p : Program F) : List (Access F) :=
  (Stmt.collectStmtsBody p.body).flatMap fun s => s.stores ++ s.loads

def Program.subscripts (p : Program F) : List (Expr F × UInt32 × Nat) :=
  p.accesses.flatMap fun access =>
    Access.subscripts access.type.width.val (p.dims access) access.indices

@[simp] theorem Stmt.unprotectedBody_eq (body : List (Stmt F)) :
    Stmt.unprotectedBody body = body.flatMap Stmt.unprotected := by
  induction body with
  | nil => rfl
  | cons s rest ih => simp [Stmt.unprotectedBody, ih]

theorem Stmt.mem_unprotected {s : Stmt F} (unchecked : s.collectIfs = []) {t : Stmt F} :
    t ∈ s.unprotected ↔ t ∈ s.collectStmts ∧ t.isScope = false := by
  induction s using Stmt.inductTree with
  | loop header body ih =>
    simp only [Stmt.collectIfs_loop, List.flatMap_eq_nil_iff] at unchecked
    simp only [Stmt.unprotected, Stmt.unprotectedBody_eq, Stmt.collectStmts,
      Stmt.collectStmtsBody_eq, List.mem_cons, List.mem_flatMap]
    constructor
    · rintro ⟨s, memS, mem⟩
      obtain ⟨found, leaf⟩ := (ih s memS (unchecked s memS)).mp mem
      exact ⟨.inr ⟨s, memS, found⟩, leaf⟩
    · rintro ⟨rfl | ⟨s, memS, found⟩, leaf⟩
      · cases leaf
      · exact ⟨s, memS, (ih s memS (unchecked s memS)).mpr ⟨found, leaf⟩⟩
  | ifRange val start end_ body ih => simp at unchecked
  | call | store | storeLocal =>
    simp only [Stmt.unprotected, Stmt.collectStmts, List.mem_singleton]
    exact ⟨fun same => ⟨same, same ▸ rfl⟩, fun found => found.1⟩

section CheckFree

variable {p : Program F}

theorem Program.collectIfs_of_checkFree (unchecked : p.checkFree = true) :
    ∀ s ∈ p.body, s.collectIfs = [] := by
  simpa [Program.checkFree, List.all_eq_true] using unchecked

theorem Program.isLeaf_of_access (unchecked : p.checkFree = true) {t : Stmt F}
    (memT : t ∈ Stmt.collectStmtsBody p.body) {access : Access F}
    (memA : access ∈ t.stores ++ t.loads) : t.isScope = false := by
  cases t with
  | loop header body => simp [Stmt.stores, Stmt.loads, Stmt.roots] at memA
  | ifRange val start end_ body =>
    simp only [Stmt.collectStmtsBody_eq, List.mem_flatMap] at memT
    obtain ⟨s, memS, found⟩ := memT
    have guard : (val, start, end_) ∈ s.collectIfs := List.mem_filterMap.mpr ⟨_, found, rfl⟩
    rw [Program.collectIfs_of_checkFree unchecked s memS] at guard
    cases guard
  | call | store | storeLocal => rfl

theorem Program.mem_analyzed (unchecked : p.checkFree = true) {access : Access F} :
    access ∈ p.analyzed ↔ access ∈ p.accesses := by
  have leaves : ∀ t, t ∈ Stmt.unprotectedBody p.body ↔
      t ∈ Stmt.collectStmtsBody p.body ∧ t.isScope = false := fun t => by
    simp only [Stmt.unprotectedBody_eq, Stmt.collectStmtsBody_eq, List.mem_flatMap]
    constructor
    · rintro ⟨s, memS, mem⟩
      have found := (Stmt.mem_unprotected (Program.collectIfs_of_checkFree unchecked s memS)).mp mem
      exact ⟨⟨s, memS, found.1⟩, found.2⟩
    · rintro ⟨⟨s, memS, found⟩, leaf⟩
      exact ⟨s, memS, (Stmt.mem_unprotected (Program.collectIfs_of_checkFree unchecked s memS)).mpr
        ⟨found, leaf⟩⟩
  simp only [Program.analyzed, Program.accesses, List.mem_append, List.mem_flatMap, leaves]
  constructor
  · rintro (⟨t, ⟨memT, -⟩, load⟩ | ⟨t, ⟨memT, -⟩, store⟩)
    · exact ⟨t, memT, .inr load⟩
    · exact ⟨t, memT, .inl store⟩
  · rintro ⟨t, memT, accesses⟩
    have leaf := Program.isLeaf_of_access unchecked memT (List.mem_append.mpr accesses)
    rcases accesses with store | load
    · exact .inr ⟨t, ⟨memT, leaf⟩, store⟩
    · exact .inl ⟨t, ⟨memT, leaf⟩, load⟩

theorem Program.silent_iff (unchecked : p.checkFree = true) :
    p.Silent ↔ ∀ access ∈ p.accesses,
      detectOverflowFrom p.loopTable (p.dims access) access.indices 0 = some [] := by
  simp only [Program.Silent, Program.detectOverflow, mapM_eq_some_iff,
    ← Program.mem_analyzed unchecked]
  constructor
  · rintro ⟨warnings, computed, empty⟩ access mem
    obtain ⟨w, memW, result⟩ := exists_of_forall₂ computed access mem
    rw [result, empty w memW]
  · intro silent
    refine ⟨p.analyzed.map fun _ => [], ?_, by simp⟩
    rw [List.forall₂_map_right_iff]
    exact List.forall₂_same.mpr silent

/-- The loops of a verified program are at one of their iterations. -/
theorem Program.Reachable.assigns (verified : p.verify = true) {env : Env}
    (reach : p.Reachable env) : p.loopTable.Assigns none env := by
  refine fun L => ⟨nofun, fun _ header known => ?_⟩
  obtain ⟨-, last⟩ := reach.bounds verified L header known
  obtain ⟨loop, found, rfl⟩ := Option.map_eq_some_iff.mp known
  obtain ⟨mem, rfl⟩ := Program.findLoop_mem found
  obtain ⟨-, -, positive, -⟩ := Loop.verify_iff.mp (Program.verify_loop verified mem)
  obtain ⟨nonneg, -, k, at_⟩ := (Loop.mem_iterations positive).mp (reach loop mem)
  have k_nonneg : 0 ≤ k := by
    by_contra negative
    have := Int.mul_neg_of_pos_of_neg (Int.ofNat_lt.mpr positive) (Int.not_le.mp negative)
    omega
  obtain ⟨n, rfl⟩ := Int.eq_ofNat_of_zero_le k_nonneg
  refine ⟨n, by rw [at_, Int.mul_comm], ?_⟩
  have fits : ((n * loop.1.stride.toNat + loop.1.stride.toNat : Nat) : Int) ≤
      loop.1.end_.toNat := by
    rw [at_, Int.mul_comm] at last
    push_cast
    omega
  rw [Nat.succ_mul]
  exact_mod_cast fits

theorem Program.of_verify_load {scope : List LoopId} {access : Access F}
    (verified : (Expr.load access.arg access.indices access.type).verify p.decls scope = true) :
    (∃ decl, p.args[access.arg]? = some decl ∧ p.dims access = decl.type.getDims ∧
      access.indices.length = decl.type.getDims.length) ∧
    ∀ e ∈ access.indices, ∀ index ∈ e.collectIndices, index.1 ∈ scope := by
  simp only [Expr.verify, Bool.and_eq_true, Expr.verifyIndices_eq, List.all_eq_true] at verified
  obtain ⟨indices, declared⟩ := verified
  refine ⟨?_, fun e mem index memI => (Expr.scoped_of_verify (indices e mem).1 index memI).1⟩
  rw [Decls.verifyAccess] at declared
  split at declared
  next decl known =>
    simp only [Bool.and_eq_true, decide_eq_true_eq] at declared
    have known : p.args[access.arg]? = some decl := known
    refine ⟨decl, known, by rw [Program.dims, known, Option.map_some, Option.getD_some], ?_⟩
    exact declared.1.2.symm
  next => cases declared

end CheckFree

/-! ## Soundness -/

/-- Every subscript is in its dimension up to its last lane; or the range of some subscript leaves
what the check takes for its dimension, so that a warning is emitted. -/
def Program.OverflowSafe (p : Program F) : Prop :=
  (∀ x ∈ p.subscripts, ∃ I, boundedRange p.loopTable none x.1 = some I ∧
    I.snd + x.2.2 < x.2.1.toNat) ∨
  ∃ x ∈ p.subscripts, ∃ I, boundedRange p.loopTable none x.1 = some I ∧
    (I.fst < 0 ∨ x.2.1.toInt32.toInt < I.snd)

theorem Access.mem_subscripts {width : Nat} {dims : List UInt32} {indices : List (Expr F)}
    {x : Expr F × UInt32 × Nat} (mem : x ∈ Access.subscripts width dims indices) :
    x.1 ∈ indices := by
  induction indices generalizing dims with
  | nil => cases dims <;> cases mem
  | cons idx indices ih =>
    cases dims with
    | nil => cases mem
    | cons dim dims =>
      rcases List.mem_cons.mp mem with rfl | later
      · exact List.mem_cons_self
      · exact List.mem_cons_of_mem _ (ih later)

section Soundness

variable [Field F] [LinearOrder F] {p : Program F}

/-- Some indices of the loops take the expression to the upper end of its range. -/
def Program.ReachesEnd (p : Program F) (e : Expr F) : Prop :=
  ∃ I, boundedRange p.loopTable none e = some I ∧
    ∃ env, p.Reachable env ∧ ∀ (M : Machine F) st, e.eval M st env 0 = .idx I.snd

/-- A subscript without subtractions, over natural numbers. -/
def Expr.increasing : Expr F → Bool
  | .index _ _ => true
  | .const val => decide (0 ≤ val)
  | .binary kind lhs rhs =>
    (kind = .add || kind = .mul || kind = .min || kind = .max) && lhs.increasing && rhs.increasing
  | _ => false

/-- The indices of the last iteration of every loop. -/
def Program.lastIndices (p : Program F) : Env := fun L =>
  ((p.loopTable L).map fun header => (header.end_.toNat - header.stride.toNat : Int)).getD 0

omit [Field F] [LinearOrder F] in
theorem Program.reachable_lastIndices (verified : p.verify = true) :
    p.Reachable p.lastIndices := by
  intro loop mem
  obtain ⟨nonempty, divides, positive, -⟩ := Loop.verify_iff.mp (Program.verify_loop verified mem)
  have known : p.loopTable loop.1.id = some loop.1 := by
    rw [Program.loopTable, Program.findLoop_of_mem verified mem, Option.map_some]
  have le : loop.1.stride.toNat ≤ loop.1.end_.toNat := Nat.le_of_dvd (by omega) divides
  rw [Program.lastIndices, known, Option.map_some, Option.getD_some, Loop.mem_iterations positive]
  refine ⟨by omega, by omega, ?_⟩
  exact Int.dvd_sub (Int.natCast_dvd_natCast.mpr divides) (dvd_refl _)

/-- The last iterations take an increasing subscript to the end of its range. -/
theorem Expr.increasing_reachesEnd {e : Expr F} (increasing : e.increasing = true)
    {I : NonemptyInterval Int} (known : boundedRange p.loopTable none e = some I) :
    0 ≤ I.fst ∧ ∀ (M : Machine F) st, e.eval M st p.lastIndices 0 = .idx I.snd := by
  induction e using Expr.inductTree generalizing I with
  | const val =>
    obtain ⟨rfl, -⟩ := boundedInterval_eq_some known
    exact ⟨of_decide_eq_true increasing, fun _ _ => rfl⟩
  | index loop type =>
    simp only [boundedRange] at known
    obtain ⟨J, found, bounded⟩ := Option.bind_eq_some_iff.mp known
    obtain ⟨rfl, -⟩ := boundedInterval_eq_some bounded
    obtain ⟨header, declared, inside⟩ := Option.bind_eq_some_iff.mp found
    simp only [Loop.range] at inside
    split at inside
    · cases inside
      refine ⟨le_refl _, fun M st => ?_⟩
      simp [Expr.eval, Program.lastIndices, declared]
    · cases inside
  | binary kind lhs rhs ihL ihR =>
    simp only [Expr.increasing, Bool.and_eq_true] at increasing
    simp only [boundedRange] at known
    obtain ⟨L, knownL, known⟩ := Option.bind_eq_some_iff.mp known
    obtain ⟨R, knownR, known⟩ := Option.bind_eq_some_iff.mp known
    obtain ⟨lowL, endL⟩ := ihL increasing.1.2 knownL
    obtain ⟨lowR, endR⟩ := ihR increasing.2 knownR
    -- Without subtractions every operator grows in both operands, so the lower end stays a natural
    -- number and the upper end is taken to the upper end.
    have highL : 0 ≤ L.snd := lowL.trans L.fst_le_snd
    have highR : 0 ≤ R.snd := lowR.trans R.fst_le_snd
    suffices ends : 0 ≤ I.fst ∧ kind.onInt L.snd R.snd = I.snd by
      refine ⟨ends.1, fun M st => ?_⟩
      rw [Expr.eval, endL, endR, Machine.binOp, ends.2]
    cases kind with
    | add =>
      obtain ⟨rfl, -⟩ := boundedInterval_eq_some known
      obtain ⟨low, high⟩ := @Interval.corners_of_le _ _ (· + ·) L R
        (Int.add_le_add_right L.fst_le_snd _) (Int.add_le_add_right L.fst_le_snd _)
        (Int.add_le_add_left R.fst_le_snd _) (Int.add_le_add_left R.fst_le_snd _)
      exact ⟨low ▸ Int.add_nonneg lowL lowR, high.symm⟩
    | mul =>
      obtain ⟨rfl, -⟩ := boundedInterval_eq_some known
      obtain ⟨low, high⟩ := @Interval.corners_of_le _ _ (· * ·) L R
        (Int.mul_le_mul_of_nonneg_right L.fst_le_snd lowR)
        (Int.mul_le_mul_of_nonneg_right L.fst_le_snd highR)
        (Int.mul_le_mul_of_nonneg_left R.fst_le_snd lowL)
        (Int.mul_le_mul_of_nonneg_left R.fst_le_snd highL)
      exact ⟨low ▸ Int.mul_nonneg lowL lowR, high.symm⟩
    | min =>
      obtain ⟨rfl, -⟩ := boundedInterval_eq_some known
      exact ⟨le_min lowL lowR, rfl⟩
    | max =>
      simp only [BinOpKind.boundedRange] at known
      split at known
      next same =>
        cases known
        refine ⟨le_min lowL lowR, ?_⟩
        -- Only because the upper ends agree: the computed one is their minimum.
        rw [← same]
        exact max_self L.snd
      next => cases known
    | sub | div | pow => simp at increasing
  | constFP | constString | unary | broadcast | gep | load | loadLocal => cases known

theorem Program.increasing_reachesEnd (verified : p.verify = true) {e : Expr F}
    (increasing : e.increasing = true) {I : NonemptyInterval Int}
    (known : boundedRange p.loopTable none e = some I) : p.ReachesEnd e :=
  ⟨I, known, p.lastIndices, Program.reachable_lastIndices verified,
    (Expr.increasing_reachesEnd increasing known).2⟩

theorem Program.overflowReported_of_safe (verified : p.verify = true)
    (unchecked : p.checkFree = true) (safe : p.OverflowSafe) : p.OverflowReported := by
  rintro silent M st buf cell ⟨visit, visited, access, memA, rfl, lane, isLane, rfl⟩
  -- From the cell back to the access: the statement that is visited, its access, and the lane.
  rw [Program.visits, Stmt.visitsBody_eq] at visited
  obtain ⟨s, memS, st', here⟩ := Schedule.mem_trace visited
  have below : s.collectLoops ⊆ p.collectLoops := fun loop mem =>
    List.mem_flatMap.mpr ⟨s, memS, mem⟩
  obtain ⟨found, reach⟩ :=
    Stmt.visits_reachable verified below (Program.reachable_start verified) here
  have memAccess : access ∈ p.accesses := by
    simp only [Program.accesses, Stmt.collectStmtsBody_eq, List.mem_flatMap]
    exact ⟨visit.1, ⟨s, memS, found⟩, memA⟩
  obtain ⟨scope, verifiedT⟩ :=
    Stmt.verify_collectStmts (Program.verify_body verified s memS) found
  obtain ⟨⟨decl, declared, dims, fits⟩, -⟩ :=
    Program.of_verify_load (Stmt.verify_accesses verifiedT access memA)
  have quiet := (Program.silent_iff unchecked).mp silent
  have inRange : ∀ access ∈ p.accesses, ∀ x ∈ Access.subscripts access.type.width.val
      (p.dims access) access.indices, ∀ I, boundedRange p.loopTable none x.1 = some I →
      0 ≤ I.fst ∧ I.snd ≤ x.2.1.toInt32.toInt :=
    fun access mem => le_of_detectOverflowFrom (quiet access mem)
  refine ⟨decl, declared, ?_⟩
  rw [Expr.subscripts_eq, ← dims]
  refine inside_cellAt isLane (dims ▸ fits) fun x memX => ?_
  -- The subscripts are inside if all of them are bounded; otherwise a warning had been emitted.
  rcases safe with inside | warned
  · obtain ⟨I, known, last⟩ := inside x (List.mem_flatMap.mpr ⟨access, memAccess, memX⟩)
    obtain ⟨v, memV, value⟩ : ∃ v ∈ I, x.1.eval M visit.2.2 visit.2.1 0 = .idx v :=
      boundedRange_sound (reach.assigns verified) known
    have nonneg := (inRange access memAccess x memX I known).1
    rw [value]
    have := memV.1
    have := memV.2
    exact ⟨by simp only [Scalar.toInt]; omega, by simp only [Scalar.toInt]; omega⟩
  · obtain ⟨y, memY, I, known, outside⟩ := warned
    obtain ⟨other, memOther, memY⟩ := List.mem_flatMap.mp memY
    have := inRange other memOther y memY I known
    omega

/-- Where every subscript reaches the end of its range, the program is safe if it touches only
cells of its buffers. -/
theorem Program.safe_of_overflowReported (verified : p.verify = true)
    (unchecked : p.checkFree = true) (ends : ∀ x ∈ p.subscripts, p.ReachesEnd x.1)
    (reported : p.OverflowReported) : p.OverflowSafe := by
  by_cases warned : ∃ x ∈ p.subscripts, ∃ I, boundedRange p.loopTable none x.1 = some I ∧
      (I.fst < 0 ∨ x.2.1.toInt32.toInt < I.snd)
  · exact .inr warned
  left
  push Not at warned
  have accesses : ∀ access ∈ p.accesses, ∃ s ∈ p.body, ∃ t ∈ s.collectStmts,
      t.isScope = false ∧ access ∈ t.stores ++ t.loads := by
    intro access mem
    obtain ⟨t, memT, memA⟩ := List.mem_flatMap.mp mem
    have leaf := Program.isLeaf_of_access unchecked memT memA
    rw [Stmt.collectStmtsBody_eq] at memT
    obtain ⟨s, memS, found⟩ := List.mem_flatMap.mp memT
    exact ⟨s, memS, t, found, leaf, memA⟩
  have silent : p.Silent := by
    refine (Program.silent_iff unchecked).mpr fun access mem => ?_
    obtain ⟨s, memS, t, found, -, memA⟩ := accesses access mem
    obtain ⟨scope, verifiedT⟩ :=
      Stmt.verify_collectStmts (Program.verify_body verified s memS) found
    obtain ⟨⟨decl, -, dims, fits⟩, -⟩ :=
      Program.of_verify_load (Stmt.verify_accesses verifiedT access memA)
    refine detectOverflowFrom_of_le (dims ▸ fits)
      fun x (here : x ∈ Access.subscripts access.type.width.val _ _) => ?_
    have memX : x ∈ p.subscripts := List.mem_flatMap.mpr ⟨access, mem, here⟩
    obtain ⟨I, known, -⟩ := ends x memX
    exact ⟨I, known, warned x memX I known⟩
  intro x memX
  obtain ⟨I, known, env, reach, value⟩ := ends x memX
  refine ⟨I, known, ?_⟩
  obtain ⟨access, memAccess, memX⟩ := List.mem_flatMap.mp memX
  obtain ⟨s, memS, t, found, leaf, memA⟩ := accesses access memAccess
  -- The run comes to the statement at these indices.
  obtain ⟨st, here⟩ := Schedule.subset_trace (fun s => s.exec Machine.bare fun _ => 0)
    (fun s => s.visits Machine.bare fun _ => 0) (State.zero : State F) memS
  rw [← Stmt.visitsBody_eq] at here
  have below : s.collectLoops ⊆ p.collectLoops := fun loop mem =>
    List.mem_flatMap.mpr ⟨s, memS, mem⟩
  obtain ⟨visit, visited, rfl, scope, verifiedT, agree⟩ := Stmt.visits_of_reachable (M := Machine.bare)
    (Program.verify_body verified s memS) (Program.collectIfs_of_checkFree unchecked s memS)
    below found leaf reach (fun _ mem => nomatch mem) st
  obtain ⟨⟨decl, declared, dims, fits⟩, around⟩ :=
    Program.of_verify_load (Stmt.verify_accesses verifiedT access memA)
  -- It touches the cell of the last lane.
  obtain ⟨decl', declared', inside⟩ := reported silent Machine.bare State.zero access.arg _
    ⟨visit, here visited, access, memA, rfl, access.type.width.val - 1,
      Nat.sub_lt access.type.width.2.1 Nat.one_pos, rfl⟩
  cases declared.symm.trans declared'
  rw [Expr.subscripts_eq, ← dims] at inside
  have last := lt_of_inside_cellAt inside x memX
  rwa [Expr.eval_congr fun index mem =>
    agree index.1 (around x.1 (Access.mem_subscripts memX) index mem), value] at last

/-- Without a warning nothing overflows in the programs that are safe; where every subscript
reaches the end of its range, such as without subtractions, only in them. -/
theorem Program.overflowReported_iff (verified : p.verify = true)
    (unchecked : p.checkFree = true) :
    (p.OverflowSafe → p.OverflowReported) ∧
      ((∀ x ∈ p.subscripts, p.ReachesEnd x.1) → (p.OverflowReported ↔ p.OverflowSafe)) := by
  have sound := Program.overflowReported_of_safe verified unchecked
  exact ⟨sound, fun ends => ⟨Program.safe_of_overflowReported verified unchecked ends, sound⟩⟩

end Soundness

/-- `for (i in 0 .. end) { Dest[i] = Src[i]; }` on buffers of `len` cells. -/
def memcpy (end_ len : UInt32) : Program F where
  name := "memcpy"
  args := [⟨"Dest", ⟨[len], ["len"], .float32Ty, rfl⟩⟩, ⟨"Src", ⟨[len], ["len"], .float32Ty, rfl⟩⟩]
  vars := []
  body := [.loop ⟨0, "i", end_, 1⟩ [.store 0 [.indexOf 0]
    (.load 1 [.indexOf 0] (.scalar .float32Ty)) false]]

theorem overflowReported_memcpy : (memcpy 4 4 : Program ℚ).OverflowReported := by
  refine ((Program.overflowReported_iff (by decide +kernel) (by decide +kernel)).2 ?_).mpr (.inl ?_)
  · refine List.forall_mem_cons.mpr ⟨?_, List.forall_mem_singleton.mpr ?_⟩
    all_goals exact Program.increasing_reachesEnd (by decide +kernel) rfl rfl
  · refine List.forall_mem_cons.mpr ⟨?_, List.forall_mem_singleton.mpr ?_⟩
    all_goals exact ⟨_, rfl, by decide⟩

/-- The range `0 .. 4` of the index is not above 4, and no warning is emitted for the cell 4 of the
buffers of 4 cells. -/
theorem overflow_unreported : (memcpy 5 4 : Program ℚ).verify = true ∧
    (memcpy 5 4 : Program ℚ).checkFree = true ∧
    (∀ x ∈ (memcpy 5 4 : Program ℚ).subscripts, ∃ range,
      computeKnownIntegerRange (memcpy 5 4 : Program ℚ).loopTable none x.1 = some (some range)) ∧
    ¬ (memcpy 5 4 : Program ℚ).OverflowReported := by
  have verified : (memcpy 5 4 : Program ℚ).verify = true := by decide +kernel
  have unchecked : (memcpy 5 4 : Program ℚ).checkFree = true := by decide +kernel
  refine ⟨verified, unchecked, ?_, fun reported => ?_⟩
  · refine List.forall_mem_cons.mpr ⟨⟨(0, 4), by decide +kernel⟩, ?_⟩
    exact List.forall_mem_singleton.mpr ⟨(0, 4), by decide +kernel⟩
  · have ends : ∀ x ∈ (memcpy 5 4 : Program ℚ).subscripts,
        (memcpy 5 4 : Program ℚ).ReachesEnd x.1 := by
      refine List.forall_mem_cons.mpr ⟨?_, List.forall_mem_singleton.mpr ?_⟩
      all_goals exact Program.increasing_reachesEnd verified rfl rfl
    rcases Program.safe_of_overflowReported verified unchecked ends reported with inside | warned
    · obtain ⟨I, known, last⟩ := inside _ List.mem_cons_self
      cases known
      exact absurd last (by decide)
    · obtain ⟨x, mem, I, known, outside⟩ := warned
      rcases List.mem_pair.mp mem with rfl | rfl
      all_goals
        cases known
        exact absurd outside (by decide)

end Bistra
