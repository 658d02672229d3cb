import Bistra.Backends.LLVMGenerate

/-! # The code for a leaf statement does what the statement does

The code for a store, a local store or a call, run in a memory that represents a state, leaves a
memory that represents the state after the statement.
-/

namespace Bistra

open SingleAssignment

variable {F : Type}

/-- Parameters of calls may be strings. -/
def Expr.emittableParam : Expr F → Bool
  | .constString _ => true
  | e => e.emittable

/-- The emitter has code for the leaf statement; it adds with `CreateFAdd` only. -/
def Stmt.emittableLeaf : Stmt F → Bool
  | .store _ indices value _ => Expr.emittableList indices && value.emittable
  | .storeLocal _ value accumulate =>
    value.emittable && (!accumulate || decide (value.getType.elementType = .float32Ty))
  | .call _ params => params.all Expr.emittableParam
  | .loop _ _ | .ifRange _ _ _ _ => true

variable [Field F] [LinearOrder F]

/-- The expressions of a leaf statement are safe, and so is its store. -/
def Stmt.LeafSafe (p : Program F) (M : Machine F) (env : Env) (st : State F) : Stmt F → Prop
  | .store arg indices value _ =>
    Expr.SafeList p M st env indices ∧ value.Safe p M st env ∧
      p.Inside arg (Expr.subscripts M st env indices) value.getType.width.val
  | .storeLocal _ value _ => value.Safe p M st env
  | .call _ params => Expr.SafeList p M st env params
  | .loop _ _ | .ifRange _ _ _ _ => True

instance LeafSafe.decidable (p : Program F) (M : Machine F) (env : Env) (st : State F) :
    (s : Stmt F) → Decidable (s.LeafSafe p M env st)
  | .store .. => inferInstanceAs (Decidable (_ ∧ _ ∧ _))
  | .storeLocal _ value _ => inferInstanceAs (Decidable (value.Safe p M st env))
  | .call _ params => inferInstanceAs (Decidable (Expr.SafeList p M st env params))
  | .loop _ _ | .ifRange _ _ _ _ => .isTrue trivial

/-- Runs the code for a leaf statement. -/
def Stmt.runLeaf (p : Program F) (M : Machine F) (cells : Cells) (s : Stmt F) (mem : Memory F) :
    Option (Memory F) :=
  (s.emitLeaf p []).bind fun emitted =>
    (run (ValueInstr.act M cells) emitted.2 [] mem).map (·.2)

/-- Runs the code for the index of a guard. -/
def Expr.runIndex (p : Program F) (M : Machine F) (cells : Cells) (e : Expr F) (mem : Memory F) :
    Option (BitVec 64) :=
  (e.generate p []).bind fun emitted =>
    (run (ValueInstr.act M cells) emitted.2 [] mem).bind fun ran =>
      match emitted.1.read ran.1 with
      | some (.int n) => some n
      | _ => none

/-! ## Functions -/

omit [Field F] [LinearOrder F] in
theorem Expr.paramType_index {e : Expr F} (index : e.getType.isIndexTy = true) :
    ∃ ty, e.paramType = some ty := by
  rw [ExprType.isIndexTy, decide_eq_true_eq] at index
  cases e with
  | constString => exact ⟨_, rfl⟩
  | index | const | constFP | binary | unary | broadcast | gep | load | loadLocal =>
    exact ⟨_, by rw [Expr.paramType, getLLVMTypeForType, index]; simp⟩

omit [Field F] [LinearOrder F] in
theorem Expr.paramTypes_index {params : List (Expr F)}
    (index : ∀ e ∈ params, e.getType.isIndexTy = true) :
    ∃ types, params.mapM Expr.paramType = some types := by
  induction params with
  | nil => exact ⟨[], rfl⟩
  | cons e es ih =>
    obtain ⟨ty, first⟩ := Expr.paramType_index (index e List.mem_cons_self)
    obtain ⟨types, rest⟩ := ih fun e mem => index e (List.mem_cons_of_mem _ mem)
    exact ⟨ty :: types, by rw [List.mapM_cons, first, rest]; rfl⟩

omit [Field F] [LinearOrder F] in
theorem Program.Emittable.getFunction {p : Program F} (emittable : p.Emittable) {name : String}
    {params : List (Expr F)} (mem : (name, params) ∈ Stmt.collectCallsBody p.body) :
    p.getFunction name = params.mapM Expr.paramType := by
  have declared : ((Stmt.collectCallsBody p.body).find? (·.1 = name)).isSome := by
    rw [List.find?_isSome]
    exact ⟨_, mem, by simp⟩
  obtain ⟨first, found⟩ := Option.isSome_iff_exists.mp declared
  have same : first.1 = name := by simpa using List.find?_some found
  rw [Program.getFunction, if_pos (emittable.callsOut _ mem), found, Option.bind_some]
  exact emittable.signatures first (List.mem_of_find?_eq_some found) _ mem same

section Leaves

variable {M : Machine F} {cells : Cells} {mem : Memory F} {p : Program F} {st : State F} {env : Env}
  {base : ArgId → Int} {scope : List LoopId}

/-! ## Stores -/

omit [Field F] [LinearOrder F] in
theorem Memory.Represents.store (represents : mem.Represents p M base st) {arg : ArgId}
    {decl : Argument} (known : p.args[arg]? = some decl) (size : decl.type.numElements < 2 ^ 63)
    {subs : List Int} (width : VecWidth) (nonempty : subs ≠ [])
    (inside : p.Inside arg subs width.val) {xs : List F} {value : Nat → Scalar F}
    (lanes : xs.map .flt = (List.range width.val).map value) :
    ∃ mem' : Memory F, mem.store (.floats xs) (elementPtr decl arg subs) = some mem' ∧
      mem'.Represents p M base (st.writeLanes arg subs width.val value) := by
  obtain ⟨n, place, fits, consecutive⟩ := inside.lanes known size width.property.1 nonempty
  have length : xs.length = width.val := by simpa using congrArg List.length lanes
  have fitsBuffer : n + xs.length ≤ (mem.bufs arg).size := by
    rw [represents.size known, length]
    exact fits
  rw [elementPtr] at place ⊢
  refine ⟨_, by rw [Memory.store_arg, place, Buffer.write, if_pos fitsBuffer, Option.map_some], ?_⟩
  refine ⟨fun {A other} knownA => ?_, fun {A other cell} knownA inBox => ?_,
    fun knownV => represents.locals knownV, represents.calls⟩
  · by_cases here : A = arg
    · subst here
      simpa using represents.size knownA
    · simpa [here] using represents.size knownA
  · by_cases here : A = arg
    · subst here
      obtain rfl : other = decl := Option.some.inj (knownA.symm.trans known)
      have old := represents.elems known inBox
      have low := (RowMajor.offset_nonneg inBox).1
      simp only [State.writeLanes, if_true, Function.update_self]
      cases found : laneOf subs width.val cell with
      | some lane =>
        obtain ⟨below, rfl⟩ := laneOf_eq_some found
        have stored : xs[lane]? = some (xs.getD lane ((mem.bufs A).elems (n + lane))) := by
          rw [List.getD_eq_getElem?_getD, List.getElem?_eq_getElem (by omega)]
          rfl
        have same := congrArg (fun l : List (Scalar F) => l[lane]?) lanes
        simp only [List.getElem?_map, stored, List.getElem?_range below, Option.map_some,
          Option.some.injEq] at same
        simp only [consecutive lane below, Int.toNat_natCast, Nat.le_add_right, if_true,
          Nat.add_sub_cancel_left]
        exact same.symm
      | none =>
        -- Another cell of the tensor has another place in the buffer.
        have apart : ∀ lane < width.val,
            (RowMajor.offset other.type.intDims cell).toNat ≠ n + lane := by
          intro lane below same
          refine laneOf_eq_none.mp found lane below ?_
          refine RowMajor.offset_injective inBox (inside other known lane below) ?_
          rw [consecutive lane below]
          omega
        have kept : ∀ i, (∀ lane < width.val, i ≠ n + lane) →
            (if n ≤ i then xs.getD (i - n) ((mem.bufs A).elems i) else (mem.bufs A).elems i) =
              (mem.bufs A).elems i := by
          intro i other
          split
          next after =>
            have past : xs.length ≤ i - n := by
              by_contra short
              exact other (i - n) (by omega) (by omega)
            rw [List.getD_eq_getElem?_getD, List.getElem?_eq_none past]
            rfl
          next => rfl
        simp only [kept _ apart]
        exact old
    · simpa [State.writeLanes, here] using represents.elems knownA inBox

omit [Field F] [LinearOrder F] in
theorem Memory.Represents.storeLocal (represents : mem.Represents p M base st) {var : VarId}
    {decl : LocalVar} (known : p.vars[var]? = some decl) {v : LLVMValue F} {value : Nat → Scalar F}
    (is : v.Is M base decl.type value) :
    ∃ mem' : Memory F, mem.store v ⟨.var var, 0#64⟩ = some mem' ∧
      mem'.Represents p M base (st.writeLocal var value) := by
  have typed : v.type = (mem.locals var).type := by rw [is.typed, (represents.locals known).typed]
  refine ⟨_, by rw [Memory.store_var, if_pos typed], ?_⟩
  refine ⟨represents.size, represents.elems, fun {V other} knownV => ?_, represents.calls⟩
  by_cases here : V = var
  · subst here
    obtain rfl : other = decl := Option.some.inj (knownV.symm.trans known)
    simpa [State.writeLocal] using is
  · simpa [State.writeLocal, here] using represents.locals knownV

/-! ## Leaf statements -/

theorem insert_store_computes {R : List (LLVMValue F) → Prop} {val ptr : Operand F}
    {pointer : Pointer} {Q : LLVMValue F → Prop} {after : Memory F → Prop}
    (atVal : ∀ regs, R regs → val.Holds Q regs) (atPtr : ∀ regs, R regs → ptr.Holds (· = .ptr pointer) regs)
    (stores : ∀ v, Q v → ∃ mem' : Memory F, mem.store v pointer = some mem' ∧ after mem') :
    Computes (ValueInstr.act M cells) (fun regs m => m = mem ∧ R regs)
      (Emission.insert (.store val ptr) >>= fun _ => pure ()) fun _ _ m => after m := by
  refine Computes.andThen (@Computes.insert _ _ _ (ValueInstr.act M cells)
    (fun regs m => m = mem ∧ R regs) _ (fun _ _ m => after m) ?_)
    fun _ => Computes.ret fun _ _ post => post
  rintro regs _ ⟨rfl, known⟩
  obtain ⟨v, readVal, value⟩ := atVal regs known
  obtain ⟨_, readPtr, rfl⟩ := atPtr regs known
  obtain ⟨mem', stored, holds⟩ := stores v value
  exact ⟨.void, mem', by simp [ValueInstr.act, readVal, readPtr, stored], holds⟩

/-- The code for an accumulation: what is there is loaded, added to and stored back. -/
theorem accumulate_computes {R : List (LLVMValue F) → Prop} (stable : Stable R) {type : ExprType}
    (float : type.elementType = .float32Ty) {ty : LLVMType} {ptr storedVal : Operand F}
    {pointer : Pointer} {old new : Nat → Scalar F} {after : Memory F → Prop}
    (loads : ∃ v, mem.load ty pointer = some v ∧ v.Is M base type old)
    (atVal : ∀ regs, R regs → storedVal.Holds (·.Is M base type new) regs)
    (atPtr : ∀ regs, R regs → ptr.Holds (· = .ptr pointer) regs)
    (stores : ∀ v : LLVMValue F, v.Is M base type (fun k => M.binOp .add (old k) (new k)) →
      ∃ mem' : Memory F, mem.store v pointer = some mem' ∧ after mem') :
    Computes (ValueInstr.act M cells) (fun regs m => m = mem ∧ R regs)
      (createValue (.load ty ptr) >>= fun prev => createValue (.bin .fadd prev storedVal) >>= fun sum =>
        Emission.insert (.store sum ptr) >>= fun _ => pure ()) fun _ _ m => after m := by
  have loaded : Yields M cells mem R (createValue (.load ty ptr)) (·.Is M base type old) := by
    refine Yields.createValue fun regs known => ?_
    obtain ⟨v, found, is⟩ := loads
    obtain ⟨_, read, rfl⟩ := atPtr regs known
    exact ⟨v, by simp [ValueInstr.act, read, found], is⟩
  refine Yields.andThen stable loaded fun prev => ?_
  have added : Yields M cells mem (fun regs => R regs ∧ prev.Holds (·.Is M base type old) regs)
      (createValue (.bin .fadd prev storedVal))
      (·.Is M base type fun k => M.binOp .add (old k) (new k)) := by
    have adds : ∀ x y, LLVMBinOp.fadd.onFP M x y = some (M.binOpFP .add x y) := fun _ _ => rfl
    exact (bin_yields_floats float adds).weaken (fun regs known => ⟨known.2, atVal regs known.1⟩)
      fun _ is => is
  refine Yields.andThen (stable.and (Stable.holds prev _)) added fun sum => ?_
  exact insert_store_computes (fun _ known => known.2) (fun regs known => atPtr regs known.1.1) stores

section Stmt

variable {arg : ArgId} {var : VarId} {indices params : List (Expr F)} {value : Expr F}
  {accumulate : Bool} {name : String}

theorem emitStore_computes (emittable : p.Emittable) (places : M.Places p base)
    (represents : mem.Represents p M base st) (agree : cells.Agree scope env)
    (verified : (Stmt.store arg indices value accumulate).verify p.decls scope = true)
    (supported : (Stmt.store arg indices value accumulate).emittableLeaf = true)
    (safe : (Stmt.store arg indices value accumulate).LeafSafe p M env st) :
    Computes (ValueInstr.act M cells) (fun _ m => m = mem ∧ True)
      ((Stmt.store arg indices value accumulate).emitLeaf p)
      fun _ _ m => m.Represents p M base ((Stmt.store arg indices value accumulate).exec M env st) := by
  simp only [Stmt.verify, Bool.and_eq_true, Expr.verifyIndices_eq, List.all_eq_true,
    Decls.verifyAccess_iff] at verified
  simp only [Stmt.emittableLeaf, Expr.emittableList_eq, Bool.and_eq_true, List.all_eq_true] at supported
  obtain ⟨⟨verifiedIndices, decl, known, arity, lengths, kind⟩, verifiedValue⟩ := verified
  obtain ⟨supportedIndices, supportedValue⟩ := supported
  obtain ⟨safeIndices, safeValue, inside⟩ := safe
  rw [Expr.safeList_iff] at safeIndices
  have float : value.getType.elementType = .float32Ty := by
    rw [← emittable.floats decl (List.mem_of_getElem? known)]
    simpa using kind
  have size := emittable.sizes decl (List.mem_of_getElem? known)
  have inBox := inside decl known 0 value.getType.width.property.1
  rw [cellAt_zero] at inBox
  have nonempty : Expr.subscripts M st env indices ≠ [] := by
    rw [Expr.subscripts_eq]
    simpa [← List.length_eq_zero_iff] using arity
  have pointer := createGEP_yields emittable.names known lengths inBox fun e mem =>
    index_yields (verifiedIndices e mem).2 (Expr.generate_yields emittable places represents agree e
      (verifiedIndices e mem).1 (supportedIndices e mem) (safeIndices e mem))
  have stored := Expr.generate_yields emittable places represents agree value verifiedValue
    supportedValue safeValue
  -- The value that is stored in the end is the operand, or the sum with what is there.
  have writes : ∀ {v : LLVMValue F} {lane : Nat → Scalar F}, v.Is M base value.getType lane →
      ∃ mem' : Memory F, mem.store v (elementPtr decl arg (Expr.subscripts M st env indices)) =
        some mem' ∧ mem'.Represents p M base (st.writeLanes arg (Expr.subscripts M st env indices)
          value.getType.width.val lane) := by
    intro v lane is
    obtain ⟨xs, rfl, -, lanes⟩ := is.floats float
    exact represents.store known size _ nonempty inside lanes
  rw [Stmt.emitLeaf, Expr.generate]
  refine Yields.andThen Stable.true pointer fun ptr => ?_
  refine Yields.andThen (Stable.true.and (Stable.holds ptr _)) stored.anywhere fun val => ?_
  cases accumulate with
  | false =>
    exact insert_store_computes (fun _ known => known.2) (fun _ known => known.1.2) fun v is =>
      writes is
  | true =>
    refine Computes.known (b := .float value.getType.width.val)
      (by rw [getLLVMTypeForType, float]) ?_
    -- An accumulation loads the lanes that the store is going to replace.
    obtain ⟨xs, loaded, lanes⟩ := represents.load known size value.getType.width nonempty inside
    have old : (LLVMValue.floats xs).Is M base value.getType fun lane =>
        (st.bufs arg (cellAt (Expr.subscripts M st env indices) lane)).as
          value.getType.elementType := by
      refine LLVMValue.is_floats float (lanes.trans (List.map_congr_left fun lane memLane => ?_))
      have below := List.mem_range.mp memLane
      rw [represents.elems known (inside decl known lane below), float]
      rfl
    exact accumulate_computes ((Stable.true.and (Stable.holds ptr _)).and (Stable.holds val _)) float
      ⟨_, loaded, old⟩ (fun _ known => known.2) (fun _ known => known.1.2) fun v is => writes is

theorem emitStoreLocal_computes (emittable : p.Emittable) (places : M.Places p base)
    (represents : mem.Represents p M base st) (agree : cells.Agree scope env)
    (verified : (Stmt.storeLocal var value accumulate).verify p.decls scope = true)
    (supported : (Stmt.storeLocal var value accumulate).emittableLeaf = true)
    (safe : (Stmt.storeLocal var value accumulate).LeafSafe p M env st) :
    Computes (ValueInstr.act M cells) (fun _ m => m = mem ∧ True)
      ((Stmt.storeLocal var value accumulate).emitLeaf p)
      fun _ _ m => m.Represents p M base ((Stmt.storeLocal var value accumulate).exec M env st) := by
  simp only [Stmt.verify, Bool.and_eq_true, Decls.verifyLocal] at verified
  simp only [Stmt.emittableLeaf, Bool.and_eq_true, Bool.or_eq_true, Bool.not_eq_true',
    decide_eq_true_eq] at supported
  obtain ⟨verified, verifiedValue⟩ := verified
  obtain ⟨supported, adds⟩ := supported
  have stored := Expr.generate_yields emittable places represents agree value verifiedValue
    supported safe
  rw [Stmt.emitLeaf]
  cases known : p.vars[var]? with
  | none =>
    rw [show p.decls.vars[var]? = none from known] at verified
    cases verified
  | some decl =>
    rw [show p.decls.vars[var]? = some decl from known] at verified
    simp only [Bool.and_eq_true, decide_eq_true_eq] at verified
    obtain ⟨-, same⟩ := verified
    obtain ⟨ty, typed⟩ := emittable.local_type (List.mem_of_getElem? known)
    have is := represents.locals known
    -- The cell of the variable takes the whole value, so every lane is written.
    have writes : ∀ {v : LLVMValue F} {lane : Nat → Scalar F}, v.Is M base value.getType lane →
        (∀ k < value.getType.width.val, lane k = if accumulate then
          M.binOp .add ((st.locals var k).as value.getType.elementType) (value.eval M st env k)
          else value.eval M st env k) →
        ∃ mem' : Memory F, mem.store v ⟨.var var, 0#64⟩ = some mem' ∧
          mem'.Represents p M base ((Stmt.storeLocal var value accumulate).exec M env st) := by
      intro v lane isLane lanes
      refine represents.storeLocal known ⟨same ▸ isLane.typed, ?_⟩
      rw [isLane.lanes, ← same]
      refine List.map_congr_left fun k mem => ?_
      have below := List.mem_range.mp mem
      rw [lanes k below, if_pos below]
    refine Computes.known rfl (Computes.known (emittable.names.lookup_var known typed) ?_)
    refine Yields.andThen Stable.true stored fun val => ?_
    cases accumulate with
    | false =>
      exact insert_store_computes (fun _ known => known.2) (fun _ _ => ⟨_, rfl, rfl⟩) fun v is =>
        writes is fun _ _ => rfl
    | true =>
      -- The emitter adds with `CreateFAdd`, whatever the type of the variable.
      have float : value.getType.elementType = .float32Ty := by simpa using adds
      have loaded : mem.load ty ⟨.var var, 0#64⟩ = some (mem.locals var) := by
        rw [Memory.load_var, if_pos (by rw [is.typed, typed])]
      rw [← same] at is
      have old : (mem.locals var).Is M base value.getType fun lane =>
          (st.locals var lane).as value.getType.elementType := by
        refine ⟨is.typed, is.lanes.trans (List.map_congr_left fun k mem => ?_)⟩
        exact (is.as_lane (List.mem_range.mp mem)).symm
      exact accumulate_computes (Stable.true.and (Stable.holds val _)) float ⟨_, loaded, old⟩
        (fun _ known => known.2) (fun _ _ => ⟨_, rfl, rfl⟩) fun v is => writes is fun _ _ => rfl

theorem generateParams_computes (emittable : p.Emittable) (places : M.Places p base)
    (represents : mem.Represents p M base st) (agree : cells.Agree scope env)
    (verified : ∀ e ∈ params, e.verify p.decls scope = true)
    (supported : ∀ e ∈ params, e.emittableParam = true) (safe : ∀ e ∈ params, e.Safe p M st env) :
    Computes (ValueInstr.act M cells) (fun _ m => m = mem) (generateParams p params)
      fun ops regs m => m = mem ∧ ∃ vals, ops.mapM (Operand.read regs) = some vals ∧
        vals.map (·.scalars M base) = params.map (Expr.lanes M st env) := by
  induction params with
  | nil => exact Computes.ret fun _ _ same => ⟨same, [], rfl, rfl⟩
  | cons e es ih =>
    -- A string that is passed is a parameter and no expression that the emitter evaluates.
    have first : Yields M cells mem (fun _ => True) (e.generate p)
        (·.scalars M base = e.lanes M st env) := by
      by_cases plain : e.emittable = true
      · exact (Expr.generate_yields emittable places represents agree e (verified e (by simp)) plain
          (safe e (by simp))).weaken (fun _ this => this) fun _ is => is.lanes
      · have param := supported e List.mem_cons_self
        cases e with
        | constString val => exact Yields.const rfl
        | index | const | constFP | binary | unary | broadcast | gep | load | loadLocal =>
          exact absurd param plain
    have rest := ih (fun e mem => verified e (by simp [mem])) (fun e mem => supported e (by simp [mem]))
      fun e mem => safe e (by simp [mem])
    rw [generateParams]
    refine Computes.weaken ?_ (fun regs m same => (⟨same, trivial⟩ : m = mem ∧ True))
      fun _ _ _ post => post
    refine Yields.andThen Stable.true first fun op => ?_
    -- The first value waits while the code of the other parameters runs.
    have framed := Computes.frame (Stable.holds op (·.scalars M base = e.lanes M st env)) rest
    refine Computes.andThen (Computes.weaken framed (fun regs m pre => ⟨pre.1, pre.2.2⟩)
      fun _ _ _ post => post) fun ops => Computes.ret ?_
    rintro regs m ⟨⟨same, vals, read, lanes⟩, v, readV, lanesV⟩
    exact ⟨same, v :: vals, by simp [List.mapM_cons, readV, read], by simp [lanes, lanesV]⟩

theorem emitCall_computes (emittable : p.Emittable) (places : M.Places p base)
    (represents : mem.Represents p M base st) (agree : cells.Agree scope env)
    (called : (name, params) ∈ Stmt.collectCallsBody p.body)
    (verified : (Stmt.call name params).verify p.decls scope = true)
    (supported : (Stmt.call name params).emittableLeaf = true)
    (safe : (Stmt.call name params).LeafSafe p M env st) :
    Computes (ValueInstr.act M cells) (fun _ m => m = mem) ((Stmt.call name params).emitLeaf p)
      fun _ _ m => m.Represents p M base ((Stmt.call name params).exec M env st) := by
  simp only [Stmt.verify, List.all_eq_true, Bool.and_eq_true] at verified
  simp only [Stmt.emittableLeaf, List.all_eq_true] at supported
  have safe := Expr.safeList_iff.mp safe
  rw [Stmt.emitLeaf]
  refine Computes.andThen (generateParams_computes emittable places represents agree
    (fun e mem => (verified e mem).1) supported safe) fun ops => ?_
  obtain ⟨types, typed⟩ := Expr.paramTypes_index fun e mem => (verified e mem).2
  refine Computes.known typed (Computes.known (emittable.getFunction called |>.trans typed)
    (Computes.known (if_pos rfl) ?_))
  refine Computes.andThen (@Computes.insert _ _ _ (ValueInstr.act M cells)
    (fun regs m => m = mem ∧ ∃ vals, ops.mapM (Operand.read regs) = some vals ∧
      vals.map (·.scalars M base) = params.map (Expr.lanes M st env)) _
    (fun _ _ m => m.Represents p M base ((Stmt.call name params).exec M env st)) ?_)
    fun _ => Computes.ret fun _ _ post => post
  rintro regs _ ⟨rfl, vals, read, lanes⟩
  refine ⟨.void, _, by simp only [ValueInstr.act, read, Option.map_some]; rfl, ?_⟩
  refine ⟨represents.size, represents.elems, represents.locals, ?_⟩
  simp only [Memory.call, List.map_append, represents.calls, List.map_cons, List.map_nil, lanes]
  rfl

end Stmt

end Leaves

end Bistra
