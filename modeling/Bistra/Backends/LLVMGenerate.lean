import Bistra.Backends.LLVMExprs

/-! # The code for an expression computes its value

By induction on the expression.  While the code for one operand runs, the values of the operands
before it stay where they are.
-/

namespace Bistra

open SingleAssignment

variable {F : Type}

/-- The operand has a value that satisfies `Q`. -/
def Operand.Holds (op : Operand F) (Q : LLVMValue F → Prop) (regs : List (LLVMValue F)) : Prop :=
  ∃ v, op.read regs = some v ∧ Q v

@[simp] theorem Operand.read_const (val : LLVMValue F) (regs : List (LLVMValue F)) :
    (Operand.const val).read regs = some val := rfl

theorem Operand.Holds.append {op : Operand F} {Q : LLVMValue F → Prop} {regs : List (LLVMValue F)}
    (new : List (LLVMValue F)) (holds : op.Holds Q regs) : op.Holds Q (regs ++ new) := by
  obtain ⟨v, read, value⟩ := holds
  refine ⟨v, ?_, value⟩
  cases op with
  | const val => exact read
  | reg place =>
    rw [Operand.read, List.getElem?_append_left (List.getElem?_eq_some_iff.mp read).1]
    exact read

/-- What is known of the values does not change when there are more of them. -/
def Stable (R : List (LLVMValue F) → Prop) : Prop := ∀ regs new, R regs → R (regs ++ new)

theorem Stable.true : Stable fun _ : List (LLVMValue F) => True := fun _ _ _ => trivial

theorem Stable.holds (op : Operand F) (Q : LLVMValue F → Prop) : Stable (op.Holds Q) :=
  fun _ new holds => holds.append new

theorem Stable.and {R S : List (LLVMValue F) → Prop} (first : Stable R) (second : Stable S) :
    Stable fun regs => R regs ∧ S regs :=
  fun regs new both => ⟨first regs new both.1, second regs new both.2⟩

section Rules

variable [Field F] [LinearOrder F]

/-- Where `R` holds, the code yields a value that satisfies `Q` and keeps the memory. -/
def Yields (M : Machine F) (cells : Cells) (mem : Memory F) (R : List (LLVMValue F) → Prop)
    (x : ValueEmission F (Operand F)) (Q : LLVMValue F → Prop) : Prop :=
  Computes (ValueInstr.act M cells) (fun regs m => m = mem ∧ R regs) x
    fun op regs m => m = mem ∧ op.Holds Q regs

variable {M : Machine F} {cells : Cells} {mem : Memory F} {R S : List (LLVMValue F) → Prop}
  {Q : LLVMValue F → Prop} {α : Type}

namespace Yields

theorem const {v : LLVMValue F} (value : Q v) : Yields M cells mem R (pure (.const v)) Q :=
  Computes.ret fun _ _ pre => ⟨pre.1, v, rfl, value⟩

theorem operand {op : Operand F} (holds : ∀ regs, R regs → op.Holds Q regs) :
    Yields M cells mem R (pure op) Q :=
  Computes.ret fun regs _ pre => ⟨pre.1, holds regs pre.2⟩

theorem createValue {i : ValueInstr F}
    (acts : ∀ regs, R regs → ∃ v, i.act M cells regs mem = some (v, mem) ∧ Q v) :
    Yields M cells mem R (createValue i) Q := by
  refine Computes.andThen (@Computes.insert _ _ _ (ValueInstr.act M cells)
    (fun regs m => m = mem ∧ R regs) i
    (fun place regs m => m = mem ∧ (Operand.reg place).Holds Q regs) ?_) fun place => ?_
  · rintro regs _ ⟨rfl, known⟩
    obtain ⟨v, acted, value⟩ := acts regs known
    refine ⟨v, _, acted, rfl, v, ?_, value⟩
    rw [Operand.read, List.getElem?_append_right (Nat.le_refl _), Nat.sub_self]
    rfl
  · exact Computes.ret fun _ _ post => post

theorem andThen {x : ValueEmission F (Operand F)} {f : Operand F → ValueEmission F α}
    {T : α → List (LLVMValue F) → Memory F → Prop} (stable : Stable R)
    (first : Yields M cells mem R x Q)
    (next : ∀ op, Computes (ValueInstr.act M cells)
      (fun regs m => m = mem ∧ R regs ∧ op.Holds Q regs) (f op) T) :
    Computes (ValueInstr.act M cells) (fun regs m => m = mem ∧ R regs) (x >>= f) T := by
  have framed := Computes.frame stable first
  refine Computes.andThen (Computes.weaken framed (fun regs m pre => ⟨pre, pre.2⟩)
    fun op regs m post => post) fun op => Computes.weaken (next op) ?_ fun _ _ _ post => post
  exact fun regs m pre => ⟨pre.1.1, pre.2, pre.1.2⟩

theorem weaken {R' : List (LLVMValue F) → Prop} {Q' : LLVMValue F → Prop}
    {x : ValueEmission F (Operand F)} (yields : Yields M cells mem R x Q)
    (pre : ∀ regs, R' regs → R regs) (post : ∀ v, Q v → Q' v) : Yields M cells mem R' x Q' :=
  Computes.weaken yields (fun regs _ this => ⟨this.1, pre regs this.2⟩)
    fun _ _ _ this => ⟨this.1, this.2.imp fun v both => ⟨both.1, post v both.2⟩⟩

theorem anywhere {x : ValueEmission F (Operand F)}
    (yields : Yields M cells mem (fun _ => True) x Q) : Yields M cells mem R x Q :=
  yields.weaken (fun _ _ => trivial) fun _ value => value

end Yields

/-! ## Operators -/

section Operators

variable {base : ArgId → Int} {type : ExprType} {lhs rhs : Nat → Scalar F} {LHS RHS : Operand F}

theorem LLVMBinOp.onInt_ofInt64 {op : LLVMBinOp} {kind : BinOpKind} {x y : BitVec 64}
    (matching : (op, kind) ∈ [(LLVMBinOp.add, BinOpKind.add), (.mul, .mul), (.sub, .sub),
      (.sdiv, .div)])
    (fits : FitsInt64 (kind.onInt x.toInt y.toInt)) (nonzero : kind = .div → y.toInt ≠ 0) :
    ∃ z, op.onInt x y = some z ∧ z.toInt = kind.onInt x.toInt y.toInt := by
  obtain ⟨low, high⟩ := fits
  simp only [List.mem_cons, Prod.mk.injEq, List.not_mem_nil, or_false] at matching
  obtain ⟨rfl, rfl⟩ | ⟨rfl, rfl⟩ | ⟨rfl, rfl⟩ | ⟨rfl, rfl⟩ := matching
  · refine ⟨x + y, rfl, ?_⟩
    rw [BitVec.toInt_add]
    exact Int.bmod_eq_of_le (by simpa [BinOpKind.onInt] using low) (by simpa [BinOpKind.onInt] using high)
  · refine ⟨x * y, rfl, ?_⟩
    rw [BitVec.toInt_mul]
    exact Int.bmod_eq_of_le (by simpa [BinOpKind.onInt] using low) (by simpa [BinOpKind.onInt] using high)
  · refine ⟨x - y, rfl, ?_⟩
    rw [BitVec.toInt_sub]
    exact Int.bmod_eq_of_le (by simpa [BinOpKind.onInt] using low) (by simpa [BinOpKind.onInt] using high)
  · have divisor := nonzero rfl
    have apart : ¬ (y = 0 ∨ (x = BitVec.intMin 64 ∧ y = -1)) := by
      rintro (rfl | ⟨rfl, rfl⟩)
      · exact divisor rfl
      -- The quotient of the least number by minus one does not fit.
      · exact absurd high (by decide)
    refine ⟨x.sdiv y, by rw [LLVMBinOp.onInt, if_neg apart], ?_⟩
    rw [BitVec.toInt_sdiv]
    exact Int.bmod_eq_of_le (by simpa [BinOpKind.onInt] using low) (by simpa [BinOpKind.onInt] using high)

/-- What is known of the operands of a binary expression. -/
def BothHold (M : Machine F) (base : ArgId → Int) (type : ExprType) (LHS RHS : Operand F)
    (lhs rhs : Nat → Scalar F) (regs : List (LLVMValue F)) : Prop :=
  LHS.Holds (·.Is M base type lhs) regs ∧ RHS.Holds (·.Is M base type rhs) regs

theorem bin_yields_int {op : LLVMBinOp} {kind : BinOpKind} (index : type.elementType = .indexTy)
    (matching : (op, kind) ∈ [(LLVMBinOp.add, BinOpKind.add), (.mul, .mul), (.sub, .sub),
      (.sdiv, .div)])
    (fits : FitsInt64 (kind.onInt (lhs 0).toInt (rhs 0).toInt))
    (nonzero : kind = .div → (rhs 0).toInt ≠ 0) :
    Yields M cells mem (BothHold M base type LHS RHS lhs rhs) (createValue (.bin op LHS RHS))
      (·.Is M base type fun k => M.binOp kind (lhs k) (rhs k)) := by
  refine Yields.createValue ?_
  rintro regs ⟨⟨v, readL, isL⟩, w, readR, isR⟩
  obtain ⟨x, rfl, valueL, scalarType⟩ := isL.int index
  obtain ⟨y, rfl, valueR, -⟩ := isR.int index
  rw [valueL, valueR] at fits
  rw [valueR] at nonzero
  obtain ⟨z, computed, value⟩ := LLVMBinOp.onInt_ofInt64 matching fits nonzero
  refine ⟨.int z, ?_, LLVMValue.is_int index scalarType ?_⟩
  · simp [ValueInstr.act, readL, readR, LLVMBinOp.eval, computed]
  · rw [valueL, valueR, value]
    rfl

theorem bin_yields_floats {op : LLVMBinOp} {kind : BinOpKind}
    (float : type.elementType = .float32Ty)
    (matching : ∀ x y, op.onFP M x y = some (M.binOpFP kind x y)) :
    Yields M cells mem (BothHold M base type LHS RHS lhs rhs) (createValue (.bin op LHS RHS))
      (·.Is M base type fun k => M.binOp kind (lhs k) (rhs k)) := by
  refine Yields.createValue ?_
  rintro regs ⟨⟨v, readL, isL⟩, w, readR, isR⟩
  obtain ⟨xs, rfl, lengthL, lanesL⟩ := isL.floats float
  obtain ⟨ys, rfl, lengthR, lanesR⟩ := isR.floats float
  refine ⟨.floats (List.zipWith (M.binOpFP kind) xs ys), ?_, LLVMValue.is_floats float ?_⟩
  · simp [ValueInstr.act, readL, readR, LLVMBinOp.eval, zipLanes, matching, lengthL, lengthR]
  · exact zipWith_lanes (fun _ _ => rfl) lanesL lanesR

theorem select_yields {pred : FCmp} {kind : BinOpKind} (float : type.elementType = .float32Ty)
    (matching : ∀ x y, (if pred.holds x y then x else y) = M.binOpFP kind x y) :
    Yields M cells mem (BothHold M base type LHS RHS lhs rhs)
      (createValue (.fcmp pred LHS RHS) >>= fun cond => createValue (.select cond LHS RHS))
      (·.Is M base type fun k => M.binOp kind (lhs k) (rhs k)) := by
  have compares : Yields M cells mem (BothHold M base type LHS RHS lhs rhs)
      (createValue (.fcmp pred LHS RHS)) fun c => ∃ xs ys : List F,
        c = .bools (List.zipWith pred.holds xs ys) ∧
          xs.map .flt = (List.range type.width.val).map lhs ∧
          ys.map .flt = (List.range type.width.val).map rhs := by
    refine Yields.createValue ?_
    rintro regs ⟨⟨v, readL, isL⟩, w, readR, isR⟩
    obtain ⟨xs, rfl, lengthL, lanesL⟩ := isL.floats float
    obtain ⟨ys, rfl, lengthR, lanesR⟩ := isR.floats float
    refine ⟨_, ?_, xs, ys, rfl, lanesL, lanesR⟩
    simp [ValueInstr.act, readL, readR, lengthL, lengthR]
  refine Yields.andThen ((Stable.holds LHS _).and (Stable.holds RHS _)) compares fun cond => ?_
  refine Yields.createValue ?_
  rintro regs ⟨⟨⟨v, readL, isL⟩, w, readR, isR⟩, c, readC, xs', ys', rfl, sameL, sameR⟩
  obtain ⟨xs, rfl, lengthL, lanesL⟩ := isL.floats float
  obtain ⟨ys, rfl, lengthR, lanesR⟩ := isR.floats float
  -- The lanes of the operands are the ones that have been compared.
  have injective : Function.Injective (List.map (Scalar.flt : F → Scalar F)) :=
    List.map_injective_iff.mpr fun _ _ same => Scalar.flt.inj same
  obtain rfl : xs' = xs := injective (sameL.trans lanesL.symm)
  obtain rfl : ys' = ys := injective (sameR.trans lanesR.symm)
  refine ⟨.floats (List.zipWith (M.binOpFP kind) xs' ys'), ?_, LLVMValue.is_floats float ?_⟩
  · simp [ValueInstr.act, readL, readR, readC, lengthL, lengthR, selectLanes_eq, matching]
  · exact zipWith_lanes (fun _ _ => rfl) lanesL lanesR

theorem generateBinary_yields_floats (kind : BinOpKind) (float : type.elementType = .float32Ty) :
    Yields M cells mem (BothHold M base type LHS RHS lhs rhs) (generateBinary kind true LHS RHS)
      (·.Is M base type fun k => M.binOp kind (lhs k) (rhs k)) := by
  cases kind with
  | add | mul | sub | div | pow => exact bin_yields_floats float fun _ _ => rfl
  | max =>
    refine select_yields float fun x y => ?_
    simp only [FCmp.holds, Machine.binOpFP, ge_iff_le, decide_eq_true_eq]
    split
    next le => exact (max_eq_left le).symm
    next gt => exact (max_eq_right (le_of_not_ge gt)).symm
  | min =>
    refine select_yields float fun x y => ?_
    simp only [FCmp.holds, Machine.binOpFP, decide_eq_true_eq]
    split
    next less => exact (min_eq_left less.le).symm
    next ge => exact (min_eq_right (le_of_not_gt ge)).symm

theorem generateBinary_yields_int {kind : BinOpKind} (index : type.elementType = .indexTy)
    (emittable : kind = .add ∨ kind = .mul ∨ kind = .sub ∨ kind = .div)
    (fits : FitsInt64 (kind.onInt (lhs 0).toInt (rhs 0).toInt))
    (nonzero : kind = .div → (rhs 0).toInt ≠ 0) :
    Yields M cells mem (BothHold M base type LHS RHS lhs rhs) (generateBinary kind false LHS RHS)
      (·.Is M base type fun k => M.binOp kind (lhs k) (rhs k)) := by
  obtain rfl | rfl | rfl | rfl := emittable <;>
    exact bin_yields_int index (by simp) fits nonzero

end Operators

/-! ## Subscripts -/

theorem scaleBySizes_yields (dims : List UInt32) {op : Operand F} {x : BitVec 64} :
    Yields M cells mem (op.Holds (· = .int x)) (scaleBySizes dims op)
      (· = .int (dims.foldl (fun val dimSize => val * dimSize.toBitVec.zeroExtend 64) x)) := by
  induction dims generalizing op x with
  | nil => exact Yields.operand fun _ holds => holds
  | cons d dims ih =>
    rw [scaleBySizes]
    have product : Yields M cells mem (op.Holds (· = .int x))
        (createValue (.bin .mul op (.const (.int (d.toBitVec.zeroExtend 64)))))
        (· = .int (x * d.toBitVec.zeroExtend 64)) := by
      refine Yields.createValue ?_
      rintro regs ⟨_, read, rfl⟩
      exact ⟨_, by simp [ValueInstr.act, read, LLVMBinOp.eval, LLVMBinOp.onInt], rfl⟩
    exact Yields.andThen (Stable.holds op _) product fun op' =>
      ih.weaken (fun _ both => both.2) fun _ value => value

theorem Expr.generateOffset_yields {p : Program F} {es : List (Expr F)} {value : Expr F → BitVec 64}
    (each : ∀ e ∈ es, Yields M cells mem (fun _ => True) (e.generate p) (· = .int (value e))) :
    ∀ {dims : List UInt32} {op : Operand F} {offset : BitVec 64}, dims.length = es.length →
      Yields M cells mem (op.Holds (· = .int offset)) (Expr.generateOffset p dims op es)
        (· = .int (indexOffsetFrom offset dims (es.map value))) := by
  -- The loop takes the subscripts from the left; what is left of the dimensions scales each of
  -- them.
  induction es with
  | nil =>
    intro dims op offset length
    cases List.length_eq_zero_iff.mp length
    rw [Expr.generateOffset]
    exact Yields.operand fun _ holds => holds
  | cons e es ih =>
    intro dims op offset length
    cases dims with
    | nil => cases length
    | cons d dims =>
      rw [Expr.generateOffset, List.tail_cons, List.map_cons, indexOffsetFrom]
      refine Yields.andThen (Stable.holds op _) (each e List.mem_cons_self).anywhere fun val => ?_
      refine Yields.andThen ((Stable.holds op _).and (Stable.holds val _))
        ((scaleBySizes_yields dims).weaken (fun _ both => both.2) fun _ value => value)
        fun dimSizeVal => ?_
      have sum : Yields M cells mem (fun regs => (op.Holds (· = .int offset) regs ∧
            val.Holds (· = .int (value e)) regs) ∧ dimSizeVal.Holds (· = .int (dims.foldl
              (fun val dimSize => val * dimSize.toBitVec.zeroExtend 64) (value e))) regs)
          (createValue (.bin .add op dimSizeVal)) (· = .int (offset + dims.foldl
            (fun val dimSize => val * dimSize.toBitVec.zeroExtend 64) (value e))) := by
        refine Yields.createValue ?_
        rintro regs ⟨⟨⟨_, readOffset, rfl⟩, -⟩, _, readVal, rfl⟩
        exact ⟨_, by simp [ValueInstr.act, readOffset, readVal, LLVMBinOp.eval, LLVMBinOp.onInt], rfl⟩
      refine Yields.andThen (((Stable.holds op _).and (Stable.holds val _)).and
        (Stable.holds dimSizeVal _)) sum fun op' => ?_
      exact (ih (fun e' mem => each e' (List.mem_cons_of_mem e mem)) (Nat.succ.inj length)).weaken
        (fun _ both => both.2) fun _ value => value

/-! ## Accesses -/

section Accesses

variable {p : Program F} {st : State F} {env : Env} {base : ArgId → Int}

omit [Field F] [LinearOrder F] in
theorem Program.NamesAgree.lookup_arg (names : p.NamesAgree) {arg : ArgId} {decl : Argument}
    (known : p.args[arg]? = some decl) :
    p.lookupValue decl.name = some (⟨.arg arg, 0⟩, .float 1) := by
  rw [Program.lookupValue, names.args arg decl known]

omit [Field F] [LinearOrder F] in
theorem Program.NamesAgree.lookup_var (names : p.NamesAgree) {var : VarId} {decl : LocalVar}
    (known : p.vars[var]? = some decl) {ty : LLVMType} (typed : getLLVMTypeForType decl.type = some ty) :
    p.lookupValue decl.name = some (⟨.var var, 0⟩, ty) := by
  simp [Program.lookupValue, names.vars var decl known, known, typed]

/-- The pointer to the element at some subscripts. -/
def elementPtr (decl : Argument) (arg : ArgId) (subs : List Int) : Pointer :=
  ⟨.arg arg, BitVec.ofInt 64 (RowMajor.offset decl.type.intDims subs)⟩

omit [Field F] [LinearOrder F] in
theorem inBox_small {dims : List UInt32} {subs : List Int}
    (inBox : RowMajor.InBox (dims.map fun d => (d.toNat : Int)) subs) :
    ∀ i ∈ subs, 0 ≤ i ∧ i < 2 ^ 63 := by
  induction dims generalizing subs with
  | nil =>
    cases inBox
    exact fun i mem => nomatch mem
  | cons d dims ih =>
    obtain _ | ⟨inside, inBox⟩ := inBox
    have size := d.toNat_lt
    dsimp only at inside
    intro i mem
    cases mem with
    | head => omega
    | tail _ mem => exact ih inBox i mem

theorem indexOffsetFrom_subscripts {decl : Argument} {indices : List (Expr F)}
    (inBox : RowMajor.InBox decl.type.intDims (Expr.subscripts M st env indices)) :
    indexOffsetFrom 0 decl.type.getDims
        (indices.map fun e => BitVec.ofInt 64 (e.eval M st env 0).toInt) =
      BitVec.ofInt 64 (RowMajor.offset decl.type.intDims (Expr.subscripts M st env indices)) := by
  have values : (indices.map fun e => BitVec.ofInt 64 (e.eval M st env 0).toInt).map (·.toInt) =
      Expr.subscripts M st env indices := by
    rw [Expr.subscripts_eq, List.map_map]
    refine List.map_congr_left fun e mem => ?_
    have bounds := inBox_small inBox (e.eval M st env 0).toInt (by
      rw [Expr.subscripts_eq]
      exact List.mem_map_of_mem mem)
    exact toInt_ofInt_of_lt bounds.1 bounds.2
  have computed := indexOffsetFrom_eq 0 decl.type.getDims
    (indices.map fun e => BitVec.ofInt 64 (e.eval M st env 0).toInt)
  rw [values, zero_add] at computed
  exact computed

/-- The subscripts of an access have values of 64 bits, and the access stays inside its tensor. -/
theorem createGEP_yields (names : p.NamesAgree) {arg : ArgId} {decl : Argument}
    (known : p.args[arg]? = some decl) {indices : List (Expr F)}
    (lengths : decl.type.getDims.length = indices.length)
    (inBox : RowMajor.InBox decl.type.intDims (Expr.subscripts M st env indices))
    (each : ∀ e ∈ indices, Yields M cells mem (fun _ => True) (e.generate p)
      (· = .int (BitVec.ofInt 64 (e.eval M st env 0).toInt))) :
    Yields M cells mem (fun _ => True)
      (createGEP p arg indices.length fun dims =>
        Expr.generateOffset p dims (.const (.int 0)) indices)
      (· = .ptr (elementPtr decl arg (Expr.subscripts M st env indices))) := by
  rw [createGEP]
  refine Computes.known known ?_
  rw [if_pos lengths]
  refine Computes.known rfl ?_
  have offsets : Yields M cells mem (fun _ => True)
      (Expr.generateOffset p decl.type.getDims (.const (.int 0)) indices)
      (· = .int (indexOffsetFrom 0 decl.type.getDims (indices.map fun e =>
        BitVec.ofInt 64 (e.eval M st env 0).toInt))) :=
    (Expr.generateOffset_yields each lengths).weaken (fun _ _ => ⟨_, rfl, rfl⟩) fun _ value => value
  refine Yields.andThen Stable.true offsets fun op => ?_
  refine Computes.known (names.lookup_arg known) ?_
  refine Yields.createValue ?_
  rintro regs ⟨-, _, read, rfl⟩
  refine ⟨_, ?_, rfl⟩
  rw [elementPtr, ← indexOffsetFrom_subscripts inBox]
  simp [ValueInstr.act, read]

omit [Field F] [LinearOrder F] in
theorem Program.Inside.lanes {arg : ArgId} {decl : Argument} (known : p.args[arg]? = some decl)
    (size : decl.type.numElements < 2 ^ 63) {subs : List Int} {width : Nat} (positive : 0 < width)
    (nonempty : subs ≠ []) (inside : p.Inside arg subs width) :
    ∃ n, (elementPtr decl arg subs).offset.toNat = n ∧ n + width ≤ decl.type.numElements ∧
      ∀ lane < width,
        RowMajor.offset decl.type.intDims (cellAt subs lane) = ((n + lane : Nat) : Int) := by
  have first := inside decl known 0 positive
  rw [cellAt_zero] at first
  have lengths := first.length_eq
  obtain ⟨low, -⟩ := RowMajor.offset_nonneg first
  have atLane : ∀ lane < width, RowMajor.offset decl.type.intDims subs + lane <
      decl.type.numElements := by
    intro lane below
    have high := RowMajor.offset_lt (inside decl known lane below)
    rw [offset_cellAt lengths nonempty, decl.type.prod_intDims] at high
    exact high
  refine ⟨(RowMajor.offset decl.type.intDims subs).toNat, ?_, ?_, fun lane _ => ?_⟩
  · have start := atLane 0 positive
    rw [elementPtr, BitVec.toNat_ofInt, Int.emod_eq_of_lt low (by omega)]
  · have past := atLane (width - 1) (by omega)
    omega
  · rw [offset_cellAt lengths nonempty]
    omega

omit [Field F] [LinearOrder F] in
theorem Memory.Represents.load (represents : mem.Represents p M base st) {arg : ArgId}
    {decl : Argument} (known : p.args[arg]? = some decl) (size : decl.type.numElements < 2 ^ 63)
    {subs : List Int} (width : VecWidth) (nonempty : subs ≠ [])
    (inside : p.Inside arg subs width.val) :
    ∃ xs : List F, mem.load (.float width.val) (elementPtr decl arg subs) = some (.floats xs) ∧
      xs.map .flt = (List.range width.val).map fun lane => st.bufs arg (cellAt subs lane) := by
  obtain ⟨n, place, fits, lanes⟩ := inside.lanes known size width.property.1 nonempty
  rw [← represents.size known] at fits
  refine ⟨(List.range width.val).map fun lane => (mem.bufs arg).elems (n + lane), ?_, ?_⟩
  · rw [elementPtr] at place ⊢
    rw [Memory.load_arg, place, Buffer.read, if_pos fits, Option.map_some]
  · rw [List.map_map]
    refine List.map_congr_left fun lane mem => ?_
    have below := List.mem_range.mp mem
    rw [represents.elems known (inside decl known lane below), lanes lane below, Int.toNat_natCast]
    rfl

omit [LinearOrder F] in
theorem LLVMValue.Is.as_lane {type : ExprType} {lane : Nat → Scalar F} {v : LLVMValue F}
    (is : v.Is M base type lane) {k : Nat} (below : k < type.width.val) :
    (lane k).as type.elementType = lane k := by
  -- The lane is one of the scalars of the value, so its kind is that of the value.
  have mem : lane k ∈ v.scalars M base := by
    rw [is.lanes]
    exact List.mem_map_of_mem (List.mem_range.mpr below)
  have typed := is.typed
  refine Scalar.as_of_hasKind ?_
  rw [getLLVMTypeForType] at typed
  cases v with
  | int n =>
    obtain same : lane k = .idx n.toInt := by simpa [LLVMValue.scalars] using mem
    rw [same]
    cases kind : type.elementType with
    | float32Ty => simp [LLVMValue.type, kind] at typed
    | int8Ty | indexTy | ptrTy | stringTy => trivial
  | floats xs =>
    obtain ⟨x, -, same⟩ := List.mem_map.mp mem
    rw [← same]
    cases kind : type.elementType with
    | float32Ty => trivial
    | ptrTy =>
      rw [kind] at typed
      simp only [LLVMValue.type] at typed
      split at typed <;> cases typed
    | int8Ty | indexTy | stringTy => simp [LLVMValue.type, kind] at typed
  | ptr pointer =>
    obtain ⟨block, offset⟩ := pointer
    cases block with
    | var V => cases mem
    | arg A =>
      obtain same : lane k = .idx (base A + 4 * offset.toInt) := by
        simpa [LLVMValue.scalars] using mem
      rw [same]
      cases kind : type.elementType with
      | float32Ty => simp [LLVMValue.type, kind] at typed
      | int8Ty | indexTy | ptrTy | stringTy => trivial
  | string val =>
    obtain same : lane k = .idx (M.stringAddr val) := by simpa [LLVMValue.scalars] using mem
    rw [same]
    cases kind : type.elementType with
    | float32Ty => simp [LLVMValue.type, kind] at typed
    | int8Ty | indexTy | ptrTy | stringTy => trivial
  | bools | void => cases mem

end Accesses

/-! ## Expressions -/

section Expressions

variable {p : Program F} {st : State F} {env : Env} {base : ArgId → Int} {scope : List LoopId}

theorem Decls.verifyAccess_iff {decls : Decls} {arg : ArgId} {numIndices : Nat}
    {kind : Option ElemKind} : decls.verifyAccess arg numIndices kind = true ↔
      ∃ decl, decls.args[arg]? = some decl ∧ numIndices ≠ 0 ∧
        decl.type.getDims.length = numIndices ∧ kind.all (· = decl.type.elementType) = true := by
  rw [Decls.verifyAccess]
  cases decls.args[arg]? with
  | none => simp
  | some decl =>
    simp only [Bool.and_eq_true, and_assoc, TensorType.getNumDims, TensorType.getDims,
      Option.some.injEq, exists_eq_left', ne_eq, decide_not, Bool.not_eq_true',
      decide_eq_false_iff_not]
    exact and_congr_right fun _ => and_congr_left fun _ => decide_eq_true_iff

omit [Field F] [LinearOrder F] in
theorem Program.Emittable.local_type (emittable : p.Emittable) {decl : LocalVar}
    (mem : decl ∈ p.vars) : ∃ ty, getLLVMTypeForType decl.type = some ty := by
  rw [getLLVMTypeForType]
  obtain float | ⟨scalarType, index | ptr⟩ := emittable.locals decl mem
  · exact ⟨_, by rw [float]⟩
  · exact ⟨_, by rw [index]⟩
  · exact ⟨.ptr, by simp [ptr, scalarType]⟩

theorem index_yields {e : Expr F} (index : e.getType.isIndexTy = true)
    (yields : Yields M cells mem (fun _ => True) (e.generate p)
      (·.Is M base e.getType (e.eval M st env))) :
    Yields M cells mem (fun _ => True) (e.generate p)
      (· = .int (BitVec.ofInt 64 (e.eval M st env 0).toInt)) := by
  refine yields.weaken (fun _ this => this) fun v is => ?_
  obtain ⟨n, rfl, value, -⟩ := is.int (by simpa [ExprType.isIndexTy] using index)
  rw [value, Scalar.toInt, BitVec.ofInt_toInt]

/-- **Expressions.**  Where the arithmetic stays inside 64 bits and the accesses stay inside their
tensors, the code for an expression yields its value. -/
theorem Expr.generate_yields (emittable : p.Emittable) (places : M.Places p base)
    (represents : mem.Represents p M base st) (agree : cells.Agree scope env) (e : Expr F)
    (verified : e.verify p.decls scope = true) (supported : e.emittable = true)
    (safe : e.Safe p M st env) :
    Yields M cells mem (fun _ => True) (e.generate p) (·.Is M base e.getType (e.eval M st env)) := by
  induction e using Expr.inductTree with
  | index loop type =>
    simp only [Expr.verify, ExprType.isIndexTy, Bool.and_eq_true, decide_eq_true_eq] at verified
    have scalarType : type.isVector = false := by simpa [Expr.emittable] using supported
    rw [Expr.generate]
    refine Computes.known (b := .int64 type.width.val)
      (by rw [getLLVMTypeForType, verified.1]) ?_
    refine Yields.createValue fun regs _ => ⟨_, rfl, ?_⟩
    refine LLVMValue.is_int verified.1 scalarType ?_
    have value := agree loop verified.2
    rw [Cells.env] at value
    simp [Expr.eval, value]
  | const val =>
    rw [Expr.generate]
    refine Yields.const (LLVMValue.is_int rfl rfl ?_)
    rw [BitVec.toInt_ofInt, Int.bmod_eq_of_le (by have := safe.1; omega) (by have := safe.2; omega)]
    rfl
  | constFP val =>
    rw [Expr.generate]
    exact Yields.const (LLVMValue.is_floats rfl rfl)
  | constString val => cases supported
  | binary kind lhs rhs ihL ihR =>
    simp only [Expr.verify, Bool.and_eq_true, decide_eq_true_eq] at verified
    simp only [Expr.emittable, Bool.and_eq_true] at supported
    obtain ⟨⟨same, verifiedL⟩, verifiedR⟩ := verified
    obtain ⟨⟨supportedL, supportedR⟩, operator⟩ := supported
    obtain ⟨safeL, safeR, arithmetic⟩ := safe
    have left := ihL verifiedL supportedL safeL
    have right := ihR verifiedR supportedR safeR
    rw [← same] at right
    rw [Expr.generate]
    -- What both kinds of operands have in common: the code of the left one comes first, and its
    -- value waits while the code of the right one runs.
    have operands : ∀ {isFP : Bool} {Q : LLVMValue F → Prop}, (∀ LHS RHS,
        Yields M cells mem (BothHold M base lhs.getType LHS RHS (lhs.eval M st env)
          (rhs.eval M st env)) (generateBinary kind isFP LHS RHS) Q) →
        Yields M cells mem (fun _ => True) (lhs.generate p >>= fun LHS =>
          rhs.generate p >>= fun RHS => generateBinary kind isFP LHS RHS) Q := by
      intro isFP Q final
      refine Yields.andThen Stable.true left fun LHS => ?_
      refine Yields.andThen (Stable.true.and (Stable.holds LHS _)) right.anywhere fun RHS => ?_
      exact (final LHS RHS).weaken (fun _ known => ⟨known.1.2, known.2⟩) fun _ value => value
    cases element : lhs.getType.elementType with
    | float32Ty =>
      refine Computes.known (b := .float lhs.getType.width.val)
        (by rw [getLLVMTypeForType, element]) ?_
      have isFP : (!lhs.getType.isIndexTy) = true := by simp [ExprType.isIndexTy, element]
      rw [isFP]
      exact operands fun LHS RHS => generateBinary_yields_floats kind element
    | indexTy =>
      refine Computes.known (b := .int64 lhs.getType.width.val)
        (by rw [getLLVMTypeForType, element]) ?_
      have isFP : (!lhs.getType.isIndexTy) = false := by simp [ExprType.isIndexTy, element]
      rw [isFP]
      obtain ⟨fits, nonzero⟩ := arithmetic element
      -- The emitter has no other operators on indices.
      have four : kind = .add ∨ kind = .mul ∨ kind = .sub ∨ kind = .div := by
        simpa [element, or_assoc] using operator
      exact operands fun LHS RHS => generateBinary_yields_int element four fits nonzero
    | int8Ty | ptrTy | stringTy => simp [element] at operator
  | unary kind val ih =>
    simp only [Expr.emittable, Bool.and_eq_true, decide_eq_true_eq] at supported
    obtain ⟨supported, element⟩ := supported
    rw [Expr.generate]
    refine Computes.known (b := .float val.getType.width.val)
      (by rw [getLLVMTypeForType, element]) ?_
    refine Yields.andThen Stable.true (ih verified supported safe) fun op => ?_
    refine Yields.createValue ?_
    rintro regs ⟨-, v, read, is⟩
    obtain ⟨xs, rfl, -, lanes⟩ := is.floats element
    refine ⟨.floats (xs.map (M.intrinsic kind)), by simp [ValueInstr.act, read],
      LLVMValue.is_floats element ?_⟩
    -- The intrinsic works on the lanes of the vector one by one, as the operator does.
    have pointwise : Scalar.flt ∘ M.intrinsic kind = M.unOp kind ∘ Scalar.flt := by
      funext x
      cases kind <;> rfl
    rw [List.map_map, pointwise, ← List.map_map, lanes, List.map_map]
    rfl
  | broadcast val vf ih =>
    simp only [Expr.verify, Bool.and_eq_true, Bool.not_eq_true'] at verified
    simp only [Expr.emittable, Bool.and_eq_true, decide_eq_true_eq] at supported
    obtain ⟨⟨supported, element⟩, -⟩ := supported
    rw [Expr.generate]
    refine Computes.known (b := .float vf.val) (by rw [getLLVMTypeForType, element]) ?_
    refine Yields.andThen Stable.true (ih verified.1 supported safe) fun op => ?_
    refine Yields.createValue ?_
    rintro regs ⟨-, v, read, is⟩
    obtain ⟨xs, rfl, -, lanes⟩ := is.floats element
    -- A verified broadcast repeats a scalar.
    have one : val.getType.width.val = 1 := by simpa [ExprType.isVector] using verified.2
    rw [one] at lanes
    obtain ⟨x, rfl⟩ : ∃ x, xs = [x] := by
      have length := congrArg List.length lanes
      exact List.length_eq_one_iff.mp (by simpa using length)
    have value : val.eval M st env 0 = .flt x := by simpa [eq_comm] using lanes
    refine ⟨.floats (List.replicate vf.val x), by simp [ValueInstr.act, read],
      LLVMValue.is_floats element ?_⟩
    rw [List.map_replicate, ← value]
    simp only [Expr.getType, Expr.eval, List.map_const', List.length_range]
  | gep arg indices ih =>
    simp only [Expr.verify, Bool.and_eq_true, Expr.verifyIndices_eq, List.all_eq_true,
      Decls.verifyAccess_iff] at verified
    simp only [Expr.emittable, Expr.emittableList_eq, List.all_eq_true] at supported
    obtain ⟨verified, decl, known, nonempty, lengths, -⟩ := verified
    obtain ⟨safe, inside⟩ := safe
    rw [Expr.safeList_iff] at safe
    -- The pointer is one to the first lane of the access.
    have inBox := inside decl known 0 Nat.one_pos
    rw [cellAt_zero] at inBox
    rw [Expr.generate]
    refine (createGEP_yields emittable.names known lengths inBox fun e mem =>
      index_yields (verified e mem).2 (ih e mem (verified e mem).1 (supported e mem)
        (safe e mem))).weaken (fun _ this => this) fun v same => ?_
    have low := (RowMajor.offset_nonneg inBox).1
    have high := RowMajor.offset_lt inBox
    have size := emittable.sizes decl (List.mem_of_getElem? known)
    rw [decl.type.prod_intDims] at high
    subst same
    refine ⟨rfl, ?_⟩
    rw [elementPtr, LLVMValue.scalars, toInt_ofInt_of_lt low (by omega), Expr.getType]
    simp only [Expr.eval, places known inBox, List.range_one, VecWidth.one_val, List.map_cons,
      List.map_nil, ExprType.scalar_width]
  | load arg indices type ih =>
    simp only [Expr.verify, Bool.and_eq_true, Expr.verifyIndices_eq, List.all_eq_true,
      Decls.verifyAccess_iff] at verified
    simp only [Expr.emittable, Expr.emittableList_eq, Bool.and_eq_true, List.all_eq_true,
      decide_eq_true_eq] at supported
    obtain ⟨verified, decl, known, arity, lengths, -⟩ := verified
    obtain ⟨supported, element⟩ := supported
    obtain ⟨safe, inside⟩ := safe
    rw [Expr.safeList_iff] at safe
    have inBox := inside decl known 0 type.width.property.1
    rw [cellAt_zero] at inBox
    rw [Expr.generate]
    refine Computes.known (b := .float type.width.val) (by rw [getLLVMTypeForType, element]) ?_
    have pointer := createGEP_yields emittable.names known lengths inBox fun e mem =>
      index_yields (verified e mem).2 (ih e mem (verified e mem).1 (supported e mem)
        (safe e mem))
    refine Yields.andThen Stable.true pointer fun ptr => ?_
    refine Computes.known known (Computes.known (emittable.names.lookup_arg known) ?_)
    have nonempty : Expr.subscripts M st env indices ≠ [] := by
      rw [Expr.subscripts_eq]
      simpa [← List.length_eq_zero_iff] using arity
    obtain ⟨xs, loaded, lanes⟩ := represents.load known
      (emittable.sizes decl (List.mem_of_getElem? known)) type.width nonempty inside
    have width : (if type.isVector = true then type.width.val else 1) = type.width.val := by
      by_cases one : type.width.val = 1 <;> simp [ExprType.isVector, one]
    refine Yields.createValue ?_
    rintro regs ⟨-, _, read, rfl⟩
    refine ⟨.floats xs, by simp [ValueInstr.act, read, width, loaded, -Expr.subscripts_eq],
      LLVMValue.is_floats element ?_⟩
    rw [lanes]
    refine List.map_congr_left fun lane memLane => ?_
    have below := List.mem_range.mp memLane
    rw [Expr.eval, represents.elems known (inside decl known lane below), element]
    rfl
  | loadLocal var type =>
    simp only [Expr.verify, Decls.verifyLocal] at verified
    rw [Expr.generate]
    cases known : p.vars[var]? with
    | none =>
      rw [show p.decls.vars[var]? = none from known] at verified
      cases verified
    | some decl =>
      rw [show p.decls.vars[var]? = some decl from known] at verified
      simp only [Bool.and_eq_true, decide_eq_true_eq] at verified
      obtain ⟨-, rfl⟩ := verified
      have is := represents.locals known
      obtain ⟨ty, typed⟩ := emittable.local_type (List.mem_of_getElem? known)
      refine Computes.known typed (Computes.known rfl
        (Computes.known (emittable.names.lookup_var known typed) ?_))
      refine Yields.createValue fun regs _ => ?_
      refine ⟨mem.locals var, by simp [ValueInstr.act, is.typed, typed], is.typed, ?_⟩
      rw [is.lanes]
      refine List.map_congr_left fun lane memLane => ?_
      exact (is.as_lane (List.mem_range.mp memLane)).symm

end Expressions

end Rules

end Bistra
