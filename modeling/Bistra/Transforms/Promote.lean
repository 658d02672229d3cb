import Mathlib.Algebra.Group.Defs
import Mathlib.Data.List.Perm.Subperm
import Bistra.Library.Procedure
import Bistra.Program.Clone

/-! # Promotion to local variables

`promoteLICM` of `Transforms.cpp`.  A load that does not depend on a loop is saved in a temporary
variable before the loop; a store that does not depend on the loop sets a temporary variable in the
loop, and the buffer behind it.  Both are done for loops whose body consists of stores.
-/

namespace Bistra

variable {F : Type}

/-! ## Names of temporary variables -/

/-- The loop of `addTempVar` from this value of the counter on, which ends after `fuel` rounds at
the latest. -/
def tempNameFrom (vars : List LocalVar) (nameHint : String) : Nat → Nat → String
  | 0, counter => nameHint ++ toString counter
  | fuel + 1, counter =>
    let name := nameHint ++ toString counter
    if vars.any (·.name = name) then tempNameFrom vars nameHint fuel (counter + 1) else name

/-- The name that `addTempVar` invents: the first one with the pattern "foo14" that no variable
has. -/
def tempName (vars : List LocalVar) (nameHint : String) : String :=
  tempNameFrom vars nameHint vars.length 1

theorem toString_injective {i j : Nat} (same : toString i = toString j) : i = j := by
  have digits := congrArg (fun s => Nat.ofDigitChars 10 (String.toList s) 0) same
  simpa [Nat.toString_eq_ofList_toDigits] using digits

theorem tempNameFrom_taken {vars : List LocalVar} {nameHint : String} {fuel counter : Nat}
    (taken : tempNameFrom vars nameHint fuel counter ∈ vars.map (·.name)) :
    ∀ i ≤ fuel, nameHint ++ toString (counter + i) ∈ vars.map (·.name) := by
  induction fuel generalizing counter with
  | zero =>
    intro i le
    rw [Nat.le_zero.mp le]
    exact taken
  | succ fuel ih =>
    simp only [tempNameFrom] at taken
    split at taken
    next used =>
      intro i le
      cases i with
      | zero =>
        obtain ⟨var, mem, same⟩ := List.any_eq_true.mp used
        exact List.mem_map.mpr ⟨var, mem, by simpa using same⟩
      | succ i =>
        have later := ih taken i (Nat.le_of_succ_le_succ le)
        rwa [Nat.add_assoc, Nat.add_comm 1 i] at later
    next unused =>
      refine (unused ?_).elim
      obtain ⟨var, mem, same⟩ := List.mem_map.mp taken
      exact List.any_eq_true.mpr ⟨var, mem, by simpa using same⟩

/-- There are more candidates than variables. -/
theorem tempName_fresh (vars : List LocalVar) (nameHint : String) :
    tempName vars nameHint ∉ vars.map (·.name) := by
  intro taken
  have all := tempNameFrom_taken taken
  let candidates := (List.range (vars.length + 1)).map fun i => nameHint ++ toString (1 + i)
  have distinct : candidates.Nodup := by
    refine List.Nodup.map (fun i j same => ?_) List.nodup_range
    have same : nameHint ++ toString (1 + i) = nameHint ++ toString (1 + j) := same
    have digits := toString_injective (String.append_right_inj nameHint |>.mp same)
    omega
  have within : candidates ⊆ vars.map (·.name) := by
    intro name mem
    obtain ⟨i, below, rfl⟩ := List.mem_map.mp mem
    exact all i (Nat.le_of_lt_succ (List.mem_range.mp below))
  have few := (List.subperm_of_subset distinct within).length_le
  rw [List.length_map, List.length_map, List.length_range] at few
  omega

/-! ## The pass -/

/-- What the pass does on the way. -/
inductive PromoteStep (F : Type) where
  /-- `addTempVar`, with the variables of the program before it. -/
  | addTempVar (nameHint : String) (vars : List LocalVar)
  /-- `replaceUseWith` deletes a load with these subscripts, and the loads in them too. -/
  | deleteLoad (indices : List (Expr F))

/-- The loads in the subscripts come later in the list of the loads, so there must be none. -/
def PromoteStep.legal : PromoteStep F → Bool
  | .addTempVar _ _ => true
  | .deleteLoad indices => (Expr.collectLoadsList indices).isEmpty

/-- A function of the pass, on the program. -/
abbrev Promote (F : Type) (α : Type) := Procedure (PromoteStep.legal (F := F)) (Program F) α

/-- `collectLoadStores` and `areLoadsStoresDisjoint`. -/
def areLoadsStoresDisjoint (stmts : List (Stmt F)) : Bool :=
  (stmts.flatMap Stmt.loads).all fun ld => ld.arg ∉ (stmts.flatMap Stmt.stores).map (·.arg)

def Stmt.isStore : Stmt F → Bool
  | .store _ _ _ _ => true
  | _ => false

/-- `getZeroExpr`; `none` is a failed assertion. -/
def getZeroExpr [Zero F] (T : ExprType) : Option (Expr F) :=
  let scalar : Expr F := if T.isIndexTy then .const 0 else .constFP 0
  let ret := if T.isVector then .broadcast scalar T.width else scalar
  if ret.getType = T then some ret else none

open Procedure

def addTempVar (nameHint : String) (Ty : ExprType) : Promote F VarId := do
  let p ← getState
  check (.addTempVar nameHint p.vars)
  modifyState fun p => { p with vars := p.vars ++ [⟨tempName p.vars nameHint, Ty⟩] }
  pure p.vars.length

/-! ### Loads -/

/-- What `hoistLoads` does with a load that does not depend on the loop: the load of the variable,
and the statement that saves the memory in it. -/
def hoistLoad (arg : ArgId) (indices : List (Expr F)) (type : ExprType) :
    Promote F (Expr F × List (Stmt F)) := do
  let dest ← ofOption (← getState).args[arg]?
  let var ← addTempVar dest.name type
  let decls := (← getState).decls
  -- Load the memory into a local before the loop.
  let ld ← ofOption ((Expr.load arg indices type).cloneChecked decls id)
  let save ← ofOption (decls.mkStoreLocal var ld false)
  -- Load the value during the loop.
  let value ← ofOption (decls.mkLoadLocal var)
  check (.deleteLoad indices)
  pure (value, [save])

mutual

/-- The loop of `hoistLoads` over the loads of an expression: the new expression, and the statements
before the loop. -/
def Expr.hoistLoads (L : LoopId) : Expr F → Promote F (Expr F × List (Stmt F))
  | .binary kind lhs rhs => do
    let (lhs, saves) ← lhs.hoistLoads L
    let (rhs, more) ← rhs.hoistLoads L
    pure (.binary kind lhs rhs, saves ++ more)
  | .unary kind val => do
    let (val, saves) ← val.hoistLoads L
    pure (.unary kind val, saves)
  | .broadcast val vf => do
    let (val, saves) ← val.hoistLoads L
    pure (.broadcast val vf, saves)
  | .gep arg indices => do
    let (indices, saves) ← Expr.hoistLoadsList L indices
    pure (.gep arg indices, saves)
  | .load arg indices type => do
    if (Expr.load arg indices type : Expr F).dependsOnLoop L then
      let (indices, saves) ← Expr.hoistLoadsList L indices
      pure (.load arg indices type, saves)
    else hoistLoad arg indices type
  | e => pure (e, [])

def Expr.hoistLoadsList (L : LoopId) : List (Expr F) → Promote F (List (Expr F) × List (Stmt F))
  | [] => pure ([], [])
  | e :: es => do
    let (e, saves) ← e.hoistLoads L
    let (es, more) ← Expr.hoistLoadsList L es
    pure (e :: es, saves ++ more)

end

/-- The loop of `hoistLoads` over the loads of the stores in the body. -/
def Stmt.hoistLoadsBody (L : LoopId) : List (Stmt F) → Promote F (List (Stmt F) × List (Stmt F))
  | .store arg indices value accumulate :: rest => do
    let (indices, saves) ← Expr.hoistLoadsList L indices
    let (value, more) ← value.hoistLoads L
    let (rest, later) ← Stmt.hoistLoadsBody L rest
    pure (.store arg indices value accumulate :: rest, saves ++ more ++ later)
  | body => pure (body, [])

def hoistLoads (L : LoopId) : Promote F Bool := do
  let (header, body) ← ofOption ((← getState).findLoop L)
  -- Abort if there are buffer dependencies between loads and stores.
  if !areLoadsStoresDisjoint (Stmt.collectStmtsBody body) then pure false
  -- Only hoist from innermost loops.
  else if !body.all Stmt.isStore then pure false
  else
    let (body, saves) ← Stmt.hoistLoadsBody L body
    modifyState fun p => p.substLoop L fun _ _ => saves ++ [.loop header body]
    pure false

/-! ### Stores -/

/-- A store that is sunk: the statement before the loop, the one in the loop, and the one after the
loop. -/
structure Sunk (F : Type) where
  init : Stmt F
  save : Stmt F
  flush : Stmt F

/-- What `sinkStores` does with a store that does not depend on the loop. -/
def sinkStore [Zero F] (arg : ArgId) (indices : List (Expr F)) (value : Expr F) (accumulate : Bool) :
    Promote F (Sunk F) := do
  let dest ← ofOption (← getState).args[arg]?
  let ty := value.getType
  let var ← addTempVar dest.name ty
  let decls := (← getState).decls
  -- Zero the accumulator before the loop.
  let zero ← ofOption (getZeroExpr ty)
  let init ← ofOption (decls.mkStoreLocal var zero false)
  -- Store the variable after the loop.
  let cloned ← ofOption (Expr.cloneIndices decls id indices)
  let gep ← ofOption (decls.mkGEP arg cloned)
  let sum ← ofOption (decls.mkLoadLocal var)
  let flush ← ofOption (Stmt.mkStore gep sum accumulate)
  -- Save into the temporary local variable.
  let value ← ofOption (value.cloneChecked decls id)
  let save ← ofOption (decls.mkStoreLocal var value accumulate)
  pure ⟨init, save, flush⟩

/-- The loop of `sinkStores` over the stores of the body: the new body, and the stores that have
been sunk in their order. -/
def Stmt.sinkStoresBody [Zero F] (L : LoopId) :
    List (Stmt F) → Promote F (List (Stmt F) × List (Sunk F))
  | .store arg indices value accumulate :: rest => do
    -- Don't hoist stores that depend on the loop index.
    if indices.any (Expr.dependsOnLoop L) then
      let (rest, sunk) ← Stmt.sinkStoresBody L rest
      pure (.store arg indices value accumulate :: rest, sunk)
    else
      let st ← sinkStore arg indices value accumulate
      let (rest, sunk) ← Stmt.sinkStoresBody L rest
      pure (st.save :: rest, st :: sunk)
  | body => pure (body, [])

/-- `sinkStores`.  Each store is flushed directly behind the loop, so the last one comes first. -/
def sinkStores [Zero F] (L : LoopId) : Promote F Bool := do
  let (header, body) ← ofOption ((← getState).findLoop L)
  -- Abort if there are buffer dependencies between loads and stores.
  if !areLoadsStoresDisjoint (Stmt.collectStmtsBody body) then pure false
  -- Only sink from innermost loops.
  else if !body.all Stmt.isStore then pure false
  else
    let (body, sunk) ← Stmt.sinkStoresBody L body
    modifyState fun p => p.substLoop L fun _ _ =>
      sunk.map (·.init) ++ [.loop header body] ++ (sunk.map (·.flush)).reverse
    pure !sunk.isEmpty

/-- The loop of `promoteLICM` over the loops of the program. -/
def promoteLoops [Zero F] (changed : Bool) : List LoopId → Promote F Bool
  | [] => pure changed
  | L :: loops => do
    let hoisted ← hoistLoads L
    let sunk ← sinkStores L
    promoteLoops (changed || hoisted || sunk) loops

def promoteLICM [Zero F] : Promote F Bool := do
  promoteLoops false ((← getState).collectLoops.map (·.1.id))

/-! ## The variables that the pass adds -/

/-- The name of the variable that a step adds. -/
def PromoteStep.newVar? : PromoteStep F → Option String
  | .addTempVar nameHint vars => some (tempName vars nameHint)
  | .deleteLoad _ => none

/-- The arguments are the same, and the new variables have the names that have been invented for
them. -/
structure TempsAdded (p : Program F) (steps : List (PromoteStep F)) (q : Program F) : Prop where
  args : q.args = p.args
  vars : p.vars <+: q.vars
  names : q.vars.map (·.name) = p.vars.map (·.name) ++ steps.filterMap PromoteStep.newVar?
  distinct : (p.vars.map (·.name)).Nodup → (q.vars.map (·.name)).Nodup

theorem TempsAdded.refl (p : Program F) : TempsAdded p [] p :=
  ⟨rfl, List.prefix_rfl, by simp, id⟩

theorem TempsAdded.trans {p q r : Program F} {steps more : List (PromoteStep F)}
    (first : TempsAdded p steps q) (second : TempsAdded q more r) :
    TempsAdded p (steps ++ more) r where
  args := second.args.trans first.args
  vars := first.vars.trans second.vars
  names := by rw [second.names, first.names, List.filterMap_append, List.append_assoc]
  distinct := second.distinct ∘ first.distinct

/-- The function adds temporary variables, and changes no other declarations. -/
def AddsTemps {α : Type} (x : Promote F α) : Prop :=
  ∀ p, x.post (fun steps _ q => TempsAdded p steps q) p

section Rules

variable {α β : Type}

theorem AddsTemps.pure (a : α) : AddsTemps (pure a : Promote F α) :=
  fun p => post_pure.mpr (.refl p)

theorem AddsTemps.bind {x : Promote F β} {f : β → Promote F α} (first : AddsTemps x)
    (next : ∀ b, AddsTemps (f b)) : AddsTemps (x >>= f) := by
  intro p
  rw [post_bind]
  exact post_mono (first p) fun steps b q added =>
    post_mono (next b q) fun more _ r later => added.trans later

theorem AddsTemps.getState : AddsTemps (getState : Promote F (Program F)) :=
  fun p => post_getState.mpr (.refl p)

theorem AddsTemps.ofOption (o : Option α) : AddsTemps (ofOption o : Promote F α) :=
  fun p => post_ofOption.mpr fun _ _ => .refl p

theorem AddsTemps.substLoop (L : LoopId) (f : Loop → List (Stmt F) → List (Stmt F)) :
    AddsTemps (modifyState fun p => p.substLoop L f) :=
  fun _ => post_modifyState.mpr ⟨rfl, List.prefix_rfl, by simp [Program.substLoop], id⟩

theorem AddsTemps.deleteLoad (indices : List (Expr F)) :
    AddsTemps (check (.deleteLoad indices) : Promote F Unit) :=
  fun _ => post_check.mpr fun _ => ⟨rfl, List.prefix_rfl, by simp [PromoteStep.newVar?], id⟩

theorem AddsTemps.ite {c : Prop} [Decidable c] {x y : Promote F α} (holds : AddsTemps x)
    (fails : AddsTemps y) : AddsTemps (if c then x else y) := by
  split
  · exact holds
  · exact fails

end Rules

theorem addsTemps_addTempVar (nameHint : String) (Ty : ExprType) :
    AddsTemps (addTempVar nameHint Ty : Promote F VarId) := by
  intro p
  simp only [addTempVar, post_bind, post_getState, post_check, post_modifyState, post_pure]
  intro _
  refine ⟨rfl, List.prefix_append _ _, by simp [PromoteStep.newVar?], fun distinct => ?_⟩
  rw [List.map_append, List.map_singleton, List.nodup_append]
  refine ⟨distinct, List.nodup_singleton _, ?_⟩
  rintro name mem _ new rfl
  have invented : name = tempName p.vars nameHint := List.mem_singleton.mp new
  rw [invented] at mem
  exact tempName_fresh p.vars nameHint mem

theorem addsTemps_hoistLoad (arg : ArgId) (indices : List (Expr F)) (type : ExprType) :
    AddsTemps (hoistLoad arg indices type) :=
  .bind .getState fun _ => .bind (.ofOption _) fun _ => .bind (addsTemps_addTempVar _ _) fun _ =>
    .bind .getState fun _ => .bind (.ofOption _) fun _ => .bind (.ofOption _) fun _ =>
    .bind (.ofOption _) fun _ => .bind (.deleteLoad _) fun _ => .pure _

theorem addsTemps_hoistLoadsList {L : LoopId} {es : List (Expr F)}
    (each : ∀ e ∈ es, AddsTemps (e.hoistLoads L)) : AddsTemps (Expr.hoistLoadsList L es) := by
  induction es with
  | nil => exact .pure _
  | cons e es ih =>
    rw [Expr.hoistLoadsList]
    exact .bind (each e List.mem_cons_self) fun _ =>
      .bind (ih fun e mem => each e (List.mem_cons_of_mem _ mem)) fun _ => .pure _

theorem Expr.addsTemps_hoistLoads (L : LoopId) (e : Expr F) : AddsTemps (e.hoistLoads L) := by
  induction e using Expr.inductTree with
  | index | const | constFP | constString | loadLocal => exact .pure _
  | binary kind lhs rhs ihL ihR =>
    rw [Expr.hoistLoads]
    exact .bind ihL fun _ => .bind ihR fun _ => .pure _
  | unary kind val ih | broadcast val vf ih =>
    rw [Expr.hoistLoads]
    exact .bind ih fun _ => .pure _
  | gep arg indices ih =>
    rw [Expr.hoistLoads]
    exact .bind (addsTemps_hoistLoadsList ih) fun _ => .pure _
  | load arg indices type ih =>
    rw [Expr.hoistLoads]
    exact .ite (.bind (addsTemps_hoistLoadsList ih) fun _ => .pure _)
      (addsTemps_hoistLoad arg indices type)

theorem addsTemps_hoistLoadsBody (L : LoopId) (body : List (Stmt F)) :
    AddsTemps (Stmt.hoistLoadsBody L body) := by
  induction body with
  | nil => exact .pure _
  | cons s rest ih =>
    cases s with
    | store arg indices value accumulate =>
      rw [Stmt.hoistLoadsBody]
      exact .bind (addsTemps_hoistLoadsList fun e _ => e.addsTemps_hoistLoads L) fun _ =>
        .bind (value.addsTemps_hoistLoads L) fun _ => .bind ih fun _ => .pure _
    | _ => exact .pure _

theorem addsTemps_hoistLoads (L : LoopId) : AddsTemps (hoistLoads L : Promote F Bool) :=
  .bind .getState fun _ => .bind (.ofOption _) fun _ => .ite (.pure _) (.ite (.pure _)
    (.bind (addsTemps_hoistLoadsBody L _) fun _ => .bind (.substLoop L _) fun _ => .pure _))

section Stores

variable [Zero F]

theorem addsTemps_sinkStore (arg : ArgId) (indices : List (Expr F)) (value : Expr F)
    (accumulate : Bool) : AddsTemps (sinkStore arg indices value accumulate) :=
  .bind .getState fun _ => .bind (.ofOption _) fun _ => .bind (addsTemps_addTempVar _ _) fun _ =>
    .bind .getState fun _ => .bind (.ofOption _) fun _ => .bind (.ofOption _) fun _ =>
    .bind (.ofOption _) fun _ => .bind (.ofOption _) fun _ => .bind (.ofOption _) fun _ =>
    .bind (.ofOption _) fun _ => .bind (.ofOption _) fun _ => .bind (.ofOption _) fun _ => .pure _

theorem addsTemps_sinkStoresBody (L : LoopId) (body : List (Stmt F)) :
    AddsTemps (Stmt.sinkStoresBody L body) := by
  induction body with
  | nil => exact .pure _
  | cons s rest ih =>
    cases s with
    | store arg indices value accumulate =>
      rw [Stmt.sinkStoresBody]
      exact .ite (.bind ih fun _ => .pure _)
        (.bind (addsTemps_sinkStore arg indices value accumulate) fun _ => .bind ih fun _ => .pure _)
    | _ => exact .pure _

theorem addsTemps_sinkStores (L : LoopId) : AddsTemps (sinkStores L : Promote F Bool) :=
  .bind .getState fun _ => .bind (.ofOption _) fun _ => .ite (.pure _) (.ite (.pure _)
    (.bind (addsTemps_sinkStoresBody L _) fun _ => .bind (.substLoop L _) fun _ => .pure _))

theorem addsTemps_promoteLoops (changed : Bool) (loops : List LoopId) :
    AddsTemps (promoteLoops changed loops : Promote F Bool) := by
  induction loops generalizing changed with
  | nil => exact .pure _
  | cons L loops ih =>
    rw [promoteLoops]
    exact .bind (addsTemps_hoistLoads L) fun _ => .bind (addsTemps_sinkStores L) fun _ => ih _

theorem addsTemps_promoteLICM : AddsTemps (promoteLICM : Promote F Bool) :=
  .bind .getState fun _ => addsTemps_promoteLoops _ _

/-- Any number of runs of the pass, with the steps of all of them. -/
inductive PromoteRuns : Program F → List (PromoteStep F) → Program F → Prop
  | none (p : Program F) : PromoteRuns p [] p
  | more {p q r : Program F} {steps : List (PromoteStep F)} {changed : Bool}
      (earlier : PromoteRuns p steps q) (ran : (promoteLICM.run q).2 = some (changed, r)) :
      PromoteRuns p (steps ++ (promoteLICM.run q).1) r

theorem PromoteRuns.tempsAdded {p q : Program F} {steps : List (PromoteStep F)}
    (runs : PromoteRuns p steps q) : TempsAdded p steps q := by
  induction runs with
  | none => exact .refl p
  | more earlier ran ih => exact ih.trans (addsTemps_promoteLICM _ _ _ ran)

end Stores

end Bistra
