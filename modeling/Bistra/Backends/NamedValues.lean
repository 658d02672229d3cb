import Bistra.Parser.Outcome
import Bistra.Transforms.Promote

/-! # The values that the code generator finds by name

`LLVMEmitter` keeps arguments and local variables in one map, `namedValues_`, and looks for the name
of what an expression or a statement refers to.
-/

namespace Bistra

variable {F : Type}

/-- What an entry of `namedValues_` is for. -/
inductive NamedValue where
  | arg (arg : ArgId)
  | var (var : VarId)
  deriving DecidableEq

/-- The entries that `emit(Program *)` makes in `namedValues_`, the last one first: it replaces
those before it that have the same name. -/
def Program.namedValues (p : Program F) : List (String × NamedValue) :=
  (p.args.zipIdx.map (fun (arg : Argument × ArgId) => (arg.1.name, NamedValue.arg arg.2)) ++
    p.vars.zipIdx.map fun (var : LocalVar × VarId) => (var.1.name, NamedValue.var var.2)).reverse

/-- `namedValues_[name]`. -/
def Program.namedValue (p : Program F) (name : String) : Option NamedValue :=
  (p.namedValues.find? (·.1 = name)).map (·.2)

/-- The names are pairwise distinct, and what is found under the name of an argument or a local
variable is that argument or variable. -/
structure Program.NamesAgree (p : Program F) : Prop where
  distinct : (p.args.map (·.name) ++ p.vars.map (·.name)).Nodup
  args : ∀ i arg, p.args[i]? = some arg → p.namedValue arg.name = some (.arg i)
  vars : ∀ i var, p.vars[i]? = some var → p.namedValue var.name = some (.var i)

theorem Program.namedValues_names (p : Program F) :
    p.namedValues.map (·.1) = (p.args.map (·.name) ++ p.vars.map (·.name)).reverse := by
  rw [Program.namedValues, List.map_reverse, List.map_append, List.map_map, List.map_map]
  have args : (p.args.zipIdx.map Prod.fst).map Argument.name = p.args.map (·.name) := by
    rw [List.zipIdx_map_fst]
  have vars : (p.vars.zipIdx.map Prod.fst).map LocalVar.name = p.vars.map (·.name) := by
    rw [List.zipIdx_map_fst]
  rw [← args, ← vars, List.map_map, List.map_map]
  rfl

theorem Program.namedValue_of_mem {p : Program F}
    (distinct : (p.args.map (·.name) ++ p.vars.map (·.name)).Nodup) {name : String}
    {value : NamedValue} (mem : (name, value) ∈ p.namedValues) :
    p.namedValue name = some value := by
  have distinct : (p.namedValues.map (·.1)).Nodup := by
    rw [p.namedValues_names]
    exact List.nodup_reverse.mpr distinct
  rw [Program.namedValue]
  cases found : p.namedValues.find? (·.1 = name) with
  | none => simpa using List.find?_eq_none.mp found _ mem
  | some entry =>
    have same : entry.1 = name := by simpa using List.find?_some found
    have memEntry := List.mem_of_find?_eq_some found
    rw [List.inj_on_of_nodup_map distinct memEntry mem same]
    rfl

theorem Program.namesAgree_iff (p : Program F) :
    p.NamesAgree ↔ (p.args.map (·.name) ++ p.vars.map (·.name)).Nodup := by
  constructor
  · exact NamesAgree.distinct
  · intro distinct
    refine ⟨distinct, fun i arg known => ?_, fun i var known => ?_⟩
    · apply Program.namedValue_of_mem distinct
      rw [Program.namedValues, List.mem_reverse, List.mem_append]
      exact .inl (List.mem_map.mpr ⟨(arg, i), List.mk_mem_zipIdx_iff_getElem?.mpr known, rfl⟩)
    · apply Program.namedValue_of_mem distinct
      rw [Program.namedValues, List.mem_reverse, List.mem_append]
      exact .inr (List.mem_map.mpr ⟨(var, i), List.mk_mem_zipIdx_iff_getElem?.mpr known, rfl⟩)

section Parsed

variable [Field F] [LinearOrder F]

/-- The names of a program that has been parsed, and perhaps promoted, agree as long as neither a
declaration in the text nor `addTempVar` takes the name of an argument. -/
theorem parseText_namesAgree_iff (uninit : Int32) (text : List Char) (lets : List (String × Int32))
    {s : ParserState F} (returns : (parseText uninit text lets).2 = some ((), s))
    (noErrors : s.numErrors = 0) {p q : Program F} (registered : s.ctx.prog = some p)
    {steps : List (PromoteStep F)} (runs : PromoteRuns p steps q) :
    q.NamesAgree ↔
      (∀ name, .newVar name ∈ (parseText uninit text lets : List (ParseStep F) × _).1 →
        name ∉ p.args.map (·.name)) ∧
      ∀ nameHint vars, .addTempVar nameHint vars ∈ steps →
        tempName vars nameHint ∉ p.args.map (·.name) := by
  obtain ⟨args, vars, declared⟩ := parseText_names returns noErrors registered
  have added := runs.tempsAdded
  have distinct := added.distinct vars
  rw [Program.namesAgree_iff, added.args, added.names, declared, List.nodup_append]
  rw [added.names, declared] at distinct
  constructor
  -- Names that agree keep the variables apart from the arguments, whether a declaration or the pass
  -- has made them.
  · rintro ⟨-, -, apart⟩
    constructor
    · intro name step mem
      refine apart name mem name (List.mem_append_left _ ?_) rfl
      exact List.mem_filterMap.mpr ⟨_, step, rfl⟩
    · intro nameHint before step mem
      refine apart _ mem _ (List.mem_append_right _ ?_) rfl
      exact List.mem_filterMap.mpr ⟨_, step, rfl⟩
  · rintro ⟨textual, invented⟩
    refine ⟨args, distinct, ?_⟩
    -- A name of both kinds is that of a variable of the text, or of one that the pass has added.
    rintro name mem _ memVar rfl
    cases List.mem_append.mp memVar with
    | inl old =>
      obtain ⟨step, memStep, same⟩ := List.mem_filterMap.mp old
      cases step <;> cases same
      exact textual name memStep mem
    | inr new =>
      obtain ⟨step, memStep, same⟩ := List.mem_filterMap.mp new
      cases step <;> cases same
      exact invented _ _ memStep mem

end Parsed

/-- A sum that is kept in `A1` while the loop runs. -/
theorem parseText_namesAgree_sum : ∃ (s : ParserState ℚ) (p q : Program ℚ)
    (steps : List (PromoteStep ℚ)), s.ctx.prog = some p ∧ PromoteRuns p steps q ∧ q.vars ≠ [] ∧
      (q.NamesAgree ↔
        (∀ name, .newVar name ∈ (parseText 0
          "func f(A:float<x:4>) { for (i in 0 .. 4) { A[0] += 1.5 } }".toList [] :
            List (ParseStep ℚ) × _).1 → name ∉ p.args.map (·.name)) ∧
        ∀ nameHint vars, .addTempVar nameHint vars ∈ steps →
          tempName vars nameHint ∉ p.args.map (·.name)) := by
  have ran : (parseText 0 "func f(A:float<x:4>) { for (i in 0 .. 4) { A[0] += 1.5 } }".toList [] :
      List (ParseStep ℚ) × _).2.any (fun result => result.2.numErrors = 0 &&
        result.2.ctx.prog.any fun p => (promoteLICM.run p).2.any fun result =>
          !result.2.vars.isEmpty) = true := by
    decide +kernel
  obtain ⟨⟨_, s⟩, returns, result⟩ := (Option.any_eq_true _ _).mp ran
  rw [Bool.and_eq_true, decide_eq_true_eq] at result
  obtain ⟨p, registered, promoted⟩ := (Option.any_eq_true _ _).mp result.2
  obtain ⟨⟨changed, q⟩, promoted, some⟩ := (Option.any_eq_true _ _).mp promoted
  have runs := PromoteRuns.more (.none p) promoted
  exact ⟨s, p, q, _, registered, runs, by simpa using some,
    parseText_namesAgree_iff 0 _ [] returns result.1 registered runs⟩

/-- A local variable may have the name of an argument. -/
theorem parseText_names_clash : ¬ ∀ uninit text lets (s : ParserState ℚ) (p q : Program ℚ) steps,
    (parseText uninit text lets).2 = some ((), s) → s.numErrors = 0 → s.ctx.prog = some p →
      PromoteRuns p steps q → q.NamesAgree := by
  intro agree
  have ran : (parseText 0
      "func f(A:float<x:4>) { A[0] = 1.5 var A : float A = 2.5 }".toList [] :
      List (ParseStep ℚ) × _).2.any (fun result => result.2.numErrors = 0 &&
        result.2.ctx.prog.any fun p => p.args.map (·.name) = p.vars.map (·.name) &&
          !p.vars.isEmpty) = true := by
    decide +kernel
  obtain ⟨⟨_, s⟩, returns, result⟩ := (Option.any_eq_true _ _).mp ran
  rw [Bool.and_eq_true, decide_eq_true_eq] at result
  obtain ⟨p, registered, clash⟩ := (Option.any_eq_true _ _).mp result.2
  rw [Bool.and_eq_true, decide_eq_true_eq] at clash
  have names := (agree 0 _ [] s p p [] returns result.1 registered (.none p)).distinct
  rw [clash.1] at names
  cases same : p.vars with
  | nil => simp [same] at clash
  | cons var vars => simp [same, List.nodup_append] at names

end Bistra
