import Bistra.Program.Verify

/-! # Rewritings that keep programs well formed

What has to be checked of the statements that take the place of a loop, and of clones, so that
`Program::verify` accepts the new program.
-/

namespace Bistra

variable {F : Type}

/-! ## More declarations and loops -/

theorem Decls.verifyLocal_extends {decls decls' : Decls} (vars : decls.vars <+: decls'.vars)
    {var : VarId} {type : ExprType} (verified : decls.verifyLocal var type = true) :
    decls'.verifyLocal var type = true := by
  obtain ⟨more, same⟩ := vars
  simp only [Decls.verifyLocal] at verified ⊢
  split at verified
  next decl known =>
    have bound : var < decls.vars.length := (List.getElem?_eq_some_iff.mp known).1
    rw [← same, List.getElem?_append_left bound, known]
    simp only [Bool.and_eq_true, Decls.isUniqued, decide_eq_true_eq] at verified ⊢
    rw [← same, List.findIdx?_append, verified.1]
    exact ⟨rfl, verified.2⟩
  next => cases verified

theorem Decls.verifyAccess_extends {decls decls' : Decls} (args : decls.args <+: decls'.args)
    {arg : ArgId} {numIndices : Nat} {kind : Option ElemKind}
    (verified : decls.verifyAccess arg numIndices kind = true) :
    decls'.verifyAccess arg numIndices kind = true := by
  obtain ⟨more, same⟩ := args
  simp only [Decls.verifyAccess] at verified ⊢
  split at verified
  next decl known =>
    have bound : arg < decls.args.length := (List.getElem?_eq_some_iff.mp known).1
    rw [← same, List.getElem?_append_left bound, known]
    exact verified
  next => cases verified

theorem Expr.verify_extends {decls decls' : Decls} {scope scope' : List LoopId}
    (args : decls.args <+: decls'.args) (vars : decls.vars <+: decls'.vars)
    (loops : scope ⊆ scope') {e : Expr F} (verified : e.verify decls scope = true) :
    e.verify decls' scope' = true := by
  induction e using Expr.inductTree with
  | index loop type =>
    simp only [Expr.verify, Bool.and_eq_true, decide_eq_true_eq] at verified ⊢
    exact ⟨verified.1, loops verified.2⟩
  | const | constFP | constString => rfl
  | binary kind lhs rhs ihL ihR =>
    simp only [Expr.verify, Bool.and_eq_true] at verified ⊢
    exact ⟨⟨verified.1.1, ihL verified.1.2⟩, ihR verified.2⟩
  | unary kind val ih => exact ih verified
  | broadcast val vf ih =>
    simp only [Expr.verify, Bool.and_eq_true] at verified ⊢
    exact ⟨ih verified.1, verified.2⟩
  | gep arg indices ih | load arg indices type ih =>
    simp only [Expr.verify, Expr.verifyIndices_eq, Bool.and_eq_true, List.all_eq_true] at verified ⊢
    exact ⟨fun e mem => ⟨ih e mem (verified.1 e mem).1, (verified.1 e mem).2⟩,
      Decls.verifyAccess_extends args verified.2⟩
  | loadLocal var type => exact Decls.verifyLocal_extends vars verified

theorem Stmt.verify_extends {decls decls' : Decls} (args : decls.args <+: decls'.args)
    (vars : decls.vars <+: decls'.vars) {s : Stmt F} :
    ∀ {scope scope' : List LoopId}, scope ⊆ scope' → s.verify decls scope = true →
      s.verify decls' scope' = true := by
  induction s using Stmt.inductTree with
  | loop header body ih =>
    intro scope scope' loops verified
    simp only [Stmt.verify, Bool.and_eq_true, Stmt.verifyBody_eq, List.all_eq_true] at verified ⊢
    exact ⟨verified.1, fun s mem => ih s mem (List.cons_subset_cons _ loops) (verified.2 s mem)⟩
  | ifRange val start end_ body ih =>
    intro scope scope' loops verified
    simp only [Stmt.verify, Bool.and_eq_true, Stmt.verifyBody_eq, List.all_eq_true] at verified ⊢
    exact ⟨⟨verified.1.1, Expr.verify_extends args vars loops verified.1.2⟩,
      fun s mem => ih s mem loops (verified.2 s mem)⟩
  | call name params =>
    intro scope scope' loops verified
    simp only [Stmt.verify, List.all_eq_true, Bool.and_eq_true] at verified ⊢
    exact fun e mem => ⟨Expr.verify_extends args vars loops (verified e mem).1,
      (verified e mem).2⟩
  | store arg indices value accumulate =>
    intro scope scope' loops verified
    simp only [Stmt.verify, Bool.and_eq_true, Expr.verifyIndices_eq, List.all_eq_true] at verified ⊢
    exact ⟨⟨fun e mem => ⟨Expr.verify_extends args vars loops (verified.1.1 e mem).1,
      (verified.1.1 e mem).2⟩, Decls.verifyAccess_extends args verified.1.2⟩,
      Expr.verify_extends args vars loops verified.2⟩
  | storeLocal var value accumulate =>
    intro scope scope' loops verified
    simp only [Stmt.verify, Bool.and_eq_true] at verified ⊢
    exact ⟨Decls.verifyLocal_extends vars verified.1,
      Expr.verify_extends args vars loops verified.2⟩

/-! ## Rewriting verified trees -/

/-- An expression stays verified when its indices are replaced with verified expressions of
their types. -/
theorem Expr.verify_mapIndex {decls : Decls} {scope scope' : List LoopId}
    {f : LoopId → ExprType → Expr F} {e : Expr F}
    (same : ∀ index ∈ e.collectIndices, index.1 ∈ scope → index.2.isIndexTy = true →
      (f index.1 index.2).verify decls scope' = true ∧ (f index.1 index.2).getType = index.2)
    (verified : e.verify decls scope = true) : (e.mapIndex f).verify decls scope' = true := by
  -- The type of a node comes from those of its operands, which are replaced with expressions of
  -- their types.
  have type : ∀ {e : Expr F}, e.verify decls scope = true →
      (∀ index ∈ e.collectIndices, index.1 ∈ scope → index.2.isIndexTy = true →
        (f index.1 index.2).verify decls scope' = true ∧ (f index.1 index.2).getType = index.2) →
      (e.mapIndex f).getType = e.getType := fun verified same =>
    Expr.getType_mapIndex fun index mem =>
      (same index mem (Expr.scoped_of_verify verified index mem).1
        (Expr.scoped_of_verify verified index mem).2).2
  induction e using Expr.inductTree with
  | index loop indexType =>
    simp only [Expr.verify, Bool.and_eq_true, decide_eq_true_eq] at verified
    exact (same (loop, indexType) (by simp [Expr.collectIndices]) verified.2 verified.1).1
  | const | constFP | constString => rfl
  | loadLocal => exact verified
  | binary kind lhs rhs ihL ihR =>
    simp only [Expr.verify, Bool.and_eq_true, decide_eq_true_eq] at verified
    simp only [Expr.collectIndices, List.mem_append] at same
    obtain ⟨⟨types, left⟩, right⟩ := verified
    have sameL := fun index mem => same index (.inl mem)
    have sameR := fun index mem => same index (.inr mem)
    simp only [Expr.mapIndex, Expr.verify, Bool.and_eq_true, decide_eq_true_eq]
    exact ⟨⟨by rw [type left sameL, type right sameR, types], ihL sameL left⟩, ihR sameR right⟩
  | unary kind val ih => exact ih same verified
  | broadcast val vf ih =>
    simp only [Expr.verify, Bool.and_eq_true] at verified
    simp only [Expr.mapIndex, Expr.verify, Bool.and_eq_true]
    exact ⟨ih same verified.1, by rw [type verified.1 same]; exact verified.2⟩
  | gep arg indices ih | load arg indices loadType ih =>
    simp only [Expr.collectIndices, Expr.collectIndicesList_eq, List.mem_flatMap] at same
    simp only [Expr.verify, Bool.and_eq_true, Expr.verifyIndices_eq, List.all_eq_true] at verified
    simp only [Expr.mapIndex, Expr.verify, Bool.and_eq_true, Expr.verifyIndices_eq,
      Expr.mapIndexList_eq, List.all_map, List.all_eq_true, List.length_map, Function.comp]
    refine ⟨fun e mem => ?_, verified.2⟩
    have sameE := fun index memIndex => same index ⟨e, mem, memIndex⟩
    exact ⟨ih e mem sameE (verified.1 e mem).1, by
      rw [type (verified.1 e mem).1 sameE]; exact (verified.1 e mem).2⟩

/-- A statement stays verified when its expressions are replaced with verified expressions of
their types.  `moved` relates the loops around a node before and after. -/
theorem Stmt.verify_mapExprs {decls : Decls} {f : Expr F → Expr F}
    (moved : List LoopId → List LoopId → Prop)
    {s : Stmt F} (enter : ∀ loop ∈ s.collectLoops, ∀ scope scope', moved scope scope' →
      moved (loop.1.id :: scope) (loop.1.id :: scope'))
    (same : ∀ e ∈ s.collectRoots, ∀ scope scope', moved scope scope' →
      e.verify decls scope = true → (f e).verify decls scope' = true ∧ (f e).getType = e.getType) :
    ∀ {scope scope'}, moved scope scope' → s.verify decls scope = true →
      (s.mapExprs f).verify decls scope' = true := by
  induction s using Stmt.inductTree with
  | loop header body ih =>
    intro scope scope' move verified
    simp only [Stmt.collectLoops_loop, List.mem_cons, List.mem_flatMap] at enter
    simp only [Stmt.collectRoots_loop, List.mem_flatMap] at same
    simp only [Stmt.verify, Bool.and_eq_true, Stmt.verifyBody_eq, List.all_eq_true] at verified
    simp only [Stmt.mapExprs, Stmt.verify, Bool.and_eq_true, Stmt.verifyBody_eq,
      Stmt.mapExprsBody_eq, List.all_map, List.all_eq_true, Function.comp]
    exact ⟨verified.1, fun s mem => ih s mem
      (fun loop memLoop => enter loop (.inr ⟨s, mem, memLoop⟩))
      (fun e memRoot => same e ⟨s, mem, memRoot⟩)
      (enter (header, body) (.inl rfl) _ _ move) (verified.2 s mem)⟩
  | ifRange val start end_ body ih =>
    intro scope scope' move verified
    simp only [Stmt.collectLoops_ifRange, List.mem_flatMap] at enter
    simp only [Stmt.collectRoots_ifRange, List.mem_cons, List.mem_flatMap] at same
    simp only [Stmt.verify, Bool.and_eq_true, Stmt.verifyBody_eq, List.all_eq_true] at verified
    simp only [Stmt.mapExprs, Stmt.verify, Bool.and_eq_true, Stmt.verifyBody_eq,
      Stmt.mapExprsBody_eq, List.all_map, List.all_eq_true, Function.comp]
    exact ⟨⟨verified.1.1, (same val (.inl rfl) _ _ move verified.1.2).1⟩, fun s mem => ih s mem
      (fun loop memLoop => enter loop ⟨s, mem, memLoop⟩)
      (fun e memRoot => same e (.inr ⟨s, mem, memRoot⟩)) move (verified.2 s mem)⟩
  | call name params =>
    intro scope scope' move verified
    simp only [Stmt.collectRoots_call] at same
    simp only [Stmt.verify, List.all_eq_true, Bool.and_eq_true] at verified
    simp only [Stmt.mapExprs, Stmt.verify, List.all_map, List.all_eq_true, Bool.and_eq_true,
      Function.comp]
    intro e mem
    obtain ⟨kept, type⟩ := same e mem _ _ move (verified e mem).1
    exact ⟨kept, by rw [type]; exact (verified e mem).2⟩
  | store arg indices value accumulate =>
    intro scope scope' move verified
    simp only [Stmt.collectRoots_store, List.mem_append, List.mem_singleton] at same
    simp only [Stmt.verify, Bool.and_eq_true, Expr.verifyIndices_eq, List.all_eq_true] at verified
    simp only [Stmt.mapExprs, Stmt.verify, Bool.and_eq_true, Expr.verifyIndices_eq, List.all_map,
      List.all_eq_true, List.length_map, Function.comp]
    obtain ⟨kept, type⟩ := same value (.inr rfl) _ _ move verified.2
    -- The element type of the value stays, and so does what the store compares with it.
    refine ⟨⟨fun e mem => ?_, by rw [type]; exact verified.1.2⟩, kept⟩
    obtain ⟨keptE, typeE⟩ := same e (.inl mem) _ _ move (verified.1.1 e mem).1
    exact ⟨keptE, by rw [typeE]; exact (verified.1.1 e mem).2⟩
  | storeLocal var value accumulate =>
    intro scope scope' move verified
    simp only [Stmt.collectRoots_storeLocal, List.mem_singleton] at same
    simp only [Stmt.verify, Bool.and_eq_true] at verified
    simp only [Stmt.mapExprs, Stmt.verify, Bool.and_eq_true]
    obtain ⟨kept, type⟩ := same value rfl _ _ move verified.2
    exact ⟨by rw [type]; exact verified.1, kept⟩

/-! ## Identities -/

@[simp] theorem Stmt.loopIds_nil : Stmt.loopIds ([] : List (Stmt F)) = [] := rfl

@[simp] theorem Stmt.loopIds_cons (s : Stmt F) (rest : List (Stmt F)) :
    Stmt.loopIds (s :: rest) = s.collectLoops.map (·.1.id) ++ Stmt.loopIds rest := by
  simp [Stmt.loopIds, Stmt.collectLoopsBody]

@[simp] theorem Stmt.loopIds_append (body rest : List (Stmt F)) :
    Stmt.loopIds (body ++ rest) = Stmt.loopIds body ++ Stmt.loopIds rest := by
  simp [Stmt.loopIds, Stmt.collectLoopsBody]

theorem Stmt.ids_loop (header : Loop) (body : List (Stmt F)) :
    (Stmt.loop header body).collectLoops.map (·.1.id) = header.id :: Stmt.loopIds body := by
  simp [Stmt.loopIds, Stmt.collectLoopsBody]

theorem Stmt.ids_ifRange (val : Expr F) (start end_ : Int32) (body : List (Stmt F)) :
    (Stmt.ifRange val start end_ body).collectLoops.map (·.1.id) = Stmt.loopIds body := by
  simp [Stmt.loopIds, Stmt.collectLoopsBody]

theorem Stmt.loopIds_loop (header : Loop) (body : List (Stmt F)) :
    Stmt.loopIds [.loop header body] = header.id :: Stmt.loopIds body := by
  simp [Stmt.loopIds, Stmt.collectLoopsBody]

theorem Stmt.loopIds_ifRange (val : Expr F) (start end_ : Int32) (body : List (Stmt F)) :
    Stmt.loopIds [.ifRange val start end_ body] = Stmt.loopIds body := by
  simp [Stmt.loopIds, Stmt.collectLoopsBody]

theorem Stmt.substLoopBody_of_not_mem {L : LoopId} {f : Loop → List (Stmt F) → List (Stmt F)}
    {body : List (Stmt F)} (absent : L ∉ Stmt.loopIds body) :
    body.flatMap (Stmt.substLoop L f) = body := by
  have each : ∀ s ∈ body, s.substLoop L f = [s] := by
    intro s mem
    apply Stmt.substLoop_of_not_mem
    intro loop memLoop same
    exact absent (same ▸ List.mem_map_of_mem (List.mem_flatMap.mpr ⟨s, mem, memLoop⟩))
  rw [List.flatMap_congr each]
  exact List.flatMap_singleton' body

/-- The identities of the loop that is replaced make place for those of the new statements. -/
theorem Stmt.loopIds_substLoopBody {L : LoopId} {f : Loop → List (Stmt F) → List (Stmt F)}
    {header : Loop} {inner : List (Stmt F)} {body : List (Stmt F)}
    (each : ∀ s ∈ body, (header, inner) ∈ s.collectLoops →
      ∃ before after, s.collectLoops.map (·.1.id) =
          before ++ (L :: Stmt.loopIds inner) ++ after ∧
        Stmt.loopIds (s.substLoop L f) = before ++ Stmt.loopIds (f header inner) ++ after)
    (nodup : (Stmt.loopIds body).Nodup) (mem : (header, inner) ∈ Stmt.collectLoopsBody body) :
    ∃ before after, Stmt.loopIds body = before ++ (L :: Stmt.loopIds inner) ++ after ∧
      Stmt.loopIds (body.flatMap (Stmt.substLoop L f)) =
        before ++ Stmt.loopIds (f header inner) ++ after := by
  obtain ⟨s, memBody, memLoop⟩ := List.mem_flatMap.mp mem
  obtain ⟨before, after, ids, new⟩ := each s memBody memLoop
  obtain ⟨front, back, rfl⟩ := List.append_of_mem memBody
  simp only [Stmt.loopIds_append, Stmt.loopIds_cons, ids] at nodup
  -- The loop occurs once, so the other statements of the body stay.
  have absentFront : L ∉ Stmt.loopIds front := by
    intro clash
    exact (List.nodup_append.mp nodup).2.2 L clash L (by simp) rfl
  have absentBack : L ∉ Stmt.loopIds back := by
    intro clash
    have rest := (List.nodup_append.mp nodup).2.1
    exact (List.nodup_append.mp rest).2.2 L (by simp) L clash rfl
  refine ⟨Stmt.loopIds front ++ before, after ++ Stmt.loopIds back, ?_, ?_⟩
  · simp [ids]
  · rw [List.flatMap_append, List.flatMap_cons, Stmt.substLoopBody_of_not_mem absentFront,
      Stmt.substLoopBody_of_not_mem absentBack]
    simp [new]

theorem Stmt.loopIds_substLoop {L : LoopId} {f : Loop → List (Stmt F) → List (Stmt F)}
    {header : Loop} {inner : List (Stmt F)} (hit : header.id = L) {s : Stmt F}
    (nodup : (s.collectLoops.map (·.1.id)).Nodup) (mem : (header, inner) ∈ s.collectLoops) :
    ∃ before after, s.collectLoops.map (·.1.id) = before ++ (L :: Stmt.loopIds inner) ++ after ∧
      Stmt.loopIds (s.substLoop L f) = before ++ Stmt.loopIds (f header inner) ++ after := by
  have inBody : ∀ {body : List (Stmt F)} {s}, (Stmt.loopIds body).Nodup → s ∈ body →
      (s.collectLoops.map (·.1.id)).Nodup := by
    intro body s nodup mem
    obtain ⟨front, back, rfl⟩ := List.append_of_mem mem
    simp only [Stmt.loopIds_append, Stmt.loopIds_cons] at nodup
    exact (List.nodup_append.mp (List.nodup_append.mp nodup).2.1).1
  induction s using Stmt.inductTree with
  | loop head body ih =>
    rw [Stmt.ids_loop] at nodup ⊢
    obtain ⟨outside, nodup⟩ := List.nodup_cons.mp nodup
    rw [Stmt.collectLoops_loop] at mem
    rw [Stmt.substLoop]
    cases List.mem_cons.mp mem with
    | inl same =>
      cases same
      rw [if_pos hit]
      exact ⟨[], [], by simp [hit], by simp⟩
    | inr below =>
      -- The loop that is replaced is below, and ids are different, so this loop is not the one.
      have miss : head.id ≠ L := by
        intro same
        apply outside
        rw [same, ← hit]
        exact List.mem_map_of_mem (f := fun loop : Loop × List (Stmt F) => loop.1.id) below
      obtain ⟨before, after, ids, new⟩ := Stmt.loopIds_substLoopBody
        (fun s memS memLoop => ih s memS (inBody nodup memS) memLoop) nodup below
      refine ⟨head.id :: before, after, by rw [ids]; rfl, ?_⟩
      rw [if_neg miss, Stmt.loopIds_cons, Stmt.ids_loop, Stmt.substLoopBody_eq, new]
      simp
  | ifRange val start end_ body ih =>
    rw [Stmt.ids_ifRange] at nodup ⊢
    rw [Stmt.collectLoops_ifRange] at mem
    obtain ⟨before, after, ids, new⟩ := Stmt.loopIds_substLoopBody
      (fun s memS memLoop => ih s memS (inBody nodup memS) memLoop) nodup mem
    refine ⟨before, after, ids, ?_⟩
    rw [Stmt.substLoop, Stmt.loopIds_cons, Stmt.ids_ifRange, Stmt.substLoopBody_eq, new]
    simp
  | call | store | storeLocal => cases mem

/-! ## Replacing a loop -/

theorem Stmt.verify_substLoop {decls : Decls} {L : LoopId}
    {f : Loop → List (Stmt F) → List (Stmt F)} {s : Stmt F}
    (kept : ∀ loop ∈ s.collectLoops, loop.1.id = L → ∀ scope,
      (Stmt.loop loop.1 loop.2).verify decls scope = true →
        Stmt.verifyBody decls scope (f loop.1 loop.2) = true) :
    ∀ {scope}, s.verify decls scope = true →
      Stmt.verifyBody decls scope (s.substLoop L f) = true := by
  induction s using Stmt.inductTree with
  | loop header body ih =>
    intro scope verified
    simp only [Stmt.collectLoops_loop, List.mem_cons, List.mem_flatMap] at kept
    rw [Stmt.substLoop]
    split
    next hit => exact kept (header, body) (.inl rfl) hit scope verified
    next miss =>
      simp only [Stmt.verify, Stmt.verifyBody_eq, Bool.and_eq_true, List.all_eq_true] at verified
      simp only [Stmt.substLoopBody_eq, Stmt.verifyBody_eq, List.all_cons, List.all_nil,
        Bool.and_true, Stmt.verify, Bool.and_eq_true, List.all_flatMap, List.all_eq_true]
      refine ⟨verified.1, fun s mem => ?_⟩
      have inner := ih s mem (fun loop memLoop => kept loop (.inr ⟨s, mem, memLoop⟩))
        (verified.2 s mem)
      rwa [Stmt.verifyBody_eq, List.all_eq_true] at inner
  | ifRange val start end_ body ih =>
    intro scope verified
    simp only [Stmt.collectLoops_ifRange, List.mem_flatMap] at kept
    simp only [Stmt.verify, Stmt.verifyBody_eq, Bool.and_eq_true, List.all_eq_true] at verified
    simp only [Stmt.substLoop, Stmt.substLoopBody_eq, Stmt.verifyBody_eq, List.all_cons,
      List.all_nil, Bool.and_true, Stmt.verify, Bool.and_eq_true, List.all_flatMap,
      List.all_eq_true]
    refine ⟨verified.1, fun s mem => ?_⟩
    have inner := ih s mem (fun loop memLoop => kept loop ⟨s, mem, memLoop⟩) (verified.2 s mem)
    rwa [Stmt.verifyBody_eq, List.all_eq_true] at inner
  | call | store | storeLocal =>
    intro scope verified
    simpa [Stmt.substLoop] using verified

/-- A loop of a verified program may be replaced with statements that are verified where the
loop was, as long as they bring no loop that the rest of the program has. -/
theorem Program.verify_substLoop {p : Program F} {L : LoopId}
    {f : Loop → List (Stmt F) → List (Stmt F)} {header : Loop} {body : List (Stmt F)}
    (verified : p.verify = true) (found : p.findLoop L = some (header, body))
    (kept : ∀ scope, (Stmt.loop header body).verify p.decls scope = true →
      Stmt.verifyBody p.decls scope (f header body) = true)
    (nodup : (Stmt.loopIds (f header body)).Nodup)
    (known : ∀ id ∈ Stmt.loopIds (f header body), id ∈ Stmt.loopIds p.body →
      id ∈ header.id :: Stmt.loopIds body) : (p.substLoop L f).verify = true := by
  obtain ⟨mem, hit⟩ := Program.findLoop_mem found
  have nodupIds := Program.nodup_loopIds verified
  have bodies := Program.verify_body verified
  simp only [Program.verify, Bool.and_eq_true, decide_eq_true_eq] at verified ⊢
  refine ⟨⟨verified.1.1, ?_⟩, ?_⟩
  -- The statements are verified in their loops, and the ids are different.
  · rw [Program.substLoop, Stmt.substLoopBody_eq, Stmt.verifyBody_eq, List.all_flatMap,
      List.all_eq_true]
    intro s memBody
    have inner : Stmt.verifyBody p.decls [] (s.substLoop L f) = true := by
      refine Stmt.verify_substLoop (fun loop memLoop same => ?_) (bodies s memBody)
      have whole : loop ∈ p.collectLoops := List.mem_flatMap.mpr ⟨s, memBody, memLoop⟩
      cases List.inj_on_of_nodup_map nodupIds whole mem (same.trans hit.symm)
      exact kept
    rwa [Stmt.verifyBody_eq] at inner
  · obtain ⟨before, after, ids, new⟩ := Stmt.loopIds_substLoopBody (f := f)
      (fun s memS memLoop => Stmt.loopIds_substLoop hit
        (nodupIds.sublist ((List.sublist_flatten_of_mem (List.mem_map_of_mem memS)).map _)) memLoop)
      nodupIds mem
    rw [Program.substLoop, Stmt.substLoopBody_eq, new]
    rw [← hit] at ids
    rw [ids] at nodupIds known
    simp only [List.nodup_append, List.mem_append] at nodupIds known ⊢
    obtain ⟨⟨nodupBefore, -, apartBefore⟩, nodupAfter, apartAfter⟩ := nodupIds
    refine ⟨⟨nodupBefore, nodup, ?_⟩, nodupAfter, ?_⟩
    · intro a memA b memB same
      subst same
      exact apartBefore a memA a (known a memB (.inl (.inl memA))) rfl
    · intro a memA b memB same
      subst same
      -- The new ids are those of the old loop, or ids that no loop of the program has.
      cases memA with
      | inl memA => exact apartAfter a (.inl memA) a memB rfl
      | inr memA => exact apartAfter a (.inr (known a memA (.inr memB))) a memB rfl

/-- The statements that replace a loop do not bring it back. -/
theorem Program.not_mem_loopIds_substLoop {p : Program F} {L : LoopId}
    {f : Loop → List (Stmt F) → List (Stmt F)} {header : Loop} {body : List (Stmt F)}
    (verified : p.verify = true) (found : p.findLoop L = some (header, body))
    (gone : L ∉ Stmt.loopIds (f header body)) : L ∉ Stmt.loopIds (p.substLoop L f).body := by
  obtain ⟨mem, hit⟩ := Program.findLoop_mem found
  have nodup := Program.nodup_loopIds verified
  obtain ⟨before, after, ids, new⟩ := Stmt.loopIds_substLoopBody (f := f)
    (fun s memS memLoop => Stmt.loopIds_substLoop hit
      (nodup.sublist ((List.sublist_flatten_of_mem (List.mem_map_of_mem memS)).map _)) memLoop)
    nodup mem
  rw [Program.substLoop, Stmt.substLoopBody_eq, new]
  rw [ids] at nodup
  have rest := List.nodup_middle.mp (by simpa only [List.append_assoc, List.cons_append] using nodup)
  have outside := (List.nodup_cons.mp rest).1
  simp only [List.mem_append, not_or] at outside ⊢
  exact ⟨⟨outside.1, gone⟩, outside.2.2⟩

/-! ## Replacing an index -/

theorem Stmt.verify_replaceIndex {decls : Decls} {L : LoopId} {replacement : Expr F}
    {scope scope' : List LoopId} (type : replacement.getType = .scalar .indexTy)
    (known : ∀ inner, scope' ⊆ inner → replacement.verify decls inner = true)
    (moved : ∀ K ∈ scope, K ≠ L → K ∈ scope') {s : Stmt F}
    (scalar : ∀ e ∈ s.collectRoots, e.ScalarIndex L) (verified : s.verify decls scope = true) :
    (s.mapExprs (Expr.replaceIndex L replacement)).verify decls scope' = true := by
  refine Stmt.verify_mapExprs (fun scope inner => scope' ⊆ inner ∧ ∀ K ∈ scope, K ≠ L → K ∈ inner)
    ?_ ?_ ⟨List.Subset.refl _, moved⟩ verified
  · intro loop _ scope inner move
    refine ⟨fun K mem => List.mem_cons_of_mem _ (move.1 mem), fun K memK apart => ?_⟩
    cases List.mem_cons.mp memK with
    | inl here => exact here ▸ List.mem_cons_self
    | inr there => exact List.mem_cons_of_mem _ (move.2 K there apart)
  · intro e memRoot scope inner move verifiedE
    have replaced : ∀ index ∈ e.collectIndices, index.1 ∈ scope → index.2.isIndexTy = true →
        (if index.1 = L then replacement else .index index.1 index.2).verify decls inner = true ∧
          (if index.1 = L then replacement else .index index.1 index.2).getType = index.2 := by
      intro index memIndex inside isIndex
      split
      next hit =>
        exact ⟨known inner move.1, type.trans (scalar e memRoot index memIndex hit).symm⟩
      next miss =>
        simp only [Expr.verify, Bool.and_eq_true, decide_eq_true_eq]
        exact ⟨⟨isIndex, move.2 _ inside miss⟩, rfl⟩
    refine ⟨Expr.verify_mapIndex replaced verifiedE, Expr.getType_mapIndex fun index memIndex => ?_⟩
    obtain ⟨inside, isIndex⟩ := Expr.scoped_of_verify verifiedE index memIndex
    exact (replaced index memIndex inside isIndex).2

/-! ## Clones -/

theorem Expr.verify_clone {decls : Decls} {ctx : LoopId → LoopId} {scope scope' : List LoopId}
    {e : Expr F} (scalar : ∀ index ∈ e.collectIndices, index.2 = .scalar .indexTy)
    (moved : ∀ L ∈ scope, ctx L ∈ scope') (verified : e.verify decls scope = true) :
    (e.clone ctx).verify decls scope' = true ∧ (e.clone ctx).getType = e.getType := by
  constructor
  · apply Expr.verify_mapIndex _ verified
    intro index mem around _
    refine ⟨?_, (scalar index mem).symm⟩
    simp [Expr.indexOf, Expr.verify, ExprType.isIndexTy, moved index.1 around]
  · exact Expr.getType_mapIndex fun index mem => (scalar index mem).symm

/-- Clones of statements with scalar indices are verified, in the loops that the clone context
gives for the loops around them. -/
theorem Stmt.verify_clone {decls : Decls} {base : LoopId} {s : Stmt F} :
    ∀ {ctx : LoopId → LoopId} {scope scope' : List LoopId},
      (∀ e ∈ s.collectRoots, ∀ index ∈ e.collectIndices, index.2 = .scalar .indexTy) →
      (∀ L ∈ scope, ctx L ∈ scope') → s.verify decls scope = true →
      (s.clone base ctx).verify decls scope' = true := by
  induction s using Stmt.inductTree with
  | loop header body ih =>
    intro ctx scope scope' scalar moved verified
    simp only [Stmt.collectRoots_loop, List.mem_flatMap] at scalar
    simp only [Stmt.verify, Stmt.verifyBody_eq, Bool.and_eq_true, List.all_eq_true] at verified
    simp only [Stmt.clone, Stmt.cloneBody_eq, Stmt.verify, Stmt.verifyBody_eq, Bool.and_eq_true,
      List.all_map, List.all_eq_true]
    refine ⟨verified.1, fun s mem => ih s mem (fun e memRoot => scalar e ⟨s, mem, memRoot⟩) ?_
      (verified.2 s mem)⟩
    intro L memL
    -- In the body the context maps the loop to its clone, which is around the clone of the body.
    by_cases same : L = header.id
    · simp [same]
    · rw [Function.update_of_ne same]
      exact List.mem_cons_of_mem _ (moved L (List.mem_of_ne_of_mem same memL))
  | ifRange val start end_ body ih =>
    intro ctx scope scope' scalar moved verified
    simp only [Stmt.collectRoots_ifRange, List.mem_cons, List.mem_flatMap] at scalar
    simp only [Stmt.verify, Stmt.verifyBody_eq, Bool.and_eq_true, List.all_eq_true] at verified
    simp only [Stmt.clone, Stmt.cloneBody_eq, Stmt.verify, Stmt.verifyBody_eq, Bool.and_eq_true,
      List.all_map, List.all_eq_true]
    refine ⟨⟨verified.1.1, ?_⟩, fun s mem => ?_⟩
    · exact (Expr.verify_clone (scalar val (.inl rfl)) moved verified.1.2).1
    · exact ih s mem (fun e memRoot => scalar e (.inr ⟨s, mem, memRoot⟩)) moved (verified.2 s mem)
  | call name params | store arg indices value accumulate | storeLocal var value accumulate =>
    intro ctx scope scope' scalar moved verified
    rw [Stmt.clone_leaf rfl]
    refine Stmt.verify_mapExprs (fun scope scope' => ∀ L ∈ scope, ctx L ∈ scope') ?_ ?_ moved
      verified
    · intro loop none
      cases none
    · intro e memRoot scope scope' moved
      exact Expr.verify_clone (scalar e memRoot) moved

end Bistra
