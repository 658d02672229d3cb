import Bistra.Bytecode.StmtRoundTrip
import Bistra.Program.Preservation

/-! # Pointers to statements

No two statements of a verified program have the same pointer, and every loop that an index refers
to is among the statements that are written.
-/

namespace Bistra

/-- A pointer to a statement at one of `n` positions, or to one of the loops. -/
def StmtRef.Within (pos n : Nat) (loops : List LoopId) : StmtRef → Prop
  | .program => False
  | .loop id => id ∈ loops
  | .other i => pos ≤ i ∧ i < pos + n

theorem StmtRef.Within.mono {pos n pos' n' : Nat} {loops loops' : List LoopId} {ref : StmtRef}
    (within : ref.Within pos n loops) (from_ : pos' ≤ pos) (below : pos + n ≤ pos' + n')
    (sub : loops ⊆ loops') : ref.Within pos' n' loops' := by
  cases ref with
  | program => exact within
  | loop id => exact sub within
  | other i => exact ⟨from_.trans within.1, within.2.trans_le below⟩

theorem StmtRef.Within.ne {pos n pos' n' : Nat} {loops loops' : List LoopId} {ref ref' : StmtRef}
    (within : ref.Within pos n loops) (within' : ref'.Within pos' n' loops')
    (after : pos + n ≤ pos') (apart : ∀ id ∈ loops, id ∉ loops') : ref ≠ ref' := by
  rintro rfl
  cases ref with
  | program => exact within
  | loop id => exact apart id within within'
  | other i =>
    obtain ⟨-, below⟩ := within
    obtain ⟨from_, -⟩ := within'
    omega

theorem Stmt.length_collectStmtsBody_cons {F : Type} (s : Stmt F) (rest : List (Stmt F)) :
    (Stmt.collectStmtsBody (s :: rest)).length =
      s.collectStmts.length + (Stmt.collectStmtsBody rest).length := by
  rw [Stmt.collectStmtsBody, List.length_append]

mutual

theorem Stmt.within_items : ∀ (s : Stmt UInt32) (base pos : Nat) (parent : StmtRef),
    ∀ item ∈ s.items base pos parent,
      item.stmt.Within pos s.collectStmts.length (s.collectLoops.map (·.1.id))
  | .loop header body, base, pos, parent => by
    rw [Stmt.items, List.forall_mem_cons, Stmt.ids_loop, Stmt.collectStmts, List.length_cons]
    refine ⟨List.mem_cons_self, fun item mem => ?_⟩
    apply (Stmt.within_itemsBody body _ _ _ item mem).mono (Nat.le_succ pos) (by omega)
    exact List.subset_cons_self _ _
  | .ifRange val start end_ body, base, pos, parent => by
    rw [Stmt.items, List.forall_mem_cons, Stmt.ids_ifRange, Stmt.collectStmts, List.length_cons]
    refine ⟨⟨Nat.le_refl _, by omega⟩, fun item mem => ?_⟩
    apply (Stmt.within_itemsBody body _ _ _ item mem).mono (Nat.le_succ pos) (by omega)
    exact List.Subset.refl _
  | .call _ _, base, pos, parent | .store _ _ _ _, base, pos, parent
  | .storeLocal _ _ _, base, pos, parent => by
    rw [Stmt.items, List.forall_mem_singleton]
    exact ⟨Nat.le_refl _, Nat.lt_succ_self _⟩

theorem Stmt.within_itemsBody : ∀ (body : List (Stmt UInt32)) (base pos : Nat) (parent : StmtRef),
    ∀ item ∈ Stmt.itemsBody base pos parent body,
      item.stmt.Within pos (Stmt.collectStmtsBody body).length (Stmt.loopIds body)
  | [], _, _, _ => by simp [Stmt.itemsBody]
  | s :: rest, base, pos, parent => by
    rw [Stmt.itemsBody, List.forall_mem_append, Stmt.loopIds_cons,
      Stmt.length_collectStmtsBody_cons]
    constructor
    · intro item mem
      apply (Stmt.within_items s _ _ _ item mem).mono (Nat.le_refl _) (by omega)
      exact List.subset_append_left _ _
    · intro item mem
      apply (Stmt.within_itemsBody rest _ _ _ item mem).mono (by omega) (by omega)
      exact List.subset_append_right _ _

end

mutual

theorem Stmt.nodup_items : ∀ (s : Stmt UInt32) (base pos : Nat) (parent : StmtRef),
    (s.collectLoops.map (·.1.id)).Nodup → ((s.items base pos parent).map (·.stmt)).Nodup
  | .loop header body, base, pos, parent, nodup => by
    rw [Stmt.ids_loop, List.nodup_cons] at nodup
    rw [Stmt.items, List.map_cons, List.nodup_cons]
    refine ⟨fun mem => ?_, Stmt.nodup_itemsBody body _ _ _ nodup.2⟩
    obtain ⟨item, memItem, same⟩ := List.mem_map.mp mem
    have within := Stmt.within_itemsBody body _ _ _ item memItem
    rw [show item.stmt = .loop header.id from same] at within
    exact nodup.1 within
  | .ifRange val start end_ body, base, pos, parent, nodup => by
    rw [Stmt.ids_ifRange] at nodup
    rw [Stmt.items, List.map_cons, List.nodup_cons]
    refine ⟨fun mem => ?_, Stmt.nodup_itemsBody body _ _ _ nodup⟩
    obtain ⟨item, memItem, same⟩ := List.mem_map.mp mem
    have within := Stmt.within_itemsBody body _ _ _ item memItem
    rw [show item.stmt = .other pos from same] at within
    exact absurd within.1 (Nat.not_succ_le_self pos)
  | .call _ _, _, _, _, _ | .store _ _ _ _, _, _, _, _ | .storeLocal _ _ _, _, _, _, _ =>
    List.nodup_singleton _

theorem Stmt.nodup_itemsBody : ∀ (body : List (Stmt UInt32)) (base pos : Nat) (parent : StmtRef),
    (Stmt.loopIds body).Nodup → ((Stmt.itemsBody base pos parent body).map (·.stmt)).Nodup
  | [], _, _, _, _ => List.nodup_nil
  | s :: rest, base, pos, parent, nodup => by
    rw [Stmt.loopIds_cons, List.nodup_append] at nodup
    rw [Stmt.itemsBody, List.map_append, List.nodup_append]
    refine ⟨Stmt.nodup_items s _ _ _ nodup.1, Stmt.nodup_itemsBody rest _ _ _ nodup.2.1, ?_⟩
    intro ref mem ref' mem'
    obtain ⟨item, memItem, rfl⟩ := List.mem_map.mp mem
    obtain ⟨item', memItem', rfl⟩ := List.mem_map.mp mem'
    apply (Stmt.within_items s _ _ _ item memItem).ne
      (Stmt.within_itemsBody rest _ _ _ item' memItem') (Nat.le_refl _)
    exact fun id memL memR => nodup.2.2 id memL id memR rfl

end

mutual

theorem Stmt.loop_mem_items : ∀ (s : Stmt UInt32) (base pos : Nat) (parent : StmtRef),
    ∀ id ∈ s.collectLoops.map (·.1.id), ∃ item ∈ s.items base pos parent,
      item.stmt = .loop id ∧ item.node.isLoop = true
  | .loop header body, base, pos, parent => by
    rw [Stmt.ids_loop, List.forall_mem_cons]
    refine ⟨⟨_, List.mem_cons_self, rfl, rfl⟩, fun id mem => ?_⟩
    obtain ⟨item, memItem, is⟩ := Stmt.loop_mem_itemsBody body base (pos + 1) (.loop header.id) id mem
    exact ⟨item, List.mem_cons_of_mem _ memItem, is⟩
  | .ifRange val start end_ body, base, pos, parent => by
    rw [Stmt.ids_ifRange]
    intro id mem
    obtain ⟨item, memItem, is⟩ :=
      Stmt.loop_mem_itemsBody body (base + (val.numBelow + 1)) (pos + 1) (.other pos) id mem
    exact ⟨item, List.mem_cons_of_mem _ memItem, is⟩
  | .call _ _, _, _, _ | .store _ _ _ _, _, _, _ | .storeLocal _ _ _, _, _, _ => by simp

theorem Stmt.loop_mem_itemsBody : ∀ (body : List (Stmt UInt32)) (base pos : Nat)
    (parent : StmtRef), ∀ id ∈ Stmt.loopIds body,
      ∃ item ∈ Stmt.itemsBody base pos parent body, item.stmt = .loop id ∧ item.node.isLoop = true
  | [], _, _, _ => by simp
  | s :: rest, base, pos, parent => by
    rw [Stmt.loopIds_cons, List.forall_mem_append]
    constructor
    · intro id mem
      obtain ⟨item, memItem, is⟩ := Stmt.loop_mem_items s base pos parent id mem
      exact ⟨item, List.mem_append_left _ memItem, is⟩
    · intro id mem
      obtain ⟨item, memItem, is⟩ := Stmt.loop_mem_itemsBody rest (base + s.exprCount)
        (pos + s.collectStmts.length) parent id mem
      exact ⟨item, List.mem_append_right _ memItem, is⟩

end

/-! ## The statements of a program -/

theorem freeIds_program {T : Tables} (small : T.Small) (zero : T.stmtId .program = 0)
    (has : .program ∈ T.stmtTable) {body : List (Stmt UInt32)} (nodup : (Stmt.loopIds body).Nodup)
    (known : ∀ item ∈ Stmt.itemsBody 0 1 .program body, item.stmt ∈ T.stmtTable) :
    FreeIds T [] (Stmt.itemsBody 0 1 .program body) := by
  show (0 :: (Stmt.itemsBody 0 1 .program body).map fun item => T.stmtId item.stmt).Nodup
  rw [← zero, List.nodup_cons]
  constructor
  · intro mem
    obtain ⟨item, memItem, same⟩ := List.mem_map.mp mem
    have within := Stmt.within_itemsBody body _ _ _ item memItem
    rw [T.stmtId_inj small (known item memItem) has same] at within
    exact within
  · have refs := Stmt.nodup_itemsBody body 0 1 .program nodup
    have ids : (List.map T.stmtId
        ((Stmt.itemsBody 0 1 .program body).map fun item => item.stmt)).Nodup := by
      apply refs.map_on
      intro ref mem ref' mem' same
      obtain ⟨item, memItem, rfl⟩ := List.mem_map.mp mem
      obtain ⟨item', memItem', rfl⟩ := List.mem_map.mp mem'
      exact T.stmtId_inj small (known item memItem) (known item' memItem') same
    rwa [List.map_map] at ids

theorem hasLoop_of_mem_loopIds {T : Tables} {body : List (Stmt UInt32)} {stmts : List StmtEntry}
    (same : stmts.map (fun entry => (entry.id, entry.node.isLoop)) =
      (Stmt.itemsBody 0 1 .program body).map fun item => (T.stmtId item.stmt, item.node.isLoop))
    {id : LoopId} (mem : id ∈ Stmt.loopIds body) :
    hasLoop stmts (T.stmtId (.loop id)) = true := by
  obtain ⟨item, memItem, ref, isLoop⟩ := Stmt.loop_mem_itemsBody body 0 1 .program id mem
  have found := List.mem_map_of_mem (f := fun item => (T.stmtId item.stmt, item.node.isLoop)) memItem
  rw [← same, List.mem_map] at found
  obtain ⟨entry, memEntry, known⟩ := found
  rw [ref, isLoop, Prod.mk.injEq] at known
  rw [hasLoop, List.any_eq_true]
  refine ⟨entry, memEntry, ?_⟩
  rw [known.1, known.2, decide_eq_true rfl]
  rfl

end Bistra
