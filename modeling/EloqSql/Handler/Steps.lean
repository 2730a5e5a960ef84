import EloqSql.Handler
import EloqSql.Lib.Loop

/-!
# Handler/Steps — what one turn of a loop does

The steps of `Insert`, `Update` and `Delete` for one index, with every way they can end. A step that
succeeds writes to its own index only (`TableName.view`), so a loop over the indexes does to each
what its step does (`indexes_step`).
-/

namespace EloqSql

open List
open EStateM (run_bind run_modify)

/-- A table as a transaction sees it: the write set over the committed data. -/
def TableName.view (n : TableName) (tx : TxExecution) (k : Bytes) :
    Option WriteSetEntry × Option EloqRecord :=
  (tx.writeSet (n, k), tx.store (n, k))

theorem live_of_view {n : TableName} {tx tx' : TxExecution} (h : n.view tx = n.view tx')
    (k : Bytes) : tx.live (n, k) = tx'.live (n, k) := by
  have hk := Prod.ext_iff.mp (congrFun h k)
  simp only [TableName.view] at hk
  simp only [TxExecution.live, hk]

theorem view_upsert_of_ne {n m : TableName} (h : n ≠ m) (tx : TxExecution) (k : Bytes)
    (e : WriteSetEntry) : m.view (tx.upsert (n, k) e) = m.view tx := by
  funext k'
  have hne : (m, k') ≠ (n, k) := fun heq => h (Prod.ext_iff.mp heq).1.symm
  simp only [TableName.view, TxExecution.upsert, Function.update_of_ne hne]

/-! ## Requests -/

namespace TxService

variable (svc : TxService) (k : TableName × Bytes)

theorem read_run (s : HandlerState) : (svc.read k).run s =
    match svc.readError k with
    | some err => .ok (.unknown err) { s with txErrCode := some err }
    | none => .ok (if (s.tx.live k).isSome then .normal else .deleted) s := by
  rw [read]
  cases svc.readError k <;> rfl

theorem txUpsert_run (e : WriteSetEntry) (s : HandlerState) : (svc.txUpsert k e).run s =
    match svc.upsertError k e.op with
    | some err => .error .outOfMem { s with txErrCode := some err }
    | none => .ok () { s with tx := s.tx.upsert k e } := by
  rw [txUpsert]
  cases svc.upsertError k e.op <;> rfl

variable {svc k}

theorem txUpsert_ok {e : WriteSetEntry} {s s' : HandlerState}
    (h : (svc.txUpsert k e).run s = .ok () s') : s' = { s with tx := s.tx.upsert k e } := by
  rw [txUpsert_run] at h
  cases he : svc.upsertError k e.op with
  | some err => simp [he] at h
  | none => simpa [he] using h.symm

end TxService

/-! ## `Insert` -/

namespace Handler

variable (h : Handler) (svc : TxService)

section Insert

variable (buf : Record) (hiddenPk : Option Bytes) (ix : IndexRef)

/-- The key that `Insert` writes to an index. -/
def newKey : Bytes := skKey ix.isUniqueSk (h.packSk ix buf hiddenPk)

/-- The entry that `Insert` writes to an index. -/
def newEntry : WriteSetEntry := ⟨.insert, some (skRecord ix.isUniqueSk (h.packSk ix buf hiddenPk))⟩

/-- **The undo removes one entry of each index before.** -/
def reverted (kid : ℕ) (isUniqueSk : Bool) (tx : TxExecution) : TxExecution :=
  (h.secondaryKids kid).foldl
    (fun tx i => tx.revert (.index i, skKey isUniqueSk (h.packSk (h.index i) buf hiddenPk))) tx

theorem revertIndexes_run (kid : ℕ) (isUniqueSk : Bool) (s : HandlerState) :
    (h.revertIndexes buf hiddenPk kid isUniqueSk).run s
      = .ok () { s with tx := h.reverted buf hiddenPk kid isUniqueSk s.tx } := by
  rw [revertIndexes, reverted]
  induction h.secondaryKids kid generalizing s with
  | nil => rfl
  | cons i is ih =>
    rw [Loop.forM_cons_eq, run_modify]
    exact ih _

theorem checkUnique_run (key : Bytes) (s : HandlerState) :
    (h.checkUnique svc buf hiddenPk ix key).run s =
    match svc.readError (ix.name, key) with
    | some err => .error (convertTxError err) { s with txErrCode := some err }
    | none =>
      if (s.tx.live (ix.name, key)).isSome then
        .error .foundDuppKey
          { s with
            tx := h.reverted buf hiddenPk ix.kid ix.isUniqueSk s.tx
            errkey := some ix.kid
            dupErrkey := some ix.kid }
      else .ok () s := by
  rw [checkUnique, run_bind, svc.read_run]
  cases svc.readError (ix.name, key) with
  | some err => rfl
  | none =>
    simp only
    split_ifs
    · simp only [run_bind, revertIndexes_run, run_modify]
      rfl
    · rfl

/-- **A turn of `Insert`**: a unique key that is live is a duplicate. -/
theorem insertIndex_run (s : HandlerState) : (h.insertIndex svc buf hiddenPk ix).run s =
    match if ix.isUniqueSk then svc.readError (ix.name, h.newKey buf hiddenPk ix) else none with
    | some err => .error (convertTxError err) { s with txErrCode := some err }
    | none =>
      if ix.isUniqueSk ∧ (s.tx.live (ix.name, h.newKey buf hiddenPk ix)).isSome then
        .error .foundDuppKey
          { s with
            tx := h.reverted buf hiddenPk ix.kid ix.isUniqueSk s.tx
            errkey := some ix.kid
            dupErrkey := some ix.kid }
      else
        (svc.txUpsert (ix.name, h.newKey buf hiddenPk ix) (h.newEntry buf hiddenPk ix)).run s := by
  have hstep : h.insertIndex svc buf hiddenPk ix = (do
      if ix.isUniqueSk then h.checkUnique svc buf hiddenPk ix (h.newKey buf hiddenPk ix)
      svc.txUpsert (ix.name, h.newKey buf hiddenPk ix) (h.newEntry buf hiddenPk ix)) := rfl
  rw [hstep]
  by_cases hu : ix.isUniqueSk = true
  · rw [if_pos hu, if_pos hu, run_bind, checkUnique_run]
    cases svc.readError (ix.name, h.newKey buf hiddenPk ix) with
    | some err => rfl
    | none =>
      simp only [hu, true_and]
      split_ifs <;> rfl
  · rw [if_neg hu, if_neg hu]
    simp [hu]

variable {h svc buf hiddenPk ix}

theorem insertIndex_ok {s s' : HandlerState}
    (hr : (h.insertIndex svc buf hiddenPk ix).run s = .ok () s') :
    s'.tx = s.tx.upsert (ix.name, h.newKey buf hiddenPk ix) (h.newEntry buf hiddenPk ix) ∧
      (ix.isUniqueSk = true → s.tx.live (ix.name, h.newKey buf hiddenPk ix) = none) := by
  rw [insertIndex_run] at hr
  split at hr
  · exact nomatch hr
  · split_ifs at hr with hd
    obtain rfl := TxService.txUpsert_ok hr
    refine ⟨rfl, fun hu => ?_⟩
    rw [← Option.not_isSome_iff_eq_none]
    exact fun hs => hd ⟨hu, hs⟩

end Insert

/-! ## `Update` and `Delete` -/

section Update

variable (newData oldData : Record) (hiddenPk : Option Bytes) (ix : IndexRef)

theorem checkNewSk_run (key : Bytes) (s : HandlerState) : (checkNewSk svc ix key).run s =
    match svc.readError (ix.name, key) with
    | some err => .error (convertTxError err) { s with txErrCode := some err }
    | none =>
      if (s.tx.live (ix.name, key)).isSome then
        .error .foundDuppKey { s with errkey := some ix.kid, dupErrkey := some ix.kid }
      else .ok () s := by
  rw [checkNewSk, run_bind, svc.read_run]
  cases svc.readError (ix.name, key) with
  | some err => rfl
  | none =>
    simp only
    split_ifs <;> rfl

/-- **A turn of `Update`**: a new unique key that is live is a duplicate, and nothing is undone. -/
theorem updateIndex_run (s : HandlerState) :
    let newSk := h.newKey newData hiddenPk ix
    let oldSk := h.newKey oldData hiddenPk ix
    (h.updateIndex svc newData oldData hiddenPk ix).run s =
    if newSk = oldSk then .ok () s
    else
      match if ix.isUniqueSk then svc.readError (ix.name, newSk) else none with
      | some err => .error (convertTxError err) { s with txErrCode := some err }
      | none =>
        if ix.isUniqueSk ∧ (s.tx.live (ix.name, newSk)).isSome then
          .error .foundDuppKey { s with errkey := some ix.kid, dupErrkey := some ix.kid }
        else
          (do svc.txUpsert (ix.name, newSk) (h.newEntry newData hiddenPk ix)
              svc.txUpsert (ix.name, oldSk) ⟨.delete, none⟩ : HandlerM Unit).run s := by
  intro newSk oldSk
  have hstep : h.updateIndex svc newData oldData hiddenPk ix = (do
      if newSk ≠ oldSk then
        if ix.isUniqueSk then checkNewSk svc ix newSk
        svc.txUpsert (ix.name, newSk) (h.newEntry newData hiddenPk ix)
        svc.txUpsert (ix.name, oldSk) ⟨.delete, none⟩) := rfl
  rw [hstep]
  by_cases heq : newSk = oldSk
  · rw [if_pos heq, if_neg (not_not.mpr heq)]
    rfl
  · rw [if_neg heq, if_pos heq]
    by_cases hu : ix.isUniqueSk = true
    · rw [if_pos hu, if_pos hu, run_bind, checkNewSk_run]
      cases svc.readError (ix.name, newSk) with
      | some err => rfl
      | none =>
        simp only [hu, true_and]
        split_ifs <;> rfl
    · rw [if_neg hu, if_neg hu]
      simp [hu]

variable {h svc newData oldData hiddenPk ix}

theorem updateIndex_ok {s s' : HandlerState}
    (hr : (h.updateIndex svc newData oldData hiddenPk ix).run s = .ok () s') :
    let newSk := h.newKey newData hiddenPk ix
    let oldSk := h.newKey oldData hiddenPk ix
    if newSk = oldSk then s'.tx = s.tx
    else
      s'.tx = (s.tx.upsert (ix.name, newSk) (h.newEntry newData hiddenPk ix)).upsert
        (ix.name, oldSk) ⟨.delete, none⟩ ∧
      (ix.isUniqueSk = true → s.tx.live (ix.name, newSk) = none) := by
  intro newSk oldSk
  rw [updateIndex_run] at hr
  by_cases heq : newSk = oldSk
  · rw [if_pos heq] at hr ⊢
    rw [(EStateM.Result.ok.inj hr).2]
  · rw [if_neg heq] at hr ⊢
    split at hr
    · exact nomatch hr
    · split_ifs at hr with hd
      rw [run_bind] at hr
      cases hup : (svc.txUpsert (ix.name, newSk) (h.newEntry newData hiddenPk ix)).run s with
      | error err s₁ =>
        rw [hup] at hr
        exact nomatch hr
      | ok u s₁ =>
        rw [hup] at hr
        obtain rfl := TxService.txUpsert_ok hup
        obtain rfl := TxService.txUpsert_ok hr
        refine ⟨rfl, fun hu => ?_⟩
        rw [← Option.not_isSome_iff_eq_none]
        exact fun hs => hd ⟨hu, hs⟩

end Update

section Delete

variable {h svc} {oldData : Record} {hiddenPk : Option Bytes} {ix : IndexRef} {uninit : ℕ → ℕ}

theorem deleteIndex_ok {s s' : HandlerState}
    (hr : (h.deleteIndex svc oldData hiddenPk uninit ix).run s = .ok () s') :
    s'.tx = s.tx.upsert (ix.name, eloqKey h.table ix.keyDef oldData hiddenPk
      ix.isUniqueSk (uninit ix.kid)) ⟨.delete, none⟩ := by
  obtain rfl := TxService.txUpsert_ok hr
  rfl

end Delete

/-! ## The loops -/

theorem nodup_secondaryKids (n : ℕ) : (h.secondaryKids n).Nodup := nodup_range.filter _

/-- No two indexes have one name. -/
theorem pairwise_indexes : h.indexes.Pairwise fun ix ix' => ix.name ≠ ix'.name := by
  rw [indexes, pairwise_append]
  refine ⟨?_, ?_, ?_⟩
  · rw [pairwise_map]
    exact (h.nodup_secondaryKids _).imp fun hne heq => hne (TableName.index.inj heq)
  · rw [pairwise_iff_getElem]
    intro i j hi hj hlt
    rw [getElem_mapIdx, getElem_mapIdx]
    exact fun heq => hlt.ne (TableName.dirty.inj heq)
  · intro ix hix ix' hix'
    obtain ⟨kid, -, rfl⟩ := mem_map.mp hix
    obtain ⟨i, hi, rfl⟩ := mem_mapIdx.mp hix'
    exact TableName.noConfusion

theorem eq_of_name_eq {ix ix' : IndexRef} (hix : ix ∈ h.indexes) (hix' : ix' ∈ h.indexes)
    (hname : ix.name = ix'.name) : ix = ix' :=
  inj_on_of_nodup_map (pairwise_map.2 h.pairwise_indexes) hix hix' hname

theorem name_ne_base {ix : IndexRef} (hix : ix ∈ h.indexes) : ix.name ≠ .base := by
  rcases mem_append.mp hix with hix | hix
  · obtain ⟨kid, -, rfl⟩ := mem_map.mp hix
    exact TableName.noConfusion
  · obtain ⟨i, hi, rfl⟩ := mem_mapIdx.mp hix
    exact TableName.noConfusion

/-- The index of a secondary key is among them. -/
theorem index_mem (x : Table.Secondary h.table) : h.index x.keyno ∈ h.indexes :=
  mem_append_left _ (mem_map_of_mem (mem_filter.mpr
    ⟨mem_range.mpr x.lt, by simpa using x.ne_pk⟩))

/-- **A step that writes to its own index only.** -/
def WritesOwn (step : IndexRef → HandlerM Unit) : Prop :=
  ∀ ix m s s', ix.name ≠ m → (step ix).run s = .ok () s' → m.view s'.tx = m.view s.tx

theorem writesOwn_insertIndex (buf : Record) (hiddenPk : Option Bytes) :
    WritesOwn (h.insertIndex svc buf hiddenPk) := by
  intro ix m s s' hne hr
  rw [(insertIndex_ok hr).1, view_upsert_of_ne hne]

theorem writesOwn_updateIndex (newData oldData : Record) (hiddenPk : Option Bytes) :
    WritesOwn (h.updateIndex svc newData oldData hiddenPk) := by
  intro ix m s s' hne hr
  have hok := updateIndex_ok hr
  simp only at hok
  split_ifs at hok
  · rw [hok]
  · rw [hok.1, view_upsert_of_ne hne, view_upsert_of_ne hne]

theorem writesOwn_deleteIndex (oldData : Record) (hiddenPk : Option Bytes) (uninit : ℕ → ℕ) :
    WritesOwn (h.deleteIndex svc oldData hiddenPk uninit) := by
  intro ix m s s' hne hr
  rw [deleteIndex_ok hr, view_upsert_of_ne hne]

section Loops

variable {h} {step : IndexRef → HandlerM Unit} (hstep : WritesOwn step) {s s' : HandlerState}

include hstep

/-- **A loop does to an index what the step of the index does.** -/
theorem indexes_step {ix : IndexRef} (hix : ix ∈ h.indexes)
    (hr : (h.indexes.forM step).run s = .ok () s') :
    ∃ s₁ s₂, ix.name.view s₁.tx = ix.name.view s.tx ∧ (step ix).run s₁ = .ok () s₂ ∧
      ix.name.view s'.tx = ix.name.view s₂.tx :=
  Loop.step_of_mem (fun ix s => ix.name.view s.tx)
    (fun a b s s' hne => hstep a b.name s s' hne) (fun _ _ => Ne.symm) h.pairwise_indexes hix hr

/-- A loop does not touch the base table. -/
theorem indexes_base (hr : (h.indexes.forM step).run s = .ok () s') :
    TableName.base.view s'.tx = TableName.base.view s.tx :=
  Loop.view_eq (fun s => TableName.base.view s.tx)
    (fun ix hix s s' => hstep ix .base s s' (h.name_ne_base hix)) hr

end Loops

/-! ## Whole calls -/

section Calls

variable (buf : Record) (key : Bytes) (record : EloqRecord)

/-- What `Insert` does once the primary key is known to be new. -/
def insertRow : HandlerM Unit := do
  h.indexes.forM (h.insertIndex svc buf (h.table.hiddenPk key))
  svc.txUpsert (.base, key) ⟨.insert, some record⟩

/-- **`Insert`**: a primary key that is live is a duplicate, if it is checked. -/
theorem insert_run (s : HandlerState) : (h.insert svc buf key record).run s =
    match if h.skipsPkCheck s.insertIdForCurRow then none else svc.readError (.base, key) with
    | some err => .error (convertTxError err) { s with txErrCode := some err }
    | none =>
      if h.skipsPkCheck s.insertIdForCurRow = false ∧ (s.tx.live (.base, key)).isSome then
        .error .foundDuppKey
          { s with errkey := h.table.primaryKey, dupErrkey := h.table.primaryKey }
      else (h.insertRow svc buf key record).run s := by
  rw [insert, run_bind, EStateM.run_get]
  cases hskip : h.skipsPkCheck s.insertIdForCurRow with
  | true =>
    simp only [hskip, if_true, Bool.true_eq_false, false_and, if_false]
    rfl
  | false =>
    simp only [hskip, Bool.false_eq_true, if_false, true_and]
    rw [run_bind, svc.read_run]
    cases svc.readError (.base, key) with
    | some err => rfl
    | none =>
      simp only
      split_ifs <;> rfl

variable {h svc buf key record}

/-- A loop over the indexes, and then a write to the base table. -/
theorem loop_upsert_ok {step : IndexRef → HandlerM Unit} {e : WriteSetEntry} {s s' : HandlerState}
    (hr : (do h.indexes.forM step; svc.txUpsert (.base, key) e : HandlerM Unit).run s
      = .ok () s') :
    ∃ s₁, (h.indexes.forM step).run s = .ok () s₁ ∧ s'.tx = s₁.tx.upsert (.base, key) e := by
  rw [run_bind] at hr
  cases hloop : (h.indexes.forM step).run s with
  | error err s₁ =>
    rw [hloop] at hr
    exact nomatch hr
  | ok u s₁ =>
    rw [hloop] at hr
    exact ⟨s₁, rfl, by rw [TxService.txUpsert_ok hr]⟩

theorem insert_ok {s s' : HandlerState}
    (hr : (h.insert svc buf key record).run s = .ok () s') :
    (∃ s₁, (h.indexes.forM (h.insertIndex svc buf (h.table.hiddenPk key))).run s = .ok () s₁ ∧
      s'.tx = s₁.tx.upsert (.base, key) ⟨.insert, some record⟩) ∧
      (h.skipsPkCheck s.insertIdForCurRow = false → s.tx.live (.base, key) = none) := by
  rw [insert_run] at hr
  split at hr
  · exact nomatch hr
  · split_ifs at hr with hd
    refine ⟨loop_upsert_ok hr, fun hskip => ?_⟩
    rw [← Option.not_isSome_iff_eq_none]
    exact fun hs => hd ⟨hskip, hs⟩

end Calls

/-! ## `update_row` -/

section UpdateRow

variable {h svc} {uninit : ℕ → ℕ} {lastReadKey : Bytes} {old new : Record}

/-- **A row whose primary key changes is inserted anew, then the old one is deleted.** -/
theorem updateRow_of_ne
    (hne : (h.packKeyRecord new lastReadKey).1 ≠ (h.packKeyRecord old lastReadKey).1) :
    h.updateRow svc uninit lastReadKey old new = (do
      h.insert svc new (h.packKeyRecord new lastReadKey).1 (h.packKeyRecord new lastReadKey).2
      h.delete svc uninit old (h.packKeyRecord old lastReadKey).1) :=
  if_pos hne

theorem updateRow_of_eq
    (heq : (h.packKeyRecord new lastReadKey).1 = (h.packKeyRecord old lastReadKey).1) :
    h.updateRow svc uninit lastReadKey old new
      = h.update svc new old (h.packKeyRecord new lastReadKey).1
          (h.packKeyRecord new lastReadKey).2 :=
  if_neg (not_not.mpr heq)

theorem updateRow_ok_iff {s s' : HandlerState}
    (hne : (h.packKeyRecord new lastReadKey).1 ≠ (h.packKeyRecord old lastReadKey).1) :
    (h.updateRow svc uninit lastReadKey old new).run s = .ok () s' ↔
      ∃ s₁, (h.insert svc new (h.packKeyRecord new lastReadKey).1
          (h.packKeyRecord new lastReadKey).2).run s = .ok () s₁ ∧
        (h.delete svc uninit old (h.packKeyRecord old lastReadKey).1).run s₁ = .ok () s' := by
  rw [updateRow_of_ne hne, run_bind]
  split
  next u s₁ hins => simp [hins]
  next e s₁ hins => simp [hins]

end UpdateRow

end Handler

end EloqSql
