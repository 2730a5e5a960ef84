import EloqSql.Handler.Undo

/-!
# Handler/Unique — which rows are duplicates

With a service that answers, `Insert` fails exactly if the primary key or the key of a unique index
is live at the start (`insert_ok_iff`). In a consistent transaction that is a matter of columns
(`StoredDuplicate`): a live row has the same key in a unique index if the columns compare equal,
where **two NULLs count as equal**, and always if the index contains the whole primary key. SQL has
another notion (`SqlDuplicate`), and the two are compared for `Insert` (`insert_dupp_iff`) and for
an update of the primary key (`updateRow_ok_iff_of_ne`).
-/

namespace EloqSql

open MemCompare IndexImage

namespace Handler

variable {h : Handler}

/-! ## A service that answers -/

section Reliable

variable {buf : Record} {hiddenPk : Option Bytes} {s s' : HandlerState}

theorem txUpsert_reliable (k : TableName × Bytes) (e : WriteSetEntry) (s : HandlerState) :
    (TxService.reliable.txUpsert k e).run s = .ok () { s with tx := s.tx.upsert k e } :=
  TxService.reliable.txUpsert_run k e s

theorem insertIndex_reliable (ix : IndexRef) :
    (∃ s', (h.insertIndex .reliable buf hiddenPk ix).run s = .ok () s') ↔
      ¬ h.HasNewKey buf hiddenPk s.tx ix := by
  have hread :
      (if ix.isUniqueSk then TxService.reliable.readError (ix.name, h.newKey buf hiddenPk ix)
      else none) = none := ite_self _
  rw [insertIndex_run, hread]
  simp only [HasNewKey]
  split_ifs with hd
  · exact iff_of_false (by simp) (not_not.mpr hd)
  · exact iff_of_true ⟨_, txUpsert_reliable _ _ _⟩ hd

/-- No step changes what the others find. -/
theorem hasNewKey_of_insertIndex {svc : TxService} {ix ix' : IndexRef} (hne : ix.name ≠ ix'.name)
    (hr : (h.insertIndex svc buf hiddenPk ix).run s = .ok () s') :
    h.HasNewKey buf hiddenPk s'.tx ix' ↔ h.HasNewKey buf hiddenPk s.tx ix' := by
  rw [HasNewKey, HasNewKey,
    live_of_view (h.writesOwn_insertIndex svc buf hiddenPk ix _ s s' hne hr)]

/-- **The loop of `Insert` succeeds if no unique index has the new key at the start.** -/
theorem insertIndexes_reliable :
    (∃ s', (h.indexes.forM (h.insertIndex .reliable buf hiddenPk)).run s = .ok () s') ↔
      ∀ ix ∈ h.indexes, ¬ h.HasNewKey buf hiddenPk s.tx ix :=
  Loop.ok_iff (fun ix _ => insertIndex_reliable ix)
    (fun _ _ _ _ hne hr => hasNewKey_of_insertIndex hne hr) h.pairwise_indexes

/-- **The loop of `Insert` fails with a duplicate only.** -/
theorem insertIndexes_error {e : HaError}
    (hr : (h.indexes.forM (h.insertIndex .reliable buf hiddenPk)).run s = .error e s') :
    e = .foundDuppKey := by
  obtain ⟨done, ix, rest, s₁, -, -, hix⟩ := Loop.error_split hr
  have hread :
      (if ix.isUniqueSk then TxService.reliable.readError (ix.name, h.newKey buf hiddenPk ix)
      else none) = none := ite_self _
  rw [insertIndex_run, hread] at hix
  simp only [txUpsert_reliable] at hix
  split_ifs at hix
  exact (EStateM.Result.error.inj hix).1.symm

variable {key : Bytes} {record : EloqRecord}

/-- **`Insert` succeeds if neither the primary key nor the key of a unique index is there.** -/
theorem insert_ok_iff : (∃ s', (h.insert .reliable buf key record).run s = .ok () s') ↔
    ¬ (h.skipsPkCheck s.insertIdForCurRow = false ∧ (s.tx.live (.base, key)).isSome) ∧
      ∀ ix ∈ h.indexes, ¬ h.HasNewKey buf (h.table.hiddenPk key) s.tx ix := by
  have hread : (if h.skipsPkCheck s.insertIdForCurRow then none
      else TxService.reliable.readError (.base, key)) = none := ite_self _
  rw [insert_run, hread]
  simp only
  split_ifs with hpk
  · exact iff_of_false (by simp) (fun hall => hall.1 hpk)
  · rw [and_iff_right hpk, ← insertIndexes_reliable, insertRow]
    simp only [EStateM.run_bind]
    cases hloop : (h.indexes.forM (h.insertIndex .reliable buf (h.table.hiddenPk key))).run s with
    | ok u s₁ => exact iff_of_true ⟨_, txUpsert_reliable _ _ _⟩ ⟨_, rfl⟩
    | error e s₁ => exact iff_of_false (by simp) (by simp)

/-- **If it fails, it has found a duplicate.** -/
theorem insert_dupp_iff_not_ok :
    (∃ s', (h.insert .reliable buf key record).run s = .error .foundDuppKey s') ↔
      ¬ ∃ s', (h.insert .reliable buf key record).run s = .ok () s' := by
  cases hr : (h.insert .reliable buf key record).run s with
  | ok u s₁ => simp
  | error e s₁ =>
    refine iff_of_true ⟨s₁, ?_⟩ (by simp)
    have hread : (if h.skipsPkCheck s.insertIdForCurRow then none
        else TxService.reliable.readError (.base, key)) = none := ite_self _
    rw [insert_run, hread] at hr
    simp only at hr
    split_ifs at hr with hpk
    · rw [(EStateM.Result.error.inj hr).1]
    · rw [insertRow, EStateM.run_bind] at hr
      split at hr
      · rw [txUpsert_reliable] at hr
        exact nomatch hr
      next hloop =>
        obtain ⟨rfl, rfl⟩ := EStateM.Result.error.inj hr
        rw [insertIndexes_error hloop]

end Reliable

/-! ## Keys by their columns -/

section Columns

variable (r row : h.TableRow)

/-- Two rows have the same values in some parts as keys see them: two NULLs are the same. -/
def StoredEqual (parts : List KeyPartInfo) : Prop :=
  ∀ p ∈ parts, partCmp h.table.toTableShare r.record row.record p = .eq

/-- Two rows have equal values in some parts as SQL sees them: none is NULL, and they compare equal
in the collation of the column, as far as the part goes. -/
def SqlEqual (parts : List KeyPartInfo) : Prop :=
  ∀ p ∈ parts, (r.record p.fieldIndex).isNull = false ∧ (row.record p.fieldIndex).isNull = false ∧
    (h.table.field p.fieldIndex).cmpPrefix p.length (r.record p.fieldIndex).bytes
      (row.record p.fieldIndex).bytes = .eq

instance (parts : List KeyPartInfo) : Decidable (StoredEqual r row parts) :=
  inferInstanceAs (Decidable (∀ p ∈ parts, _))

instance (parts : List KeyPartInfo) : Decidable (SqlEqual r row parts) :=
  inferInstanceAs (Decidable (∀ p ∈ parts, _))

/-- Two rows have one key in a unique index: all rows have, if no primary key part is missing in
it. -/
def SameStoredKey (x : Table.Secondary h.table) : Prop :=
  x.key.nosame = true ∧ (x.missing = [] ∨ StoredEqual r row x.key.userDefinedKeyParts)

variable {r row}

theorem flatMap_partImage_eq_iff {parts : List KeyPartInfo}
    (hw : ∀ p ∈ parts, p.Wf h.table) :
    parts.flatMap (partImage h.table r.record)
      = parts.flatMap (partImage h.table row.record) ↔ StoredEqual r row parts := by
  have hcmp : ComparesAs (parts.flatMap (partImage h.table r.record))
      (parts.flatMap (partImage h.table row.record)) _ :=
    ComparesAs.flatMap fun p hp => comparesAs_partImage (hw p hp) r row
  rw [hcmp.eq_iff, thenAll_eq_eq, List.forall_mem_map, StoredEqual]

theorem skEntry_fst_eq_iff (hh : h.table.tableHasHiddenPk = false) (x : Table.Secondary h.table)
    (hns : x.key.nosame = true) (k key : Bytes) :
    (h.skEntry (h.index x.keyno) k r).1 = (h.skEntry (h.index x.keyno) key row).1 ↔
      SameStoredKey r row x := by
  rw [SameStoredKey, and_iff_right hns, skEntry_eq, skEntry_eq, if_pos hns, if_pos hns]
  by_cases hm : x.missing = []
  · have hsplit : ¬ (h.table.tableHasHiddenPk = true ∨ x.missing ≠ []) := by simp [hh, hm]
    rw [if_neg hsplit, if_neg hsplit]
    exact iff_of_true rfl (Or.inl hm)
  · rw [if_pos (Or.inr hm), if_pos (Or.inr hm), or_iff_right hm]
    exact flatMap_partImage_eq_iff fun p hp => h.table.part_wf_of_mem x.key_mem hp

theorem packPk_tuple_eq_iff (hh : h.table.tableHasHiddenPk = false) :
    (h.packPk r.record).tuple = (h.packPk row.record).tuple ↔
      StoredEqual r row h.table.pkParts := by
  rw [h.packPk_tuple hh, h.packPk_tuple hh]
  exact flatMap_partImage_eq_iff fun p => h.table.wf_of_mem_pkParts

end Columns

/-! ## What is live -/

section Live

variable {s : HandlerState} {rows : h.Rows} {row : h.TableRow} (hc : h.Consistent s.tx rows)
  (hh : h.table.tableHasHiddenPk = false)

include hc hh

/-- **The primary key of a row is live if some row has it.** -/
theorem live_base_iff : (s.tx.live (.base, (h.packPk row.record).tuple)).isSome ↔
    ∃ k r, rows k = some r ∧ StoredEqual r row h.table.pkParts := by
  have hbelongs : ∀ {k r}, rows k = some r → k = (h.packPk r.record).tuple := fun hk => by
    have hb := hc.belongs hk
    rwa [Belongs, hh, if_neg Bool.false_ne_true] at hb
  rw [hc.base, Option.isSome_map, Option.isSome_iff_exists]
  constructor
  · rintro ⟨r, hr⟩
    exact ⟨_, r, hr, (packPk_tuple_eq_iff hh).mp (hbelongs hr).symm⟩
  · rintro ⟨k, r, hk, heq⟩
    rw [← (packPk_tuple_eq_iff hh).mpr heq, ← hbelongs hk]
    exact ⟨r, hk⟩

/-- **A unique index has the key of a row if some row has the same key in it.** -/
theorem hasNewKey_iff (key : Bytes) :
    (∃ ix ∈ h.indexes, h.HasNewKey row.record (h.table.hiddenPk key) s.tx ix) ↔
      ∃ k r, rows k = some r ∧ ∃ x, SameStoredKey r row x := by
  have hkey : ∀ x : Table.Secondary h.table, x.key.nosame = true →
      ((s.tx.live (.index x.keyno, (h.skEntry (h.index x.keyno) key row).1)).isSome ↔
        ∃ k r, rows k = some r ∧ SameStoredKey r row x) := by
    intro x hns
    have hex := hc.exact x
    have hmap : (s.tx.live (.index x.keyno, (h.skEntry (h.index x.keyno) key row).1)).isSome
        = (s.tx.indexEntries x.keyno (h.skEntry (h.index x.keyno) key row).1).isSome :=
      Option.isSome_map.symm
    rw [hmap, Option.isSome_iff_exists]
    constructor
    · rintro ⟨b, hb⟩
      obtain ⟨k, r, hk, he⟩ := (hex _ _).mp hb
      exact ⟨k, r, hk, (skEntry_fst_eq_iff hh x hns k key).mp (by rw [he])⟩
    · rintro ⟨k, r, hk, hsame⟩
      refine ⟨_, (hex _ _).mpr ⟨k, r, hk, Prod.ext ?_ rfl⟩⟩
      exact (skEntry_fst_eq_iff hh x hns k key).mpr hsame
  constructor
  · rintro ⟨ix, hix, hu, hlive⟩
    rcases List.mem_append.mp hix with hix | hix
    · obtain ⟨kid, hkid, rfl⟩ := List.mem_map.mp hix
      obtain ⟨hlt, hne⟩ := mem_secondaryKids.mp hkid
      obtain ⟨k, r, hk, hsame⟩ := (hkey ⟨kid, hlt, hne⟩ hu).mp hlive
      exact ⟨k, r, hk, _, hsame⟩
    · obtain ⟨i, hi, rfl⟩ := List.mem_mapIdx.mp hix
      exact nomatch hu
  · rintro ⟨k, r, hk, x, hsame⟩
    exact ⟨h.index x.keyno, h.index_mem x, hsame.1, (hkey x hsame.1).mpr ⟨k, r, hk, hsame⟩⟩

theorem forall_not_hasNewKey_iff (key : Bytes) :
    (∀ ix ∈ h.indexes, ¬ h.HasNewKey row.record (h.table.hiddenPk key) s.tx ix) ↔
      ¬ ∃ k r, rows k = some r ∧ ∃ x, SameStoredKey r row x := by
  rw [← hasNewKey_iff hc hh key]
  simp

end Live

/-! ## `Insert` -/

section Insert

variable (rows : h.Rows) (row : h.TableRow)

/-- Some row has the primary key of the new one, or its key in a unique index. -/
def StoredDuplicate : Prop :=
  ∃ k r, rows k = some r ∧ (StoredEqual r row h.table.pkParts ∨ ∃ x, SameStoredKey r row x)

/-- Some row is equal to the new one in the primary key, or in all columns of a unique index. -/
def SqlDuplicate : Prop :=
  ∃ k r, rows k = some r ∧ (SqlEqual r row h.table.pkParts ∨
    ∃ x : Table.Secondary h.table, x.key.nosame = true ∧ SqlEqual r row x.key.userDefinedKeyParts)

variable {rows row}

/-- **`Insert` of a row with a given primary key reports a duplicate exactly if there is one in SQL,
as long as the two notions agree.** -/
theorem insert_dupp_iff {s : HandlerState} (hc : h.Consistent s.tx rows)
    (hsem : h.isInsertSemantic = true) (hh : h.table.tableHasHiddenPk = false)
    (hid : s.insertIdForCurRow = 0) :
    ((∃ s', (h.insert .reliable row.record (h.packKeyRecord row.record []).1
        (h.packKeyRecord row.record []).2).run s = .error .foundDuppKey s') ↔
      SqlDuplicate rows row) ↔
    (StoredDuplicate rows row ↔ SqlDuplicate rows row) := by
  have hkey : (h.packKeyRecord row.record []).1 = (h.packPk row.record).tuple := by
    rw [packKeyRecord, if_neg (by simp [hh])]
  have hskip : h.skipsPkCheck s.insertIdForCurRow = false := by
    rw [TableShare.tableHasHiddenPk] at hh
    simp [skipsPkCheck, hsem, hh, hid]
  have hdup : (∃ s', (h.insert .reliable row.record (h.packKeyRecord row.record []).1
      (h.packKeyRecord row.record []).2).run s = .error .foundDuppKey s') ↔
      StoredDuplicate rows row := by
    rw [insert_dupp_iff_not_ok, insert_ok_iff, hkey, and_iff_right hskip, live_base_iff hc hh,
      forall_not_hasNewKey_iff hc hh, ← not_or, not_not, StoredDuplicate]
    simp only [and_or_left, exists_or]
  rw [hdup]

end Insert

/-! ## An update of the primary key -/

section UpdateRow

variable (rows : h.Rows) (row : h.TableRow)

/-- Some other row is equal to the new one in the primary key, or in all columns of a unique
index. -/
def OtherSqlDuplicate (oldKey : Bytes) : Prop :=
  ∃ k r, rows k = some r ∧ k ≠ oldKey ∧ (SqlEqual r row h.table.pkParts ∨
    ∃ x : Table.Secondary h.table, x.key.nosame = true ∧ SqlEqual r row x.key.userDefinedKeyParts)

/-- What keeps `update_row` from inserting the new row: a row with its primary key, if that is
looked for, or with its key in a unique index — **the old row, too**. -/
def Blocked (s : HandlerState) : Prop :=
  ∃ k r, rows k = some r ∧
    ((h.skipsPkCheck s.insertIdForCurRow = false ∧ StoredEqual r row h.table.pkParts) ∨
      ∃ x, SameStoredKey r row x)

variable {rows row} {s s' : HandlerState} {uninit : ℕ → ℕ} {old : h.TableRow} {key oldKey : Bytes}

variable (uninit) in
theorem deleteIndexes_reliable (hiddenPk : Option Bytes) (buf : Record) (s : HandlerState) :
    ∃ s', (h.indexes.forM (h.deleteIndex .reliable buf hiddenPk uninit)).run s = .ok () s' := by
  have hok : (∃ s', (h.indexes.forM (h.deleteIndex .reliable buf hiddenPk uninit)).run s
      = .ok () s') ↔ ∀ ix ∈ h.indexes, ¬ False :=
    Loop.ok_iff (R := fun _ _ => True)
      (fun ix s => iff_of_true ⟨_, txUpsert_reliable _ _ s⟩ not_false)
      (fun _ _ _ _ _ _ => Iff.rfl) (List.pairwise_of_forall fun _ _ => trivial)
  exact hok.mpr fun _ _ => not_false

variable (uninit) in
/-- `Delete` does not fail. -/
theorem delete_reliable (buf : Record) (key : Bytes) (s : HandlerState) :
    ∃ s', (h.delete .reliable uninit buf key).run s = .ok () s' := by
  obtain ⟨s₁, hloop⟩ := deleteIndexes_reliable uninit (h.table.hiddenPk key) buf s
  rw [delete, EStateM.run_bind, hloop]
  exact ⟨_, txUpsert_reliable _ _ _⟩

/-- **The new row's entries are there after an insert and a delete, and the old row's are not.** -/
theorem entries_of_insert_delete {svc : TxService} {record : EloqRecord} {s₁ : HandlerState}
    (hc : h.Consistent s.tx rows) (hold : rows oldKey = some old) (hb : h.Belongs key row)
    (hne : key ≠ oldKey) (hx : h.Splits)
    (hins : (h.insert svc row.record key record).run s = .ok () s₁)
    (hdel : (h.delete svc uninit old.record oldKey).run s₁ = .ok () s') :
    s'.tx.live (.base, key) = some record ∧ s'.tx.live (.base, oldKey) = none ∧
    ∀ x : Table.Secondary h.table,
      s'.tx.indexEntries x.keyno (h.skEntry (h.index x.keyno) key row).1
        = some (h.skEntry (h.index x.keyno) key row).2 ∧
      s'.tx.indexEntries x.keyno (h.skEntry (h.index x.keyno) oldKey old).1 = none := by
  obtain ⟨⟨s₂, hloop, htx⟩, -⟩ := insert_ok hins
  obtain ⟨s₃, hdel, htx'⟩ := loop_upsert_ok hdel
  have hbase := indexes_base (h.writesOwn_deleteIndex svc _ _ _) hdel
  have hkey : ((.base, key) : TableName × Bytes) ≠ (.base, oldKey) := by simpa using hne
  refine ⟨?_, ?_, fun x => ?_⟩
  · rw [htx', TxExecution.live_upsert, Function.update_of_ne hkey, live_of_view hbase, htx,
      TxExecution.live_upsert, Function.update_self]
    rfl
  · rw [htx', TxExecution.live_upsert, Function.update_self]
    rfl
  · obtain ⟨hadd, hu⟩ := insertIndexes_entries x hloop
    have hmem := (hc.exact x).mem hold
    have hnek : (h.skEntry (h.index x.keyno) key row).1
        ≠ (h.skEntry (h.index x.keyno) oldKey old).1 := by
      intro heq
      by_cases hns : x.key.nosame = true
      · exact absurd ((hu hns).symm.trans (heq ▸ hmem)) (by simp)
      · have he : h.skEntry (h.index x.keyno) key row = h.skEntry (h.index x.keyno) oldKey old :=
          Prod.ext heq (by rw [skEntry_snd x hns, skEntry_snd x hns])
        exact hne (h.separates_skEntry x hb (hc.belongs hold) he)
    rw [htx', indexEntries_upsert_base, deleteIndexes_entries x (hx x) hdel, htx,
      indexEntries_upsert_base, hadd, Function.update_of_ne hnek, Function.update_self,
      Function.update_self]
    exact ⟨rfl, rfl⟩

/-- **An update of the primary key succeeds exactly if no other row is in the way in SQL, as long as
that is what blocks it**; and it leaves the entries of the new row, and none of the old one. -/
theorem updateRow_ok_iff_of_ne {lastReadKey : Bytes} (hc : h.Consistent s.tx rows)
    (hh : h.table.tableHasHiddenPk = false)
    (hold : rows (h.packKeyRecord old.record lastReadKey).1 = some old)
    (hne : (h.packKeyRecord row.record lastReadKey).1
      ≠ (h.packKeyRecord old.record lastReadKey).1) :
    (((∃ s', (h.updateRow .reliable uninit lastReadKey old.record row.record).run s = .ok () s') ↔
        ¬ OtherSqlDuplicate rows row (h.packKeyRecord old.record lastReadKey).1) ↔
      (Blocked rows row s
        ↔ OtherSqlDuplicate rows row (h.packKeyRecord old.record lastReadKey).1)) ∧
    ∀ s', (h.updateRow .reliable uninit lastReadKey old.record row.record).run s = .ok () s' →
      s'.tx.live (.base, (h.packKeyRecord row.record lastReadKey).1)
        = some (h.packKeyRecord row.record lastReadKey).2 ∧
      s'.tx.live (.base, (h.packKeyRecord old.record lastReadKey).1) = none ∧
      ∀ x : Table.Secondary h.table,
        (s'.tx.indexEntries x.keyno
            (h.skEntry (h.index x.keyno) (h.packKeyRecord row.record lastReadKey).1 row).1
          = some (h.skEntry (h.index x.keyno) (h.packKeyRecord row.record lastReadKey).1 row).2) ∧
        s'.tx.indexEntries x.keyno
            (h.skEntry (h.index x.keyno) (h.packKeyRecord old.record lastReadKey).1 old).1
          = none := by
  have hkey : (h.packKeyRecord row.record lastReadKey).1 = (h.packPk row.record).tuple := by
    rw [packKeyRecord, if_neg (by simp [hh])]
  have hok : (∃ s', (h.insert .reliable row.record (h.packKeyRecord row.record lastReadKey).1
      (h.packKeyRecord row.record lastReadKey).2).run s = .ok () s') ↔ ¬ Blocked rows row s := by
    rw [insert_ok_iff, forall_not_hasNewKey_iff hc hh, hkey, live_base_iff hc hh, ← not_or, Blocked]
    simp only [and_or_left, exists_or, ← exists_and_left, and_left_comm (b := rows _ = _)]
  constructor
  · have hrun : (∃ s', (h.updateRow .reliable uninit lastReadKey old.record row.record).run s
        = .ok () s') ↔ ¬ Blocked rows row s := by
      rw [← hok]
      constructor
      · rintro ⟨s', hr⟩
        obtain ⟨s₁, hins, -⟩ := (updateRow_ok_iff hne).mp hr
        exact ⟨s₁, hins⟩
      · rintro ⟨s₁, hins⟩
        obtain ⟨s', hdel⟩ := delete_reliable uninit old.record _ s₁
        exact ⟨s', (updateRow_ok_iff hne).mpr ⟨s₁, hins, hdel⟩⟩
    rw [hrun, not_iff_not]
  · intro s' hr
    obtain ⟨s₁, hins, hdel⟩ := (updateRow_ok_iff hne).mp hr
    have hfree := hok.mp ⟨s₁, hins⟩
    -- a unique index without a split would have the key of the old row
    have hx : h.Splits := fun x hns =>
      Or.inr fun hm => hfree ⟨_, old, hold, Or.inr ⟨x, hns, Or.inl hm⟩⟩
    have hid : h.table.tableHasHiddenPk = true → lastReadKey.length = myUuidSize := by simp [hh]
    have hb := h.belongs_packKeyRecord hid row
    exact entries_of_insert_delete hc hold hb hne hx hins hdel

end UpdateRow

/-! ### A table to try this on -/

/-- The transaction of the sample rows, in a new statement. -/
def sampleStatement : HandlerState := { Call.sampleTwoRows.1 with insertIdForCurRow := 0 }

theorem consistent_sampleStatement : sample.Consistent sampleStatement.tx Call.sampleTwoRows.2 :=
  consistent_of_run sample_splits Call.run_sampleTwoRows
    ((mirrored_iff sample_splits).mp mirrored_empty)

theorem sampleTwoRows_cases {k : Bytes} {r : sample.TableRow}
    (hk : Call.sampleTwoRows.2 k = some r) :
    (k = samplePk 1 ∧ r = sampleRow 1 (some 10) 11) ∨
      (k = samplePk 2 ∧ r = sampleRow 2 (some 20) 21) := by
  rw [Call.sampleTwoRows_apply] at hk
  split_ifs at hk with h₂ h₁
  · exact Or.inr ⟨h₂, (Option.some.inj hk).symm⟩
  · exact Or.inl ⟨h₁, (Option.some.inj hk).symm⟩

/-- `(3, 20, 31)` has the `b` of the second row. -/
theorem insert_dupp_sample : ∃ s', (sample.insert .reliable (sampleRow 3 (some 20) 31).record
    (sample.packKeyRecord (sampleRow 3 (some 20) 31).record []).1
    (sample.packKeyRecord (sampleRow 3 (some 20) 31).record []).2).run sampleStatement
      = .error .foundDuppKey s' := by
  have hrow : Call.sampleTwoRows.2 (samplePk 2) = some (sampleRow 2 (some 20) 21) :=
    (Call.sampleTwoRows_apply _).trans (if_pos (by decide +kernel))
  let x : Table.Secondary sample.table := ⟨1, by decide, by decide⟩
  have hsql : SqlDuplicate Call.sampleTwoRows.2 (sampleRow 3 (some 20) 31) :=
    ⟨_, _, hrow, Or.inr ⟨x, rfl, by decide +kernel⟩⟩
  have hstored : StoredDuplicate Call.sampleTwoRows.2 (sampleRow 3 (some 20) 31) :=
    ⟨_, _, hrow, Or.inr ⟨x, rfl, Or.inr (by decide +kernel)⟩⟩
  exact ((insert_dupp_iff consistent_sampleStatement rfl rfl rfl).mpr
    (iff_of_true hstored hsql)).mpr hsql

/-- **Two rows with NULL in a unique index are taken for duplicates.** -/
theorem insert_dupp_null :
    let s := { (Call.sampleInsert 1 none 11).after emptyState with insertIdForCurRow := 0 }
    let rows := (Call.sampleInsert 1 none 11).apply fun _ => none
    sample.Consistent s.tx rows ∧
      (∃ s', (sample.insert .reliable (sampleRow 2 none 21).record
        (sample.packKeyRecord (sampleRow 2 none 21).record []).1
        (sample.packKeyRecord (sampleRow 2 none 21).record []).2).run s
          = .error .foundDuppKey s') ∧
      ¬ SqlDuplicate rows (sampleRow 2 none 21) := by
  intro s rows
  refine ⟨?_, ?_, ?_⟩
  · have hstep : sample.Step (Call.sampleInsert 1 none 11) (emptyState, fun _ => none) _ :=
      Call.step_after ⟨rfl, fun _ => rfl⟩ (by decide +kernel)
    exact hstep.consistent sample_splits trivial ((mirrored_iff sample_splits).mp mirrored_empty)
  · obtain ⟨s', hr, -⟩ := of_entryAfterDup (k := (.base, [])) (e := none)
      (r := (sample.insert .reliable (sampleRow 2 none 21).record
        (sample.packKeyRecord (sampleRow 2 none 21).record []).1
        (sample.packKeyRecord (sampleRow 2 none 21).record []).2).run s) (by decide +kernel)
    exact ⟨s', hr⟩
  · rintro ⟨k, r, hk, hdup⟩
    obtain rfl : sampleRow 1 none 11 = r := by
      simp only [rows, Call.sampleInsert, Call.apply, Function.update_apply] at hk
      split_ifs at hk
      exact Option.some.inj hk
    rcases hdup with hpk | ⟨x, -, hsql⟩
    · exact absurd hpk (by decide +kernel)
    · rcases sample_secondary x with rfl | rfl <;> exact absurd hsql (by decide +kernel)

/-- No other row is in the way of a new row `(3, 10, 31)` or `(3, 30, 31)` for the first one. -/
theorem not_otherSqlDuplicate_sample {b : UInt8} (hb : b = 10 ∨ b = 30) :
    ¬ OtherSqlDuplicate Call.sampleTwoRows.2 (sampleRow 3 (some b) 31)
      (sample.packKeyRecord (sampleRow 1 (some 10) 11).record []).1 := by
  rintro ⟨k, r, hk, hne, hdup⟩
  rcases sampleTwoRows_cases hk with ⟨rfl, rfl⟩ | ⟨rfl, rfl⟩
  · exact absurd hne (by decide +kernel)
  · rcases hb with rfl | rfl <;> rcases hdup with hpk | ⟨x, -, hsql⟩
    iterate 2
      · exact absurd hpk (by decide +kernel)
      · rcases sample_secondary x with rfl | rfl <;> exact absurd hsql (by decide +kernel)

/-- `(1, 10, 11)` may become `(3, 30, 31)`. -/
theorem updateRow_sample : ∃ s', (sample.updateRow .reliable (fun _ => 0) []
    (sampleRow 1 (some 10) 11).record (sampleRow 3 (some 30) 31).record).run sampleStatement
      = .ok () s' := by
  have hold : Call.sampleTwoRows.2 (sample.packKeyRecord (sampleRow 1 (some 10) 11).record []).1
      = some (sampleRow 1 (some 10) 11) :=
    (Call.sampleTwoRows_apply _).trans ((if_neg (by decide +kernel)).trans (if_pos rfl))
  have hblocked : ¬ Blocked Call.sampleTwoRows.2 (sampleRow 3 (some 30) 31) sampleStatement := by
    rintro ⟨k, r, hk, hdup⟩
    rcases sampleTwoRows_cases hk with ⟨rfl, rfl⟩ | ⟨rfl, rfl⟩ <;>
    rcases hdup with ⟨-, hpk⟩ | ⟨x, -, hm | hsame⟩
    · exact absurd hpk (by decide +kernel)
    · rcases sample_secondary x with rfl | rfl <;> exact absurd hm (by decide +kernel)
    · rcases sample_secondary x with rfl | rfl <;> exact absurd hsame (by decide +kernel)
    · exact absurd hpk (by decide +kernel)
    · rcases sample_secondary x with rfl | rfl <;> exact absurd hm (by decide +kernel)
    · rcases sample_secondary x with rfl | rfl <;> exact absurd hsame (by decide +kernel)
  have hother := not_otherSqlDuplicate_sample (.inr (Eq.refl 30))
  exact ((updateRow_ok_iff_of_ne consistent_sampleStatement rfl hold (by decide +kernel)).1.mpr
    (iff_of_false hblocked hother)).mpr hother

/-- **The old row is in the way of its own update**: `(1, 10, 11)` cannot become `(3, 10, 31)`. -/
theorem updateRow_own_key :
    (¬ ∃ s', (sample.updateRow .reliable (fun _ => 0) []
      (sampleRow 1 (some 10) 11).record (sampleRow 3 (some 10) 31).record).run sampleStatement
        = .ok () s') ∧
    ¬ OtherSqlDuplicate Call.sampleTwoRows.2 (sampleRow 3 (some 10) 31)
      (sample.packKeyRecord (sampleRow 1 (some 10) 11).record []).1 := by
  refine ⟨?_, not_otherSqlDuplicate_sample (.inl rfl)⟩
  rintro ⟨s', hr⟩
  have hz : (Call.updateRow .reliable (fun _ => 0) [] (sampleRow 1 (some 10) 11)
      (sampleRow 3 (some 10) 31)).returnsZero sampleStatement = false := by decide +kernel
  rw [Call.returnsZero, Call.exec, hr] at hz
  cases hz

end Handler

end EloqSql
