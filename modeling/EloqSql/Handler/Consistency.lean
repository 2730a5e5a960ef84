import EloqSql.Handler.Steps
import EloqSql.KeyDef.Order
import EloqSql.Lib.IndexImage
import Mathlib.Logic.Relation

/-!
# Handler/Consistency — the indexes mirror the base table

A transaction is **consistent** with some rows if its base table holds exactly them, and each
secondary index holds exactly their entries (`Consistent`). The entry of a row tells its primary key
(`separates_skEntry`), since each part of the primary key is a part of the index.

A call that returns 0 keeps the transaction consistent unless it writes over a row it has not looked
for (`Call.Safe`): `update_row` takes a new primary key for a generated one as long as
`insert_id_for_cur_row` is set. So runs of safe calls keep it (`mirrored_of_run`).
-/

namespace EloqSql

open MemCompare IndexImage List
open Table (Secondary)
open Function (update_of_ne update_self)

/-! ## The entries of an index -/

namespace TxExecution

variable (tx : TxExecution)

/-- The live entries of an index: their keys and the bytes of their records. -/
def indexEntries (kid : ℕ) (k : Bytes) : Option Bytes :=
  (tx.live (.index kid, k)).map EloqRecord.encodedBlob

theorem indexEntries_upsert (kid : ℕ) (k : Bytes) (e : WriteSetEntry) :
    (tx.upsert (.index kid, k) e).indexEntries kid
      = Function.update (tx.indexEntries kid) k (e.live.map EloqRecord.encodedBlob) := by
  funext k'
  rw [indexEntries, live_upsert]
  by_cases hk : k' = k
  · rw [hk, update_self, update_self]
  · rw [update_of_ne hk, update_of_ne (by simpa using hk), indexEntries]

variable {tx}

theorem indexEntries_of_view {tx' : TxExecution} {kid : ℕ}
    (h : (TableName.index kid).view tx = (TableName.index kid).view tx') :
    tx.indexEntries kid = tx'.indexEntries kid := by
  funext k
  rw [indexEntries, indexEntries, live_of_view h]

end TxExecution

namespace Handler

variable (h : Handler)

/-! ## The entries of a row -/

/-- A row of the table. -/
abbrev TableRow : Type := Row h.table.toTableShare

/-- A row may be stored under a key: under its packed primary key, or under a hidden one. -/
def Belongs (key : Bytes) (row : h.TableRow) : Prop :=
  if h.table.tableHasHiddenPk then key.length = myUuidSize else key = (h.packPk row.record).tuple

/-- The key and the record that the handler stores for a row in an index. -/
def skEntry (ix : IndexRef) (key : Bytes) (row : h.TableRow) : Bytes × Bytes :=
  let packed := h.packSk ix row.record (h.table.hiddenPk key)
  (skKey ix.isUniqueSk packed, (skRecord ix.isUniqueSk packed).encodedBlob)

theorem skEntry_append (ix : IndexRef) (key : Bytes) (row : h.TableRow) :
    (h.skEntry ix key row).1 ++ (h.skEntry ix key row).2
      = (h.packSk ix row.record (h.table.hiddenPk key)).tuple := by
  simp only [skEntry, skKey, skRecord]
  split_ifs
  · rw [take_append_drop]
  · rw [append_nil]

/-- The key of every unique index has a split. -/
def Splits : Prop := ∀ x : Secondary h.table, x.key.nosame = true →
  h.table.tableHasHiddenPk = true ∨ x.missing ≠ []

section Secondary

variable {h} (x : Secondary h.table)

theorem packSk_tuple (r : Record) (key : Bytes) :
    (h.packSk (h.index x.keyno) r (h.table.hiddenPk key)).tuple = x.declared r ++ x.suffix r key :=
  x.packRecord_tuple r (h.unset x.keyno) key (Or.inl rfl)

/-- **The entry of a row.** -/
theorem skEntry_eq (key : Bytes) (row : h.TableRow) : h.skEntry (h.index x.keyno) key row
    = if x.key.nosame = true then
        if h.table.tableHasHiddenPk = true ∨ x.missing ≠ [] then
          (x.declared row.record, x.suffix row.record key)
        else ([], x.declared row.record ++ x.suffix row.record key)
      else (x.declared row.record ++ x.suffix row.record key, []) := by
  have hu : (h.index x.keyno).isUniqueSk = x.key.nosame := rfl
  simp only [skEntry, skKey, skRecord, hu]
  split_ifs with hns hsplit
  · have hst := x.packRecord_stored row.record hns (h.unset x.keyno) key
    exact hst.trans (if_pos hsplit)
  · have hst := x.packRecord_stored row.record hns (h.unset x.keyno) key
    exact hst.trans (if_neg hsplit)
  · rw [packSk_tuple]

theorem skEntry_snd (hns : ¬ x.key.nosame = true) (key : Bytes) (row : h.TableRow) :
    (h.skEntry (h.index x.keyno) key row).2 = [] := by
  rw [skEntry_eq, if_neg hns]

/-- The `EloqKey` constructor makes the key that is stored, if the key of a unique index has a
split. -/
theorem eloqKey_eq (hx : x.key.nosame = true → h.table.tableHasHiddenPk = true ∨ x.missing ≠ [])
    (key : Bytes) (row : h.TableRow) (uninit : ℕ) :
    eloqKey h.table (h.index x.keyno).keyDef row.record (h.table.hiddenPk key)
        (h.index x.keyno).isUniqueSk uninit
      = (h.skEntry (h.index x.keyno) key row).1 := by
  have hu : (h.index x.keyno).isUniqueSk = x.key.nosame := rfl
  have hdef : (h.index x.keyno).keyDef = x.keyDef (h.unset x.keyno) := rfl
  rw [skEntry_eq, eloqKey, hu, hdef]
  simp only [x.packRecord_tuple row.record (h.unset x.keyno) key (Or.inl rfl)]
  split_ifs with hns hsplit
  · rw [hns, x.packRecord_split row.record hns, if_pos hsplit, Option.getD_some, take_left]
  · exact absurd (hx hns) hsplit
  · rfl

end Secondary

theorem hidden_of_isNone (hp : h.table.primaryKey = none) : h.table.tableHasHiddenPk = true := by
  rw [TableShare.tableHasHiddenPk, hp]
  rfl

/-- The packed primary key is the images of its parts. -/
theorem packPk_tuple (hh : h.table.tableHasHiddenPk = false) (r : Record) :
    (h.packPk r).tuple = h.table.pkParts.flatMap (partImage h.table r) := by
  cases hp : h.table.primaryKey with
  | none => simp [h.hidden_of_isNone hp] at hh
  | some pk =>
    have htuple := (Table.Index.primary pk hp).packRecord_tuple r 0 [] (m := false) (n := 0)
      (Or.inl rfl)
    have hnone : h.table.hiddenPk [] = none := if_neg (by simp [hh])
    have hparts : (Table.Index.primary pk hp).parts = h.table.pkParts := by
      rw [TableShare.pkParts, hp]
      rfl
    rw [hnone, Option.getD_none, append_nil, hparts] at htuple
    rw [← htuple, packPk, pkDescr, hp]
    rfl

/-- Keys that agree have parts that agree. -/
theorem partImage_eq_of_flatMap {ps : List KeyPartInfo} {row row' : h.TableRow}
    (hps : ∀ p ∈ ps, p.Wf h.table)
    (he : ps.flatMap (partImage h.table row.record)
      = ps.flatMap (partImage h.table row'.record)) :
    ∀ p ∈ ps, partImage h.table row.record p
      = partImage h.table row'.record p :=
  Aligned.flatMap_inj (fun p hp => (comparesAs_partImage (hps p hp) row row').aligned) he

/-- **The parts of an index tell the primary key.** -/
theorem key_eq_of_tuple (x : Secondary h.table) {key key' : Bytes} {row row' : h.TableRow}
    (hb : h.Belongs key row) (hb' : h.Belongs key' row')
    (he : x.declared row.record ++ x.suffix row.record key
      = x.declared row'.record ++ x.suffix row'.record key') : key = key' := by
  rw [Belongs] at hb hb'
  cases hh : h.table.tableHasHiddenPk with
  | true =>
    rw [hh, if_pos rfl] at hb hb'
    simp only [Table.Secondary.suffix, hh, if_true] at he
    exact (append_inj' he (hb.trans hb'.symm)).2
  | false =>
    rw [hh, if_neg Bool.false_ne_true] at hb hb'
    simp only [Table.Secondary.suffix, hh, Bool.false_eq_true, if_false, Table.Secondary.declared,
      ← flatMap_append] at he
    have hparts := h.partImage_eq_of_flatMap (fun p => (Table.Index.secondary x).wf_of_mem) he
    rw [hb, hb', h.packPk_tuple hh, h.packPk_tuple hh]
    refine flatMap_congr fun p hp => ?_
    obtain ⟨q, hq, hpq⟩ := Table.Index.exists_sameAs x hp
    have hwf := h.table.wf_of_mem_pkParts hp
    exact (partImage_eq_iff_of_sameAs hpq hwf row row').mpr (hparts q hq)

/-- **The entries of an index tell the primary keys apart.** -/
theorem separates_skEntry (x : Secondary h.table) :
    Separates h.Belongs (h.skEntry (h.index x.keyno)) := by
  intro key row key' row' hb hb' he
  refine h.key_eq_of_tuple x hb hb' ?_
  rw [← packSk_tuple, ← packSk_tuple, ← skEntry_append, ← skEntry_append, he]

/-! ## Consistent transactions -/

/-- The rows of a table, by their keys. -/
abbrev Rows : Type := Bytes → Option h.TableRow

/-- **The base table holds some rows, and every secondary index their entries.** -/
structure Consistent (tx : TxExecution) (rows : h.Rows) : Prop where
  belongs : ∀ {key row}, rows key = some row → h.Belongs key row
  base : ∀ key, tx.live (.base, key)
    = (rows key).map fun row => (h.packKeyRecord row.record key).2
  exact : ∀ x : Secondary h.table,
    Exact (h.skEntry (h.index x.keyno)) rows (tx.indexEntries x.keyno)

/-! ## What the loops do to an index -/

section Loops

variable {h} {svc : TxService} {s s' : HandlerState} (x : Secondary h.table)

/-- **`Insert` adds the entry of the row**, and a unique index does not have its key yet. -/
theorem insertIndexes_entries {row : h.TableRow} {key : Bytes}
    (hr : (h.indexes.forM (h.insertIndex svc row.record (h.table.hiddenPk key))).run s
      = .ok () s') :
    let e := h.skEntry (h.index x.keyno) key row
    s'.tx.indexEntries x.keyno = Function.update (s.tx.indexEntries x.keyno) e.1 (some e.2) ∧
      (x.key.nosame = true → s.tx.indexEntries x.keyno e.1 = none) := by
  intro e
  obtain ⟨s₁, s₂, h₁, h₂, h'⟩ :=
    indexes_step (h.writesOwn_insertIndex svc _ _) (h.index_mem x) hr
  obtain ⟨htx, hu⟩ := insertIndex_ok h₂
  have hold := TxExecution.indexEntries_of_view h₁
  refine ⟨?_, fun hns => ?_⟩
  · rw [TxExecution.indexEntries_of_view h', htx, ← hold]
    exact s₁.tx.indexEntries_upsert x.keyno _ _
  · rw [← hold, TxExecution.indexEntries, Option.map_eq_none_iff]
    exact hu hns

/-- **`Update` replaces the entry of the row**, if its key has changed. -/
theorem updateIndexes_entries {row old : h.TableRow} {key : Bytes}
    (hr : (h.indexes.forM (h.updateIndex svc row.record old.record (h.table.hiddenPk key))).run s
      = .ok () s') :
    let e := h.skEntry (h.index x.keyno) key row
    let e₀ := h.skEntry (h.index x.keyno) key old
    if e.1 = e₀.1 then s'.tx.indexEntries x.keyno = s.tx.indexEntries x.keyno
    else
      s'.tx.indexEntries x.keyno
        = Function.update (Function.update (s.tx.indexEntries x.keyno) e.1 (some e.2)) e₀.1 none ∧
      (x.key.nosame = true → s.tx.indexEntries x.keyno e.1 = none) := by
  intro e e₀
  obtain ⟨s₁, s₂, h₁, h₂, h'⟩ :=
    indexes_step (h.writesOwn_updateIndex svc _ _ _) (h.index_mem x) hr
  have hstep := updateIndex_ok h₂
  simp only [show h.newKey row.record (h.table.hiddenPk key) (h.index x.keyno) = e.1 from rfl,
    show h.newKey old.record (h.table.hiddenPk key) (h.index x.keyno) = e₀.1 from rfl] at hstep
  have hold := TxExecution.indexEntries_of_view h₁
  have hnew := TxExecution.indexEntries_of_view h'
  by_cases heq : e.1 = e₀.1
  · rw [if_pos heq]
    rw [if_pos heq] at hstep
    rw [hnew, hstep, hold]
  · rw [if_neg heq]
    rw [if_neg heq] at hstep
    refine ⟨?_, fun hns => ?_⟩
    · rw [hnew, hstep.1, ← hold]
      refine (TxExecution.indexEntries_upsert _ x.keyno _ _).trans ?_
      exact congrArg (fun m => Function.update m e₀.1 none)
        (s₁.tx.indexEntries_upsert x.keyno _ _)
    · rw [← hold, TxExecution.indexEntries, Option.map_eq_none_iff]
      exact hstep.2 hns

/-- **`Delete` removes the entry of the row**, if the key of a unique index has a split. -/
theorem deleteIndexes_entries {old : h.TableRow} {key : Bytes} {uninit : ℕ → ℕ}
    (hx : x.key.nosame = true → h.table.tableHasHiddenPk = true ∨ x.missing ≠ [])
    (hr : (h.indexes.forM (h.deleteIndex svc old.record (h.table.hiddenPk key) uninit)).run s
      = .ok () s') :
    s'.tx.indexEntries x.keyno
      = Function.update (s.tx.indexEntries x.keyno) (h.skEntry (h.index x.keyno) key old).1
        none := by
  obtain ⟨s₁, s₂, h₁, h₂, h'⟩ :=
    indexes_step (h.writesOwn_deleteIndex svc _ _ _) (h.index_mem x) hr
  rw [TxExecution.indexEntries_of_view h', deleteIndex_ok h₂, eloqKey_eq x hx,
    ← TxExecution.indexEntries_of_view h₁]
  exact s₁.tx.indexEntries_upsert x.keyno _ _

end Loops

/-! ## Calls keep a transaction consistent -/

theorem live_base_upsert {h : Handler} {tx : TxExecution} {rows : h.Rows}
    (hbase : ∀ key, tx.live (.base, key)
      = (rows key).map fun row => (h.packKeyRecord row.record key).2)
    {tx' : TxExecution} (hview : TableName.base.view tx' = TableName.base.view tx) (key : Bytes)
    {e : WriteSetEntry} {row : Option h.TableRow}
    (he : e.live = row.map fun row => (h.packKeyRecord row.record key).2) (key' : Bytes) :
    (tx'.upsert (.base, key) e).live (.base, key')
      = (Function.update rows key row key').map fun row => (h.packKeyRecord row.record key').2 := by
  rw [TxExecution.live_upsert]
  by_cases hk : key' = key
  · rw [hk, update_self, update_self, he]
  · rw [update_of_ne (by simpa using hk), update_of_ne hk, live_of_view hview,
      hbase]

theorem indexEntries_upsert_base (tx : TxExecution) (key : Bytes) (e : WriteSetEntry) (kid : ℕ) :
    (tx.upsert (.base, key) e).indexEntries kid = tx.indexEntries kid :=
  TxExecution.indexEntries_of_view (view_upsert_of_ne TableName.noConfusion _ _ _)

/-- The row of a key may be written over without its entries being removed: they are those of the
new row in every index. -/
def MayReplace (rows : h.Rows) (key : Bytes) (row : h.TableRow) : Prop :=
  ∀ r, rows key = some r → ∀ x : Secondary h.table,
    h.skEntry (h.index x.keyno) key r = h.skEntry (h.index x.keyno) key row

namespace Consistent

variable {h} {svc : TxService} {s s' : HandlerState} {rows : h.Rows} {key : Bytes}
  {row old : h.TableRow}

theorem belongs_update (hc : h.Consistent s.tx rows) {row : Option h.TableRow}
    (hb : ∀ r ∈ row, h.Belongs key r) {k : Bytes} {r : h.TableRow}
    (hk : Function.update rows key row k = some r) : h.Belongs k r := by
  by_cases hkk : k = key
  · subst hkk
    rw [update_self] at hk
    exact hb r hk
  · rw [update_of_ne hkk] at hk
    exact hc.belongs hk

/-- A row that is not there has no entry under its key, if a unique index has been checked. -/
theorem entries_eq_none (hc : h.Consistent s.tx rows) (x : Secondary h.table)
    (hb : h.Belongs key row) (hk : rows key = none)
    (hu : x.key.nosame = true →
      s.tx.indexEntries x.keyno (h.skEntry (h.index x.keyno) key row).1 = none) :
    s.tx.indexEntries x.keyno (h.skEntry (h.index x.keyno) key row).1 = none := by
  by_cases hns : x.key.nosame = true
  · exact hu hns
  · have hblob := skEntry_snd x hns
    refine Option.eq_none_iff_forall_ne_some.mpr fun b hi => ?_
    obtain ⟨k, r, -, he⟩ := (hc.exact x _ _).mp hi
    obtain rfl : [] = b := (hblob k r).symm.trans (congrArg Prod.snd he)
    exact (hc.exact x).ne_some hc.belongs (h.separates_skEntry x) hb hk (by rw [hi, hblob])

/-- **`Insert` adds a row.** -/
theorem insert (hc : h.Consistent s.tx rows) (hb : h.Belongs key row)
    (hsafe : h.skipsPkCheck s.insertIdForCurRow = true → h.MayReplace rows key row)
    (hr : (h.insert svc row.record key (h.packKeyRecord row.record key).2).run s = .ok () s') :
    h.Consistent s'.tx (Function.update rows key (some row)) := by
  obtain ⟨⟨s₁, hloop, htx⟩, hpk⟩ := insert_ok hr
  rw [htx]
  refine ⟨hc.belongs_update (by simpa using hb), fun k => ?_, fun x => ?_⟩
  · exact live_base_upsert hc.base (indexes_base (h.writesOwn_insertIndex svc _ _) hloop) key rfl k
  · obtain ⟨hentries, hu⟩ := insertIndexes_entries x hloop
    rw [indexEntries_upsert_base, hentries]
    cases hk : rows key with
    | none => exact (hc.exact x).insert hk (hc.entries_eq_none x hb hk hu)
    | some r =>
      -- the key was not read, and the row that it has leaves nothing behind
      have hskip : h.skipsPkCheck s.insertIdForCurRow = true := by
        by_contra hskip
        have hlive := hpk (Bool.eq_false_iff.mpr hskip)
        rw [hc.base, hk] at hlive
        exact nomatch hlive
      have he := hsafe hskip r hk x
      have hmem := (hc.exact x).mem hk
      rw [he] at hmem
      rw [← hmem, Function.update_eq_self]
      exact (hc.exact x).replace_of_eq hk he.symm

/-- **`Delete` removes a row.** -/
theorem delete (hc : h.Consistent s.tx rows) (hx : h.Splits)
    (hk : rows key = some old) {uninit : ℕ → ℕ}
    (hr : (h.delete svc uninit old.record key).run s = .ok () s') :
    h.Consistent s'.tx (Function.update rows key none) := by
  obtain ⟨s₁, hloop, htx⟩ := loop_upsert_ok hr
  rw [htx]
  refine ⟨hc.belongs_update (by simp), fun k => ?_, fun x => ?_⟩
  · exact live_base_upsert hc.base (indexes_base (h.writesOwn_deleteIndex svc _ _ _) hloop) key rfl
      k
  · rw [indexEntries_upsert_base, deleteIndexes_entries x (hx x) hloop]
    exact (hc.exact x).erase hc.belongs (h.separates_skEntry x) hk

/-- Rows of one key have the same suffix in an index. -/
theorem suffix_eq (x : Secondary h.table) (hb : h.Belongs key row) (hb' : h.Belongs key old) :
    x.suffix row.record key = x.suffix old.record key := by
  rw [Table.Secondary.suffix, Table.Secondary.suffix]
  split_ifs with hh
  · rfl
  · rw [Belongs, if_neg hh] at hb hb'
    rw [Bool.not_eq_true] at hh
    have hpk := hb.symm.trans hb'
    rw [h.packPk_tuple hh, h.packPk_tuple hh] at hpk
    have hparts := h.partImage_eq_of_flatMap (fun p => h.table.wf_of_mem_pkParts) hpk
    exact flatMap_congr fun p hp => hparts p (x.pkPart_of_mem_missing hp)

/-- **`Update` replaces a row** by one with the same primary key. -/
theorem update (hc : h.Consistent s.tx rows) (hx : h.Splits)
    (hk : rows key = some old) (hb : h.Belongs key row)
    (hr : (h.update svc row.record old.record key (h.packKeyRecord row.record key).2).run s
      = .ok () s') :
    h.Consistent s'.tx (Function.update rows key (some row)) := by
  obtain ⟨s₁, hloop, htx⟩ := loop_upsert_ok hr
  rw [htx]
  refine ⟨hc.belongs_update (by simpa using hb), fun k => ?_, fun x => ?_⟩
  · exact live_base_upsert hc.base (indexes_base (h.writesOwn_updateIndex svc _ _ _) hloop) key rfl
      k
  · rw [indexEntries_upsert_base]
    have hentries := updateIndexes_entries x hloop
    have hex := hc.exact x
    simp only at hentries
    split_ifs at hentries with heq
    · -- the key is the same, and so is the record
      rw [hentries]
      refine hex.replace_of_eq hk (Prod.ext heq ?_)
      rw [skEntry_eq, skEntry_eq]
      split_ifs with hns hsplit
      · exact suffix_eq x hb (hc.belongs hk)
      · exact absurd (hx x hns) hsplit
      · rfl
    · rw [hentries.1]
      refine hex.replace hc.belongs (h.separates_skEntry x) hk heq ?_
      by_cases hns : x.key.nosame = true
      · exact hentries.2 hns
      · -- only the old row could have the new entry
        refine Option.eq_none_iff_forall_ne_some.mpr fun b hi => heq ?_
        obtain ⟨k, r, hkr, he⟩ := (hex _ _).mp hi
        have he' : h.skEntry (h.index x.keyno) k r = h.skEntry (h.index x.keyno) key row :=
          Prod.ext (by rw [he]) (by rw [skEntry_snd x hns, skEntry_snd x hns])
        obtain rfl := h.separates_skEntry x (hc.belongs hkr) hb he'
        rw [Option.some.inj (hk.symm.trans hkr), he']

/-- **The entry of a row that is written over stays**, if it is not that of the new row. -/
theorem entry_stays (hc : h.Consistent s.tx rows) (hx : h.Splits)
    {oldKey : Bytes} {r : h.TableRow} (hk : rows key = some r) (hold : rows oldKey = some old)
    (hne : key ≠ oldKey) {record : EloqRecord} {s₁ : HandlerState} {uninit : ℕ → ℕ}
    (hins : (h.insert svc row.record key record).run s = .ok () s₁)
    (hdel : (h.delete svc uninit old.record oldKey).run s₁ = .ok () s')
    {x : Secondary h.table}
    (hneq : h.skEntry (h.index x.keyno) key r ≠ h.skEntry (h.index x.keyno) key row) :
    s'.tx.indexEntries x.keyno (h.skEntry (h.index x.keyno) key r).1
      = some (h.skEntry (h.index x.keyno) key r).2 := by
  obtain ⟨⟨s₂, hloop, htx⟩, -⟩ := insert_ok hins
  obtain ⟨s₃, hdel, htx'⟩ := loop_upsert_ok hdel
  obtain ⟨hadd, hu⟩ := insertIndexes_entries x hloop
  have hmem := (hc.exact x).mem hk
  have hnew : (h.skEntry (h.index x.keyno) key r).1 ≠ (h.skEntry (h.index x.keyno) key row).1 := by
    intro heq
    by_cases hns : x.key.nosame = true
    · exact absurd ((hu hns).symm.trans (heq ▸ hmem)) (by simp)
    · exact hneq (Prod.ext heq (by rw [skEntry_snd x hns, skEntry_snd x hns]))
  have hnold : (h.skEntry (h.index x.keyno) key r).1
      ≠ (h.skEntry (h.index x.keyno) oldKey old).1 := by
    intro heq
    have hmem' := (hc.exact x).mem hold
    rw [← heq, hmem] at hmem'
    exact hne (h.separates_skEntry x (hc.belongs hk) (hc.belongs hold)
      (Prod.ext heq (Option.some.inj hmem')))
  rw [htx', indexEntries_upsert_base, deleteIndexes_entries x (hx x) hdel,
    update_of_ne hnold, htx, indexEntries_upsert_base, hadd, update_of_ne hnew,
    hmem]

end Consistent

/-! ## Runs -/

/-- A row belongs to the key that is packed for it. -/
theorem belongs_packKeyRecord {id : Bytes}
    (hid : h.table.tableHasHiddenPk = true → id.length = myUuidSize) (row : h.TableRow) :
    h.Belongs (h.packKeyRecord row.record id).1 row := by
  rw [Belongs, packKeyRecord]
  split_ifs with hh
  · exact hid hh
  · rfl

/-- A hidden primary key that a row is stored under is one. -/
theorem length_of_belongs {id : Bytes} {row : h.TableRow}
    (hb : h.Belongs (h.packKeyRecord row.record id).1 row) (hh : h.table.tableHasHiddenPk = true) :
    id.length = myUuidSize := by
  rwa [Belongs, if_pos hh, packKeyRecord, if_pos hh] at hb

/-- The record of a row does not depend on a hidden primary key. -/
theorem packKeyRecord_snd (r : Record) (id id' : Bytes) :
    (h.packKeyRecord r id).2 = (h.packKeyRecord r id').2 := by
  rw [packKeyRecord, packKeyRecord]
  split_ifs <;> rfl

/-- A call of the SQL layer, with its arguments and the answers of the service. -/
inductive Call where
  /-- With the row that `update_auto_increment` makes, and the key it generates for it. -/
  | writeRow (svc : TxService) (updateAutoIncrement : Record → Option (Record × ℕ))
      (uuid : HiddenPk) (buf : Record) (row : h.TableRow) (insertId : ℕ)
  | updateRow (svc : TxService) (uninit : ℕ → ℕ) (lastReadKey : Bytes) (old row : h.TableRow)
  | deleteRow (svc : TxService) (uninit : ℕ → ℕ) (lastReadKey : Bytes) (old : h.TableRow)
  /-- `ha_release_auto_increment`, at the end of a statement. -/
  | releaseAutoIncrement

namespace Call

variable {h}

/-- What the handler does. -/
def exec : h.Call → HandlerM Unit
  | writeRow svc updateAutoIncrement uuid buf _ _ => h.writeRow svc updateAutoIncrement uuid.1 buf
  | updateRow svc uninit lastReadKey old row =>
    h.updateRow svc uninit lastReadKey old.record row.record
  | deleteRow svc uninit lastReadKey old => h.deleteRow svc uninit lastReadKey old.record
  | releaseAutoIncrement => modify fun s => { s with insertIdForCurRow := 0 }

/-- What it is to do to the rows of the table. -/
def apply : h.Call → h.Rows → h.Rows
  | writeRow _ _ uuid _ row _, rows =>
    Function.update rows (h.packKeyRecord row.record uuid.1).1 (some row)
  | updateRow _ _ lastReadKey old row, rows =>
    Function.update (Function.update rows (h.packKeyRecord old.record lastReadKey).1 none)
      (h.packKeyRecord row.record lastReadKey).1 (some row)
  | deleteRow _ _ lastReadKey old, rows =>
    Function.update rows (h.packKeyRecord old.record lastReadKey).1 none
  | releaseAutoIncrement, rows => rows

/-- What the SQL layer promises: a row that is updated or deleted is given as it is stored, and a
key that was generated is new. -/
def Given : h.Call → h.Rows → Prop
  | writeRow _ updateAutoIncrement uuid buf row insertId, rows =>
    updateAutoIncrement buf = some (row.record, insertId) ∧
      (h.skipsPkCheck insertId = true → rows (h.packKeyRecord row.record uuid.1).1 = none)
  | updateRow _ _ lastReadKey old _, rows | deleteRow _ _ lastReadKey old, rows =>
    rows (h.packKeyRecord old.record lastReadKey).1 = some old
  | releaseAutoIncrement, _ => True

/-- An update that changes the primary key while that of an earlier row counts as generated:
`Insert` does not look for a row with the new key, so there must be none whose entries would stay.
-/
def Safe : h.Call → HandlerState → h.Rows → Prop
  | updateRow _ _ lastReadKey old row, s, rows =>
    h.skipsPkCheck s.insertIdForCurRow = true →
      (h.packKeyRecord row.record lastReadKey).1 ≠ (h.packKeyRecord old.record lastReadKey).1 →
      h.MayReplace rows (h.packKeyRecord row.record lastReadKey).1 row
  | _, _, _ => True

end Call

/-- **A call that returns 0**, on the transaction and on the rows it is to hold. -/
structure Step (call : h.Call) (c c' : HandlerState × h.Rows) : Prop where
  given : call.Given c.2
  exec : call.exec.run c.1 = .ok () c'.1
  apply : c'.2 = call.apply c.2

namespace Step

variable {h} {call : h.Call} {c c' : HandlerState × h.Rows}

/-- **A safe call that returns 0 keeps the transaction consistent.** -/
theorem consistent (hx : h.Splits) (hs : h.Step call c c') (hsafe : call.Safe c.1 c.2)
    (hc : h.Consistent c.1.tx c.2) : h.Consistent c'.1.tx c'.2 := by
  obtain ⟨hgiven, hr, happly⟩ := hs
  rw [happly]
  cases call with
  | writeRow svc auto uuid buf row insertId =>
    obtain ⟨hauto, hfresh⟩ := hgiven
    rw [Call.exec, writeRow, hauto] at hr
    have hr' : (h.insert svc row.record (h.packKeyRecord row.record uuid.1).1
        (h.packKeyRecord row.record uuid.1).2).run { c.1 with insertIdForCurRow := insertId }
        = _ := hr
    rw [h.packKeyRecord_snd _ uuid.1 (h.packKeyRecord row.record uuid.1).1] at hr'
    refine Consistent.insert (s := { c.1 with insertIdForCurRow := insertId }) hc
      (h.belongs_packKeyRecord (fun _ => uuid.2) row) (fun hskip r hk => ?_) hr'
    exact absurd ((hfresh hskip).symm.trans hk) (by simp)
  | updateRow svc uninit lastReadKey old row =>
    have hb := h.belongs_packKeyRecord (h.length_of_belongs (hc.belongs hgiven)) row
    rw [Call.exec] at hr
    rw [Call.apply]
    by_cases hne : (h.packKeyRecord row.record lastReadKey).1
        = (h.packKeyRecord old.record lastReadKey).1
    · rw [updateRow_of_eq hne, h.packKeyRecord_snd _ _ (h.packKeyRecord row.record _).1] at hr
      rw [hne] at hb hr ⊢
      rw [Function.update_idem]
      exact hc.update hx hgiven hb hr
    · obtain ⟨s₁, hins, hdel⟩ := (updateRow_ok_iff hne).mp hr
      rw [h.packKeyRecord_snd _ _ (h.packKeyRecord row.record _).1] at hins
      have hc₁ := hc.insert hb (fun hskip => hsafe hskip hne) hins
      rw [Function.update_comm (Ne.symm hne)]
      exact hc₁.delete hx (by rw [update_of_ne (Ne.symm hne)]; exact hgiven) hdel
  | deleteRow svc uninit lastReadKey old => exact hc.delete hx hgiven hr
  | releaseAutoIncrement =>
    obtain ⟨-, hs⟩ := EStateM.Result.ok.inj hr
    rw [← hs]
    exact hc

/-- **Only a safe call that returns 0 keeps the transaction consistent**: the entries of a row that
was written over stay. -/
theorem safe (hx : h.Splits) (hs : h.Step call c c') (hc : h.Consistent c.1.tx c.2)
    (hc' : h.Consistent c'.1.tx c'.2) : call.Safe c.1 c.2 := by
  obtain ⟨hgiven, hr, happly⟩ := hs
  cases call with
  | updateRow svc uninit lastReadKey old row =>
    intro _ hne r hk x
    obtain ⟨s₁, hins, hdel⟩ := (updateRow_ok_iff hne).mp hr
    by_contra hneq
    have hstays := hc.entry_stays hx hk hgiven hne hins hdel hneq
    obtain ⟨k, r', hk', he⟩ := (hc'.exact x _ _).mp hstays
    obtain rfl := h.separates_skEntry x (hc'.belongs hk') (hc.belongs hk) he
    rw [happly, Call.apply, update_self] at hk'
    cases hk'
    exact hneq he.symm
  | _ => trivial

end Step

/-- **Each secondary index holds exactly one entry per row of the base table, and no other.** The
missing primary key columns follow the columns of the index in the key, or are the record of a
unique one. -/
structure Mirrored (tx : TxExecution) (rows : h.Rows) : Prop where
  belongs : ∀ {key row}, rows key = some row → h.Belongs key row
  base : ∀ key, tx.live (.base, key)
    = (rows key).map fun row => (h.packKeyRecord row.record key).2
  bijOn : ∀ x : Secondary h.table,
    Set.BijOn (fun p : Bytes × h.TableRow =>
        if x.key.nosame = true then (x.declared p.2.record, x.suffix p.2.record p.1)
        else (x.declared p.2.record ++ x.suffix p.2.record p.1, []))
      {p | rows p.1 = some p.2} {e | tx.indexEntries x.keyno e.1 = some e.2}

section Mirrored

variable {h} (hx : ∀ x : Secondary h.table, x.key.nosame = true →
  h.table.tableHasHiddenPk = true ∨ x.missing ≠ [])

include hx

theorem mirrored_iff {tx : TxExecution} {rows : h.Rows} :
    h.Mirrored tx rows ↔ h.Consistent tx rows := by
  have hentry : ∀ x : Secondary h.table, ∀ p : Bytes × h.TableRow,
      (if x.key.nosame = true then (x.declared p.2.record, x.suffix p.2.record p.1)
        else (x.declared p.2.record ++ x.suffix p.2.record p.1, []))
      = h.skEntry (h.index x.keyno) p.1 p.2 := fun x p => by
    rw [skEntry_eq]
    split_ifs with hns hsplit
    · rfl
    · exact absurd (hx x hns) hsplit
    · rfl
  constructor
  · rintro ⟨hb, hbase, hbij⟩
    refine ⟨hb, hbase, fun x => (exact_iff_bijOn hb (h.separates_skEntry x)).mpr ?_⟩
    simpa only [hentry] using hbij x
  · rintro ⟨hb, hbase, hex⟩
    refine ⟨hb, hbase, fun x => ?_⟩
    simpa only [hentry] using (exact_iff_bijOn hb (h.separates_skEntry x)).mp (hex x)

/-- A run of safe calls keeps the transaction consistent. -/
theorem consistent_of_run {c c' : HandlerState × h.Rows}
    (hrun : Relation.ReflTransGen (fun c c' => ∃ call, h.Step call c c' ∧ call.Safe c.1 c.2) c c')
    (hc : h.Consistent c.1.tx c.2) : h.Consistent c'.1.tx c'.2 := by
  induction hrun with
  | refl => exact hc
  | tail _ hstep ih =>
    obtain ⟨call, hs, hsafe⟩ := hstep
    exact hs.consistent hx hsafe ih

/-- **A call that returns 0 keeps the indexes and the rows together exactly if it is safe**, so a
run of safe calls does. -/
theorem mirrored_of_run :
    (∀ {call c c'}, h.Step call c c' → h.Mirrored c.1.tx c.2 →
      (h.Mirrored c'.1.tx c'.2 ↔ call.Safe c.1 c.2)) ∧
    ∀ {c c'},
      Relation.ReflTransGen (fun c c' => ∃ call, h.Step call c c' ∧ call.Safe c.1 c.2) c c' →
        h.Mirrored c.1.tx c.2 → h.Mirrored c'.1.tx c'.2 := by
  refine ⟨fun hs hm => ?_, fun hrun hm => ?_⟩
  · rw [mirrored_iff hx] at hm ⊢
    exact ⟨hs.safe hx hm, fun hsafe => hs.consistent hx hsafe hm⟩
  · rw [mirrored_iff hx] at hm ⊢
    exact consistent_of_run hx hrun hm

end Mirrored

/-! ### A table to try this on -/

/-- `CREATE TABLE t (a INT AUTO_INCREMENT PRIMARY KEY, b INT UNIQUE, c INT NOT NULL UNIQUE)`. -/
def sample : Handler where
  table := TableShare.toTable
    { fields := 3
      field := fun i => Table.intField (i == 1)
      keyInfo := [0, 1, 2].map fun i => ⟨true, [⟨i, 4, false⟩], [⟨i, 4, false⟩]⟩
      primaryKey := some 0 } (by decide)
  unset := fun _ => 0
  encode := fun r => (r 1).bytes ++ (r 2).bytes
  dirty := []
  isInsertSemantic := true
  nextNumberIndex := 0

/-- A row of the table. -/
def sampleRow (a : UInt8) (b : Option UInt8) (c : UInt8) : sample.TableRow where
  record i :=
    match i with
    | 0 => ⟨false, [a, 0, 0, 0]⟩
    | 1 => ⟨b.isNone, [b.getD 0, 0, 0, 0]⟩
    | _ => ⟨false, [c, 0, 0, 0]⟩
  valid i hi :=
    match i, hi with
    | 0, _ | 2, _ => rfl
    | 1, _ => by cases b <;> rfl

/-- An empty database. -/
def emptyState : HandlerState := ⟨⟨fun _ => none, fun _ => none⟩, none, none, none, 0⟩

namespace Call

variable {h} (call : h.Call) (s : HandlerState)

/-- Whether a call returns 0. -/
def returnsZero : Bool :=
  match call.exec.run s with
  | .ok _ _ => true
  | .error _ _ => false

/-- The state that a call leaves. -/
def after : HandlerState :=
  match call.exec.run s with
  | .ok _ s' | .error _ s' => s'

variable {call s}

theorem step_after {rows : h.Rows} (hg : call.Given rows) (hz : call.returnsZero s = true) :
    h.Step call (s, rows) (call.after s, call.apply rows) := by
  refine ⟨hg, ?_, rfl⟩
  simp only [returnsZero, after] at hz ⊢
  cases hr : call.exec.run s with
  | ok u s' => rfl
  | error e s' => simp [hr] at hz

/-- `INSERT` of a row whose `a` is generated. -/
def sampleInsert (a : UInt8) (b : Option UInt8) (c : UInt8) : sample.Call :=
  writeRow .reliable (fun buf => some (buf, a.toNat)) ⟨replicate myUuidSize 0, by decide⟩
    (sampleRow a b c).record (sampleRow a b c) a.toNat

/-- The rows `(1, 10, 11)` and `(2, 20, 21)`. -/
def sampleTwoRows : HandlerState × sample.Rows :=
  ((sampleInsert 2 (some 20) 21).after ((sampleInsert 1 (some 10) 11).after emptyState),
    (sampleInsert 2 (some 20) 21).apply ((sampleInsert 1 (some 10) 11).apply fun _ => none))

theorem run_sampleTwoRows : Relation.ReflTransGen
    (fun c c' => ∃ call : sample.Call, sample.Step call c c' ∧ call.Safe c.1 c.2)
    (emptyState, fun _ => none) sampleTwoRows := by
  have h₁ : sample.Step (sampleInsert 1 (some 10) 11) (emptyState, fun _ => none) _ :=
    step_after ⟨rfl, fun _ => rfl⟩ (by decide +kernel)
  have hfree : (sampleInsert 1 (some 10) 11).apply (fun _ => none)
      (sample.packKeyRecord (sampleRow 2 (some 20) 21).record (replicate myUuidSize 0)).1
      = none := by
    rw [sampleInsert, apply]
    refine update_of_ne ?_ _ _
    decide +kernel
  have h₂ : sample.Step (sampleInsert 2 (some 20) 21) _ _ := step_after ⟨rfl, fun _ => hfree⟩
    (show (sampleInsert 2 (some 20) 21).returnsZero
      ((sampleInsert 1 (some 10) 11).after emptyState) = true by decide +kernel)
  exact (Relation.ReflTransGen.single ⟨_, h₁, trivial⟩).tail ⟨_, h₂, trivial⟩

theorem sampleTwoRows_apply (k : Bytes) : sampleTwoRows.2 k
    = if k = (sample.packPk (sampleRow 2 (some 20) 21).record).tuple then
        some (sampleRow 2 (some 20) 21)
      else if k = (sample.packPk (sampleRow 1 (some 10) 11).record).tuple then
        some (sampleRow 1 (some 10) 11)
      else none := by
  simp only [sampleTwoRows, sampleInsert, apply, Function.update_apply]
  rfl

/-- `UPDATE` of the first row to `(2, 30, 31)`. -/
def sampleUpdate : sample.Call :=
  updateRow .reliable (fun _ => 0) [] (sampleRow 1 (some 10) 11) (sampleRow 2 (some 30) 31)

theorem step_sampleUpdate : sample.Step sampleUpdate sampleTwoRows
    (sampleUpdate.after sampleTwoRows.1, sampleUpdate.apply sampleTwoRows.2) := by
  have hold : sampleUpdate.Given sampleTwoRows.2 := by
    refine (sampleTwoRows_apply _).trans ?_
    rw [if_neg (by decide +kernel)]
    exact if_pos rfl
  exact step_after hold (by decide +kernel)

end Call

theorem sample_secondary (x : Secondary sample.table) :
    x = ⟨1, by decide, by decide⟩ ∨ x = ⟨2, by decide, by decide⟩ := by
  obtain ⟨kid, hlt, hne⟩ := x
  match kid, hlt, hne with
  | 0, _, hne => exact absurd rfl hne
  | 1, _, _ => exact Or.inl rfl
  | 2, _, _ => exact Or.inr rfl

theorem sample_splits (x : Secondary sample.table) (_ : x.key.nosame = true) :
    sample.table.tableHasHiddenPk = true ∨ x.missing ≠ [] := by
  rcases sample_secondary x with rfl | rfl <;> exact Or.inr (by decide +kernel)

theorem mirrored_empty : sample.Mirrored emptyState.tx fun _ => none :=
  (mirrored_iff sample_splits).mpr ⟨nofun, fun _ => rfl, fun x i b => by
    simp [TxExecution.indexEntries, TxExecution.live, emptyState]⟩

/-- Two inserts fill the indexes. -/
theorem mirrored_sampleTwoRows : sample.Mirrored Call.sampleTwoRows.1.tx Call.sampleTwoRows.2 :=
  (mirrored_of_run sample_splits).2 Call.run_sampleTwoRows mirrored_empty

/-- **An update in a statement that has generated a key writes over another row**, whose entries
stay: every call returned 0, and the index of `b` has an entry for 20. -/
theorem not_mirrored_sampleUpdate : ∃ c' : HandlerState × sample.Rows,
    Relation.ReflTransGen (fun c c' => ∃ call, sample.Step call c c')
      (emptyState, fun _ => none) c' ∧ sample.Mirrored emptyState.tx (fun _ => none) ∧
        ¬ sample.Mirrored c'.1.tx c'.2 := by
  have hrun : Relation.ReflTransGen (fun c c' => ∃ call, sample.Step call c c')
      (emptyState, fun _ => none) Call.sampleTwoRows :=
    Relation.ReflTransGen.mono (fun _ _ hs => hs.imp fun _ => And.left) _ _ Call.run_sampleTwoRows
  refine ⟨_, hrun.tail ⟨_, Call.step_sampleUpdate⟩, mirrored_empty, fun hm => ?_⟩
  have hc := consistent_of_run sample_splits Call.run_sampleTwoRows
    ((mirrored_iff sample_splits).mp mirrored_empty)
  have hsafe := Call.step_sampleUpdate.safe sample_splits hc ((mirrored_iff sample_splits).mp hm)
  have he := hsafe (by decide) (by decide +kernel) (sampleRow 2 (some 20) 21)
    ((Call.sampleTwoRows_apply _).trans (if_pos (by decide +kernel))) ⟨1, by decide, by decide⟩
  exact absurd he (by decide +kernel)

end Handler

end EloqSql
