import EloqSql.Handler.Bulk.Aligned
import EloqSql.Handler.Unique
import EloqSql.Lib.Deferred

/-!
# Handler/Bulk/Refine — a bulk insert is an insert row by row

`Insert` reads the keys of each row before it writes the row. A bulk insert finds the keys that the
transaction has written itself at once, and reads the others for a whole batch, as they were before
the rows of the batch. The two report a duplicate for the same rows (`Deferred.seqFresh_iff`), and
what they write is the same.
-/

namespace EloqSql

open Deferred List
open Handler (emptyState sample)
open BulkEntry (key)

namespace BulkHandler

variable (h : BulkHandler)

/-! ## The service -/

/-- The write set holds a live entry for the key. -/
def own (tx : TxExecution) (k : TableName × Bytes) : Prop :=
  ((tx.writeSet k).bind WriteSetEntry.live).isSome = true

instance (tx : TxExecution) (k : TableName × Bytes) : Decidable (own tx k) :=
  inferInstanceAs (Decidable (_ = true))

/-- A read of the key finds a record. -/
def isLive (tx : TxExecution) (k : TableName × Bytes) : Prop := (tx.live k).isSome = true

/-- **The service of a bulk insert**: `TxUpsert` with the check flag fails exactly if the write set
holds a live entry for the key, and the batch read reports `Normal` exactly for the keys that were
live before the rows in the buffers were written. -/
def service : BulkService where
  plain := .reliable
  upsert tx k check := if check ∧ own tx k then some .duplicateKey else none
  batchRead s name keys := .ok fun i => (s.before.live (name, keys.getD i [])).isSome

/-! ## Rows -/

/-- A row of an `INSERT`, with its auto-increment column, and the key it gets without a primary
key. -/
structure InsertRow where
  buf : Record
  insertIdForCurRow : ℕ
  uuid : Bytes

variable (r : InsertRow)

/-- The primary key of a row. -/
def rowKey : Bytes := (h.packKeyRecord r.buf r.uuid).1

/-- The key of a row in an index. -/
def rowSk (ix : IndexRef) : Bytes := h.newKey r.buf (h.table.hiddenPk (h.rowKey r)) ix

/-- The keys of a row that must not be there yet. -/
def rowKeys (k : TableName × Bytes) : Prop :=
  k = (.base, h.rowKey r) ∨ ∃ ix ∈ h.indexes, ix.isUniqueSk = true ∧ k = (ix.name, h.rowSk r ix)

/-- The keys that a row is written under. -/
def rowWrites (k : TableName × Bytes) : Prop :=
  k = (.base, h.rowKey r) ∨ ∃ ix ∈ h.indexes, k = (ix.name, h.rowSk r ix)

/-- The transaction with the row. -/
def rowTx (tx : TxExecution) (r : InsertRow) : TxExecution :=
  (h.writtenTx r.buf (h.table.hiddenPk (h.rowKey r)) h.indexes tx).upsert (.base, h.rowKey r)
    ⟨.insert, some (h.packKeyRecord r.buf r.uuid).2⟩

/-- `insert_id_for_cur_row` of a row: only a table with an auto-increment column generates one. -/
def insertId (r : InsertRow) : ℕ := if h.foundNextNumberField then r.insertIdForCurRow else 0

/-- `write_row`, one row after the other. -/
def writeRows (rows : List InsertRow) : BulkM Unit :=
  rows.forM fun r =>
    h.writeRow service (fun _ => some (r.buf, h.insertId r)) r.uuid r.buf

/-- `Insert`, one row after the other. -/
def insertRows (rows : List InsertRow) : HandlerM Unit :=
  rows.forM fun r =>
    h.toHandler.writeRow .reliable (fun _ => some (r.buf, h.insertId r)) r.uuid r.buf

/-- What `write_row` says for the rows, up to the first that fails. -/
def bulkRows (s : HandlerState) (rows : List InsertRow) :
    EStateM.Result BulkError BulkState Unit :=
  (h.writeRows rows).run (h.startBulkInsert (.idle s true))

/-- What `end_bulk_insert` says after them. -/
def bulkEnd (s : HandlerState) (rows : List InsertRow) : EStateM.Result BulkError BulkState Unit :=
  (h.endBulkInsert service).run (stateOf (h.bulkRows s rows))

/-- **The bulk insert reports a duplicate.** -/
def BulkDuplicate (s : HandlerState) (rows : List InsertRow) : Prop :=
  (∃ t, h.bulkRows s rows = .error (.ha .foundDuppKey) t) ∨
    ∃ t, h.bulkEnd s rows = .error (.ha .foundDuppKey) t

/-- **A bulk insert refines the insert row by row**: both report a duplicate, or neither does, both
end well and leave the same write set. -/
structure Refines (s : HandlerState) (rows : List InsertRow) : Prop where
  duplicate : h.BulkDuplicate s rows ↔ ∃ t, (h.insertRows rows).run s = .error .foundDuppKey t
  writeSet : ∀ t, (h.insertRows rows).run s = .ok () t → ∃ t₁ t₂, h.bulkRows s rows = .ok () t₁ ∧
    h.bulkEnd s rows = .ok () t₂ ∧ t₂.tx.writeSet = t.tx.writeSet

/-! ## What a row does to the keys -/

/-- An insert makes its key live, and the transaction's own. -/
def Inserts (P : TxExecution → TableName × Bytes → Prop) : Prop :=
  ∀ tx k record k', P (tx.upsert k ⟨.insert, some record⟩) k' ↔ P tx k' ∨ k' = k

theorem inserts_isLive : Inserts isLive := by
  intro tx k record k'
  unfold isLive
  rw [TxExecution.live_upsert]
  by_cases hk : k' = k
  · subst hk
    simp [WriteSetEntry.live]
  · simp [hk]

theorem inserts_own : Inserts own := by
  intro tx k record k'
  unfold own TxExecution.upsert
  by_cases hk : k' = k
  · subst hk
    simp [WriteSetEntry.live]
  · simp [hk]

theorem own_isLive {tx : TxExecution} {k : TableName × Bytes} (hown : own tx k) : isLive tx k := by
  unfold own at hown
  unfold isLive TxExecution.live
  cases hk : tx.writeSet k with
  | none => simp [hk] at hown
  | some e => simpa [hk] using hown

variable {h r}

/-- The entries of a row in some of the indexes. -/
theorem Inserts.writtenTx {P : TxExecution → TableName × Bytes → Prop} (hP : Inserts P)
    (buf : Record) (hiddenPk : Option Bytes) (ixs : List IndexRef) (tx : TxExecution)
    (k : TableName × Bytes) : P (h.writtenTx buf hiddenPk ixs tx) k ↔
      P tx k ∨ ∃ ix ∈ ixs, k = (ix.name, h.newKey buf hiddenPk ix) := by
  unfold BulkHandler.writtenTx
  induction ixs generalizing tx with
  | nil => simp
  | cons ix ixs ih =>
    rw [foldl_cons, ih, exists_mem_cons_iff, ← or_assoc]
    exact or_congr_left (hP ..)

theorem Inserts.rowTx {P : TxExecution → TableName × Bytes → Prop} (hP : Inserts P)
    (tx : TxExecution) (r : InsertRow) (k : TableName × Bytes) :
    P (h.rowTx tx r) k ↔ P tx k ∨ h.rowWrites r k := by
  unfold BulkHandler.rowTx rowWrites
  rw [hP, hP.writtenTx, or_assoc]
  exact or_congr_right or_comm

/-- **Rows make their keys live, and the transaction's own.** -/
theorem grows : Grows isLive own h.rowWrites h.rowTx :=
  ⟨fun _ _ => own_isLive, inserts_isLive.rowTx, inserts_own.rowTx⟩

/-! ## Row by row -/

section RowByRow

variable {s s' : HandlerState} (hcheck : h.checkPrimaryKey = true)

include hcheck

/-- The primary key is checked, whatever the auto-increment column is. -/
theorem skipsPkCheck_eq (r : InsertRow) : h.skipsPkCheck (h.insertId r) = false := by
  unfold checkPrimaryKey at hcheck
  simp only [Bool.and_eq_true, Bool.not_eq_true', Bool.and_eq_false_iff] at hcheck
  obtain ⟨⟨hsem, hpk⟩, hnext⟩ := hcheck
  have hne : (h.table.primaryKey == some h.nextNumberIndex && h.insertId r != 0) = false := by
    by_cases heq : h.table.primaryKey = some h.nextNumberIndex
    · -- the key `next_number_index` of a table without an auto-increment column
      have hfound : h.foundNextNumberField = false := by
        by_contra hfound
        rw [h.isNextNumber_of_found (Bool.eq_true_of_not_eq_false hfound) heq] at hnext
        simp [heq] at hnext
      simp [insertId, hfound]
    · simp [heq]
  unfold Handler.skipsPkCheck
  rw [hsem, hne, Option.isNone_eq_false_iff.2 hpk]
  rfl

/-- **`Insert` of a row succeeds exactly if its keys are fresh**, and has written the row; otherwise
it reports a duplicate. -/
theorem insertRow_run (r : InsertRow) (s : HandlerState) :
    (Fresh isLive h.rowKeys s.tx r → ∃ s', (h.toHandler.writeRow .reliable
      (fun _ => some (r.buf, h.insertId r)) r.uuid r.buf).run s = .ok () s' ∧
        s'.tx = h.rowTx s.tx r) ∧
    (¬ Fresh isLive h.rowKeys s.tx r → ∃ s', (h.toHandler.writeRow .reliable
      (fun _ => some (r.buf, h.insertId r)) r.uuid r.buf).run s =
        .error .foundDuppKey s') := by
  have hrun : (h.toHandler.writeRow .reliable (fun _ => some (r.buf, h.insertId r)) r.uuid
      r.buf).run s = (h.insert .reliable r.buf (h.rowKey r) (h.packKeyRecord r.buf r.uuid).2).run
        { s with insertIdForCurRow := h.insertId r } := rfl
  have hfresh : (∃ s', (h.insert .reliable r.buf (h.rowKey r) (h.packKeyRecord r.buf r.uuid).2).run
      { s with insertIdForCurRow := h.insertId r } = .ok () s') ↔
        Fresh isLive h.rowKeys s.tx r := by
    rw [Handler.insert_ok_iff]
    simp only [skipsPkCheck_eq hcheck, true_and]
    constructor
    · rintro ⟨hpk, hsk⟩ k (rfl | ⟨ix, hix, hu, rfl⟩)
      · exact hpk
      · exact fun hc => hsk ix hix ⟨hu, hc⟩
    · intro hf
      exact ⟨hf _ (.inl rfl), fun ix hix hc => hf _ (.inr ⟨ix, hix, hc.1, rfl⟩) hc.2⟩
  rw [hrun, ← hfresh]
  refine ⟨fun ⟨s', hs'⟩ => ⟨s', hs', ?_⟩, fun hno => Handler.insert_dupp_iff_not_ok.2 hno⟩
  obtain ⟨⟨s₁, hloop, htx⟩, -⟩ := Handler.insert_ok hs'
  rw [htx]
  have hwritten : s₁.tx = h.writtenTx r.buf (h.table.hiddenPk (h.rowKey r)) h.indexes s.tx := by
    refine Loop.invariant (P := fun done t => t.tx = h.writtenTx r.buf
      (h.table.hiddenPk (h.rowKey r)) done s.tx) (fun done ix t t' ht hix => ?_)
      (show s.tx = h.writtenTx r.buf (h.table.hiddenPk (h.rowKey r)) [] s.tx from rfl) hloop
    rw [(Handler.insertIndex_ok hix).1, ht]
    unfold writtenTx
    rw [foldl_append]
    rfl
  rw [hwritten]
  rfl

/-- **`Insert` row by row** succeeds exactly if each row is fresh in its turn. -/
theorem insertRows_run : ∀ (rows : List InsertRow) (s : HandlerState),
    (SeqFresh isLive h.rowKeys h.rowTx s.tx rows → ∃ s', (h.insertRows rows).run s = .ok () s' ∧
      s'.tx = writeAll h.rowTx s.tx rows) ∧
    (¬ SeqFresh isLive h.rowKeys h.rowTx s.tx rows →
      ∃ s', (h.insertRows rows).run s = .error .foundDuppKey s')
  | [], s => ⟨fun _ => ⟨s, rfl, rfl⟩, fun hno => absurd trivial hno⟩
  | r :: rows, s => by
      obtain ⟨hok, herr⟩ := insertRow_run hcheck r s
      unfold insertRows
      rw [Loop.forM_cons_eq, SeqFresh]
      by_cases hr : Fresh isLive h.rowKeys s.tx r
      · obtain ⟨s₁, hs₁, htx⟩ := hok hr
        rw [hs₁, and_iff_right hr]
        have ih := insertRows_run rows s₁
        rw [htx] at ih
        exact ih
      · obtain ⟨s₁, hs₁⟩ := herr hr
        rw [hs₁]
        exact ⟨fun hc => absurd hc.1 hr, fun _ => ⟨s₁, rfl⟩⟩

end RowByRow

/-! ## A row of a bulk insert -/

section BulkRow

variable {s : BulkState} {buf : Record} {hiddenPk : Option Bytes}

/-- A turn of `BulkInsert` fails: the transaction has the key, or there is no buffer for it. -/
def Refused (h : BulkHandler) (buf : Record) (hiddenPk : Option Bytes) (ix : IndexRef)
    (s : BulkState) : Prop :=
  ix.isUniqueSk = true ∧ (own s.tx (ix.name, h.newKey buf hiddenPk ix) ∨ ix.name ∉ s.skNames)

theorem bulkInsertIndex_service (ix : IndexRef) (s : BulkState) :
    (∃ s', (h.bulkInsertIndex service buf hiddenPk ix).run s = .ok () s') ↔
      ¬ Refused h buf hiddenPk ix s := by
  rw [bulkInsertIndex_run]
  unfold Refused service
  by_cases hu : ix.isUniqueSk = true
  · by_cases hmem : ix.name ∈ s.skNames
    · by_cases hown : own s.tx (ix.name, h.newKey buf hiddenPk ix) <;> simp [hu, hmem, hown]
    · simp [hu, hmem]
  · simp [hu]

/-- No turn changes what the others find. -/
theorem refused_of_run {ix ix' : IndexRef} {s s' : BulkState} (hne : ix.name ≠ ix'.name)
    (hr : (h.bulkInsertIndex service buf hiddenPk ix).run s = .ok () s') :
    Refused h buf hiddenPk ix' s' ↔ Refused h buf hiddenPk ix' s := by
  obtain rfl := bulkInsertIndex_ok hr
  have hown : own (h.written buf hiddenPk [ix] s).tx (ix'.name, h.newKey buf hiddenPk ix') ↔
      own s.tx (ix'.name, h.newKey buf hiddenPk ix') := by
    refine (inserts_own.writtenTx buf hiddenPk [ix] s.tx _).trans (or_iff_left ?_)
    rintro ⟨j, hj, heq⟩
    rw [mem_singleton.1 hj] at heq
    exact hne (Prod.mk.inj heq).1.symm
  unfold Refused
  rw [hown]
  rfl

/-- **The loop of `BulkInsert`** succeeds exactly if the transaction has no key of the row. -/
theorem bulkInsertIndexes_service (hr : h.Running s) :
    (∃ s', (h.indexes.forM (h.bulkInsertIndex service buf hiddenPk)).run s = .ok () s') ↔
      ∀ ix ∈ h.indexes, ix.isUniqueSk = true → ¬ own s.tx (ix.name, h.newKey buf hiddenPk ix) := by
  rw [Loop.ok_iff (fun ix s => bulkInsertIndex_service ix s)
    (fun _ _ _ _ hne hrun => refused_of_run hne hrun) h.pairwise_indexes]
  refine forall₂_congr fun ix hix => ?_
  unfold Refused
  constructor
  · exact fun hno hu hown => hno ⟨hu, .inl hown⟩
  · rintro hno ⟨hu, hown | hmem⟩
    · exact hno hu hown
    · exact hmem (hr.mem_of_isUniqueSk hix hu)

theorem bulkInsertIndexes_error (hr : h.Running s) {e : BulkError} {s' : BulkState}
    (hrun : (h.indexes.forM (h.bulkInsertIndex service buf hiddenPk)).run s = .error e s') :
    e = .ha .foundDuppKey := by
  obtain ⟨done, ix, rest, s₁, hsplit, hdone, hix⟩ := Loop.error_split hrun
  obtain rfl := bulkInsertIndexes_ok hdone
  have hmem : ¬ (ix.isUniqueSk = true ∧ ix.name ∉ (h.written buf hiddenPk done s).skNames) :=
    fun hc => hc.2 (hr.mem_of_isUniqueSk (by simp [hsplit]) hc.1)
  rw [bulkInsertIndex_run, if_neg hmem] at hix
  unfold service at hix
  dsimp only at hix
  by_cases hown : ix.isUniqueSk = true ∧
      own (h.written buf hiddenPk done s).tx (ix.name, h.newKey buf hiddenPk ix)
  · rw [if_pos hown] at hix
    simp only [hown.1, if_true] at hix
    exact (EStateM.Result.error.inj hix).1.symm
  · rw [if_neg hown] at hix
    exact nomatch hix

/-- **A row is written, or reported as a duplicate of one the transaction has written.** -/
theorem bulkInsertRow_service (hr : h.Running s) (r : InsertRow) :
    (Fresh own h.rowKeys s.tx r →
      (h.bulkInsertRow service r.buf (h.rowKey r) (h.packKeyRecord r.buf r.uuid).2).run s =
        .ok () (h.rowWritten r.buf (h.rowKey r) (h.packKeyRecord r.buf r.uuid).2 s)) ∧
    (¬ Fresh own h.rowKeys s.tx r → ∃ t,
      (h.bulkInsertRow service r.buf (h.rowKey r) (h.packKeyRecord r.buf r.uuid).2).run s =
        .error (.ha .foundDuppKey) t) := by
  have hfresh : Fresh own h.rowKeys s.tx r ↔ (∀ ix ∈ h.indexes, ix.isUniqueSk = true →
      ¬ own s.tx (ix.name, h.rowSk r ix)) ∧ ¬ own s.tx (.base, h.rowKey r) := by
    constructor
    · exact fun hf => ⟨fun ix hix hu => hf _ (.inr ⟨ix, hix, hu, rfl⟩), hf _ (.inl rfl)⟩
    · rintro ⟨hsk, hpk⟩ k (rfl | ⟨ix, hix, hu, rfl⟩)
      · exact hpk
      · exact hsk ix hix hu
  have hsk : (∃ s', (h.indexes.forM (h.bulkInsertIndex service r.buf
      (h.table.hiddenPk (h.rowKey r)))).run s = .ok () s') ↔ ∀ ix ∈ h.indexes,
        ix.isUniqueSk = true → ¬ own s.tx (ix.name, h.rowSk r ix) := bulkInsertIndexes_service hr
  rw [bulkInsertRow_run hr.check, hfresh, ← hsk]
  cases hloop : (h.indexes.forM
      (h.bulkInsertIndex service r.buf (h.table.hiddenPk (h.rowKey r)))).run s with
  | error e s₁ =>
    rw [bulkInsertIndexes_error hr hloop]
    exact ⟨(fun hc => nomatch hc.1), fun _ => ⟨s₁, rfl⟩⟩
  | ok u s₁ =>
    obtain rfl := bulkInsertIndexes_ok hloop
    have hown : own (h.written r.buf (h.table.hiddenPk (h.rowKey r)) h.indexes s).tx
        (.base, h.rowKey r) ↔ own s.tx (.base, h.rowKey r) := by
      refine (inserts_own.writtenTx _ _ h.indexes s.tx _).trans (or_iff_left ?_)
      rintro ⟨ix, hix, heq⟩
      exact h.name_ne_base hix (Prod.mk.inj heq).1.symm
    simp only [service, true_and, hown]
    by_cases hbase : own s.tx (.base, h.rowKey r)
    · simp only [hbase, if_true]
      exact ⟨fun hc => absurd trivial hc.2, fun _ => ⟨_, rfl⟩⟩
    · simp only [hbase, if_false]
      exact ⟨fun _ => trivial, fun hc => absurd ⟨⟨_, rfl⟩, not_false⟩ hc⟩

end BulkRow

/-! ## The check of a batch -/

section Batch

variable {s : BulkState} {n : ℕ}

/-- **The batch read of a buffer** finds the keys that were live before. -/
theorem found_service (s : BulkState) (name : TableName) {buffer : List BulkEntry}
    (hn : buffer.length = n) :
    ((∀ e ∈ buffer, ¬ isLive s.before (name, e.key)) ∧ found service s n name buffer = none) ∨
      (∃ e ∈ buffer, isLive s.before (name, e.key)) ∧
        found service s n name buffer = some .foundDuppKey := by
  have hany : (range n).any (fun i => (s.before.live
      (name, ((buffer.take n).map key).getD i [])).isSome) = true ↔
        ∃ e ∈ buffer, isLive s.before (name, e.key) := by
    rw [take_of_length_le hn.le, any_eq_true]
    constructor
    · rintro ⟨i, hi, hlive⟩
      have hi' : i < buffer.length := hn ▸ mem_range.1 hi
      refine ⟨buffer[i], getElem_mem hi', ?_⟩
      simpa [isLive, getD_eq_getElem?_getD, hi'] using hlive
    · rintro ⟨e, he, hlive⟩
      obtain ⟨i, hi, rfl⟩ := getElem_of_mem he
      refine ⟨i, mem_range.2 (hn ▸ hi), ?_⟩
      simpa [isLive, getD_eq_getElem?_getD, hi] using hlive
  unfold found service
  dsimp only
  by_cases hlive : ∃ e ∈ buffer, isLive s.before (name, e.key)
  · exact .inr ⟨hlive, if_pos (hany.2 hlive)⟩
  · refine .inl ⟨fun e he hc => hlive ⟨e, he, hc⟩, if_neg fun hc => hlive (hany.1 hc)⟩

/-- **The buffers of the indexes are emptied, or a key in them is reported.** -/
theorem checkSks_service : ∀ (names : List TableName) (s : BulkState), names.Nodup →
    (∀ name ∈ names, (s.skBuffer name).length = n) →
    ((∀ name ∈ names, ∀ e ∈ s.skBuffer name, ¬ isLive s.before (name, e.key)) →
      (names.forM (checkSk service n)).run s =
        .ok () { s with skBuffer := fun name => if name ∈ names then [] else s.skBuffer name }) ∧
    ((∃ name ∈ names, ∃ e ∈ s.skBuffer name, isLive s.before (name, e.key)) →
      ∃ t, (names.forM (checkSk service n)).run s = .error (.ha .foundDuppKey) t)
  | [], s, _, _ => ⟨fun _ => rfl, fun ⟨_, hname, _⟩ => nomatch hname⟩
  | name :: names, s, hnodup, hlen => by
      obtain ⟨hname, hnodup⟩ := nodup_cons.1 hnodup
      have hn := hlen name mem_cons_self
      rw [Loop.forM_cons_eq, checkSk_run, if_pos hn.ge]
      rcases found_service s name hn with ⟨hno, hfound⟩ | ⟨hlive, hfound⟩
      · rw [noted_of_found hfound, hfound]
        have hkeep : ∀ nm ∈ names, Function.update s.skBuffer name [] nm = s.skBuffer nm := by
          intro nm hnm
          have hne : nm ≠ name := fun heq => hname (heq ▸ hnm)
          exact Function.update_of_ne hne ..
        obtain ⟨hok, herr⟩ := checkSks_service names
          { s with skBuffer := Function.update s.skBuffer name [] } hnodup fun nm hnm =>
            (congrArg List.length (hkeep nm hnm)).trans (hlen nm (mem_cons_of_mem name hnm))
        refine ⟨fun hall => ?_, fun ⟨nm, hnm, e, he, hc⟩ => herr ?_⟩
        · refine (hok fun nm hnm e he => ?_).trans ?_
          · exact hall nm (mem_cons_of_mem name hnm) e (hkeep nm hnm ▸ he)
          · congr 2
            funext nm
            by_cases hnm : nm = name <;> simp [hnm]
        · rcases mem_cons.1 hnm with rfl | hnm
          · exact absurd hc (hno e he)
          · exact ⟨nm, hnm, e, (congrArg (e ∈ ·) (hkeep nm hnm)).mpr he, hc⟩
      · rw [hfound]
        exact ⟨fun hno => absurd hlive fun ⟨e, he, hc⟩ => hno name mem_cons_self e he hc,
          fun _ => ⟨_, rfl⟩⟩

end Batch

/-! ## The rows in the buffers -/

/-- **The buffers hold the rows that were written since a transaction.** -/
structure Holding (h : BulkHandler) (tx₀ : TxExecution) (rows : List InsertRow) (s : BulkState) :
    Prop where
  running : h.Running s
  pk : s.pkBuffer.map key = rows.map h.rowKey
  sk : ∀ ix ∈ h.indexes, ix.isUniqueSk = true →
    (s.skBuffer ix.name).map key = rows.map fun r => h.rowSk r ix
  tx : s.tx = writeAll h.rowTx tx₀ rows
  before : rows ≠ [] → s.before = tx₀

namespace Holding

variable {tx₀ : TxExecution} {rows : List InsertRow} {s : BulkState}

section

variable (hs : h.Holding tx₀ rows s)

include hs

theorem length : s.pkBuffer.length = rows.length := by
  rw [← length_map key, hs.pk, length_map]

/-- A row begins. -/
theorem beginRow (insertIdForCurRow : ℕ) : h.Holding tx₀ rows (beginRow insertIdForCurRow s) ∧
      (BulkHandler.beginRow insertIdForCurRow s).before = tx₀ := by
  have hbefore : (BulkHandler.beginRow insertIdForCurRow s).before = tx₀ := by
    change (if s.pkBuffer = [] then s.tx else s.before) = tx₀
    split_ifs with hpk
    · have hnil : rows = [] := by
        rw [← length_eq_zero_iff, ← hs.length, hpk]
        rfl
      rw [hs.tx, hnil]
      rfl
    · refine hs.before fun hnil => hpk ?_
      rw [← length_eq_zero_iff, hs.length, hnil]
      rfl
  exact ⟨⟨(hs.running.beginRow insertIdForCurRow).1, hs.pk, hs.sk, hs.tx, fun _ => hbefore⟩,
    hbefore⟩

/-- A row is written. -/
theorem rowWritten (hbefore : s.before = tx₀) (r : InsertRow) : h.Holding tx₀ (rows ++ [r])
      (h.rowWritten r.buf (h.rowKey r) (h.packKeyRecord r.buf r.uuid).2 s) where
  running := running_rowWritten hs.running ..
  pk := by
    change (s.pkBuffer ++ [_]).map key = _
    rw [map_append, map_append, hs.pk]
    rfl
  sk := by
    intro ix hix hu
    change (h.writtenSk r.buf (h.table.hiddenPk (h.rowKey r)) s.calls h.indexes s.skBuffer
      ix.name).map key = _
    rw [writtenSk_of_mem h.pairwise_indexes hix hu, map_append, map_append, hs.sk ix hix hu]
    rfl
  tx := by
    change h.rowTx s.tx r = _
    rw [hs.tx, writeAll_append]
    rfl
  before := fun _ => hbefore

/-- The rows are fresh exactly if no key in the buffers is live. -/
theorem fresh_iff (hns : h.NoStray) : (∀ r ∈ rows, Fresh isLive h.rowKeys tx₀ r) ↔
      (∀ e ∈ s.pkBuffer, ¬ isLive tx₀ (.base, e.key)) ∧
        ∀ name ∈ s.skNames, ∀ e ∈ s.skBuffer name, ¬ isLive tx₀ (name, e.key) := by
  have hpk : (∀ e ∈ s.pkBuffer, ¬ isLive tx₀ (.base, e.key)) ↔
      ∀ r ∈ rows, ¬ isLive tx₀ (.base, h.rowKey r) := by
    rw [← forall_mem_map (P := fun k => ¬ isLive tx₀ (.base, k)), hs.pk, forall_mem_map]
  have hsk : ∀ ix ∈ h.indexes, ix.isUniqueSk = true →
      ((∀ e ∈ s.skBuffer ix.name, ¬ isLive tx₀ (ix.name, e.key)) ↔
        ∀ r ∈ rows, ¬ isLive tx₀ (ix.name, h.rowSk r ix)) := by
    intro ix hix hu
    rw [← forall_mem_map (P := fun k => ¬ isLive tx₀ (ix.name, k)), hs.sk ix hix hu,
      forall_mem_map]
  rw [hpk]
  constructor
  · refine fun hall => ⟨fun r hr => hall r hr _ (.inl rfl), fun name hname => ?_⟩
    obtain ⟨ix, hix, hu, rfl⟩ := hs.running.exists_unique hns hname
    exact (hsk ix hix hu).2 fun r hr => hall r hr _ (.inr ⟨ix, hix, hu, rfl⟩)
  · rintro ⟨hbase, hnames⟩ r hr k (rfl | ⟨ix, hix, hu, rfl⟩)
    · exact hbase r hr
    · exact (hsk ix hix hu).1 (hnames ix.name (hs.running.mem_of_isUniqueSk hix hu)) r hr

/-- **A batch is checked**: one of its keys was live before and is reported, or the buffers are
emptied. -/
theorem bulkUniqueCheck (hns : h.NoStray) (hbefore : s.before = tx₀) :
    ((∀ r ∈ rows, Fresh isLive h.rowKeys tx₀ r) → ∃ s',
      (h.bulkUniqueCheck service rows.length).run s = .ok () s' ∧ h.Holding s.tx [] s') ∧
    (¬ (∀ r ∈ rows, Fresh isLive h.rowKeys tx₀ r) → ∃ s',
      (h.bulkUniqueCheck service rows.length).run s = .error (.ha .foundDuppKey) s') := by
  have hlen : ∀ name ∈ s.skNames, (s.skBuffer name).length = rows.length := by
    intro name hname
    obtain ⟨ix, hix, hu, rfl⟩ := hs.running.exists_unique hns hname
    rw [← length_map key, hs.sk ix hix hu, length_map]
  rw [hs.fresh_iff hns, ← hbefore, bulkUniqueCheck_run hs.running.check, checkPk_run,
    if_pos hs.length.ge]
  rcases found_service s .base hs.length with ⟨hno, hfound⟩ | ⟨⟨e, he, hlive⟩, hfound⟩
  · rw [noted_of_found hfound, hfound, and_iff_right hno]
    obtain ⟨hok, herr⟩ := checkSks_service s.skNames { s with pkBuffer := [] } hs.running.nodup hlen
    refine ⟨fun hall => ⟨_, hok hall, ?_, rfl, fun ix hix hu => ?_, rfl, fun hc => absurd rfl hc⟩,
      fun hc => herr ?_⟩
    · refine hs.running.congr rfl rfl rfl hs.running.fresh fun ix hix hu => ?_
      dsimp only
      rw [hs.running.stray ix hix hu, ite_self]
    · dsimp only
      rw [if_pos (hs.running.mem_of_isUniqueSk hix hu)]
      rfl
    · push Not at hc
      exact hc
  · rw [hfound]
    exact ⟨fun hc => absurd hlive (hc.1 e he), fun _ => ⟨_, rfl⟩⟩

/-- **A row goes into the buffers**, or is reported as a duplicate of one the transaction has
written; full buffers are checked. -/
theorem writeRow (r : InsertRow) :
    (Fresh own h.rowKeys s.tx r → ∃ s₁, h.Holding tx₀ (rows ++ [r]) s₁ ∧
      (h.writeRow service (fun _ => some (r.buf, h.insertId r)) r.uuid r.buf).run s =
        if h.batchReadSize ≤ (rows ++ [r]).length then
          (h.bulkUniqueCheck service (rows ++ [r]).length).run s₁
        else .ok () s₁) ∧
    (¬ Fresh own h.rowKeys s.tx r → ∃ t,
      (h.writeRow service (fun _ => some (r.buf, h.insertId r)) r.uuid r.buf).run s =
        .error (.ha .foundDuppKey) t) := by
  obtain ⟨hs₀, hbefore⟩ := hs.beginRow (h.insertId r)
  obtain ⟨hok, herr⟩ := bulkInsertRow_service hs₀.running r
  rw [writeRow_run hs.running.bulk hs.running.dup rfl, bulkInsert_run]
  refine ⟨fun hf => ⟨_, hs₀.rowWritten hbefore r, ?_⟩, fun hf => ?_⟩
  · have hsize : h.bulkInsertSize (h.rowWritten r.buf (h.rowKey r) (h.packKeyRecord r.buf r.uuid).2
        (BulkHandler.beginRow (h.insertId r) s)) = (rows ++ [r]).length := by
      rw [bulkInsertSize, if_pos hs.running.check]
      exact (hs₀.rowWritten hbefore r).length
    have hrow := hok hf
    unfold rowKey at hrow hsize ⊢
    rw [hrow, ← hsize]
  · obtain ⟨t, ht⟩ := herr hf
    exact ⟨t, by rw [← rowKey, ht]⟩

/-- The number of rows that `end_bulk_insert` checks. -/
theorem endSize (hns : h.NoStray) : endSize s = rows.length := by
  unfold BulkHandler.endSize
  split_ifs with hzero
  · have hnil : rows = [] := length_eq_zero_iff.1 (hs.length ▸ hzero)
    subst hnil
    unfold firstSkSize
    cases hnames : s.skNames with
    | nil => rfl
    | cons name names =>
      have hname : name ∈ s.skNames := by simp [hnames]
      obtain ⟨ix, hix, hu, rfl⟩ := hs.running.exists_unique hns hname
      dsimp only
      rw [← length_map key, hs.sk ix hix hu]
      rfl
  · exact hs.length

/-- **`end_bulk_insert` checks the rows that are left.** -/
theorem endBulkInsert (hns : h.NoStray) : ((∀ r ∈ rows, Fresh isLive h.rowKeys tx₀ r) → ∃ t,
      (h.endBulkInsert service).run s = .ok () t ∧ t.tx = s.tx) ∧
    (¬ (∀ r ∈ rows, Fresh isLive h.rowKeys tx₀ r) → ∃ t,
      (h.endBulkInsert service).run s = .error (.ha .foundDuppKey) t) := by
  have hrun : (h.endBulkInsert service).run s = if s.isBulkInsert ∧ 0 < BulkHandler.endSize s then _
      else _ := rfl
  rw [hrun, hs.endSize hns]
  by_cases hnil : rows = []
  · subst hnil
    rw [if_neg fun hc => absurd hc.2 (Nat.lt_irrefl 0)]
    exact ⟨fun _ => ⟨_, rfl, rfl⟩, fun hc => absurd (by simp) hc⟩
  · rw [if_pos ⟨hs.running.bulk, length_pos_iff.2 hnil⟩]
    obtain ⟨hok, herr⟩ := hs.bulkUniqueCheck hns (hs.before hnil)
    refine ⟨fun hf => ?_, fun hf => ?_⟩
    · obtain ⟨s', hs', hh⟩ := hok hf
      rw [hs']
      exact ⟨_, rfl, hh.tx⟩
    · obtain ⟨s', hs'⟩ := herr hf
      rw [hs']
      exact ⟨_, rfl⟩

end

end Holding

/-! ## Whole bulk inserts -/

/-- Nothing is in the buffers. -/
theorem holding_startBulkInsert (hcheck : h.checkPrimaryKey = true) (s : HandlerState) :
    h.Holding s.tx [] (h.startBulkInsert (.idle s true)) := by
  have hstart : h.startBulkInsert (.idle s true) =
      { BulkState.idle s true with
        isBulkInsert := true
        skNames := h.iterate (([] : List TableName) ∪
          (h.indexes.filter h.namedUnique).map IndexRef.name) } := by
    unfold startBulkInsert
    simp [hcheck, BulkState.idle]
  rcases h.running_startBulkInsert s true with hr | hno
  · exact ⟨hr, by rw [hstart]; rfl, fun ix hix hu => by rw [hstart]; rfl, by rw [hstart]; rfl,
      fun hc => absurd rfl hc⟩
  · rw [hstart] at hno
    cases hno

/-- **The rows that are left, and the end.** The induction is on the rows; the buffers hold rows
that the transaction had no key of. -/
theorem writeRows_run (hns : h.NoStray) : ∀ (rows : List InsertRow) {tx₀ : TxExecution}
    {held : List InsertRow} {s : BulkState}, h.Holding tx₀ held s →
    SeqFresh own h.rowKeys h.rowTx tx₀ held →
    (SeqFresh isLive h.rowKeys h.rowTx tx₀ (held ++ rows) → ∃ t₁ t₂,
      (h.writeRows rows).run s = .ok () t₁ ∧ (h.endBulkInsert service).run t₁ = .ok () t₂ ∧
        t₂.tx = writeAll h.rowTx tx₀ (held ++ rows)) ∧
    (¬ SeqFresh isLive h.rowKeys h.rowTx tx₀ (held ++ rows) →
      (∃ t, (h.writeRows rows).run s = .error (.ha .foundDuppKey) t) ∨
      ∃ t₁ t₂, (h.writeRows rows).run s = .ok () t₁ ∧
        (h.endBulkInsert service).run t₁ = .error (.ha .foundDuppKey) t₂)
  | [], tx₀, held, s, hs, hown => by
      obtain ⟨hok, herr⟩ := hs.endBulkInsert hns
      rw [append_nil, seqFresh_iff grows, and_iff_right hown]
      refine ⟨fun hf => ?_, fun hf => ?_⟩
      · obtain ⟨t, ht, htx⟩ := hok hf
        exact ⟨s, t, rfl, ht, htx.trans hs.tx⟩
      · obtain ⟨t, ht⟩ := herr hf
        exact .inr ⟨s, t, rfl, ht⟩
  | r :: rows, tx₀, held, s, hs, hown => by
      obtain ⟨hok, herr⟩ := hs.writeRow r
      have hsplit : held ++ r :: rows = (held ++ [r]) ++ rows := by simp
      unfold writeRows
      rw [Loop.forM_cons_eq, hsplit]
      by_cases hr : Fresh own h.rowKeys s.tx r
      swap
      · obtain ⟨t, ht⟩ := herr hr
        rw [ht]
        refine ⟨fun hf => absurd ?_ hr, fun _ => .inl ⟨t, rfl⟩⟩
        -- a key of the transaction is live
        have hlast := (seqFresh_append.1 (seqFresh_append.1 hf).1).2.1
        exact fun k hk hc => hlast k hk (hs.tx ▸ own_isLive hc)
      obtain ⟨s₁, hs₁, hrun⟩ := hok hr
      have hown₁ : SeqFresh own h.rowKeys h.rowTx tx₀ (held ++ [r]) :=
        seqFresh_append.2 ⟨hown, hs.tx ▸ hr, trivial⟩
      rw [hrun]
      by_cases hfull : h.batchReadSize ≤ (held ++ [r]).length
      swap
      · rw [if_neg hfull]
        exact writeRows_run hns rows hs₁ hown₁
      rw [if_pos hfull]
      obtain ⟨hpass, hfail⟩ := hs₁.bulkUniqueCheck hns (hs₁.before (by simp))
      by_cases hlive : ∀ r' ∈ held ++ [r], Fresh isLive h.rowKeys tx₀ r'
      · obtain ⟨s₂, hs₂, hh₂⟩ := hpass hlive
        rw [hs₂, seqFresh_append, and_iff_right ((seqFresh_iff grows).2 ⟨hown₁, hlive⟩),
          writeAll_append tx₀ (held ++ [r]) rows, ← hs₁.tx]
        exact writeRows_run hns rows hh₂ trivial
      · obtain ⟨s₂, hs₂⟩ := hfail hlive
        rw [hs₂]
        exact ⟨fun hf => absurd ((seqFresh_iff grows).1 (seqFresh_append.1 hf).1).2 hlive,
          fun _ => .inl ⟨s₂, rfl⟩⟩

/-- **A bulk insert without stray buffers is an insert row by row.** -/
theorem refines_of_noStray (hcheck : h.checkPrimaryKey = true) (hns : h.NoStray) (s : HandlerState)
    (rows : List InsertRow) : h.Refines s rows := by
  obtain ⟨hok, hdup⟩ := insertRows_run hcheck rows s
  obtain ⟨hbulk, hbulkDup⟩ := writeRows_run hns rows (holding_startBulkInsert hcheck s) trivial
  rw [nil_append] at hbulk hbulkDup
  by_cases hf : SeqFresh isLive h.rowKeys h.rowTx s.tx rows
  · obtain ⟨t, ht, htx⟩ := hok hf
    obtain ⟨t₁, t₂, ht₁, ht₂, htx₂⟩ := hbulk hf
    have hend : h.bulkEnd s rows = .ok () t₂ := by
      rw [bulkEnd, bulkRows, ht₁]
      exact ht₂
    refine ⟨⟨?_, fun ⟨t', ht'⟩ => ?_⟩, fun t' ht' => ⟨t₁, t₂, ht₁, hend, ?_⟩⟩
    · rintro (⟨t', ht'⟩ | ⟨t', ht'⟩)
      · exact nomatch ht₁.symm.trans ht'
      · exact nomatch hend.symm.trans ht'
    · exact nomatch ht.symm.trans ht'
    · obtain ⟨-, rfl⟩ := EStateM.Result.ok.inj (ht.symm.trans ht')
      rw [htx, htx₂]
  · obtain ⟨t, ht⟩ := hdup hf
    refine ⟨⟨fun _ => ⟨t, ht⟩, fun _ => ?_⟩, fun t' ht' => nomatch ht.symm.trans ht'⟩
    rcases hbulkDup hf with hrows | ⟨t₁, t₂, ht₁, ht₂⟩
    · exact .inl hrows
    · refine .inr ⟨t₂, ?_⟩
      rw [bulkEnd, bulkRows, ht₁]
      exact ht₂

/-! ## A buffer that nothing is put into -/

/-- `BulkUniqueCheck` has read `n` keys from each buffer. -/
theorem le_length_of_checkSks {svc : BulkService} {n : ℕ} {names : List TableName}
    {s s' : BulkState} (hrun : (names.forM (checkSk svc n)).run s = .ok () s') :
    ∀ name ∈ names, n ≤ (s.skBuffer name).length := by
  induction names generalizing s with
  | nil => exact fun _ hname => nomatch hname
  | cons nm names ih =>
    obtain ⟨s₁, hnm, hrest⟩ := Loop.forM_cons_ok.mp hrun
    rw [checkSk_run] at hnm
    split_ifs at hnm with hlen
    cases hfound : found svc s n nm (s.skBuffer nm) with
    | some err =>
      rw [hfound] at hnm
      exact nomatch hnm
    | none =>
      rw [hfound] at hnm
      obtain rfl := (EStateM.Result.ok.inj hnm).2
      intro name hname
      by_cases heq : name = nm
      · exact heq ▸ hlen
      · have hle := ih hrest name ((mem_cons.1 hname).resolve_left heq)
        dsimp only at hle
        rwa [Function.update_of_ne heq] at hle

/-- **With a stray buffer the check cannot pass.** -/
theorem Holding.not_ok_of_stray {tx₀ : TxExecution} {rows : List InsertRow} {s : BulkState}
    (hs : h.Holding tx₀ rows s) (hns : ¬ h.NoStray) {n : ℕ} (hn : 0 < n) (s' : BulkState) :
    (h.bulkUniqueCheck service n).run s ≠ .ok () s' := by
  intro hrun
  simp only [NoStray, not_forall, Bool.not_eq_true] at hns
  obtain ⟨ix, hix, hnamed, hu⟩ := hns
  rw [bulkUniqueCheck_run hs.running.check, checkPk_run] at hrun
  split_ifs at hrun
  cases hfound : found service s n .base s.pkBuffer with
  | some err =>
    rw [hfound] at hrun
    exact nomatch hrun
  | none =>
    rw [hfound, noted_of_found hfound] at hrun
    have hle := le_length_of_checkSks hrun ix.name ((hs.running.names _).2 ⟨ix, hix, hnamed, rfl⟩)
    have hnil : s.skBuffer ix.name = [] := hs.running.stray ix hix hu
    dsimp only at hle
    rw [hnil] at hle
    exact absurd hle (Nat.not_le.2 hn)

/-- A row for an empty table. -/
theorem not_refines_of_stray (hcheck : h.checkPrimaryKey = true) (hns : ¬ h.NoStray)
    (r : InsertRow) : ¬ h.Refines emptyState [r] := by
  intro href
  have hempty : ∀ k, ¬ isLive Handler.emptyState.tx k := fun k => Bool.false_ne_true
  obtain ⟨t, ht, -⟩ := (insertRows_run hcheck [r] emptyState).1
    ⟨fun k _ => hempty k, trivial⟩
  obtain ⟨t₁, t₂, ht₁, ht₂, -⟩ := href.writeSet t ht
  have hstart := holding_startBulkInsert hcheck emptyState
  have hfresh : Fresh own h.rowKeys (h.startBulkInsert (.idle emptyState true)).tx r := by
    rw [hstart.tx]
    exact fun k _ hc => hempty k (own_isLive hc)
  obtain ⟨s₁, hs₁, hrun⟩ := (hstart.writeRow r).1 hfresh
  have hrows : h.bulkRows emptyState [r] =
      if h.batchReadSize ≤ ([] ++ [r]).length then
        (h.bulkUniqueCheck service ([] ++ [r]).length).run s₁
      else .ok () s₁ := by
    unfold bulkRows writeRows
    rw [Loop.forM_cons_eq, hrun]
    split_ifs
    · cases (h.bulkUniqueCheck service ([] ++ [r]).length).run s₁ <;> rfl
    · rfl
  rw [hrows] at ht₁
  split_ifs at ht₁ with hfull
  · exact hs₁.not_ok_of_stray hns (by simp) t₁ ht₁
  · obtain ⟨-, rfl⟩ := EStateM.Result.ok.inj ht₁
    have hsize : endSize s₁ = 1 := by
      unfold endSize
      rw [hs₁.length]
      rfl
    rw [bulkEnd, hrows, if_neg hfull] at ht₂
    dsimp only [stateOf] at ht₂
    change (if s₁.isBulkInsert ∧ 0 < endSize s₁ then _ else _) = _ at ht₂
    rw [hsize, if_pos ⟨hs₁.running.bulk, Nat.one_pos⟩] at ht₂
    cases hend : (h.bulkUniqueCheck service 1).run s₁ with
    | ok u s₂ => exact hs₁.not_ok_of_stray hns Nat.one_pos s₂ hend
    | error e s₂ =>
      rw [hend] at ht₂
      cases e <;> exact nomatch ht₂

/-- **A bulk insert refines the insert row by row exactly for the tables without an index that is
not unique and has a name with the mark of the unique ones.** -/
theorem refines_iff (hcheck : h.checkPrimaryKey = true) :
    (∀ s rows, h.Refines s rows) ↔ h.NoStray := by
  refine ⟨fun hall => ?_, fun hns s rows => refines_of_noStray hcheck hns s rows⟩
  by_contra hns
  exact not_refines_of_stray hcheck hns ⟨fun _ => ⟨true, []⟩, 0, []⟩ (hall _ _)

theorem refines_sample : sample.checkPrimaryKey = true ∧ ∀ s rows, sample.Refines s rows := by
  refine ⟨by decide +kernel, (refines_iff (by decide +kernel)).2 ?_⟩
  unfold NoStray
  decide +kernel

/-- ``CREATE TABLE t (a INT PRIMARY KEY, b INT, c INT NOT NULL UNIQUE, KEY `*~~` (b))``. -/
def strayTable : BulkHandler :=
  { sample with
    table := TableShare.toTable
      { fields := 3
        field := fun i => Table.intField (i == 1)
        keyInfo := [0, 2, 1].map fun i => ⟨i != 1, [⟨i, 4, false⟩], [⟨i, 4, false⟩]⟩
        primaryKey := some 0 } (by decide)
    keyName := fun kid => if kid = 2 then [42, 126, 126] else [97 + kid.toUInt8] }

/-- `INSERT INTO t VALUES (1, 10, 20)`. -/
def strayRows : List InsertRow := [⟨(Handler.sampleRow 1 (some 10) 20).record, 0, []⟩]

/-- **One row for an empty table**: `Insert` and `write_row` write it, and `end_bulk_insert` reads
the buffer of the index `*~~` beyond its end. -/
theorem bulkEnd_strayTable :
    (match (strayTable.insertRows strayRows).run emptyState with
      | .ok _ _ => none
      | .error e _ => some e) = none ∧
    (match strayTable.bulkRows emptyState strayRows with
      | .ok _ _ => none
      | .error e _ => some e) = none ∧
    (match strayTable.bulkEnd emptyState strayRows with
      | .ok _ _ => none
      | .error e _ => some e) = some .undefined ∧
    strayTable.checkPrimaryKey = true ∧ ¬ strayTable.Refines emptyState strayRows := by
  refine ⟨by decide +kernel, by decide +kernel, by decide +kernel, by decide +kernel, ?_⟩
  refine not_refines_of_stray (by decide +kernel) ?_ _
  unfold NoStray
  decide +kernel

end BulkHandler

end EloqSql
