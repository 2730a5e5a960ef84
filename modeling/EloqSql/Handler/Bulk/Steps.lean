import EloqSql.Handler.Bulk
import EloqSql.Handler.Steps

/-!
# Handler/Bulk/Steps — what the steps of a bulk insert do

The turns of the two loops, with every way they can end: `BulkInsert` writes a row to one index
after the other, and `BulkUniqueCheck` reads one buffer after the other. A loop that succeeds has
written the row (`written`), or has emptied the buffers (`cleared`).
-/

namespace EloqSql

open List
open EStateM (run_bind run_get run_modify run_pure)

namespace BulkHandler

variable (h : BulkHandler) (svc : BulkService)

/-! ## `BulkInsert` -/

section Insert

variable (buf : Record) (hiddenPk : Option Bytes)

/-- The entry for the buffer of an index. -/
def newBulkEntry (row : ℕ) (ix : IndexRef) : BulkEntry :=
  ⟨row, h.newKey buf hiddenPk ix, Handler.skRecord ix.isUniqueSk (h.packSk ix buf hiddenPk)⟩

/-- **The buffers with the keys of a row**, for some of the indexes. -/
def writtenSk (row : ℕ) (ixs : List IndexRef) (skBuffer : TableName → List BulkEntry)
    (name : TableName) : List BulkEntry :=
  skBuffer name ++
    (ixs.filter fun ix => ix.isUniqueSk && ix.name == name).map (h.newBulkEntry buf hiddenPk row)

/-- **The transaction with the entries of a row**, for some of the indexes. -/
def writtenTx (ixs : List IndexRef) (tx : TxExecution) : TxExecution :=
  ixs.foldl
    (fun tx ix => tx.upsert (ix.name, h.newKey buf hiddenPk ix) (h.newEntry buf hiddenPk ix)) tx

/-- A row is written to some of the indexes. -/
def written (ixs : List IndexRef) (s : BulkState) : BulkState :=
  { s with
    tx := h.writtenTx buf hiddenPk ixs s.tx
    skBuffer := h.writtenSk buf hiddenPk s.calls ixs s.skBuffer }

theorem writtenSk_singleton (row : ℕ) (ix : IndexRef) (skBuffer : TableName → List BulkEntry) :
    h.writtenSk buf hiddenPk row [ix] skBuffer =
      if ix.isUniqueSk then Function.update skBuffer ix.name
        (skBuffer ix.name ++ [h.newBulkEntry buf hiddenPk row ix])
      else skBuffer := by
  funext name
  unfold writtenSk
  cases hu : ix.isUniqueSk with
  | false => simp [hu]
  | true =>
    by_cases hname : name = ix.name
    · simp [hu, hname]
    · simp [hu, hname, Ne.symm hname]

theorem written_cons (ix : IndexRef) (ixs : List IndexRef) (s : BulkState) :
    h.written buf hiddenPk (ix :: ixs) s =
      h.written buf hiddenPk ixs (h.written buf hiddenPk [ix] s) := by
  have hsk : h.writtenSk buf hiddenPk s.calls (ix :: ixs) s.skBuffer =
      h.writtenSk buf hiddenPk s.calls ixs (h.writtenSk buf hiddenPk s.calls [ix] s.skBuffer) := by
    funext name
    unfold writtenSk
    rw [append_assoc, ← map_append, ← filter_append, singleton_append]
  simp only [written, hsk]
  rfl

/-- **A turn of `BulkInsert`.** -/
theorem bulkInsertIndex_run (ix : IndexRef) (s : BulkState) :
    (h.bulkInsertIndex svc buf hiddenPk ix).run s =
    if ix.isUniqueSk ∧ ix.name ∉ s.skNames then .error .undefined s
    else
      match svc.upsert s.tx (ix.name, h.newKey buf hiddenPk ix) ix.isUniqueSk with
      | none => .ok () (h.written buf hiddenPk [ix] s)
      | some .duplicateKey =>
        if ix.isUniqueSk then
          .error (.ha .foundDuppKey)
            { s with
              skBuffer := Function.update s.skBuffer ix.name []
              errkey := some ix.kid
              dupErrkey := some ix.kid
              txErrCode := some UpsertError.duplicateKey.code }
        else .error .undefined s
      | some (.error err) =>
        .error (.ha .outOfMem)
          { s with
            skBuffer := h.writtenSk buf hiddenPk s.calls [ix] s.skBuffer
            txErrCode := some err } := by
  unfold bulkInsertIndex
  simp only [written, writtenSk_singleton, newBulkEntry, Handler.newKey]
  cases hu : ix.isUniqueSk with
  | false =>
    simp only [Bool.false_eq_true, if_false, false_and, run_bind, run_get]
    have hkey : Handler.skKey false (h.packSk ix buf hiddenPk) = h.newKey buf hiddenPk ix := by
      rw [Handler.newKey, hu]
    have hentry : (⟨.insert, some (Handler.skRecord false (h.packSk ix buf hiddenPk))⟩ :
        WriteSetEntry) = h.newEntry buf hiddenPk ix := by
      rw [Handler.newEntry, hu]
    rw [hkey, hentry]
    rcases svc.upsert s.tx (ix.name, h.newKey buf hiddenPk ix) false with _ | _ | err <;> rfl
  | true =>
    by_cases hmem : ix.name ∈ s.skNames
    · simp only [hmem, not_true, and_false, if_false, if_true, run_bind, run_get,
        run_modify]
      have hkey : Handler.skKey true (h.packSk ix buf hiddenPk) = h.newKey buf hiddenPk ix := by
        rw [Handler.newKey, hu]
      have hentry : (⟨.insert, some (Handler.skRecord true (h.packSk ix buf hiddenPk))⟩ :
          WriteSetEntry) = h.newEntry buf hiddenPk ix := by
        rw [Handler.newEntry, hu]
      rw [hkey, hentry]
      rcases svc.upsert s.tx (ix.name, h.newKey buf hiddenPk ix) true with _ | _ | err
      · rfl
      · simp
      · rfl
    · simp [hmem]

variable {h svc buf hiddenPk}

theorem bulkInsertIndex_ok {ix : IndexRef} {s s' : BulkState}
    (hr : (h.bulkInsertIndex svc buf hiddenPk ix).run s = .ok () s') :
    s' = h.written buf hiddenPk [ix] s := by
  rw [bulkInsertIndex_run] at hr
  by_cases hno : ix.isUniqueSk ∧ ix.name ∉ s.skNames
  · rw [if_pos hno] at hr
    exact nomatch hr
  rw [if_neg hno] at hr
  split at hr
  · exact (EStateM.Result.ok.inj hr).2.symm
  · split_ifs at hr
  · exact nomatch hr

/-- **The loop of `BulkInsert`**, by induction on the indexes. -/
theorem bulkInsertIndexes_ok : ∀ {ixs : List IndexRef} {s s' : BulkState},
    (ixs.forM (h.bulkInsertIndex svc buf hiddenPk)).run s = .ok () s' →
      s' = h.written buf hiddenPk ixs s
  | [], s, s', hr => by
      obtain ⟨-, rfl⟩ := EStateM.Result.ok.inj hr
      have hsk : h.writtenSk buf hiddenPk s.calls [] s.skBuffer = s.skBuffer :=
        funext fun _ => append_nil _
      simp [written, writtenTx, hsk]
  | ix :: ixs, s, s', hr => by
      obtain ⟨s₁, hix, hixs⟩ := Loop.forM_cons_ok.mp hr
      rw [written_cons, ← bulkInsertIndex_ok hix]
      exact bulkInsertIndexes_ok hixs

/-- **The loop writes the row to all indexes** if the service accepts each write. -/
theorem bulkInsertIndexes_run {ixs : List IndexRef} {s : BulkState}
    (hnames : ∀ ix ∈ ixs, ix.isUniqueSk = true → ix.name ∈ s.skNames)
    (hnone : ∀ done ix rest, ixs = done ++ ix :: rest → svc.upsert
      (h.writtenTx buf hiddenPk done s.tx) (ix.name, h.newKey buf hiddenPk ix)
        ix.isUniqueSk = none) :
    (ixs.forM (h.bulkInsertIndex svc buf hiddenPk)).run s =
      .ok () (h.written buf hiddenPk ixs s) := by
  induction ixs generalizing s with
  | nil =>
    have hsk : h.writtenSk buf hiddenPk s.calls [] s.skBuffer = s.skBuffer :=
      funext fun _ => append_nil _
    simp only [written, writtenTx, hsk, foldl_nil]
    rfl
  | cons ix ixs ih =>
    have hix : (h.bulkInsertIndex svc buf hiddenPk ix).run s =
        .ok () (h.written buf hiddenPk [ix] s) := by
      have hup : svc.upsert s.tx (ix.name, h.newKey buf hiddenPk ix) ix.isUniqueSk = none :=
        hnone [] ix ixs rfl
      rw [bulkInsertIndex_run, if_neg fun hc => hc.2 (hnames ix mem_cons_self hc.1), hup]
    rw [Loop.forM_cons_eq, hix, h.written_cons buf hiddenPk ix ixs s]
    exact ih (fun j hj => hnames j (mem_cons_of_mem ix hj))
      fun done j rest hsplit => hnone (ix :: done) j rest (congrArg _ hsplit)

end Insert

section Row

variable (buf : Record) (key : Bytes) (record : EloqRecord)

/-- The primary key goes to its buffer. -/
def pkBuffered (s : BulkState) : BulkState :=
  { s with pkBuffer := s.pkBuffer ++ [⟨s.calls, key, record⟩] }

/-- **A row is written**, the base table included. -/
def rowWritten (s : BulkState) : BulkState :=
  { pkBuffered key record (h.written buf (h.table.hiddenPk key) h.indexes s) with
    tx := (h.writtenTx buf (h.table.hiddenPk key) h.indexes s.tx).upsert (.base, key)
      ⟨.insert, some record⟩
    inserted := s.calls :: s.inserted }

variable {h svc buf key record}

/-- **`BulkInsert` with a checked primary key**, after its loop. -/
theorem bulkInsertRow_run (hcheck : h.checkPrimaryKey = true) (s : BulkState) :
    (h.bulkInsertRow svc buf key record).run s =
    match (h.indexes.forM (h.bulkInsertIndex svc buf (h.table.hiddenPk key))).run s with
    | .error e s₁ => .error e s₁
    | .ok _ s₁ =>
      match svc.upsert s₁.tx (.base, key) true with
      | none => .ok () (h.rowWritten buf key record s)
      | some .duplicateKey =>
        .error (.ha .foundDuppKey)
          { s₁ with
            pkBuffer := []
            errkey := h.table.primaryKey
            dupErrkey := h.table.primaryKey
            txErrCode := some UpsertError.duplicateKey.code }
      | some (.error err) =>
        .error (.ha .outOfMem) { pkBuffered key record s₁ with txErrCode := some err } := by
  unfold bulkInsertRow
  rw [run_bind]
  cases hloop : (h.indexes.forM (h.bulkInsertIndex svc buf (h.table.hiddenPk key))).run s with
  | error e s₁ => rfl
  | ok u s₁ =>
    obtain rfl := bulkInsertIndexes_ok hloop
    simp only [hcheck, if_true, run_bind, run_modify, run_get]
    rcases svc.upsert (h.written buf (h.table.hiddenPk key) h.indexes s).tx (.base, key) true with
      _ | _ | err <;> rfl

theorem bulkInsertRow_ok (hcheck : h.checkPrimaryKey = true) {s s' : BulkState} {u : Unit}
    (hr : (h.bulkInsertRow svc buf key record).run s = .ok u s') :
    s' = h.rowWritten buf key record s := by
  rw [bulkInsertRow_run hcheck] at hr
  split at hr
  · exact nomatch hr
  · split at hr
    · exact (EStateM.Result.ok.inj hr).2.symm
    · exact nomatch hr
    · exact nomatch hr

end Row

/-! ## `BulkUniqueCheck` -/

section Check

/-- **What the batch read of a buffer finds**: an error that `UniqueConstraintChecking` returns. -/
def found (s : BulkState) (n : ℕ) (name : TableName) (buffer : List BulkEntry) : Option HaError :=
  match svc.batchRead s name ((buffer.take n).map BulkEntry.key) with
  | .error err => some (convertTxError err)
  | .ok isNormal => if (range n).any isNormal then some .foundDuppKey else none

/-- What the two ways to fail leave in the handler. -/
def noted (s : BulkState) (n : ℕ) (name : TableName) (errKey : Option ℕ)
    (buffer : List BulkEntry) : BulkState :=
  match svc.batchRead s name ((buffer.take n).map BulkEntry.key) with
  | .error err => { s with txErrCode := some err }
  | .ok isNormal =>
    if (range n).any isNormal then { s with errkey := errKey, dupErrkey := errKey } else s

theorem uniqueConstraintChecking_run (s : BulkState) (n : ℕ) (name : TableName)
    (errKey : Option ℕ) (buffer : List BulkEntry) :
    (uniqueConstraintChecking svc n name errKey (buffer.take n)).run s =
      .ok (found svc s n name buffer) (noted svc s n name errKey buffer) := by
  unfold uniqueConstraintChecking found noted
  rw [run_bind, run_get]
  simp only
  cases svc.batchRead s name ((buffer.take n).map BulkEntry.key) with
  | error err => rfl
  | ok isNormal =>
    simp only
    split_ifs <;> rfl

/-- The result of a check that has ended with or without an error. -/
def checked (res : Option HaError) (s : BulkState) : EStateM.Result BulkError BulkState Unit :=
  match res with
  | some err => .error (.ha err) s
  | none => .ok () s

/-- Nothing but what is reported changes. -/
theorem noted_eq (s : BulkState) (n : ℕ) (name : TableName) (errKey : Option ℕ)
    (buffer : List BulkEntry) : ∃ code key dup, noted svc s n name errKey buffer =
      { s with txErrCode := code, errkey := key, dupErrkey := dup } := by
  unfold noted
  split
  · exact ⟨_, _, _, rfl⟩
  · split_ifs
    · exact ⟨_, _, _, rfl⟩
    · exact ⟨s.txErrCode, s.errkey, s.dupErrkey, rfl⟩

variable {svc} in
theorem noted_of_found {s : BulkState} {n : ℕ} {name : TableName} {errKey : Option ℕ}
    {buffer : List BulkEntry} (hfound : found svc s n name buffer = none) :
    noted svc s n name errKey buffer = s := by
  unfold found at hfound
  unfold noted
  split at hfound
  · exact nomatch hfound
  · split_ifs at hfound with hany
    exact if_neg hany

/-- **A turn of `BulkUniqueCheck`** empties the buffer of the index. -/
theorem checkSk_run (n : ℕ) (name : TableName) (s : BulkState) :
    (checkSk svc n name).run s =
    if n ≤ (s.skBuffer name).length then
      checked (found svc s n name (s.skBuffer name))
        { noted svc s n name (indexId name) (s.skBuffer name) with
          skBuffer := Function.update s.skBuffer name [] }
    else .error .undefined s := by
  unfold checkSk readBuffer
  simp only [run_bind, run_get]
  split_ifs
  · obtain ⟨code, key, dup, hnoted⟩ := noted_eq svc s n name (indexId name) (s.skBuffer name)
    simp only [run_pure, uniqueConstraintChecking_run, run_modify, hnoted]
    cases found svc s n name (s.skBuffer name) <;> rfl
  · rfl

theorem checkPk_run (n : ℕ) (s : BulkState) :
    (h.checkPk svc n).run s =
    if n ≤ s.pkBuffer.length then
      checked (found svc s n .base s.pkBuffer)
        { noted svc s n .base h.table.primaryKey s.pkBuffer with pkBuffer := [] }
    else .error .undefined s := by
  unfold checkPk readBuffer
  simp only [run_bind, run_get]
  split_ifs
  · simp only [run_pure, uniqueConstraintChecking_run, run_modify]
    cases found svc s n .base s.pkBuffer <;> rfl
  · rfl

end Check

/-! ## Whole calls -/

section Calls

variable {h svc} {buf : Record} {key : Bytes} {record : EloqRecord}

theorem bulkInsert_run (s : BulkState) : (h.bulkInsert svc buf key record).run s =
    match (h.bulkInsertRow svc buf key record).run s with
    | .ok _ s' =>
      if h.batchReadSize ≤ h.bulkInsertSize s' then
        (h.bulkUniqueCheck svc (h.bulkInsertSize s')).run s'
      else .ok () s'
    | .error e s' => .error e s' := by
  unfold bulkInsert
  rw [run_bind]
  cases (h.bulkInsertRow svc buf key record).run s with
  | error e s' => rfl
  | ok u s' =>
    simp only [run_bind, run_get]
    split_ifs <;> rfl

/-- **`write_row` in a bulk insert.** -/
theorem writeRow_run {s : BulkState} (hbulk : s.isBulkInsert = true)
    (hdup : s.isDuplicateError = true)
    {updateAutoIncrement : Record → Option (Record × ℕ)} {row : Record × ℕ}
    (hrow : updateAutoIncrement buf = some row) (uuid : Bytes) :
    (h.writeRow svc updateAutoIncrement uuid buf).run s =
      (h.bulkInsert svc row.1 (h.packKeyRecord row.1 uuid).1 (h.packKeyRecord row.1 uuid).2).run
        (beginRow row.2 s) := by
  unfold writeRow
  rw [hrow]
  simp only [run_bind, run_modify, run_get]
  have hmode : ((beginRow row.2 s).isBulkInsert && (beginRow row.2 s).isDuplicateError) = true := by
    change (s.isBulkInsert && s.isDuplicateError) = true
    rw [hbulk, hdup]
    rfl
  rw [if_pos hmode]

/-- `BulkUniqueCheck` with a checked primary key. -/
theorem bulkUniqueCheck_run (hcheck : h.checkPrimaryKey = true) (n : ℕ) (s : BulkState) :
    (h.bulkUniqueCheck svc n).run s =
    match (h.checkPk svc n).run s with
    | .ok _ s' => (s'.skNames.forM (checkSk svc n)).run s'
    | .error e s' => .error e s' := by
  unfold bulkUniqueCheck
  rw [hcheck]
  simp only [if_true, run_bind, run_get]
  cases (h.checkPk svc n).run s <;> rfl

end Calls

end BulkHandler

end EloqSql
