import EloqSql.Handler.Bulk.Steps
import EloqSql.Handler.Consistency
import EloqSql.Lib.Machine

/-!
# Handler/Bulk/Aligned — the buffers of a bulk insert

`BulkUniqueCheck(n)` takes the first `n` entries of every buffer, and goes by the position of an
entry. `Aligned` says that the buffers hold the same `n` rows. A row that is written keeps them
aligned; most ways to fail do not, since an entry is made before the write it is for, and a
duplicate empties one buffer only. `Harmless` lists the calls that keep the buffers aligned.
-/

namespace EloqSql

open List
open BulkHandler (beginRow)

namespace BulkHandler

open Function (update update_apply update_of_ne update_self)

variable (h : BulkHandler)

/-! ## Calls -/

/-- **What the service answers during a call**: a call asks for each table at most once. -/
structure Answers where
  plain : TxService
  upsert : TableName → Option UpsertError
  batchRead : TableName → Except TxErrorCode (ℕ → Bool)

def Answers.service (a : Answers) : BulkService :=
  ⟨a.plain, fun _ k _ => a.upsert k.1, fun _ name _ => a.batchRead name⟩

/-- The batch read of a table finds no key. -/
def Answers.passes (a : Answers) (n : ℕ) (name : TableName) : Bool :=
  match a.batchRead name with
  | .error _ => false
  | .ok isNormal => !(range n).any isNormal

/-- The calls of a bulk insert. -/
inductive BulkCall where
  | writeRow (a : Answers) (updateAutoIncrement : Record → Option (Record × ℕ)) (uuid : Bytes)
      (buf : Record)
  | endBulkInsert (a : Answers)

def call : BulkCall → BulkM Unit
  | .writeRow a updateAutoIncrement uuid buf => h.writeRow a.service updateAutoIncrement uuid buf
  | .endBulkInsert a => h.endBulkInsert a.service

/-- The state that a call leaves, however it ends. -/
def stateOf : EStateM.Result BulkError BulkState Unit → BulkState
  | .ok _ s => s
  | .error _ s => s

theorem stateOf_checked (res : Option HaError) (s : BulkState) : stateOf (checked res s) = s := by
  cases res <;> rfl

def step (s : BulkState) (c : BulkCall) : Option BulkState := some (stateOf ((h.call c).run s))

/-- **The call of `BulkUniqueCheck` that a call makes**: its argument, and the state it finds. -/
def uniqueCheck (s : BulkState) : BulkCall → Option (ℕ × BulkState)
  | .writeRow a updateAutoIncrement uuid buf =>
    match updateAutoIncrement buf with
    | none => none
    | some (buf, insertIdForCurRow) =>
      if s.isBulkInsert && s.isDuplicateError then
        match (h.bulkInsertRow a.service buf (h.packKeyRecord buf uuid).1
          (h.packKeyRecord buf uuid).2).run (beginRow insertIdForCurRow s) with
        | .ok _ s' =>
          if h.batchReadSize ≤ h.bulkInsertSize s' then some (h.bulkInsertSize s', s') else none
        | .error _ _ => none
      else none
  | .endBulkInsert _ => if s.isBulkInsert ∧ 0 < endSize s then some (endSize s, s) else none

/-! ## The two conditions -/

/-- **The buffers hold the same `n` rows, all of them inserted.** -/
structure Aligned (n : ℕ) (s : BulkState) : Prop where
  length : s.pkBuffer.length = n
  same : ∀ name ∈ s.skNames,
    (s.skBuffer name).map BulkEntry.row = s.pkBuffer.map BulkEntry.row
  inserted : ∀ e ∈ s.pkBuffer, e.row ∈ s.inserted

/-- Whenever `BulkUniqueCheck(n)` runs, the buffers hold the same `n` rows. -/
def ChecksAligned (s : BulkState) (c : BulkCall) : Prop :=
  ∀ n s', h.uniqueCheck s c = some (n, s') → Aligned n s'

/-- **Only the unique indexes have names that look like it**: no index under construction is unique,
and the name of no other index contains the mark of a unique one. -/
def NoStray : Prop := ∀ ix ∈ h.indexes, h.namedUnique ix = true → ix.isUniqueSk = true

/-- A check that finds a key leaves nothing behind: it is at the last buffer. -/
def HarmlessCheck (a : Answers) (n : ℕ) (names : List TableName) : Prop :=
  if a.passes n .base then ∀ name ∈ names.dropLast, a.passes n name = true else names = []

/-- **A row that is written, or fails before it has left anything behind.** -/
def HarmlessRow (a : Answers) (s : BulkState) : Prop :=
  match h.indexes.find? fun ix => (a.upsert ix.name).isSome with
  | some ix =>
    (∀ j ∈ h.indexes.takeWhile fun ix => (a.upsert ix.name).isNone, j.isUniqueSk = false) ∧
      (ix.isUniqueSk = false ∨ a.upsert ix.name = some .duplicateKey ∧ s.pkBuffer = [])
  | none =>
    match a.upsert .base with
    | none => h.batchReadSize ≤ s.pkBuffer.length + 1 →
        HarmlessCheck a (s.pkBuffer.length + 1) s.skNames
    | some .duplicateKey => ∀ ix ∈ h.indexes, ix.isUniqueSk = false
    | some (.error _) => False

/-- **The calls that keep the buffers aligned.** -/
def Harmless (s : BulkState) : BulkCall → Prop
  | .writeRow a updateAutoIncrement _ buf =>
    s.isBulkInsert = true → s.isDuplicateError = true → (updateAutoIncrement buf).isSome = true →
      h.NoStray ∧ h.HarmlessRow a s
  | .endBulkInsert _ => True

/-! ## The names of the buffers -/

/-- **In a bulk insert** the primary key is checked, and there is a buffer for each index whose name
looks unique; nothing is put into that of an index that is not unique. -/
structure Running (s : BulkState) : Prop where
  bulk : s.isBulkInsert = true
  dup : s.isDuplicateError = true
  check : h.checkPrimaryKey = true
  names : ∀ name, name ∈ s.skNames ↔ ∃ ix ∈ h.indexes, h.namedUnique ix = true ∧ ix.name = name
  nodup : s.skNames.Nodup
  fresh : ∀ i ∈ s.inserted, i ≤ s.calls
  stray : ∀ ix ∈ h.indexes, ix.isUniqueSk = false → s.skBuffer ix.name = []

/-- The name of a unique index contains the mark. -/
theorem namedUnique_of_isUniqueSk {ix : IndexRef} (hix : ix ∈ h.indexes)
    (hu : ix.isUniqueSk = true) : h.namedUnique ix = true := by
  rcases mem_append.mp hix with hix | hix
  · obtain ⟨kid, -, rfl⟩ := mem_map.mp hix
    have hnosame : (h.table.key kid).nosame = true := hu
    simp only [namedUnique, indexName, Handler.index, hnosame, if_true, decide_eq_true_eq]
    exact ⟨h.baseTableName, h.keyName kid, rfl⟩
  · obtain ⟨i, hi, rfl⟩ := mem_mapIdx.mp hix
    exact nomatch hu

variable {h}

theorem Running.mem_of_isUniqueSk {s : BulkState} (hr : h.Running s) {ix : IndexRef}
    (hix : ix ∈ h.indexes) (hu : ix.isUniqueSk = true) : ix.name ∈ s.skNames :=
  (hr.names ix.name).2 ⟨ix, hix, h.namedUnique_of_isUniqueSk hix hu, rfl⟩

/-- What a call in a bulk insert may change. -/
theorem Running.congr {s s' : BulkState} (hr : h.Running s)
    (hbulk : s'.isBulkInsert = s.isBulkInsert) (hdup : s'.isDuplicateError = s.isDuplicateError)
    (hnames : s'.skNames = s.skNames) (hfresh : ∀ i ∈ s'.inserted, i ≤ s'.calls)
    (hstray : ∀ ix ∈ h.indexes, ix.isUniqueSk = false → s'.skBuffer ix.name = []) :
    h.Running s' :=
  ⟨hbulk.trans hr.bulk, hdup.trans hr.dup, hr.check, hnames ▸ hr.names, hnames ▸ hr.nodup, hfresh,
    hstray⟩

/-- **`start_bulk_insert` starts a bulk insert**, or it does not. -/
theorem running_startBulkInsert (s : HandlerState) (isDuplicateError : Bool) :
    h.Running (h.startBulkInsert (.idle s isDuplicateError)) ∨
      (h.startBulkInsert (.idle s isDuplicateError)).isBulkInsert = false := by
  unfold startBulkInsert
  cases isDuplicateError with
  | false => exact .inr rfl
  | true =>
    rw [if_neg (by simp [BulkState.idle])]
    split_ifs
    · exact .inr rfl
    · cases hcheck : h.checkPrimaryKey with
      | false => exact .inr rfl
      | true =>
        left
        have hperm := h.iterate_perm (([] : List TableName) ∪
          (h.indexes.filter h.namedUnique).map IndexRef.name)
        refine ⟨rfl, rfl, hcheck, fun name => ?_, ?_, (fun _ hi => nomatch hi), fun _ _ _ => rfl⟩
        · refine hperm.mem_iff.trans ?_
          rw [nil_union, mem_map]
          simp [and_assoc]
        · refine hperm.nodup_iff.2 ?_
          rw [nil_union]
          have hpw := h.pairwise_indexes.sublist (filter_sublist (p := h.namedUnique))
          exact pairwise_map.2 hpw

/-! ## What a row does to the buffers -/

section Row

variable {buf : Record} {hiddenPk : Option Bytes} {row : ℕ} {ixs : List IndexRef}
  {skBuffer : TableName → List BulkEntry} {ix : IndexRef}

variable {name : TableName} {done rest : List IndexRef}

/-- The buffer of an index gets the key of the row. -/
theorem writtenSk_of_mem (hpw : ixs.Pairwise fun i j => i.name ≠ j.name) (hix : ix ∈ ixs)
    (hu : ix.isUniqueSk = true) : h.writtenSk buf hiddenPk row ixs skBuffer ix.name =
      skBuffer ix.name ++ [h.newBulkEntry buf hiddenPk row ix] := by
  have hfilter : ixs.filter (fun i => i.isUniqueSk && i.name == ix.name) = [ix] := by
    induction ixs with
    | nil => exact nomatch hix
    | cons i ixs ih =>
      obtain ⟨hne, hpw⟩ := pairwise_cons.1 hpw
      rcases mem_cons.1 hix with rfl | hix
      · rw [filter_cons_of_pos (by simp [hu])]
        refine congrArg _ (filter_eq_nil_iff.2 fun j hj => ?_)
        simp [(hne j hj).symm]
      · rw [filter_cons_of_neg (by simp [hne ix hix])]
        exact ih hpw hix
  rw [writtenSk, hfilter]
  rfl

/-- The other buffers stay as they are. -/
theorem writtenSk_of_ne (hne : ∀ i ∈ ixs, i.isUniqueSk = true → i.name ≠ name) :
    h.writtenSk buf hiddenPk row ixs skBuffer name = skBuffer name := by
  have hfilter : ixs.filter (fun i => i.isUniqueSk && i.name == name) = [] := by
    refine filter_eq_nil_iff.2 fun i hi => ?_
    simp only [Bool.and_eq_true, beq_iff_eq, not_and]
    exact hne i hi
  rw [writtenSk, hfilter]
  exact append_nil _

/-- The buffers after a write to an index that failed, with the row in the indexes before it. -/
def failedSk (h : BulkHandler) (a : Answers) (buf : Record) (hiddenPk : Option Bytes) (row : ℕ)
    (done : List IndexRef) (ix : IndexRef) (skBuffer : TableName → List BulkEntry) :
    TableName → List BulkEntry :=
  if a.upsert ix.name = some .duplicateKey ∧ ix.isUniqueSk then
    Function.update (h.writtenSk buf hiddenPk row done skBuffer) ix.name []
  else h.writtenSk buf hiddenPk row [ix] (h.writtenSk buf hiddenPk row done skBuffer)

variable (a : Answers) {s : BulkState}

theorem indexes_run_none (hnames : ∀ ix ∈ ixs, ix.isUniqueSk = true → ix.name ∈ s.skNames)
    (hnone : ∀ ix ∈ ixs, a.upsert ix.name = none) :
    (ixs.forM (h.bulkInsertIndex a.service buf hiddenPk)).run s =
      .ok () (h.written buf hiddenPk ixs s) :=
  bulkInsertIndexes_run hnames fun done ix rest hsplit => hnone ix (by simp [hsplit])

variable (buf hiddenPk) in
/-- **The loop of `BulkInsert` up to the first write that fails.** -/
theorem indexes_run_some (hsplit : ixs = done ++ ix :: rest)
    (hnames : ∀ j ∈ ixs, j.isUniqueSk = true → j.name ∈ s.skNames)
    (hdone : ∀ j ∈ done, a.upsert j.name = none) {err : UpsertError}
    (hix : a.upsert ix.name = some err) :
    ∃ e code key dup, (ixs.forM (h.bulkInsertIndex a.service buf hiddenPk)).run s =
      .error e { s with
        tx := h.writtenTx buf hiddenPk done s.tx
        skBuffer := h.failedSk a buf hiddenPk s.calls done ix s.skBuffer
        txErrCode := code
        errkey := key
        dupErrkey := dup } := by
  subst hsplit
  have hrun : (done.forM (h.bulkInsertIndex a.service buf hiddenPk)).run s =
      .ok () (h.written buf hiddenPk done s) :=
    indexes_run_none a (fun j hj => hnames j (mem_append_left _ hj)) hdone
  have hmem : ¬ (ix.isUniqueSk = true ∧ ix.name ∉ (h.written buf hiddenPk done s).skNames) :=
    fun hc => hc.2 (hnames ix (by simp) hc.1)
  rw [Loop.forM_append _ hrun, Loop.forM_cons_eq, bulkInsertIndex_run, if_neg hmem]
  simp only [Answers.service, hix, failedSk]
  cases err with
  | duplicateKey =>
    cases hu : ix.isUniqueSk with
    | true => exact ⟨_, _, _, _, rfl⟩
    | false =>
      have hsk : ∀ b, h.writtenSk buf hiddenPk s.calls [ix] b = b := by
        intro b
        rw [writtenSk_singleton, hu]
        rfl
      refine ⟨.undefined, s.txErrCode, s.errkey, s.dupErrkey, ?_⟩
      simp only [hsk, Bool.false_eq_true, and_false, if_false]
      rfl
  | error e => exact ⟨_, _, _, _, rfl⟩

/-- An index that is not unique has no buffer that a row is put into. -/
theorem writtenSk_of_not_unique (hixs : ixs ⊆ h.indexes) (hix : ix ∈ h.indexes)
    (hu : ix.isUniqueSk = false) :
    h.writtenSk buf hiddenPk row ixs skBuffer ix.name = skBuffer ix.name := by
  refine writtenSk_of_ne fun i hi hiu hname => ?_
  rw [h.eq_of_name_eq (hixs hi) hix hname, hu] at hiu
  exact nomatch hiu

theorem failedSk_of_not_unique (hsplit : h.indexes = done ++ ix :: rest)
    {j : IndexRef} (hj : j ∈ h.indexes) (hu : j.isUniqueSk = false) :
    h.failedSk a buf hiddenPk row done ix skBuffer j.name = skBuffer j.name := by
  have hdone : done ⊆ h.indexes := by simp [hsplit]
  have hix : ix ∈ h.indexes := by simp [hsplit]
  unfold failedSk
  split_ifs with hdup
  · have hne : j.name ≠ ix.name := by
      intro hname
      rw [h.eq_of_name_eq hj hix hname, hdup.2] at hu
      exact nomatch hu
    rw [update_of_ne hne, writtenSk_of_not_unique hdone hj hu]
  · rw [writtenSk_of_not_unique (by simpa using hix) hj hu, writtenSk_of_not_unique hdone hj hu]

/-- The buffers that rows are put into are those of the unique indexes. -/
theorem Running.exists_unique (hr : h.Running s) (hns : h.NoStray)
    (hname : name ∈ s.skNames) : ∃ j ∈ h.indexes, j.isUniqueSk = true ∧ j.name = name := by
  obtain ⟨j, hj, hnamed, rfl⟩ := (hr.names name).1 hname
  exact ⟨j, hj, hns j hj hnamed, rfl⟩

/-- **A write to an index fails**: the buffers are still aligned exactly if nothing was put into one
before, and the index is not unique, or its buffer is emptied and was empty. -/
theorem same_failedSk_iff (hr : h.Running s) (hns : h.NoStray)
    (hsame : ∀ name ∈ s.skNames, (s.skBuffer name).map BulkEntry.row = s.pkBuffer.map BulkEntry.row)
    (hsplit : h.indexes = done ++ ix :: rest) :
    (∀ name ∈ s.skNames, (h.failedSk a buf hiddenPk row done ix s.skBuffer name).map BulkEntry.row =
        s.pkBuffer.map BulkEntry.row) ↔
      (∀ j ∈ done, j.isUniqueSk = false) ∧
        (ix.isUniqueSk = false ∨ a.upsert ix.name = some .duplicateKey ∧ s.pkBuffer = []) := by
  have hpw := h.pairwise_indexes
  rw [hsplit, pairwise_append, pairwise_cons] at hpw
  obtain ⟨hpwdone, ⟨hixrest, -⟩, hcross⟩ := hpw
  have hix : ix ∈ h.indexes := by simp [hsplit]
  constructor
  · intro hall
    refine ⟨fun j hj => ?_, ?_⟩
    · by_contra hu
      rw [Bool.not_eq_false] at hu
      have hj' : j ∈ h.indexes := by simp [hsplit, hj]
      have hmem := hr.mem_of_isUniqueSk hj' hu
      have hne : j.name ≠ ix.name := hcross j hj ix mem_cons_self
      have hold := hsame j.name hmem
      have hnew := hall j.name hmem
      have hsk : h.failedSk a buf hiddenPk row done ix s.skBuffer j.name =
          s.skBuffer j.name ++ [h.newBulkEntry buf hiddenPk row j] := by
        rw [← writtenSk_of_mem hpwdone hj hu]
        unfold failedSk
        split_ifs
        · exact update_of_ne hne ..
        · exact writtenSk_of_ne (by simpa using fun _ => hne.symm)
      rw [hsk, map_append, hold] at hnew
      simp at hnew
    · by_contra hc
      rw [not_or, Bool.not_eq_false] at hc
      obtain ⟨hu, hdup⟩ := hc
      have hmem := hr.mem_of_isUniqueSk hix hu
      have hold := hsame ix.name hmem
      have hnew := hall ix.name hmem
      have hdone : h.writtenSk buf hiddenPk row done s.skBuffer ix.name = s.skBuffer ix.name :=
        writtenSk_of_ne fun j hj _ => hcross j hj ix mem_cons_self
      unfold failedSk at hnew
      split_ifs at hnew with hd
      · rw [update_self, map_nil, eq_comm, map_eq_nil_iff] at hnew
        exact hdup ⟨hd.1, hnew⟩
      · rw [writtenSk_of_mem (pairwise_singleton ..) mem_cons_self hu, hdone,
          map_append, hold] at hnew
        simp at hnew
  · rintro ⟨hdone, hcase⟩ name hname
    obtain ⟨j, hj, hu, rfl⟩ := hr.exists_unique hns hname
    have hold := hsame j.name hname
    have hskdone : h.writtenSk buf hiddenPk row done s.skBuffer j.name = s.skBuffer j.name :=
      writtenSk_of_ne fun i hi hiu => by rw [hdone i hi] at hiu; exact nomatch hiu
    unfold failedSk
    split_ifs with hd
    · by_cases hname : j.name = ix.name
      · rcases hcase with hc | ⟨-, hpk⟩
        · rw [hd.2] at hc
          exact nomatch hc
        · rw [hname, update_self, hpk]
      · rw [update_of_ne hname, hskdone, hold]
    · have hne : ix.isUniqueSk = true → ix.name ≠ j.name := by
        rintro hixu -
        rcases hcase with hc | ⟨hc, -⟩
        · rw [hixu] at hc
          exact nomatch hc
        · exact hd ⟨hc, hixu⟩
      rw [writtenSk_of_ne (by simpa using hne), hskdone, hold]

/-- **A row that is written to all indexes is in all buffers.** -/
theorem same_written (hr : h.Running s) (hns : h.NoStray)
    (hsame : ∀ name ∈ s.skNames, (s.skBuffer name).map BulkEntry.row = s.pkBuffer.map BulkEntry.row)
    (hname : name ∈ s.skNames) :
    (h.writtenSk buf hiddenPk row h.indexes s.skBuffer name).map BulkEntry.row =
      s.pkBuffer.map BulkEntry.row ++ [row] := by
  obtain ⟨j, hj, hu, rfl⟩ := hr.exists_unique hns hname
  rw [writtenSk_of_mem h.pairwise_indexes hj hu, map_append, hsame j.name hname]
  rfl

end Row

/-! ## What a check does to the buffers -/

section Check

variable (a : Answers) {n : ℕ} {s : BulkState}

theorem found_eq_none_iff (s : BulkState) (n : ℕ) (name : TableName) (buffer : List BulkEntry) :
    found a.service s n name buffer = none ↔ a.passes n name = true := by
  unfold found Answers.passes Answers.service
  dsimp only
  cases a.batchRead name with
  | error err => simp
  | ok isNormal => simp

/-- The buffers that a check goes over: it stops after the first that has a key it finds. -/
def Answers.reached (a : Answers) (n : ℕ) : List TableName → List TableName
  | [] => []
  | name :: names => name :: if a.passes n name then Answers.reached a n names else []

theorem reached_eq_iff {names : List TableName} (hnodup : names.Nodup) :
    (∀ name ∈ names, name ∈ a.reached n names) ↔
      ∀ name ∈ names.dropLast, a.passes n name = true := by
  induction names with
  | nil => simp [Answers.reached]
  | cons name names ih =>
    obtain ⟨hname, hnodup⟩ := nodup_cons.1 hnodup
    by_cases hnil : names = []
    · simp [hnil, Answers.reached]
    rw [Answers.reached, dropLast_cons_of_ne_nil hnil, forall_mem_cons,
      forall_mem_cons]
    cases hpass : a.passes n name with
    | false =>
      refine iff_of_false (fun hall => ?_) (fun hc => nomatch hc.1)
      obtain ⟨name', hname'⟩ := exists_mem_of_ne_nil names hnil
      have := hall.2 name' hname'
      simp only [Bool.false_eq_true, if_false, mem_singleton] at this
      exact hname (this ▸ hname')
    | true =>
      rw [← ih hnodup]
      simp only [if_true, mem_cons_self, true_and]
      refine forall₂_congr fun nm hnm => ?_
      have hne : nm ≠ name := fun heq => hname (heq ▸ hnm)
      simp [hne]

/-- **The loop of `BulkUniqueCheck`** empties the buffers it reaches. -/
theorem checkSks_run : ∀ (names : List TableName) (s : BulkState), names.Nodup →
    (∀ name ∈ names, n ≤ (s.skBuffer name).length) →
    ∃ res code key dup, (names.forM (checkSk a.service n)).run s =
      checked res { s with
        skBuffer := fun name => if name ∈ a.reached n names then [] else s.skBuffer name
        txErrCode := code
        errkey := key
        dupErrkey := dup }
  | [], s, _, _ => ⟨none, s.txErrCode, s.errkey, s.dupErrkey, by simp [Answers.reached]; rfl⟩
  | name :: names, s, hnodup, hlen => by
      obtain ⟨hname, hnodup⟩ := nodup_cons.1 hnodup
      obtain ⟨code, key, dup, hnoted⟩ :=
        noted_eq a.service s n name (indexId name) (s.skBuffer name)
      rw [Loop.forM_cons_eq, checkSk_run, if_pos (hlen name mem_cons_self), hnoted]
      cases hfound : found a.service s n name (s.skBuffer name) with
      | some err =>
        have hpass : ¬ a.passes n name = true := by
          rw [← found_eq_none_iff a s n name (s.skBuffer name), hfound]
          simp
        have hsk : update s.skBuffer name [] =
            fun nm => if nm ∈ [name] then [] else s.skBuffer nm := by
          funext nm
          simp [update_apply]
        refine ⟨some err, code, key, dup, ?_⟩
        rw [Answers.reached, if_neg hpass, ← hsk]
        rfl
      | none =>
        have hpass : a.passes n name = true := (found_eq_none_iff a s n name _).1 hfound
        rw [Answers.reached, if_pos hpass]
        obtain ⟨res, code', key', dup', hrest⟩ := checkSks_run names
          { s with
            skBuffer := update s.skBuffer name []
            txErrCode := code
            errkey := key
            dupErrkey := dup } hnodup fun nm hnm => by
              have hne : nm ≠ name := fun heq => hname (heq ▸ hnm)
              simpa [hne] using hlen nm (mem_cons_of_mem name hnm)
        have hsk : (fun nm => if nm ∈ a.reached n names then []
            else update s.skBuffer name [] nm) =
            fun nm => if nm ∈ name :: a.reached n names then [] else s.skBuffer nm := by
          funext nm
          by_cases hnm : nm = name <;> simp [hnm]
        exact ⟨res, code', key', dup', hrest.trans (by rw [← hsk])⟩

/-- A buffer that a check does not reach still has its rows. -/
theorem same_reached_iff (hn : 0 < n)
    (hsame : ∀ name ∈ s.skNames, (s.skBuffer name).length = n) (names : List TableName) :
    (∀ name ∈ s.skNames,
        ((if name ∈ names then [] else s.skBuffer name).map BulkEntry.row) = []) ↔
      ∀ name ∈ s.skNames, name ∈ names := by
  refine forall₂_congr fun name hname => ?_
  split_ifs with hmem
  · simp [hmem]
  · refine iff_of_false (fun hc => ?_) hmem
    rw [map_eq_nil_iff] at hc
    have := hsame name hname
    rw [hc, length_nil] at this
    omega

/-- **`BulkUniqueCheck` on aligned buffers**: they are still aligned exactly if it has emptied them
all. -/
theorem bulkUniqueCheck_aligned (hr : h.Running s) (hal : Aligned n s) (hn : 0 < n) :
    ∃ res s', (h.bulkUniqueCheck a.service n).run s = checked res s' ∧ h.Running s' ∧
      ((∃ n', Aligned n' s') ↔ HarmlessCheck a n s.skNames) := by
  have hlen : ∀ name ∈ s.skNames, (s.skBuffer name).length = n := by
    intro name hname
    rw [← hal.length, ← length_map BulkEntry.row, hal.same name hname, length_map]
  obtain ⟨code, key, dup, hnoted⟩ := noted_eq a.service s n .base h.table.primaryKey s.pkBuffer
  rw [bulkUniqueCheck_run hr.check, checkPk_run, if_pos hal.length.ge, hnoted]
  unfold HarmlessCheck
  cases hfound : found a.service s n .base s.pkBuffer with
  | some err =>
    have hpass : ¬ a.passes n .base = true := by
      rw [← found_eq_none_iff a s n .base s.pkBuffer, hfound]
      simp
    rw [if_neg hpass]
    refine ⟨some err, _, rfl, hr.congr rfl rfl rfl hr.fresh hr.stray, ?_⟩
    have hiff := same_reached_iff hn hlen []
    simp only [not_mem_nil, if_false] at hiff
    rw [eq_nil_iff_forall_not_mem]
    refine Iff.trans ⟨fun ⟨_, hal'⟩ => hal'.same, fun hsame => ⟨0, rfl, hsame, ?_⟩⟩ hiff
    exact fun _ he => nomatch he
  | none =>
    have hpass : a.passes n .base = true := (found_eq_none_iff a s n .base _).1 hfound
    rw [if_pos hpass]
    obtain ⟨res, code', key', dup', hrest⟩ := checkSks_run a (n := n) s.skNames
      { s with pkBuffer := [], txErrCode := code, errkey := key, dupErrkey := dup } hr.nodup
      fun name hname => (hlen name hname).ge
    refine ⟨res, _, hrest, hr.congr rfl rfl rfl hr.fresh fun ix hix hu => ?_, ?_⟩
    · dsimp only
      rw [hr.stray ix hix hu, ite_self]
    · rw [← reached_eq_iff a hr.nodup, ← same_reached_iff hn hlen _]
      exact ⟨fun ⟨_, hal'⟩ => hal'.same, fun hsame => ⟨0, rfl, hsame, fun _ he => nomatch he⟩⟩

end Check

/-! ## A row -/

section WriteRow

variable (a : Answers) {s : BulkState} (buf : Record) (key : Bytes) (record : EloqRecord)

/-- **The service accepts the write to every index, or there is a first that it does not.** -/
theorem first_failure (ixs : List IndexRef) :
    (ixs.find? (fun ix => (a.upsert ix.name).isSome) = none ∧
        ∀ ix ∈ ixs, a.upsert ix.name = none) ∨
      ∃ done ix rest err, ixs = done ++ ix :: rest ∧
        ixs.find? (fun ix => (a.upsert ix.name).isSome) = some ix ∧
        ixs.takeWhile (fun ix => (a.upsert ix.name).isNone) = done ∧
        (∀ j ∈ done, a.upsert j.name = none) ∧ a.upsert ix.name = some err := by
  cases hfind : ixs.find? (fun ix => (a.upsert ix.name).isSome) with
  | none =>
    refine .inl ⟨rfl, fun ix hix => ?_⟩
    simpa using find?_eq_none.1 hfind ix hix
  | some ix =>
    obtain ⟨hix, done, rest, rfl, hdone⟩ := find?_eq_some_iff_append.1 hfind
    obtain ⟨err, herr⟩ := Option.isSome_iff_exists.1 hix
    have hdone' : ∀ j ∈ done, a.upsert j.name = none := fun j hj => by simpa using hdone j hj
    refine .inr ⟨done, ix, rest, err, rfl, rfl, ?_, hdone', herr⟩
    rw [takeWhile_append_of_pos fun j hj => by simp [hdone' j hj],
      takeWhile_cons_of_neg (by simp [herr]), append_nil]

/-- **A row leaves the bulk insert running**, however it ends. -/
theorem running_bulkInsertRow (hr : h.Running s) :
    h.Running (stateOf ((h.bulkInsertRow a.service buf key record).run s)) := by
  rw [bulkInsertRow_run hr.check]
  rcases first_failure a h.indexes with ⟨-, hnone⟩ | ⟨done, ix, rest, err, hsplit, -, -, hdone, hix⟩
  · have hstray : ∀ ix ∈ h.indexes, ix.isUniqueSk = false →
        h.writtenSk buf (h.table.hiddenPk key) s.calls h.indexes s.skBuffer ix.name = [] := by
      intro ix hix hu
      rw [writtenSk_of_not_unique (List.Subset.refl _) hix hu, hr.stray ix hix hu]
    rw [indexes_run_none a (fun _ => hr.mem_of_isUniqueSk) hnone]
    simp only [Answers.service]
    rcases a.upsert .base with _ | _ | err
    · refine hr.congr rfl rfl rfl (fun i hi => ?_) hstray
      rcases mem_cons.1 hi with rfl | hi
      · exact le_rfl
      · exact hr.fresh i hi
    · exact hr.congr rfl rfl rfl hr.fresh hstray
    · exact hr.congr rfl rfl rfl hr.fresh hstray
  · obtain ⟨e, code, k, dup, hrun⟩ := indexes_run_some buf (h.table.hiddenPk key) a hsplit
      (fun _ => hr.mem_of_isUniqueSk) hdone hix
    rw [hrun]
    refine hr.congr rfl rfl rfl hr.fresh fun j hj hu => ?_
    exact (failedSk_of_not_unique a hsplit hj hu).trans (hr.stray j hj hu)

theorem aligned_rowWritten (hr : h.Running s) (hns : h.NoStray) {m : ℕ} (hal : Aligned m s) :
    Aligned (m + 1) (h.rowWritten buf key record s) where
  length := by
    change (s.pkBuffer ++ [_]).length = m + 1
    rw [length_append, hal.length]
    rfl
  same := by
    intro name hname
    change _ = (s.pkBuffer ++ [_]).map BulkEntry.row
    rw [map_append]
    exact same_written hr hns hal.same hname
  inserted := by
    intro e he
    rcases mem_append.1 he with he | he
    · exact mem_cons_of_mem _ (hal.inserted e he)
    · rw [mem_singleton.1 he]
      exact mem_cons_self

/-- **A row keeps the buffers aligned exactly if it is harmless**, up to its check. -/
theorem aligned_bulkInsertRow (hr : h.Running s) (hns : h.NoStray) {m : ℕ} (hal : Aligned m s)
    (hfresh : ∀ i ∈ s.inserted, i < s.calls) :
    match (h.bulkInsertRow a.service buf key record).run s with
    | .ok _ s' => s' = h.rowWritten buf key record s ∧ (h.HarmlessRow a s ↔
        (h.batchReadSize ≤ s.pkBuffer.length + 1 →
          HarmlessCheck a (s.pkBuffer.length + 1) s.skNames))
    | .error _ s' => (∃ n, Aligned n s') ↔ h.HarmlessRow a s := by
  rw [bulkInsertRow_run hr.check]
  unfold HarmlessRow
  rcases first_failure a h.indexes with
    ⟨hfind, hnone⟩ | ⟨done, ix, rest, err, hsplit, hfind, htake, hdone, hix⟩
  · rw [indexes_run_none a (fun _ => hr.mem_of_isUniqueSk) hnone, hfind]
    simp only [Answers.service]
    rcases a.upsert .base with _ | _ | err
    · exact ⟨rfl, Iff.rfl⟩
    · -- the buffers of the unique indexes keep the row, that of the primary key is empty
      refine ⟨?_, fun hall => ⟨0, rfl, fun name hname => ?_, ?_⟩⟩
      · rintro ⟨n, hal'⟩ ix hix
        by_contra hu
        have hname := hr.mem_of_isUniqueSk hix (by simpa using hu)
        have hrows := (hal'.same ix.name hname).symm.trans (same_written hr hns hal.same hname)
        simp at hrows
      · obtain ⟨j, hj, hu, -⟩ := hr.exists_unique hns hname
        rw [hall j hj] at hu
        cases hu
      · rintro _ ⟨⟩
    · -- the buffers have the row, which is not inserted
      refine iff_of_false ?_ id
      rintro ⟨n, hal'⟩
      have hin := hal'.inserted ⟨s.calls, key, record⟩ (mem_append_right _ mem_cons_self)
      exact (hfresh s.calls hin).ne rfl
  · obtain ⟨e, code, k, dup, hrun⟩ := indexes_run_some buf (h.table.hiddenPk key) a hsplit
      (fun _ => hr.mem_of_isUniqueSk) hdone hix
    rw [hrun, hfind, htake]
    simp only
    rw [← same_failedSk_iff a hr hns hal.same hsplit]
    refine ⟨?_, fun hsame => ⟨m, hal.length, hsame, hal.inserted⟩⟩
    rintro ⟨_, hal'⟩
    exact hal'.same

/-- The row has a number of its own. -/
theorem Running.beginRow (hr : h.Running s) (insertIdForCurRow : ℕ) :
    h.Running (beginRow insertIdForCurRow s) ∧
      ∀ i ∈ (beginRow insertIdForCurRow s).inserted,
        i < (beginRow insertIdForCurRow s).calls :=
  ⟨hr.congr rfl rfl rfl (fun i hi => Nat.le_succ_of_le (hr.fresh i hi)) hr.stray,
    fun i hi => Nat.lt_succ_of_le (hr.fresh i hi)⟩

theorem bulkInsertSize_rowWritten (hr : h.Running s) :
    h.bulkInsertSize (h.rowWritten buf key record s) = s.pkBuffer.length + 1 := by
  unfold bulkInsertSize
  rw [if_pos hr.check]
  change (s.pkBuffer ++ [_]).length = _
  rw [length_append]
  rfl

variable {updateAutoIncrement : Record → Option (Record × ℕ)} {row : Record × ℕ} (uuid : Bytes)

/-- **A row in a bulk insert with aligned buffers**: its check finds them aligned, and the row
leaves them so exactly if it is harmless. -/
theorem writeRow_aligned (hr : h.Running s) (hns : h.NoStray) {m : ℕ} (hal : Aligned m s)
    (hrow : updateAutoIncrement buf = some row) :
    h.ChecksAligned s (.writeRow a updateAutoIncrement uuid buf) ∧
      h.Running (stateOf ((h.writeRow a.service updateAutoIncrement uuid buf).run s)) ∧
      ((∃ n, Aligned n (stateOf ((h.writeRow a.service updateAutoIncrement uuid buf).run s))) ↔
        h.HarmlessRow a s) := by
  obtain ⟨hr₀, hfresh⟩ := hr.beginRow row.2
  have hal₀ : Aligned m (beginRow row.2 s) := ⟨hal.length, hal.same, hal.inserted⟩
  rw [writeRow_run hr.bulk hr.dup hrow, bulkInsert_run]
  unfold ChecksAligned uniqueCheck
  simp only [hrow, hr.bulk, hr.dup, Bool.and_self, if_true]
  obtain ⟨key, record⟩ := h.packKeyRecord row.1 uuid
  have hrun := running_bulkInsertRow a row.1 key record hr₀
  have hrows := aligned_bulkInsertRow a row.1 key record hr₀ hns hal₀ hfresh
  cases hres : (h.bulkInsertRow a.service row.1 key record).run (beginRow row.2 s) with
  | error e s₁ =>
    rw [hres] at hrun hrows
    exact ⟨by rintro _ _ ⟨⟩, hrun, hrows⟩
  | ok u s₁ =>
    rw [hres] at hrun hrows
    obtain ⟨rfl, hharmless⟩ := hrows
    dsimp only [stateOf] at hrun
    have hal₁ := aligned_rowWritten row.1 key record hr₀ hns hal₀
    have hsize := bulkInsertSize_rowWritten row.1 key record hr₀
    rw [hal₀.length] at hsize
    change (h.HarmlessRow a s ↔ _) at hharmless
    rw [hal₀.length] at hharmless
    simp only [hsize]
    by_cases hbatch : h.batchReadSize ≤ m + 1
    · simp only [hbatch, if_true, Option.some.injEq, Prod.mk.injEq]
      obtain ⟨res, s₂, hcheck, hrun', haligned⟩ :=
        bulkUniqueCheck_aligned a hrun hal₁ (Nat.succ_pos m)
      rw [hcheck, stateOf_checked]
      refine ⟨?_, hrun', haligned.trans ?_⟩
      · rintro n s' ⟨rfl, rfl⟩
        exact hal₁
      · rw [hharmless]
        exact ⟨fun hc _ => hc, fun hc => hc hbatch⟩
    · simp only [hbatch, if_false]
      refine ⟨by rintro _ _ ⟨⟩, hrun, iff_of_true ⟨_, hal₁⟩ ?_⟩
      rw [hharmless]
      exact fun hc => absurd hc hbatch

end WriteRow

/-! ## A row too many -/

/-- The service accepts everything and finds nothing. -/
def Answers.accepting : Answers := ⟨.reliable, fun _ => none, fun _ => .ok fun _ => false⟩

section Misaligned

variable {s : BulkState}

/-- If the check finds aligned buffers, no buffer is left empty. -/
theorem noStray_of_aligned (hr : h.Running s) {n : ℕ} (hal : Aligned n s) (hn : 0 < n) :
    h.NoStray := by
  intro ix hix hnamed
  by_contra hu
  rw [Bool.not_eq_true] at hu
  have hrows := hal.same ix.name ((hr.names ix.name).2 ⟨ix, hix, hnamed, rfl⟩)
  rw [hr.stray ix hix hu, map_nil, eq_comm, map_eq_nil_iff] at hrows
  have := hal.length
  rw [hrows, length_nil] at this
  omega

/-- If one row makes aligned buffers, they were empty. -/
theorem aligned_of_rowWritten {buf : Record} {key : Bytes} {record : EloqRecord} (hr : h.Running s)
    (hpk : s.pkBuffer = []) (hns : h.NoStray) (hal : Aligned 1 (h.rowWritten buf key record s)) :
    Aligned 0 s := by
  refine ⟨by rw [hpk]; rfl, fun name hname => ?_, fun e he => ?_⟩
  · obtain ⟨j, hj, hu, rfl⟩ := hr.exists_unique hns hname
    have hrows : (h.writtenSk buf (h.table.hiddenPk key) s.calls h.indexes s.skBuffer j.name).map
        BulkEntry.row
          = (s.pkBuffer ++ ([⟨s.calls, key, record⟩] : List BulkEntry)).map BulkEntry.row :=
      hal.same j.name hname
    rw [writtenSk_of_mem h.pairwise_indexes hj hu, map_append, map_append] at hrows
    exact append_cancel_right hrows
  · rw [hpk] at he
    exact nomatch he

/-- **A row with a buffer that stays empty** is not checked, or its check finds that buffer. -/
theorem running_writeRow (a : Answers) (buf : Record) (uuid : Bytes) (hr : h.Running s)
    (hns : ¬ h.NoStray) {updateAutoIncrement : Record → Option (Record × ℕ)} {row : Record × ℕ}
    (hcheck : h.ChecksAligned s (.writeRow a updateAutoIncrement uuid buf))
    (hrow : updateAutoIncrement buf = some row) :
    h.Running (stateOf ((h.writeRow a.service updateAutoIncrement uuid buf).run s)) := by
  obtain ⟨hr₀, -⟩ := hr.beginRow row.2
  unfold ChecksAligned uniqueCheck at hcheck
  simp only [hrow, hr.bulk, hr.dup, Bool.and_self, if_true] at hcheck
  rw [writeRow_run hr.bulk hr.dup hrow, bulkInsert_run]
  generalize h.packKeyRecord row.1 uuid = packed at hcheck ⊢
  obtain ⟨key, record⟩ := packed
  have hrun := running_bulkInsertRow a row.1 key record hr₀
  cases hres : (h.bulkInsertRow a.service row.1 key record).run (beginRow row.2 s) with
  | error e s₁ =>
    rw [hres] at hrun
    exact hrun
  | ok u s₁ =>
    rw [hres] at hrun
    dsimp only [stateOf] at hrun
    simp only [hres] at hcheck
    by_cases hbatch : h.batchReadSize ≤ h.bulkInsertSize s₁
    · simp only [hbatch, if_true, Option.some.injEq, Prod.mk.injEq] at hcheck
      have hal := hcheck _ _ ⟨rfl, rfl⟩
      obtain rfl := bulkInsertRow_ok hr.check hres
      rw [bulkInsertSize_rowWritten _ _ _ hr₀] at hal
      exact absurd (noStray_of_aligned hrun hal (Nat.succ_pos _)) hns
    · simp only [hbatch, if_false]
      exact hrun

/-- The row is written. -/
theorem bulkInsertRow_accepting (hr : h.Running s) (buf : Record) (key : Bytes)
    (record : EloqRecord) : (h.bulkInsertRow Answers.accepting.service buf key record).run s =
      .ok () (h.rowWritten buf key record s) := by
  rw [bulkInsertRow_run hr.check, indexes_run_none .accepting
    (fun ix hix hu => hr.mem_of_isUniqueSk hix hu) (fun _ _ => rfl)]
  rfl

theorem running_rowWritten (hr : h.Running s) (buf : Record) (key : Bytes) (record : EloqRecord) :
    h.Running (h.rowWritten buf key record s) := by
  have hrun := running_bulkInsertRow .accepting buf key record hr
  rw [bulkInsertRow_accepting hr] at hrun
  exact hrun

/-- **Buffers that are not aligned, or one that stays empty, come to a check**: at the end, or with
one more row. -/
theorem exists_misaligned (hr : h.Running s) (hbad : ¬ (h.NoStray ∧ ∃ n, Aligned n s))
    {updateAutoIncrement : Record → Option (Record × ℕ)} {buf : Record} {row : Record × ℕ}
    (hrow : updateAutoIncrement buf = some row) (uuid : Bytes) :
    ∃ calls, ¬ Machine.Meets h.step h.ChecksAligned s calls := by
  by_cases hpk : s.pkBuffer = []
  · refine ⟨[.writeRow .accepting updateAutoIncrement uuid buf, .endBulkInsert .accepting],
      fun hmeets => hbad ?_⟩
    obtain ⟨hr₀, -⟩ := hr.beginRow row.2
    obtain ⟨key, record, hpack⟩ : ∃ k r, h.packKeyRecord row.1 uuid = (k, r) := ⟨_, _, rfl⟩
    have hres := bulkInsertRow_accepting hr₀ row.1 key record
    have hrun := running_rowWritten hr₀ row.1 key record
    have hsize := bulkInsertSize_rowWritten row.1 key record hr₀
    have hzero : (beginRow row.2 s).pkBuffer = [] := hpk
    rw [hzero, length_nil] at hsize
    -- the check finds the row, at once or at the end
    have hal : Aligned 1 (h.rowWritten row.1 key record (beginRow row.2 s)) := by
      obtain ⟨hfirst, hsecond⟩ := hmeets _ rfl
      by_cases hbatch : h.batchReadSize ≤ 1
      · refine hfirst 1 _ ?_
        simp [uniqueCheck, hrow, hr.bulk, hr.dup, hpack, hres, hsize, hbatch]
      · have hstate : stateOf ((h.call (.writeRow .accepting updateAutoIncrement uuid buf)).run s) =
            h.rowWritten row.1 key record (beginRow row.2 s) := by
          rw [call, writeRow_run hr.bulk hr.dup hrow, hpack, bulkInsert_run, hres]
          simp only [hsize, hbatch, if_false]
          rfl
        rw [hstate] at hsecond
        refine (hsecond _ rfl).1 1 _ ?_
        have hend : endSize (h.rowWritten row.1 key record (beginRow row.2 s)) = 1 := by
          change (if (s.pkBuffer ++ [_]).length = 0 then _ else (s.pkBuffer ++ [_]).length) = 1
          rw [hpk]
          rfl
        rw [uniqueCheck, hend, if_pos ⟨hrun.bulk, Nat.one_pos⟩]
    have hns := noStray_of_aligned hrun hal Nat.one_pos
    have hal₀ := aligned_of_rowWritten hr₀ hzero hns hal
    exact ⟨hns, 0, hal₀.length, hal₀.same, hal₀.inserted⟩
  · refine ⟨[.endBulkInsert .accepting], fun hmeets => ?_⟩
    have hlen : 0 < s.pkBuffer.length := length_pos_iff.2 hpk
    have hsize : endSize s = s.pkBuffer.length := if_neg hlen.ne'
    have hal := (hmeets _ rfl).1 s.pkBuffer.length s (by
      rw [uniqueCheck, hsize, if_pos ⟨hr.bulk, hlen⟩])
    exact hbad ⟨noStray_of_aligned hr hal hlen, _, hal⟩

end Misaligned

/-! ## Runs -/

/-- **Between two calls**: the buffers are aligned, or there is no bulk insert. -/
def Resting (h : BulkHandler) (s : BulkState) : Prop :=
  (h.Running s ∧ ∃ n, Aligned n s) ∨ s.isBulkInsert = false

theorem resting_startBulkInsert (h : BulkHandler) (s : HandlerState) (isDuplicateError : Bool) :
    h.Resting (h.startBulkInsert (.idle s isDuplicateError)) := by
  refine (running_startBulkInsert s isDuplicateError).imp (fun hr => ⟨hr, 0, ?_⟩) id
  unfold startBulkInsert
  split_ifs <;> exact ⟨rfl, fun _ _ => rfl, fun _ he => nomatch he⟩

/-- Without a bulk insert nothing is checked, and none begins. -/
theorem idle_call {s : BulkState} (hs : s.isBulkInsert = false) (c : BulkCall) :
    h.ChecksAligned s c ∧ (stateOf ((h.call c).run s)).isBulkInsert = false := by
  cases c with
  | endBulkInsert a =>
    refine ⟨fun n s' hc => ?_, ?_⟩
    · rw [uniqueCheck, if_neg fun hc => by simp [hs] at hc] at hc
      cases hc
    · change (stateOf (if s.isBulkInsert = true ∧ 0 < endSize s then _ else _)).isBulkInsert = false
      rw [if_neg fun hc => by simp [hs] at hc]
      rfl
  | writeRow a updateAutoIncrement uuid buf =>
    unfold ChecksAligned uniqueCheck
    simp only [call, writeRow]
    cases hrow : updateAutoIncrement buf with
    | none => exact ⟨by rintro _ _ ⟨⟩, hs⟩
    | some row =>
      simp only [hs, Bool.false_and, Bool.false_eq_true, if_false]
      refine ⟨by rintro _ _ ⟨⟩, ?_⟩
      simp only [EStateM.run_bind, EStateM.run_modify, EStateM.run_get]
      have hmode : ((beginRow row.2 s).isBulkInsert && (beginRow row.2 s).isDuplicateError)
          = false := by
        change (s.isBulkInsert && s.isDuplicateError) = false
        rw [hs]
        rfl
      rw [if_neg (by rw [hmode]; exact Bool.false_ne_true), EStateM.run, HandlerM.toBulk]
      cases (h.insert a.service.plain row.1 (h.packKeyRecord row.1 uuid).1
        (h.packKeyRecord row.1 uuid).2).run (beginRow row.2 s).toHandlerState <;> exact hs

/-- **A harmless call checks aligned buffers, and leaves them so.** -/
theorem Resting.step {s : BulkState} (hs : h.Resting s) {c : BulkCall} (hc : h.Harmless s c) :
    h.ChecksAligned s c ∧ h.Resting (stateOf ((h.call c).run s)) := by
  rcases hs with ⟨hr, n, hal⟩ | hidle
  · cases c with
    | endBulkInsert a =>
      have hsize : endSize s = n := by
        rw [endSize, hal.length]
        split_ifs with hn
        · unfold firstSkSize
          split
          · exact hn.symm
          next name names hnames =>
            rw [← length_map BulkEntry.row, hal.same name (by simp [hnames]),
              length_map, hal.length]
        · rfl
      refine ⟨fun n' s' hcheck => ?_, .inr ?_⟩
      · rw [uniqueCheck, hsize] at hcheck
        split_ifs at hcheck
        cases hcheck
        exact hal
      · change (stateOf (if s.isBulkInsert = true ∧ 0 < endSize s then _ else _)).isBulkInsert
          = false
        rw [hsize]
        split_ifs with hn
        · obtain ⟨res, s', hcheck, -⟩ := bulkUniqueCheck_aligned a hr hal hn.2
          rw [hcheck]
          cases res <;> rfl
        · rfl
    | writeRow a updateAutoIncrement uuid buf =>
      cases hrow : updateAutoIncrement buf with
      | none =>
        have hstate : (h.call (.writeRow a updateAutoIncrement uuid buf)).run s =
            .error (.ha .eloqAutoIncrementFailed) s := by
          simp only [call, writeRow, hrow]
          rfl
        rw [hstate]
        refine ⟨fun n s' hcheck => ?_, .inl ⟨hr, n, hal⟩⟩
        simp only [uniqueCheck, hrow] at hcheck
        exact nomatch hcheck
      | some row =>
        obtain ⟨hns, hharmless⟩ := hc hr.bulk hr.dup (by rw [hrow]; rfl)
        obtain ⟨hcheck, hr', hal'⟩ := writeRow_aligned a buf uuid hr hns hal hrow
        exact ⟨hcheck, .inl ⟨hr', hal'.2 hharmless⟩⟩
  · exact ⟨(idle_call hidle c).1, .inr (idle_call hidle c).2⟩

/-- **A row that is not harmless can be followed by a check of buffers that are not aligned.** -/
theorem exists_misaligned_of_not_harmless {s : BulkState} (hs : h.Resting s) {c : BulkCall}
    (hc : ¬ h.Harmless s c) : ∃ rest, ¬ Machine.Meets h.step h.ChecksAligned s (c :: rest) := by
  cases c with
  | endBulkInsert a => exact absurd trivial hc
  | writeRow a updateAutoIncrement uuid buf =>
    simp only [Harmless, Classical.not_imp] at hc
    obtain ⟨hbulk, hdup, hsome, hbad⟩ := hc
    obtain ⟨row, hrow⟩ := Option.isSome_iff_exists.1 hsome
    rcases hs with ⟨hr, n, hal⟩ | hidle
    swap
    · rw [hidle] at hbulk
      exact nomatch hbulk
    suffices hstep : h.ChecksAligned s (.writeRow a updateAutoIncrement uuid buf) →
        h.Running (stateOf ((h.call (.writeRow a updateAutoIncrement uuid buf)).run s)) ∧
        ¬ (h.NoStray ∧
          ∃ n, Aligned n (stateOf ((h.call (.writeRow a updateAutoIncrement uuid buf)).run s))) by
      by_cases hcheck : h.ChecksAligned s (.writeRow a updateAutoIncrement uuid buf)
      · obtain ⟨hr', hbad'⟩ := hstep hcheck
        obtain ⟨rest, hrest⟩ := exists_misaligned hr' hbad' hrow uuid
        exact ⟨rest, fun hmeets => hrest (hmeets _ rfl).2⟩
      · exact ⟨[], fun hmeets => hcheck (hmeets _ rfl).1⟩
    intro hcheck
    by_cases hns : h.NoStray
    · obtain ⟨-, hr', hal'⟩ := writeRow_aligned a buf uuid hr hns hal hrow
      exact ⟨hr', fun hgood => hbad ⟨hns, hal'.1 hgood.2⟩⟩
    · refine ⟨?_, fun hgood => hns hgood.1⟩
      exact running_writeRow a buf uuid hr hns hcheck hrow

variable (h) in
/-- **The buffers of a bulk insert.** In every run of harmless calls, whenever `BulkUniqueCheck(n)`
runs, all buffers hold the same `n` rows. A call that is not harmless, after a run of harmless ones,
can be followed by calls with a check that finds them otherwise. -/
theorem checksAligned_exact (s : HandlerState) (isDuplicateError : Bool) (calls : List BulkCall) :
    (Machine.Meets h.step h.Harmless (h.startBulkInsert (.idle s isDuplicateError)) calls →
      Machine.Meets h.step h.ChecksAligned (h.startBulkInsert (.idle s isDuplicateError)) calls) ∧
    ∀ s' c, Machine.exec h.step (h.startBulkInsert (.idle s isDuplicateError)) calls = some s' →
      Machine.Meets h.step h.Harmless (h.startBulkInsert (.idle s isDuplicateError)) calls →
      ¬ h.Harmless s' c →
      ∃ rest, ¬ Machine.Meets h.step h.ChecksAligned (h.startBulkInsert (.idle s isDuplicateError))
        (calls ++ c :: rest) := by
  have hstart := h.resting_startBulkInsert s isDuplicateError
  have hstep : ∀ t c t', h.Resting t → h.Harmless t c → h.step t c = some t' →
      h.ChecksAligned t c ∧ h.Resting t' := by
    intro t c t' ht hc hs
    cases hs
    exact ht.step hc
  refine ⟨Machine.meets_of_meets hstep hstart, fun s' c hexec hmeets hc => ?_⟩
  have hs' : h.Resting s' :=
    Machine.exec_of_meets (fun t c t' ht hc hs => (hstep t c t' ht hc hs).2) hstart hmeets hexec
  obtain ⟨rest, hrest⟩ := exists_misaligned_of_not_harmless hs' hc
  exact ⟨rest, fun hall => hrest (Machine.meets_of_append hexec hall)⟩

/-- `CREATE TABLE t (a INT PRIMARY KEY, b INT UNIQUE, c INT NOT NULL UNIQUE)`. -/
def sample : BulkHandler where
  toHandler := Handler.sample
  batchReadSize := 128
  uniqueIndexNamePrefix := [42, 126, 126]
  indexNamePrefix := [42, 36, 36]
  baseTableName := [116]
  keyName := fun kid => [97 + kid.toUInt8]
  dirtyKey := fun _ => (false, [])
  foundNextNumberField := false
  pkIsNextNumber := false
  isNextNumber_of_found := Bool.noConfusion
  iterate := id
  iterate_perm := fun _ => .rfl

/-- The base table has the key already. -/
def Answers.duplicatePk : Answers where
  plain := .reliable
  upsert := fun name => if name = .base then some .duplicateKey else none
  batchRead := fun _ => .ok fun _ => false

/-- `INSERT INTO t VALUES (1, 10, 20), (1, 11, 21)`: the second row is a duplicate of the first. -/
def duplicateRun : List BulkCall :=
  [.writeRow .accepting (fun buf => some (buf, 0)) [] (Handler.sampleRow 1 (some 10) 20).record,
    .writeRow .duplicatePk (fun buf => some (buf, 0)) [] (Handler.sampleRow 1 (some 11) 21).record]

/-- **`end_bulk_insert` checks two rows, and the buffer of the primary key is empty.** -/
theorem uniqueCheck_duplicateRun :
    (((Machine.exec sample.step (sample.startBulkInsert (.idle Handler.emptyState true))
        duplicateRun).bind fun s => sample.uniqueCheck s (.endBulkInsert .accepting)).map
      fun p => (p.1, p.2.pkBuffer.length, p.2.skNames.map fun name => (p.2.skBuffer name).length)) =
      some (2, 0, [2, 2]) ∧
    ¬ Machine.Meets sample.step sample.ChecksAligned
      (sample.startBulkInsert (.idle Handler.emptyState true))
      (duplicateRun ++ [.endBulkInsert .accepting]) := by
  have hend : (((Machine.exec sample.step (sample.startBulkInsert (.idle Handler.emptyState true))
        duplicateRun).bind fun s => sample.uniqueCheck s (.endBulkInsert .accepting)).map
      fun p => (p.1, p.2.pkBuffer.length, p.2.skNames.map fun name => (p.2.skBuffer name).length)) =
      some (2, 0, [2, 2]) := by
    decide +kernel
  refine ⟨hend, fun hmeets => ?_⟩
  obtain ⟨⟨n, s'⟩, hcheck, hsizes⟩ := Option.map_eq_some_iff.1 hend
  obtain ⟨s, hexec, hcheck⟩ := Option.bind_eq_some_iff.1 hcheck
  have hal := (Machine.meets_of_append hexec hmeets _ rfl).1 n s' hcheck
  simp only [Prod.mk.injEq] at hsizes
  have := hal.length
  omega

end BulkHandler

end EloqSql
