import EloqSql.Buff
import Mathlib.Logic.Function.Basic

/-!
# Tx — the transaction that a handler writes to

The transaction service is not part of the repository. What the handler uses of it is here: a
transaction collects its writes in a write set (`TxExecution.upsert`, `TxExecution.revert`), and its
reads see them before the committed data (`TxExecution.live`). Any request may fail; which do is
given by the `TxService`.

The handler's calls are in `HandlerM`: a call that fails keeps the state it has reached.
-/

namespace EloqSql

/-! ## Records and write sets -/

/-- The tables a handler writes to: the base table, the index of a key, and an index under
construction. -/
inductive TableName where
  | base
  | index (kid : ℕ)
  | dirty (i : ℕ)
  deriving DecidableEq, Repr

/-- `EloqRecord`. -/
structure EloqRecord where
  encodedBlob : Bytes
  unpackInfo : Bytes
  deriving DecidableEq, Repr

/-- `OperationType`. -/
inductive OperationType where
  | insert | update | delete
  deriving DecidableEq, Repr

/-- An entry of a write set. -/
structure WriteSetEntry where
  op : OperationType
  record : Option EloqRecord
  deriving DecidableEq, Repr

/-- What a read of the entry returns. -/
def WriteSetEntry.live (e : WriteSetEntry) : Option EloqRecord :=
  if e.op = .delete then none else e.record

/-- `TransactionExecution`: the committed data and the write set. -/
structure TxExecution where
  store : TableName × Bytes → Option EloqRecord
  writeSet : TableName × Bytes → Option WriteSetEntry

namespace TxExecution

/-- **What a transaction reads**: its own writes first. -/
def live (tx : TxExecution) (k : TableName × Bytes) : Option EloqRecord :=
  match tx.writeSet k with
  | some e => e.live
  | none => tx.store k

/-- `TxUpsert` puts or replaces an entry. -/
def upsert (tx : TxExecution) (k : TableName × Bytes) (e : WriteSetEntry) : TxExecution :=
  { tx with writeSet := Function.update tx.writeSet k (some e) }

/-- `TxRevert` removes an entry. -/
def revert (tx : TxExecution) (k : TableName × Bytes) : TxExecution :=
  { tx with writeSet := Function.update tx.writeSet k none }

theorem live_upsert (tx : TxExecution) (k : TableName × Bytes) (e : WriteSetEntry) :
    (tx.upsert k e).live = Function.update tx.live k e.live := by
  funext k'
  by_cases h : k' = k
  · subst h
    simp [live, upsert]
  · simp [live, upsert, Function.update_of_ne h]

end TxExecution

/-! ## Errors -/

/-- `TxErrorCode` of a request that failed. -/
inductive TxErrorCode where
  | deadLockAbort | occBreakRepeatableRead | siR4wErrKeyWasUpdated | readWriteConflict
  | writeWriteConflict | txInitFail | dataStoreError | internalErrTimeout
  | other (code : ℕ)
  deriving DecidableEq, Repr

/-- What a handler call returns when it does not return 0. -/
inductive HaError where
  | foundDuppKey | outOfMem | lockDeadlock | lockWaitTimeout | eloqRecordWasUpdated | eloqRwConflict
  | eloqWwConflict | eloqStartTransactionFailed | eloqDataStoreError | eloqDefaultError
  | eloqAutoIncrementFailed
  deriving DecidableEq, Repr

/-- `RecordStatus`, as far as `PkRead` and `SkRead` return it. With `Unknown` the error is in
`tx_err_code_`. -/
inductive RecordStatus where
  | normal | deleted
  | unknown (err : TxErrorCode)

/-- `convert_tx_error`, which is only called after an error. -/
def convertTxError : TxErrorCode → HaError
  | .deadLockAbort => .lockDeadlock
  | .occBreakRepeatableRead | .siR4wErrKeyWasUpdated => .eloqRecordWasUpdated
  | .readWriteConflict => .eloqRwConflict
  | .writeWriteConflict => .eloqWwConflict
  | .txInitFail => .eloqStartTransactionFailed
  | .dataStoreError => .eloqDataStoreError
  | .internalErrTimeout => .lockWaitTimeout
  | .other _ => .eloqDefaultError

/-! ## Requests -/

/-- Which requests of a call fail. -/
structure TxService where
  readError : TableName × Bytes → Option TxErrorCode
  upsertError : TableName × Bytes → OperationType → Option TxErrorCode

/-- A service that answers every request. -/
def TxService.reliable : TxService := ⟨fun _ => none, fun _ _ => none⟩

/-- What the calls of a handler change. -/
structure HandlerState where
  tx : TxExecution
  /-- `tx_err_code_`. -/
  txErrCode : Option TxErrorCode
  errkey : Option ℕ
  /-- `dup_errkey_`. -/
  dupErrkey : Option ℕ
  /-- `insert_id_for_cur_row`: the last key that was generated, until the end of the statement. -/
  insertIdForCurRow : ℕ

/-- A call of the handler. -/
abbrev HandlerM := EStateM HaError HandlerState

namespace TxService

variable (svc : TxService)

/-- `TxUpsert`, and what every caller does when it fails. -/
def txUpsert (k : TableName × Bytes) (e : WriteSetEntry) : HandlerM Unit := do
  match svc.upsertError k e.op with
  | some err =>
    modify fun s => { s with txErrCode := some err }
    throw .outOfMem
  | none => modify fun s => { s with tx := s.tx.upsert k e }

/-- `PkRead` and `SkRead`: whether there is a live record. -/
def read (k : TableName × Bytes) : HandlerM RecordStatus := do
  match svc.readError k with
  | some err =>
    modify fun s => { s with txErrCode := some err }
    return .unknown err
  | none => return if ((← get).tx.live k).isSome then .normal else .deleted

end TxService

end EloqSql
