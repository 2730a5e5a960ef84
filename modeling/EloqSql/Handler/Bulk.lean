import EloqSql.Handler
import Mathlib.Data.List.Infix
import Mathlib.Data.List.Lattice

/-!
# Handler/Bulk — inserting many rows

Between `start_bulk_insert` and `end_bulk_insert` a row is written without reading its keys first.
`TxUpsert` finds a key that the transaction itself has written; for the committed ones the keys are
kept in buffers, one for the primary key and one for each unique index, and `BulkUniqueCheck` reads
them all at once. The buffers of the indexes are made from the *names* of the indexes, and filled by
their flags.
-/

namespace EloqSql

/-! ## The service -/

/-- `TxErrorCode` of a `TxUpsert` that is asked to check its key. -/
inductive UpsertError where
  | duplicateKey
  | error (err : TxErrorCode)
  deriving DecidableEq, Repr

/-- What is left in `tx_err_code_`; `DUPLICATE_KEY` is none of those that `convert_tx_error` knows.
-/
def UpsertError.code : UpsertError → TxErrorCode
  | .duplicateKey => .other 0
  | .error err => err

/-- How a call ends that does not return 0. -/
inductive BulkError where
  | ha (err : HaError)
  /-- An assertion fails, or a vector is read beyond its end. -/
  | undefined
  deriving DecidableEq, Repr

/-! ## The state -/

/-- An entry of a `BulkInsertBuffer`. The source has no `row`: it is the number of the call of
`write_row` that made the entry. -/
structure BulkEntry where
  row : ℕ
  key : Bytes
  record : EloqRecord

/-- What the calls of a bulk insert change. -/
structure BulkState extends HandlerState where
  /-- `is_duplicate_error_`: a duplicate is an error, and neither ignored nor replaced. -/
  isDuplicateError : Bool
  isBulkInsert : Bool
  /-- `pk_bulk_insert_buffer_`. -/
  pkBuffer : List BulkEntry
  /-- The keys of `unique_sk_bulk_insert_buffer_`, in the order of its iterators. -/
  skNames : List TableName
  /-- The buffers of these keys. -/
  skBuffer : TableName → List BulkEntry
  /-- The calls of `write_row` so far, and those whose writes were all accepted. -/
  calls : ℕ
  inserted : List ℕ
  /-- The transaction before the rows that are in the buffers. -/
  before : TxExecution

/-- A handler without a bulk insert. -/
def BulkState.idle (s : HandlerState) (isDuplicateError : Bool) : BulkState :=
  ⟨s, isDuplicateError, false, [], [], fun _ => [], 0, [], s.tx⟩

/-- The answers of the transaction service. -/
structure BulkService where
  plain : TxService
  /-- `TxUpsert` with its check flag. -/
  upsert : TxExecution → TableName × Bytes → Bool → Option UpsertError
  /-- A `BatchReadTxRequest`: an error, or for each tuple whether its status is `Normal`. -/
  batchRead : BulkState → TableName → List Bytes → Except TxErrorCode (ℕ → Bool)

abbrev BulkM := EStateM BulkError BulkState

/-- A call of the handler that leaves the buffers alone. -/
def HandlerM.toBulk (m : HandlerM Unit) : BulkM Unit := fun s =>
  match m.run s.toHandlerState with
  | .ok _ t => .ok () { s with toHandlerState := t }
  | .error e t => .error (.ha e) { s with toHandlerState := t }

/-! ## The handler -/

/-- **`ha_eloq`, with what a bulk insert looks at.** -/
structure BulkHandler extends Handler where
  batchReadSize : ℕ
  /-- `UNIQUE_INDEX_NAME_PREFIX` and `INDEX_NAME_PREFIX` of the transaction service. -/
  uniqueIndexNamePrefix : Bytes
  indexNamePrefix : Bytes
  baseTableName : Bytes
  /-- The name of a key. -/
  keyName : ℕ → Bytes
  /-- `HA_NOSAME` and the name of the key of an index under construction. -/
  dirtyKey : ℕ → Bool × Bytes
  /-- The table has an auto-increment column; otherwise `next_number_index` is 0. -/
  foundNextNumberField : Bool
  /-- The first part of the primary key has `unireg_check == NEXT_NUMBER`. -/
  pkIsNextNumber : Bool
  /-- The auto-increment column is the first part of the key `next_number_index`. -/
  isNextNumber_of_found : foundNextNumberField = true → table.primaryKey = some nextNumberIndex →
    pkIsNextNumber = true
  /-- The order in which an `unordered_map` with these keys is gone through. -/
  iterate : List TableName → List TableName
  iterate_perm : ∀ names, (iterate names).Perm names

namespace BulkHandler

variable (h : BulkHandler)

/-- The name of an index: `<base_table_name><INDEX_NAME_PREFIX><index_name>`. -/
def indexName : TableName → Bytes
  | .base => h.baseTableName
  | .index kid => h.baseTableName ++
      (if (h.table.key kid).nosame then h.uniqueIndexNamePrefix else h.indexNamePrefix) ++
      h.keyName kid
  | .dirty i => h.baseTableName ++
      (if (h.dirtyKey i).1 then h.uniqueIndexNamePrefix else h.indexNamePrefix) ++ (h.dirtyKey i).2

/-- `index_name.StringView().find(UNIQUE_INDEX_NAME_PREFIX) != npos`. -/
def namedUnique (ix : IndexRef) : Bool := h.uniqueIndexNamePrefix <:+: h.indexName ix.name

/-- `check_primary_key`. -/
def checkPrimaryKey : Bool :=
  h.isInsertSemantic && h.table.primaryKey.isSome &&
    !(h.table.primaryKey == some h.nextNumberIndex && h.pkIsNextNumber)

/-- `ha_eloq::start_bulk_insert`. -/
def startBulkInsert (s : BulkState) : BulkState :=
  if s.isDuplicateError = false then { s with isBulkInsert := false }
  else if h.checkPrimaryKey = false ∧ h.indexes.all (fun ix => !h.namedUnique ix) then
    { s with isBulkInsert := false }
  else
    { s with
      isBulkInsert := h.checkPrimaryKey || s.isBulkInsert
      skNames := h.iterate (s.skNames ∪ (h.indexes.filter h.namedUnique).map IndexRef.name) }

/-! ## `BulkUniqueCheck` -/

section Check

variable (svc : BulkService) (n : ℕ)

/-- The first `n` elements of a vector. -/
def readBuffer (buffer : List BulkEntry) : BulkM (List BulkEntry) :=
  if n ≤ buffer.length then return buffer.take n else throw .undefined

/-- `UniqueConstraintChecking`; `errKey` is the key that a duplicate is reported for. -/
def uniqueConstraintChecking (name : TableName) (errKey : Option ℕ) (tuples : List BulkEntry) :
    BulkM (Option HaError) := do
  match svc.batchRead (← get) name (tuples.map BulkEntry.key) with
  | .error err =>
    modify fun s => { s with txErrCode := some err }
    return some (convertTxError err)
  | .ok isNormal =>
    if (List.range n).any isNormal then
      modify fun s => { s with errkey := errKey, dupErrkey := errKey }
      return some .foundDuppKey
    else return none

/-- The check of the primary keys. -/
def checkPk : BulkM Unit := do
  let tuples ← readBuffer n (← get).pkBuffer
  let res ← uniqueConstraintChecking svc n .base h.table.primaryKey tuples
  modify fun s => { s with pkBuffer := [] }
  if let some err := res then throw (.ha err)

/-- `IndexId`. -/
def indexId : TableName → Option ℕ
  | .index kid => some kid
  | _ => none

/-- The check of the keys of one index. -/
def checkSk (name : TableName) : BulkM Unit := do
  let tuples ← readBuffer n ((← get).skBuffer name)
  let res ← uniqueConstraintChecking svc n name (indexId name) tuples
  modify fun s => { s with skBuffer := Function.update s.skBuffer name [] }
  if let some err := res then throw (.ha err)

/-- `ha_eloq::BulkUniqueCheck`. -/
def bulkUniqueCheck : BulkM Unit := do
  if h.checkPrimaryKey then h.checkPk svc n
  (← get).skNames.forM (checkSk svc n)

end Check

/-! ## `BulkInsert` -/

section Insert

variable (svc : BulkService) (buf : Record)

/-- A turn of the loop of `BulkInsert`. -/
def bulkInsertIndex (hiddenPk : Option Bytes) (ix : IndexRef) : BulkM Unit := do
  let packed := h.packSk ix buf hiddenPk
  let newSk := Handler.skKey ix.isUniqueSk packed
  let newSkRec := Handler.skRecord ix.isUniqueSk packed
  if ix.isUniqueSk then
    -- `assert(index_it != unique_sk_bulk_insert_buffer_.end())`
    if ix.name ∉ (← get).skNames then throw .undefined
    modify fun s =>
      { s with
        skBuffer := Function.update s.skBuffer ix.name
          (s.skBuffer ix.name ++ [⟨s.calls, newSk, newSkRec⟩]) }
  match svc.upsert (← get).tx (ix.name, newSk) ix.isUniqueSk with
  | none => modify fun s => { s with tx := s.tx.upsert (ix.name, newSk) ⟨.insert, some newSkRec⟩ }
  | some .duplicateKey =>
    -- `assert(is_unique_sk)`
    if ix.isUniqueSk = false then throw .undefined
    modify fun s =>
      { s with
        skBuffer := Function.update s.skBuffer ix.name []
        errkey := some ix.kid
        dupErrkey := some ix.kid
        txErrCode := some UpsertError.duplicateKey.code }
    throw (.ha .foundDuppKey)
  | some (.error err) =>
    modify fun s => { s with txErrCode := some err }
    throw (.ha .outOfMem)

/-- `BulkInsert` up to its last test: the row is written. -/
def bulkInsertRow (eloqKey : Bytes) (eloqRec : EloqRecord) : BulkM Unit := do
  h.indexes.forM (h.bulkInsertIndex svc buf (h.table.hiddenPk eloqKey))
  if h.checkPrimaryKey then
    modify fun s => { s with pkBuffer := s.pkBuffer ++ [⟨s.calls, eloqKey, eloqRec⟩] }
  match svc.upsert (← get).tx (.base, eloqKey) h.checkPrimaryKey with
  | none =>
    modify fun s =>
      { s with
        tx := s.tx.upsert (.base, eloqKey) ⟨.insert, some eloqRec⟩
        inserted := s.calls :: s.inserted }
  | some .duplicateKey =>
    modify fun s =>
      { s with
        pkBuffer := []
        errkey := h.table.primaryKey
        dupErrkey := h.table.primaryKey
        txErrCode := some UpsertError.duplicateKey.code }
    throw (.ha .foundDuppKey)
  | some (.error err) =>
    modify fun s => { s with txErrCode := some err }
    throw (.ha .outOfMem)

/-- The size of the first buffer of an index. -/
def firstSkSize (s : BulkState) : ℕ :=
  match s.skNames with
  | [] => 0
  | name :: _ => (s.skBuffer name).length

/-- `bulk_insert_size` in `BulkInsert`. -/
def bulkInsertSize (s : BulkState) : ℕ :=
  if h.checkPrimaryKey then s.pkBuffer.length else firstSkSize s

/-- `ha_eloq::BulkInsert`. -/
def bulkInsert (eloqKey : Bytes) (eloqRec : EloqRecord) : BulkM Unit := do
  h.bulkInsertRow svc buf eloqKey eloqRec
  let s ← get
  if h.batchReadSize ≤ h.bulkInsertSize s then h.bulkUniqueCheck svc (h.bulkInsertSize s)

end Insert

/-! ## The calls of the SQL layer -/

/-- What `write_row` has before it packs the row. -/
def beginRow (insertIdForCurRow : ℕ) (s : BulkState) : BulkState :=
  { s with
    insertIdForCurRow := insertIdForCurRow
    calls := s.calls + 1
    before := if s.pkBuffer = [] then s.tx else s.before }

/-- `ha_eloq::write_row`; the arguments are those of `Handler.writeRow`. -/
def writeRow (svc : BulkService) (updateAutoIncrement : Record → Option (Record × ℕ)) (uuid : Bytes)
    (buf : Record) : BulkM Unit :=
  match updateAutoIncrement buf with
  | none => throw (.ha .eloqAutoIncrementFailed)
  | some (buf, insertIdForCurRow) => do
    modify (beginRow insertIdForCurRow)
    let s ← get
    let (key, record) := h.packKeyRecord buf uuid
    if s.isBulkInsert && s.isDuplicateError then h.bulkInsert svc buf key record
    else HandlerM.toBulk (h.insert svc.plain buf key record)

/-- `bulk_insert_size` in `end_bulk_insert`. -/
def endSize (s : BulkState) : ℕ :=
  if s.pkBuffer.length = 0 then firstSkSize s else s.pkBuffer.length

/-- The handler after a bulk insert. -/
def ended (s : BulkState) : BulkState :=
  { s with
    isDuplicateError := true
    isBulkInsert := false
    pkBuffer := []
    skNames := []
    skBuffer := fun _ => [] }

/-- `ha_eloq::end_bulk_insert`. -/
def endBulkInsert (svc : BulkService) : BulkM Unit := fun s =>
  if s.isBulkInsert ∧ 0 < endSize s then
    match (h.bulkUniqueCheck svc (endSize s)).run s with
    | .ok _ s' => .ok () (ended s')
    | .error (.ha err) s' => .error (.ha err) (ended s')
    | .error .undefined s' => .error .undefined s'
  else .ok () (ended s)

end BulkHandler

end EloqSql
