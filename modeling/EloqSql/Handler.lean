import EloqSql.KeyDef.Parts
import EloqSql.Tx

/-!
# Handler — writing rows

`Insert`, `Update` and `Delete` of `ha_eloq` go over the secondary indexes of the table, then over
those under construction, and write the base table last. `writeRow`, `updateRow` and `deleteRow` are
the calls of the SQL layer.

Each index is handled in one step (`insertIndex`, `updateIndex`, `deleteIndex`), and each of the
three packs the key of the index for itself, as the source does.
-/

namespace EloqSql

/-! ## Indexes -/

/-- What the loops over the indexes know of one. -/
structure IndexRef where
  name : TableName
  keyDef : KeyDef
  /-- `is_unique_sk`. -/
  isUniqueSk : Bool
  kid : ℕ

/-- `ha_eloq`, with what stays the same during a statement. -/
structure Handler where
  table : Table
  /-- What `m_unique_sk_only_key_parts` of an index that is not unique holds, which nothing sets. -/
  unset : ℕ → ℕ
  /-- `EloqRecordSchema::Encode`. -/
  encode : Record → Bytes
  /-- `DirtyIndexNames`: the indexes under construction. -/
  dirty : List KeyDef
  /-- `is_insert_semantic_`. -/
  isInsertSemantic : Bool
  /-- `next_number_index`. -/
  nextNumberIndex : ℕ

namespace Handler

variable (h : Handler)

/-- The index of a key. -/
def index (kid : ℕ) : IndexRef where
  name := .index kid
  keyDef := KeyDef.setup h.table.toTableShare .secondary kid (h.unset kid)
  isUniqueSk := (h.table.key kid).nosame
  kid := kid

/-- The keys before `n` that are not the primary key. -/
def secondaryKids (n : ℕ) : List ℕ :=
  (List.range n).filter fun kid => h.table.primaryKey ≠ some kid

/-- An index under construction is not checked for duplicates. -/
def dirtyIndex (i : ℕ) (keyDef : KeyDef) : IndexRef :=
  ⟨.dirty i, keyDef, false, h.table.keyInfo.length⟩

/-- The indexes in the order of the loops. -/
def indexes : List IndexRef :=
  (h.secondaryKids h.table.keyInfo.length).map h.index ++ h.dirty.mapIdx h.dirtyIndex

/-! ## Packing -/

/-- `pack_record` for an index, with a `unique_sk_pack_size` that was set to 0. -/
def packSk (ix : IndexRef) (buf : Record) (hiddenPk : Option Bytes) : PackedRecord :=
  packRecord h.table.toTableShare ix.keyDef buf true hiddenPk 0

/-- The key that is stored in an index. -/
def skKey (isUniqueSk : Bool) (packed : PackedRecord) : Bytes :=
  if isUniqueSk then packed.tuple.take packed.split else packed.tuple

/-- The record that is stored in an index: the bytes behind a unique key. -/
def skRecord (isUniqueSk : Bool) (packed : PackedRecord) : EloqRecord :=
  ⟨if isUniqueSk then packed.tuple.drop packed.split else [], packed.unpackInfo⟩

/-- The key definition of the primary key. -/
def pkDescr : KeyDef :=
  match h.table.primaryKey with
  | some pk => KeyDef.setup h.table.toTableShare .primary pk 0
  | none => KeyDef.setup h.table.toTableShare .hiddenPrimary h.table.keyInfo.length 0

/-- The packed primary key of a row. -/
def packPk (buf : Record) : PackedRecord :=
  packRecord h.table.toTableShare h.pkDescr buf false none 0

/-- `PackKeyRecord`; `uuid` is what `my_uuid` makes for a row without a primary key. -/
def packKeyRecord (buf : Record) (uuid : Bytes) : Bytes × EloqRecord :=
  if h.table.tableHasHiddenPk then (uuid, ⟨h.encode buf, []⟩)
  else ((h.packPk buf).tuple, ⟨h.encode buf, (h.packPk buf).unpackInfo⟩)

/-! ## `Insert` -/

section Insert

variable (svc : TxService) (buf : Record) (hiddenPk : Option Bytes)

/-- The undo of the indexes before `kid`. The keys are cut as that of the index that failed,
`isUniqueSk`, says. -/
def revertIndexes (kid : ℕ) (isUniqueSk : Bool) : HandlerM Unit :=
  (h.secondaryKids kid).forM fun i =>
    modify fun s =>
      { s with tx := s.tx.revert (.index i, skKey isUniqueSk (h.packSk (h.index i) buf hiddenPk)) }

/-- `SkRead` of a new key of a unique index. -/
def checkUnique (ix : IndexRef) (key : Bytes) : HandlerM Unit := do
  match ← svc.read (ix.name, key) with
  | .deleted => pure ()
  | .normal =>
    h.revertIndexes buf hiddenPk ix.kid ix.isUniqueSk
    modify fun s => { s with errkey := some ix.kid, dupErrkey := some ix.kid }
    throw .foundDuppKey
  | .unknown err => throw (convertTxError err)

/-- A turn of the loop of `Insert`. -/
def insertIndex (ix : IndexRef) : HandlerM Unit := do
  let packed := h.packSk ix buf hiddenPk
  let key := skKey ix.isUniqueSk packed
  if ix.isUniqueSk then h.checkUnique svc buf hiddenPk ix key
  svc.txUpsert (ix.name, key) ⟨.insert, some (skRecord ix.isUniqueSk packed)⟩

end Insert

/-- Whether `Insert` takes the primary key for new without a read: upsert semantic, a hidden primary
key, or an auto-increment primary key while `insert_id_for_cur_row` is set. -/
def skipsPkCheck (insertIdForCurRow : ℕ) : Bool :=
  !h.isInsertSemantic || h.table.primaryKey.isNone ||
    (h.table.primaryKey == some h.nextNumberIndex && insertIdForCurRow != 0)

/-- `ha_eloq::Insert`. -/
def insert (svc : TxService) (buf : Record) (eloqKey : Bytes) (eloqRec : EloqRecord) :
    HandlerM Unit := do
  let s ← get
  let recStat ← if h.skipsPkCheck s.insertIdForCurRow then pure .deleted
    else svc.read (.base, eloqKey)
  match recStat with
  | .deleted =>
    h.indexes.forM (h.insertIndex svc buf (h.table.hiddenPk eloqKey))
    svc.txUpsert (.base, eloqKey) ⟨.insert, some eloqRec⟩
  | .normal =>
    modify fun s => { s with errkey := h.table.primaryKey, dupErrkey := h.table.primaryKey }
    throw .foundDuppKey
  | .unknown err => throw (convertTxError err)

/-! ## `Update` and `Delete` -/

section Update

variable (svc : TxService) (newData oldData : Record) (hiddenPk : Option Bytes)

/-- `SkRead` of a new key of a unique index in `Update`, which undoes nothing. -/
def checkNewSk (ix : IndexRef) (newSk : Bytes) : HandlerM Unit := do
  match ← svc.read (ix.name, newSk) with
  | .normal =>
    modify fun s => { s with errkey := some ix.kid, dupErrkey := some ix.kid }
    throw .foundDuppKey
  | .deleted => pure ()
  | .unknown err => throw (convertTxError err)

/-- A turn of the loop of `Update`: only a key that has changed is written. -/
def updateIndex (ix : IndexRef) : HandlerM Unit := do
  let oldSk := skKey ix.isUniqueSk (h.packSk ix oldData hiddenPk)
  let packed := h.packSk ix newData hiddenPk
  let newSk := skKey ix.isUniqueSk packed
  if newSk ≠ oldSk then
    if ix.isUniqueSk then checkNewSk svc ix newSk
    svc.txUpsert (ix.name, newSk) ⟨.insert, some (skRecord ix.isUniqueSk packed)⟩
    svc.txUpsert (ix.name, oldSk) ⟨.delete, none⟩

/-- A turn of the loop of `Delete`, which makes the key with the `EloqKey` constructor; `uninit` is
what the local for the size of a unique key holds before. -/
def deleteIndex (uninit : ℕ → ℕ) (ix : IndexRef) : HandlerM Unit :=
  let oldSk := eloqKey h.table.toTableShare ix.keyDef oldData hiddenPk ix.isUniqueSk (uninit ix.kid)
  svc.txUpsert (ix.name, oldSk) ⟨.delete, none⟩

end Update

/-- `ha_eloq::Update`. -/
def update (svc : TxService) (newData oldData : Record) (eloqKey : Bytes) (newRec : EloqRecord) :
    HandlerM Unit := do
  h.indexes.forM (h.updateIndex svc newData oldData (h.table.hiddenPk eloqKey))
  svc.txUpsert (.base, eloqKey) ⟨.update, some newRec⟩

/-- `ha_eloq::Delete`. -/
def delete (svc : TxService) (uninit : ℕ → ℕ) (oldData : Record) (eloqKey : Bytes) :
    HandlerM Unit := do
  h.indexes.forM (h.deleteIndex svc oldData (h.table.hiddenPk eloqKey) uninit)
  svc.txUpsert (.base, eloqKey) ⟨.delete, none⟩

/-! ## The calls of the SQL layer -/

/-- `ha_eloq::write_row` while no bulk insert is open. `updateAutoIncrement` fills in the
auto-increment column, and gives `insert_id_for_cur_row`. -/
def writeRow (svc : TxService) (updateAutoIncrement : Record → Option (Record × ℕ)) (uuid : Bytes)
    (buf : Record) : HandlerM Unit :=
  match updateAutoIncrement buf with
  | none => throw .eloqAutoIncrementFailed
  | some (buf, insertIdForCurRow) => do
    modify fun s => { s with insertIdForCurRow := insertIdForCurRow }
    let (key, record) := h.packKeyRecord buf uuid
    h.insert svc buf key record

/-- `ha_eloq::update_row`. A row without a primary key is the one that was read last. -/
def updateRow (svc : TxService) (uninit : ℕ → ℕ) (lastReadKey : Bytes)
    (oldData newData : Record) : HandlerM Unit := do
  let (newKey, newRec) := h.packKeyRecord newData lastReadKey
  let oldKey := (h.packKeyRecord oldData lastReadKey).1
  if newKey ≠ oldKey then
    h.insert svc newData newKey newRec
    h.delete svc uninit oldData oldKey
  else h.update svc newData oldData newKey newRec

/-- `ha_eloq::delete_row`. -/
def deleteRow (svc : TxService) (uninit : ℕ → ℕ) (lastReadKey : Bytes) (buf : Record) :
    HandlerM Unit :=
  h.delete svc uninit buf (h.packKeyRecord buf lastReadKey).1

end Handler

end EloqSql
