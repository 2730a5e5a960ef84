import EloqSql.Table
import EloqSql.Unpacking

/-!
# KeyDef — the key definitions of a table, and keys made of records

`KeyDef.setup` lists the parts of an index: its own, and the parts of the primary key that they do
not contain. `packRecord` packs a record into a key, `unpackRecord` takes it apart again, and
`packIndexTuple` packs the key tuple of a lookup, which `keyCopy` makes of a record and `keyRestore`
writes into the scratch record of the handler.
-/

namespace EloqSql

/-! ## `mono_key_def::setup` -/

/-- `m_index_type`. -/
inductive IndexType where
  | primary | secondary | hiddenPrimary
  deriving DecidableEq, Repr

/-- `mono_key_def`. -/
structure KeyDef where
  indexType : IndexType
  keyno : ℕ
  /-- `m_pack_info`, of `m_key_parts` elements. -/
  packInfo : List FieldPacking
  /-- `m_unique_sk_only_key_parts`. -/
  uniqueSkOnlyKeyParts : ℕ

namespace KeyDef

/-- `m_key_parts`. -/
def keyParts (kd : KeyDef) : ℕ := kd.packInfo.length

/-- The packing of a key part. -/
def packPart (t : TableShare) (p : KeyPartInfo) : FieldPacking :=
  FieldPacking.setup p.fieldIndex
    (FieldPacking.keyField p.cloned (t.field p.fieldIndex) p.length) p.length

/-- The parts an index is extended with: those of the primary key that it does not contain, by
column and length, or the hidden primary key. -/
def simulatedParts (t : TableShare) (k : Key) : List FieldPacking :=
  if t.tableHasHiddenPk then [FieldPacking.setupHidden]
  else (t.missingPkParts k.extKeyParts).map (packPart t)

/-- `mono_key_def::setup`. `m_unique_sk_only_key_parts` is set for unique secondary indexes only;
`unset` is what it holds otherwise. -/
def setup (t : TableShare) (indexType : IndexType) (keyno unset : ℕ) : KeyDef :=
  match indexType with
  | .hiddenPrimary => ⟨indexType, keyno, [FieldPacking.setupHidden], unset⟩
  | .primary => ⟨indexType, keyno, (t.key keyno).extKeyParts.map (packPart t), unset⟩
  | .secondary =>
    let k := t.key keyno
    { indexType := indexType
      keyno := keyno
      packInfo := k.extKeyParts.map (packPart t) ++ simulatedParts t k
      uniqueSkOnlyKeyParts := if k.nosame then k.extKeyParts.length else unset }

end KeyDef

/-! ## `mono_key_def::pack_record` -/

/-- What `pack_record` writes: the key, the unpack info, and the size of the declared parts if
`*unique_sk_pack_size` was set. -/
structure PackedRecord where
  tuple : Bytes
  unpackInfo : Bytes
  uniqueSkPackSize : Option ℕ

/-- The image of a part of a record, and what it adds to the unpack info. -/
def packPartOf (t : TableShare) (r : Record) (fpi : FieldPacking) : Bytes × Bytes :=
  match fpi.fieldIdx with
  | none => ([], [])
  | some i => packField (FieldPacking.partField (t.field i) fpi.keyPartLength) fpi (r i)

/-- The loop of `pack_record` over the parts from the `i`-th of `nKeyParts` on. The size of the
declared parts is noted here for every call, and `packRecord` keeps it for those that ask. -/
def packRecordLoop (t : TableShare) (uniqueSkOnlyKeyParts nKeyParts : ℕ) (r : Record)
    (hiddenPkId : Option Bytes) : ℕ → List FieldPacking → PackedRecord → PackedRecord
  | _, [], acc => acc
  | i, fpi :: parts, acc =>
    let acc := if i = uniqueSkOnlyKeyParts then
      { acc with uniqueSkPackSize := some acc.tuple.length } else acc
    match hiddenPkId with
    | some id =>
      if t.tableHasHiddenPk ∧ i + 1 = nKeyParts then { acc with tuple := acc.tuple ++ id }
      else
        packRecordLoop t uniqueSkOnlyKeyParts nKeyParts r hiddenPkId (i + 1) parts
          { acc with
            tuple := acc.tuple ++ (packPartOf t r fpi).1
            unpackInfo := acc.unpackInfo ++ (packPartOf t r fpi).2 }
    | none =>
      packRecordLoop t uniqueSkOnlyKeyParts nKeyParts r hiddenPkId (i + 1) parts
        { acc with
          tuple := acc.tuple ++ (packPartOf t r fpi).1
          unpackInfo := acc.unpackInfo ++ (packPartOf t r fpi).2 }

/-- The number of parts `pack_record` packs when it is asked for `nKeyParts` of them;
`isModifyingUniqueSk` says that `unique_sk_pack_size` is not null. -/
def usedKeyParts (t : TableShare) (kd : KeyDef) (isModifyingUniqueSk hasHiddenPkId : Bool)
    (nKeyParts : ℕ) : ℕ :=
  let useAllColumns := nKeyParts = 0 ∨ nKeyParts = maxRefParts
  if t.tableHasHiddenPk ∧ !hasHiddenPkId ∧ useAllColumns then kd.keyParts - 1
  else if useAllColumns ∨ isModifyingUniqueSk then kd.keyParts
  else nKeyParts

/-- The unpack info starts with its own length, and stays empty if no part writes to it. -/
def unpackHeader (info : Bytes) : Bytes :=
  if info.length = 0 then [] else writeUint16 (info.length + 2) ++ info

/-- `mono_key_def::pack_record`. -/
def packRecord (t : TableShare) (kd : KeyDef) (r : Record) (isModifyingUniqueSk : Bool)
    (hiddenPkId : Option Bytes) (nKeyParts : ℕ) : PackedRecord :=
  let n := usedKeyParts t kd isModifyingUniqueSk hiddenPkId.isSome nKeyParts
  let acc := packRecordLoop t kd.uniqueSkOnlyKeyParts n r hiddenPkId 0 (kd.packInfo.take n)
    ⟨[], [], none⟩
  { tuple := acc.tuple
    unpackInfo := unpackHeader acc.unpackInfo
    uniqueSkPackSize := if isModifyingUniqueSk then acc.uniqueSkPackSize else none }

/-- `unique_sk_packed_size`, which the handler sets to 0 before it calls `pack_record`. -/
def PackedRecord.split (p : PackedRecord) : ℕ := p.uniqueSkPackSize.getD 0

/-- The `EloqKey` constructor that packs a record. The size of a unique key is an uninitialized
local before `pack_record` sets it; `uninit` is what it holds. -/
def eloqKey (t : TableShare) (kd : KeyDef) (r : Record) (hiddenPk : Option Bytes)
    (isUniqueSk : Bool) (uninit : ℕ) : Bytes :=
  let packed := packRecord t kd r isUniqueSk hiddenPk 0
  if isUniqueSk then packed.tuple.take (packed.uniqueSkPackSize.getD uninit) else packed.tuple

/-! ## Key tuples -/

/-- A key tuple of the SQL layer: for each part its NULL byte and its image. -/
abbrev KeyTuple := List Cell

/-- `Field::get_key_image`: the first characters of a string, and spaces up to the length of the
part if it is of fixed length; everything of other columns. -/
def getKeyImage (f : Field) (length : ℕ) (v : Bytes) : Bytes :=
  match f.realType with
  | .varchar | .blob _ => f.charset.takeChars (length / f.charset.mbmaxlen) v
  | .string =>
    let s := f.charset.takeChars (length / f.charset.mbmaxlen) v
    s ++ List.replicate (length - s.length) f.charset.padChar
  | _ => v

/-- `key_copy`: the key tuple of a record, for some parts of a key. -/
def keyCopy (t : TableShare) (parts : List KeyPartInfo) (r : Record) : KeyTuple :=
  parts.map fun p =>
    let f := t.field p.fieldIndex
    if f.maybeNull && (r p.fieldIndex).isNull then ⟨true, []⟩
    else ⟨false, getKeyImage f p.length (r p.fieldIndex).bytes⟩

/-- The bytes `key_restore` leaves in a column: `set_key_image` stores a `VARCHAR`, a `BLOB` is
pointed to, and everything else is copied over the head of the column. -/
def restoreKeyImage (f : Field) (length : ℕ) (image old : Bytes) : Bytes :=
  match f.realType with
  | .varchar => f.charset.takeChars (length / f.charset.mbmaxlen) image
  | .blob _ => image
  | _ => image ++ old.drop image.length

/-- `key_restore` for one part; NULL leaves the bytes of the record alone. -/
def keyRestorePart (t : TableShare) (r : Record) (p : KeyPartInfo) (image : Cell) : Record :=
  let f := t.field p.fieldIndex
  Function.update r p.fieldIndex <|
    if f.maybeNull && image.isNull then { r p.fieldIndex with isNull := true }
    else
      ⟨if f.maybeNull then false else (r p.fieldIndex).isNull,
        restoreKeyImage f p.length image.bytes (r p.fieldIndex).bytes⟩

/-- `key_restore`, for as many parts as the key tuple has. -/
def keyRestore (t : TableShare) : Record → List KeyPartInfo → KeyTuple → Record
  | r, p :: parts, image :: key => keyRestore t (keyRestorePart t r p image) parts key
  | r, _, _ => r

/-- `HA_WHOLE_KEY`, of 64 bits. -/
def haWholeKey : ℕ := 2 ^ 64 - 1

/-- `my_count_bits`. -/
def myCountBits (x : ℕ) : ℕ := (List.range 64).countP (x.testBit ·)

/-- `calculate_key_len`, in parts: how many of the `n` parts of a key a key part map covers. -/
def calculateKeyLen : ℕ → ℕ → ℕ
  | 0, _ => 0
  | n + 1, keypartMap => if keypartMap = 0 then 0 else calculateKeyLen n (keypartMap >>> 1) + 1

/-- `mono_key_def::pack_index_tuple`: restore the key tuple into the scratch record, then pack that.
-/
def packIndexTuple (t : TableShare) (kd : KeyDef) (recordBuffer : Record) (key : KeyTuple)
    (keypartMap : ℕ) : Bytes :=
  let parts := (t.key kd.keyno).extKeyParts
  let keyLen := calculateKeyLen parts.length keypartMap
  let record := keyRestore t recordBuffer parts (key.take keyLen)
  let nUsedParts := if keypartMap = haWholeKey then 0 else myCountBits keypartMap
  (packRecord t kd record false none nUsedParts).tuple

/-! ## `mono_key_def::unpack_record` -/

/-- `mono_key_field_iterator::next`, for all parts from the `i`-th of `n` on. The hidden primary key
is skipped. Returns the record and what is left of both readers. -/
def unpackParts (t : TableShare) (indexType : IndexType) (defaults : ℕ → Bytes) (n : ℕ) :
    ℕ → List FieldPacking → Record → Bytes → Bytes → Option (Record × Bytes × Bytes)
  | _, [], buf, reader, unpReader => some (buf, reader, unpReader)
  | i, fpi :: parts, buf, reader, unpReader =>
    if (indexType = .secondary ∧ t.tableHasHiddenPk ∧ i + 1 = n) ∨ indexType = .hiddenPrimary then
      match StringReader.read fpi.maxImageLen reader with
      | none => none
      | some (_, reader) => unpackParts t indexType defaults n (i + 1) parts buf reader unpReader
    else
      match fpi.fieldIdx with
      | none => none
      | some j =>
        let f := FieldPacking.partField (t.field j) fpi.keyPartLength
        match fpi.unpackFunc with
        | some func =>
          match decodeField fpi func f (defaults j) reader unpReader with
          | none => none
          | some (c, reader, unpReader) =>
            unpackParts t indexType defaults n (i + 1) parts (Function.update buf j c) reader
              unpReader
        | none =>
          match skipField fpi f reader unpReader with
          | none => none
          | some (reader, unpReader) =>
            unpackParts t indexType defaults n (i + 1) parts buf reader unpReader

/-- `mono_key_def::unpack_record`: the record, and what is left of the unpack info; nothing may be
left of the key. -/
def unpackRecord (t : TableShare) (kd : KeyDef) (defaults : ℕ → Bytes) (buf : Record)
    (packedKey unpackInfo : Bytes) : Option (Record × Bytes) :=
  let unpLen := unpackInfo.length
  let unpReader := if unpLen = 0 then some []
    else
      match StringReader.readUint16 unpackInfo with
      | none => none
      | some (recordUnpLen, unpReader) => if recordUnpLen ≠ unpLen then none else some unpReader
  match unpReader with
  | none => none
  | some unpReader =>
    match unpackParts t kd.indexType defaults kd.keyParts 0 kd.packInfo buf packedKey unpReader with
    | none => none
    | some (buf, reader, unpReader) => if reader.length ≠ 0 then none else some (buf, unpReader)

end EloqSql
