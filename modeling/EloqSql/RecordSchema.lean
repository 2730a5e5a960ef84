import EloqSql.Lib.Bitmap
import EloqSql.Lib.Memory
import EloqSql.Table

/-!
# RecordSchema — how a record becomes the payload of a row

`EloqRecordSchema::Encode` copies the columns of a record that are not in the primary key, and
`Decode` copies the requested ones back. Both take the length of a column from `EloqFieldType`,
which `Convert` makes of the column, and not from the column: the model therefore has the bytes of
the record, in a memory that also holds the values of `BLOB` columns and the payload that is
decoded.

A `RecordLayout` says where the columns and their NULL bits are. `RecordLayout.cell` reads a column
of a record as a `Cell`, the view that the key packing has of it.
-/

namespace EloqSql

open Memory

/-! ## Columns in memory -/

/-- `store_lowendian`: a number of `n` bytes, low byte first. -/
def leBytes : ℕ → ℕ → Bytes
  | 0, _ => []
  | n + 1, v => UInt8.ofNat v :: leBytes n (v / 256)

/-- `charset->number == 63`. -/
def Collation.isBinary : Collation → Bool
  | .binary => true
  | .latin1Bin | .utf8Bin | .utf8mb4Bin | .simple _ => false

namespace Field

/-- The size of a pointer in a `BLOB` column. -/
def portableSizeofCharPtr : ℕ := 8

variable (f : Field) (m : ℕ → UInt8) (ptr : ℕ)

/-- `Field_varstring::data_length`. -/
def dataLength : ℕ := leNat (load m ptr f.lengthBytes)

/-- `Field_varstring::store`. -/
def storeVarstring (v : Bytes) : ℕ → UInt8 :=
  let copied := f.charset.takeChars f.charLength (v.take f.fieldLength)
  store m ptr (leBytes f.lengthBytes copied.length ++ copied)

/-- `Field_string::store`: as many characters as the column has, then padding. -/
def storeString (v : Bytes) : ℕ → UInt8 :=
  let copied := f.charset.takeChars f.charLength (v.take f.fieldLength)
  store m ptr (copied ++ List.replicate (f.fieldLength - copied.length) f.charset.padChar)

/-- `packlength` of a `Field_blob`. -/
def blobPacklength : ℕ :=
  match f.realType with
  | .blob packlength => packlength
  | _ => 0

/-- `Field_blob::get_length`. -/
def blobLength : ℕ := leNat (load m ptr f.blobPacklength)

/-- `Field_blob::get_ptr`. -/
def blobPtr : ℕ := leNat (load m (ptr + f.blobPacklength) portableSizeofCharPtr)

/-- `Field_blob::set_ptr`. -/
def blobSetPtr (length data : ℕ) : ℕ → UInt8 :=
  store m ptr (leBytes f.blobPacklength length ++ leBytes portableSizeofCharPtr data)

/-- The value of a column. -/
def value : Bytes :=
  match f.realType with
  | .varchar => load m (ptr + f.lengthBytes) (f.dataLength m ptr)
  | .blob _ => load m (f.blobPtr m ptr) (f.blobLength m ptr)
  | _ => load m ptr f.packLength

/-- A column as the server makes it. -/
def wfColumn : Bool :=
  match f.realType with
  | .newdecimal precision decimals => 0 < precision && decimals ≤ precision && precision ≤ 65
  | .time2 dec | .datetime2 dec | .timestamp2 dec | .time dec | .datetime dec | .timestamp dec =>
    dec ≤ 6
  | .enum n => [1, 2].contains n
  | .set n => [1, 2, 3, 4, 8].contains n
  | .bit n => 1 ≤ n && n ≤ 8
  | .varchar => f.fieldLength < 65536 && f.fieldLength % f.charset.mbmaxlen == 0
  | .string => f.fieldLength ≤ 255 * f.charset.mbmaxlen && f.fieldLength % f.charset.mbmaxlen == 0
  | .blob n => 1 ≤ n && n ≤ 4
  | _ => true

end Field

/-- Where the columns of a table are in its records: the NULL bits, then the stored columns, then
the virtual ones. -/
structure RecordLayout (t : TableShare) where
  /-- `stored_in_db()`. -/
  storedInDb : ℕ → Bool
  /-- `ptr - record[0]`. -/
  offset : ℕ → ℕ
  /-- `null_offset()`. -/
  nullOffset : ℕ → ℕ
  /-- The number of the bit that `null_bit` has. -/
  nullBit : ℕ → ℕ
  /-- `reclength`. -/
  reclength : ℕ
  /-- The bytes that `Field_float::store(double)` and `Field_double::store(double)` leave for the
  number with the given bytes: of a column `(M,D)` they round it. -/
  storeReal : ℕ → Bytes → Bytes
  length_storeReal : ∀ i v, (storeReal i v).length = v.length
  column_wf : ∀ i < t.fields, (t.field i).wfColumn = true := by decide
  /-- A primary key has no virtual column. -/
  pk_stored : ∀ p ∈ t.pkParts, storedInDb p.fieldIndex = true := by decide
  nullBit_lt : ∀ i < t.fields, nullBit i < 8 := by decide
  null_inj : ∀ i < t.fields, ∀ j < t.fields, (t.field i).maybeNull = true →
    (t.field j).maybeNull = true → nullOffset i = nullOffset j → nullBit i = nullBit j → i = j
  null_lt : ∀ i < t.fields, ∀ j < t.fields, (t.field i).maybeNull = true →
    nullOffset i < offset j := by decide
  offset_le : ∀ j < t.fields, ∀ i < j, storedInDb i = true →
    offset i + (t.field i).packLength ≤ offset j := by decide
  virtual_le : ∀ i < t.fields, ∀ j < i, storedInDb i = true → storedInDb j = false →
    offset i + (t.field i).packLength ≤ offset j := by decide
  offset_lt : ∀ i < t.fields, offset i + (t.field i).packLength ≤ reclength := by decide

namespace RecordLayout

variable {t : TableShare} (l : RecordLayout t) (m : ℕ → UInt8) (record : ℕ)

/-- `field->ptr`, moved to a record. -/
def ptr (i : ℕ) : ℕ := record + l.offset i

/-- `real_maybe_null() && is_real_null()`, in a record. -/
def isNull (i : ℕ) : Bool :=
  (t.field i).maybeNull && Bitmap.testBit (m (record + l.nullOffset i)) (l.nullBit i)

/-- `set_null` and `set_notnull`, in a record. -/
def setNull (i : ℕ) (isNull : Bool) : ℕ → UInt8 :=
  if (t.field i).maybeNull then
    store m (record + l.nullOffset i)
      [Bitmap.withBit isNull (l.nullBit i) (m (record + l.nullOffset i))]
  else m

/-- A column of a record, as the key packing sees it. -/
def cell (i : ℕ) : Cell := ⟨l.isNull m record i, (t.field i).value m (l.ptr record i)⟩

end RecordLayout

/-! ## `EloqRecordSchema` -/

/-- `EloqDataType`. -/
inductive EloqDataType where
  | integer | unsignedInteger | decimal | float | datetime | timestamp | date | time
  | string | binary | varString | varBinary

/-- `EloqFieldType`. -/
structure EloqFieldType where
  dataType : EloqDataType
  /-- `len_`, of 16 bits: a number of bytes, or of digits. -/
  len : ℕ

/-- What `Convert` makes of the type of a column. -/
def EloqFieldType.ofField (f : Field) : EloqDataType × ℕ :=
  let intType := if f.unsignedFlag then EloqDataType.unsignedInteger else .integer
  let varType := if f.charset.isBinary then EloqDataType.varBinary else .varString
  match f.realType with
  | .tiny => (intType, 1)
  | .short => (intType, 2)
  | .int24 => (intType, 3)
  | .long => (intType, 4)
  | .longlong => (intType, 8)
  | .float => (.float, 4)
  | .double => (.float, 8)
  | .newdate => (.date, 3)
  | .time dec | .time2 dec => (.time, dec)
  | .datetime dec | .datetime2 dec => (.datetime, dec)
  | .timestamp dec | .timestamp2 dec => (.timestamp, dec)
  | .year => (.integer, 1)
  | .varchar => (varType, f.lengthBytes)
  | .string => (if f.charset.isBinary then .binary else .string, f.fieldLength)
  | .newdecimal precision decimals => (.decimal, precision <<< 8 ||| decimals)
  | .bit bytesInRec => (.integer, bytesInRec)
  | .blob packlength => (varType, packlength)
  | .set packlength =>
    (.integer, if packlength ≤ 2 then packlength else if packlength ≤ 4 then 4 else 8)
  | .enum packlength => (.unsignedInteger, packlength)

/-- `EloqFieldType::Convert`. -/
def EloqFieldType.convert (f : Field) : EloqFieldType :=
  ⟨(ofField f).1, (ofField f).2 % 2 ^ 16⟩

/-- `my_time_binary_length`. -/
def myTimeBinaryLength (dec : ℕ) : ℕ := 3 + (dec + 1) / 2

/-- `my_timestamp_binary_length`. -/
def myTimestampBinaryLength (dec : ℕ) : ℕ := 4 + (dec + 1) / 2

/-- `my_datetime_binary_length`. -/
def myDatetimeBinaryLength (dec : ℕ) : ℕ := 5 + (dec + 1) / 2

namespace EloqFieldType

/-- How many bytes of a column that is no string `Encode` and `Decode` copy. -/
def storageLen (ty : EloqFieldType) : ℕ :=
  match ty.dataType with
  | .time => myTimeBinaryLength ty.len
  | .timestamp => myTimestampBinaryLength ty.len
  | .datetime => myDatetimeBinaryLength ty.len
  | .decimal => decimalBinSize (ty.len >>> 8) (ty.len &&& 0xFF)
  | _ => ty.len

/-- How many bytes `Encode` and `Decode` take for the length of a `BLOB`. -/
def blobLenBytes (ty : EloqFieldType) : ℕ := if ty.len ≤ 2 then ty.len else 4

variable (ty : EloqFieldType) (f : Field) (m : ℕ → UInt8) (ptr : ℕ)

/-- `EncodeString` for a string of variable length. -/
def encodeString : Bytes :=
  match f.realType with
  | .varchar =>
    leBytes ty.len (f.dataLength m ptr) ++ load m (ptr + ty.len) (f.dataLength m ptr)
  | _ => leBytes ty.len (f.blobLength m ptr) ++ load m (f.blobPtr m ptr) (f.blobLength m ptr)

/-- What `Encode` appends for a column that is not NULL. The bytes of a `FLOAT` or `DOUBLE` are
those of the number that `val_real` gives. -/
def encodeField : Bytes :=
  match ty.dataType with
  | .varString => ty.encodeString f m ptr
  | .varBinary =>
    match f.realType with
    | .varchar =>
      leBytes ty.len (f.dataLength m ptr) ++ load m (ptr + ty.len) (f.dataLength m ptr)
    | _ =>
      leBytes ty.blobLenBytes (f.blobLength m ptr)
        ++ load m (f.blobPtr m ptr) (f.blobLength m ptr)
  | _ => load m ptr ty.storageLen

/-- What `Decode` does for a column that is not NULL: the memory, and the offset of the next column.
The payload `buf` is at the address `data`. A `FLOAT` or `DOUBLE` goes through `storeReal`. -/
def decodeField (storeReal : Bytes → Bytes) (fieldRequested : Bool) (data : ℕ) (buf : Bytes)
    (bufOffset : ℕ) : (ℕ → UInt8) × ℕ :=
  match ty.dataType with
  | .varString =>
    let strLen := leNat ((buf.drop bufOffset).take ty.len)
    let bufOffset := bufOffset + ty.len
    (if fieldRequested then
      match f.realType with
      | .varchar => f.storeVarstring m ptr ((buf.drop bufOffset).take strLen)
      | _ => f.blobSetPtr m ptr strLen (data + bufOffset)
    else m, bufOffset + strLen)
  | .varBinary =>
    match f.realType with
    | .varchar =>
      let strLen := leNat ((buf.drop bufOffset).take ty.len)
      let bufOffset := bufOffset + ty.len
      (if fieldRequested then f.storeVarstring m ptr ((buf.drop bufOffset).take strLen) else m,
        bufOffset + strLen)
    | _ =>
      let strLen := leNat ((buf.drop bufOffset).take ty.blobLenBytes)
      let bufOffset := bufOffset + ty.blobLenBytes
      (if fieldRequested then f.blobSetPtr m ptr strLen (data + bufOffset) else m,
        bufOffset + strLen)
  | .string | .binary =>
    (if fieldRequested then f.storeString m ptr ((buf.drop bufOffset).take ty.len) else m,
      bufOffset + ty.len)
  | .float =>
    (if fieldRequested then store m ptr (storeReal ((buf.drop bufOffset).take ty.len)) else m,
      bufOffset + ty.len)
  | _ =>
    (if fieldRequested then store m ptr ((buf.drop bufOffset).take ty.storageLen) else m,
      bufOffset + ty.storageLen)

end EloqFieldType

/-- `EloqRecordSchema`. -/
structure EloqRecordSchema where
  /-- `field_types_`. -/
  fieldTypes : List EloqFieldType
  /-- `is_part_of_pk_`. -/
  isPartOfPk : List Bool

namespace EloqRecordSchema

/-- The constructor, for the columns of a table that are stored. -/
def ofTable {t : TableShare} (l : RecordLayout t) : EloqRecordSchema :=
  let stored := (List.range t.fields).filter l.storedInDb
  ⟨stored.map fun i => .convert (t.field i), stored.map t.partOfPk⟩

variable {t : TableShare} (schema : EloqRecordSchema) (l : RecordLayout t)

/-- `NonPkColumnCount`. -/
def nonPkColumnCount : ℕ := schema.isPartOfPk.countP (· == false)

/-- `BitmapBytes`. -/
def bitmapBytes : ℕ :=
  schema.nonPkColumnCount / 8 + if schema.nonPkColumnCount % 8 = 0 then 0 else 1

/-- `field_types_.at(fidx)`. -/
def fieldType (fidx : ℕ) : EloqFieldType := schema.fieldTypes.getD fidx ⟨.varBinary, 4⟩

/-- The loop of `Encode` over the columns. -/
def encodeLoop (m : ℕ → UInt8) (record : ℕ) : List ℕ → ℕ → ℕ → Bytes → Bytes
  | [], _, _, buf => buf
  | i :: fields, fidx, nonPkOffset, buf =>
    if l.storedInDb i = false then encodeLoop m record fields fidx nonPkOffset buf
    else if schema.isPartOfPk.getD fidx false then
      encodeLoop m record fields (fidx + 1) nonPkOffset buf
    else
      encodeLoop m record fields (fidx + 1) (nonPkOffset + 1) <|
        if l.isNull m record i then Bitmap.set buf nonPkOffset
        else buf ++ (schema.fieldType fidx).encodeField (t.field i) m (l.ptr record i)

/-- `EloqRecordSchema::Encode`. -/
def encode (m : ℕ → UInt8) (record : ℕ) : Bytes :=
  schema.encodeLoop l m record (List.range t.fields) 0 0 (List.replicate schema.bitmapBytes 0)

/-- The loop of `Decode` over the columns. -/
def decodeLoop (decodeSet : ℕ → Bool) (record data : ℕ) (buf : Bytes) :
    List ℕ → ℕ → ℕ → (ℕ → UInt8) × ℕ → (ℕ → UInt8) × ℕ
  | [], _, _, s => s
  | i :: fields, fidx, nonPkOffset, (m, bufOffset) =>
    if l.storedInDb i = false then
      decodeLoop decodeSet record data buf fields fidx nonPkOffset (m, bufOffset)
    else if schema.isPartOfPk.getD fidx false then
      decodeLoop decodeSet record data buf fields (fidx + 1) nonPkOffset (m, bufOffset)
    else
      decodeLoop decodeSet record data buf fields (fidx + 1) (nonPkOffset + 1) <|
        if Bitmap.get buf nonPkOffset then (l.setNull m record i true, bufOffset)
        else
          (schema.fieldType fidx).decodeField (t.field i) (l.setNull m record i false)
            (l.ptr record i) (l.storeReal i) (decodeSet i) data buf bufOffset

/-- `EloqRecordSchema::Decode`, for the payload `buf` at the address `data`: the memory, and where
the reading of the payload ends. -/
def decode (decodeSet : ℕ → Bool) (m : ℕ → UInt8) (record data : ℕ) (buf : Bytes) :
    (ℕ → UInt8) × ℕ :=
  schema.decodeLoop l decodeSet record data buf (List.range t.fields) 0 0 (m, schema.bitmapBytes)

end EloqRecordSchema

end EloqSql
