import EloqSql.Field

/-!
# Packing — the mem-comparable image of one key part

`FieldPacking.setup` chooses how a key part is packed, skipped and unpacked; the function pointers
of `mono_field_packing` are the enumerations `PackFunc`, `SkipFunc`, `UnpackFunc` and
`MakeUnpackInfoFunc`. `packField` writes the image of a column, and what has to be kept in the
unpack info to restore it.

Writers only append, so every function here returns the bytes that it adds.
-/

namespace EloqSql

/-! ## Collation codecs -/

/-- `my_round_up_to_next_power`, on a `uint32`. -/
def myRoundUpToNextPower (v : ℕ) : ℕ :=
  let v := (v + 2 ^ 32 - 1) % 2 ^ 32
  let v := v ||| v >>> 1
  let v := v ||| v >>> 2
  let v := v ||| v >>> 4
  let v := v ||| v >>> 8
  let v := v ||| v >>> 16
  (v + 1) % 2 ^ 32

/-- `mono_collation_codec`: how to tell apart the characters that share a weight. -/
structure CollationCodec where
  /-- `m_enc_idx`: which of the characters of its weight a character is. -/
  encIdx : UInt8 → ℕ
  /-- `m_enc_size`: the number of bits that takes. -/
  encSize : UInt8 → ℕ
  /-- `m_dec_size`, by weight. -/
  decSize : UInt8 → ℕ
  /-- `m_dec_idx`, by index and weight. -/
  decIdx : ℕ → UInt8 → UInt8
  deriving Inhabited

/-- `rev_map`: the characters of a weight, in their order. -/
def revMap (sortOrder : UInt8 → UInt8) (weight : UInt8) : List UInt8 :=
  ((List.range 256).map UInt8.ofNat).filter (sortOrder · = weight)

/-- The bits for an index into `n` characters. -/
def codecBits (n : ℕ) : ℕ := Nat.log2 (myRoundUpToNextPower n)

/-- `mono_init_collation_mapping` for a simple collation. The entries of a weight that no character
has stay unset in the source and are never read. -/
def initCollationMapping (sortOrder : UInt8 → UInt8) : CollationCodec where
  encIdx src := (revMap sortOrder (sortOrder src)).idxOf src
  encSize src := codecBits (revMap sortOrder (sortOrder src)).length
  decSize dst := codecBits (revMap sortOrder dst).length
  decIdx idx dst := (revMap sortOrder dst).getD idx 0

/-! ## `mono_field_packing` -/

/-- What `m_pack_func` can point to. -/
inductive PackFunc where
  | withMakeSortKey | blob | withVarcharEncoding | withVarcharSpacePad

/-- What `m_skip_func` can point to. -/
inductive SkipFunc where
  | maxLength | variableLength | variableSpacePad
  deriving DecidableEq, Repr

/-- What `m_make_unpack_info_func` can point to. -/
inductive MakeUnpackInfoFunc where
  | dummy | simpleVarchar | simple

/-- What `m_unpack_func` can point to. -/
inductive UnpackFunc where
  | integer | double | float | binaryStr | newdate | unsigned | bit
  | binaryOrUtf8Varchar
  | binaryVarcharSpacePad | utf8VarcharSpacePad | utf8mb4VarcharSpacePad
  | utf8Str | utf8mb4Str
  | simpleVarcharSpacePad | simple
  deriving DecidableEq, Repr

/-- `mono_field_packing`. -/
structure FieldPacking where
  /-- `m_field_idx`, which is empty for the hidden primary key. -/
  fieldIdx : Option ℕ
  /-- `m_Key_part_length`. -/
  keyPartLength : ℕ
  /-- `m_maybe_null`. -/
  maybeNull : Bool
  /-- `m_max_image_len`. -/
  maxImageLen : ℕ
  packFunc : Option PackFunc := some .withMakeSortKey
  skipFunc : SkipFunc := .maxLength
  unpackFunc : Option UnpackFunc := none
  makeUnpackInfoFunc : Option MakeUnpackInfoFunc := none
  unpackInfoStoresValue : Bool := false
  unpackInfoUsesTwoBytes : Bool := false
  segmentSize : ℕ := 0
  spaceXfrm : Bytes := []
  spaceXfrmLen : ℕ := 0
  spaceMbLen : ℕ := 0
  varcharCharset : Collation := .binary
  charsetCodec : CollationCodec := default

/-- `MY_UUID_SIZE`: the length of a hidden primary key. -/
def myUuidSize : ℕ := 16

/-- `mono_SPACE_XFRM_SIZE`. -/
def monoSpaceXfrmSize : ℕ := 32

/-- `MONO_ESCAPE_LENGTH`. -/
def monoEscapeLength : ℕ := 9

/-- `MONO_ENCODED_SIZE`. -/
def monoEncodedSize (len : ℕ) : ℕ :=
  (len + (monoEscapeLength - 2)) / (monoEscapeLength - 1) * monoEscapeLength

/-- `get_segment_size_from_collation`: segments hold whole weights. -/
def getSegmentSizeFromCollation : Collation → ℕ
  | .utf8mb4Bin => 10
  | .binary | .latin1Bin | .utf8Bin | .simple _ => 9

/-- The space of `mono_get_mem_comparable_space`, in the character set. -/
def spaceMb (cs : Collation) : Bytes := (cs.wcMb cs.padChar.toNat 4).getD []

/-- The mem-comparable image of the space. -/
def spaceImage (cs : Collation) : Bytes := cs.strnxfrm 20 1 (spaceMb cs) {}

/-- `spaces_xfrm`: images of the space until there are `mono_SPACE_XFRM_SIZE` bytes. -/
def spacesXfrm (space : Bytes) : ℕ → Bytes → Bytes
  | 0, acc => acc
  | fuel + 1, acc => if acc.length < monoSpaceXfrmSize then spacesXfrm space fuel (acc ++ space)
      else acc

namespace FieldPacking

/-- `get_field_in_table` and, as `pack_record` sets its length, `get_original_field_in_table`: a
string column has the length of the key part there. -/
def partField (f : Field) (keyLength : ℕ) : Field := { f with fieldLength := keyLength }

theorem partField_self (f : Field) : partField f f.fieldLength = f := rfl

/-- The field that a key part is set up with: the column, or a clone of it that has the length of
the part. -/
def keyField (cloned : Bool) (f : Field) (keyLength : ℕ) : Field :=
  if cloned then partField f keyLength else f

/-- A key part that is a prefix of its column cannot be unpacked. -/
def checkPrefix (f : Field) (keyLength : ℕ) (fpi : FieldPacking) : FieldPacking :=
  if f.fieldLength ≠ keyLength then
    { fpi with unpackFunc := none, makeUnpackInfoFunc := none, unpackInfoStoresValue := true }
  else fpi

/-- The space-padded encoding of a `VARCHAR`, with `mono_get_mem_comparable_space`. -/
def setupSpacePad (cs : Collation) (maxImageLenBeforeChunks : ℕ) (fpi : FieldPacking) :
    FieldPacking :=
  let segmentSize := getSegmentSizeFromCollation cs
  { fpi with
    packFunc := some .withVarcharSpacePad
    skipFunc := .variableSpacePad
    segmentSize := segmentSize
    maxImageLen := (maxImageLenBeforeChunks / (segmentSize - 1) + 1) * segmentSize
    spaceXfrm := spacesXfrm (spaceImage cs) monoSpaceXfrmSize []
    spaceXfrmLen := (spaceImage cs).length
    spaceMbLen := (spaceMb cs).length }

/-- `mono_field_packing::setup` for `VARCHAR` and `VARBINARY`. -/
def setupVarchar (f : Field) (keyLength : ℕ) (fpi : FieldPacking) : FieldPacking :=
  let cs := f.charset
  let len := cs.strnxfrmlen f.fieldLength
  let fpi := { fpi with
    packFunc := some .withVarcharEncoding
    skipFunc := .variableLength
    varcharCharset := cs
    maxImageLen := monoEncodedSize len
    unpackInfoUsesTwoBytes := f.fieldLength + 8 ≥ 0x100 }
  checkPrefix f keyLength <|
    match cs with
    | .binary => { fpi with unpackFunc := some .binaryOrUtf8Varchar }
    | .latin1Bin => { setupSpacePad cs len fpi with
        unpackFunc := some .binaryVarcharSpacePad, makeUnpackInfoFunc := some .dummy }
    | .utf8Bin => { setupSpacePad cs len fpi with
        unpackFunc := some .utf8VarcharSpacePad, makeUnpackInfoFunc := some .dummy }
    | .utf8mb4Bin => { setupSpacePad cs len fpi with
        unpackFunc := some .utf8mb4VarcharSpacePad, makeUnpackInfoFunc := some .dummy }
    | .simple sortOrder => { setupSpacePad cs len fpi with
        unpackFunc := some .simpleVarcharSpacePad, makeUnpackInfoFunc := some .simpleVarchar
        charsetCodec := initCollationMapping sortOrder }

/-- `mono_field_packing::setup` for `CHAR` and `BINARY`. -/
def setupString (f : Field) (keyLength : ℕ) (fpi : FieldPacking) : FieldPacking :=
  let cs := f.charset
  let fpi := { fpi with maxImageLen := cs.strnxfrmlen f.packLength }
  checkPrefix f keyLength <|
    match cs with
    | .binary | .latin1Bin => { fpi with unpackFunc := some .binaryStr }
    | .utf8Bin => { fpi with unpackFunc := some .utf8Str }
    | .utf8mb4Bin => { fpi with unpackFunc := some .utf8mb4Str }
    | .simple sortOrder => { fpi with
        unpackFunc := some .simple, makeUnpackInfoFunc := some .simple
        charsetCodec := initCollationMapping sortOrder }

/-- `mono_field_packing::setup` for a column of the table. -/
def setup (fieldIndex : ℕ) (f : Field) (keyLength : ℕ) : FieldPacking :=
  let fpi : FieldPacking :=
    { fieldIdx := some fieldIndex, keyPartLength := keyLength, maybeNull := f.maybeNull
      maxImageLen := f.packLength }
  match f.realType with
  | .tiny | .short | .int24 | .long | .longlong => { fpi with unpackFunc := some .integer }
  | .double => { fpi with unpackFunc := some .double }
  | .float => { fpi with unpackFunc := some .float }
  | .newdecimal _ _ | .datetime2 _ | .timestamp2 _ | .time2 _ | .year =>
    { fpi with unpackFunc := some .binaryStr }
  | .newdate => { fpi with unpackFunc := some .newdate }
  | .blob packlength => { fpi with
      packFunc := some .blob
      maxImageLen := keyLength + match f.charset with
        | .binary => packlength
        | .latin1Bin | .utf8Bin | .utf8mb4Bin | .simple _ => 0 }
  | .set _ | .enum _ => { fpi with unpackFunc := some .unsigned }
  | .bit _ => { fpi with unpackFunc := some .bit }
  | .varchar => setupVarchar f keyLength fpi
  | .string => setupString f keyLength fpi
  | .time _ | .datetime _ | .timestamp _ => fpi

/-- `mono_field_packing::setup` for the hidden primary key. -/
def setupHidden : FieldPacking :=
  { fieldIdx := none, keyPartLength := 0, maybeNull := false, maxImageLen := myUuidSize
    packFunc := none }

/-- `uses_unpack_info`. -/
def usesUnpackInfo (fpi : FieldPacking) : Bool := fpi.makeUnpackInfoFunc.isSome

end FieldPacking

/-! ## The pack functions -/

/-- `mi_int2store` and its kin: a number of `n` bytes, high byte first. -/
def miStore : ℕ → ℕ → Bytes
  | 0, _ => []
  | n + 1, v => miStore n (v / 256) ++ [UInt8.ofNat v]

/-- `pack_blob`. The length goes last, so that shorter binary values come first. -/
def packBlob (maxImageLen packlength : ℕ) (cs : Collation) (blob : Bytes) : Bytes :=
  if blob.length = 0 ∧ cs.padChar = 0 then List.replicate maxImageLen 0
  else
    match cs with
    | .binary =>
      let length := maxImageLen - packlength
      cs.strnxfrm length (length / cs.mbmaxlen) blob ⟨false, true⟩
        ++ miStore packlength (min blob.length length)
    | .latin1Bin | .utf8Bin | .utf8mb4Bin | .simple _ =>
      cs.strnxfrm maxImageLen (maxImageLen / cs.mbmaxlen) blob ⟨false, true⟩

/-- The loop of `pack_variable_format`. -/
def packVariableFormatLoop : ℕ → Bytes → Bytes
  | 0, _ => []
  | fuel + 1, src =>
    let copyLen := min (monoEscapeLength - 1) src.length
    if (src.drop copyLen).length = 0 then
      src.take copyLen ++ List.replicate (monoEscapeLength - 1 - copyLen) 0
        ++ [UInt8.ofNat copyLen]
    else
      src.take copyLen ++ UInt8.ofNat monoEscapeLength
        :: packVariableFormatLoop fuel (src.drop copyLen)

/-- `pack_variable_format`. -/
def packVariableFormat (src : Bytes) : Bytes := packVariableFormatLoop (src.length + 1) src

/-- `VARCHAR_CMP_LESS_THAN_SPACES`, `VARCHAR_CMP_EQUAL_TO_SPACES` and
`VARCHAR_CMP_GREATER_THAN_SPACES`. -/
def varcharCmp : Ordering → UInt8
  | .lt => 1
  | .eq => 2
  | .gt => 3

/-- `mono_compare_string_with_spaces`. -/
def monoCompareStringWithSpaces (spaceXfrm : Bytes) : ℕ → Bytes → Ordering
  | _, [] => .eq
  | 0, _ :: _ => .eq
  | fuel + 1, b :: s =>
    let bytes := min (b :: s).length spaceXfrm.length
    (compare ((b :: s).take bytes) (spaceXfrm.take bytes)).then
      (monoCompareStringWithSpaces spaceXfrm fuel ((b :: s).drop bytes))

/-- The loop of `pack_with_varchar_space_pad`: the segments, and the padding of the last one. -/
def spacePadLoop (segmentSize : ℕ) (spaceXfrm : Bytes) : ℕ → Bytes → Bytes × ℕ
  | 0, _ => ([], 0)
  | fuel + 1, buf =>
    let copyLen := min (segmentSize - 1) buf.length
    let paddingBytes := segmentSize - 1 - copyLen
    if paddingBytes ≠ 0 then
      (buf.take copyLen ++ spaceXfrm.take paddingBytes ++ [varcharCmp .eq], paddingBytes)
    else
      let rest := buf.drop copyLen
      match monoCompareStringWithSpaces spaceXfrm rest.length rest with
      | .eq => (buf.take copyLen ++ [varcharCmp .eq], 0)
      | cmp =>
        let (more, padding) := spacePadLoop segmentSize spaceXfrm fuel rest
        (buf.take copyLen ++ varcharCmp cmp :: more, padding)

/-- `mono_TRIMMED_CHARS_OFFSET`. -/
def monoTrimmedCharsOffset : ℕ := 8

/-- `pack_with_varchar_space_pad`: the image, and the number of trimmed or padded spaces. -/
def packWithVarcharSpacePad (fpi : FieldPacking) (f : Field) (v : Bytes) : Bytes × Bytes :=
  let trimmedLen := f.charset.lengthsp v
  let buf := f.charset.strnxfrm fpi.maxImageLen f.charLength (v.take trimmedLen) {}
  let (image, paddingBytes) := spacePadLoop fpi.segmentSize fpi.spaceXfrm (buf.length + 1) buf
  let removedChars := monoTrimmedCharsOffset + (v.length - trimmedLen) / fpi.spaceMbLen
    - paddingBytes / fpi.spaceXfrmLen
  (image,
    if fpi.unpackInfoStoresValue then []
    else if fpi.unpackInfoUsesTwoBytes then writeUint16 removedChars
    else writeUint8 removedChars)

/-- The function `m_pack_func` points to: the image, and what it adds to the unpack info. -/
def FieldPacking.pack (fpi : FieldPacking) (f : Field) (v : Bytes) : Bytes × Bytes :=
  match fpi.packFunc with
  | none => ([], [])
  | some .withMakeSortKey => (f.sortString fpi.maxImageLen v, [])
  | some .blob =>
    match f.realType with
    | .blob packlength => (packBlob fpi.maxImageLen packlength f.charset v, [])
    | _ => ([], [])
  | some .withVarcharEncoding =>
    (packVariableFormat (f.charset.strnxfrm fpi.maxImageLen f.charLength v {}), [])
  | some .withVarcharSpacePad => packWithVarcharSpacePad fpi f v

/-- `mono_write_unpack_simple`. -/
def monoWriteUnpackSimple (codec : CollationCodec) (w : BitWriter) (src : Bytes) : BitWriter :=
  src.foldl (fun w c => w.write (codec.encSize c) (codec.encIdx c)) w

/-- The function `m_make_unpack_info_func` points to: what it adds to the unpack info. -/
def FieldPacking.makeUnpackInfo (fpi : FieldPacking) (f : Field) (v : Bytes) : Bytes :=
  match fpi.makeUnpackInfoFunc with
  | none | some .dummy => []
  | some .simpleVarchar =>
    (monoWriteUnpackSimple fpi.charsetCodec (.ofWriter [])
      (v.take (min f.charLength v.length))).data
  | some .simple =>
    (monoWriteUnpackSimple fpi.charsetCodec (.ofWriter []) (v.take f.packLength)).data

/-- `pack_field`: the bytes added to the key, and those added to the unpack info. -/
def packField (f : Field) (fpi : FieldPacking) (c : Cell) : Bytes × Bytes :=
  if f.maybeNull && c.isNull then ([0], [])
  else
    let (image, info) := fpi.pack f c.bytes
    (if f.maybeNull then 1 :: image else image,
      if fpi.usesUnpackInfo then info ++ fpi.makeUnpackInfo f c.bytes else info)

end EloqSql
