import EloqSql.Packing

/-!
# Unpacking — a column from its image and its unpack info

Each function takes the reader of the key and the reader of the unpack info and returns the value
with both readers moved on, or fails (`UNPACK_FAILURE`). Where the source passes a null pointer for
the second reader there is no unpack info at all, so an empty reader stands for it.

The two families of space-padded `VARCHAR` functions differ in how they decode the payload of a
segment: `unpackSegments` is their loop, with the decoder as a parameter.
-/

namespace EloqSql

open StringReader (read readUint16 readUint8)

/-! ## Skipping -/

/-- `calc_unpack_variable_format`: the bytes in use, and whether this is the last segment. -/
def calcUnpackVariableFormat (flag : UInt8) : Option (ℕ × Bool) :=
  if flag.toNat > monoEscapeLength then none
  else if flag.toNat < monoEscapeLength then some (flag.toNat, true)
  else some (monoEscapeLength - 1, false)

/-- The loop of `skip_variable_length`; `dstLen` is how much data there can be. -/
def skipVariableLength : ℕ → ℕ → Bytes → Option Bytes
  | 0, _, _ => none
  | fuel + 1, dstLen, reader =>
    match read monoEscapeLength reader with
    | none => none
    | some (ptr, reader) =>
      match calcUnpackVariableFormat (ptr.getD (monoEscapeLength - 1) 0) with
      | none => none
      | some (usedBytes, finished) =>
        if dstLen < usedBytes then none
        else if finished then some reader
        else skipVariableLength fuel (dstLen - usedBytes) reader

/-- The loop of `skip_variable_space_pad`. -/
def skipVariableSpacePad (segmentSize : ℕ) : ℕ → ℕ → Bytes → Option Bytes
  | 0, _, _ => none
  | fuel + 1, dstLen, reader =>
    match read segmentSize reader with
    | none => none
    | some (ptr, reader) =>
      let c := ptr.getD (segmentSize - 1) 0
      if c = varcharCmp .eq then some reader
      else if c = varcharCmp .lt ∨ c = varcharCmp .gt then
        if segmentSize - 1 > dstLen then none
        else skipVariableSpacePad segmentSize fuel (dstLen - (segmentSize - 1)) reader
      else none

/-- The function `m_skip_func` points to. Every turn of its loop reads a byte at least. -/
def FieldPacking.skip (fpi : FieldPacking) (f : Field) (reader : Bytes) : Option Bytes :=
  match fpi.skipFunc with
  | .maxLength => (read fpi.maxImageLen reader).map (·.2)
  | .variableLength => skipVariableLength (reader.length + 1) (f.packLength - f.lengthBytes) reader
  | .variableSpacePad =>
    skipVariableSpacePad fpi.segmentSize (reader.length + 1) (f.packLength - f.lengthBytes) reader

/-! ## Numbers -/

/-- `unpack_integer`. -/
def unpackInteger (isUnsigned : Bool) (src : Bytes) : Bytes :=
  match src with
  | [] => []
  | signByte :: r => r.reverse ++ [if isUnsigned then signByte else signByte ^^^ 128]

/-- `unpack_floating_point`. -/
def unpackFloatingPoint (expDig : ℕ) (src : Bytes) : Bytes :=
  match src with
  | b0 :: b1 :: r =>
    if b0 = 128 ∧ b1 = 0 ∧ r.all (· == 0) then List.replicate (r.length + 2) 0
    else if b0 &&& 0x80 ≠ 0 then
      let expPart := (b0.toNat * 256 + b1.toNat) % 2 ^ 15
      let expPart := (expPart + 2 ^ 16 - 2 ^ (16 - 1 - expDig)) % 2 ^ 16
      (UInt8.ofNat (expPart / 256) :: UInt8.ofNat expPart :: r).reverse
    else ((b0 :: b1 :: r).map (· ^^^ 0xff)).reverse
  | short => short

/-! ## Strings in a binary or UTF-8 collation -/

/-- A number stored high byte first. -/
def beNat (s : Bytes) : ℕ := s.foldl (fun n b => n * 256 + b.toNat) 0

/-- Weights of `bytes` bytes each turned back into characters, in at most `room` bytes. -/
def unpackWeights (cs : Collation) (bytes : ℕ) : ℕ → ℕ → Bytes → Option Bytes
  | _, _, [] => some []
  | 0, _, _ :: _ => none
  | fuel + 1, room, b :: src =>
    match cs.wcMb (beNat ((b :: src).take bytes)) room with
    | none => none
    | some c =>
      (unpackWeights cs bytes fuel (room - c.length) ((b :: src).drop bytes)).map (c ++ ·)

/-- `unpack_utf8_str_templ`, and the fill that follows. -/
def unpackUtf8Str (cs : Collation) (bytes packLength : ℕ) (src : Bytes) : Option Bytes :=
  (unpackWeights cs bytes src.length packLength src).map fun s =>
    s ++ List.replicate (packLength - s.length) cs.padChar

/-- The loop of `unpack_binary_or_utf8_varchar`; `dstLen` is how much can still be unpacked. The
characters of `utf8_bin` are turned back by `unpack_charset`. -/
def unpackBinaryOrUtf8Varchar (cs : Collation) : ℕ → ℕ → Bytes → Option (Bytes × Bytes)
  | 0, _, _ => none
  | fuel + 1, dstLen, reader =>
    match read monoEscapeLength reader with
    | none => none
    | some (ptr, reader) =>
      match calcUnpackVariableFormat (ptr.getD (monoEscapeLength - 1) 0) with
      | none => none
      | some (usedBytes, finished) =>
        if dstLen < usedBytes then none
        else
          let data := match cs with
            | .utf8Bin => if usedBytes % 2 = 1 then none
                else unpackWeights cs 2 usedBytes dstLen (ptr.take usedBytes)
            | .binary | .latin1Bin | .utf8mb4Bin | .simple _ => some (ptr.take usedBytes)
          match data with
          | none => none
          | some data =>
            if finished then some (data, reader)
            else
              match unpackBinaryOrUtf8Varchar cs fuel (dstLen - data.length) reader with
              | none => none
              | some (more, reader) => some (data ++ more, reader)

/-! ## Space-padded strings -/

/-- The head of the space-padded unpack functions: the spaces to add, the padding bytes to remove,
and the rest of the unpack info. -/
def readExtraSpaces (fpi : FieldPacking) (unpReader : Bytes) : Option (ℕ × ℕ × Bytes) :=
  match if fpi.unpackInfoUsesTwoBytes then readUint16 unpReader
      else readUint8 unpReader with
  | none => none
  | some (extraSpaces, unpReader) =>
    if extraSpaces ≤ monoTrimmedCharsOffset then
      some (0, (monoTrimmedCharsOffset - extraSpaces) * fpi.spaceXfrmLen, unpReader)
    else some (extraSpaces - monoTrimmedCharsOffset, 0, unpReader)

/-- The loop over the segments; the decoder may keep a state of its own, and is given the room that
is left. -/
def unpackSegments {σ : Type} (segmentSize : ℕ) (decode : σ → ℕ → Bytes → Option (Bytes × σ))
    (spacePaddingBytes : ℕ) : ℕ → ℕ → σ → Bytes → Option (Bytes × σ × Bytes)
  | 0, _, _, _ => none
  | fuel + 1, room, st, reader =>
    match read segmentSize reader with
    | none => none
    | some (ptr, reader) =>
      let lastByte := ptr.getD (segmentSize - 1) 0
      if lastByte = varcharCmp .eq then
        if spacePaddingBytes > segmentSize - 1 then none
        else
          match decode st room (ptr.take (segmentSize - 1 - spacePaddingBytes)) with
          | none => none
          | some (out, st) => some (out, st, reader)
      else if lastByte = varcharCmp .lt ∨ lastByte = varcharCmp .gt then
        match decode st room (ptr.take (segmentSize - 1)) with
        | none => none
        | some (out, st) =>
          match unpackSegments segmentSize decode spacePaddingBytes fuel (room - out.length) st
              reader with
          | none => none
          | some (more, st, reader) => some (out ++ more, st, reader)
      else none

/-- The segments, and then the spaces that were trimmed. -/
def unpackSpacePad {σ : Type} (fpi : FieldPacking)
    (decode : σ → ℕ → Bytes → Option (Bytes × σ)) (padChar : UInt8)
    (extraSpaces spacePaddingBytes room : ℕ) (st : σ) (reader : Bytes) :
    Option (Bytes × σ × Bytes) :=
  match unpackSegments fpi.segmentSize decode spacePaddingBytes (reader.length + 1) room st
      reader with
  | none => none
  | some (out, st, reader) =>
    if room < out.length + extraSpaces then none
    else some (out ++ List.replicate extraSpaces padChar, st, reader)

/-- The payload of a segment in `unpack_binary_or_utf8_varchar_space_pad<bytes>`. -/
def decodeWeights (cs : Collation) (bytes : ℕ) (_ : Unit) (room : ℕ) (src : Bytes) :
    Option (Bytes × Unit) :=
  if bytes > 1 then
    if src.length % bytes ≠ 0 then none
    else (unpackWeights cs bytes src.length room src).map (·, ())
  else if room < src.length then none
  else some (src, ())

/-- `unpack_binary_or_utf8_varchar_space_pad<bytes>`. -/
def unpackBinaryOrUtf8VarcharSpacePad (bytes : ℕ) (fpi : FieldPacking) (f : Field)
    (reader unpReader : Bytes) : Option (Bytes × Bytes × Bytes) :=
  match readExtraSpaces fpi unpReader with
  | none => none
  | some (extraSpaces, spacePaddingBytes, unpReader) =>
    match unpackSpacePad fpi (decodeWeights fpi.varcharCharset bytes)
        fpi.varcharCharset.padChar extraSpaces spacePaddingBytes (f.packLength - f.lengthBytes) ()
        reader with
    | none => none
    | some (v, (), reader) => some (v, reader, unpReader)

/-! ## Strings in a simple collation -/

/-- `mono_read_unpack_simple`: the character of a weight, by the bits that tell which it is. -/
def monoReadUnpackSimple (codec : CollationCodec) (r : BitReader) :
    Bytes → Option (Bytes × BitReader)
  | [] => some ([], r)
  | w :: src =>
    if codec.decSize w > 0 then
      match r.read (codec.decSize w) with
      | none => none
      | some (ret, r) =>
        (monoReadUnpackSimple codec r src).map fun (dst, r) => (codec.decIdx ret w :: dst, r)
    else
      (monoReadUnpackSimple codec r src).map fun (dst, r) => (codec.decIdx 0 w :: dst, r)

/-- The payload of a segment in `unpack_simple_varchar_space_pad`. -/
def decodeSimple (codec : CollationCodec) (r : BitReader) (room : ℕ) (src : Bytes) :
    Option (Bytes × BitReader) :=
  if room < src.length then none else monoReadUnpackSimple codec r src

/-- `unpack_simple_varchar_space_pad`. The bit reader takes its bytes from the reader of the unpack
info, which is left where the bit reader stopped. -/
def unpackSimpleVarcharSpacePad (fpi : FieldPacking) (f : Field) (reader unpReader : Bytes) :
    Option (Bytes × Bytes × Bytes) :=
  match readExtraSpaces fpi unpReader with
  | none => none
  | some (extraSpaces, spacePaddingBytes, unpReader) =>
    match unpackSpacePad fpi (decodeSimple fpi.charsetCodec) f.charset.padChar extraSpaces
        spacePaddingBytes (f.packLength - f.lengthBytes) (.ofReader unpReader) reader with
    | none => none
    | some (v, r, reader) => some (v, reader, r.reader)

/-! ## The unpack functions -/

/-- An image of fixed length, decoded on its own. -/
def unpackFixed (n : ℕ) (decode : Bytes → Option Bytes) (reader unpReader : Bytes) :
    Option (Bytes × Bytes × Bytes) :=
  match read n reader with
  | none => none
  | some (src, reader) => (decode src).map (·, reader, unpReader)

/-- The function an `m_unpack_func` points to. -/
def FieldPacking.unpack (fpi : FieldPacking) (f : Field) (func : UnpackFunc)
    (reader unpReader : Bytes) : Option (Bytes × Bytes × Bytes) :=
  match func with
  | .integer =>
    unpackFixed fpi.maxImageLen (some <| unpackInteger f.unsignedFlag ·) reader unpReader
  | .unsigned => unpackFixed fpi.maxImageLen (some <| List.reverse ·) reader unpReader
  | .double => unpackFixed 8 (some <| unpackFloatingPoint dblExpDig ·) reader unpReader
  | .float => unpackFixed 4 (some <| unpackFloatingPoint fltExpDig ·) reader unpReader
  | .newdate => unpackFixed 3 (some <| List.reverse ·) reader unpReader
  | .binaryStr | .bit => unpackFixed fpi.maxImageLen some reader unpReader
  | .utf8Str =>
    unpackFixed fpi.maxImageLen (unpackUtf8Str f.charset 2 f.packLength) reader unpReader
  | .utf8mb4Str =>
    unpackFixed fpi.maxImageLen (unpackUtf8Str f.charset 3 f.packLength) reader unpReader
  | .binaryOrUtf8Varchar =>
    (unpackBinaryOrUtf8Varchar fpi.varcharCharset (reader.length + 1)
      (f.packLength - f.lengthBytes) reader).map fun (v, reader) => (v, reader, unpReader)
  | .binaryVarcharSpacePad => unpackBinaryOrUtf8VarcharSpacePad 1 fpi f reader unpReader
  | .utf8VarcharSpacePad => unpackBinaryOrUtf8VarcharSpacePad 2 fpi f reader unpReader
  | .utf8mb4VarcharSpacePad => unpackBinaryOrUtf8VarcharSpacePad 3 fpi f reader unpReader
  | .simpleVarcharSpacePad => unpackSimpleVarcharSpacePad fpi f reader unpReader
  | .simple =>
    match read fpi.maxImageLen reader with
    | none => none
    | some (src, reader) =>
      (monoReadUnpackSimple fpi.charsetCodec (.ofReader unpReader) src).map fun (v, r) =>
        (v, reader, r.reader)

/-! ## Key parts -/

/-- `mono_convert_to_record_key_decoder::decode_field`. -/
def decodeField (fpi : FieldPacking) (func : UnpackFunc) (f : Field) (defaultValue : Bytes)
    (reader unpReader : Bytes) : Option (Cell × Bytes × Bytes) :=
  if fpi.maybeNull then
    match reader with
    | [] => none
    | nullp :: reader =>
      if nullp = 0 then some (⟨true, defaultValue⟩, reader, unpReader)
      else if nullp = 1 then
        (fpi.unpack f func reader unpReader).map fun (v, rs) => (⟨false, v⟩, rs)
      else none
  else (fpi.unpack f func reader unpReader).map fun (v, rs) => (⟨false, v⟩, rs)

/-- `mono_convert_to_record_key_decoder::skip`. The spaces of a column that is skipped although it
keeps them in the unpack info are skipped too. -/
def skipField (fpi : FieldPacking) (f : Field) (reader unpReader : Bytes) :
    Option (Bytes × Bytes) :=
  let skip (reader : Bytes) : Option (Bytes × Bytes) :=
    (fpi.skip f reader).map fun reader =>
      (reader,
        if fpi.skipFunc = .variableSpacePad ∧ fpi.unpackInfoStoresValue = false then
          match read (if fpi.unpackInfoUsesTwoBytes then 2 else 1) unpReader with
          | none => unpReader
          | some (_, unpReader) => unpReader
        else unpReader)
  if fpi.maybeNull then
    match reader with
    | [] => none
    | nullp :: reader =>
      if nullp = 0 then some (reader, unpReader)
      else if nullp = 1 then skip reader
      else none
  else skip reader

end EloqSql
