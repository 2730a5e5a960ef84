import EloqSql.Charset

/-!
# Field — the columns of a table, their stored images and their comparisons

A `Field` is what the key packing reads of the server's `Field` object. A `Cell` is the column's
part of a record: its NULL bit and its bytes — for a `VARCHAR` or a `BLOB` the value without its
length prefix, for every other type the `pack_length()` bytes of the record.

`Field.sortString` is the mem-comparable image that `Field::sort_string` makes of a fixed-size
column, and `Field.cmp` and `Field.cmpPrefix` are the SQL comparisons.
-/

namespace EloqSql

/-- The column types of a table (`real_type()`). -/
inductive FieldType where
  | tiny | short | int24 | long | longlong
  | float | double
  /-- `DECIMAL`, with the number of its digits and how many of them are fractional. -/
  | newdecimal (precision decimals : ℕ)
  | year | newdate
  /-- `TIME`, `DATETIME` and `TIMESTAMP` with their number of fractional digits. -/
  | time2 (dec : ℕ) | datetime2 (dec : ℕ) | timestamp2 (dec : ℕ)
  /-- The same with `mysql56_temporal_format=OFF`. -/
  | time (dec : ℕ) | datetime (dec : ℕ) | timestamp (dec : ℕ)
  /-- `ENUM` and `SET`, with the number of bytes of their number. -/
  | enum (packlength : ℕ) | set (packlength : ℕ)
  /-- `BIT`, stored in whole bytes, as the engine does not take bits into the NULL bytes. -/
  | bit (bytesInRec : ℕ)
  | varchar | string
  /-- `BLOB` and `TEXT`, with the number of bytes of their length. -/
  | blob (packlength : ℕ)
  deriving DecidableEq, Repr

/-- No string and no `BLOB`: a value takes the whole room of its column. -/
def FieldType.fixedSize : FieldType → Bool
  | .varchar | .string | .blob _ => false
  | _ => true

/-- What the key packing reads of a `Field`. -/
structure Field where
  /-- `real_type()`. -/
  realType : FieldType
  /-- `real_maybe_null()`. -/
  maybeNull : Bool
  /-- `field_length`, in bytes. -/
  fieldLength : ℕ
  /-- `unsigned_flag`. -/
  unsignedFlag : Bool
  /-- `charset()`. -/
  charset : Collation

/-- A column of a record. -/
structure Cell where
  /-- The NULL bit. -/
  isNull : Bool
  /-- The bytes of the column. -/
  bytes : Bytes
  deriving DecidableEq, Repr

/-- A record buffer: the cell of each column. -/
abbrev Record := ℕ → Cell

/-- `dig2bytes`: the bytes of up to nine digits. -/
def dig2bytes (digits : ℕ) : ℕ := [0, 1, 1, 2, 2, 3, 3, 4, 4, 4].getD digits 0

/-- `decimal_bin_size`. -/
def decimalBinSize (precision scale : ℕ) : ℕ :=
  let intg := precision - scale
  intg / 9 * 4 + dig2bytes (intg % 9) + scale / 9 * 4 + dig2bytes (scale % 9)

/-- `Type_handler_time::m_hires_bytes`. -/
def timeHiresBytes (dec : ℕ) : ℕ := [3, 4, 4, 5, 5, 5, 6].getD dec 0

/-- `Type_handler_datetime::m_hires_bytes`. -/
def datetimeHiresBytes (dec : ℕ) : ℕ := [5, 6, 6, 7, 7, 7, 8].getD dec 0

/-- `Type_handler_timestamp::m_sec_part_bytes`. -/
def secPartBytes (dec : ℕ) : ℕ := [0, 1, 1, 2, 2, 3, 3].getD dec 0

namespace Field

/-- `length_bytes` of a `Field_varstring`. -/
def lengthBytes (f : Field) : ℕ := if f.fieldLength < 256 then 1 else 2

/-- `char_length()`. -/
def charLength (f : Field) : ℕ := f.fieldLength / f.charset.mbmaxlen

/-- `pack_length()`. -/
def packLength (f : Field) : ℕ :=
  match f.realType with
  | .tiny | .year => 1
  | .short => 2
  | .int24 | .newdate => 3
  | .long | .float => 4
  | .longlong | .double => 8
  | .newdecimal precision decimals => decimalBinSize precision decimals
  | .bit n | .enum n | .set n => n
  | .time2 dec => 3 + (dec + 1) / 2
  | .timestamp2 dec => 4 + (dec + 1) / 2
  | .datetime2 dec => 5 + (dec + 1) / 2
  | .time 0 => 3
  | .datetime 0 => 8
  | .timestamp 0 => 4
  | .time dec => timeHiresBytes dec
  | .datetime dec => datetimeHiresBytes dec
  | .timestamp dec => 4 + secPartBytes dec
  | .varchar => f.fieldLength + f.lengthBytes
  | .string => f.fieldLength
  | .blob n => n + 8

end Field

/-! ## `sort_string` -/

/-- `Field_tiny::sort_string` to `Field_longlong::sort_string`: high byte first, and the sign bit of
a signed number reversed. -/
def sortInteger (isUnsigned : Bool) (ptr : Bytes) : Bytes :=
  match ptr.reverse with
  | [] => []
  | b :: r => (if isUnsigned then b else b ^^^ 128) :: r

/-- `Field_float::sort_string` and `change_double_for_sort`: both zeros become `0x80 00 …`, a
negative number is complemented, a positive one gets its sign bit set and its exponent moved one
up. -/
def sortFloat (expDig : ℕ) (ptr : Bytes) : Bytes :=
  match ptr.reverse with
  | b0 :: b1 :: r =>
    if (b0 = 0 ∨ b0 = 128) ∧ b1 = 0 ∧ r.all (· == 0) then 128 :: 0 :: r
    else if b0 &&& 128 ≠ 0 then (b0 :: b1 :: r).map (· ^^^ 255)
    else
      let expPart := ((b0.toNat * 256 + b1.toNat) ||| 32768) + 2 ^ (16 - 1 - expDig)
      UInt8.ofNat (expPart / 256) :: UInt8.ofNat expPart :: r
  | short => short

/-- `FLT_EXP_DIG`. -/
def fltExpDig : ℕ := 8

/-- `DBL_EXP_DIG`. -/
def dblExpDig : ℕ := 11

/-- `Field_string::sort_string`: as many weights as the column has characters, and space up to the
given length. -/
def sortFieldString (f : Field) (length : ℕ) (ptr : Bytes) : Bytes :=
  f.charset.strnxfrm length (f.charLength * f.charset.strxfrmMultiply) (ptr.take f.fieldLength)
    ⟨true, true⟩

/-- `Field_time_hires::sort_string`. -/
def sortTimeHires : Bytes → Bytes
  | [] => []
  | b :: r => (b ^^^ 128) :: r

/-- `Field::sort_string`. `Field_enum` and `Field_set` write their number high byte first; `YEAR` is
an unsigned tiny; the images of the types below it are copied. -/
def Field.sortString (f : Field) (length : ℕ) (ptr : Bytes) : Bytes :=
  match f.realType with
  | .tiny | .short | .int24 | .long | .longlong => sortInteger f.unsignedFlag ptr
  | .float => sortFloat fltExpDig ptr
  | .double => sortFloat dblExpDig ptr
  | .newdate | .enum _ | .set _ => ptr.reverse
  | .time 0 => sortInteger false ptr
  | .time _ => sortTimeHires ptr
  | .datetime 0 | .timestamp 0 => ptr.reverse
  | .year | .newdecimal _ _ | .time2 _ | .datetime2 _ | .timestamp2 _ | .datetime _ | .timestamp _
  | .bit _ => ptr
  | .string => sortFieldString f length ptr
  | .varchar | .blob _ => []

/-! ## Comparisons -/

/-- `uint2korr` and its kin: a number stored low byte first. -/
def leNat : Bytes → ℕ
  | [] => 0
  | b :: r => b.toNat + 256 * leNat r

/-- A signed number stored low byte first. -/
def leInt (ptr : Bytes) : ℤ :=
  if 2 * leNat ptr < 256 ^ ptr.length then leNat ptr else leNat ptr - (256 ^ ptr.length : ℕ)

/-- The order of IEEE numbers that are no NaN: by magnitude, and negative ones reversed, so that
both zeros are one number. -/
def floatOrder (ptr : Bytes) : ℤ :=
  if 2 * leNat ptr < 256 ^ ptr.length then leNat ptr
  else (256 ^ ptr.length / 2 : ℕ) - leNat ptr

namespace Field

/-- `Field::cmp`. `DECIMAL`, `TIME`, `DATETIME`, `TIMESTAMP` and `BIT` compare their images with
`memcmp`, or as numbers stored high byte first. -/
def cmp (f : Field) (a b : Bytes) : Ordering :=
  match f.realType with
  | .tiny | .short | .int24 | .long | .longlong =>
    if f.unsignedFlag then compare (leNat a) (leNat b) else compare (leInt a) (leInt b)
  | .float | .double => compare (floatOrder a) (floatOrder b)
  | .newdate | .year | .enum _ | .set _ => compare (leNat a) (leNat b)
  | .time 0 => compare (leInt a) (leInt b)
  | .datetime 0 | .timestamp 0 => compare (leNat a) (leNat b)
  | .newdecimal _ _ | .time2 _ | .datetime2 _ | .timestamp2 _ | .time _ | .datetime _ | .timestamp _
  | .bit _ => compare a b
  | .varchar | .blob _ => f.charset.strnncollsp a b
  | .string => f.charset.strnncollspNchars f.charLength a b

/-- `Field::cmp_prefix`: the comparison of the first `prefixLen` bytes' worth of characters. -/
def cmpPrefix (f : Field) (prefixLen : ℕ) (a b : Bytes) : Ordering :=
  match f.realType with
  | .varchar | .blob _ | .string => f.charset.strnncollspNchars (prefixLen / f.charset.mbmaxlen) a b
  | _ => f.cmp a b

end Field

/-! ## Valid values -/

/-- No infinity and no NaN: the exponent is not all ones. -/
def floatFinite (expDig : ℕ) (ptr : Bytes) : Bool :=
  match ptr.reverse with
  | b0 :: b1 :: _ =>
    (b0.toNat * 256 + b1.toNat) % 2 ^ 15 / 2 ^ (15 - expDig) != 2 ^ expDig - 1
  | _ => false

/-- `TIME_MAX_VALUE_SECONDS`. -/
def timeMaxValueSeconds : ℕ := 838 * 3600 + 59 * 60 + 59

namespace Field

/-- What the server stores into a column: strings are well formed and not too long, a `CHAR` is
filled up with spaces, floating point numbers are finite, and everything else has the length of its
type. -/
def validValue (f : Field) (v : Bytes) : Bool :=
  match f.realType with
  | .varchar =>
    v.length ≤ f.fieldLength && (f.charset.chars v).any fun xs => xs.length ≤ f.charLength
  | .string =>
    v.length == f.fieldLength &&
      (f.charset.chars v).any fun xs => (xs.drop f.charLength).all (· == 0x20)
  | .blob packlength => v.length < 256 ^ packlength && (f.charset.chars v).isSome
  | .float => v.length == 4 && floatFinite fltExpDig v
  | .double => v.length == 8 && floatFinite dblExpDig v
  -- a number of fractional seconds, moved up by `zero_point`
  | .time (dec + 1) =>
    v.length == f.packLength && leNat v.reverse < 2 * ((timeMaxValueSeconds + 1) * 10 ^ (dec + 1))
  | _ => v.length == f.packLength

/-- What a record buffer can hold, whatever its content: a column of fixed size has its bytes. -/
def shaped (f : Field) (v : Bytes) : Bool :=
  match f.realType with
  | .varchar | .blob _ => true
  | _ => v.length == f.packLength

/-- A column is NULL only if it may be. -/
def validCell (f : Field) (c : Cell) : Bool :=
  if c.isNull then f.maybeNull else f.validValue c.bytes

/-- A column definition as the server makes it: the length of a string column is that of a number of
characters, and no column is empty. -/
def wf (f : Field) : Bool :=
  match f.realType with
  | .varchar | .string => f.fieldLength % f.charset.mbmaxlen == 0
  | .blob packlength => 1 ≤ packlength && packlength ≤ 4
  | _ => 0 < f.packLength

end Field

end EloqSql
