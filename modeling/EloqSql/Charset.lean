import Mathlib.Data.List.DropRight
import EloqSql.Utf8

/-!
# Charset — the collations an index column can have

`mono_is_index_collation_supported` lets an index column have one of four binary collations, or any
single-byte `PAD SPACE` collation that `mono_is_collation_supported` accepts; the latter are given
by their `sort_order` table alone. For each of them this module has what the key packing calls
through the `CHARSET_INFO`: the mem-comparable transformation `strnxfrm`, the trimmed length
`lengthsp`, the encoding `wcMb` of a code point, and the comparisons `strnncollsp` and
`strnncollspNchars` of the SQL layer.
-/

namespace EloqSql

/-- The collations of index columns. -/
inductive Collation where
  /-- `my_charset_bin`: `BINARY`, `VARBINARY` and `BLOB`. -/
  | binary
  /-- `my_charset_latin1_bin`. -/
  | latin1Bin
  /-- `my_charset_utf8mb3_bin`. -/
  | utf8Bin
  /-- `my_charset_utf8mb4_bin`. -/
  | utf8mb4Bin
  /-- A collation of `my_collation_8bit_simple_ci_handler`, with its `sort_order`. -/
  | simple (sortOrder : UInt8 → UInt8)

namespace Collation

/-- `mbmaxlen`. -/
def mbmaxlen : Collation → ℕ
  | binary | latin1Bin | simple _ => 1
  | utf8Bin => 3
  | utf8mb4Bin => 4

theorem mbmaxlen_pos (cs : Collation) : 0 < cs.mbmaxlen := by cases cs <;> simp [mbmaxlen]

/-- `pad_char`. -/
def padChar : Collation → UInt8
  | binary => 0
  | latin1Bin | utf8Bin | utf8mb4Bin | simple _ => 0x20

/-- `strxfrm_multiply`, which is 1 in all of them. -/
def strxfrmMultiply (_ : Collation) : ℕ := 1

/-- `strnxfrmlen`: how long the transformation of a column of `len` bytes can be. -/
def strnxfrmlen : Collation → ℕ → ℕ
  | binary, len | latin1Bin, len | simple _, len => len
  | utf8Bin, len => (len + 3 - 1) / 3 * 2
  | utf8mb4Bin, len => (len + 3) / 4 * 3

/-- `lengthsp`: the length without trailing spaces; `my_lengthsp_binary` keeps everything. -/
def lengthsp : Collation → Bytes → ℕ
  | binary, v => v.length
  | latin1Bin, v | utf8Bin, v | utf8mb4Bin, v | simple _, v =>
    (v.rdropWhile (· == 0x20)).length

/-- `wc_mb`: the bytes of a code point, if there is room for them. Single-byte collations are only
asked for their pad character. -/
def wcMb : Collation → ℕ → ℕ → Option Bytes
  | utf8Bin, wc, room => wcMbUtf8mb3 wc room
  | utf8mb4Bin, wc, room => wcMbUtf8mb4 wc room
  | binary, wc, room | latin1Bin, wc, room | simple _, wc, room =>
    if room < 1 then none else if wc < 256 then some [UInt8.ofNat wc] else none

end Collation

/-! ## `strnxfrm` -/

/-- The flags of `strnxfrm`. -/
structure XfrmFlags where
  /-- `MY_STRXFRM_PAD_WITH_SPACE`. -/
  padWithSpace : Bool := false
  /-- `MY_STRXFRM_PAD_TO_MAXLEN`. -/
  padToMaxlen : Bool := false

/-- `my_strxfrm_pad_desc_and_reverse`: fill up with copies of the pad character, itself and not its
weight, up to `nweights` of them or up to `dstlen` bytes. -/
def strxfrmPad (padChar : UInt8) (dstlen nweights : ℕ) (flags : XfrmFlags) (out : Bytes) : Bytes :=
  let out := if flags.padWithSpace then
    out ++ List.replicate (min (dstlen - out.length) nweights) padChar else out
  if flags.padToMaxlen then out ++ List.replicate (dstlen - out.length) padChar else out

/-- `my_strnxfrm_simple`, and `my_strnxfrm_8bit_bin` with the identity for `sort_order`. -/
def strnxfrm8bit (sortOrder : UInt8 → UInt8) (padChar : UInt8) (dstlen nweights : ℕ) (src : Bytes)
    (flags : XfrmFlags) : Bytes :=
  let frmlen := min (min dstlen nweights) src.length
  strxfrmPad padChar dstlen (nweights - frmlen) flags ((src.take frmlen).map sortOrder)

/-- `PUT_WC_BE2_HAVE_1BYTE`: a weight of `utf8mb3_bin`. -/
def weightBE2 (wc : ℕ) : Bytes := [UInt8.ofNat (wc >>> 8), UInt8.ofNat (wc &&& 0xff)]

/-- A weight of `utf8mb4_bin`. -/
def weightBE3 (wc : ℕ) : Bytes :=
  [UInt8.ofNat (wc >>> 16), UInt8.ofNat ((wc >>> 8) &&& 0xff), UInt8.ofNat (wc &&& 0xff)]

/-- The loop of `my_strnxfrm_utf8mb3_bin` and of `my_strnxfrm_unicode_full_bin`: one weight for
each character, until the room, the weights or the string are used up, or a byte is not UTF-8.
Returns the weights that are left. -/
def strnxfrmUnicodeLoop (mbWc : Bytes → Option (ℕ × ℕ)) (weight : ℕ → Bytes) :
    ℕ → ℕ → Bytes → Bytes × ℕ
  | _, 0, _ => ([], 0)
  | room, nweights + 1, src =>
    if room = 0 then ([], nweights + 1)
    else
      match mbWc src with
      | none => ([], nweights + 1)
      | some (wc, len) =>
        let w := (weight wc).take room
        let (out, left) := strnxfrmUnicodeLoop mbWc weight (room - w.length) nweights (src.drop len)
        (w ++ out, left)

/-- `my_strxfrm_pad_nweights_unicode` and `my_strxfrm_pad_unicode`: weights of spaces, cut off where
the room ends. -/
def padWeights (space : Bytes) (room nweights : ℕ) : Bytes :=
  (List.replicate nweights space).flatten.take room

/-- `my_strnxfrm_utf8mb3_bin` and `my_strnxfrm_unicode_full_bin`. -/
def strnxfrmUnicode (mbWc : Bytes → Option (ℕ × ℕ)) (weight : ℕ → Bytes) (dstlen nweights : ℕ)
    (src : Bytes) (flags : XfrmFlags) : Bytes :=
  let (out, left) := strnxfrmUnicodeLoop mbWc weight dstlen nweights src
  let out := if flags.padWithSpace then
    out ++ padWeights (weight 0x20) (dstlen - out.length) left else out
  if flags.padToMaxlen then
    out ++ padWeights (weight 0x20) (dstlen - out.length) (dstlen - out.length) else out

/-- `strnxfrm`: the mem-comparable transformation of at most `nweights` characters, in at most
`dstlen` bytes. -/
def Collation.strnxfrm (cs : Collation) (dstlen nweights : ℕ) (src : Bytes) (flags : XfrmFlags) :
    Bytes :=
  match cs with
  | binary => strnxfrm8bit id 0 dstlen nweights src flags
  | latin1Bin => strnxfrm8bit id 0x20 dstlen nweights src flags
  | simple sortOrder => strnxfrm8bit sortOrder 0x20 dstlen nweights src flags
  | utf8Bin => strnxfrmUnicode mbWcUtf8mb3 weightBE2 dstlen nweights src flags
  | utf8mb4Bin => strnxfrmUnicode mbWcUtf8mb4 weightBE3 dstlen nweights src flags

/-! ## `strnncollsp` -/

/-- `my_strnncollsp_padspace_bin`, and the tail of `my_strnncollsp_simple`: compare with spaces. -/
def strnncollspPadspace (sortOrder : UInt8 → UInt8) : Bytes → Ordering
  | [] => .eq
  | b :: s =>
    if sortOrder b = sortOrder 0x20 then strnncollspPadspace sortOrder s
    else compare (sortOrder b) (sortOrder 0x20)

/-- `my_strnncollsp_simple`, and `my_strnncollsp_8bit_bin` with the identity for `sort_order`. -/
def strnncollsp8bit (sortOrder : UInt8 → UInt8) : Bytes → Bytes → Ordering
  | a :: s, b :: t =>
    if sortOrder a = sortOrder b then strnncollsp8bit sortOrder s t
    else compare (sortOrder a) (sortOrder b)
  | [], t => (strnncollspPadspace sortOrder t).swap
  | s, [] => strnncollspPadspace sortOrder s

/-- `IS_UTF8MB2_STEP2`, `IS_UTF8MB3_STEP3` and `IS_UTF8MB4_STEP3` as `scan_weight` tries them: the
weight at the head of a string, which is a code point, a bad byte or, at the end, a space; and the
number of bytes it takes. -/
def scanWeight (mb4 : Bool) : Bytes → ℕ × ℕ
  | [] => (0x20, 0)
  | b0 :: s =>
    let bad := (0xff0000 + b0.toNat, 1)
    if b0 < 0x80 then (b0.toNat, 1)
    else if b0 < 0xc2 then bad
    else
      match s with
      | [] => bad
      | b1 :: s =>
        if b0 < 0xe0 && isContinuationByte b1 then (utf8mb2Code b0 b1, 2)
        else
          match s with
          | [] => bad
          | b2 :: s =>
            if b0 < 0xf0 && isUtf8mb3Step2 b0 b1 b2 then (utf8mb3Code b0 b1 b2, 3)
            else
              match mb4, s with
              | true, b3 :: _ =>
                if b0 < 0xf5 && isUtf8mb4Step2 b0 b1 b2 b3 then (utf8mb4Code b0 b1 b2 b3, 4)
                else bad
              | _, _ => bad

/-- `my_strnncollsp_nchars_utf8mb3_bin` and `my_strnncollsp_nchars_utf8mb4_bin`: compare weight by
weight, `nchars` of them. -/
def strnncollspNcharsUtf8 (mb4 : Bool) : ℕ → Bytes → Bytes → Ordering
  | 0, _, _ => .eq
  | nchars + 1, a, b =>
    let (aWeight, aLen) := scanWeight mb4 a
    let (bWeight, bLen) := scanWeight mb4 b
    if aWeight ≠ bWeight then compare aWeight bWeight
    else if aLen = 0 ∧ bLen = 0 then .eq
    else strnncollspNcharsUtf8 mb4 nchars (a.drop aLen) (b.drop bLen)

namespace Collation

/-- `strnncollsp`: the SQL comparison of two values. The UTF-8 loop ends when both strings have, so
it makes at most one turn more than the longer string has bytes. -/
def strnncollsp : Collation → Bytes → Bytes → Ordering
  | binary, a, b => compare a b
  | latin1Bin, a, b => strnncollsp8bit id a b
  | simple sortOrder, a, b => strnncollsp8bit sortOrder a b
  | utf8Bin, a, b => strnncollspNcharsUtf8 false (max a.length b.length + 1) a b
  | utf8mb4Bin, a, b => strnncollspNcharsUtf8 true (max a.length b.length + 1) a b

/-- `strnncollsp_nchars`: the SQL comparison of the first `nchars` characters of two values. -/
def strnncollspNchars : Collation → ℕ → Bytes → Bytes → Ordering
  | binary, nchars, a, b => compare (a.take nchars) (b.take nchars)
  | latin1Bin, nchars, a, b => strnncollsp8bit id (a.take nchars) (b.take nchars)
  | simple sortOrder, nchars, a, b => strnncollsp8bit sortOrder (a.take nchars) (b.take nchars)
  | utf8Bin, nchars, a, b => strnncollspNcharsUtf8 false nchars a b
  | utf8mb4Bin, nchars, a, b => strnncollspNcharsUtf8 true nchars a b

end Collation

/-! ## Characters -/

/-- The code points of a UTF-8 string, if it is well formed. -/
def utf8Chars (mbWc : Bytes → Option (ℕ × ℕ)) : ℕ → Bytes → Option (List ℕ)
  | _, [] => some []
  | 0, _ :: _ => none
  | fuel + 1, b :: s =>
    match mbWc (b :: s) with
    | none => none
    | some (wc, len) => (utf8Chars mbWc fuel ((b :: s).drop len)).map (wc :: ·)

/-- The first `n` characters of a UTF-8 string (`charpos`); a byte that is not UTF-8 counts as
one. -/
def utf8Take (mbWc : Bytes → Option (ℕ × ℕ)) : ℕ → Bytes → Bytes
  | 0, _ => []
  | _ + 1, [] => []
  | n + 1, b :: s =>
    let len := match mbWc (b :: s) with
      | none => 1
      | some (_, len) => len
    (b :: s).take len ++ utf8Take mbWc n ((b :: s).drop len)

namespace Collation

/-- The characters of a value, if it is well formed in the character set of the collation. -/
def chars : Collation → Bytes → Option (List ℕ)
  | utf8Bin, v => utf8Chars mbWcUtf8mb3 v.length v
  | utf8mb4Bin, v => utf8Chars mbWcUtf8mb4 v.length v
  | binary, v | latin1Bin, v | simple _, v => some (v.map UInt8.toNat)

/-- The first `n` characters of a value. -/
def takeChars : Collation → ℕ → Bytes → Bytes
  | utf8Bin, n, v => utf8Take mbWcUtf8mb3 n v
  | utf8mb4Bin, n, v => utf8Take mbWcUtf8mb4 n v
  | binary, n, v | latin1Bin, n, v | simple _, n, v => v.take n

end Collation

end EloqSql
