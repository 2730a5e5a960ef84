import EloqSql.Decimal.Div
import EloqSql.Packing

/-!
# Decimal/Bin — the binary image of a decimal

`decimal2bin` stores the digits before and behind the decimal point in groups of nine, four bytes
each, and what is left at both ends in one to four bytes. A negative number is stored with all bits
inverted, and the highest bit is inverted at the end. `bin2decimal` reads that back: the numbers are
sign-extended, so that the mask restores them.

The words are those of 32 bits, as natural numbers: `dec1Xor` is what `^ mask` does to them.
-/

namespace EloqSql

/-- `x ^ mask` on words of 32 bits, for a mask of `-1` or `0`. -/
def dec1Xor (mask : Bool) (x : ℕ) : ℕ := if mask then 2 ^ 32 - 1 - x else x

/-- `(uchar) mask`. -/
def maskByte (mask : Bool) : UInt8 := if mask then 255 else 0

/-- Inverting the highest bit of an image. -/
def invertFirst : Bytes → Bytes
  | [] => []
  | b :: bs => (b ^^^ 0x80) :: bs

/-- `remove_leading_zeroes`: the words, and the digits of the integer part. The latter are counted
in 16 bits. -/
def removeLeadingZeroes (from' : DecimalT) : List ℕ × ℕ :=
  let intg := from'.intg % 2 ^ 16
  let (buf0, intg) := skipZeroWords from'.buf intg ((intg - 1) % digPerDec1 + 1)
  if intg > 0 then (buf0, skipZeroDigits (buf0.getD 0 0) ((intg - 1) % digPerDec1) intg)
  else (buf0, 0)

/-- The digits of the last fraction word that are stored: as many as the bytes hold. -/
def growDigits (lim i : ℕ) : ℕ → ℕ → ℕ
  | 0, frac1x => frac1x
  | fuel + 1, frac1x =>
    if frac1x < lim ∧ dig2bytes frac1x = i then growDigits lim i fuel (frac1x + 1) else frac1x

/-- The stored words: what is left of the integer part, so many whole words, and what is left of the
fraction. -/
def storeWords (mask : Bool) (buf1 : List ℕ) (intg1x words frac1x lim : ℕ) : Bytes :=
  let part1 := if intg1x ≠ 0 then
    miStore (dig2bytes intg1x) (dec1Xor mask (buf1.getD 0 0 % 10 ^ intg1x)) else []
  let buf1 := if intg1x ≠ 0 then buf1.tail else buf1
  let part2 := (buf1.take words).flatMap fun w => miStore 4 (dec1Xor mask w)
  let part3 := if frac1x ≠ 0 then
    let i := dig2bytes frac1x
    miStore i (dec1Xor mask (buf1.getD words 0
      / 10 ^ (digPerDec1 - growDigits lim i digPerDec1 frac1x)))
    else []
  part1 ++ part2 ++ part3

/-- How the fraction is stored if it fits: whole words, digits of the last one, and the bytes that
it takes with those that are filled in behind. -/
def fracWords (frac0 frac0x frac1 frac1x fsize0 fsize1 : ℕ) : ℕ × ℕ × ℕ :=
  if fsize0 > fsize1 ∧ frac1x ≠ 0 then
    if frac0 = frac1 then (frac1, frac0x, fsize1) else (frac1 + 1, 0, fsize0)
  else (frac1, frac1x, fsize0)

/-- `decimal2bin`. -/
def decimal2bin (from' : DecimalT) (precision frac : ℕ) : DecError × Bytes :=
  let intg := precision - frac
  let intg0 := intg / digPerDec1
  let frac0 := frac / digPerDec1
  let intg0x := intg - intg0 * digPerDec1
  let frac0x := frac - frac0 * digPerDec1
  let frac1 := from'.frac / digPerDec1
  let frac1x := from'.frac - frac1 * digPerDec1
  let isize0 := intg0 * 4 + dig2bytes intg0x
  let fsize0 := frac0 * 4 + dig2bytes frac0x
  let fsize1 := frac1 * 4 + dig2bytes frac1x
  let (buf1, fromIntg) := removeLeadingZeroes from'
  let (mask, intg, buf1) :=
    if fromIntg + fsize1 = 0 then (false, 1, [0]) else (from'.sign, intg, buf1)
  let intg1 := fromIntg / digPerDec1
  let intg1x := fromIntg - intg1 * digPerDec1
  let isize1 := intg1 * 4 + dig2bytes intg1x
  let (error, buf1, intg1, intg1x, fill) :=
    if intg < fromIntg then
      (DecError.overflow, buf1.drop (intg1 + (if intg1x > 0 then 1 else 0)
        - (intg0 + if intg0x > 0 then 1 else 0)), intg0, intg0x, 0)
    else (.ok, buf1, intg1, intg1x, isize0 - isize1)
  let (error, frac1, frac1x, fsize0') :=
    if fsize0 < fsize1 then (DecError.truncated, frac0, frac0x, fsize0)
    else (error, fracWords frac0 frac0x frac1 frac1x fsize0 fsize1)
  let bytes := List.replicate fill (maskByte mask)
    ++ storeWords mask buf1 intg1x (intg1 + frac1) frac1x
      (if frac1 < frac0 then digPerDec1 else frac0x)
  let rest := min (fsize0' - fsize1) (fsize0 + isize0 - bytes.length)
  (error, invertFirst (bytes ++ List.replicate rest (maskByte mask)))

/-! ## `bin2decimal` -/

/-- `mi_sint1korr` and its kin: a signed number stored high byte first, as a word of 32 bits. -/
def miSint (ptr : Bytes) : ℕ := (leInt ptr.reverse % 2 ^ 32).toNat

/-- A word of the integer part. Words of zeroes at the start are left out, with their digits. -/
def putIntWord (buf : List ℕ) (intg w digits : ℕ) : List ℕ × ℕ :=
  if buf ≠ [] ∨ w ≠ 0 then (buf ++ [w], intg) else (buf, intg - digits)

/-- The digits at the start of the integer part. -/
def readIntDigits (mask : Bool) (from' : Bytes) (intg0x intg : ℕ) : Option (List ℕ × ℕ) :=
  if intg0x ≠ 0 then
    let w := dec1Xor mask (miSint (from'.take (dig2bytes intg0x)))
    if w ≥ 10 ^ (intg0x + 1) then none else some (putIntWord [] intg w intg0x)
  else some ([], intg)

/-- The whole words of the integer part. -/
def readIntWords (mask : Bool) : ℕ → Bytes → List ℕ × ℕ → Option (List ℕ × ℕ)
  | 0, _, (buf, intg) => some (buf, intg)
  | n + 1, from', (buf, intg) =>
    let w := dec1Xor mask (miSint (from'.take 4))
    if w > digMax then none
    else readIntWords mask n (from'.drop 4) (putIntWord buf intg w digPerDec1)

/-- The whole words of the fraction. -/
def readFracWords (mask : Bool) : ℕ → Bytes → Option (List ℕ)
  | 0, _ => some []
  | n + 1, from' =>
    let w := dec1Xor mask (miSint (from'.take 4))
    if w > digMax then none else (readFracWords mask n (from'.drop 4)).map (w :: ·)

/-- The digits at the end of the fraction. -/
def readFracDigits (mask : Bool) (from' : Bytes) (frac0x : ℕ) : Option (List ℕ) :=
  if frac0x ≠ 0 then
    let w := dec1Xor mask (miSint (from'.take (dig2bytes frac0x)))
      * 10 ^ (digPerDec1 - frac0x) % 2 ^ 32
    if w > digMax then none else some [w]
  else some []

/-- The words of both parts, and the digits of the integer part. -/
def readWords (mask : Bool) (from' : Bytes) (intg0 intg0x frac0 frac0x : ℕ) :
    Option (List ℕ × ℕ) := do
  let digits ← readIntDigits mask from' intg0x (intg0 * digPerDec1 + intg0x)
  let from' := from'.drop (dig2bytes intg0x)
  let (buf, intg) ← readIntWords mask intg0 from' digits
  let from' := from'.drop (intg0 * 4)
  let fracBuf ← readFracWords mask frac0 from'
  let last ← readFracDigits mask (from'.drop (frac0 * 4)) frac0x
  return (buf ++ fracBuf ++ last, intg)

/-- `bin2decimal`, into a buffer of `len` words. -/
def bin2decimal (from' : Bytes) (len precision scale : ℕ) : DecError × DecimalT :=
  let intg := precision - scale
  let intg0 := intg / digPerDec1
  let frac0 := scale / digPerDec1
  let intg0x := intg - intg0 * digPerDec1
  let frac0x := scale - frac0 * digPerDec1
  let mask : Bool := from'.getD 0 0 &&& 0x80 = 0
  let from' := invertFirst (from'.take (decimalBinSize precision scale))
  let words := intg0 + if intg0x > 0 then 1 else 0
  let (intg1, frac1, error) := fixIntgFracError len words (frac0 + if frac0x > 0 then 1 else 0)
  let (from', intg0, intg0x, frac0, frac0x) :=
    if error ≠ .ok then
      if intg1 < words then
        (from'.drop (dig2bytes intg0x + 4 * (intg0 - intg1)), intg1, 0, 0, 0)
      else (from', intg0, intg0x, frac1, 0)
    else (from', intg0, intg0x, frac0, frac0x)
  let frac := frac0 * digPerDec1 + frac0x
  match readWords mask from' intg0 intg0x frac0 frac0x with
  | some (buf, intg) =>
    -- no digits: the number zero, of unspecified precision
    (error, if intg = 0 ∧ frac = 0 then decimalMakeZero else ⟨mask, intg, frac, buf⟩)
  | none => (.badNum, decimalMakeZero)

end EloqSql
