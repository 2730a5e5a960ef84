import Mathlib.Data.Rat.Defs
import EloqSql.Lib.Numeral

/-!
# Decimal — the decimal numbers of the server

A `decimal_t` keeps words of nine digits, the integer part first and the fraction after it. The
arithmetic walks from the last word to the first: `wordsDown` are the words below a pointer, last
one first, and what is written below `buf0` is collected in the same order and turned around at the
end.

`do_add` and `do_sub` align two operands at the decimal point. `do_sub` first strips zero words from
both ends, so that a fraction can end before the decimal point and has a negative length then.
-/

namespace EloqSql

open Numeral

/-! ## Words and digits -/

/-- `DIG_PER_DEC1`. -/
def digPerDec1 : ℕ := 9

/-- `DIG_BASE`. -/
def digBase : ℕ := 1000000000

/-- `DIG_MAX`. -/
def digMax : ℕ := digBase - 1

/-- `ROUND_UP`: the words for a number of digits. -/
def roundUp (x : ℕ) : ℕ := (x + if x > 0 then digPerDec1 - 1 else 0) / digPerDec1

/-- `E_DEC_*`. -/
inductive DecError where
  | ok | truncated | overflow | divZero | badNum
  deriving DecidableEq, Repr

/-- `decimal_t`. The length of its buffer is passed beside it where something is written. -/
structure DecimalT where
  sign : Bool
  intg : ℕ
  frac : ℕ
  buf : List ℕ
  deriving DecidableEq, Repr

/-- `decimal_make_zero`. -/
def decimalMakeZero : DecimalT := ⟨false, 1, 0, [0]⟩

/-- `FIX_INTG_FRAC_ERROR`: the words that fit into a buffer. -/
def fixIntgFracError (len intg1 frac1 : ℕ) : ℕ × ℕ × DecError :=
  if intg1 + frac1 > len then
    if intg1 > len then (len, 0, .overflow) else (intg1, len - intg1, .truncated)
  else (intg1, frac1, .ok)

namespace Dec1

/-- `ADD`. -/
def add (from1 from2 carry : ℕ) : ℕ × ℕ :=
  let a := from1 + from2 + carry
  if a ≥ digBase then (a - digBase, 1) else (a, 0)

/-- `SUB`. -/
def sub (from1 from2 carry : ℕ) : ℕ × ℕ :=
  if from1 < from2 + carry then (from1 + digBase - (from2 + carry), 1)
  else (from1 - (from2 + carry), 0)

end Dec1

/-- The words from `lo` to below `hi`, last one first. -/
def wordsDown (buf : List ℕ) (lo hi : ℕ) : List ℕ := ((buf.take hi).drop lo).reverse

/-- `max_decimal`. -/
def maxDecimal (precision frac : ℕ) : DecimalT :=
  let intpart := precision - frac
  let firstdigits := intpart % digPerDec1
  let lastdigits := frac % digPerDec1
  { sign := false
    intg := intpart
    frac := frac
    buf := (if firstdigits ≠ 0 then [10 ^ firstdigits - 1] else [])
      ++ List.replicate (intpart / digPerDec1) digMax ++ List.replicate (frac / digPerDec1) digMax
      ++ if lastdigits ≠ 0 then [(10 ^ lastdigits - 1) * 10 ^ (digPerDec1 - lastdigits)] else [] }

/-! ## `do_add` -/

/-- The three parts of `do_add`: the words behind the shorter fraction, the words of both operands,
and those before the shorter integer part. The first operand has the longer fraction. -/
def addWords (buf1 : List ℕ) (intg1 frac1 : ℕ) (buf2 : List ℕ) (intg2 frac2 : ℕ) :
    List ℕ × ℕ :=
  let part1 := wordsDown buf1 (intg1 + frac2) (intg1 + frac1)
  let (part2, carry) := zipCarry Dec1.add (wordsDown buf1 (intg1 - intg2) (intg1 + frac2))
    (wordsDown buf2 0 (intg2 + frac2)) 0
  let rest := if intg1 > intg2 then wordsDown buf1 0 (intg1 - intg2)
    else wordsDown buf2 0 (intg2 - intg1)
  let (part3, carry) := zipCarry Dec1.add rest (List.replicate rest.length 0) carry
  (part1 ++ part2 ++ part3, carry)

/-- `do_add`, into a buffer of `len` words. -/
def doAdd (from1 from2 : DecimalT) (len : ℕ) : DecError × DecimalT :=
  let intg1 := roundUp from1.intg
  let intg2 := roundUp from2.intg
  let frac1 := roundUp from1.frac
  let frac2 := roundUp from2.frac
  let x := if intg1 > intg2 then from1.buf.getD 0 0
    else if intg2 > intg1 then from2.buf.getD 0 0
    else from1.buf.getD 0 0 + from2.buf.getD 0 0
  -- is there a need for extra word because of carry?
  let extra : Bool := x > digMax - 1
  let intg0 := if extra then max intg1 intg2 + 1 else max intg1 intg2
  let (intg0, frac0, error) := fixIntgFracError len intg0 (max frac1 frac2)
  if error = .overflow then (error, maxDecimal (len * digPerDec1) 0)
  else
    let setIfSmaller (x bound : ℕ) := if error ≠ .ok then min x bound else x
    let frac := setIfSmaller (max from1.frac from2.frac) (frac0 * digPerDec1)
    let frac1 := setIfSmaller frac1 frac0
    let frac2 := setIfSmaller frac2 frac0
    let intg1 := setIfSmaller intg1 intg0
    let intg2 := setIfSmaller intg2 intg0
    let (words, carry) :=
      if frac1 > frac2 then addWords from1.buf intg1 frac1 from2.buf intg2 frac2
      else addWords from2.buf intg2 frac2 from1.buf intg1 frac1
    -- without a carry the first word is the one that was cleared for safety
    let words := if carry ≠ 0 then words ++ [1] else if extra then words ++ [0] else words
    (error, ⟨from1.sign, intg0 * digPerDec1, frac, words.reverse⟩)

/-! ## `do_sub` -/

/-- The number of zero words before the first other one, or before the decimal point. -/
def leadingZeros (buf : List ℕ) (stop : ℕ) : ℕ := ((buf.take stop).takeWhile (· = 0)).length

/-- The end of the words from `start` on, without zero words at the end. -/
def trimmedStop (buf : List ℕ) (start stop : ℕ) : ℕ :=
  start + ((wordsDown buf start stop).dropWhile (· = 0)).length

/-- Whether the second operand is the greater one, from the first word that differs; nothing if
there is none. -/
def greaterWords : List ℕ → List ℕ → Option Bool
  | [], [] => none
  | _ :: _, [] => some false
  | [], _ :: _ => some true
  | a :: u, b :: v => if a = b then greaterWords u v else some (b > a)

/-- An operand of `do_sub`: where its integer part starts, and the words of both parts. -/
structure SubOperand where
  buf : List ℕ
  start : ℕ
  intg : ℕ
  frac : ℤ

/-- The first half of `do_sub`: the operands, and whether the second one is the greater one. -/
def compareOperands (from1 from2 : DecimalT) : SubOperand × SubOperand × Option Bool :=
  let stop1 := roundUp from1.intg
  let stop2 := roundUp from2.intg
  let frac1 := roundUp from1.frac
  let frac2 := roundUp from2.frac
  let start1 := leadingZeros from1.buf stop1
  let start2 := leadingZeros from2.buf stop2
  let intg1 := stop1 - start1
  let intg2 := stop2 - start2
  if intg2 > intg1 then
    (⟨from1.buf, start1, intg1, frac1⟩, ⟨from2.buf, start2, intg2, frac2⟩, some true)
  else if intg2 = intg1 then
    let end1 := trimmedStop from1.buf start1 (stop1 + frac1)
    let end2 := trimmedStop from2.buf start2 (stop2 + frac2)
    (⟨from1.buf, start1, intg1, end1 - stop1⟩, ⟨from2.buf, start2, intg2, end2 - stop2⟩,
      greaterWords ((from1.buf.take end1).drop start1) ((from2.buf.take end2).drop start2))
  else (⟨from1.buf, start1, intg1, frac1⟩, ⟨from2.buf, start2, intg2, frac2⟩, some false)

/-- The words of an operand between two positions behind the decimal point, last one first. -/
def SubOperand.down (a : SubOperand) (lo hi : ℤ) : List ℕ :=
  wordsDown a.buf (a.start + a.intg + lo).toNat (a.start + a.intg + hi).toNat

/-- The loops of the third part: the borrow is passed on as long as there is one. -/
def borrowLoop : List ℕ → ℕ → List ℕ
  | [], _ => []
  | w :: ws, carry =>
    if carry ≠ 0 then
      let (w, carry) := Dec1.sub w 0 carry
      w :: borrowLoop ws carry
    else w :: ws

/-- The first part of `do_sub`: the words behind the shorter fraction. -/
def subPart1 (a b : SubOperand) (frac0 : ℕ) : List ℕ × ℕ :=
  if a.frac > b.frac then
    (List.replicate (frac0 - a.frac).toNat 0 ++ a.down b.frac a.frac, 0)
  else
    let words := b.down a.frac b.frac
    let (words, carry) := zipCarry Dec1.sub (List.replicate words.length 0) words 0
    (List.replicate (frac0 - b.frac).toNat 0 ++ words, carry)

/-- The three parts of `do_sub`, with the greater operand first. -/
def subWords (a b : SubOperand) (frac0 : ℕ) : List ℕ :=
  let (part1, carry) := subPart1 a b frac0
  let words1 := a.down (-a.intg) (min a.frac b.frac)
  let words2 := b.down (-b.intg) (min a.frac b.frac)
  let (part2, carry) := zipCarry Dec1.sub words1 words2 carry
  let words := part1 ++ (part2 ++ borrowLoop (words1.drop words2.length) carry)
  words ++ List.replicate (a.intg + frac0 - words.length) 0

/-- `do_sub`, into a buffer of `len` words. -/
def doSub (from1 from2 : DecimalT) (len : ℕ) : DecError × DecimalT :=
  match compareOperands from1 from2 with
  | (_, _, none) => (.ok, decimalMakeZero)
  | (a, b, some carry) =>
    -- ensure that always from1 > from2
    let (a, b) := if carry then (b, a) else (a, b)
    let (intg1, frac0, error) :=
      fixIntgFracError len a.intg (max (roundUp from1.frac) (roundUp from2.frac))
    let a := { a with intg := intg1 }
    let (a, b) :=
      if error ≠ .ok then
        ({ a with frac := min a.frac frac0 },
          { b with frac := min b.frac frac0, intg := min b.intg intg1 })
      else (a, b)
    let frac := max from1.frac from2.frac
    let frac := if error ≠ .ok then min frac (frac0 * digPerDec1) else frac
    (error, ⟨from1.sign ^^ carry, intg1 * digPerDec1, frac, (subWords a b frac0).reverse⟩)

/-! ## The entry points -/

/-- `decimal_add`. -/
def decimalAdd (from1 from2 : DecimalT) (len : ℕ) : DecError × DecimalT :=
  if from1.sign = from2.sign then doAdd from1 from2 len else doSub from1 from2 len

/-- `decimal_sub`. -/
def decimalSub (from1 from2 : DecimalT) (len : ℕ) : DecError × DecimalT :=
  if from1.sign = from2.sign then doSub from1 from2 len else doAdd from1 from2 len

/-- `decimal_cmp`, with what `do_sub` returns without a result buffer. -/
def decimalCmp (from1 from2 : DecimalT) : ℤ :=
  if from1.sign = from2.sign then
    match (compareOperands from1 from2).2.2 with
    | none => 0
    | some carry => if carry = from1.sign then 1 else -1
  else if from1.sign > from2.sign then -1 else 1

end EloqSql
