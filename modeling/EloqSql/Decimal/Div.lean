import EloqSql.Decimal.Sub
import EloqSql.Lib.LongDivision

/-!
# Decimal/Div — division

`do_div_mod` without a place for the remainder is long division over words. The divisor is not
normalised: only its first word is scaled, to guess a word of the quotient, and the guess is tested
against the first two words of both operands (`guessWord`). What is taken away with a guess that is
still one too large is added back (`divStep`).

The quotient has as many fraction words as both operands together and the scale increment ask for.
-/

namespace EloqSql

open Numeral

/-! ## The words of the quotient -/

namespace Dec1

/-- `SUB2`. -/
def sub2 (from1 from2 carry : ℕ) : ℕ × ℕ :=
  let a : ℤ := from1 - from2 - carry
  if a < 0 then
    if a + digBase < 0 then ((a + digBase + digBase).toNat, 2) else ((a + digBase).toNat, 1)
  else (a.toNat, 0)

/-- A word of D4: `guess` times a word is taken away. -/
def mulSub (guess from1 from2 carry : ℕ) : ℕ × ℕ :=
  let x := guess * from2
  let hi := x / digBase
  let lo := x - hi * digBase
  ((sub2 from1 lo carry).1, (sub2 from1 lo carry).2 + hi)

end Dec1

/-- D3: the guess for a word of the quotient, from the first words of what is left of the dividend.
-/
def guessWord (start2 : List ℕ) (dcarry start10 start11 : ℕ) : ℕ :=
  let start20 := start2.getD 0 0
  let start21 := start2.getD 1 0
  let len2 := start2.length - 1
  let normFactor := digBase / (start20 + 1)
  let norm2 := normFactor * start20 + if len2 > 0 then normFactor * start21 / digBase else 0
  let x := start10 + dcarry * digBase
  let y := start11
  let guess := (normFactor * x + normFactor * y / digBase) / norm2
  let guess := if guess ≥ digBase then digBase - 1 else guess
  if len2 > 0 then
    let tooLarge (guess : ℕ) : Bool :=
      (start21 * guess : ℤ) > (x - guess * start20) * digBase + y
    let guess := if tooLarge guess then guess - 1 else guess
    if tooLarge guess then guess - 1 else guess
  else guess

/-- A round of the main loop: the word of the quotient, and what is left of the dividend. -/
def divStep (start2 : List ℕ) (dcarry : ℕ) (start1 : List ℕ) : ℕ × List ℕ :=
  -- short-circuit, if possible
  if dcarry = 0 ∧ start1.getD 0 0 < start2.getD 0 0 then (0, start1)
  else
    let guess := guessWord start2 dcarry (start1.getD 0 0) (start1.getD 1 0)
    -- D4: multiply and subtract
    let (words, carry) := zipCarry (Dec1.mulSub guess) (start1.take start2.length).reverse
      start2.reverse 0
    -- D5: check the remainder
    if dcarry < carry then
      -- D6: correct the guess
      let (words, _) := zipCarry Dec1.add words start2.reverse 0
      (guess - 1, words.reverse ++ start1.drop start2.length)
    else (guess, words.reverse ++ start1.drop start2.length)

/-- The main loop, for so many words. -/
def divLoop (start2 : List ℕ) : ℕ → ℕ → List ℕ → List ℕ
  | 0, _, _ => []
  | n + 1, dcarry, start1 =>
    let (guess, start1) := divStep start2 dcarry start1
    guess :: divLoop start2 n (start1.getD 0 0) start1.tail

/-! ## The operands -/

/-- Removing the leading words of zeroes. -/
def skipZeroWords : List ℕ → ℕ → ℕ → List ℕ × ℕ
  | [], prec, _ => ([], prec)
  | w :: ws, prec, i =>
    if prec > 0 ∧ w = 0 then skipZeroWords ws (prec - i) digPerDec1 else (w :: ws, prec)

/-- Removing the leading zeroes of the first word, which is not zero. -/
def skipZeroDigits (w : ℕ) : ℕ → ℕ → ℕ
  | 0, prec => prec
  | i + 1, prec => if w < 10 ^ (i + 1) then skipZeroDigits w i (prec - 1) else prec

/-- The words of an operand from its first digit other than zero on, and their digits up to the end
of the last fraction word. -/
def skipZeroes (from' : DecimalT) : List ℕ × ℕ :=
  let prec := from'.intg + roundUp from'.frac * digPerDec1
  let (buf, prec) := skipZeroWords from'.buf prec ((prec - 1) % digPerDec1 + 1)
  if prec = 0 then (buf, prec)
  else (buf, skipZeroDigits (buf.getD 0 0) ((prec - 1) % digPerDec1) prec)

/-- The divisor without words of zeroes at its end. -/
def trimmedWords (buf2 : List ℕ) (prec2 : ℕ) : List ℕ :=
  buf2.take (trimmedStop buf2 0 (roundUp prec2))

/-- `tmp1`: the dividend, with words of zeroes behind it. -/
def dividend (buf1 : List ℕ) (prec1 frac2 scaleIncr : ℕ) : List ℕ :=
  let i := roundUp prec1
  let len1 := max (i + roundUp (2 * frac2 + scaleIncr + 1) + 1) 3
  buf1.take i ++ List.replicate (len1 - i) 0

/-- The main loop from its start. -/
def quotientWords (start2 tmp1 : List ℕ) (n : ℕ) : List ℕ :=
  if tmp1.getD 0 0 < start2.getD 0 0 then divLoop start2 n (tmp1.getD 0 0) tmp1.tail
  else divLoop start2 n 0 tmp1

/-- `decimal_div`: `do_div_mod` without `mod`, into a buffer of `len` words. -/
def decimalDiv (from1 from2 to' : DecimalT) (len : ℕ) (scaleIncr : ℤ) : DecError × DecimalT :=
  let frac1 := roundUp from1.frac * digPerDec1
  let frac2 := roundUp from2.frac * digPerDec1
  let (buf2, prec2) := skipZeroes from2
  if prec2 = 0 then (.divZero, to')
  else
    let (buf1, prec1) := skipZeroes from1
    if prec1 = 0 then (.ok, decimalMakeZero)
    else
      -- taking into account frac1, frac2 increase
      let scaleIncr := (scaleIncr - (frac1 - from1.frac + frac2 - from2.frac)).toNat
      let dintg : ℤ := (prec1 - frac1) - (prec2 - frac2)
        + if buf1.getD 0 0 ≥ buf2.getD 0 0 then 1 else 0
      let intg0 := if dintg < 0 then 0 else roundUp dintg.toNat
      let dintg := if dintg < 0 then dintg.tdiv digPerDec1 else dintg
      let (intg0, frac0, error) :=
        fixIntgFracError len intg0 (roundUp (frac1 + frac2 + scaleIncr))
      let zeros := min (-dintg).toNat len
      let words := quotientWords (trimmedWords buf2 prec2) (dividend buf1 prec1 frac2 scaleIncr)
        (intg0 + frac0 - zeros)
      (error, ⟨from1.sign != from2.sign, intg0 * digPerDec1, frac0 * digPerDec1,
        List.replicate zeros 0 ++ words⟩)

end EloqSql
