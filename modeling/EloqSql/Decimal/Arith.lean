import Mathlib.Algebra.Order.Field.Rat
import Mathlib.Tactic.FieldSimp
import Mathlib.Tactic.Ring
import EloqSql.Decimal

/-!
# Decimal/Arith — values of decimals, and their sums

The value of a decimal is that of its words over a power of `DIG_BASE`. `do_add` works on the words
of the operands aligned at the decimal point: long addition (`ofDigits_zipCarry_add`) does the words
that both have, the others are copied, and the first words foretell whether the last carry needs a
word (`addWords_carry`).
-/

namespace EloqSql

open Numeral List
open Nat (ofDigits)

/-! ## Values -/

/-- The words in use, last one first. -/
def DecimalT.down (d : DecimalT) : List ℕ := wordsDown d.buf 0 (roundUp d.intg + roundUp d.frac)

/-- The absolute value. -/
def DecimalT.magnitude (d : DecimalT) : ℚ :=
  ofDigits digBase d.down / (digBase : ℚ) ^ roundUp d.frac

/-- **The value of a decimal.** -/
def DecimalT.value (d : DecimalT) : ℚ := if d.sign then -d.magnitude else d.magnitude

/-- **A valid decimal**: words below `DIG_BASE`, as many as its digits take, and no negative zero.
Zero words may be anywhere. -/
structure Decimal extends DecimalT where
  word_lt : ∀ w ∈ buf, w < digBase := by decide
  size_le : roundUp intg + roundUp frac ≤ buf.length := by decide
  buf_ne_nil : buf ≠ [] := by decide
  no_neg_zero : sign = true → toDecimalT.magnitude ≠ 0 := by decide +kernel

instance : Coe Decimal DecimalT := ⟨Decimal.toDecimalT⟩

theorem digBase_pos : 0 < digBase := by decide

theorem one_lt_digBase : 1 < digBase := by decide

theorem roundUp_eq (n : ℕ) : roundUp n = (n + 8) / 9 := by
  rw [roundUp, digPerDec1]
  split <;> omega

@[simp] theorem roundUp_mul (n : ℕ) : roundUp (n * digPerDec1) = n := by
  rw [roundUp_eq, digPerDec1]
  omega

theorem roundUp_max (m n : ℕ) : roundUp (max m n) = max (roundUp m) (roundUp n) := by
  simp only [roundUp_eq]
  omega

/-! ## Words below a pointer -/

section Down

variable {buf : List ℕ} {lo mid hi : ℕ}

theorem wordsDown_append (h : lo ≤ mid) (h' : mid ≤ hi) :
    wordsDown buf lo hi = wordsDown buf mid hi ++ wordsDown buf lo mid := by
  rw [wordsDown, wordsDown, wordsDown, ← reverse_append, drop_take, drop_take,
    drop_take, show hi - lo = mid - lo + (hi - mid) by omega, take_add, drop_drop,
    show lo + (mid - lo) = mid by omega]

@[simp] theorem wordsDown_self : wordsDown buf lo lo = [] := by
  simp [wordsDown]

theorem length_wordsDown (h : hi ≤ buf.length) : (wordsDown buf lo hi).length = hi - lo := by
  simp [wordsDown, Nat.min_eq_left h]

theorem wordsDown_lt {b : ℕ} (h : ∀ w ∈ buf, w < b) : ∀ w ∈ wordsDown buf lo hi, w < b :=
  fun w hw => h w (mem_of_mem_take (mem_of_mem_drop (mem_reverse.1 hw)))

theorem ofDigits_wordsDown_append (h : lo ≤ mid) (h' : mid ≤ hi) (hle : hi ≤ buf.length) :
    ofDigits digBase (wordsDown buf lo hi)
      = ofDigits digBase (wordsDown buf mid hi)
        + digBase ^ (hi - mid) * ofDigits digBase (wordsDown buf lo mid) := by
  rw [wordsDown_append h h', Nat.ofDigits_append, length_wordsDown hle]

theorem ofDigits_lt_pow (lo : ℕ) (h : ∀ w ∈ buf, w < digBase) (hle : hi ≤ buf.length) :
    ofDigits digBase (wordsDown buf lo hi) < digBase ^ (hi - lo) := by
  rw [← length_wordsDown hle]
  exact Nat.ofDigits_lt_base_pow_length one_lt_digBase (wordsDown_lt h)

/-- The first word bounds a number. -/
theorem ofDigits_lt_first (h : ∀ w ∈ buf, w < digBase) (hn : 0 < hi) (hle : hi ≤ buf.length) :
    ofDigits digBase (wordsDown buf 0 hi) < (buf.getD 0 0 + 1) * digBase ^ (hi - 1) := by
  obtain ⟨w, ws, rfl⟩ := exists_cons_of_length_pos (hn.trans_le hle)
  have hlow := ofDigits_lt_pow 1 h hle
  have hfirst : wordsDown (w :: ws) 0 1 = [w] := by simp [wordsDown]
  rw [ofDigits_wordsDown_append (Nat.zero_le 1) hn hle, hfirst, Nat.ofDigits_singleton,
    getD_cons_zero, Nat.add_mul, Nat.one_mul, Nat.mul_comm w]
  omega

end Down

/-! ## Addition -/

theorem Dec1.adds : Adds digBase Dec1.add := by
  intro u v c hu hv hc
  simp only [Dec1.add]
  split <;> simp only <;> omega

theorem Dec1.subtracts : Subtracts digBase 1 1 Dec1.sub := by
  intro u v c hu hv hc
  simp only [Dec1.sub]
  split <;> simp only <;> omega

section AddWords

variable {buf1 buf2 : List ℕ} {intg1 frac1 intg2 frac2 : ℕ}

/-- The words before the shorter integer part. -/
theorem ofDigits_addWords_rest (hlen1 : intg1 ≤ buf1.length) (hlen2 : intg2 ≤ buf2.length)
    {rest : List ℕ} (hrest : rest = if intg1 > intg2 then wordsDown buf1 0 (intg1 - intg2)
      else wordsDown buf2 0 (intg2 - intg1)) :
    rest.length = (intg1 - intg2) + (intg2 - intg1) ∧
      ofDigits digBase rest = ofDigits digBase (wordsDown buf1 0 (intg1 - intg2))
        + ofDigits digBase (wordsDown buf2 0 (intg2 - intg1)) := by
  split at hrest
  · subst hrest
    rw [length_wordsDown (by omega), show intg2 - intg1 = 0 by omega]
    simp
  · subst hrest
    rw [length_wordsDown (by omega), show intg1 - intg2 = 0 by omega]
    simp

/-- **The parts of `do_add` add up to the sum of the operands**, aligned at the decimal point. -/
theorem ofDigits_addWords (h1 : ∀ w ∈ buf1, w < digBase) (h2 : ∀ w ∈ buf2, w < digBase)
    (hlen1 : intg1 + frac1 ≤ buf1.length) (hlen2 : intg2 + frac2 ≤ buf2.length)
    (hfrac : frac2 ≤ frac1) :
    (addWords buf1 intg1 frac1 buf2 intg2 frac2).1.length = max intg1 intg2 + frac1 ∧
    (addWords buf1 intg1 frac1 buf2 intg2 frac2).2 ≤ 1 ∧
    ofDigits digBase (addWords buf1 intg1 frac1 buf2 intg2 frac2).1
        + digBase ^ (max intg1 intg2 + frac1) * (addWords buf1 intg1 frac1 buf2 intg2 frac2).2
      = ofDigits digBase (wordsDown buf1 0 (intg1 + frac1))
        + digBase ^ (frac1 - frac2) * ofDigits digBase (wordsDown buf2 0 (intg2 + frac2)) := by
  -- the words of both operands, and what is before them
  have hlenU : (wordsDown buf1 (intg1 - intg2) (intg1 + frac2)).length
      = (wordsDown buf2 (intg2 - intg1) (intg2 + frac2)).length := by
    rw [length_wordsDown (by omega), length_wordsDown hlen2]
    omega
  obtain ⟨-, hcarry, hsum⟩ := ofDigits_zipCarry_add Dec1.adds hlenU (wordsDown_lt h1)
    (wordsDown_lt h2) (Nat.zero_le 1)
  have hsplit2 : wordsDown buf2 0 (intg2 + frac2)
      = wordsDown buf2 (intg2 - intg1) (intg2 + frac2) ++ wordsDown buf2 0 (intg2 - intg1) :=
    wordsDown_append (Nat.zero_le _) (by omega)
  have hpart1 := ofDigits_wordsDown_append (Nat.zero_le (intg1 + frac2))
    (show intg1 + frac2 ≤ intg1 + frac1 by omega) hlen1
  have hpart2 := ofDigits_wordsDown_append (Nat.zero_le (intg1 - intg2))
    (show intg1 - intg2 ≤ intg1 + frac2 by omega) (show intg1 + frac2 ≤ buf1.length by omega)
  have hpart2' := ofDigits_wordsDown_append (Nat.zero_le (intg2 - intg1))
    (show intg2 - intg1 ≤ intg2 + frac2 by omega) hlen2
  simp only [addWords]
  rw [hsplit2, zipCarry_append_right _ hlenU, ← hsplit2]
  generalize hrest : (if intg1 > intg2 then wordsDown buf1 0 (intg1 - intg2)
      else wordsDown buf2 0 (intg2 - intg1)) = rest
  generalize hz : zipCarry Dec1.add (wordsDown buf1 (intg1 - intg2) (intg1 + frac2))
    (wordsDown buf2 (intg2 - intg1) (intg2 + frac2)) 0 = z at hcarry hsum ⊢
  obtain ⟨hrestlen, hrestsum⟩ := ofDigits_addWords_rest (by omega) (by omega) hrest.symm
  have hrestlt : ∀ w ∈ rest, w < digBase := by
    subst hrest
    split
    · exact wordsDown_lt h1
    · exact wordsDown_lt h2
  obtain ⟨-, hcarry', hsum'⟩ := ofDigits_zipCarry_add Dec1.adds
    (show rest.length = (replicate rest.length 0).length by simp) hrestlt
    (fun v hv => (eq_of_mem_replicate hv).trans_lt digBase_pos) hcarry
  have hlen : (wordsDown buf1 (intg1 + frac2) (intg1 + frac1)).length = frac1 - frac2 := by
    rw [length_wordsDown hlen1]
    omega
  have hlenz : z.1.length = min intg1 intg2 + frac2 := by
    rw [← hz, length_zipCarry _ hlenU, length_wordsDown (by omega)]
    omega
  have hlenr : (zipCarry Dec1.add rest (replicate rest.length 0) z.2).1.length
      = rest.length := length_zipCarry _ (by simp)
  refine ⟨?_, hcarry', ?_⟩
  · rw [length_append, length_append, hlen, hlenz, hlenr, hrestlen]
    omega
  rw [length_wordsDown (by omega), show intg1 + frac2 - (intg1 - intg2) = min intg1 intg2 + frac2 by
    omega] at hsum
  rw [show intg1 + frac2 - (intg1 - intg2) = min intg1 intg2 + frac2 by omega] at hpart2
  rw [show intg2 + frac2 - (intg2 - intg1) = min intg1 intg2 + frac2 by omega] at hpart2'
  rw [show intg1 + frac1 - (intg1 + frac2) = frac1 - frac2 by omega] at hpart1
  rw [Nat.ofDigits_replicate_zero] at hsum'
  rw [Nat.ofDigits_append, Nat.ofDigits_append, length_append, hlen, hlenz, hpart1, hpart2,
    hpart2', show max intg1 intg2 + frac1
      = (frac1 - frac2) + (min intg1 intg2 + frac2) + rest.length by omega, pow_add, pow_add]
  zify at hsum hsum' hrestsum ⊢
  linear_combination (digBase : ℤ) ^ (frac1 - frac2) * hsum
    + (digBase : ℤ) ^ (frac1 - frac2) * (digBase : ℤ) ^ (min intg1 intg2 + frac2)
      * (hsum' + hrestsum)

/-- Aligning a number moves its bound. -/
theorem align_lt {n k e : ℕ} (d : ℕ) (h : n < k * digBase ^ e) :
    digBase ^ d * n < k * digBase ^ (d + e) := by
  calc digBase ^ d * n
      < digBase ^ d * (k * digBase ^ e) := Nat.mul_lt_mul_of_pos_left h (Nat.pow_pos digBase_pos)
    _ = k * digBase ^ (d + e) := by rw [pow_add, Nat.mul_left_comm]

/-- Two numbers whose bounds leave room in the first word. -/
theorem add_lt_pow {m n k l e : ℕ} (hm : m < k * digBase ^ e) (hn : n < l * digBase ^ e)
    (hkl : k + l ≤ digBase) : m + n < digBase ^ (e + 1) := by
  calc m + n < k * digBase ^ e + l * digBase ^ e := Nat.add_lt_add hm hn
    _ = (k + l) * digBase ^ e := (Nat.add_mul ..).symm
    _ ≤ digBase * digBase ^ e := Nat.mul_le_mul_right _ hkl
    _ = digBase ^ (e + 1) := (Nat.pow_succ').symm

/-- The first word of the sum, as `do_add` foresees it. -/
def addFirst (buf1 : List ℕ) (intg1 : ℕ) (buf2 : List ℕ) (intg2 : ℕ) : ℕ :=
  if intg1 > intg2 then buf1.getD 0 0
  else if intg2 > intg1 then buf2.getD 0 0
  else buf1.getD 0 0 + buf2.getD 0 0

/-- **Without a full first word there is no last carry.** -/
theorem addWords_carry (h1 : ∀ w ∈ buf1, w < digBase) (h2 : ∀ w ∈ buf2, w < digBase)
    (hlen1 : intg1 + frac1 ≤ buf1.length) (hlen2 : intg2 + frac2 ≤ buf2.length)
    (hfrac : frac2 ≤ frac1) (hx : addFirst buf1 intg1 buf2 intg2 ≤ digMax - 1) :
    (addWords buf1 intg1 frac1 buf2 intg2 frac2).2 = 0 := by
  obtain ⟨-, -, hsum⟩ := ofDigits_addWords h1 h2 hlen1 hlen2 hfrac
  have hlt1 := ofDigits_lt_pow 0 h1 hlen1
  have hlt2 := ofDigits_lt_pow 0 h2 hlen2
  have hbase : digMax - 1 + 2 = digBase := by decide
  suffices hlt : ofDigits digBase (wordsDown buf1 0 (intg1 + frac1))
      + digBase ^ (frac1 - frac2) * ofDigits digBase (wordsDown buf2 0 (intg2 + frac2))
      < digBase ^ (max intg1 intg2 + frac1) by
    by_contra hc
    have := Nat.le_mul_of_pos_right (digBase ^ (max intg1 intg2 + frac1)) (Nat.pos_of_ne_zero hc)
    omega
  have hle : ∀ {n i : ℕ}, n < digBase ^ i → i ≤ max intg1 intg2 + frac1 - 1 →
      n < 1 * digBase ^ (max intg1 intg2 + frac1 - 1) := fun hn hi => by
    rw [Nat.one_mul]
    exact hn.trans_le (Nat.pow_le_pow_right digBase_pos hi)
  have halign := align_lt (k := 1) (frac1 - frac2) (by rwa [Nat.one_mul])
  rw [Nat.sub_zero, show frac1 - frac2 + (intg2 + frac2) = intg2 + frac1 by omega,
    Nat.one_mul] at halign
  -- an operand without words is zero
  rcases Nat.eq_zero_or_pos (intg1 + frac1) with hz | hpos1
  · rw [hz, wordsDown_self, Nat.ofDigits_nil, Nat.zero_add]
    exact halign.trans_le (Nat.pow_le_pow_right digBase_pos (by omega))
  rcases Nat.eq_zero_or_pos (intg2 + frac2) with hz | hpos2
  · rw [hz, wordsDown_self, Nat.ofDigits_nil, Nat.mul_zero, Nat.add_zero]
    exact hlt1.trans_le (Nat.pow_le_pow_right digBase_pos (by omega))
  -- the operand with the longer integer part has room in its first word
  have hfirst1 := ofDigits_lt_first h1 hpos1 hlen1
  have hfirst2 := align_lt (frac1 - frac2) (ofDigits_lt_first h2 hpos2 hlen2)
  rw [show max intg1 intg2 + frac1 = max intg1 intg2 + frac1 - 1 + 1 by omega]
  rw [addFirst] at hx
  split at hx
  · rw [show intg1 + frac1 - 1 = max intg1 intg2 + frac1 - 1 by omega] at hfirst1
    exact add_lt_pow hfirst1 (hle halign (by omega)) (by omega)
  rw [show frac1 - frac2 + (intg2 + frac2 - 1) = max intg1 intg2 + frac1 - 1 by omega] at hfirst2
  split at hx
  · exact add_lt_pow (hle hlt1 (by omega)) hfirst2 (by omega)
  · rw [show intg1 + frac1 - 1 = max intg1 intg2 + frac1 - 1 by omega] at hfirst1
    exact add_lt_pow hfirst1 hfirst2 (by omega)

end AddWords

/-! ### `do_add` -/

theorem fixIntgFracError_ok {len intg frac : ℕ} :
    (fixIntgFracError len intg frac).2.2 = .ok ↔ intg + frac ≤ len := by
  rw [fixIntgFracError]
  split
  · split <;> simp <;> omega
  · simp
    omega

theorem fixIntgFracError_of_le {len intg frac : ℕ} (h : intg + frac ≤ len) :
    fixIntgFracError len intg frac = (intg, frac, .ok) := by
  rw [fixIntgFracError, if_neg (by omega)]

theorem wordsDown_reverse_self (ws : List ℕ) : wordsDown ws.reverse 0 ws.length = ws := by
  rw [wordsDown, ← length_reverse, take_length, drop_zero, reverse_reverse]

/-- A number over a power of the base, aligned to a longer fraction. -/
theorem align_div {frac frac0 : ℕ} (n : ℕ) (h : frac ≤ frac0) :
    ((digBase ^ (frac0 - frac) * n : ℕ) : ℚ) / (digBase : ℚ) ^ frac0
      = n / (digBase : ℚ) ^ frac := by
  have hbase : (digBase : ℚ) ≠ 0 := by
    exact_mod_cast digBase_pos.ne'
  rw [Nat.cast_mul, Nat.cast_pow, show frac0 = (frac0 - frac) + frac by omega, pow_add,
    Nat.add_sub_cancel]
  field_simp

/-- The value of words that were collected last one first. -/
theorem magnitude_reverse (sign : Bool) (intg frac : ℕ) {ws : List ℕ}
    (h : ws.length = roundUp intg + roundUp frac) :
    (⟨sign, intg, frac, ws.reverse⟩ : DecimalT).magnitude
      = ofDigits digBase ws / (digBase : ℚ) ^ roundUp frac := by
  rw [DecimalT.magnitude, DecimalT.down]
  simp only [← h, wordsDown_reverse_self]

section Add

variable (a b : Decimal)

/-- The parts of `do_add`, in the order that it takes the operands in. -/
def addOrdered : List ℕ × ℕ :=
  if roundUp a.frac > roundUp b.frac then
    addWords a.buf (roundUp a.intg) (roundUp a.frac) b.buf (roundUp b.intg) (roundUp b.frac)
  else addWords b.buf (roundUp b.intg) (roundUp b.frac) a.buf (roundUp a.intg) (roundUp a.frac)

/-- `do_add` provides for a carry. -/
def addExtra : Bool := addFirst a.buf (roundUp a.intg) b.buf (roundUp b.intg) > digMax - 1

theorem addFirst_comm (buf1 buf2 : List ℕ) (intg1 intg2 : ℕ) :
    addFirst buf1 intg1 buf2 intg2 = addFirst buf2 intg2 buf1 intg1 := by
  simp only [addFirst]
  split_ifs <;> omega

theorem addOrdered_spec :
    (addOrdered a b).1.length
        = max (roundUp a.intg) (roundUp b.intg) + max (roundUp a.frac) (roundUp b.frac) ∧
    (addOrdered a b).2 ≤ 1 ∧ (addExtra a b = false → (addOrdered a b).2 = 0) ∧
    ofDigits digBase (addOrdered a b).1
        + digBase ^ (max (roundUp a.intg) (roundUp b.intg) + max (roundUp a.frac) (roundUp b.frac))
          * (addOrdered a b).2
      = digBase ^ (max (roundUp a.frac) (roundUp b.frac) - roundUp a.frac)
          * ofDigits digBase a.down
        + digBase ^ (max (roundUp a.frac) (roundUp b.frac) - roundUp b.frac)
          * ofDigits digBase b.down := by
  have hextra : ∀ {x : ℕ}, decide (x > digMax - 1) = false → x ≤ digMax - 1 := fun h => by
    simpa using h
  rw [addOrdered]
  split
  · rename_i hgt
    obtain ⟨hlen, hcarry, hsum⟩ :=
      ofDigits_addWords a.word_lt b.word_lt a.size_le b.size_le hgt.le
    rw [Nat.max_eq_left hgt.le, Nat.sub_self, Nat.pow_zero, Nat.one_mul]
    exact ⟨hlen, hcarry, fun h => addWords_carry a.word_lt b.word_lt a.size_le b.size_le hgt.le
      (hextra h), hsum⟩
  · rename_i hle
    have hle : roundUp a.frac ≤ roundUp b.frac := Nat.not_lt.1 hle
    obtain ⟨hlen, hcarry, hsum⟩ := ofDigits_addWords b.word_lt a.word_lt b.size_le a.size_le hle
    rw [Nat.max_eq_right hle, Nat.sub_self, Nat.pow_zero, Nat.one_mul,
      Nat.max_comm (roundUp a.intg), Nat.add_comm (_ * _)]
    refine ⟨hlen, hcarry, fun h => ?_, hsum⟩
    refine addWords_carry b.word_lt a.word_lt b.size_le a.size_le hle ?_
    rw [addFirst_comm]
    exact hextra h

/-- The words of the sum, with the last carry or the word that was provided for it. -/
def addClosed : List ℕ :=
  if (addOrdered a b).2 ≠ 0 then (addOrdered a b).1 ++ [1]
  else if addExtra a b then (addOrdered a b).1 ++ [0] else (addOrdered a b).1

/-- The words of the integer part of the sum. -/
def addIntg : ℕ :=
  if addExtra a b then max (roundUp a.intg) (roundUp b.intg) + 1
  else max (roundUp a.intg) (roundUp b.intg)

theorem addClosed_spec :
    (addClosed a b).length = addIntg a b + max (roundUp a.frac) (roundUp b.frac) ∧
    ofDigits digBase (addClosed a b)
      = digBase ^ (max (roundUp a.frac) (roundUp b.frac) - roundUp a.frac)
          * ofDigits digBase a.down
        + digBase ^ (max (roundUp a.frac) (roundUp b.frac) - roundUp b.frac)
          * ofDigits digBase b.down := by
  obtain ⟨hlen, hcarry, hextra, hsum⟩ := addOrdered_spec a b
  rw [addClosed, addIntg, ← hsum, ← hlen]
  by_cases hc : (addOrdered a b).2 = 0
  · rw [if_neg (by simpa using hc), hc]
    split
    · simp only [length_append, length_singleton, Nat.ofDigits_append_zero]
      omega
    · omega
  · have hone : (addOrdered a b).2 = 1 := by omega
    have htrue : addExtra a b = true := by
      by_contra h
      exact hc (hextra (Bool.eq_false_iff.2 h))
    rw [if_pos hc, if_pos htrue, hone, Nat.ofDigits_append, Nat.ofDigits_singleton,
      length_append, length_singleton]
    omega

theorem doAdd_fst (len : ℕ) : (doAdd a b len).1
    = (fixIntgFracError len (addIntg a b) (max (roundUp a.frac) (roundUp b.frac))).2.2 := by
  rcases hfix : fixIntgFracError len (addIntg a b) (max (roundUp a.frac) (roundUp b.frac))
    with ⟨intg0, frac0, error⟩
  rw [addIntg, addExtra, addFirst] at hfix
  rw [doAdd]
  dsimp only
  rw [hfix]
  cases error <;> rfl

theorem doAdd_of_fits {len : ℕ} (h : addIntg a b + max (roundUp a.frac) (roundUp b.frac) ≤ len) :
    doAdd a b len
      = (.ok, ⟨a.sign, addIntg a b * digPerDec1, max a.frac b.frac, (addClosed a b).reverse⟩) := by
  have hfix := fixIntgFracError_of_le h
  rw [addIntg, addExtra, addFirst] at hfix
  simp only [doAdd, hfix]
  rfl

/-- **`do_add` succeeds if the words fit into the buffer.** -/
theorem doAdd_ok_iff {len : ℕ} : (doAdd a b len).1 = .ok ↔
    addIntg a b + max (roundUp a.frac) (roundUp b.frac) ≤ len := by
  rw [doAdd_fst, fixIntgFracError_ok]

/-- **`do_add` is exact if it succeeds.** -/
theorem doAdd_exact {len : ℕ} (h : (doAdd a b len).1 = .ok) :
    (doAdd a b len).2.sign = a.sign ∧
      (doAdd a b len).2.magnitude = a.magnitude + b.magnitude := by
  obtain ⟨hlen, hsum⟩ := addClosed_spec a b
  rw [doAdd_of_fits a b ((doAdd_ok_iff a b).1 h)]
  refine ⟨rfl, ?_⟩
  rw [magnitude_reverse, roundUp_max, hsum, Nat.cast_add, add_div, align_div _ (Nat.le_max_left ..),
    align_div _ (Nat.le_max_right ..)]
  · rfl
  · rw [hlen, roundUp_mul, roundUp_max]

end Add

end EloqSql
