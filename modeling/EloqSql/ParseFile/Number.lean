import EloqSql.DbOpt
import Mathlib.Data.Nat.Digits.Lemmas
import Mathlib.Data.UInt
import Mathlib.Tactic.NormNum
import Mathlib.Tactic.Ring

/-!
# ParseFile/Number — numbers in a definition file

A number is written digit by digit and read by `my_strtoll10`, which takes the digits nine at a time
and combines the parts at the end. `readDigits` is one such part; what follows the number stops it.
A number that is written is read (`myStrtoll10_longlong10ToStr`).
-/

namespace EloqSql

open List

namespace ParseFile

/-! ## `my_longlong10_to_str_8bit` -/

/-- `'0' + d`. -/
def digitChar (d : ℕ) : UInt8 := UInt8.ofNat (0x30 + d)

/-- The digits of `uval`, before those that are written already. -/
def digitLoop : ℕ → ℕ → Bytes → Bytes
  | 0, _, p => p
  | fuel + 1, uval, p =>
    if uval = 0 then p else digitLoop fuel (uval / 10) (digitChar (uval % 10) :: p)

/-- `my_longlong10_to_str_8bit`, for a number without sign. -/
def longlong10ToStr (val : UInt64) : Bytes :=
  if val = 0 then [0x30] else digitLoop 20 val.toNat []

/-! ## `my_strtoll10` -/

/-- `*error`. -/
inductive Strtoll10Error where
  | negative
  | ok
  | erange
  | edom
  deriving DecidableEq

/-- The number, `*endptr` and `*error`. -/
structure Strtoll10 where
  value : UInt64
  endptr : Bytes
  error : Strtoll10Error
  deriving DecidableEq

/-- `*s - '0'`, of type `uchar`. -/
def digit (c : UInt8) : ℕ := (c - 0x30).toNat

/-- At most so many digits, after those in `i`. -/
def readDigits : ℕ → ℕ → Bytes → ℕ × Bytes
  | n + 1, i, c :: s => if digit c > 9 then (i, c :: s) else readDigits n (i * 10 + digit c) s
  | _, i, s => (i, s)

/-- `MAX_NEGATIVE_NUMBER` or `ULONGLONG_MAX`. -/
def maxNumber (negative : Bool) : ℕ := if negative then 2 ^ 63 else 2 ^ 64 - 1

/-- The largest number in three parts: `cutoff`, `cutoff2` and `cutoff3`. -/
def cutoffs (negative : Bool) : ℕ × ℕ × ℕ :=
  (maxNumber negative / 100000000000, maxNumber negative % 100000000000 / 100,
    maxNumber negative % 100)

/-- A number that is in range. -/
def number (negative : Bool) (li : ℕ) (s : Bytes) : Strtoll10 :=
  if negative then ⟨0 - UInt64.ofNat li, s, .negative⟩ else ⟨UInt64.ofNat li, s, .ok⟩

/-- The label `overflow`. -/
def overflow (negative : Bool) (s : Bytes) : Strtoll10 :=
  ⟨if negative then 2 ^ 63 else 2 ^ 64 - 1, s, .erange⟩

/-- The label `end4`. -/
def end4 (negative : Bool) (li : ℕ) (s : Bytes) : Strtoll10 :=
  if negative ∧ li > 2 ^ 63 then overflow negative s else number negative li s

/-- From the digit after the first eighteen on, with these in `i` and `j`. -/
def lastDigits (negative : Bool) (i j : ℕ) : Bytes → Strtoll10
  | [] => number negative (i * 1000000000 + j) []
  | c :: s =>
    if digit c > 9 then number negative (i * 1000000000 + j) (c :: s)
    else
      match s with
      | [] => end4 negative (i * 10000000000 + j * 10 + digit c) []
      | c' :: s =>
        if digit c' > 9 then end4 negative (i * 10000000000 + j * 10 + digit c) (c' :: s)
        else
          let k := digit c * 10 + digit c'
          let (cutoff, cutoff2, cutoff3) := cutoffs negative
          -- the number should have ended here
          if s.head?.any (digit · ≤ 9) then overflow negative s
          else if i > cutoff ∨ i = cutoff ∧ (j > cutoff2 ∨ j = cutoff2 ∧ k > cutoff3) then
            overflow negative s
          else
            ⟨UInt64.ofNat (i * 100000000000 + j * 100 + k), s, if negative then .negative else .ok⟩

/-- From the second digit on, with the first one in `i`; `n` digits make it nine. -/
def digits (negative : Bool) (n i : ℕ) (s : Bytes) : Strtoll10 :=
  let first := readDigits n i s
  if s.length - first.2.length < n ∨ first.2 = [] then number negative first.1 first.2
  else
    let next := readDigits 9 0 first.2
    let cnt := first.2.length - next.2.length
    if cnt < 9 then number negative (first.1 * 10 ^ cnt + next.1) next.2
    else lastDigits negative first.1 next.1 next.2

/-- The label `no_conv`. -/
def noConv (nptr : Bytes) : Strtoll10 := ⟨0, nptr, .edom⟩

/-- After the sign. -/
def unsignedNumber (nptr : Bytes) (negative : Bool) : Bytes → Strtoll10
  | [] => noConv nptr
  | c :: s =>
    if c = 0x30 then
      let s := s.dropWhile (· = 0x30)
      if s = [] then number negative 0 [] else digits negative 9 0 s
    else if digit c > 9 then noConv nptr
    else digits negative 8 (digit c) s

/-- After leading spaces. -/
def signedNumber (nptr s : Bytes) : Strtoll10 :=
  match s with
  | [] => noConv nptr
  | c :: s' =>
    if c = 0x2d then unsignedNumber nptr true s'
    else if c = 0x2b then unsignedNumber nptr false s'
    else unsignedNumber nptr false s

/-- `my_isspace(&my_charset_latin1, c)`. -/
def isSpace (c : UInt8) : Bool := (DbOpt.ctypeLatin1.getD c.toNat 0 &&& 8) ≠ 0

/-- **`my_strtoll10`**, up to `*endptr` or, without it, over at most 65535 characters. -/
def myStrtoll10 (endptr : Bool) (nptr : Bytes) : Strtoll10 :=
  let s := nptr.dropWhile isSpace
  if endptr then signedNumber nptr s
  else if s.head?.getD 0 = 0 then noConv nptr
  else signedNumber nptr (s.take 65535)

/-! ## Written digits -/

/-- The digits of a number as characters. -/
def digitChars (ds : List ℕ) : Bytes := ds.map digitChar

/-- The value of digits, the highest one first. -/
def value (ds : List ℕ) : ℕ := Nat.ofDigits 10 ds.reverse

theorem value_append (xs ys : List ℕ) :
    value (xs ++ ys) = value xs * 10 ^ ys.length + value ys := by
  rw [value, reverse_append, Nat.ofDigits_append, length_reverse, value, value]
  ring

theorem value_lt {ds : List ℕ} (h : ∀ d ∈ ds, d < 10) : value ds < 10 ^ ds.length := by
  simpa [value] using Nat.ofDigits_lt_base_pow_length (b := 10) (l := ds.reverse) (by norm_num)
    (by simpa using h)

theorem digit_digitChar {d : ℕ} (h : d < 10) : digit (digitChar d) = d := by
  have hall : ∀ d < 10, digit (digitChar d) = d := by decide
  exact hall d h

theorem digitLoop_eq : ∀ (fuel n : ℕ) (p : Bytes), n < 10 ^ fuel →
    digitLoop fuel n p = digitChars (Nat.digits 10 n).reverse ++ p
  | 0, n, p, h => by
      obtain rfl : n = 0 := by simpa using h
      simp [digitLoop, digitChars]
  | fuel + 1, n, p, h => by
      rw [digitLoop]
      split
      · next hn => simp [hn, digitChars]
      · next hn =>
        rw [digitLoop_eq fuel (n / 10) _ (Nat.div_lt_of_lt_mul (by rwa [← pow_succ'])),
          Nat.digits_def' (by norm_num) (Nat.pos_of_ne_zero hn)]
        simp [digitChars]

/-- **The digits that are written**: they are the number, there are at most twenty of them, and a
zero stands in front only if it is the number. -/
theorem longlong10ToStr_eq (val : UInt64) : ∃ d ds, longlong10ToStr val = digitChars (d :: ds) ∧
    (∀ e ∈ d :: ds, e < 10) ∧ value (d :: ds) = val.toNat ∧ ds.length < 20 ∧ (d = 0 → ds = []) := by
  by_cases hval : val = 0
  · exact ⟨0, [], by simp [longlong10ToStr, hval, digitChars, digitChar], by simp,
      by simp [value, hval], by simp, by simp⟩
  · have hlt : val.toNat < 10 ^ 20 := val.toNat_lt.trans (by norm_num)
    have hne : val.toNat ≠ 0 := fun h => hval (UInt64.toNat_inj.1 h)
    have hdigits : Nat.digits 10 val.toNat ≠ [] := Nat.digits_ne_nil_iff_ne_zero.2 hne
    obtain ⟨d, ds, hds⟩ := exists_cons_of_ne_nil (reverse_ne_nil_iff.2 hdigits)
    have hmem : ∀ e ∈ d :: ds, e < 10 := fun e he =>
      Nat.digits_lt_base (by norm_num) (mem_reverse.1 (hds ▸ he))
    have hlen : (d :: ds).length ≤ 20 := by
      rw [← hds, length_reverse]
      exact (Nat.digits_length_le_iff (by norm_num) _).2 hlt
    refine ⟨d, ds, ?_, hmem, ?_, by simpa using hlen, ?_⟩
    · rw [longlong10ToStr, if_neg hval, digitLoop_eq _ _ _ hlt, append_nil, hds]
    · rw [value, ← hds, reverse_reverse, Nat.ofDigits_digits]
    · intro hd
      -- the highest digit of a number is not zero
      refine absurd hd ?_
      have hlast := Nat.getLast_digit_ne_zero 10 hne
      have hhead : (Nat.digits 10 val.toNat).getLast? = some d := by
        rw [← head?_reverse, hds, head?_cons]
      rw [getLast?_eq_some_getLast hdigits] at hhead
      rwa [Option.some.inj hhead] at hlast

/-! ## Digits that are read -/

/-- What follows a number does not go on with it. -/
def StopsNumber (s : Bytes) : Prop := ∀ c ∈ s.head?, 9 < digit c

theorem readDigits_digitChars {rest : Bytes} (hrest : StopsNumber rest) :
    ∀ (n i : ℕ) (ds : List ℕ), (∀ d ∈ ds, d < 10) →
      readDigits n i (digitChars ds ++ rest) =
        (i * 10 ^ (ds.take n).length + value (ds.take n), digitChars (ds.drop n) ++ rest)
  | 0, i, ds, _ => by simp [readDigits, value]
  | n + 1, i, [], _ => by
      cases rest with
      | nil => simp [readDigits, digitChars, value]
      | cons c rest => simp [readDigits, digitChars, value, hrest c rfl]
  | n + 1, i, d :: ds, h => by
      obtain ⟨hd, hds⟩ := forall_mem_cons.1 h
      have hcons : value (d :: ds.take n) = d * 10 ^ (ds.take n).length + value (ds.take n) := by
        simpa [value] using value_append [d] (ds.take n)
      have hread := readDigits_digitChars hrest n (i * 10 + d) ds hds
      rw [digitChars, map_cons, cons_append, readDigits, digit_digitChar hd,
        if_neg (by omega)]
      rw [← digitChars, hread, take_succ_cons, drop_succ_cons, hcons, length_cons,
        pow_succ]
      exact Prod.ext (by simp only; ring) rfl

theorem number_false (li : ℕ) (s : Bytes) : number false li s = ⟨UInt64.ofNat li, s, .ok⟩ := rfl

theorem digitChars_cons (d : ℕ) (ds : List ℕ) :
    digitChars (d :: ds) = digitChar d :: digitChars ds := rfl

theorem length_digitChars (ds : List ℕ) : (digitChars ds).length = ds.length := length_map _

/-- The last two digits. -/
theorem lastDigits_digitChars {rest : Bytes} (hrest : StopsNumber rest) {i j : ℕ}
    (hj : j < 1000000000) {es : List ℕ} (hes : ∀ e ∈ es, e < 10) (hlen : es.length ≤ 2)
    (hval : (i * 1000000000 + j) * 10 ^ es.length + value es < 2 ^ 64) :
    lastDigits false i j (digitChars es ++ rest) =
      ⟨UInt64.ofNat ((i * 1000000000 + j) * 10 ^ es.length + value es), rest, .ok⟩ := by
  match es, hlen with
  | [], _ =>
    cases rest with
    | nil => simp [digitChars, lastDigits, number_false, value]
    | cons c rest => simp [digitChars, lastDigits, number_false, value, hrest c rfl]
  | [d], _ =>
    have hd : d < 10 := hes d (by simp)
    have heq : i * 10000000000 + j * 10 + d = (i * 1000000000 + j) * 10 ^ 1 + value [d] := by
      simp only [value, reverse_singleton, Nat.ofDigits_singleton]
      ring
    rw [digitChars_cons, digitChars, map_nil, cons_append, nil_append,
      length_singleton, ← heq]
    cases rest with
    | nil =>
      simp [lastDigits, end4, number_false, digit_digitChar hd, Nat.not_lt.2 (Nat.le_of_lt_succ hd)]
    | cons c rest =>
      simp [lastDigits, end4, number_false, digit_digitChar hd, Nat.not_lt.2 (Nat.le_of_lt_succ hd),
        hrest c rfl]
  | [d, e], _ =>
    have hd : d < 10 := hes d (by simp)
    have he : e < 10 := hes e (by simp)
    have hvalue : value [d, e] = d * 10 + e := by
      simp [value, Nat.ofDigits_cons]
      ring
    have heq : i * 100000000000 + j * 100 + (d * 10 + e) =
        (i * 1000000000 + j) * 10 ^ 2 + value [d, e] := by
      rw [hvalue]
      ring
    have hstop : rest.head?.any (digit · ≤ 9) = false := by
      cases rest with
      | nil => rfl
      | cons c rest => simpa using hrest c rfl
    have hcut : ¬(i > 184467440 ∨ i = 184467440 ∧
        (j > 737095516 ∨ j = 737095516 ∧ d * 10 + e > 15)) := by
      rw [hvalue, length_cons, length_singleton] at hval
      omega
    rw [digitChars_cons, digitChars_cons, digitChars, map_nil, cons_append,
      cons_append, nil_append, length_cons, length_singleton, ← heq]
    have hcutoffs : cutoffs false = (184467440, 737095516, 15) := by decide
    simp only [lastDigits, digit_digitChar hd, digit_digitChar he, hstop, hcutoffs, if_neg hcut]
    rw [if_neg (by omega), if_neg (by omega)]
    rfl

/-- **All digits after the first one.** -/
theorem digits_digitChars {rest : Bytes} (hrest : StopsNumber rest) {n i : ℕ} {ds : List ℕ}
    (hds : ∀ d ∈ ds, d < 10) (hlen : ds.length ≤ n + 11)
    (hval : i * 10 ^ ds.length + value ds < 2 ^ 64) :
    digits false n i (digitChars ds ++ rest) =
      ⟨UInt64.ofNat (i * 10 ^ ds.length + value ds), rest, .ok⟩ := by
  have hfirst := readDigits_digitChars hrest n i ds hds
  simp only [digits, hfirst, number_false]
  by_cases hn : ds.length ≤ n
  · -- the part ends before or with the number
    rw [take_of_length_le hn, drop_eq_nil_of_le hn]
    have hnext := readDigits_digitChars hrest 9 0 [] (by simp)
    simp only [digitChars, map_nil, nil_append] at hnext ⊢
    simp [hnext, value]
  · have htail : ∀ d ∈ ds.drop n, d < 10 := fun d hd => hds d (mem_of_mem_drop hd)
    have hnext := readDigits_digitChars hrest 9 0 (ds.drop n) htail
    obtain ⟨xs, ys, zs, hxs, hys, hzs⟩ : ∃ xs ys zs, ds.take n = xs ∧ (ds.drop n).take 9 = ys ∧
        (ds.drop n).drop 9 = zs := ⟨_, _, _, rfl, rfl, rfl⟩
    have hdrop : ds.drop n = ys ++ zs := by rw [← hys, ← hzs, take_append_drop]
    have hall : ds = xs ++ (ys ++ zs) := by rw [← hxs, ← hdrop, take_append_drop]
    have hlx : xs.length = n := by rw [← hxs, length_take]; omega
    have hly : ys.length = 9 ∨ ys.length < 9 ∧ zs = [] := by
      rw [← hys, ← hzs, length_take, drop_eq_nil_iff]
      omega
    have htotal : i * 10 ^ ds.length + value ds =
        ((i * 10 ^ xs.length + value xs) * 10 ^ ys.length + value ys) * 10 ^ zs.length +
          value zs := by
      rw [hall, value_append, value_append, length_append, length_append, pow_add,
        pow_add]
      ring
    have hpos : 0 < (ys ++ zs).length := by rw [← hdrop, length_drop]; omega
    have hcnt : (digitChars (ys ++ zs) ++ rest).length - (digitChars zs ++ rest).length =
        ys.length := by
      simp only [length_append, length_digitChars]
      omega
    have hne : ¬((digitChars ds ++ rest).length - (digitChars (ys ++ zs) ++ rest).length < n ∨
        digitChars (ys ++ zs) ++ rest = []) := by
      rw [not_or, ← length_eq_zero_iff, hall]
      simp only [length_append, length_digitChars] at hpos ⊢
      omega
    rw [hys, hzs, hdrop] at hnext
    rw [htotal] at hval ⊢
    rw [hxs, hdrop, if_neg hne, hnext]
    simp only [hcnt, Nat.zero_mul, Nat.zero_add]
    obtain hly | ⟨hly, rfl⟩ := hly
    · -- all nine digits of the second part are there
      have hy : value ys < 1000000000 := by
        have := value_lt fun d hd => htail d (hdrop ▸ mem_append_left zs hd)
        rwa [hly] at this
      have hz : zs.length ≤ 2 := by
        rw [hall, length_append, length_append] at hlen
        omega
      rw [hly] at hval ⊢
      rw [if_neg (by omega)]
      exact lastDigits_digitChars hrest hy
        (fun d hd => htail d (hdrop ▸ mem_append_right ys hd)) hz hval
    · rw [if_pos hly]
      simp [digitChars, value]

/-- A digit is neither a space nor a sign, nor the end of a string. -/
theorem digitChar_cases {d : ℕ} (h : d < 10) : isSpace (digitChar d) = false ∧
    digitChar d ≠ 0x2d ∧ digitChar d ≠ 0x2b ∧ digitChar d ≠ 0 ∧ (digitChar d = 0x30 ↔ d = 0) := by
  have hall : ∀ d < 10, isSpace (digitChar d) = false ∧ digitChar d ≠ 0x2d ∧ digitChar d ≠ 0x2b ∧
      digitChar d ≠ 0 ∧ (digitChar d = 0x30 ↔ d = 0) := by decide +kernel
  exact hall d h

theorem StopsNumber.take {s : Bytes} (h : StopsNumber s) (n : ℕ) : StopsNumber (s.take n) := by
  intro c hc
  cases n with
  | zero => simp at hc
  | succ n =>
    refine h c ?_
    cases s with
    | nil => simp at hc
    | cons b s => simpa using hc

/-- A number after spaces. -/
theorem signedNumber_longlong10ToStr {rest : Bytes} (hrest : StopsNumber rest) (nptr : Bytes)
    (val : UInt64) :
    signedNumber nptr (longlong10ToStr val ++ rest) = ⟨val, rest, .ok⟩ := by
  obtain ⟨d, ds, htext, hmem, hval, hlen, hzero⟩ := longlong10ToStr_eq val
  obtain ⟨hd, hds⟩ := forall_mem_cons.1 hmem
  obtain ⟨-, hminus, hplus, -, hchar⟩ := digitChar_cases hd
  have hcons : value (d :: ds) = d * 10 ^ ds.length + value ds := by
    simpa [value] using value_append [d] ds
  have hlt : d * 10 ^ ds.length + value ds < 2 ^ 64 := by
    rw [← hcons, hval]
    exact val.toNat_lt
  rw [htext, digitChars_cons, cons_append, signedNumber]
  simp only [if_neg hminus, if_neg hplus, unsignedNumber, hchar, digit_digitChar hd]
  by_cases h0 : d = 0
  · -- a zero stands alone, and nothing of what follows is a zero
    obtain rfl := hzero h0
    have hz : val = 0 := UInt64.toNat_inj.1 (by rw [← hval, h0]; rfl)
    have hdrop : rest.dropWhile (· = 0x30) = rest := by
      cases rest with
      | nil => rfl
      | cons c rest =>
        have hc : c ≠ 0x30 := fun e => absurd (hrest c rfl) (by rw [e]; decide)
        simp [hc]
    have hnone : digits false 9 0 (digitChars [] ++ rest) = ⟨UInt64.ofNat 0, rest, .ok⟩ :=
      digits_digitChars hrest (by simp) (by simp) (by decide)
    rw [if_pos h0]
    simp only [digitChars, map_nil, nil_append, hdrop] at hnone ⊢
    split
    · next h => rw [h, hz]; rfl
    · rw [hnone, hz]; rfl
  · rw [if_neg h0, if_neg (by omega), digits_digitChars hrest hds (by omega) hlt, ← hcons, hval,
      UInt64.ofNat_toNat]

/-- **A number that is written is read**, up to the character that follows it. -/
theorem myStrtoll10_longlong10ToStr {rest : Bytes} (hrest : StopsNumber rest) (val : UInt64) :
    myStrtoll10 true (longlong10ToStr val ++ rest) = ⟨val, rest, .ok⟩ ∧
      (myStrtoll10 false (longlong10ToStr val ++ rest)).value = val := by
  obtain ⟨d, ds, htext, hmem, -, hlen, -⟩ := longlong10ToStr_eq val
  obtain ⟨hspace, -, -, hnul, -⟩ := digitChar_cases (hmem d (by simp))
  have hdrop : (longlong10ToStr val ++ rest).dropWhile isSpace = longlong10ToStr val ++ rest := by
    rw [htext, digitChars_cons, cons_append, dropWhile_cons_of_neg (by simp [hspace])]
  have hhead : (longlong10ToStr val ++ rest).head?.getD 0 ≠ 0 := by
    rw [htext, digitChars_cons]
    exact hnul
  have htake : (longlong10ToStr val ++ rest).take 65535 =
      longlong10ToStr val ++ rest.take (65535 - (longlong10ToStr val).length) := by
    rw [take_append, take_of_length_le]
    rw [htext, length_digitChars, length_cons]
    omega
  refine ⟨?_, ?_⟩
  · rw [myStrtoll10, if_pos rfl, hdrop, signedNumber_longlong10ToStr hrest]
  · simp only [myStrtoll10, hdrop, if_neg hhead, htake,
      signedNumber_longlong10ToStr (hrest.take _), Bool.false_eq_true, if_false]

end ParseFile

end EloqSql
