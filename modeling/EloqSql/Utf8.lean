import EloqSql.Buff
import Mathlib.Algebra.Ring.Nat

/-!
# Utf8 — the UTF-8 characters of `ctype-utf8.h`

`mbWcUtf8mb3` and `mbWcUtf8mb4` read the code point a string starts with, `wcMbUtf8mb3` and
`wcMbUtf8mb4` write the bytes of one. A character that was read is written back byte for byte
(`wcMbUtf8mb3_mbWc`, `wcMbUtf8mb4_mbWc`): the checks of overlong forms leave one form for each code
point.
-/

namespace EloqSql

open UInt8 (ofNat ofNat_toNat)

variable {b0 b1 : UInt8} {n wc room : ℕ} {s : Bytes}

/-- `IS_CONTINUATION_BYTE`. -/
def isContinuationByte (c : UInt8) : Bool := (c ^^^ 0x80) < 0x40

/-- `IS_UTF8MB3_STEP2`. -/
def isUtf8mb3Step2 (b0 b1 b2 : UInt8) : Bool :=
  isContinuationByte b1 && isContinuationByte b2 && (b0 ≥ 0xe1 || b1 ≥ 0xa0)

/-- `IS_UTF8MB4_STEP2`. -/
def isUtf8mb4Step2 (b0 b1 b2 b3 : UInt8) : Bool :=
  isContinuationByte b1 && isContinuationByte b2 && isContinuationByte b3 &&
    (b0 ≥ 0xf1 || b1 ≥ 0x90) && (b0 ≤ 0xf3 || b1 ≤ 0x8f)

/-- `UTF8MB2_CODE`. -/
def utf8mb2Code (b0 b1 : UInt8) : ℕ := ((b0 &&& 0x1f).toNat <<< 6) ||| (b1 ^^^ 0x80).toNat

/-- `UTF8MB3_CODE`. -/
def utf8mb3Code (b0 b1 b2 : UInt8) : ℕ :=
  ((b0 &&& 0x0f).toNat <<< 12) ||| ((b1 ^^^ 0x80).toNat <<< 6) ||| (b2 ^^^ 0x80).toNat

/-- `UTF8MB4_CODE`. -/
def utf8mb4Code (b0 b1 b2 b3 : UInt8) : ℕ :=
  ((b0 &&& 0x07).toNat <<< 18) ||| ((b1 ^^^ 0x80).toNat <<< 12) |||
    ((b2 ^^^ 0x80).toNat <<< 6) ||| (b3 ^^^ 0x80).toNat

/-- `my_mb_wc_utf8mb3_quick`: the first character and its length in bytes. -/
def mbWcUtf8mb3 : Bytes → Option (ℕ × ℕ)
  | [] => none
  | c :: s =>
    if c < 0x80 then some (c.toNat, 1)
    else if c < 0xc2 then none
    else if c < 0xe0 then
      match s with
      | s1 :: _ => if isContinuationByte s1 then some (utf8mb2Code c s1, 2) else none
      | _ => none
    else if c < 0xf0 then
      match s with
      | s1 :: s2 :: _ => if isUtf8mb3Step2 c s1 s2 then some (utf8mb3Code c s1 s2, 3) else none
      | _ => none
    else none

/-- `my_mb_wc_utf8mb4_quick`: as `my_mb_wc_utf8mb3_quick`, and the four-byte characters. -/
def mbWcUtf8mb4 : Bytes → Option (ℕ × ℕ)
  | [] => none
  | c :: s =>
    if c < 0xf0 then mbWcUtf8mb3 (c :: s)
    else if c < 0xf5 then
      match s with
      | s1 :: s2 :: s3 :: _ =>
        if isUtf8mb4Step2 c s1 s2 s3 then some (utf8mb4Code c s1 s2 s3, 4) else none
      | _ => none
    else none

/-- The last byte of a character: `0x80 | (wc & 0x3f)`. -/
def utf8Tail (wc : ℕ) : UInt8 := ofNat (0x80 ||| (wc &&& 0x3f))

/-- `my_uni_utf8mb3`: the bytes of a code point, if they fit into `room` bytes. -/
def wcMbUtf8mb3 (wc room : ℕ) : Option Bytes :=
  if wc < 0x80 then
    if room < 1 then none else some [ofNat wc]
  else if wc < 0x800 then
    if room < 2 then none else some [ofNat (0xc0 ||| (wc >>> 6)), utf8Tail wc]
  else if wc < 0x10000 then
    if room < 3 then none
    else some [ofNat (0xe0 ||| (wc >>> 12)), utf8Tail (wc >>> 6), utf8Tail wc]
  else none

/-- `my_wc_mb_utf8mb4`: the bytes are made from the last one, each shifting its six bits out and
the mark of the bytes before it in. -/
def wcMbUtf8mb4 (wc room : ℕ) : Option Bytes :=
  if room < 1 then none
  else if wc < 0x80 then some [ofNat wc]
  else if wc < 0x800 then
    if room < 2 then none
    else
      let wc0 := (wc >>> 6) ||| 0xc0
      some [ofNat wc0, utf8Tail wc]
  else if wc < 0x10000 then
    if room < 3 then none
    else
      let wc1 := (wc >>> 6) ||| 0x800
      let wc0 := (wc1 >>> 6) ||| 0xc0
      some [ofNat wc0, utf8Tail wc1, utf8Tail wc]
  else if wc < 0x200000 then
    if room < 4 then none
    else
      let wc2 := (wc >>> 6) ||| 0x10000
      let wc1 := (wc2 >>> 6) ||| 0x800
      let wc0 := (wc1 >>> 6) ||| 0xc0
      some [ofNat wc0, utf8Tail wc1, utf8Tail wc2, utf8Tail wc]
  else none

/-! ## Bits as arithmetic -/

theorem isContinuationByte_iff (c : UInt8) :
    isContinuationByte c = true ↔ 0x80 ≤ c.toNat ∧ c.toNat < 0xc0 := by
  have h : ∀ n < 256, (isContinuationByte (ofNat n) = true ↔ 0x80 ≤ n ∧ n < 0xc0) := by
    decide +kernel
  have := h c.toNat c.toNat_lt
  rwa [ofNat_toNat] at this

theorem toNat_xor_0x80 {c : UInt8} (h : isContinuationByte c = true) :
    (c ^^^ 0x80).toNat = c.toNat - 0x80 := by
  have h' : ∀ n < 256, isContinuationByte (ofNat n) = true →
      (ofNat n ^^^ 0x80).toNat = n - 0x80 := by
    decide +kernel
  have := h' c.toNat c.toNat_lt
  rw [ofNat_toNat] at this
  exact this h

/-- Bits put beside a shifted value are added to it. -/
theorem shiftLeft_or_eq_add {a b i : ℕ} (h : b < 2 ^ i) : (a <<< i) ||| b = a * 2 ^ i + b := by
  rw [← Nat.shiftLeft_add_eq_or_of_lt h, Nat.shiftLeft_eq]

theorem toNat_and_mask (c : UInt8) :
    (c &&& 0x1f).toNat = c.toNat % 32 ∧ (c &&& 0x0f).toNat = c.toNat % 16 ∧
      (c &&& 0x07).toNat = c.toNat % 8 := by
  refine ⟨?_, ?_, ?_⟩
  · exact Nat.and_two_pow_sub_one_eq_mod c.toNat 5
  · exact Nat.and_two_pow_sub_one_eq_mod c.toNat 4
  · exact Nat.and_two_pow_sub_one_eq_mod c.toNat 3

theorem utf8mb2Code_eq (h1 : isContinuationByte b1 = true) :
    utf8mb2Code b0 b1 = b0.toNat % 32 * 64 + (b1.toNat - 0x80) := by
  have hb1 := (isContinuationByte_iff b1).mp h1
  rw [utf8mb2Code, toNat_xor_0x80 h1, (toNat_and_mask b0).1, shiftLeft_or_eq_add (by omega)]
  omega

theorem utf8mb3Code_eq {b2 : UInt8} (h1 : isContinuationByte b1 = true)
    (h2 : isContinuationByte b2 = true) :
    utf8mb3Code b0 b1 b2
      = b0.toNat % 16 * 4096 + (b1.toNat - 0x80) * 64 + (b2.toNat - 0x80) := by
  have hb1 := (isContinuationByte_iff b1).mp h1
  have hb2 := (isContinuationByte_iff b2).mp h2
  rw [utf8mb3Code, toNat_xor_0x80 h1, toNat_xor_0x80 h2, (toNat_and_mask b0).2.1, Nat.or_assoc,
    shiftLeft_or_eq_add (a := b1.toNat - 0x80) (by omega), shiftLeft_or_eq_add (by omega)]
  omega

theorem utf8mb4Code_eq {b2 b3 : UInt8} (h1 : isContinuationByte b1 = true)
    (h2 : isContinuationByte b2 = true) (h3 : isContinuationByte b3 = true) :
    utf8mb4Code b0 b1 b2 b3 = b0.toNat % 8 * 262144 + (b1.toNat - 0x80) * 4096
      + (b2.toNat - 0x80) * 64 + (b3.toNat - 0x80) := by
  have hb1 := (isContinuationByte_iff b1).mp h1
  have hb2 := (isContinuationByte_iff b2).mp h2
  have hb3 := (isContinuationByte_iff b3).mp h3
  rw [utf8mb4Code, toNat_xor_0x80 h1, toNat_xor_0x80 h2, toNat_xor_0x80 h3,
    (toNat_and_mask b0).2.2, Nat.or_assoc, Nat.or_assoc,
    shiftLeft_or_eq_add (a := b2.toNat - 0x80) (by omega),
    shiftLeft_or_eq_add (a := b1.toNat - 0x80) (by omega), shiftLeft_or_eq_add (by omega)]
  omega

/-- A mark above the bits of a value is added to it. -/
theorem or_mark (m k : ℕ) {w i : ℕ} (hm : m = k * 2 ^ i) (hw : w < 2 ^ i) : w ||| m = m + w := by
  rw [Nat.or_comm, hm, ← Nat.shiftLeft_eq, shiftLeft_or_eq_add hw, Nat.shiftLeft_eq]

theorem utf8Tail_eq (wc : ℕ) : utf8Tail wc = ofNat (0x80 + wc % 64) := by
  rw [utf8Tail, show wc &&& 0x3f = wc % 64 from Nat.and_two_pow_sub_one_eq_mod wc 6, Nat.or_comm,
    or_mark 0x80 2 (i := 6) rfl (by omega)]

/-! ## A character is written back as it was read -/

theorem toNat_eq_of_add {c : UInt8} (h : n = c.toNat) : ofNat n = c := by
  rw [h, ofNat_toNat]

/-- **What a character read from a `utf8mb3` string can be**, one case for each length. -/
theorem mbWcUtf8mb3_cases (h : mbWcUtf8mb3 s = some (wc, n)) :
    (∃ c r, s = c :: r ∧ c.toNat < 0x80 ∧ wc = c.toNat ∧ n = 1) ∨
    (∃ c c1 r, s = c :: c1 :: r ∧ 0xc2 ≤ c.toNat ∧ c.toNat < 0xe0 ∧
      isContinuationByte c1 = true ∧ wc = utf8mb2Code c c1 ∧ n = 2) ∨
    (∃ c c1 c2 r, s = c :: c1 :: c2 :: r ∧ 0xe0 ≤ c.toNat ∧ c.toNat < 0xf0 ∧
      isContinuationByte c1 = true ∧ isContinuationByte c2 = true ∧
      (0xe1 ≤ c.toNat ∨ 0xa0 ≤ c1.toNat) ∧ wc = utf8mb3Code c c1 c2 ∧ n = 3) := by
  unfold mbWcUtf8mb3 at h
  split at h
  · cases h
  · rename_i c s
    split_ifs at h with h1 h2 h3 h4
    · cases h
      exact Or.inl ⟨c, s, rfl, UInt8.lt_iff_toNat_lt.mp h1, rfl, rfl⟩
    · split at h
      · rename_i c1 r
        split_ifs at h with hc
        cases h
        have h2' : ¬ c.toNat < 0xc2 := fun hlt => h2 (UInt8.lt_iff_toNat_lt.mpr hlt)
        exact Or.inr (Or.inl ⟨c, c1, r, rfl, by omega, UInt8.lt_iff_toNat_lt.mp h3, hc, rfl, rfl⟩)
      · cases h
    · split at h
      · rename_i c1 c2 r
        split_ifs at h with hc
        cases h
        have h3' : ¬ c.toNat < 0xe0 := fun hlt => h3 (UInt8.lt_iff_toNat_lt.mpr hlt)
        simp only [isUtf8mb3Step2, Bool.and_eq_true, Bool.or_eq_true, decide_eq_true_eq, ge_iff_le,
          UInt8.le_iff_toNat_le] at hc
        exact Or.inr (Or.inr ⟨c, c1, c2, r, rfl, by omega, UInt8.lt_iff_toNat_lt.mp h4, hc.1.1,
          hc.1.2, hc.2, rfl, rfl⟩)
      · cases h

/-- The same for a `utf8mb4` string, which has four-byte characters as well. -/
theorem mbWcUtf8mb4_cases (h : mbWcUtf8mb4 s = some (wc, n)) : mbWcUtf8mb3 s = some (wc, n) ∨
    (∃ c c1 c2 c3 r, s = c :: c1 :: c2 :: c3 :: r ∧ 0xf0 ≤ c.toNat ∧ c.toNat < 0xf5 ∧
      isContinuationByte c1 = true ∧ isContinuationByte c2 = true ∧
      isContinuationByte c3 = true ∧ (0xf1 ≤ c.toNat ∨ 0x90 ≤ c1.toNat) ∧
      (c.toNat ≤ 0xf3 ∨ c1.toNat ≤ 0x8f) ∧ wc = utf8mb4Code c c1 c2 c3 ∧ n = 4) := by
  unfold mbWcUtf8mb4 at h
  split at h
  · cases h
  · rename_i c s
    split_ifs at h with h1 h2
    · exact Or.inl h
    · split at h
      · rename_i c1 c2 c3 r
        split_ifs at h with hc
        cases h
        have h1' : ¬ c.toNat < 0xf0 := fun hlt => h1 (UInt8.lt_iff_toNat_lt.mpr hlt)
        simp only [isUtf8mb4Step2, Bool.and_eq_true, Bool.or_eq_true, decide_eq_true_eq, ge_iff_le,
          UInt8.le_iff_toNat_le] at hc
        exact Or.inr ⟨c, c1, c2, c3, r, rfl, by omega, UInt8.lt_iff_toNat_lt.mp h2, hc.1.1.1.1,
          hc.1.1.1.2, hc.1.1.2, hc.1.2, hc.2, rfl, rfl⟩
      · cases h

/-- **A `utf8mb3` character that was read is written back byte for byte.** -/
theorem wcMbUtf8mb3_mbWc (h : mbWcUtf8mb3 s = some (wc, n))
    (hr : n ≤ room) : wcMbUtf8mb3 wc room = some (s.take n) := by
  rcases mbWcUtf8mb3_cases h with ⟨c, r, rfl, hc, rfl, rfl⟩ |
    ⟨c, c1, r, rfl, hc, hc', h1, rfl, rfl⟩ | ⟨c, c1, c2, r, rfl, hc, hc', h1, h2, ho, rfl, rfl⟩
  · rw [wcMbUtf8mb3, if_pos hc, if_neg (by omega), toNat_eq_of_add rfl]
    rfl
  · have hb1 := (isContinuationByte_iff c1).mp h1
    rw [utf8mb2Code_eq h1, wcMbUtf8mb3, if_neg (by omega), if_pos (by omega), if_neg (by omega),
      utf8Tail_eq, Nat.or_comm, Nat.shiftRight_eq_div_pow,
      or_mark 0xc0 6 (i := 5) rfl (by omega)]
    rw [toNat_eq_of_add (c := c) (by omega), toNat_eq_of_add (c := c1) (by omega)]
    rfl
  · have hb1 := (isContinuationByte_iff c1).mp h1
    have hb2 := (isContinuationByte_iff c2).mp h2
    rw [utf8mb3Code_eq h1 h2, wcMbUtf8mb3, if_neg (by omega), if_neg (by omega),
      if_pos (by omega), if_neg (by omega), utf8Tail_eq, utf8Tail_eq, Nat.or_comm,
      Nat.shiftRight_eq_div_pow, Nat.shiftRight_eq_div_pow, or_mark 0xe0 14 (i := 4) rfl (by omega)]
    rw [toNat_eq_of_add (c := c) (by omega), toNat_eq_of_add (c := c1) (by omega),
      toNat_eq_of_add (c := c2) (by omega)]
    rfl

/-- On the code points of `utf8mb3` the two writers agree. -/
theorem wcMbUtf8mb4_eq_utf8mb3 (h : wc < 0x10000) : wcMbUtf8mb4 wc room = wcMbUtf8mb3 wc room := by
  unfold wcMbUtf8mb4 wcMbUtf8mb3
  by_cases hr : room < 1
  · split_ifs <;> first | rfl | omega
  · rw [if_neg hr, if_neg hr]
    by_cases h1 : wc < 0x80
    · rw [if_pos h1, if_pos h1]
    · rw [if_neg h1, if_neg h1]
      by_cases h2 : wc < 0x800
      · rw [if_pos h2, if_pos h2, Nat.or_comm]
      · rw [if_neg h2, if_neg h2, if_pos h, if_pos h]
        -- the mark shifted out of the second byte is the one the first byte needs
        have hmark : (((wc >>> 6) ||| 0x800) >>> 6) ||| 0xc0 = 0xe0 ||| (wc >>> 12) := by
          rw [Nat.shiftRight_eq_div_pow, Nat.shiftRight_eq_div_pow, Nat.shiftRight_eq_div_pow,
            Nat.or_comm 0xe0, or_mark 0x800 1 (i := 11) rfl (by omega),
            or_mark 0xc0 3 (i := 6) rfl (by omega), or_mark 0xe0 14 (i := 4) rfl (by omega)]
          omega
        have htail : utf8Tail ((wc >>> 6) ||| 0x800) = utf8Tail (wc >>> 6) := by
          rw [utf8Tail_eq, utf8Tail_eq, Nat.shiftRight_eq_div_pow,
            or_mark 0x800 1 (i := 11) rfl (by omega)]
          congr 1
          omega
        simp only [hmark, htail]

theorem mbWcUtf8mb3_lt (h : mbWcUtf8mb3 s = some (wc, n)) : wc < 0x10000 := by
  rcases mbWcUtf8mb3_cases h with ⟨c, r, rfl, hc, rfl, rfl⟩ |
    ⟨c, c1, r, rfl, hc, hc', h1, rfl, rfl⟩ | ⟨c, c1, c2, r, rfl, hc, hc', h1, h2, ho, rfl, rfl⟩
  · omega
  · have hb1 := (isContinuationByte_iff c1).mp h1
    rw [utf8mb2Code_eq h1]
    omega
  · have hb1 := (isContinuationByte_iff c1).mp h1
    have hb2 := (isContinuationByte_iff c2).mp h2
    rw [utf8mb3Code_eq h1 h2]
    omega

/-- **A `utf8mb4` character that was read is written back byte for byte.** -/
theorem wcMbUtf8mb4_mbWc (h : mbWcUtf8mb4 s = some (wc, n))
    (hr : n ≤ room) : wcMbUtf8mb4 wc room = some (s.take n) := by
  rcases mbWcUtf8mb4_cases h with h3 |
    ⟨c, c1, c2, c3, r, rfl, hc, hc', h1, h2, h3, ho, ho', rfl, rfl⟩
  · rw [wcMbUtf8mb4_eq_utf8mb3 (mbWcUtf8mb3_lt h3), wcMbUtf8mb3_mbWc h3 hr]
  · have hb1 := (isContinuationByte_iff c1).mp h1
    have hb2 := (isContinuationByte_iff c2).mp h2
    have hb3 := (isContinuationByte_iff c3).mp h3
    rw [utf8mb4Code_eq h1 h2 h3]
    generalize hw : c.toNat % 8 * 262144 + (c1.toNat - 0x80) * 4096 + (c2.toNat - 0x80) * 64
      + (c3.toNat - 0x80) = wc
    have h2' : (wc >>> 6) ||| 0x10000 = 0x10000 + wc / 64 := by
      rw [Nat.shiftRight_eq_div_pow, or_mark 0x10000 1 (i := 16) rfl (by omega)]
    have h1' : ((0x10000 + wc / 64) >>> 6) ||| 0x800 = 0xc00 + wc / 4096 := by
      rw [Nat.shiftRight_eq_div_pow, or_mark 0x800 1 (i := 11) rfl (by omega)]
      omega
    have h0' : ((0xc00 + wc / 4096) >>> 6) ||| 0xc0 = 0xf0 + wc / 262144 := by
      rw [Nat.shiftRight_eq_div_pow, or_mark 0xc0 3 (i := 6) rfl (by omega)]
      omega
    rw [wcMbUtf8mb4, if_neg (by omega), if_neg (by omega), if_neg (by omega), if_neg (by omega),
      if_pos (by omega), if_neg (by omega)]
    simp only [h2', h1', h0', utf8Tail_eq]
    rw [toNat_eq_of_add (c := c) (by omega), toNat_eq_of_add (c := c1) (by omega),
      toNat_eq_of_add (c := c2) (by omega), toNat_eq_of_add (c := c3) (by omega)]
    rfl

end EloqSql
