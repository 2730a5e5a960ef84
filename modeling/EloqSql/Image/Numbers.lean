import EloqSql.Field
import EloqSql.Image.Weights

/-!
# Image/Numbers — the images of numbers compare as the numbers

A number stored low byte first is turned around, so that its bytes compare as it does
(`compare_reverse`); a signed one gets its sign bit reversed, which adds half of the range
(`compare_sortInteger`). Finite floating point numbers are mapped to numbers in their order, with
one place for both zeros (`compare_sortFloat`).
-/

namespace EloqSql

open Segment List

/-! ## Integers -/

theorem leNat_lt : ∀ a : Bytes, leNat a < 256 ^ a.length
  | [] => by simp [leNat]
  | b :: a => by
      have hb := b.toNat_lt
      have ih := leNat_lt a
      rw [leNat, length_cons, Nat.pow_succ]
      omega

theorem leNat_append : ∀ a b : Bytes, leNat (a ++ b) = leNat a + 256 ^ a.length * leNat b
  | [], b => by simp [leNat]
  | c :: a, b => by
      rw [cons_append, leNat, leNat, leNat_append a b, length_cons, Nat.pow_succ]
      have : 256 ^ a.length * 256 * leNat b = 256 * (256 ^ a.length * leNat b) := by
        rw [Nat.mul_comm _ 256, Nat.mul_assoc]
      omega

/-- **Bytes high first compare as the number.** The induction is on the high bytes. -/
theorem compare_reverse : ∀ {a b : Bytes}, a.length = b.length →
    compare a.reverse b.reverse = compare (leNat a) (leNat b)
  | [], [], _ => rfl
  | x :: a, y :: b, h => by
      have hlen : a.length = b.length := by simpa using h
      have hx := x.toNat_lt
      have hy := y.toNat_lt
      rw [reverse_cons, reverse_cons,
        MemCompare.ComparesAs.of_length_eq (by simpa using hlen), compare_reverse hlen,
        List.compare_cons_cons, List.compare_nil_nil, Ordering.then_eq, Collation.compare_toNat,
        leNat, leNat, Nat.add_comm, Nat.add_comm y.toNat, Nat.mul_comm, Nat.mul_comm 256,
        compare_digits hx hy]

theorem toNat_xor_128 (b : UInt8) : (b ^^^ 128).toNat = (b.toNat + 128) % 256 := by
  have h : ∀ n < 256, (UInt8.ofNat n ^^^ 128).toNat = (n + 128) % 256 := by decide +kernel
  have := h b.toNat b.toNat_lt
  rwa [UInt8.ofNat_toNat] at this

/-- Reversing the sign bit adds half of the range. -/
theorem leNat_sign (a : Bytes) (b : UInt8) :
    (leNat (a ++ [b ^^^ 128]) : ℤ) = leInt (a ++ [b]) + (128 * 256 ^ a.length : ℕ) := by
  have ha := leNat_lt a
  have hb := b.toNat_lt
  have hn : ∀ c : UInt8, leNat (a ++ [c]) = leNat a + 256 ^ a.length * c.toNat := fun c => by
    rw [leNat_append]
    simp [leNat]
  have hpow : 256 ^ (a ++ [b]).length = 256 * 256 ^ a.length := by
    rw [length_append, length_singleton, Nat.pow_succ, Nat.mul_comm]
  rw [leInt, hn, hn, hpow, toNat_xor_128]
  generalize 256 ^ a.length = P at *
  by_cases h : b.toNat < 128
  · have h1 : P * b.toNat ≤ P * 127 := Nat.mul_le_mul_left P (by omega)
    have h2 : P * ((b.toNat + 128) % 256) = P * b.toNat + P * 128 := by
      rw [Nat.mod_eq_of_lt (by omega), Nat.mul_add]
    rw [if_pos (by omega), h2]
    omega
  · have h1 : P * 128 ≤ P * b.toNat := Nat.mul_le_mul_left P (by omega)
    have h2 : P * ((b.toNat + 128) % 256) = P * b.toNat - P * 128 := by
      rw [show (b.toNat + 128) % 256 = b.toNat - 128 by omega, Nat.mul_sub]
    rw [if_neg (by omega), h2]
    omega

theorem sortInteger_append (isUnsigned : Bool) (a : Bytes) (b : UInt8) :
    sortInteger isUnsigned (a ++ [b])
      = (a ++ [if isUnsigned then b else b ^^^ 128]).reverse := by
  simp [sortInteger]

/-- **The images of integers compare as the integers do**, by value if unsigned and by signed value
otherwise. -/
theorem compare_sortInteger (isUnsigned : Bool) {a b : Bytes} (h : a.length = b.length) :
    compare (sortInteger isUnsigned a) (sortInteger isUnsigned b)
      = if isUnsigned then compare (leNat a) (leNat b) else compare (leInt a) (leInt b) := by
  rcases eq_nil_or_concat a with rfl | ⟨a, x, rfl⟩ <;>
    rcases eq_nil_or_concat b with rfl | ⟨b, y, rfl⟩
  · cases isUnsigned <;> rfl
  · simp at h
  · simp at h
  · have hlen : a.length = b.length := by simpa using h
    rw [concat_eq_append, concat_eq_append, sortInteger_append, sortInteger_append,
      compare_reverse (by simp [hlen])]
    cases isUnsigned with
    | true => rfl
    | false =>
      have hx := leNat_sign a x
      have hy := leNat_sign b y
      rw [← hlen] at hy
      simp only [Bool.false_eq_true, if_false]
      -- both sides are shifted by the same half of the range
      rcases lt_trichotomy (leInt (a ++ [x])) (leInt (b ++ [y])) with hlt | heq | hgt
      · rw [Nat.compare_eq_lt.mpr (by omega), compare_lt_iff_lt.mpr hlt]
      · rw [Nat.compare_eq_eq.mpr (by omega), compare_eq_iff_eq.mpr heq]
      · rw [Nat.compare_eq_gt.mpr (by omega), compare_gt_iff_gt.mpr hgt]

theorem length_sortInteger (isUnsigned : Bool) (a : Bytes) :
    (sortInteger isUnsigned a).length = a.length := by
  rcases eq_nil_or_concat a with rfl | ⟨a, x, rfl⟩
  · rfl
  · rw [concat_eq_append, sortInteger_append]
    simp

/-! ## Floating point numbers -/

theorem compare_leNat_reverse {x y : Bytes} (h : x.length = y.length) :
    compare x y = compare (leNat x.reverse) (leNat y.reverse) := by
  rw [← compare_reverse (by simpa using h), reverse_reverse, reverse_reverse]

theorem toNat_xor_255 (b : UInt8) : (b ^^^ 255).toNat = 255 - b.toNat := by
  have h : ∀ n < 256, (UInt8.ofNat n ^^^ 255).toNat = 255 - n := by decide +kernel
  have := h b.toNat b.toNat_lt
  rwa [UInt8.ofNat_toNat] at this

theorem leNat_complement : ∀ a : Bytes,
    leNat (a.map (· ^^^ 255)) + leNat a + 1 = 256 ^ a.length
  | [] => rfl
  | b :: a => by
      have hb := b.toNat_lt
      have ih := leNat_complement a
      rw [map_cons, leNat, leNat, length_cons, Nat.pow_succ, toNat_xor_255]
      omega

theorem leNat_eq_zero_iff : ∀ a : Bytes, leNat a = 0 ↔ a.all (· == 0) = true
  | [] => by simp [leNat]
  | b :: a => by
      have ih := leNat_eq_zero_iff a
      have hb : b.toNat = 0 ↔ b = 0 := by rw [← UInt8.toNat_inj]; rfl
      rw [leNat, all_cons, Bool.and_eq_true, beq_iff_eq, ← ih, ← hb]
      omega

/-- The place of a floating point number among the images: below the zeros if negative, and above
them, leaving the gap of one exponent, if positive. -/
def floatPlace (expDig : ℕ) (length : ℕ) (o : ℤ) : ℤ :=
  let half : ℤ := (32768 * 256 ^ (length - 2) : ℕ)
  if o < 0 then half - 1 + o
  else if o = 0 then half
  else half + (2 ^ (15 - expDig) * 256 ^ (length - 2) : ℕ) + o

theorem floatPlace_lt (expDig length : ℕ) {o o' : ℤ} (h : o < o') :
    floatPlace expDig length o < floatPlace expDig length o' := by
  unfold floatPlace
  generalize 2 ^ (15 - expDig) * 256 ^ (length - 2) = gap
  generalize 32768 * 256 ^ (length - 2) = half
  simp only
  split_ifs <;> omega

/-- The high 16 bits of a finite positive number leave room for one exponent more. -/
theorem exponent_lt {expDig hi : ℕ} (he : expDig ≤ 15) (hlt : hi < 2 ^ 15)
    (hf : hi % 2 ^ 15 / 2 ^ (15 - expDig) ≠ 2 ^ expDig - 1) : hi + 2 ^ (15 - expDig) < 32768 := by
  rw [Nat.mod_eq_of_lt hlt] at hf
  have hsplit : 2 ^ 15 = 2 ^ expDig * 2 ^ (15 - expDig) := by
    rw [← Nat.pow_add]
    congr 1
    omega
  have hpos := Nat.two_pow_pos (15 - expDig)
  have hq : hi / 2 ^ (15 - expDig) < 2 ^ expDig := by
    rw [Nat.div_lt_iff_lt_mul hpos, ← hsplit]
    exact hlt
  have hmod := Nat.div_add_mod' hi (2 ^ (15 - expDig))
  have hr := Nat.mod_lt hi hpos
  generalize hi / 2 ^ (15 - expDig) = q at *
  generalize hi % 2 ^ (15 - expDig) = m at *
  have hmul : (q + 2) * 2 ^ (15 - expDig) ≤ 2 ^ 15 := by
    rw [hsplit]
    exact Nat.mul_le_mul_right _ (by omega)
  rw [Nat.add_mul] at hmul
  omega

theorem length_sortFloat (expDig : ℕ) (a : Bytes) : (sortFloat expDig a).length = a.length := by
  rw [sortFloat]
  split
  · rename_i b0 b1 r h
    have hl : a.length = r.length + 2 := by rw [← length_reverse, h]; rfl
    split_ifs <;> simp [hl]
  · simp

theorem or_sign {hi : ℕ} (h : hi < 32768) : hi ||| 32768 = hi + 32768 := by
  rw [or_mark _ 1 (i := 15) (by decide) h, Nat.add_comm]

theorem two_digits {n : ℕ} (h : n < 65536) : n / 256 % 2 ^ 8 * 256 + n % 2 ^ 8 = n := by omega

section Split

variable {expDig : ℕ} {b0 b1 : UInt8} {r : Bytes}

/-- A number split into its high 16 bits and the rest. -/
theorem leNat_split (b0 b1 : UInt8) (r : Bytes) : leNat (b0 :: b1 :: r).reverse
    = leNat r.reverse + 256 ^ r.length * (b0.toNat * 256 + b1.toNat) := by
  rw [reverse_cons, reverse_cons, append_assoc, leNat_append, length_reverse]
  simp only [cons_append, nil_append, leNat, Nat.mul_zero, Nat.add_zero]
  rw [Nat.add_comm b1.toNat, Nat.mul_comm 256]

theorem pow_split (r : Bytes) : 256 ^ (b0 :: b1 :: r).reverse.length = 65536 * 256 ^ r.length := by
  rw [length_reverse, length_cons, length_cons, Nat.pow_succ, Nat.pow_succ,
    Nat.mul_assoc, Nat.mul_comm]

theorem floatOrder_split : floatOrder (b0 :: b1 :: r).reverse
    = if b0.toNat < 128 then (leNat (b0 :: b1 :: r).reverse : ℤ)
      else (32768 * 256 ^ r.length : ℕ) - (leNat (b0 :: b1 :: r).reverse : ℤ) := by
  have hlow := leNat_lt r.reverse
  have hb1 := b1.toNat_lt
  rw [length_reverse] at hlow
  rw [floatOrder, pow_split, leNat_split]
  generalize 256 ^ r.length = K at *
  by_cases h : b0.toNat < 128
  · have hK : K * (b0.toNat * 256 + b1.toNat) ≤ K * 32767 := Nat.mul_le_mul_left K (by omega)
    rw [if_pos h, if_pos (by omega)]
  · have hK : K * 32768 ≤ K * (b0.toNat * 256 + b1.toNat) := Nat.mul_le_mul_left K (by omega)
    rw [if_neg h, if_neg (by omega)]
    omega

theorem sign_iff (b : UInt8) : b &&& 128 ≠ 0 ↔ 128 ≤ b.toNat := by
  have h : ∀ n < 256, (UInt8.ofNat n &&& 128 ≠ 0 ↔ 128 ≤ n) := by decide +kernel
  have := h b.toNat b.toNat_lt
  rwa [UInt8.ofNat_toNat] at this

/-- The bytes of both zeros. -/
theorem float_zero_iff : ((b0 = 0 ∨ b0 = 128) ∧ b1 = 0 ∧ r.all (· == 0) = true) ↔
    (b0.toNat = 0 ∨ b0.toNat = 128) ∧ b1.toNat = 0 ∧ leNat r.reverse = 0 := by
  have e : ∀ (b : UInt8), b.toNat = 0 ↔ b = 0 := fun b => by rw [← UInt8.toNat_inj]; rfl
  have e' : b0.toNat = 128 ↔ b0 = 128 := by rw [← UInt8.toNat_inj]; rfl
  rw [e, e, e', leNat_eq_zero_iff, all_reverse]

theorem sortFloat_zero (expDig : ℕ) (hz : (b0 = 0 ∨ b0 = 128) ∧ b1 = 0 ∧ r.all (· == 0) = true) :
    floatOrder (b0 :: b1 :: r).reverse = 0 ∧
      leNat (sortFloat expDig (b0 :: b1 :: r).reverse).reverse = 32768 * 256 ^ r.length := by
  obtain ⟨h0, h1, hlow⟩ := float_zero_iff.mp hz
  have himg : leNat (128 :: 0 :: r).reverse = 32768 * 256 ^ r.length := by
    rw [leNat_split, hlow, Nat.zero_add, Nat.mul_comm]
    rfl
  constructor
  · rw [floatOrder_split, leNat_split, hlow, h1]
    rcases h0 with h0 | h0 <;> simp [h0, Nat.mul_comm]
  · rw [sortFloat, reverse_reverse]
    simp only [if_pos hz]
    exact himg

/-- Complemented: the larger the number, the smaller the image. -/
theorem sortFloat_neg (expDig : ℕ)
    (hz : ¬ ((b0 = 0 ∨ b0 = 128) ∧ b1 = 0 ∧ r.all (· == 0) = true))
    (hs : 128 ≤ b0.toNat) : floatOrder (b0 :: b1 :: r).reverse < 0 ∧
      (leNat (sortFloat expDig (b0 :: b1 :: r).reverse).reverse : ℤ)
        = (32768 * 256 ^ r.length : ℕ) - 1 + floatOrder (b0 :: b1 :: r).reverse := by
  have himg := leNat_complement (b0 :: b1 :: r).reverse
  have hval := leNat_split b0 b1 r
  have hlow := leNat_lt r.reverse
  have hnz : b0.toNat = 128 → b1.toNat = 0 → leNat r.reverse ≠ 0 := fun h0 h1 h2 =>
    hz (float_zero_iff.mpr ⟨Or.inr h0, h1, h2⟩)
  have hsort : (sortFloat expDig (b0 :: b1 :: r).reverse).reverse
      = (b0 :: b1 :: r).reverse.map (· ^^^ 255) := by
    rw [sortFloat, reverse_reverse]
    simp only [if_neg hz, if_pos ((sign_iff b0).mpr hs)]
    exact map_reverse.symm
  rw [length_reverse] at hlow
  rw [pow_split] at himg
  rw [hsort, floatOrder_split, if_neg (by omega)]
  clear hsort
  generalize 256 ^ r.length = K at *
  have hK : K * 32768 + K * (b0.toNat * 256 + b1.toNat - 32768)
      = K * (b0.toNat * 256 + b1.toNat) := by
    rw [← Nat.mul_add, Nat.add_sub_cancel' (by omega)]
  have hpos : 32768 * K < leNat (b0 :: b1 :: r).reverse := by
    by_cases h0 : leNat r.reverse = 0
    · have h1 : K * 1 ≤ K * (b0.toNat * 256 + b1.toNat - 32768) := by
        apply Nat.mul_le_mul_left
        by_cases h1 : b1.toNat = 0
        · have : b0.toNat ≠ 128 := fun h => hnz h h1 h0
          omega
        · omega
      omega
    · omega
  constructor <;> omega

/-- The exponent moved up by one, into the room that infinities would take. -/
theorem sortFloat_pos (he : expDig ≤ 15)
    (hz : ¬ ((b0 = 0 ∨ b0 = 128) ∧ b1 = 0 ∧ r.all (· == 0) = true)) (hs : b0.toNat < 128)
    (hf : (b0.toNat * 256 + b1.toNat) % 2 ^ 15 / 2 ^ (15 - expDig) ≠ 2 ^ expDig - 1) :
    0 < floatOrder (b0 :: b1 :: r).reverse ∧
      (leNat (sortFloat expDig (b0 :: b1 :: r).reverse).reverse : ℤ)
        = (32768 * 256 ^ r.length : ℕ) + (2 ^ (15 - expDig) * 256 ^ r.length : ℕ)
          + floatOrder (b0 :: b1 :: r).reverse := by
  have hval := leNat_split b0 b1 r
  have hb1 := b1.toNat_lt
  have hhi : b0.toNat * 256 + b1.toNat < 32768 := by omega
  have hexp := exponent_lt he hhi hf
  have hsort : leNat (sortFloat expDig (b0 :: b1 :: r).reverse).reverse
      = leNat r.reverse
        + 256 ^ r.length * (b0.toNat * 256 + b1.toNat + 32768 + 2 ^ (15 - expDig)) := by
    rw [sortFloat, reverse_reverse]
    simp only [if_neg hz, if_neg (fun h => absurd ((sign_iff b0).mp h) (by omega)), or_sign hhi]
    rw [leNat_split, UInt8.toNat_ofNat', UInt8.toNat_ofNat', two_digits]
    rw [Nat.add_right_comm]
    exact Nat.add_lt_add_right hexp 32768
  have hpos : 0 < leNat (b0 :: b1 :: r).reverse := by
    rw [Nat.pos_iff_ne_zero, hval]
    intro h0
    obtain ⟨hlow, hhi⟩ := Nat.add_eq_zero_iff.mp h0
    have hhi' :=
      (Nat.mul_eq_zero.mp hhi).resolve_left (Nat.pos_iff_ne_zero.mp (Nat.pow_pos (by omega)))
    exact hz (float_zero_iff.mpr ⟨Or.inl (by omega), by omega, hlow⟩)
  rw [hsort, floatOrder_split, if_pos hs]
  refine ⟨by omega, ?_⟩
  rw [hval, Nat.mul_add, Nat.mul_add, Nat.mul_comm _ 32768, Nat.mul_comm _ (2 ^ (15 - expDig))]
  omega

/-- **The image of a finite number is its place among them.** -/
theorem leNat_sortFloat (he : expDig ≤ 15) {a : Bytes} (hf : floatFinite expDig a = true) :
    (leNat (sortFloat expDig a).reverse : ℤ) = floatPlace expDig a.length (floatOrder a) := by
  obtain ⟨b0, b1, r, hr⟩ : ∃ b0 b1 r, a.reverse = b0 :: b1 :: r := by
    unfold floatFinite at hf
    split at hf
    · rename_i b0 b1 r h
      exact ⟨b0, b1, r, h⟩
    · cases hf
  obtain rfl : a = (b0 :: b1 :: r).reverse := by rw [← hr, reverse_reverse]
  have hfin : (b0.toNat * 256 + b1.toNat) % 2 ^ 15 / 2 ^ (15 - expDig) ≠ 2 ^ expDig - 1 := by
    simpa [floatFinite] using hf
  rw [floatPlace, length_reverse, length_cons, length_cons,
    show r.length + 1 + 1 - 2 = r.length by omega]
  by_cases hz : (b0 = 0 ∨ b0 = 128) ∧ b1 = 0 ∧ r.all (· == 0) = true
  · obtain ⟨ho, himg⟩ := sortFloat_zero expDig hz
    rw [himg, ho]
    simp
  · by_cases hs : b0.toNat < 128
    · obtain ⟨ho, himg⟩ := sortFloat_pos he hz hs hfin
      simp only [if_neg (show ¬ floatOrder (b0 :: b1 :: r).reverse < 0 by omega), if_neg ho.ne']
      exact himg
    · obtain ⟨ho, himg⟩ := sortFloat_neg expDig hz (by omega)
      simp only [if_pos ho]
      exact himg

end Split

/-- **The images of finite numbers compare as the numbers do.** -/
theorem compare_sortFloat {expDig : ℕ} (he : expDig ≤ 15) {a b : Bytes} (h : a.length = b.length)
    (ha : floatFinite expDig a = true) (hb : floatFinite expDig b = true) :
    compare (sortFloat expDig a) (sortFloat expDig b)
      = compare (floatOrder a) (floatOrder b) := by
  have hia := leNat_sortFloat he ha
  have hib := leNat_sortFloat he hb
  rw [← h] at hib
  rw [compare_leNat_reverse (by rw [length_sortFloat, length_sortFloat, h])]
  rcases lt_trichotomy (floatOrder a) (floatOrder b) with hlt | heq | hgt
  · have := floatPlace_lt expDig a.length hlt
    rw [Nat.compare_eq_lt.mpr (by omega), compare_lt_iff_lt.mpr hlt]
  · rw [heq] at hia
    rw [Nat.compare_eq_eq.mpr (by omega), compare_eq_iff_eq.mpr heq]
  · have := floatPlace_lt expDig a.length hgt
    rw [Nat.compare_eq_gt.mpr (by omega), compare_gt_iff_gt.mpr hgt]

/-! ## Columns of fixed size -/

theorem length_sortTimeHires (a : Bytes) : (sortTimeHires a).length = a.length := by
  cases a <;> rfl

/-- The head of a number below half of the range. -/
theorem head_lt_128 {b : UInt8} {r : Bytes} (h : leNat (b :: r).reverse < 128 * 256 ^ r.length) :
    b.toNat < 128 := by
  rw [reverse_cons, leNat_append, length_reverse] at h
  by_contra hb
  have : 256 ^ r.length * 128 ≤ 256 ^ r.length * leNat [b] := by
    refine Nat.mul_le_mul_left _ ?_
    simpa [leNat] using hb
  omega

/-- Numbers below half of the range stay in order when their high bits are set. -/
theorem compare_sortTimeHires {a b : Bytes} (h : a.length = b.length)
    (ha : 2 * leNat a.reverse < 256 ^ a.length) (hb : 2 * leNat b.reverse < 256 ^ b.length) :
    compare (sortTimeHires a) (sortTimeHires b) = compare a b := by
  cases a with
  | nil => rw [length_eq_zero_iff.mp h.symm]; rfl
  | cons x a =>
    cases b with
    | nil => simp at h
    | cons y b =>
      rw [length_cons, Nat.pow_succ] at ha hb
      have hx := head_lt_128 (b := x) (r := a) (by omega)
      have hy := head_lt_128 (b := y) (r := b) (by omega)
      rw [sortTimeHires, sortTimeHires, List.compare_cons_cons, List.compare_cons_cons,
        Collation.compare_toNat, Collation.compare_toNat, toNat_xor_128, toNat_xor_128,
        Nat.mod_eq_of_lt (by omega), Nat.mod_eq_of_lt (by omega)]
      simp only [Nat.compare_eq_ite_lt, Nat.add_lt_add_iff_right]

namespace Field

variable {f : Field} {v w : Bytes}

theorem length_of_validValue (hf : f.realType.fixedSize = true) (hv : f.validValue v = true) :
    v.length = f.packLength := by
  cases h : f.realType with
  | varchar | string | blob _ => simp [h, FieldType.fixedSize] at hf
  | float | double =>
    simp only [validValue, h, Bool.and_eq_true, beq_iff_eq] at hv
    simp only [packLength, h, hv.1]
  | time dec =>
    cases dec with
    | zero => simpa [validValue, h] using hv
    | succ dec =>
      simp only [validValue, h, Bool.and_eq_true, beq_iff_eq] at hv
      exact hv.1
  | _ => simpa [validValue, h] using hv

theorem length_sortString (hf : f.realType.fixedSize = true) (n : ℕ) :
    (f.sortString n v).length = v.length := by
  cases h : f.realType with
  | varchar | string | blob _ => simp [h, FieldType.fixedSize] at hf
  | time dec | datetime dec | timestamp dec =>
    cases dec <;> simp [sortString, h, length_sortTimeHires, length_sortInteger]
  | _ => simp [sortString, h, length_sortInteger, length_sortFloat]

/-- A fractional `TIME` is below half of its range, but for a `TIME(5)`. -/
theorem two_mul_lt_of_time {dec : ℕ} (hf : f.realType = .time (dec + 1)) (hdec : dec ≠ 4)
    (hwf : f.wf = true) (hv : f.validValue v = true) : 2 * leNat v.reverse < 256 ^ v.length := by
  simp only [validValue, hf, Bool.and_eq_true, beq_iff_eq, decide_eq_true_eq] at hv
  have hpl : 0 < timeHiresBytes (dec + 1) := by simpa [wf, hf, packLength] using hwf
  rw [hv.1]
  have hpack : f.packLength = timeHiresBytes (dec + 1) := by simp [packLength, hf]
  rw [hpack]
  refine (Nat.mul_lt_mul_of_pos_left hv.2 (by decide)).trans_le ?_
  match dec, hdec, hpl with
  | 0, _, _ | 1, _, _ | 2, _, _ | 3, _, _ | 5, _, _ => decide
  | n + 6, _, hpl => simp [timeHiresBytes] at hpl

/-- **The sort strings of a column of fixed size compare as the values do.** -/
theorem compare_sortString (hf : f.realType.fixedSize = true) (ht : f.realType ≠ .time 5)
    (hwf : f.wf = true) (hv : f.validValue v = true) (hw : f.validValue w = true) (n : ℕ) :
    compare (f.sortString n v) (f.sortString n w) = f.cmp v w := by
  have hlen : v.length = w.length :=
    (length_of_validValue hf hv).trans (length_of_validValue hf hw).symm
  cases h : f.realType with
  | varchar | string | blob _ => simp [h, FieldType.fixedSize] at hf
  | tiny | short | int24 | long | longlong =>
    simp only [sortString, cmp, h, compare_sortInteger _ hlen]
  | float | double =>
    simp only [validValue, h, Bool.and_eq_true] at hv hw
    simp only [sortString, cmp, h]
    exact compare_sortFloat (by decide) hlen hv.2 hw.2
  | newdate | enum _ | set _ => simp only [sortString, cmp, h, compare_reverse hlen]
  | year =>
    simp only [validValue, h, beq_iff_eq, packLength] at hv hw
    obtain ⟨a, rfl⟩ := length_eq_one_iff.mp hv
    obtain ⟨b, rfl⟩ := length_eq_one_iff.mp hw
    simp only [sortString, cmp, h]
    exact compare_reverse hlen
  | time dec =>
    cases dec with
    | zero => simp [sortString, cmp, h, compare_sortInteger _ hlen]
    | succ dec =>
      have hdec : dec ≠ 4 := by rintro rfl; exact ht h
      simp only [sortString, cmp, h]
      exact compare_sortTimeHires hlen (two_mul_lt_of_time h hdec hwf hv)
        (two_mul_lt_of_time h hdec hwf hw)
  | datetime dec | timestamp dec =>
    cases dec with
    | zero => simp only [sortString, cmp, h, compare_reverse hlen]
    | succ dec => simp only [sortString, cmp, h]
  | newdecimal _ _ | time2 _ | datetime2 _ | timestamp2 _ | bit _ => simp only [sortString, cmp, h]

end Field

end EloqSql
