import Mathlib.Tactic.Linarith
import EloqSql.Lib.Numeral

/-!
# Lib/LongDivision — quotients digit by digit

`bigEndian` is a number with its first digit first, as long division goes along it. The quotient of
two numbers below a base `b` is guessed from their leading digits. `scale_le` is the scaling that
makes a leading digit large, and a quotient of scaled and rounded numbers is at least the true one
(`div_le_trial`) and at most two more (`trial_le`). The quotient of the leading two digits is at
most one more than the quotient of the whole numbers (`div_le_lead`, `lead_le_div_succ`).
-/

namespace Numeral

open List

variable {b : ℕ}

/-! ## The first digit first -/

/-- The value of digits, the first one first. -/
def bigEndian (b : ℕ) (ws : List ℕ) : ℕ := Nat.ofDigits b ws.reverse

@[simp] theorem bigEndian_nil : bigEndian b [] = 0 := rfl

theorem bigEndian_append (u v : List ℕ) :
    bigEndian b (u ++ v) = bigEndian b u * b ^ v.length + bigEndian b v := by
  rw [bigEndian, bigEndian, bigEndian, reverse_append, Nat.ofDigits_append,
    length_reverse, Nat.mul_comm (_ ^ _), Nat.add_comm]

theorem bigEndian_cons (w : ℕ) (ws : List ℕ) :
    bigEndian b (w :: ws) = w * b ^ ws.length + bigEndian b ws := by
  rw [← singleton_append, bigEndian_append]
  congr 2

@[simp] theorem bigEndian_replicate_zero (n : ℕ) : bigEndian b (replicate n 0) = 0 := by
  rw [bigEndian, reverse_replicate, Nat.ofDigits_replicate_zero]

/-- A digit more. -/
theorem bigEndian_take_succ (w : ℕ) {ws : List ℕ} {n : ℕ} (h : n < ws.length) :
    bigEndian b (w :: ws.take (n + 1)) = bigEndian b (w :: ws.take n) * b + ws.getD n 0 := by
  rw [take_succ_eq_append_getElem h, ← cons_append, bigEndian_append,
    length_singleton, pow_one, getD_eq_getElem?_getD, getElem?_eq_getElem h]
  rfl

theorem bigEndian_lt (hb : 1 < b) {ws : List ℕ} (h : ∀ w ∈ ws, w < b) :
    bigEndian b ws < b ^ ws.length := by
  rw [← length_reverse]
  exact Nat.ofDigits_lt_base_pow_length hb fun w hw => h w (mem_reverse.1 hw)

/-- A smaller first digit makes a smaller number. -/
theorem bigEndian_lt_of_first (hb : 1 < b) {u v : ℕ} {us vs : List ℕ} (huv : u < v)
    (hus : ∀ w ∈ us, w < b) (hlen : us.length = vs.length) :
    bigEndian b (u :: us) < bigEndian b (v :: vs) := by
  have hlow := bigEndian_lt hb hus
  rw [bigEndian_cons, bigEndian_cons, ← hlen]
  calc u * b ^ us.length + bigEndian b us < (u + 1) * b ^ us.length := by
        rw [Nat.add_mul, Nat.one_mul]
        exact Nat.add_lt_add_left hlow _
    _ ≤ v * b ^ us.length := Nat.mul_le_mul_right _ huv
    _ ≤ v * b ^ us.length + bigEndian b vs := Nat.le_add_right ..

/-! ## One digit -/

variable {f s x g : ℕ}

/-- A leading digit is at least half of the base once it is scaled. -/
theorem scale_le (hb : 2 ∣ b) (hs : 0 < s) (hsb : s < b) : b ≤ 2 * (b / (s + 1) * s) := by
  have hpos : 0 < b / (s + 1) := Nat.div_pos hsb (Nat.succ_pos s)
  have hlt : b < (b / (s + 1) + 1) * (s + 1) := by
    rw [Nat.mul_comm]
    exact Nat.lt_mul_div_succ b (Nat.succ_pos s)
  generalize b / (s + 1) = f at hpos hlt ⊢
  obtain ⟨c, rfl⟩ := hb
  rcases Nat.lt_or_ge s 2 with hs1 | hs2
  · obtain rfl : s = 1 := by omega
    omega
  · rcases Nat.lt_or_ge f 2 with hf1 | hf2
    · obtain rfl : f = 1 := by omega
      omega
    · nlinarith

/-- Scaling and rounding does not make a quotient smaller. -/
theorem div_le_trial (hD : 0 < f * s / b) : x / s ≤ f * x / b / (f * s / b) := by
  rw [Nat.le_div_iff_mul_le hD]
  have hb : 0 < b := by
    rcases Nat.eq_zero_or_pos b with rfl | hb
    · simp at hD
    · exact hb
  rw [Nat.le_div_iff_mul_le hb]
  calc x / s * (f * s / b) * b = x / s * (f * s / b * b) := Nat.mul_assoc ..
    _ ≤ x / s * (f * s) := Nat.mul_le_mul_left _ (Nat.div_mul_le_self ..)
    _ = f * (x / s * s) := by ring
    _ ≤ f * x := Nat.mul_le_mul_left _ (Nat.div_mul_le_self ..)

/-- **A digit from scaled and rounded numbers is at most two too large.** -/
theorem trial_le (hs : 0 < s) (hscale : b * b ≤ 2 * (f * s)) (hg : g < b)
    (htrial : g ≤ f * x / b / (f * s / b)) : g ≤ x / s + 2 := by
  have hb : 0 < b := by omega
  have hx : x < (x / s + 1) * s := by
    rw [Nat.mul_comm]
    exact Nat.lt_mul_div_succ x hs
  have hD : f * s < (f * s / b + 1) * b := by
    rw [Nat.mul_comm (_ + 1)]
    exact Nat.lt_mul_div_succ _ hb
  have hN : g * (f * s / b) * b ≤ f * x :=
    (Nat.mul_le_mul_right b ((Nat.mul_le_mul_right _ htrial).trans (Nat.div_mul_le_self ..))).trans
      (Nat.div_mul_le_self ..)
  generalize f * s / b = d at hD hN
  generalize x / s = q at hx ⊢
  by_contra hgt
  -- one less than the digit times the divisor is still more than the dividend
  have hle : q + 3 ≤ g := by omega
  have hf : f * x ≤ f * ((q + 1) * s) := Nat.mul_le_mul_left f hx.le
  nlinarith

variable {c x' s' : ℕ}

/-- The carry of a multiple that is taken away stays a digit. -/
theorem carry_lt {u v k a : ℕ} (h : a + g * v + c = u + b * k) (ha : a < b) (hg : g < b)
    (hv : v < b) (hc : c < b) : k < b := by
  have hgv : g * v + 2 * b ≤ b * b + 1 := by
    obtain ⟨m, rfl⟩ : ∃ m, b = m + 1 := ⟨b - 1, by omega⟩
    have := Nat.mul_le_mul (Nat.le_of_lt_succ hg) (Nat.le_of_lt_succ hv)
    linarith
  refine Nat.lt_of_mul_lt_mul_left (a := b) ?_
  omega

/-- The quotient of the leading digits is not less. -/
theorem div_le_lead (hx : x' < c) (hs : 0 < s) : (x * c + x') / (s * c + s') ≤ x / s := by
  have hc : 0 < c := by omega
  calc (x * c + x') / (s * c + s') ≤ (x * c + x') / (s * c) :=
        Nat.div_le_div_left (Nat.le_add_right ..) (Nat.mul_pos hs hc)
    _ = x / s := by
        rw [Nat.mul_comm s c, ← Nat.div_div_eq_div_mul, Nat.mul_comm x c, Nat.mul_add_div hc,
          Nat.div_eq_of_lt hx, Nat.add_zero]

/-- **The quotient of the leading digits is at most one too large** if the digit is below the
divisor's leading digits. -/
theorem lead_le_div_succ (hs' : s' < c) (hg : g ≤ s) (hgx : g * s ≤ x) :
    g ≤ (x * c + x') / (s * c + s') + 1 := by
  rcases Nat.eq_zero_or_pos g with rfl | hpos
  · exact Nat.zero_le _
  have hv : 0 < s * c + s' := by
    have : 0 < s * c := Nat.mul_pos (by omega) (by omega)
    omega
  suffices h : g - 1 ≤ (x * c + x') / (s * c + s') by omega
  rw [Nat.le_div_iff_mul_le hv]
  obtain ⟨h, rfl⟩ : ∃ h, g = h + 1 := ⟨g - 1, by omega⟩
  rw [Nat.add_sub_cancel]
  nlinarith

/-! ## The remainder -/

variable {d k m n u v : ℕ}

/-- **Nothing was taken away too much**: then the digit is right. -/
theorem rest_of_sub (hv : 0 < v) (hvm : v ≤ m) (hsub : n + g * v = u + m * k)
    (hge : (d * m + u) / v ≤ g) (hk : k ≤ d) :
    g = (d * m + u) / v ∧ n = (d * m + u) % v := by
  have hmk : m * k ≤ d * m := by
    rw [Nat.mul_comm]
    exact Nat.mul_le_mul_right m hk
  have hg : g = (d * m + u) / v :=
    le_antisymm ((Nat.le_div_iff_mul_le hv).2 (by omega)) hge
  refine ⟨hg, ?_⟩
  have hrest := Nat.div_add_mod' (d * m + u) v
  have hlt := Nat.mod_lt (d * m + u) hv
  rw [← hg] at hrest
  -- a difference of the last carries would be at least the divisor
  obtain rfl : k = d := by
    by_contra hne
    have : m * (k + 1) ≤ d * m := by
      rw [Nat.mul_comm]
      exact Nat.mul_le_mul_right m (by omega)
    rw [Nat.mul_add, Nat.mul_one] at this
    omega
  rw [Nat.mul_comm m] at hsub
  omega

/-- **The divisor is added back** to what was taken away too much. -/
theorem rest_of_addBack {n' c' : ℕ} (hv : 0 < v) (hvm : v ≤ m) (hn : n < m)
    (hsub : n + g * v = u + m * k) (hle : g ≤ (d * m + u) / v + 1) (hk : d < k) (hn' : n' < m)
    (hadd : n' + m * c' = n + v) : g - 1 = (d * m + u) / v ∧ n' = (d * m + u) % v := by
  have hmk : d * m + m ≤ m * k := by
    rw [← Nat.succ_mul, Nat.mul_comm m]
    exact Nat.mul_le_mul_right m hk
  have hg : g = (d * m + u) / v + 1 := by
    refine le_antisymm hle (Nat.succ_le_of_lt ((Nat.div_lt_iff_lt_mul hv).2 ?_))
    omega
  refine ⟨by rw [hg, Nat.add_sub_cancel], ?_⟩
  have hrest := Nat.div_add_mod' (d * m + u) v
  have hlt := Nat.mod_lt (d * m + u) hv
  have hgv : g * v = (d * m + u) / v * v + v := by rw [hg, Nat.succ_mul]
  have heq : (d * m + u) % v + m * k = n' + m * (c' + d) := by
    rw [Nat.mul_add, Nat.mul_comm m d]
    omega
  have := congrArg (· % m) heq
  simpa [Nat.add_mul_mod_self_left, Nat.mod_eq_of_lt hn', Nat.mod_eq_of_lt (hlt.trans_le hvm)]
    using this.symm

/-- **A quotient goes on with the remainder.** -/
theorem div_append (hv : 0 < v) (u m n : ℕ) :
    (u * m + n) / v = u / v * m + (u % v * m + n) / v := by
  rw [← Nat.mul_add_div hv, ← Nat.add_assoc, ← Nat.mul_assoc, ← Nat.add_mul, Nat.div_add_mod]

end Numeral
