import Mathlib.Algebra.Order.Floor.Semifield
import Mathlib.Data.Rat.Floor
import EloqSql.Decimal.Div

/-!
# Decimal/Quotient — the quotient is right to its last digit

Each round of the main loop divides what is left of the dividend, one word longer than the divisor,
by the divisor. The test against two words leaves a guess that is one too large at most
(`guessWord_spec`), so adding back once is enough (`divStep_spec`), and the words of the quotient
are those of a division of integers (`bigEndian_divLoop`). The words that are brought down are as
many as the fraction of the quotient asks for.
-/

namespace EloqSql

open Numeral List
open Nat (div_eq_of_lt mod_lt ofDigits zero_lt_of_lt)

/-! ## A guess -/

theorem Dec1.sub2_spec {u v c : ℕ} (hu : u < digBase) (hv : v < digBase) (hc : c < digBase) :
    (Dec1.sub2 u v c).1 < digBase ∧
      (Dec1.sub2 u v c).1 + v + c = u + digBase * (Dec1.sub2 u v c).2 := by
  rw [Dec1.sub2]
  split
  · split <;> dsimp only <;> omega
  · dsimp only
    omega

/-- **The words of D4** take away the guess times a word. -/
theorem Dec1.subtracts_mulSub {g : ℕ} (hg : g < digBase) :
    Subtracts digBase g (digBase - 1) (Dec1.mulSub g) := by
  intro u v c hu hv hc
  have hpos := digBase_pos
  have hlo : g * v - g * v / digBase * digBase = g * v % digBase := by
    have := Nat.div_add_mod' (g * v) digBase
    omega
  have hdiv := Nat.div_add_mod (g * v) digBase
  obtain ⟨hlt, hsub⟩ := Dec1.sub2_spec hu (mod_lt (g * v) hpos) (c := c) (by omega)
  rw [Dec1.mulSub, hlo]
  generalize Dec1.sub2 u (g * v % digBase) c = r at hlt hsub ⊢
  have heq : r.1 + g * v + c = u + digBase * (r.2 + g * v / digBase) := by
    rw [Nat.mul_add]
    omega
  exact ⟨hlt, Nat.le_sub_one_of_lt (carry_lt heq hlt hg hv (by omega)), heq⟩

theorem two_dvd_digBase : 2 ∣ digBase := by
  norm_num [digBase]

section Guess

variable {s0 s1 x y g : ℕ}

/-- The numbers that the guess is made of, scaled and rounded. -/
theorem scaled_div (f x y : ℕ) :
    f * (x * digBase + y) / digBase = f * x + f * y / digBase := by
  rw [Nat.mul_add, ← Nat.mul_assoc, Nat.mul_comm (f * x), Nat.mul_add_div digBase_pos]

/-- With a divisor of one word the guess is right. -/
theorem guessWord_one (hs0 : 0 < s0) (hs0' : s0 < digBase) {dcarry x0 : ℕ} (hy : y < digBase)
    (hlt : x0 + dcarry * digBase < s0 * digBase) :
    guessWord [s0] dcarry x0 y = (x0 + dcarry * digBase) / s0 := by
  have hf : 0 < digBase / (s0 + 1) := Nat.div_pos hs0' (Nat.succ_pos s0)
  have hround : digBase / (s0 + 1) * y / digBase < digBase / (s0 + 1) := by
    rw [Nat.div_lt_iff_lt_mul digBase_pos]
    exact Nat.mul_lt_mul_of_pos_left hy hf
  simp only [guessWord, getD_cons_zero, length_singleton, Nat.sub_self, Nat.lt_irrefl,
    gt_iff_lt, if_false, Nat.add_zero]
  rw [← Nat.div_div_eq_div_mul, Nat.mul_add_div hf, div_eq_of_lt hround, Nat.add_zero,
    if_neg (Nat.not_le.2 ((Nat.div_lt_iff_lt_mul hs0).2 (by rwa [Nat.mul_comm digBase])))]

/-- The test of the guess against two words. -/
theorem tooLarge_iff (hS : 0 < s0 * digBase + s1) :
    (s1 * g : ℤ) > (x - g * s0) * digBase + y ↔ (x * digBase + y) / (s0 * digBase + s1) < g := by
  rw [Nat.div_lt_iff_lt_mul hS]
  zify
  constructor <;> intro h <;> linarith

/-- **With more words the guess is at most one too large**: it is right for the first two. -/
theorem guessWord_two (hs0 : 0 < s0) (hs0' : s0 < digBase) (s1 : ℕ) (ws : List ℕ) (dcarry x0 : ℕ)
    (hx : x = x0 + dcarry * digBase) :
    min ((x * digBase + y) / (s0 * digBase + s1)) (digBase - 1)
        ≤ guessWord (s0 :: s1 :: ws) dcarry x0 y ∧
      guessWord (s0 :: s1 :: ws) dcarry x0 y < digBase ∧
      guessWord (s0 :: s1 :: ws) dcarry x0 y ≤ (x * digBase + y) / (s0 * digBase + s1) := by
  have hS : 0 < s0 * digBase + s1 := Nat.add_pos_left (Nat.mul_pos hs0 digBase_pos) _
  have hf : 0 < digBase / (s0 + 1) := Nat.div_pos hs0' (Nat.succ_pos s0)
  have hscale := scale_le two_dvd_digBase hs0 hs0'
  have hD : 0 < digBase / (s0 + 1) * (s0 * digBase + s1) / digBase := by
    rw [scaled_div]
    exact Nat.add_pos_left (Nat.mul_pos hf hs0) _
  have htrial := div_le_trial (x := x * digBase + y) hD
  have htwo := trial_le (b := digBase) (f := digBase / (s0 + 1)) (x := x * digBase + y)
    (g := min (digBase / (s0 + 1) * (x * digBase + y) / digBase
      / (digBase / (s0 + 1) * (s0 * digBase + s1) / digBase)) (digBase - 1)) hS
    (by nlinarith)
    ((min_le_right ..).trans_lt (Nat.sub_one_lt digBase_pos.ne')) (min_le_left ..)
  simp only [guessWord, getD_cons_zero, getD_cons_succ, length_cons, ← hx,
    tooLarge_iff hS, gt_iff_lt, decide_eq_true_eq]
  have hlen : 0 < ws.length + 1 + 1 - 1 := Nat.succ_pos _
  simp only [hlen, if_true]
  rw [← scaled_div, ← scaled_div]
  generalize digBase / (s0 + 1) * (x * digBase + y) / digBase
    / (digBase / (s0 + 1) * (s0 * digBase + s1) / digBase) = trial at htrial htwo ⊢
  generalize (x * digBase + y) / (s0 * digBase + s1) = q at htrial htwo ⊢
  have hpos := digBase_pos
  split_ifs <;> omega

end Guess

/-! ## A round -/

section Step

variable {s0 dcarry : ℕ} {ws2 start1 : List ℕ}

/-- What a round starts with: the divisor, and less than the divisor of the dividend so far. -/
structure DivReady (s0 : ℕ) (ws2 : List ℕ) (dcarry : ℕ) (start1 : List ℕ) : Prop where
  first_pos : 0 < s0
  word_lt : ∀ w ∈ s0 :: ws2, w < digBase
  left_lt : ∀ w ∈ start1, w < digBase
  below : bigEndian digBase (dcarry :: start1.take ws2.length) < bigEndian digBase (s0 :: ws2)

theorem getD_lt {ws : List ℕ} (h : ∀ w ∈ ws, w < digBase) (n : ℕ) : ws.getD n 0 < digBase := by
  rw [getD_eq_getElem?_getD]
  rcases hw : ws[n]? with _ | w
  · exact digBase_pos
  · exact h w (mem_of_getElem? hw)

section

variable (h : DivReady s0 ws2 dcarry start1)

include h

/-- The quotient of a round is a word. -/
theorem DivReady.lt_mul (hlen : ws2.length < start1.length) :
    bigEndian digBase (dcarry :: start1.take (ws2.length + 1))
      < bigEndian digBase (s0 :: ws2) * digBase := by
  have hlt := getD_lt h.left_lt ws2.length
  rw [bigEndian_take_succ dcarry hlen]
  calc bigEndian digBase (dcarry :: start1.take ws2.length) * digBase + start1.getD ws2.length 0
      < (bigEndian digBase (dcarry :: start1.take ws2.length) + 1) * digBase := by
        rw [Nat.add_mul, Nat.one_mul]
        exact Nat.add_lt_add_left hlt _
    _ ≤ bigEndian digBase (s0 :: ws2) * digBase := Nat.mul_le_mul_right _ h.below

theorem DivReady.div_lt (hlen : ws2.length < start1.length) :
    bigEndian digBase (dcarry :: start1.take (ws2.length + 1)) / bigEndian digBase (s0 :: ws2)
      < digBase := by
  rw [Nat.div_lt_iff_lt_mul (zero_lt_of_lt h.below), Nat.mul_comm]
  exact h.lt_mul hlen

/-- **A guess is right or one too large.** -/
theorem guessWord_spec (hlen : ws2.length < start1.length) :
    guessWord (s0 :: ws2) dcarry (start1.getD 0 0) (start1.getD 1 0) < digBase ∧
    bigEndian digBase (dcarry :: start1.take (ws2.length + 1)) / bigEndian digBase (s0 :: ws2)
      ≤ guessWord (s0 :: ws2) dcarry (start1.getD 0 0) (start1.getD 1 0) ∧
    guessWord (s0 :: ws2) dcarry (start1.getD 0 0) (start1.getD 1 0)
      ≤ bigEndian digBase (dcarry :: start1.take (ws2.length + 1))
          / bigEndian digBase (s0 :: ws2) + 1 := by
  have hdiv := h.div_lt hlen
  have hmul := h.lt_mul hlen
  obtain ⟨hs0, hws⟩ := forall_mem_cons.1 h.word_lt
  cases ws2 with
  | nil =>
    obtain ⟨x0, xs, rfl⟩ := exists_cons_of_length_pos hlen
    have hw : bigEndian digBase (dcarry :: (x0 :: xs).take 1) = x0 + dcarry * digBase := by
      simp [bigEndian_cons, Nat.add_comm]
    have hv : bigEndian digBase [s0] = s0 := by simp [bigEndian_cons]
    rw [length_nil, Nat.zero_add, hw, hv] at hdiv hmul ⊢
    rw [getD_cons_zero, guessWord_one h.first_pos hs0 (getD_lt h.left_lt 1) hmul]
    exact ⟨hdiv, le_rfl, Nat.le_succ _⟩
  | cons s1 ws2 =>
    obtain ⟨x0, y, xs, rfl⟩ : ∃ x0 y xs, start1 = x0 :: y :: xs := by
      match start1, hlen with
      | x0 :: y :: xs, _ => exact ⟨x0, y, xs, rfl⟩
    have hxs : (xs.take ws2.length).length = ws2.length := by
      simp only [length_cons] at hlen
      rw [List.length_take]
      omega
    have hw : bigEndian digBase (dcarry :: (x0 :: y :: xs).take (ws2.length + 1 + 1))
        = ((x0 + dcarry * digBase) * digBase + y) * digBase ^ ws2.length
          + bigEndian digBase (xs.take ws2.length) := by
      simp only [take_succ_cons, bigEndian_cons, length_cons, hxs]
      ring
    have hv : bigEndian digBase (s0 :: s1 :: ws2)
        = (s0 * digBase + s1) * digBase ^ ws2.length + bigEndian digBase ws2 := by
      simp only [bigEndian_cons, length_cons]
      ring
    have hS : digBase ≤ s0 * digBase + s1 :=
      (Nat.le_mul_of_pos_left _ h.first_pos).trans (Nat.le_add_right ..)
    have hxlt : bigEndian digBase (xs.take ws2.length) < digBase ^ ws2.length := by
      refine (bigEndian_lt one_lt_digBase fun w hw => h.left_lt w ?_).trans_eq
        (congrArg (digBase ^ ·) hxs)
      exact mem_cons_of_mem _ (mem_cons_of_mem _ (mem_of_mem_take hw))
    have hvlt : bigEndian digBase ws2 < digBase ^ ws2.length :=
      bigEndian_lt one_lt_digBase fun w hw => hws w (mem_cons_of_mem _ hw)
    obtain ⟨hge, hlt, hle⟩ := guessWord_two (y := y) h.first_pos hs0 s1 ws2 dcarry x0 rfl
    rw [getD_cons_zero, getD_cons_succ, getD_cons_zero]
    rw [length_cons, hw, hv] at hdiv ⊢
    refine ⟨hlt, ?_, ?_⟩
    · refine le_trans (le_min ?_ (Nat.le_sub_one_of_lt hdiv)) hge
      exact div_le_lead hxlt (zero_lt_of_lt (digBase_pos.trans_le hS))
    · refine lead_le_div_succ hvlt (hlt.le.trans hS) ?_
      exact (Nat.mul_le_mul_right _ hle).trans (Nat.div_mul_le_self ..)

/-- **A round divides.** It finds the word of the quotient and leaves the remainder in place. -/
theorem divStep_spec (hlen : ws2.length < start1.length) : (divStep (s0 :: ws2) dcarry start1).1
        = bigEndian digBase (dcarry :: start1.take (ws2.length + 1))
          / bigEndian digBase (s0 :: ws2) ∧
    ∃ words, (divStep (s0 :: ws2) dcarry start1).2 = words ++ start1.drop (ws2.length + 1) ∧
      words.length = ws2.length + 1 ∧ (∀ w ∈ words, w < digBase) ∧
      bigEndian digBase words = bigEndian digBase (dcarry :: start1.take (ws2.length + 1))
        % bigEndian digBase (s0 :: ws2) := by
  have hv : 0 < bigEndian digBase (s0 :: ws2) := zero_lt_of_lt h.below
  have htake : (start1.take (ws2.length + 1)).length = ws2.length + 1 := by
    rw [List.length_take]
    omega
  have hlt : ∀ w ∈ start1.take (ws2.length + 1), w < digBase :=
    fun w hw => h.left_lt w (mem_of_mem_take hw)
  rw [divStep]
  split
  · rename_i hshort
    obtain ⟨rfl, hx0⟩ := hshort
    obtain ⟨x0, xs, rfl⟩ := exists_cons_of_length_pos (zero_lt_of_lt hlen)
    have hless : bigEndian digBase (0 :: (x0 :: xs).take (ws2.length + 1))
        < bigEndian digBase (s0 :: ws2) := by
      have hxs : (xs.take ws2.length).length = ws2.length := by simpa using htake
      rw [bigEndian_cons, Nat.zero_mul, Nat.zero_add]
      exact bigEndian_lt_of_first one_lt_digBase hx0
        (fun w hw => hlt w (mem_cons_of_mem x0 hw)) hxs
    rw [div_eq_of_lt hless, Nat.mod_eq_of_lt hless]
    refine ⟨rfl, _, (take_append_drop ..).symm, htake, hlt, ?_⟩
    rw [bigEndian_cons, Nat.zero_mul, Nat.zero_add]
  · obtain ⟨hg, hge, hle⟩ := guessWord_spec h hlen
    have hrev : (start1.take (ws2.length + 1)).reverse.length = (s0 :: ws2).reverse.length := by
      simp [htake]
    obtain ⟨hwlt, -, hsub⟩ := ofDigits_zipCarry_sub (Dec1.subtracts_mulSub hg) hrev
      (fun w hw => hlt w (mem_reverse.1 hw))
      (fun w hw => h.word_lt w (mem_reverse.1 hw)) (Nat.zero_le _)
    have hlenz := length_zipCarry (Dec1.mulSub (guessWord (s0 :: ws2) dcarry
      (start1.getD 0 0) (start1.getD 1 0))) (c := 0) hrev
    have hlenv := hlenz.trans hrev
    have hvlt := (bigEndian_lt one_lt_digBase h.word_lt).le
    generalize guessWord (s0 :: ws2) dcarry (start1.getD 0 0) (start1.getD 1 0) = guess at *
    rw [length_cons] at hvlt
    rw [length_reverse, htake, Nat.add_zero] at hsub
    rw [length_reverse, htake] at hlenz
    rw [bigEndian_cons, htake] at hge hle ⊢
    simp only [length_cons] at hsub ⊢
    split
    · rename_i hback
      obtain ⟨halt, -, hadd⟩ := ofDigits_zipCarry_add Dec1.adds hlenv hwlt
        (fun w hw => h.word_lt w (mem_reverse.1 hw)) (Nat.zero_le 1)
      have hlena := (length_zipCarry Dec1.add (c := 0) hlenv).trans hlenz
      have hn := Nat.ofDigits_lt_base_pow_length one_lt_digBase hwlt
      have hn' := Nat.ofDigits_lt_base_pow_length one_lt_digBase halt
      rw [hlena] at hn'
      rw [hlenz] at hn hadd
      obtain ⟨hquot, hrest⟩ := rest_of_addBack hv hvlt hn hsub hle hback hn' hadd
      refine ⟨hquot, _, rfl, ?_, ?_, ?_⟩
      · rw [length_reverse, hlena]
      · exact fun w hw => halt w (mem_reverse.1 hw)
      · rw [bigEndian, reverse_reverse]
        exact hrest
    · rename_i hnlt
      obtain ⟨hquot, hrest⟩ := rest_of_sub hv hvlt hsub hge (Nat.not_lt.1 hnlt)
      refine ⟨hquot, _, rfl, ?_, ?_, ?_⟩
      · rw [length_reverse, hlenz]
      · exact fun w hw => hwlt w (mem_reverse.1 hw)
      · rw [bigEndian, reverse_reverse]
        exact hrest

end

end Step

/-! ## The main loop -/

theorem divLoop_succ (start2 : List ℕ) (n dcarry : ℕ) (start1 : List ℕ) :
    divLoop start2 (n + 1) dcarry start1 = (divStep start2 dcarry start1).1
      :: divLoop start2 n ((divStep start2 dcarry start1).2.getD 0 0)
        (divStep start2 dcarry start1).2.tail :=
  rfl

/-- The rounds that are left divide the words that are left. -/
theorem bigEndian_divLoop {s0 : ℕ} {ws2 : List ℕ} : ∀ (n : ℕ) {dcarry : ℕ} {start1 : List ℕ},
    DivReady s0 ws2 dcarry start1 → ws2.length + n ≤ start1.length →
    (divLoop (s0 :: ws2) n dcarry start1).length = n ∧
      bigEndian digBase (divLoop (s0 :: ws2) n dcarry start1)
        = bigEndian digBase (dcarry :: start1.take (ws2.length + n))
          / bigEndian digBase (s0 :: ws2)
  | 0, dcarry, start1, h, _ => by
      rw [divLoop, Nat.add_zero, div_eq_of_lt h.below]
      exact ⟨rfl, rfl⟩
  | n + 1, dcarry, start1, h, hlen => by
      obtain ⟨hquot, words, hleft, hwords, hlt, hrest⟩ := divStep_spec h (by omega)
      obtain ⟨w, ws, rfl⟩ := exists_cons_of_length_pos (by omega : 0 < words.length)
      have hws : ws.length = ws2.length := by simpa using hwords
      have hv : 0 < bigEndian digBase (s0 :: ws2) := zero_lt_of_lt h.below
      have hready : DivReady s0 ws2 w (ws ++ start1.drop (ws2.length + 1)) := by
        refine ⟨h.first_pos, h.word_lt, ?_, ?_⟩
        · refine forall_mem_append.2 ⟨(forall_mem_cons.1 hlt).2, fun u hu => ?_⟩
          exact h.left_lt u (mem_of_mem_drop hu)
        · rw [← hws, take_left, hrest]
          exact mod_lt _ hv
      obtain ⟨hlenl, ih⟩ := bigEndian_divLoop n hready (by
        rw [length_append, length_drop]
        omega)
      have hz : ((start1.drop (ws2.length + 1)).take n).length = n := by
        rw [List.length_take, length_drop]
        omega
      have htake : ∀ D : List ℕ, (ws ++ D).take (ws2.length + n) = ws ++ D.take n := fun D => by
        rw [← hws, take_length_add_append]
      rw [htake, ← cons_append, bigEndian_append, hrest, hz] at ih
      rw [divLoop_succ, hleft, cons_append, getD_cons_zero, tail_cons]
      refine ⟨by rw [length_cons, hlenl], ?_⟩
      have hsplit : start1.take (ws2.length + (n + 1))
          = start1.take (ws2.length + 1) ++ (start1.drop (ws2.length + 1)).take n := by
        rw [← take_add]
        congr 1
        omega
      rw [bigEndian_cons, hquot, hlenl, ih, hsplit, ← cons_append, bigEndian_append, hz]
      exact (div_append hv ..).symm

/-- **The words of the quotient** are those of a division of integers. The first word of the
dividend is taken together with the second if it is less than the divisor's. -/
theorem bigEndian_quotientWords {s0 : ℕ} {ws2 tmp1 : List ℕ} (n : ℕ) (hs0 : 0 < s0)
    (hws : ∀ w ∈ s0 :: ws2, w < digBase) (htmp : ∀ w ∈ tmp1, w < digBase)
    (hlen : ws2.length + n + (if tmp1.getD 0 0 < s0 then 1 else 0) ≤ tmp1.length) :
    (quotientWords (s0 :: ws2) tmp1 n).length = n ∧
      bigEndian digBase (quotientWords (s0 :: ws2) tmp1 n)
        = bigEndian digBase (tmp1.take (ws2.length + n + if tmp1.getD 0 0 < s0 then 1 else 0))
          / bigEndian digBase (s0 :: ws2) := by
  rw [quotientWords, getD_cons_zero]
  split at hlen
  · rename_i hfirst
    obtain ⟨w, ws, rfl⟩ := exists_cons_of_length_pos (by omega : 0 < tmp1.length)
    obtain ⟨-, hlt⟩ := forall_mem_cons.1 htmp
    rw [getD_cons_zero] at hfirst ⊢
    rw [if_pos hfirst, if_pos hfirst, tail_cons, take_succ_cons]
    refine bigEndian_divLoop n ⟨hs0, hws, hlt, ?_⟩ (by simpa using hlen)
    refine bigEndian_lt_of_first one_lt_digBase hfirst
      (fun x hx => hlt x (mem_of_mem_take hx)) ?_
    rw [List.length_take]
    rw [length_cons] at hlen
    omega
  · rename_i hfirst
    rw [if_neg hfirst, if_neg hfirst]
    have hready : DivReady s0 ws2 0 tmp1 := by
      refine ⟨hs0, hws, htmp, bigEndian_lt_of_first one_lt_digBase hs0
        (fun x hx => htmp x (mem_of_mem_take hx)) ?_⟩
      rw [List.length_take]
      omega
    obtain ⟨hn, hquot⟩ := bigEndian_divLoop n hready hlen
    refine ⟨hn, ?_⟩
    rw [hquot, bigEndian_cons, Nat.zero_mul, Nat.zero_add, Nat.add_zero]

/-! ## The operands -/

/-- **A valid decimal to divide**: its first word has no more digits than its integer part says. -/
structure ValidDecimal extends Decimal where
  first_lt : 0 < intg → buf.getD 0 0 < 10 ^ ((intg - 1) % digPerDec1 + 1) := by decide

/-- The words of an operand from its first one other than zero on. -/
structure Leading (ws : List ℕ) (prec n : ℕ) : Prop where
  pos : 0 < prec
  size_le : roundUp prec ≤ ws.length
  word_lt : ∀ w ∈ ws, w < digBase
  first_ne : ws.getD 0 0 ≠ 0
  first_lt : ws.getD 0 0 < 10 ^ ((prec - 1) % digPerDec1 + 1)
  value : bigEndian digBase (ws.take (roundUp prec)) = n

theorem digBase_eq : digBase = 10 ^ digPerDec1 := by
  norm_num [digBase, digPerDec1]

theorem skipZeroWords_spec : ∀ {ws : List ℕ} {prec i : ℕ},
    (0 < prec → (prec - 1) % digPerDec1 + 1 = i ∧ ws.getD 0 0 < 10 ^ i) →
    roundUp prec ≤ ws.length → (∀ w ∈ ws, w < digBase) →
    ((skipZeroWords ws prec i).2 = 0 ∧ bigEndian digBase (ws.take (roundUp prec)) = 0) ∨
      Leading (skipZeroWords ws prec i).1 (skipZeroWords ws prec i).2
        (bigEndian digBase (ws.take (roundUp prec)))
  | [], prec, i, _, hsize, _ => by
      refine .inl ⟨?_, by rw [take_nil, bigEndian_nil]⟩
      rw [roundUp_eq, length_nil] at hsize
      rw [skipZeroWords]
      omega
  | w :: ws, prec, i, hfirst, hsize, hlt => by
      rcases Nat.eq_zero_or_pos prec with rfl | hpos
      · exact .inl ⟨by simp [skipZeroWords], rfl⟩
      obtain ⟨hi, hw⟩ := hfirst hpos
      rw [skipZeroWords]
      split
      · rename_i hzero
        obtain ⟨-, rfl⟩ := hzero
        obtain ⟨-, hlt⟩ := forall_mem_cons.1 hlt
        rw [digPerDec1] at hi ⊢
        have hround : roundUp prec = roundUp (prec - i) + 1 := by
          rw [roundUp_eq, roundUp_eq]
          omega
        rw [hround, take_succ_cons, bigEndian_cons, Nat.zero_mul, Nat.zero_add]
        refine skipZeroWords_spec (fun hpos' => ⟨?_, ?_⟩) ?_ hlt
        · rw [digPerDec1]
          omega
        · exact (getD_lt hlt 0).trans_eq digBase_eq
        · rw [hround, length_cons] at hsize
          omega
      · rename_i hne
        have hw0 : w ≠ 0 := fun h => hne ⟨hpos, h⟩
        exact .inr ⟨hpos, hsize, hlt, hw0, hi ▸ hw, rfl⟩

/-- The first word has the digits that are left. -/
theorem skipZeroDigits_spec {w : ℕ} (hw : w ≠ 0) : ∀ (i a : ℕ), w < 10 ^ (i + 1) →
    ∃ j ≤ i, skipZeroDigits w i (digPerDec1 * a + i + 1) = digPerDec1 * a + j + 1 ∧
      10 ^ j ≤ w ∧ w < 10 ^ (j + 1)
  | 0, a, hlt => ⟨0, le_rfl, rfl, Nat.pos_of_ne_zero hw, hlt⟩
  | i + 1, a, hlt => by
      rw [skipZeroDigits]
      split
      · rename_i hless
        obtain ⟨j, hj, heq, hge, hlt⟩ := skipZeroDigits_spec hw i a hless
        exact ⟨j, hj.trans (Nat.le_succ i), heq, hge, hlt⟩
      · rename_i hge
        exact ⟨i + 1, le_rfl, rfl, Nat.not_lt.1 hge, hlt⟩

/-- The digits of the first word, and the words behind it. -/
theorem Leading.digits {ws : List ℕ} {prec n : ℕ} (h : Leading ws prec n) :
    ∃ w ws' j a, ws = w :: ws' ∧ roundUp prec = a + 1 ∧ a ≤ ws'.length ∧ j < digPerDec1 ∧
      skipZeroDigits (ws.getD 0 0) ((prec - 1) % digPerDec1) prec = digPerDec1 * a + j + 1 ∧
      10 ^ j ≤ w ∧ w < 10 ^ (j + 1) := by
  have hpos := h.pos
  have hsize := h.size_le
  have hne := h.first_ne
  have hprec : prec = digPerDec1 * ((prec - 1) / digPerDec1) + (prec - 1) % digPerDec1 + 1 := by
    rw [Nat.div_add_mod]
    omega
  have hwords : roundUp prec = (prec - 1) / digPerDec1 + 1 := by
    rw [roundUp_eq, digPerDec1]
    omega
  rw [hwords] at hsize
  obtain ⟨w, ws, rfl⟩ := exists_cons_of_length_pos (zero_lt_of_lt hsize)
  obtain ⟨j, hj, heq, hge, hlt⟩ := skipZeroDigits_spec hne ((prec - 1) % digPerDec1)
    ((prec - 1) / digPerDec1) h.first_lt
  rw [← hprec] at heq
  have hdig : (prec - 1) % digPerDec1 < digPerDec1 := mod_lt _ (by decide)
  exact ⟨w, ws, j, (prec - 1) / digPerDec1, rfl, hwords, Nat.le_of_succ_le_succ hsize, by omega,
    heq, hge, hlt⟩

/-- The words of an operand: the first one of so many digits, and so many words behind it. -/
structure DivOperand (d : DecimalT) (w : ℕ) (ws : List ℕ) (j a : ℕ) : Prop where
  eq : skipZeroes d = (w :: ws, digPerDec1 * a + j + 1)
  digits : j < digPerDec1
  le_first : 10 ^ j ≤ w
  first_lt : w < 10 ^ (j + 1)
  word_lt : ∀ x ∈ w :: ws, x < digBase
  size_le : a ≤ ws.length
  value : bigEndian digBase (w :: ws.take a) = ofDigits digBase d.down

/-- **Removing the leading zeroes** leaves nothing of zero, and otherwise a first word that is not.
-/
theorem skipZeroes_spec (d : ValidDecimal) :
    ((skipZeroes d.toDecimalT).2 = 0 ∧ ofDigits digBase d.down = 0) ∨
      ∃ w ws j a, DivOperand d.toDecimalT w ws j a := by
  have hround : roundUp (d.intg + roundUp d.frac * digPerDec1)
      = roundUp d.intg + roundUp d.frac := by
    simp only [roundUp_eq, digPerDec1]
    omega
  have hdown : bigEndian digBase (d.buf.take (roundUp d.intg + roundUp d.frac))
      = ofDigits digBase d.down := rfl
  have hspec := skipZeroWords_spec
    (i := (d.intg + roundUp d.frac * digPerDec1 - 1) % digPerDec1 + 1) (fun hpos => ⟨rfl, ?_⟩)
    (hround ▸ d.size_le) d.word_lt
  · rw [hround, hdown] at hspec
    rcases hr : skipZeroWords d.buf (d.intg + roundUp d.frac * digPerDec1)
      ((d.intg + roundUp d.frac * digPerDec1 - 1) % digPerDec1 + 1) with ⟨ws, prec⟩
    have hskip : skipZeroes d.toDecimalT = if prec = 0 then (ws, prec)
        else (ws, skipZeroDigits (ws.getD 0 0) ((prec - 1) % digPerDec1) prec) := by
      rw [skipZeroes]
      dsimp only
      rw [hr]
    rw [hr] at hspec
    rcases hspec with ⟨rfl, hval⟩ | hlead
    · exact .inl ⟨by rw [hskip, if_pos rfl], hval⟩
    · obtain ⟨w, ws, j, a, rfl, hwords, ha, hj, heq, hge, hlt⟩ := hlead.digits
      refine .inr ⟨w, ws, j, a, ?_, hj, hge, hlt, hlead.word_lt, ha, ?_⟩
      · rw [hskip, if_neg hlead.pos.ne', heq]
      · rw [← hlead.value, hwords, take_succ_cons]
  · rcases Nat.eq_zero_or_pos d.intg with hz | hintg
    · rw [hz, Nat.zero_add] at hpos ⊢
      rw [show (roundUp d.frac * digPerDec1 - 1) % digPerDec1 + 1 = digPerDec1 by
        rw [digPerDec1] at hpos ⊢; omega, ← digBase_eq]
      exact getD_lt d.word_lt 0
    · rw [show (d.intg + roundUp d.frac * digPerDec1 - 1) % digPerDec1 + 1
        = (d.intg - 1) % digPerDec1 + 1 by rw [digPerDec1]; omega]
      exact d.first_lt hintg

section Operands

variable {d : DecimalT} {w : ℕ} {ws : List ℕ} {j a : ℕ}

section

variable (h : DivOperand d w ws j a)

include h

theorem DivOperand.roundUp_eq : roundUp (digPerDec1 * a + j + 1) = a + 1 := by
  have hj := h.digits
  rw [EloqSql.roundUp_eq]
  rw [digPerDec1] at hj ⊢
  omega

theorem DivOperand.first_pos : 0 < w :=
  (Nat.pow_pos (by decide)).trans_le h.le_first

theorem DivOperand.length_take : (ws.take a).length = a := by
  rw [List.length_take, Nat.min_eq_left h.size_le]

theorem DivOperand.take_lt : ∀ x ∈ w :: ws.take a, x < digBase := by
  obtain ⟨hw, hws⟩ := forall_mem_cons.1 h.word_lt
  exact forall_mem_cons.2 ⟨hw, fun x hx => hws x (mem_of_mem_take hx)⟩

theorem DivOperand.value_lt : ofDigits digBase d.down < digBase ^ (a + 1) := by
  rw [← h.value, ← congrArg (· + 1) h.length_take]
  exact bigEndian_lt one_lt_digBase h.take_lt

/-- The divisor without the words of zeroes at its end. -/
theorem DivOperand.trimmedWords_eq :
    ∃ ws', trimmedWords (w :: ws) (digPerDec1 * a + j + 1) = w :: ws' ∧ ws'.length ≤ a ∧
      (∀ x ∈ w :: ws', x < digBase) ∧
      ofDigits digBase d.down = bigEndian digBase (w :: ws') * digBase ^ (a - ws'.length) := by
  obtain ⟨-, hle, -, hzero⟩ := wordsDown_trimmedStop (w :: ws) (Nat.zero_le (a + 1))
    (Nat.succ_le_succ h.size_le)
  have hval : ofDigits digBase (wordsDown (w :: ws) 0 (a + 1))
      = ofDigits digBase d.down := h.value
  rw [trimmedWords, h.roundUp_eq]
  rcases htrim : trimmedStop (w :: ws) 0 (a + 1) with _ | t
  · have hpos : 0 < bigEndian digBase (w :: ws.take a) := by
      rw [bigEndian_cons]
      exact Nat.add_pos_left (Nat.mul_pos h.first_pos (Nat.pow_pos digBase_pos)) _
    rw [htrim, hval, ← h.value, wordsDown_self, Nat.ofDigits_nil, Nat.mul_zero] at hzero
    omega
  · rw [htrim] at hle hzero
    have hta : t ≤ a := Nat.le_of_succ_le_succ hle
    have hlen : (ws.take t).length = t := by
      rw [List.length_take, Nat.min_eq_left (hta.trans h.size_le)]
    refine ⟨ws.take t, rfl, hlen.trans_le hta, ?_, ?_⟩
    · obtain ⟨hw, hws⟩ := forall_mem_cons.1 h.word_lt
      exact forall_mem_cons.2 ⟨hw, fun x hx => hws x (mem_of_mem_take hx)⟩
    · rw [← hval, hzero, hlen, Nat.add_sub_add_right, Nat.mul_comm]
      rfl

end

end Operands

/-- The words that are brought down make the quotient as long as it is wanted. -/
theorem div_take_eq {us : List ℕ} {zeros m x y v : ℕ} (hus : ∀ u ∈ us, u < digBase)
    (hm : m ≤ us.length + zeros) (hxy : m + y = x + us.length) :
    bigEndian digBase ((us ++ replicate zeros 0).take m) / v
      = bigEndian digBase us * digBase ^ x / (v * digBase ^ y) := by
  rcases Nat.le_total us.length m with hle | hle
  · obtain ⟨t, rfl⟩ := Nat.exists_eq_add_of_le hle
    obtain rfl : x = t + y := by omega
    rw [take_length_add_append, take_replicate, Nat.min_eq_left (by omega),
      bigEndian_append, bigEndian_replicate_zero, length_replicate, Nat.add_zero, pow_add,
      ← Nat.mul_assoc, Nat.mul_div_mul_right _ _ (Nat.pow_pos digBase_pos)]
  · obtain ⟨t, ht⟩ := Nat.exists_eq_add_of_le hle
    obtain rfl : y = t + x := by omega
    have hlow : bigEndian digBase (us.drop m) < digBase ^ t := by
      refine (bigEndian_lt one_lt_digBase fun u hu => hus u (mem_of_mem_drop hu)).trans_eq ?_
      rw [length_drop, show us.length - m = t by omega]
    have hsplit : bigEndian digBase us
        = bigEndian digBase (us.take m) * digBase ^ t + bigEndian digBase (us.drop m) := by
      conv_lhs => rw [← take_append_drop m us]
      rw [bigEndian_append, length_drop, show us.length - m = t by omega]
    rw [take_append_of_le_length hle, pow_add, ← Nat.mul_assoc,
      Nat.mul_div_mul_right _ _ (Nat.pow_pos digBase_pos), Nat.mul_comm v,
      ← Nat.div_div_eq_div_mul, hsplit, Nat.mul_comm _ (digBase ^ t),
      Nat.mul_add_div (Nat.pow_pos digBase_pos), div_eq_of_lt hlow, Nat.add_zero]

/-- The words of the integer part, from the digits that `do_div_mod` counts. -/
theorem dintg_words {t : ℤ} {j1 j2 w1 w2 : ℕ} (hj1 : j1 < digPerDec1) (hj2 : j2 < digPerDec1)
    (hge1 : 10 ^ j1 ≤ w1) (hlt1 : w1 < 10 ^ (j1 + 1)) (hge2 : 10 ^ j2 ≤ w2)
    (hlt2 : w2 < 10 ^ (j2 + 1)) {dintg : ℤ}
    (hd : dintg = digPerDec1 * t + j1 - j2 + if w1 ≥ w2 then 1 else 0) :
    (dintg < 0 → dintg.tdiv digPerDec1 = t + if w1 ≥ w2 then 1 else 0) ∧
      (0 ≤ dintg → (roundUp dintg.toNat : ℤ) = t + if w1 ≥ w2 then 1 else 0) := by
  have hle : w1 ≥ w2 → j2 ≤ j1 := fun h =>
    Nat.le_of_lt_succ ((Nat.pow_lt_pow_iff_right (by decide)).1 (hge2.trans_lt (h.trans_lt hlt1)))
  have hle' : ¬w1 ≥ w2 → j1 ≤ j2 := fun h => Nat.le_of_lt_succ ((Nat.pow_lt_pow_iff_right
    (by decide)).1 (hge1.trans_lt ((Nat.not_le.1 h).trans hlt2)))
  rw [digPerDec1] at *
  constructor
  · intro hneg
    rw [show dintg = -(-dintg) by omega, Int.neg_tdiv, Int.tdiv_eq_ediv_of_nonneg (by omega)]
    split at hd
    · rename_i h
      have := hle h
      rw [if_pos h]
      omega
    · rename_i h
      have := hle' h
      rw [if_neg h]
      omega
  · intro hpos
    rw [EloqSql.roundUp_eq]
    split at hd
    · rename_i h
      have := hle h
      rw [if_pos h]
      omega
    · rename_i h
      have := hle' h
      rw [if_neg h]
      omega

/-! ## Division -/

section Division

variable {d1 d2 : DecimalT} {w1 w2 j1 j2 a1 a2 : ℕ} {ws1 ws2 : List ℕ}

/-- The words of the integer part of the quotient; below zero, the words of zeroes that the fraction
starts with. -/
def quotientIntg (d1 d2 : DecimalT) (w1 w2 a1 a2 : ℕ) : ℤ :=
  (a1 - roundUp d1.frac) - (a2 - roundUp d2.frac) + if w1 ≥ w2 then 1 else 0

section

variable (h1 : DivOperand d1 w1 ws1 j1 a1)

include h1

/-- **The words of the quotient** are the quotient of both operands as integers, with the fraction
that is wanted. All words that are brought down are within `tmp1`. -/
theorem quotientWords_eq (h2 : DivOperand d2 w2 ws2 j2 a2)
    {n frac0 s : ℕ} (hfrac : frac0 = roundUp d1.frac + roundUp d2.frac + roundUp s)
    (hn : (n : ℤ) = quotientIntg d1 d2 w1 w2 a1 a2 + frac0) {words : List ℕ}
    (hwords : words = quotientWords (trimmedWords (w2 :: ws2) (digPerDec1 * a2 + j2 + 1))
      (dividend (w1 :: ws1) (digPerDec1 * a1 + j1 + 1) (roundUp d2.frac * digPerDec1) s) n) :
    words.length = n ∧ bigEndian digBase words
      = ofDigits digBase d1.down * digBase ^ (roundUp d2.frac + frac0)
        / (ofDigits digBase d2.down * digBase ^ roundUp d1.frac) := by
  obtain ⟨ws2', htrim, hle2, hlt2, hval2⟩ := h2.trimmedWords_eq
  have hround : 2 * roundUp d2.frac + roundUp s
      ≤ roundUp (2 * (roundUp d2.frac * digPerDec1) + s + 1) := by
    rw [roundUp_eq s, roundUp_eq (_ + 1), digPerDec1]
    omega
  rw [quotientIntg] at hn
  have hfirst : (dividend (w1 :: ws1) (digPerDec1 * a1 + j1 + 1) (roundUp d2.frac * digPerDec1) s)
      = (w1 :: ws1.take a1) ++ replicate (max (a1 + 1 + roundUp
          (2 * (roundUp d2.frac * digPerDec1) + s + 1) + 1) 3 - (a1 + 1)) 0 := by
    rw [dividend, h1.roundUp_eq]
    rfl
  have hlenU : (w1 :: ws1.take a1).length = a1 + 1 := congrArg (· + 1) h1.length_take
  generalize hz : max (a1 + 1 + roundUp (2 * (roundUp d2.frac * digPerDec1) + s + 1) + 1) 3
    - (a1 + 1) = zeros at hfirst
  rw [htrim, hfirst] at hwords
  have hget : ((w1 :: ws1.take a1) ++ replicate zeros 0).getD 0 0 = w1 := rfl
  have hlen : ws2'.length + n + (if w1 < w2 then 1 else 0) ≤ a1 + 1 + zeros := by
    split at hn <;> split <;> omega
  have hwlt : ∀ x ∈ (w1 :: ws1.take a1) ++ replicate zeros 0, x < digBase :=
    forall_mem_append.2 ⟨h1.take_lt, fun x hx =>
      (eq_of_mem_replicate hx).trans_lt digBase_pos⟩
  obtain ⟨hlenw, hquot⟩ := bigEndian_quotientWords n h2.first_pos hlt2 hwlt (by
    rw [hget, length_append, hlenU, length_replicate]
    exact hlen)
  rw [hget] at hquot
  rw [hwords]
  refine ⟨hlenw, ?_⟩
  rw [hquot, div_take_eq (x := roundUp d2.frac + frac0)
    (y := a2 - ws2'.length + roundUp d1.frac) h1.take_lt (by rwa [hlenU]), h1.value, hval2,
    pow_add _ (a2 - _), Nat.mul_assoc]
  rw [hlenU]
  split at hn <;> split <;> omega

/-- A quotient that starts behind the wanted fraction is zero there. -/
theorem quotient_eq_zero (h2 : DivOperand d2 w2 ws2 j2 a2)
    {frac0 : ℕ} (hn : quotientIntg d1 d2 w1 w2 a1 a2 + frac0 < 0) :
    ofDigits digBase d1.down * digBase ^ (roundUp d2.frac + frac0)
      / (ofDigits digBase d2.down * digBase ^ roundUp d1.frac) = 0 := by
  have hle : digBase ^ a2 ≤ ofDigits digBase d2.down := by
    rw [← h2.value, bigEndian_cons, h2.length_take]
    exact (Nat.le_mul_of_pos_left _ h2.first_pos).trans (Nat.le_add_right ..)
  refine div_eq_of_lt ?_
  calc ofDigits digBase d1.down * digBase ^ (roundUp d2.frac + frac0)
      < digBase ^ (a1 + 1) * digBase ^ (roundUp d2.frac + frac0) :=
        Nat.mul_lt_mul_of_pos_right h1.value_lt (Nat.pow_pos digBase_pos)
    _ = digBase ^ (a1 + 1 + (roundUp d2.frac + frac0)) := (pow_add ..).symm
    _ ≤ digBase ^ (a2 + roundUp d1.frac) := by
        refine Nat.pow_le_pow_right digBase_pos ?_
        rw [quotientIntg] at hn
        split at hn <;> omega
    _ = digBase ^ a2 * digBase ^ roundUp d1.frac := pow_add ..
    _ ≤ ofDigits digBase d2.down * digBase ^ roundUp d1.frac := Nat.mul_le_mul_right _ hle

/-- The digits of the integer part that `do_div_mod` counts. -/
theorem dintg_eq (h2 : DivOperand d2 w2 ws2 j2 a2) {dintg : ℤ}
    (hd : dintg = (((digPerDec1 * a1 + j1 + 1 : ℕ) : ℤ) - (roundUp d1.frac * digPerDec1 : ℕ))
      - ((digPerDec1 * a2 + j2 + 1 : ℕ) - (roundUp d2.frac * digPerDec1 : ℕ))
      + if w1 ≥ w2 then 1 else 0) :
    (dintg < 0 → dintg.tdiv digPerDec1 = quotientIntg d1 d2 w1 w2 a1 a2) ∧
      (0 ≤ dintg → (roundUp dintg.toNat : ℤ) = quotientIntg d1 d2 w1 w2 a1 a2) := by
  refine dintg_words h1.digits h2.digits h1.le_first h1.first_lt h2.le_first h2.first_lt ?_
  rw [hd]
  push_cast
  ring

/-- **The words of a division that succeeds.** -/
theorem decimalDiv_words (h2 : DivOperand d2 w2 ws2 j2 a2)
    {to' : DecimalT} {len : ℕ} {scaleIncr : ℤ}
    (hok : (decimalDiv d1 d2 to' len scaleIncr).1 = .ok) :
    ∃ intg0 frac0 buf, (decimalDiv d1 d2 to' len scaleIncr).2
        = ⟨d1.sign != d2.sign, intg0 * digPerDec1, frac0 * digPerDec1, buf⟩ ∧
      bigEndian digBase (buf.take (intg0 + frac0))
        = ofDigits digBase d1.down * digBase ^ (roundUp d2.frac + frac0)
          / (ofDigits digBase d2.down * digBase ^ roundUp d1.frac) := by
  rw [decimalDiv, h1.eq, h2.eq] at hok ⊢
  dsimp only at hok ⊢
  rw [if_neg (Nat.succ_ne_zero _), if_neg (Nat.succ_ne_zero _)] at hok ⊢
  rw [getD_cons_zero, getD_cons_zero] at hok ⊢
  generalize hs : (scaleIncr - _).toNat = s at hok ⊢
  generalize hd : (((digPerDec1 * a1 + j1 + 1 : ℕ) : ℤ) - (roundUp d1.frac * digPerDec1 : ℕ))
      - ((digPerDec1 * a2 + j2 + 1 : ℕ) - (roundUp d2.frac * digPerDec1 : ℕ))
      + (if w1 ≥ w2 then 1 else 0) = dintg at hok ⊢
  obtain ⟨hneg, hpos⟩ := dintg_eq h1 h2 hd.symm
  have hfrac : roundUp (roundUp d1.frac * digPerDec1 + roundUp d2.frac * digPerDec1 + s)
      = roundUp d1.frac + roundUp d2.frac + roundUp s := by
    rw [roundUp_eq (_ + s), roundUp_eq s, digPerDec1]
    omega
  rw [hfrac] at hok ⊢
  have hfits : (if dintg < 0 then 0 else roundUp dintg.toNat)
      + (roundUp d1.frac + roundUp d2.frac + roundUp s) ≤ len := fixIntgFracError_ok.1 hok
  rw [fixIntgFracError_of_le hfits]
  refine ⟨_, _, _, rfl, ?_⟩
  dsimp only
  generalize hfrac0 : roundUp d1.frac + roundUp d2.frac + roundUp s = frac0 at hfits ⊢
  generalize hwords : quotientWords _ _ _ = words
  by_cases hd0 : dintg < 0
  · have hk := hneg hd0
    have hk0 : quotientIntg d1 d2 w1 w2 a1 a2 ≤ 0 := by
      rw [← hk, ← neg_neg dintg, Int.neg_tdiv, neg_nonpos]
      exact Int.tdiv_nonneg (by omega) (by decide)
    rw [if_pos hd0] at hfits hwords ⊢
    rw [if_pos hd0, hk] at hwords ⊢
    rw [Nat.zero_add] at hfits hwords ⊢
    rcases lt_or_ge (quotientIntg d1 d2 w1 w2 a1 a2 + frac0) 0 with hbehind | hin
    · -- the quotient starts behind the last word, and all words are those of zeroes
      rw [show frac0 - min (-quotientIntg d1 d2 w1 w2 a1 a2).toNat len = 0 by omega] at hwords
      have hnil : words = [] := by
        rw [← hwords, quotientWords]
        split <;> rfl
      rw [quotient_eq_zero h1 h2 hbehind, hnil, append_nil, take_replicate,
        bigEndian_replicate_zero]
    · obtain ⟨hlen, hquot⟩ := quotientWords_eq h1 h2 hfrac0.symm (by omega) hwords.symm
      rw [← hquot, take_of_length_le, bigEndian_append, bigEndian_replicate_zero, Nat.zero_mul,
        Nat.zero_add]
      rw [length_append, length_replicate, hlen]
      omega
  · have hk := hpos (Int.not_lt.1 hd0)
    rw [if_neg hd0] at hfits hwords ⊢
    rw [if_neg hd0, show min (-dintg).toNat len = 0 by omega, Nat.sub_zero] at hwords
    rw [if_neg hd0, show min (-dintg).toNat len = 0 by omega]
    obtain ⟨hlen, hquot⟩ := quotientWords_eq h1 h2 hfrac0.symm (by rw [← hk]; push_cast; rfl)
      hwords.symm
    rw [replicate_zero, nil_append, ← hquot, take_of_length_le hlen.le]

end

end Division

theorem Decimal.abs_value (d : Decimal) : |d.value| = d.magnitude := by
  rw [DecimalT.value]
  split
  · rw [abs_neg, abs_of_nonneg d.magnitude_nonneg]
  · exact abs_of_nonneg d.magnitude_nonneg

/-- The quotient of two decimals, as that of their words. -/
theorem magnitude_div (d1 d2 : DecimalT) (n : ℕ) :
    d1.magnitude / d2.magnitude * (digBase : ℚ) ^ n
      = ((ofDigits digBase d1.down * digBase ^ (roundUp d2.frac + n) : ℕ) : ℚ)
        / ((ofDigits digBase d2.down * digBase ^ roundUp d1.frac : ℕ) : ℚ) := by
  have hbase : (digBase : ℚ) ≠ 0 := by
    exact_mod_cast digBase_pos.ne'
  rw [DecimalT.magnitude, DecimalT.magnitude]
  push_cast
  rw [pow_add]
  field_simp

/-- **Division is right to the last stored digit.** If `decimal_div` succeeds, the quotient is
`|from1 / from2|` cut off behind its fraction digits, with the product of the signs unless it is
zero. A divisor of zero is an error. -/
theorem decimalDiv_truncates (from1 from2 : ValidDecimal) (to' : DecimalT) (len : ℕ)
    (scaleIncr : ℤ)
    (hok : (decimalDiv from1.toDecimalT from2.toDecimalT to' len scaleIncr).1 = .ok) :
    (decimalDiv from1.toDecimalT from2.toDecimalT to' len scaleIncr).2.magnitude
        = (⌊|from1.value / from2.value| * 10 ^
            (decimalDiv from1.toDecimalT from2.toDecimalT to' len scaleIncr).2.frac⌋₊ : ℚ)
          / 10 ^ (decimalDiv from1.toDecimalT from2.toDecimalT to' len scaleIncr).2.frac ∧
      ((decimalDiv from1.toDecimalT from2.toDecimalT to' len scaleIncr).2.sign
          = (from1.sign ^^ from2.sign) ∨
        (decimalDiv from1.toDecimalT from2.toDecimalT to' len scaleIncr).2.magnitude = 0) := by
  rw [abs_div, Decimal.abs_value, Decimal.abs_value]
  rcases skipZeroes_spec from2 with ⟨hzero, -⟩ | ⟨w2, ws2, j2, a2, h2⟩
  · rw [decimalDiv] at hok
    dsimp only at hok
    rw [if_pos hzero] at hok
    exact nomatch hok
  rcases skipZeroes_spec from1 with ⟨hzero, hdown⟩ | ⟨w1, ws1, j1, a1, h1⟩
  · have heq : decimalDiv from1.toDecimalT from2.toDecimalT to' len scaleIncr
        = (.ok, decimalMakeZero) := by
      rw [decimalDiv, h2.eq]
      dsimp only
      rw [if_neg (Nat.succ_ne_zero _), if_pos hzero]
    have hmag : decimalMakeZero.magnitude = 0 := by decide +kernel
    rw [heq]
    refine ⟨?_, .inr hmag⟩
    rw [hmag, DecimalT.magnitude, hdown]
    simp
  · obtain ⟨intg0, frac0, buf, heq, hval⟩ := decimalDiv_words h1 h2 hok
    rw [heq]
    refine ⟨?_, .inl (congrFun₂ Bool.bne_eq_xor _ _)⟩
    have hpow : (10 : ℚ) ^ (frac0 * digPerDec1) = (digBase : ℚ) ^ frac0 := by
      rw [Nat.mul_comm, pow_mul, digBase_eq]
      push_cast
      rfl
    have hdown : DecimalT.down ⟨from1.sign != from2.sign, intg0 * digPerDec1,
        frac0 * digPerDec1, buf⟩ = (buf.take (intg0 + frac0)).reverse := by
      rw [DecimalT.down, roundUp_mul, roundUp_mul]
      rfl
    dsimp only
    rw [hpow, magnitude_div, Nat.floor_div_eq_div, ← hval, DecimalT.magnitude, hdown, roundUp_mul]
    rfl

/-- `-10`. -/
def minusTen : ValidDecimal where
  sign := true
  intg := 2
  frac := 0
  buf := [10]

/-- `3.000000001`. -/
def threeAndABit : ValidDecimal where
  sign := false
  intg := 1
  frac := 9
  buf := [3, 1]

theorem decimalDiv_minusTen :
    decimalDiv minusTen.toDecimalT threeAndABit.toDecimalT decimalMakeZero 9 4
        = (.ok, ⟨true, 9, 18, [3, 333333332, 222222222]⟩) ∧
      (decimalDiv minusTen.toDecimalT threeAndABit.toDecimalT decimalMakeZero 9 4).2.magnitude
        = (⌊|minusTen.value / threeAndABit.value| * 10 ^ (decimalDiv minusTen.toDecimalT
            threeAndABit.toDecimalT decimalMakeZero 9 4).2.frac⌋₊ : ℚ)
          / 10 ^
            (decimalDiv minusTen.toDecimalT threeAndABit.toDecimalT decimalMakeZero 9 4).2.frac :=
  ⟨by decide +kernel, (decimalDiv_truncates minusTen threeAndABit decimalMakeZero 9 4
    (by decide +kernel)).1⟩

end EloqSql
