import Mathlib.Data.List.TakeWhile
import Mathlib.Data.Sign.Basic
import EloqSql.Decimal.Arith

/-!
# Decimal/Sub — differences and comparisons are exact

`do_sub` compares the operands before it subtracts: zero words are stripped from both ends, the
longer integer part is the greater one, and between equal ones the first word that differs decides
(`compareOperands_spec`). The greater operand comes first then, so long subtraction
(`ofDigits_zipCarry_sub`) ends without a borrow (`ofDigits_subWords`). `decimal_cmp` stops after the
comparison.
-/

namespace EloqSql

open Numeral List
open Nat (ofDigits ofDigits_append)
open DecimalT (down value)

/-! ## The parts of `do_sub` -/

section SubWords

/-- The borrow is taken from the words that are left. -/
theorem ofDigits_borrowLoop : ∀ {ws : List ℕ} {c : ℕ}, (∀ w ∈ ws, w < digBase) → c ≤ 1 →
    (borrowLoop ws c).length = ws.length ∧ (∀ w ∈ borrowLoop ws c, w < digBase) ∧
      ∃ c', ofDigits digBase (borrowLoop ws c) + c
        = ofDigits digBase ws + digBase ^ ws.length * c'
  | [], c, _, _ => ⟨rfl, fun _ hw => (nomatch hw), c, by simp [borrowLoop]⟩
  | w :: ws, c, h, hc => by
      obtain ⟨hw, hws⟩ := forall_mem_cons.1 h
      rw [borrowLoop]
      split
      · obtain ⟨hlt, hc', hsub⟩ := Dec1.subtracts w 0 c hw digBase_pos hc
        obtain ⟨hlen, hmem, c', ih⟩ := ofDigits_borrowLoop hws hc'
        refine ⟨by simp [hlen], forall_mem_cons.2 ⟨hlt, hmem⟩, c', ?_⟩
        simp only [Nat.ofDigits_cons, length_cons, pow_succ]
        zify at hsub ih ⊢
        linear_combination hsub + (digBase : ℤ) * ih
      · rename_i hzero
        obtain rfl : c = 0 := by omega
        exact ⟨rfl, h, 0, by simp⟩

/-- Parts two and three of `do_sub`: a number is taken from a longer one. -/
theorem ofDigits_subTail {us vs : List ℕ} {c : ℕ} (hu : ∀ w ∈ us, w < digBase)
    (hv : ∀ w ∈ vs, w < digBase) (hlen : vs.length ≤ us.length) (hc : c ≤ 1) {ws : List ℕ}
    (hws : ws = (zipCarry Dec1.sub us vs c).1
      ++ borrowLoop (us.drop vs.length) (zipCarry Dec1.sub us vs c).2) :
    ws.length = us.length ∧ (∀ w ∈ ws, w < digBase) ∧
      ∃ c', ofDigits digBase ws + ofDigits digBase vs + c
        = ofDigits digBase us + digBase ^ us.length * c' := by
  have htake : (us.take vs.length).length = vs.length := by
    rw [length_take, Nat.min_eq_left hlen]
  have hzip : zipCarry Dec1.sub us vs c = zipCarry Dec1.sub (us.take vs.length) vs c := by
    conv_lhs => rw [← take_append_drop vs.length us]
    exact zipCarry_append_left _ htake
  obtain ⟨hlt, hc', hsub⟩ := ofDigits_zipCarry_sub Dec1.subtracts htake
    (fun w hw => hu w (mem_of_mem_take hw)) hv hc
  obtain ⟨hlenb, hltb, c', hborrow⟩ := ofDigits_borrowLoop
    (fun w hw => hu w (mem_of_mem_drop hw)) hc'
  have hlenz := length_zipCarry Dec1.sub (c := c) htake
  have hus : ofDigits digBase us = ofDigits digBase (us.take vs.length)
      + digBase ^ vs.length * ofDigits digBase (us.drop vs.length) := by
    conv_lhs => rw [← take_append_drop vs.length us, ofDigits_append, htake]
  rw [hzip] at hws
  subst hws
  refine ⟨?_, ?_, c', ?_⟩
  · rw [length_append, hlenz, hlenb, htake, length_drop]
    omega
  · exact forall_mem_append.2 ⟨hlt, hltb⟩
  · rw [ofDigits_append, hlenz, htake, hus,
      show us.length = vs.length + (us.drop vs.length).length by rw [length_drop]; omega,
      pow_add]
    rw [htake] at hsub
    zify at hsub hborrow ⊢
    linear_combination hsub + (digBase : ℤ) ^ vs.length * hborrow

/-- An operand within its buffer and within `frac0` words of fraction. -/
structure SubOperand.Fits (a : SubOperand) (frac0 : ℕ) : Prop where
  word_lt : ∀ w ∈ a.buf, w < digBase
  neg_le : -(a.intg : ℤ) ≤ a.frac
  le_frac0 : a.frac ≤ frac0
  size_le : a.start + a.intg + a.frac ≤ a.buf.length

/-- The number of an operand, with `frac0` words of fraction. -/
def SubOperand.aligned (a : SubOperand) (frac0 : ℕ) : ℕ :=
  digBase ^ (frac0 - a.frac).toNat * ofDigits digBase (a.down (-a.intg) a.frac)

namespace SubOperand

variable {a b : SubOperand} {frac0 : ℕ} {lo mid hi : ℤ}

theorem down_append (h : lo ≤ mid) (h' : mid ≤ hi) :
    a.down lo hi = a.down mid hi ++ a.down lo mid :=
  wordsDown_append (by omega) (by omega)

theorem Fits.length_down (ha : a.Fits frac0) (hlo : -(a.intg : ℤ) ≤ lo) (hhi : hi ≤ a.frac) :
    (a.down lo hi).length = (hi - lo).toNat := by
  have := ha.size_le
  rw [down, length_wordsDown (by omega)]
  omega

theorem Fits.down_lt (ha : a.Fits frac0) : ∀ w ∈ a.down lo hi, w < digBase :=
  wordsDown_lt ha.word_lt

/-- A last borrow would leave more than there is. -/
theorem borrow_eq_zero {out m n c e : ℕ} (h : out + n = m + digBase ^ e * c)
    (hout : out < digBase ^ e) (hle : n ≤ m) : c = 0 := by
  by_contra hc
  have := Nat.le_mul_of_pos_right (digBase ^ e) (Nat.pos_of_ne_zero hc)
  omega

/-- The number of an operand, split behind the shorter fraction. -/
theorem aligned_eq (ha : a.Fits frac0) {frac : ℤ} (hlo : -(a.intg : ℤ) ≤ frac)
    (hhi : frac ≤ a.frac) :
    a.aligned frac0 = digBase ^ (frac0 - a.frac).toNat * ofDigits digBase (a.down frac a.frac)
      + digBase ^ (frac0 - frac).toNat * ofDigits digBase (a.down (-a.intg) frac) := by
  have hle := ha.le_frac0
  rw [aligned, down_append hlo hhi, ofDigits_append, ha.length_down hlo le_rfl, Nat.mul_add,
    ← Nat.mul_assoc, ← pow_add, show (frac0 - a.frac).toNat + (a.frac - frac).toNat
      = (frac0 - frac).toNat by omega]

/-- **The first part is the difference of what is behind the shorter fraction.** -/
theorem ofDigits_subPart1 (ha : a.Fits frac0) (hb : b.Fits frac0) (hintg : b.intg ≤ a.intg)
    (hfrac : -(b.intg : ℤ) ≤ a.frac) :
    (subPart1 a b frac0).1.length = (frac0 - min a.frac b.frac).toNat ∧
    (∀ w ∈ (subPart1 a b frac0).1, w < digBase) ∧ (subPart1 a b frac0).2 ≤ 1 ∧
    ofDigits digBase (subPart1 a b frac0).1 + b.aligned frac0
        + digBase ^ (frac0 - min a.frac b.frac).toNat
          * ofDigits digBase (a.down (-a.intg) (min a.frac b.frac))
      = a.aligned frac0 + digBase ^ (frac0 - min a.frac b.frac).toNat
          * (ofDigits digBase (b.down (-b.intg) (min a.frac b.frac))
            + (subPart1 a b frac0).2) := by
  have hneg := ha.neg_le
  have hneg' := hb.neg_le
  have hle0 := ha.le_frac0
  have hle0' := hb.le_frac0
  have hzeros : ∀ n, ∀ w ∈ replicate n 0, w < digBase := fun n w hw =>
    (eq_of_mem_replicate hw).trans_lt digBase_pos
  rw [subPart1]
  split
  · rename_i hgt
    have hmin : min a.frac b.frac = b.frac := by omega
    refine ⟨?_, forall_mem_append.2 ⟨hzeros _, ha.down_lt⟩, Nat.zero_le _, ?_⟩
    · rw [length_append, length_replicate, ha.length_down (by omega) le_rfl, hmin]
      omega
    · rw [hmin, aligned_eq ha (by omega) hgt.le, aligned_eq hb hneg' le_rfl, ofDigits_append,
        Nat.ofDigits_replicate_zero, length_replicate]
      simp [SubOperand.down]
      ring
  · rename_i hle
    have hmin : min a.frac b.frac = a.frac := by omega
    have hlenQ := hb.length_down hfrac le_rfl
    have hlenZ : (replicate (b.frac - a.frac).toNat 0).length
        = (b.down a.frac b.frac).length := by rw [hlenQ, length_replicate]
    dsimp only
    rw [hlenQ]
    obtain ⟨hlt, hc, hsub⟩ := ofDigits_zipCarry_sub Dec1.subtracts hlenZ (hzeros _)
      hb.down_lt (Nat.zero_le 1)
    refine ⟨?_, forall_mem_append.2 ⟨hzeros _, hlt⟩, hc, ?_⟩
    · rw [length_append, length_replicate, length_zipCarry _ hlenZ, length_replicate,
        hmin]
      omega
    · rw [length_replicate, Nat.ofDigits_replicate_zero] at hsub
      rw [hmin, aligned_eq hb hfrac (Int.not_lt.1 hle), aligned_eq ha hneg le_rfl,
        ofDigits_append, Nat.ofDigits_replicate_zero, length_replicate,
        show (frac0 - a.frac).toNat = (frac0 - b.frac).toNat + (b.frac - a.frac).toNat by omega,
        pow_add]
      simp only [SubOperand.down, wordsDown_self, Nat.ofDigits_nil] at hsub ⊢
      zify at hsub ⊢
      linear_combination (digBase : ℤ) ^ (frac0 - b.frac).toNat * hsub

/-- **The parts of `do_sub` make up the difference of the operands.** -/
theorem ofDigits_subWords (ha : a.Fits frac0) (hb : b.Fits frac0) (hintg : b.intg ≤ a.intg)
    (hfrac : -(b.intg : ℤ) ≤ a.frac) (hle : b.aligned frac0 ≤ a.aligned frac0) :
    (subWords a b frac0).length = a.intg + frac0 ∧
      ofDigits digBase (subWords a b frac0) + b.aligned frac0 = a.aligned frac0 := by
  have hneg := ha.neg_le
  have hneg' := hb.neg_le
  have hle0 := ha.le_frac0
  have hle0' := hb.le_frac0
  obtain ⟨hlen1, hlt1, hc, hpart1⟩ := ofDigits_subPart1 ha hb hintg hfrac
  have hlenU := ha.length_down le_rfl (Int.min_le_left a.frac b.frac)
  have hlenV := hb.length_down le_rfl (Int.min_le_right a.frac b.frac)
  simp only [subWords]
  generalize hws : (zipCarry Dec1.sub (a.down (-a.intg) (min a.frac b.frac))
    (b.down (-b.intg) (min a.frac b.frac)) (subPart1 a b frac0).2).1 ++ borrowLoop _ _ = ws
  obtain ⟨hlen2, hlt2, c', htail⟩ := ofDigits_subTail ha.down_lt hb.down_lt (by omega) hc hws.symm
  have hlen : ((subPart1 a b frac0).1 ++ ws).length = a.intg + frac0 := by
    rw [length_append, hlen1, hlen2, hlenU]
    omega
  rw [hlen, Nat.sub_self, replicate_zero, append_nil]
  refine ⟨hlen, ?_⟩
  have hout := Nat.ofDigits_lt_base_pow_length one_lt_digBase
    (forall_mem_append.2 ⟨hlt1, hlt2⟩)
  have heq : ofDigits digBase ((subPart1 a b frac0).1 ++ ws) + b.aligned frac0
      = a.aligned frac0 + digBase ^ ((subPart1 a b frac0).1 ++ ws).length * c' := by
    rw [ofDigits_append, length_append, hlen1, hlen2, pow_add]
    zify at hpart1 htail ⊢
    linear_combination hpart1 + (digBase : ℤ) ^ (frac0 - min a.frac b.frac).toNat * htail
  rw [borrow_eq_zero heq hout hle, Nat.mul_zero, Nat.add_zero] at heq
  exact heq

end SubOperand

end SubWords

/-! ## Zero words at both ends -/

section Strip

variable (buf : List ℕ) (start stop : ℕ)

theorem leadingZeros_le : leadingZeros buf stop ≤ stop :=
  (( takeWhile_prefix _).length_le.trans (length_take_le ..))

/-- The words that `do_sub` skips are zero. -/
theorem wordsDown_leadingZeros :
    wordsDown buf 0 (leadingZeros buf stop) = replicate (leadingZeros buf stop) 0 := by
  have hzero : (buf.take stop).takeWhile (· = 0) = replicate (leadingZeros buf stop) 0 :=
    eq_replicate_iff.2 ⟨rfl, fun w hw => by simpa using mem_takeWhile_imp hw⟩
  have htake : buf.take (leadingZeros buf stop) = (buf.take stop).takeWhile (· = 0) := by
    have h := prefix_iff_eq_take.1
      (( takeWhile_prefix (l := buf.take stop) (· = 0)).trans ( take_prefix ..))
    exact h.symm
  rw [wordsDown, htake, hzero, drop_zero, reverse_replicate]

variable {buf start stop}

/-- The word that `do_sub` stops at. -/
theorem getD_leadingZeros_ne (hlt : leadingZeros buf stop < stop) (hle : stop ≤ buf.length) :
    buf.getD (leadingZeros buf stop) 0 ≠ 0 := by
  have hsplit := takeWhile_append_dropWhile (p := (· = 0)) (l := buf.take stop)
  have hhead : buf[leadingZeros buf stop]? = ((buf.take stop).dropWhile (· = 0)).head? := by
    rw [← getElem?_take_of_lt hlt, head?_eq_getElem?]
    conv_lhs => rw [← hsplit]
    rw [getElem?_append_right (le_refl (leadingZeros buf stop)), leadingZeros, Nat.sub_self]
  have hnot := head?_dropWhile_not (· = 0) (buf.take stop)
  rw [getD_eq_getElem?_getD]
  rw [← hhead, getElem?_eq_getElem (hlt.trans_le hle)] at hnot
  rw [getElem?_eq_getElem (hlt.trans_le hle)]
  simpa using hnot

/-- The first word bounds a number from below. -/
theorem pow_le_ofDigits_leadingZeros {hi : ℕ} (hlt : leadingZeros buf stop < stop)
    (hstop : stop ≤ hi) (hle : hi ≤ buf.length) : digBase ^ (hi - leadingZeros buf stop - 1)
      ≤ ofDigits digBase (wordsDown buf (leadingZeros buf stop) hi) := by
  have hne := getD_leadingZeros_ne hlt (hstop.trans hle)
  have hfirst : wordsDown buf (leadingZeros buf stop) (leadingZeros buf stop + 1)
      = [buf.getD (leadingZeros buf stop) 0] := by
    rw [wordsDown, drop_take, Nat.add_sub_cancel_left, getD_eq_getElem?_getD,
      take_one, head?_drop, getElem?_eq_getElem (by omega)]
    rfl
  rw [ofDigits_wordsDown_append (Nat.le_add_right _ 1) (by omega) hle, hfirst,
    Nat.ofDigits_singleton, show hi - leadingZeros buf stop - 1
      = hi - (leadingZeros buf stop + 1) by omega]
  exact (Nat.le_mul_of_pos_right _ (Nat.pos_of_ne_zero hne)).trans (Nat.le_add_left ..)

theorem ofDigits_wordsDown_leadingZeros {hi : ℕ} (hstop : stop ≤ hi) (hle : hi ≤ buf.length) :
    ofDigits digBase (wordsDown buf (leadingZeros buf stop) hi)
      = ofDigits digBase (wordsDown buf 0 hi) := by
  rw [ofDigits_wordsDown_append (Nat.zero_le _) ((leadingZeros_le buf stop).trans hstop) hle,
    wordsDown_leadingZeros, Nat.ofDigits_replicate_zero, Nat.mul_zero, Nat.add_zero]

/-- **Stripping zero words at the end**: what is left, and that it does not end in one. -/
theorem wordsDown_trimmedStop (buf : List ℕ) (hstart : start ≤ stop) (hle : stop ≤ buf.length) :
    start ≤ trimmedStop buf start stop ∧ trimmedStop buf start stop ≤ stop ∧
    wordsDown buf start (trimmedStop buf start stop)
      = (wordsDown buf start stop).dropWhile (· = 0) ∧
    ofDigits digBase (wordsDown buf start stop)
      = digBase ^ (stop - trimmedStop buf start stop)
        * ofDigits digBase (wordsDown buf start (trimmedStop buf start stop)) := by
  have hlen : (wordsDown buf start stop).length = stop - start := length_wordsDown hle
  have hdrop := (dropWhile_suffix (l := wordsDown buf start stop) (· = 0)).length_le
  have hge : start ≤ trimmedStop buf start stop := Nat.le_add_right ..
  have hstop : trimmedStop buf start stop ≤ stop := by
    rw [trimmedStop]
    omega
  have hsplit := append_inj' ((wordsDown_append hge hstop).symm.trans
    (takeWhile_append_dropWhile (p := (· = 0)) (l := wordsDown buf start stop)).symm)
    (by rw [length_wordsDown (hstop.trans hle), trimmedStop]; omega)
  have hzero : wordsDown buf (trimmedStop buf start stop) stop
      = replicate (stop - trimmedStop buf start stop) 0 :=
    eq_replicate_iff.2 ⟨length_wordsDown hle, fun w hw => by
      rw [hsplit.1] at hw
      simpa using mem_takeWhile_imp hw⟩
  refine ⟨hge, hstop, hsplit.2, ?_⟩
  rw [ofDigits_wordsDown_append hge hstop hle, hzero, Nat.ofDigits_replicate_zero, Nat.zero_add]

end Strip

/-! ## The comparison -/

section Greater

/-- Words, first one first, with words of zero behind them up to `n`. -/
def alignedWords (n : ℕ) (u : List ℕ) : ℕ :=
  digBase ^ (n - u.length) * ofDigits digBase u.reverse

theorem alignedWords_cons (n w : ℕ) {u : List ℕ} (h : u.length ≤ n) :
    alignedWords (n + 1) (w :: u) = alignedWords n u + digBase ^ n * w := by
  rw [alignedWords, alignedWords, reverse_cons, ofDigits_append, Nat.ofDigits_singleton,
    length_reverse, length_cons, Nat.add_sub_add_right, Nat.mul_add, ← Nat.mul_assoc,
    ← pow_add, Nat.sub_add_cancel h]

theorem alignedWords_lt {n : ℕ} {u : List ℕ} (h : u.length ≤ n) (hu : ∀ w ∈ u, w < digBase) :
    alignedWords n u < digBase ^ n := by
  have hlt := Nat.ofDigits_lt_base_pow_length one_lt_digBase (l := u.reverse)
    fun w hw => hu w (mem_reverse.1 hw)
  calc alignedWords n u < digBase ^ (n - u.length) * digBase ^ u.length := by
        rw [length_reverse] at hlt
        exact (Nat.mul_lt_mul_left (Nat.pow_pos digBase_pos)).2 hlt
    _ = digBase ^ n := by rw [← pow_add, Nat.sub_add_cancel h]

/-- Words that do not end in zero are not zero. -/
theorem alignedWords_pos (n : ℕ) {u : List ℕ} (hne : u ≠ []) (hlast : u.getLast? ≠ some 0) :
    0 < alignedWords n u := by
  refine Nat.mul_pos (Nat.pow_pos digBase_pos) ?_
  rw [← dropLast_append_getLast hne, reverse_append, reverse_singleton,
    singleton_append, Nat.ofDigits_cons]
  rw [getLast?_eq_some_getLast hne] at hlast
  have : u.getLast hne ≠ 0 := fun h => hlast (congrArg some h)
  omega

theorem greaterWords_eq_none : ∀ {u v : List ℕ}, greaterWords u v = none → u = v
  | [], [], _ => rfl
  | a :: u, b :: v, h => by
      rw [greaterWords] at h
      split at h
      · rename_i hab
        rw [hab, greaterWords_eq_none h]
      · exact nomatch h

theorem greaterWords_swap : ∀ {u v : List ℕ} {c : Bool}, greaterWords u v = some c →
    greaterWords v u = some !c
  | [], _ :: _, _, h => by
      cases h
      rfl
  | _ :: _, [], _, h => by
      cases h
      rfl
  | a :: u, b :: v, c, h => by
      rw [greaterWords] at h ⊢
      split at h
      · rename_i hab
        rw [if_pos hab.symm]
        exact greaterWords_swap h
      · rename_i hab
        cases h
        rw [if_neg (Ne.symm hab), ← decide_not]
        exact congrArg some (decide_eq_decide.2 (by omega))

/-- **The first word that differs decides**, as long as no operand ends in a zero word. -/
theorem alignedWords_lt_of_greaterWords : ∀ {u v : List ℕ} {n : ℕ}, (∀ w ∈ u, w < digBase) →
    v.getLast? ≠ some 0 → u.length ≤ n → v.length ≤ n → greaterWords u v = some true →
    alignedWords n u < alignedWords n v
  | [], b :: v, n, _, hlast, _, _, _ => by
      rw [alignedWords, reverse_nil, Nat.ofDigits_nil, Nat.mul_zero]
      exact alignedWords_pos n (cons_ne_nil b v) hlast
  | _ :: _, [], _, _, _, _, _, h => nomatch h
  | a :: u, b :: v, n + 1, hu, hlast, hlen, hlen', h => by
      obtain ⟨-, hu⟩ := forall_mem_cons.1 hu
      have hle : u.length ≤ n := Nat.le_of_succ_le_succ hlen
      have hle' : v.length ≤ n := Nat.le_of_succ_le_succ hlen'
      rw [alignedWords_cons n a hle, alignedWords_cons n b hle']
      rw [greaterWords] at h
      split at h
      · rename_i hab
        subst hab
        have hlast : v.getLast? ≠ some 0 := fun hv => hlast (by rw [getLast?_cons, hv]; rfl)
        exact Nat.add_lt_add_right (alignedWords_lt_of_greaterWords hu hlast hle hle' h) _
      · have hab : a + 1 ≤ b := Nat.succ_le_of_lt (by simpa using h)
        calc alignedWords n u + digBase ^ n * a < digBase ^ n + digBase ^ n * a :=
              Nat.add_lt_add_right (alignedWords_lt hle hu) _
          _ = digBase ^ n * (a + 1) := by rw [Nat.mul_add, Nat.mul_one, Nat.add_comm]
          _ ≤ digBase ^ n * b := Nat.mul_le_mul_left _ hab
          _ ≤ alignedWords n v + digBase ^ n * b := Nat.le_add_left ..

end Greater

/-- An operand is what is left of a decimal. -/
structure SubOperand.Represents (a : SubOperand) (d : DecimalT) : Prop where
  fits : a.Fits (roundUp d.frac)
  intg_le : a.intg ≤ roundUp d.intg
  aligned_eq : a.aligned (roundUp d.frac) = ofDigits digBase d.down

namespace SubOperand

variable {a b : SubOperand} {frac0 : ℕ}

theorem Fits.mono {n : ℕ} (h : a.Fits frac0) (hle : frac0 ≤ n) : a.Fits n :=
  ⟨h.word_lt, h.neg_le, h.le_frac0.trans (by omega), h.size_le⟩

theorem aligned_mono {n : ℕ} (h : a.Fits frac0) (hle : frac0 ≤ n) :
    a.aligned n = digBase ^ (n - frac0) * a.aligned frac0 := by
  have := h.le_frac0
  rw [aligned, aligned, ← Nat.mul_assoc, ← pow_add,
    show n - frac0 + (frac0 - a.frac).toNat = (n - a.frac).toNat by omega]

theorem aligned_eq_alignedWords (h : a.Fits frac0) :
    a.aligned frac0 = alignedWords (a.intg + frac0) (a.down (-a.intg) a.frac).reverse := by
  have hneg := h.neg_le
  have hle := h.le_frac0
  rw [aligned, alignedWords, reverse_reverse, length_reverse,
    h.length_down le_rfl le_rfl, show a.intg + frac0 - (a.frac - -(a.intg : ℤ)).toNat
      = (frac0 - a.frac).toNat by omega]

theorem aligned_lt (h : a.Fits frac0) : a.aligned frac0 < digBase ^ (a.intg + frac0) := by
  have hneg := h.neg_le
  have hle := h.le_frac0
  rw [aligned_eq_alignedWords h]
  refine alignedWords_lt ?_ fun w hw => h.down_lt w (mem_reverse.1 hw)
  rw [length_reverse, h.length_down le_rfl le_rfl]
  omega

end SubOperand

section Compare

variable (d : Decimal)

/-- The operand that starts at the first word other than zero and ends at some word. -/
def operandTo (stop : ℕ) : SubOperand :=
  ⟨d.buf, leadingZeros d.buf (roundUp d.intg),
    roundUp d.intg - leadingZeros d.buf (roundUp d.intg), stop - roundUp d.intg⟩

variable {d}

theorem down_operandTo (stop : ℕ) :
    (operandTo d stop).down (-(operandTo d stop).intg) (operandTo d stop).frac
      = wordsDown d.buf (leadingZeros d.buf (roundUp d.intg)) stop := by
  have hz := leadingZeros_le d.buf (roundUp d.intg)
  simp only [SubOperand.down, operandTo]
  congr 1 <;> omega

/-- Only zero words are behind the end of the operand. -/
theorem operandTo_represents {stop : ℕ} (hlo : leadingZeros d.buf (roundUp d.intg) ≤ stop)
    (hhi : stop ≤ roundUp d.intg + roundUp d.frac)
    (hzero : ofDigits digBase (wordsDown d.buf (leadingZeros d.buf (roundUp d.intg))
        (roundUp d.intg + roundUp d.frac))
      = digBase ^ (roundUp d.intg + roundUp d.frac - stop)
        * ofDigits digBase (wordsDown d.buf (leadingZeros d.buf (roundUp d.intg)) stop)) :
    (operandTo d stop).Represents d := by
  have hz := leadingZeros_le d.buf (roundUp d.intg)
  have hsize := d.size_le
  refine ⟨⟨d.word_lt, ?_, ?_, ?_⟩, Nat.sub_le .., ?_⟩
  · simp only [operandTo]
    omega
  · simp only [operandTo]
    omega
  · simp only [operandTo]
    omega
  · rw [ofDigits_wordsDown_leadingZeros (Nat.le_add_right ..) hsize] at hzero
    rw [SubOperand.aligned, down_operandTo, down, hzero, operandTo,
      show ((roundUp d.frac : ℤ) - (stop - roundUp d.intg)).toNat
        = roundUp d.intg + roundUp d.frac - stop by omega]

/-- The operand of an integer part that is longer or shorter than the other. -/
theorem represents_whole : (⟨d.buf, leadingZeros d.buf (roundUp d.intg),
    roundUp d.intg - leadingZeros d.buf (roundUp d.intg), roundUp d.frac⟩ :
      SubOperand).Represents d := by
  have hz := leadingZeros_le d.buf (roundUp d.intg)
  have h := operandTo_represents (d := d) (hz.trans (Nat.le_add_right ..)) le_rfl (by simp)
  rw [operandTo, Nat.cast_add, add_sub_cancel_left] at h
  exact h

/-- The operand without zero words at its end. -/
theorem represents_trimmed : (operandTo d (trimmedStop d.buf (leadingZeros d.buf (roundUp d.intg))
    (roundUp d.intg + roundUp d.frac))).Represents d := by
  have hz := leadingZeros_le d.buf (roundUp d.intg)
  obtain ⟨hge, hle, -, hzero⟩ := wordsDown_trimmedStop _ (hz.trans (Nat.le_add_right ..)) d.size_le
  exact operandTo_represents hge hle hzero

/-- **The longer integer part is the greater one**: its first word is not zero. -/
theorem aligned_lt_of_intg_lt {a b : SubOperand} {n : ℕ}
    (ha : a.Fits n) (hb : b.Represents d)
    (hintg : b.intg = roundUp d.intg - leadingZeros d.buf (roundUp d.intg))
    (hn : roundUp d.frac ≤ n) (hlt : a.intg < b.intg) : a.aligned n < b.aligned n := by
  have hfirst := pow_le_ofDigits_leadingZeros
    (by omega) (Nat.le_add_right _ (roundUp d.frac)) d.size_le
  rw [ofDigits_wordsDown_leadingZeros (Nat.le_add_right ..) d.size_le] at hfirst
  calc a.aligned n < digBase ^ (a.intg + n) := SubOperand.aligned_lt ha
    _ ≤ digBase ^ (n - roundUp d.frac + (roundUp d.intg + roundUp d.frac
          - leadingZeros d.buf (roundUp d.intg) - 1)) :=
        Nat.pow_le_pow_right digBase_pos (by omega)
    _ ≤ digBase ^ (n - roundUp d.frac) * ofDigits digBase d.down := by
        rw [pow_add]
        exact Nat.mul_le_mul_left _ hfirst
    _ = b.aligned n := by rw [SubOperand.aligned_mono hb.fits hn, hb.aligned_eq]

/-- What the comparison says about the operands. -/
def SubOperand.Compared (a b : SubOperand) (n : ℕ) : Option Bool → Prop
  | none => a.aligned n = b.aligned n
  | some true => a.intg ≤ b.intg ∧ a.aligned n < b.aligned n
  | some false => b.intg ≤ a.intg ∧ b.aligned n < a.aligned n

/-- Without zero words at the end the words are compared. -/
theorem compared_trimmed {a b : SubOperand} {n : ℕ} (ha : a.Fits n) (hb : b.Fits n)
    (hintg : b.intg = a.intg) (hlast : (a.down (-a.intg) a.frac).reverse.getLast? ≠ some 0)
    (hlast' : (b.down (-b.intg) b.frac).reverse.getLast? ≠ some 0) :
    a.Compared b n (greaterWords (a.down (-a.intg) a.frac).reverse
      (b.down (-b.intg) b.frac).reverse) := by
  have hlen : ∀ {c : SubOperand}, c.Fits n → (c.down (-c.intg) c.frac).reverse.length
      ≤ c.intg + n := fun hc => by
    have hneg := hc.neg_le
    have hle := hc.le_frac0
    rw [length_reverse, hc.length_down le_rfl le_rfl]
    omega
  have hlena := hlen ha
  have hlenb := hlen hb
  have halignb := SubOperand.aligned_eq_alignedWords hb
  rw [show b.intg + n = a.intg + n by omega] at hlenb halignb
  have hlt : ∀ {c : SubOperand}, c.Fits n → ∀ w ∈ (c.down (-c.intg) c.frac).reverse, w < digBase :=
    fun hc w hw => hc.down_lt w (mem_reverse.1 hw)
  rcases hc : greaterWords (a.down (-a.intg) a.frac).reverse (b.down (-b.intg) b.frac).reverse
    with _ | _ | _
  · rw [SubOperand.Compared, SubOperand.aligned_eq_alignedWords ha, halignb,
      greaterWords_eq_none hc]
  · refine ⟨hintg.le, ?_⟩
    rw [SubOperand.aligned_eq_alignedWords ha, halignb]
    exact alignedWords_lt_of_greaterWords (hlt hb) hlast hlenb hlena
      (greaterWords_swap hc)
  · refine ⟨hintg.ge, ?_⟩
    rw [SubOperand.aligned_eq_alignedWords ha, halignb]
    exact alignedWords_lt_of_greaterWords (hlt ha) hlast' hlena hlenb hc

/-- The words of a stripped operand do not end in zero. -/
theorem getLast_trimmed : let a := operandTo d (trimmedStop d.buf
      (leadingZeros d.buf (roundUp d.intg)) (roundUp d.intg + roundUp d.frac))
    (a.down (-a.intg) a.frac).reverse.getLast? ≠ some 0 := by
  intro a h
  have hz := leadingZeros_le d.buf (roundUp d.intg)
  obtain ⟨hge, -, hdrop, -⟩ := wordsDown_trimmedStop _ (hz.trans (Nat.le_add_right ..)) d.size_le
  rw [down_operandTo, hdrop, getLast?_reverse] at h
  have hnot := head?_dropWhile_not (· = 0) (wordsDown d.buf
    (leadingZeros d.buf (roundUp d.intg)) (roundUp d.intg + roundUp d.frac))
  rw [h] at hnot
  simp at hnot

/-- **The comparison of `do_sub`**: its operands are the decimals, and it tells the greater one. -/
theorem compareOperands_spec (d1 d2 : Decimal) :
    ∃ a b c, compareOperands d1 d2 = (a, b, c) ∧
      a.Represents d1 ∧ b.Represents d2 ∧
      -(b.intg : ℤ) ≤ a.frac ∧ -(a.intg : ℤ) ≤ b.frac ∧
      a.Compared b (max (roundUp d1.frac) (roundUp d2.frac)) c := by
  have h1 := represents_whole (d := d1)
  have h2 := represents_whole (d := d2)
  have hmax := Nat.le_max_left (roundUp d1.frac) (roundUp d2.frac)
  have hmax' := Nat.le_max_right (roundUp d1.frac) (roundUp d2.frac)
  rw [compareOperands]
  dsimp only
  split_ifs with hgt heq
  · refine ⟨_, _, _, rfl, h1, h2, by dsimp only; omega, by dsimp only; omega, hgt.le, ?_⟩
    exact aligned_lt_of_intg_lt (h1.fits.mono hmax) h2 rfl hmax' hgt
  · have ht1 := represents_trimmed (d := d1)
    have ht2 := represents_trimmed (d := d2)
    have hneg := ht1.fits.neg_le
    have hneg' := ht2.fits.neg_le
    have hcmp := compared_trimmed (ht1.fits.mono hmax) (ht2.fits.mono hmax') heq
      getLast_trimmed getLast_trimmed
    refine ⟨_, _, _, rfl, ht1, ht2, ?_, ?_, ?_⟩
    · simp only [operandTo] at hneg ⊢
      omega
    · simp only [operandTo] at hneg' ⊢
      omega
    · rw [down_operandTo, down_operandTo, wordsDown, wordsDown, reverse_reverse,
        reverse_reverse] at hcmp
      exact hcmp
  · have hlt : roundUp d2.intg - leadingZeros d2.buf (roundUp d2.intg)
        < roundUp d1.intg - leadingZeros d1.buf (roundUp d1.intg) := by omega
    refine ⟨_, _, _, rfl, h1, h2, by dsimp only; omega, by dsimp only; omega, hlt.le, ?_⟩
    exact aligned_lt_of_intg_lt (h2.fits.mono hmax') h1 rfl hmax hlt

theorem SubOperand.Represents.magnitude_eq {a : SubOperand} {n : ℕ} {d : DecimalT}
    (h : a.Represents d) (hn : roundUp d.frac ≤ n) :
    (a.aligned n : ℚ) / (digBase : ℚ) ^ n = d.magnitude := by
  rw [SubOperand.aligned_mono h.fits hn, h.aligned_eq, align_div _ hn]
  rfl

end Compare

/-! ## `do_sub` -/

section Sub

variable {d1 d2 : Decimal} {a b : SubOperand} {c : Bool} {len : ℕ}

/-- `do_sub` of operands that differ, the greater one first. -/
theorem doSub_eq (hcmp : compareOperands d1 d2
      = if c then (b, a, some c) else (a, b, some c)) :
    (doSub d1 d2 len).1
        = (fixIntgFracError len a.intg (max (roundUp d1.frac) (roundUp d2.frac))).2.2 ∧
      (a.intg + max (roundUp d1.frac) (roundUp d2.frac) ≤ len →
        (doSub d1 d2 len).2
          = ⟨d1.sign ^^ c, a.intg * digPerDec1, max d1.frac d2.frac,
            (subWords a b (max (roundUp d1.frac) (roundUp d2.frac))).reverse⟩) := by
  rw [doSub, hcmp]
  cases c <;>
  · refine ⟨rfl, fun hfit => ?_⟩
    simp [fixIntgFracError_of_le hfit]

/-- **The difference of operands**, the greater one first. -/
theorem doSub_magnitude (hcmp : compareOperands d1 d2
      = if c then (b, a, some c) else (a, b, some c))
    (ha : a.Fits (max (roundUp d1.frac) (roundUp d2.frac)))
    (hb : b.Fits (max (roundUp d1.frac) (roundUp d2.frac)))
    (hintg : b.intg ≤ a.intg) (hfrac : -(b.intg : ℤ) ≤ a.frac)
    (hlt : b.aligned (max (roundUp d1.frac) (roundUp d2.frac))
      < a.aligned (max (roundUp d1.frac) (roundUp d2.frac)))
    (hok : (doSub d1 d2 len).1 = .ok) :
    (doSub d1 d2 len).2.sign = (d1.sign ^^ c) ∧
      (doSub d1 d2 len).2.magnitude
        = a.aligned (max (roundUp d1.frac) (roundUp d2.frac))
            / (digBase : ℚ) ^ max (roundUp d1.frac) (roundUp d2.frac)
          - b.aligned (max (roundUp d1.frac) (roundUp d2.frac))
            / (digBase : ℚ) ^ max (roundUp d1.frac) (roundUp d2.frac) := by
  obtain ⟨hfst, hsnd⟩ := doSub_eq hcmp
  obtain ⟨hlen, hsub⟩ := SubOperand.ofDigits_subWords ha hb hintg hfrac hlt.le
  rw [hfst, fixIntgFracError_ok] at hok
  rw [hsnd hok]
  refine ⟨rfl, ?_⟩
  rw [magnitude_reverse, roundUp_max, ← sub_div, ← hsub, Nat.cast_add, add_sub_cancel_right]
  rw [hlen, roundUp_mul, roundUp_max]

end Sub

/-- **`do_sub` succeeds if the longer parts fit into the buffer.** -/
theorem doSub_ok (d1 d2 : Decimal) (len : ℕ) (h : max (roundUp d1.intg) (roundUp d2.intg)
      + max (roundUp d1.frac) (roundUp d2.frac) ≤ len) :
    (doSub d1 d2 len).1 = .ok := by
  obtain ⟨a, b, c, hcmp, ha, hb, -⟩ := compareOperands_spec d1 d2
  have hintg := ha.intg_le
  have hintg' := hb.intg_le
  rcases c with _ | _ | _
  · rw [doSub, hcmp]
  · rw [(doSub_eq (c := false) hcmp).1, fixIntgFracError_ok]
    omega
  · rw [(doSub_eq (c := true) hcmp).1, fixIntgFracError_ok]
    omega

/-- **`do_sub` is exact if it succeeds.** -/
theorem doSub_exact (d1 d2 : Decimal) {len : ℕ}
    (hok : (doSub d1 d2 len).1 = .ok) :
    (doSub d1 d2 len).2.value
      = if d1.sign then d2.magnitude - d1.magnitude else d1.magnitude - d2.magnitude := by
  obtain ⟨a, b, c, hcmp, ha, hb, hfrac, hfrac', hcompared⟩ := compareOperands_spec d1 d2
  have hmax := Nat.le_max_left (roundUp d1.frac) (roundUp d2.frac)
  have hmax' := Nat.le_max_right (roundUp d1.frac) (roundUp d2.frac)
  have hfits := ha.fits.mono hmax
  have hfits' := hb.fits.mono hmax'
  rcases c with _ | _ | _
  · have heq : d1.magnitude = d2.magnitude := by
      rw [← ha.magnitude_eq hmax, ← hb.magnitude_eq hmax', hcompared]
    rw [doSub, hcmp, heq, sub_self, ite_self]
    exact (by decide +kernel : decimalMakeZero.value = 0)
  · obtain ⟨hsign, hmag⟩ := doSub_magnitude (c := false) hcmp hfits hfits' hcompared.1 hfrac
      hcompared.2 hok
    rw [ha.magnitude_eq hmax, hb.magnitude_eq hmax'] at hmag
    rw [value, hsign, hmag, Bool.xor_false, neg_sub]
  · obtain ⟨hsign, hmag⟩ := doSub_magnitude (c := true) hcmp hfits' hfits hcompared.1 hfrac'
      hcompared.2 hok
    rw [ha.magnitude_eq hmax, hb.magnitude_eq hmax'] at hmag
    rw [value, hsign, hmag]
    cases d1.sign <;> simp

/-! ## The entry points -/

namespace Decimal

theorem magnitude_nonneg (d : Decimal) : 0 ≤ d.magnitude :=
  div_nonneg (Nat.cast_nonneg _) (pow_nonneg (Nat.cast_nonneg _) _)

theorem value_of_sign {d : Decimal} {s : Bool} (h : d.sign = s) :
    d.value = if s then -d.magnitude else d.magnitude := by
  rw [value, h]

/-- A negative decimal is below every other one. -/
theorem value_lt_of_sign {d e : Decimal} (hd : d.sign = true) (he : e.sign = false) :
    d.value < e.value := by
  have hpos : 0 < d.magnitude := d.magnitude_nonneg.lt_of_ne (d.no_neg_zero hd).symm
  rw [value_of_sign hd, value_of_sign he]
  exact (neg_lt_zero.2 hpos).trans_le e.magnitude_nonneg

end Decimal

variable (from1 from2 : Decimal)

/-- **`decimal_cmp` is the sign of the difference.** -/
theorem decimalCmp_eq : decimalCmp from1 from2
    = SignType.sign (from1.value - from2.value) := by
  obtain ⟨a, b, c, hcmp, ha, hb, -, -, hcompared⟩ := compareOperands_spec from1 from2
  have hmax := Nat.le_max_left (roundUp from1.frac) (roundUp from2.frac)
  have hmax' := Nat.le_max_right (roundUp from1.frac) (roundUp from2.frac)
  have hmag := ha.magnitude_eq hmax
  have hmag' := hb.magnitude_eq hmax'
  have hbase : (0 : ℚ) < (digBase : ℚ) ^ max (roundUp from1.frac) (roundUp from2.frac) :=
    pow_pos (by exact_mod_cast digBase_pos) _
  rw [decimalCmp]
  split
  · rename_i hsign
    rw [hcmp, value, value, ← hsign]
    rcases c with _ | _ | _
    · have heq : from1.magnitude = from2.magnitude := by
        rw [← hmag, ← hmag', hcompared]
      simp [heq]
    · have hlt : from2.magnitude < from1.magnitude := by
        rw [← hmag, ← hmag']
        exact div_lt_div_of_pos_right (by exact_mod_cast hcompared.2) hbase
      cases from1.sign <;> simp [sign_pos, sign_neg, hlt]
    · have hlt : from1.magnitude < from2.magnitude := by
        rw [← hmag, ← hmag']
        exact div_lt_div_of_pos_right (by exact_mod_cast hcompared.2) hbase
      cases from1.sign <;> simp [sign_pos, sign_neg, hlt]
  · rename_i hsign
    cases h1 : from1.sign <;> cases h2 : from2.sign <;> rw [h1, h2] at hsign
    · exact absurd rfl hsign
    · rw [if_neg (by decide), sign_pos (sub_pos.2 (Decimal.value_lt_of_sign h2 h1))]
      rfl
    · rw [if_pos (by decide), sign_neg (sub_neg.2 (Decimal.value_lt_of_sign h1 h2))]
      rfl
    · exact absurd rfl hsign

/-- **Sums, differences and comparisons are exact.** `decimal_add` and `decimal_sub` succeed if the
longer fraction and one more word than the longer integer part fit into the buffer, they are exact
whenever they succeed, and `decimal_cmp` returns the sign of the difference. -/
theorem decimal_arith_exact (len : ℕ) :
    (max (roundUp from1.intg) (roundUp from2.intg) + 1
        + max (roundUp from1.frac) (roundUp from2.frac) ≤ len →
      (decimalAdd from1.toDecimalT from2.toDecimalT len).1 = .ok ∧
        (decimalSub from1.toDecimalT from2.toDecimalT len).1 = .ok) ∧
    ((decimalAdd from1.toDecimalT from2.toDecimalT len).1 = .ok →
      (decimalAdd from1.toDecimalT from2.toDecimalT len).2.value = from1.value + from2.value) ∧
    ((decimalSub from1.toDecimalT from2.toDecimalT len).1 = .ok →
      (decimalSub from1.toDecimalT from2.toDecimalT len).2.value = from1.value - from2.value) ∧
    decimalCmp from1.toDecimalT from2.toDecimalT
      = SignType.sign (from1.value - from2.value) := by
  refine ⟨fun hfit => ?_, fun hok => ?_, fun hok => ?_, decimalCmp_eq from1 from2⟩
  · have hadd : (doAdd from1.toDecimalT from2.toDecimalT len).1 = .ok := by
      rw [doAdd_ok_iff, addIntg]
      split <;> omega
    have hsub := doSub_ok from1 from2 len (by omega)
    simp only [decimalAdd, decimalSub]
    split <;> exact ⟨by assumption, by assumption⟩
  · rw [decimalAdd] at hok ⊢
    split at hok
    · rename_i hsign
      obtain ⟨hs, hmag⟩ := doAdd_exact from1 from2 hok
      rw [if_pos hsign, value, hs, hmag, value, value, ← hsign]
      cases from1.sign <;> simp [add_comm]
    · rename_i hsign
      have hsign2 : from2.sign = !from1.sign := Bool.eq_not_of_ne (Ne.symm hsign)
      rw [if_neg hsign, doSub_exact from1 from2 hok, value, value, hsign2]
      cases from1.sign <;> simp [sub_eq_add_neg, add_comm]
  · rw [decimalSub] at hok ⊢
    split at hok
    · rename_i hsign
      rw [if_pos hsign, doSub_exact from1 from2 hok, value, value, ← hsign]
      cases from1.sign <;> simp [sub_eq_add_neg, add_comm]
    · rename_i hsign
      have hsign2 : from2.sign = !from1.sign := Bool.eq_not_of_ne (Ne.symm hsign)
      obtain ⟨hs, hmag⟩ := doAdd_exact from1 from2 hok
      rw [if_neg hsign, value, hs, hmag, value, value, hsign2]
      cases from1.sign <;> simp [sub_eq_add_neg, add_comm]

/-- `1.5`. -/
def oneAndHalf : Decimal where
  sign := false
  intg := 1
  frac := 1
  buf := [1, 500000000]

/-- `-0.25`, with a word of zeros before and after it. -/
def minusQuarter : Decimal where
  sign := true
  intg := 10
  frac := 12
  buf := [0, 0, 250000000, 0]

theorem decimal_arith_oneAndHalf :
    (decimalAdd oneAndHalf.toDecimalT minusQuarter.toDecimalT 5).2.value
        = oneAndHalf.value + minusQuarter.value ∧
      (decimalSub oneAndHalf.toDecimalT minusQuarter.toDecimalT 5).2.value
        = oneAndHalf.value - minusQuarter.value := by
  obtain ⟨hok, hadd, hsub, -⟩ := decimal_arith_exact oneAndHalf minusQuarter 5
  obtain ⟨hok1, hok2⟩ := hok (by decide)
  exact ⟨hadd hok1, hsub hok2⟩

end EloqSql
