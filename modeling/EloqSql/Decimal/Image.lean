import EloqSql.Decimal.Bin
import EloqSql.Decimal.Quotient
import EloqSql.Image.Part

/-!
# Decimal/Image — what `decimal2bin` stores

The image of a decimal is that of its integer part and its fraction with as many digits as the
column has (`intBytes`, `fracBytes`), whatever number of digits the decimal itself comes with:
zeroes are filled in before the integer part (`fill_intBytes`) and behind the fraction
(`storeFrac_eq`). All of it is inverted for a negative number (`storeWords_mask`).
-/

namespace EloqSql

open Numeral List
open Nat (div_add_mod div_eq_of_lt div_lt_iff_lt_mul mod_eq_of_lt mod_lt)

/-! ## Numbers of several words -/

/-- The low `k` words of a number, four bytes each. -/
def wordBytes : ℕ → ℕ → Bytes
  | 0, _ => []
  | k + 1, v => wordBytes k (v / digBase) ++ miStore 4 (v % digBase)

@[simp] theorem length_wordBytes : ∀ k v : ℕ, (wordBytes k v).length = 4 * k
  | 0, _ => rfl
  | k + 1, v => by
      rw [wordBytes, length_append, length_wordBytes k, length_miStore]
      omega

theorem flatMap_miStore : ∀ {ws : List ℕ}, (∀ w ∈ ws, w < digBase) →
    ws.flatMap (miStore 4) = wordBytes ws.length (bigEndian digBase ws) := by
  intro ws
  induction ws using reverseRecOn with
  | nil => exact fun _ => rfl
  | append_singleton ws w ih =>
    intro h
    obtain ⟨hws, hw⟩ := forall_mem_append.1 h
    have hw : w < digBase := hw w (mem_singleton_self w)
    have hval : bigEndian digBase (ws ++ [w]) = digBase * bigEndian digBase ws + w := by
      rw [bigEndian_append, bigEndian_cons]
      simp [Nat.mul_comm]
    rw [flatMap_append, ih hws, hval, length_append, length_singleton, wordBytes,
      Nat.mul_add_div digBase_pos, div_eq_of_lt hw, Nat.mul_add_mod, mod_eq_of_lt hw,
      Nat.add_zero]
    simp

/-- Words of zeroes at the end. -/
theorem wordBytes_shift (k v : ℕ) : ∀ j : ℕ,
    wordBytes (k + j) (v * digBase ^ j) = wordBytes k v ++ replicate (4 * j) 0
  | 0 => by simp
  | j + 1 => by
      rw [← Nat.add_assoc, wordBytes, pow_succ, ← Nat.mul_assoc, Nat.mul_div_cancel _ digBase_pos,
        Nat.mul_mod_left, miStore_zero, wordBytes_shift k v j, append_assoc,
        replicate_append_replicate]
      congr 2

theorem wordBytes_zero : ∀ k : ℕ, wordBytes k 0 = replicate (4 * k) 0
  | 0 => rfl
  | k + 1 => by
      rw [wordBytes, Nat.zero_div, wordBytes_zero k, Nat.zero_mod, miStore_zero,
        replicate_append_replicate]
      congr 1

/-- Words of zeroes at the start. -/
theorem wordBytes_of_lt {v : ℕ} : ∀ {k : ℕ} (j : ℕ), v < digBase ^ k →
    wordBytes (j + k) v = replicate (4 * j) 0 ++ wordBytes k v
  | 0, j, h => by
      obtain rfl : v = 0 := by simpa using h
      rw [Nat.add_zero, wordBytes_zero, wordBytes, append_nil]
  | k + 1, j, h => by
      have hdiv : v / digBase < digBase ^ k :=
        (div_lt_iff_lt_mul digBase_pos).2 (by rwa [← pow_succ])
      rw [← Nat.add_assoc, wordBytes, wordBytes, wordBytes_of_lt j hdiv, append_assoc]

/-- A number compares as its quotient and its remainder. -/
theorem compare_divMod (b m n : ℕ) (hb : 0 < b) :
    (compare (m / b) (n / b)).then (compare (m % b) (n % b)) = compare m n := by
  have hm := div_add_mod m b
  have hn := div_add_mod n b
  conv_rhs => rw [← hm, ← hn, Nat.mul_comm b, Nat.mul_comm b]
  rw [compare_digits (mod_lt m hb) (mod_lt n hb)]

/-- **Words compare as their number.** -/
theorem compare_wordBytes : ∀ {k m n : ℕ}, m < digBase ^ k → n < digBase ^ k →
    compare (wordBytes k m) (wordBytes k n) = compare m n
  | 0, m, n, hm, hn => by
      obtain rfl : m = 0 := by simpa using hm
      obtain rfl : n = 0 := by simpa using hn
      rfl
  | k + 1, m, n, hm, hn => by
      have hdiv : ∀ {v : ℕ}, v < digBase ^ (k + 1) → v / digBase < digBase ^ k := fun h =>
        (div_lt_iff_lt_mul digBase_pos).2 (by rwa [← pow_succ])
      have hlt : ∀ v : ℕ, v % digBase < 256 ^ 4 := fun v =>
        (mod_lt v digBase_pos).trans (by decide)
      rw [wordBytes, wordBytes, MemCompare.ComparesAs.of_length_eq (by simp),
        compare_wordBytes (hdiv hm) (hdiv hn),
        compare_miStore (hlt m) (hlt n), compare_divMod _ _ _ digBase_pos]

/-- The first word. -/
theorem wordBytes_succ (v : ℕ) : ∀ k : ℕ,
    wordBytes (k + 1) v = miStore 4 (v / digBase ^ k % digBase) ++ wordBytes k v
  | 0 => by simp [wordBytes]
  | k + 1 => by
      rw [wordBytes, wordBytes_succ _ k, Nat.div_div_eq_div_mul, ← pow_succ', append_assoc]
      rfl

theorem wordBytes_add_mul (v c : ℕ) : ∀ k : ℕ,
    wordBytes k (c * digBase ^ k + v) = wordBytes k v
  | 0 => rfl
  | k + 1 => by
      have hpow : c * digBase ^ (k + 1) = digBase * (c * digBase ^ k) := by
        rw [pow_succ]
        ring
      rw [wordBytes, hpow, Nat.mul_add_div digBase_pos, Nat.mul_add_mod, wordBytes_add_mul _ _ k]
      rfl

theorem miStore_of_lt {v : ℕ} : ∀ {n : ℕ} (j : ℕ), v < 256 ^ n →
    miStore (j + n) v = replicate j 0 ++ miStore n v
  | 0, j, h => by
      obtain rfl : v = 0 := by simpa using h
      rw [Nat.add_zero, miStore_zero, miStore, append_nil]
  | n + 1, j, h => by
      have hdiv : v / 256 < 256 ^ n :=
        (div_lt_iff_lt_mul (by decide)).2 (by rwa [← pow_succ])
      rw [← Nat.add_assoc, miStore, miStore, miStore_of_lt j hdiv, append_assoc]

/-! ## The two parts -/

/-- The bytes of so many digits. -/
def byteSize (digits : ℕ) : ℕ := digits / digPerDec1 * 4 + dig2bytes (digits % digPerDec1)

/-- An integer part of `n` digits. -/
def intBytes (n v : ℕ) : Bytes :=
  miStore (dig2bytes (n % digPerDec1)) (v / digBase ^ (n / digPerDec1))
    ++ wordBytes (n / digPerDec1) v

/-- A fraction of `n` digits. -/
def fracBytes (n v : ℕ) : Bytes :=
  wordBytes (n / digPerDec1) (v / 10 ^ (n % digPerDec1))
    ++ miStore (dig2bytes (n % digPerDec1)) (v % 10 ^ (n % digPerDec1))

/-- The bytes hold their digits. -/
theorem pow_le_dig2bytes : ∀ {d : ℕ}, d < digPerDec1 → 10 ^ d ≤ 256 ^ dig2bytes d := by
  decide

theorem dig2bytes_mono {d e : ℕ} (he : e < digPerDec1) (hd : d ≤ e) :
    dig2bytes d ≤ dig2bytes e := by
  have h : ∀ e < digPerDec1, ∀ d ≤ e, dig2bytes d ≤ dig2bytes e := by decide
  exact h e he d hd

theorem dig2bytes_le : ∀ {d : ℕ}, d < digPerDec1 → dig2bytes d ≤ 4 := by
  decide

theorem dig2bytes_pos {d : ℕ} (hd : d < digPerDec1) (h : d ≠ 0) : 0 < dig2bytes d := by
  have hall : ∀ d < digPerDec1, d ≠ 0 → 0 < dig2bytes d := by decide
  exact hall d hd h

theorem mod_lt_digPerDec1 (n : ℕ) : n % digPerDec1 < digPerDec1 := mod_lt n (by decide)

theorem pow_digits (n : ℕ) :
    10 ^ n = digBase ^ (n / digPerDec1) * 10 ^ (n % digPerDec1) := by
  conv_lhs => rw [← div_add_mod n digPerDec1, pow_add, pow_mul, ← digBase_eq]

theorem div_lt_digits {n v : ℕ} (h : v < 10 ^ n) :
    v / digBase ^ (n / digPerDec1) < 10 ^ (n % digPerDec1) := by
  rw [div_lt_iff_lt_mul (Nat.pow_pos digBase_pos), Nat.mul_comm, ← pow_digits]
  exact h

theorem length_intBytes (n v : ℕ) : (intBytes n v).length = byteSize n := by
  rw [intBytes, length_append, length_miStore, length_wordBytes, byteSize]
  omega

theorem length_fracBytes (n v : ℕ) : (fracBytes n v).length = byteSize n := by
  rw [fracBytes, length_append, length_miStore, length_wordBytes, byteSize]
  omega

/-- **Bytes of zeroes before the integer part** give it the digits of the column. -/
theorem fill_intBytes {m n v : ℕ} (hv : v < 10 ^ m) (hmn : m ≤ n) :
    replicate (byteSize n - byteSize m) 0 ++ intBytes m v = intBytes n v := by
  have hdiv := div_lt_digits hv
  have hstore := hdiv.trans_le (pow_le_dig2bytes (mod_lt_digPerDec1 m))
  have hdb := dig2bytes_le (mod_lt_digPerDec1 m)
  have hle : m / digPerDec1 ≤ n / digPerDec1 := Nat.div_le_div_right hmn
  rcases hle.eq_or_lt with heq | hlt
  · -- both have the same number of whole words
    have hmod : m % digPerDec1 ≤ n % digPerDec1 := by
      have := div_add_mod m digPerDec1
      have := div_add_mod n digPerDec1
      rw [heq] at *
      omega
    have hmono := dig2bytes_mono (mod_lt_digPerDec1 n) hmod
    rw [intBytes, intBytes, ← heq, ← append_assoc, ← miStore_of_lt _ hstore, byteSize,
      byteSize, ← heq]
    congr 2
    omega
  · obtain ⟨j, hj⟩ := Nat.exists_eq_add_of_lt hlt
    have hword : v < digBase ^ (m / digPerDec1 + 1) := by
      refine hv.trans_le ?_
      rw [pow_digits, pow_succ, digBase_eq]
      exact Nat.mul_le_mul_left _ (Nat.pow_le_pow_right (by decide) (mod_lt_digPerDec1 m).le)
    have htop : v / digBase ^ (n / digPerDec1) = 0 :=
      div_eq_of_lt (hword.trans_le (Nat.pow_le_pow_right digBase_pos hlt))
    have hfirst : v / digBase ^ (m / digPerDec1) % digBase = v / digBase ^ (m / digPerDec1) :=
      mod_eq_of_lt ((div_lt_iff_lt_mul (Nat.pow_pos digBase_pos)).2 (by
        rwa [← pow_succ']))
    have hpad := miStore_of_lt (4 - dig2bytes (m % digPerDec1)) hstore
    rw [Nat.sub_add_cancel hdb] at hpad
    rw [intBytes, intBytes, htop, miStore_zero, hj,
      show m / digPerDec1 + j + 1 = j + (m / digPerDec1 + 1) by omega, wordBytes_of_lt j hword,
      wordBytes_succ, hfirst, hpad, byteSize, byteSize, hj]
    simp only [← append_assoc, replicate_append_replicate]
    congr 3
    omega

/-! ## The words of a decimal -/

/-- The words of the fraction that are stored. -/
def storeFrac (buf : List ℕ) (words frac1x lim : ℕ) : Bytes :=
  (buf.take words).flatMap (miStore 4) ++ if frac1x ≠ 0 then
    miStore (dig2bytes frac1x) (buf.getD words 0
      / 10 ^ (digPerDec1 - growDigits lim (dig2bytes frac1x) digPerDec1 frac1x)) else []

theorem getD_append_add (us vs : List ℕ) (n : ℕ) :
    (us ++ vs).getD (us.length + n) 0 = vs.getD n 0 := by
  rw [getD_eq_getElem?_getD, getElem?_append_right (Nat.le_add_right ..),
    Nat.add_sub_cancel_left, ← getD_eq_getElem?_getD]

/-- The integer part of `m` digits is stored as such. -/
theorem storeWords_eq {us vs : List ℕ} {m : ℕ} (words frac1x lim : ℕ)
    (hlen : us.length = roundUp m) (hlt : ∀ u ∈ us, u < digBase)
    (hval : bigEndian digBase us < 10 ^ m) :
    storeWords false (us ++ vs) (m % digPerDec1) (m / digPerDec1 + words) frac1x lim
      = intBytes m (bigEndian digBase us) ++ storeFrac vs words frac1x lim := by
  have hxor : ∀ x, dec1Xor false x = x := fun _ => rfl
  have hround : roundUp m = m / digPerDec1 + if m % digPerDec1 = 0 then 0 else 1 := by
    rw [roundUp_eq, digPerDec1]
    split <;> omega
  have hdiv := div_lt_digits hval
  rw [storeWords, intBytes, storeFrac]
  simp only [hxor]
  by_cases hm : m % digPerDec1 = 0
  · rw [hm, if_pos rfl, Nat.add_zero] at hround
    rw [hm, pow_zero, Nat.lt_one_iff] at hdiv
    rw [hm, hdiv, if_neg (not_not.2 rfl), if_neg (not_not.2 rfl), ← hround, ← hlen,
      take_length_add_append, flatMap_append, flatMap_miStore hlt, getD_append_add]
    simp [dig2bytes, miStore]
  · rw [if_neg hm] at hround
    obtain ⟨u, us, rfl⟩ := exists_cons_of_length_eq_add_one (hlen.trans hround)
    obtain ⟨-, hlt⟩ := forall_mem_cons.1 hlt
    have hlen : us.length = m / digPerDec1 := Nat.succ.inj (hlen.trans hround)
    have hlow := bigEndian_lt one_lt_digBase hlt
    rw [hlen] at hlow
    have hu : bigEndian digBase (u :: us) / digBase ^ (m / digPerDec1) = u := by
      rw [bigEndian_cons, hlen, Nat.mul_comm, Nat.mul_add_div (Nat.pow_pos digBase_pos),
        div_eq_of_lt hlow, Nat.add_zero]
    rw [hu] at hdiv
    rw [if_pos hm, if_pos hm, hu, cons_append, getD_cons_zero, mod_eq_of_lt hdiv,
      tail_cons, bigEndian_cons, hlen, wordBytes_add_mul, ← hlen,
      take_length_add_append, flatMap_append, flatMap_miStore hlt, getD_append_add]
    simp

/-! ### The fraction -/

/-- Whole words, with bytes of zeroes behind them. -/
theorem fracBytes_shift {k s : ℕ} (v : ℕ) (hk : k ≤ s / digPerDec1) :
    wordBytes k v ++ replicate (byteSize s - 4 * k) 0
      = fracBytes s (v * 10 ^ (s - digPerDec1 * k)) := by
  obtain ⟨j, hj⟩ := Nat.exists_eq_add_of_le hk
  have hs := div_add_mod s digPerDec1
  have hexp : s - digPerDec1 * k = digPerDec1 * j + s % digPerDec1 := by
    rw [hj, Nat.mul_add] at hs
    omega
  have hpow : v * 10 ^ (s - digPerDec1 * k) = v * digBase ^ j * 10 ^ (s % digPerDec1) := by
    rw [hexp, pow_add, pow_mul, ← digBase_eq, Nat.mul_assoc]
  rw [fracBytes, hpow, Nat.mul_div_cancel _ (Nat.pow_pos (by decide)), Nat.mul_mod_left,
    miStore_zero, hj, wordBytes_shift, append_assoc, replicate_append_replicate, byteSize,
    hj]
  congr 2
  omega

/-- Whole words and the digits of the last one. -/
theorem fracBytes_last {s : ℕ} (v : ℕ) {z : ℕ} (hz : z < digBase) :
    wordBytes (s / digPerDec1) v ++ miStore (dig2bytes (s % digPerDec1))
        (z / 10 ^ (digPerDec1 - s % digPerDec1))
      = fracBytes s (v * 10 ^ (s % digPerDec1) + z / 10 ^ (digPerDec1 - s % digPerDec1)) := by
  have hlt : z / 10 ^ (digPerDec1 - s % digPerDec1) < 10 ^ (s % digPerDec1) := by
    rw [div_lt_iff_lt_mul (Nat.pow_pos (by decide)), ← pow_add,
      Nat.add_sub_cancel' (mod_lt_digPerDec1 s).le, ← digBase_eq]
    exact hz
  rw [fracBytes, Nat.mul_comm v, Nat.mul_add_div (Nat.pow_pos (by decide)), div_eq_of_lt hlt,
    Nat.mul_add_mod, mod_eq_of_lt hlt, Nat.add_zero]

theorem growDigits_self (lim i : ℕ) : growDigits lim i digPerDec1 lim = lim := by
  rw [digPerDec1, growDigits, if_neg (fun h => Nat.lt_irrefl _ h.1)]

/-- As many digits as the bytes hold. -/
theorem growDigits_eq {x lim : ℕ} (hlim : lim < digPerDec1) (hx : x ≤ lim)
    (h : dig2bytes x = dig2bytes lim) : growDigits lim (dig2bytes x) digPerDec1 x = lim := by
  have hall : ∀ lim < digPerDec1, ∀ x ≤ lim, dig2bytes x = dig2bytes lim →
      growDigits lim (dig2bytes x) digPerDec1 x = lim := by decide
  exact hall lim hlim x hx h

theorem growDigits_word {x : ℕ} (hx : x < digPerDec1) (h : dig2bytes x = 4) :
    growDigits digPerDec1 (dig2bytes x) digPerDec1 x = digPerDec1 := by
  have hall : ∀ x < digPerDec1, dig2bytes x = 4 →
      growDigits digPerDec1 (dig2bytes x) digPerDec1 x = digPerDec1 := by decide
  exact hall x hx h

/-- The words of a fraction. -/
theorem flatMap_take {vs : List ℕ} {k : ℕ} (hlen : k ≤ vs.length) (hlt : ∀ v ∈ vs, v < digBase) :
    (vs.take k).flatMap (miStore 4) = wordBytes k (bigEndian digBase (vs.take k)) := by
  rw [flatMap_miStore fun v hv => hlt v (mem_of_mem_take hv), length_take,
    Nat.min_eq_left hlen]

/-- The last word of a fraction. -/
theorem bigEndian_take_last {vs : List ℕ} {k : ℕ} (hlen : k < vs.length) :
    bigEndian digBase (vs.take (k + 1))
      = bigEndian digBase (vs.take k) * digBase + vs.getD k 0 := by
  have h := bigEndian_take_succ (b := digBase) 0 hlen
  rwa [bigEndian_cons, bigEndian_cons, Nat.zero_mul, Nat.zero_add, Nat.zero_mul,
    Nat.zero_add] at h

section Frac

variable {vs : List ℕ} {f s k x size : ℕ} {out : Bytes}

/-- What `decimal2bin` stores of a fraction, with the bytes behind it, is that of a number. -/
def StoresFrac (vs : List ℕ) (f s size : ℕ) (out : Bytes) : Prop :=
  ∃ v, v * digBase ^ roundUp f = bigEndian digBase (vs.take (roundUp f)) * 10 ^ s ∧
    out ++ replicate (min (size - byteSize f) (byteSize s - out.length)) 0 = fracBytes s v

/-- Whole words are as many as their digits. -/
theorem storesFrac_words (hlen : roundUp f ≤ vs.length) (hlt : ∀ v ∈ vs, v < digBase)
    (hle : roundUp f ≤ s / digPerDec1) (hout : out = (vs.take (roundUp f)).flatMap (miStore 4))
    (hsize : min (size - byteSize f) (byteSize s - 4 * roundUp f) = byteSize s - 4 * roundUp f) :
    StoresFrac vs f s size out := by
  have hs := div_add_mod s digPerDec1
  have hmul := Nat.mul_le_mul_left digPerDec1 hle
  refine ⟨bigEndian digBase (vs.take (roundUp f)) * 10 ^ (s - digPerDec1 * roundUp f), ?_, ?_⟩
  · rw [Nat.mul_assoc, digBase_eq, ← pow_mul, ← pow_add, Nat.sub_add_cancel (by omega)]
  · rw [hout, flatMap_take hlen hlt, length_wordBytes, hsize, fracBytes_shift _ hle]

/-- The last word ends where the column ends. -/
theorem storesFrac_last (hlen : f / digPerDec1 < vs.length) (hlt : ∀ v ∈ vs, v < digBase)
    (hround : roundUp f = f / digPerDec1 + 1) (heq : f / digPerDec1 = s / digPerDec1)
    (hdvd : 10 ^ (digPerDec1 - s % digPerDec1) ∣ vs.getD (f / digPerDec1) 0)
    (hout : out = (vs.take (f / digPerDec1)).flatMap (miStore 4) ++ miStore
      (dig2bytes (s % digPerDec1)) (vs.getD (f / digPerDec1) 0
        / 10 ^ (digPerDec1 - s % digPerDec1)))
    (hsize : size - byteSize f = 0) : StoresFrac vs f s size out := by
  obtain ⟨q, hq⟩ := hdvd
  have hpow : 10 ^ (digPerDec1 - s % digPerDec1) * 10 ^ (s % digPerDec1) = digBase := by
    rw [← pow_add, Nat.sub_add_cancel (mod_lt_digPerDec1 s).le, digBase_eq]
  have hbytes := fracBytes_last (s := s) (bigEndian digBase (vs.take (f / digPerDec1)))
    (getD_lt hlt (f / digPerDec1))
  rw [flatMap_take hlen.le hlt] at hout
  refine ⟨bigEndian digBase (vs.take (f / digPerDec1)) * 10 ^ (s % digPerDec1)
    + vs.getD (f / digPerDec1) 0 / 10 ^ (digPerDec1 - s % digPerDec1), ?_, ?_⟩
  · rw [hround, bigEndian_take_last hlen, hq, Nat.mul_div_cancel_left _ (Nat.pow_pos (by decide)),
      pow_digits s, ← heq, pow_succ]
    zify at hpow ⊢
    linear_combination -(q * (digBase : ℤ) ^ (f / digPerDec1)) * hpow
  · rw [hsize, Nat.zero_min, replicate_zero, append_nil, hout, ← hbytes, heq]

/-- **The stored fraction** has the digits of the column. -/
theorem storeFrac_fill (hlen : roundUp f ≤ vs.length) (hlt : ∀ v ∈ vs, v < digBase) (hfs : f ≤ s)
    (hdvd : f % digPerDec1 ≠ 0 → 10 ^ (digPerDec1 - f % digPerDec1) ∣ vs.getD (f / digPerDec1) 0)
    (hplan : fracWords (s / digPerDec1) (s % digPerDec1) (f / digPerDec1) (f % digPerDec1)
      (byteSize s) (byteSize f) = (k, x, size))
    (hout : out = storeFrac vs k x (if k < s / digPerDec1 then digPerDec1 else s % digPerDec1)) :
    StoresFrac vs f s size out := by
  have hround : roundUp f = f / digPerDec1 + if f % digPerDec1 = 0 then 0 else 1 := by
    rw [roundUp_eq, digPerDec1]
    split <;> omega
  have hle : f / digPerDec1 ≤ s / digPerDec1 := Nat.div_le_div_right hfs
  have hdb := dig2bytes_le (mod_lt_digPerDec1 f)
  rw [fracWords] at hplan
  by_cases hf : f % digPerDec1 = 0
  · rw [if_pos hf, Nat.add_zero] at hround
    rw [if_neg (fun h => h.2 hf), Prod.mk.injEq, Prod.mk.injEq] at hplan
    obtain ⟨rfl, rfl, rfl⟩ := hplan
    rw [hf, storeFrac, if_neg (not_not.2 rfl), append_nil, ← hround] at hout
    refine storesFrac_words hlen hlt (hround.trans_le hle) hout ?_
    rw [byteSize, byteSize, hf, ← hround, show dig2bytes 0 = 0 from rfl, Nat.add_zero,
      Nat.mul_comm 4, Nat.min_self]
  rw [if_neg hf] at hround
  have hlen' : f / digPerDec1 < vs.length := by
    rw [hround] at hlen
    exact hlen
  rcases hle.eq_or_lt with heq | hlt'
  · -- both end in the same word
    have hmod : f % digPerDec1 ≤ s % digPerDec1 := by
      have hf9 := div_add_mod f digPerDec1
      have hs9 := div_add_mod s digPerDec1
      rw [heq] at hf9
      omega
    have hdvd' := (Nat.pow_dvd_pow 10 (Nat.sub_le_sub_left hmod digPerDec1)).trans (hdvd hf)
    split at hplan
    · rw [if_pos heq.symm, Prod.mk.injEq, Prod.mk.injEq] at hplan
      obtain ⟨rfl, rfl, rfl⟩ := hplan
      rw [storeFrac, if_neg heq.not_lt, if_pos (by omega), growDigits_self] at hout
      exact storesFrac_last hlen' hlt hround heq hdvd' hout (Nat.sub_self _)
    · rename_i hsize
      rw [Prod.mk.injEq, Prod.mk.injEq] at hplan
      obtain ⟨rfl, rfl, rfl⟩ := hplan
      have hbytes : dig2bytes (f % digPerDec1) = dig2bytes (s % digPerDec1) := by
        have hge : ¬byteSize s > byteSize f := fun h => hsize ⟨h, hf⟩
        rw [byteSize, byteSize, heq] at hge
        exact le_antisymm (dig2bytes_mono (mod_lt_digPerDec1 s) hmod) (by omega)
      rw [storeFrac, if_neg heq.not_lt, if_pos hf, growDigits_eq (mod_lt_digPerDec1 s) hmod hbytes,
        hbytes] at hout
      refine storesFrac_last hlen' hlt hround heq hdvd' hout ?_
      rw [byteSize, byteSize, heq, hbytes, Nat.sub_self]
  · -- the word is stored as a whole
    have hwords : roundUp f ≤ s / digPerDec1 := hround.trans_le hlt'
    have hbf : byteSize f ≤ 4 * roundUp f := by
      rw [byteSize, hround]
      omega
    split at hplan
    · rw [if_neg hlt'.ne', Prod.mk.injEq, Prod.mk.injEq] at hplan
      obtain ⟨rfl, rfl, rfl⟩ := hplan
      rw [storeFrac, if_neg (not_not.2 rfl), append_nil, ← hround] at hout
      exact storesFrac_words hlen hlt hwords hout (by omega)
    · rename_i hsize
      rw [Prod.mk.injEq, Prod.mk.injEq] at hplan
      obtain ⟨rfl, rfl, rfl⟩ := hplan
      have hge : ¬byteSize s > byteSize f := fun h => hsize ⟨h, hf⟩
      have hfull : dig2bytes (f % digPerDec1) = 4 ∧ byteSize s = 4 * roundUp f := by
        rw [byteSize, byteSize] at hge
        rw [byteSize, hround]
        omega
      rw [storeFrac, if_pos hlt', if_pos hf, growDigits_word (mod_lt_digPerDec1 f) hfull.1,
        hfull.1, Nat.sub_self, pow_zero, Nat.div_one] at hout
      refine storesFrac_words hlen hlt hwords ?_ (by omega)
      rw [hout, hround, take_succ_eq_append_getElem hlen', flatMap_append,
        flatMap_singleton, getD_eq_getElem?_getD, getElem?_eq_getElem hlen']
      rfl

end Frac

/-! ## The mask -/

/-- An image with all bits inverted if the number is negative. -/
def masked (mask : Bool) (bytes : Bytes) : Bytes := bytes.map (· ^^^ maskByte mask)

@[simp] theorem masked_append (mask : Bool) (a b : Bytes) :
    masked mask (a ++ b) = masked mask a ++ masked mask b :=
  map_append

@[simp] theorem length_masked (mask : Bool) (a : Bytes) : (masked mask a).length = a.length :=
  length_map _

theorem masked_false (bytes : Bytes) : masked false bytes = bytes := by
  rw [masked, maskByte, if_neg Bool.false_ne_true]
  simp

theorem masked_replicate (mask : Bool) (n : ℕ) :
    masked mask (replicate n 0) = replicate n (maskByte mask) := by
  rw [masked, map_replicate]
  simp

theorem miStore_complement : ∀ {n m x : ℕ}, n ≤ m → x < 256 ^ m →
    miStore n (256 ^ m - 1 - x) = (miStore n x).map (· ^^^ 255)
  | 0, _, _, _, _ => rfl
  | n + 1, m + 1, x, hnm, hx => by
      rw [pow_succ] at hx
      have hdiv : (256 ^ (m + 1) - 1 - x) / 256 = 256 ^ m - 1 - x / 256 := by
        rw [pow_succ]
        omega
      have hbyte : UInt8.ofNat (256 ^ (m + 1) - 1 - x) = UInt8.ofNat x ^^^ 255 := by
        apply UInt8.toNat_inj.1
        rw [toNat_xor_255, UInt8.toNat_ofNat', UInt8.toNat_ofNat', pow_succ]
        omega
      rw [miStore, miStore, hdiv, hbyte, miStore_complement (Nat.le_of_succ_le_succ hnm)
        ((div_lt_iff_lt_mul (by decide)).2 hx), map_append, map_singleton]

theorem dig2bytes_le_four (d : ℕ) : dig2bytes d ≤ 4 := by
  have hall : ∀ d < 10, dig2bytes d ≤ 4 := by decide
  rcases Nat.lt_or_ge d 10 with h | h
  · exact hall d h
  · rw [dig2bytes, getD_eq_getElem?_getD, getElem?_eq_none h]
    decide

/-- **A word under the mask** is stored with its bits inverted. -/
theorem miStore_dec1Xor (mask : Bool) {n x : ℕ} (hn : n ≤ 4) (hx : x < digBase) :
    miStore n (dec1Xor mask x) = masked mask (miStore n x) := by
  cases mask with
  | false => exact (masked_false _).symm
  | true => exact miStore_complement (m := 4) hn (hx.trans (by decide))

theorem storeWords_mask (mask : Bool) {buf : List ℕ} (hlt : ∀ w ∈ buf, w < digBase)
    (intg1x words frac1x lim : ℕ) : storeWords mask buf intg1x words frac1x lim
      = masked mask (storeWords false buf intg1x words frac1x lim) := by
  have hflat : ∀ {ws : List ℕ}, (∀ w ∈ ws, w < digBase) →
      ws.flatMap (fun w => miStore 4 (dec1Xor mask w))
        = masked mask (ws.flatMap fun w => miStore 4 (dec1Xor false w)) := by
    intro ws
    induction ws with
    | nil => exact fun _ => rfl
    | cons w ws ih =>
      intro hws
      obtain ⟨hw, hws⟩ := forall_mem_cons.1 hws
      rw [flatMap_cons, flatMap_cons, masked_append, ih hws,
        miStore_dec1Xor mask le_rfl hw]
      rfl
  have hxor : ∀ {n x : ℕ}, n ≤ 4 → x < digBase →
      miStore n (dec1Xor mask x) = masked mask (miStore n (dec1Xor false x)) :=
    fun hn hx => miStore_dec1Xor mask hn hx
  have htail : ∀ w ∈ (if intg1x ≠ 0 then buf.tail else buf), w < digBase := by
    split
    · exact fun w hw => hlt w (mem_of_mem_tail hw)
    · exact hlt
  simp only [storeWords, masked_append]
  generalize (if intg1x ≠ 0 then buf.tail else buf) = rest at htail ⊢
  congr 1
  · congr 1
    · split
      · exact hxor (dig2bytes_le_four _) ((Nat.mod_le ..).trans_lt (getD_lt hlt 0))
      · rfl
    · exact hflat fun w hw => htail w (mem_of_mem_take hw)
  · split
    · exact hxor (dig2bytes_le_four _) ((Nat.div_le_self ..).trans_lt (getD_lt htail _))
    · rfl

/-! ## `decimal2bin` -/

/-- What is behind the integer part stays there. -/
theorem skipZeroWords_drop : ∀ {ws : List ℕ} {prec i : ℕ},
    (0 < prec → (prec - 1) % digPerDec1 + 1 = i) → roundUp prec ≤ ws.length →
    (skipZeroWords ws prec i).1.drop (roundUp (skipZeroWords ws prec i).2)
      = ws.drop (roundUp prec)
  | [], prec, i, _, _ => rfl
  | w :: ws, prec, i, hi, hsize => by
      rw [skipZeroWords]
      split
      · rename_i hzero
        have hi := hi hzero.1
        rw [digPerDec1] at hi
        have hround : roundUp prec = roundUp (prec - i) + 1 := by
          rw [roundUp_eq, roundUp_eq]
          omega
        rw [hround, drop_succ_cons]
        refine skipZeroWords_drop (fun _ => ?_) ?_
        · rw [digPerDec1]
          omega
        · rw [hround, length_cons] at hsize
          omega
      · rfl

/-- **A decimal that fits a column** of so many digits: its value has no more digits before the
decimal point, no more fraction digits are stored, and those of the last word that are not in use
are zero. -/
structure StorableDecimal (precision scale : ℕ) extends ValidDecimal where
  scale_le : scale ≤ precision := by decide
  intg_lt : intg < 2 ^ 16 := by decide
  frac_le : frac ≤ scale
  fits : bigEndian digBase (buf.take (roundUp intg)) < 10 ^ (precision - scale)
  unused_zero : frac % digPerDec1 ≠ 0 →
    10 ^ (digPerDec1 - frac % digPerDec1) ∣ buf.getD (roundUp intg + frac / digPerDec1) 0

section Decimal2bin

variable {precision scale : ℕ} (d : StorableDecimal precision scale)

/-- The integer part. -/
def StorableDecimal.intPart : ℕ := bigEndian digBase (d.buf.take (roundUp d.intg))

/-- The words of the fraction. -/
def StorableDecimal.fracWords : List ℕ := d.buf.drop (roundUp d.intg)

/-- **The integer part without its leading zeroes**: its words, and their digits. -/
theorem removeLeadingZeroes_eq : ∃ us m,
    removeLeadingZeroes d.toDecimalT = (us ++ d.fracWords, m) ∧ us.length = roundUp m ∧
      (∀ u ∈ us, u < digBase) ∧ bigEndian digBase us = d.intPart ∧ d.intPart < 10 ^ m ∧
      m ≤ precision - scale := by
  have hsize : roundUp d.intg ≤ d.buf.length := (Nat.le_add_right ..).trans d.size_le
  have hdrop := skipZeroWords_drop
    (i := (d.intg - 1) % digPerDec1 + 1) (fun _ => rfl) hsize
  have hspec := skipZeroWords_spec
    (i := (d.intg - 1) % digPerDec1 + 1) (fun hpos => ⟨rfl, d.first_lt hpos⟩) hsize d.word_lt
  rcases hr : skipZeroWords d.buf d.intg ((d.intg - 1) % digPerDec1 + 1) with ⟨ws, prec⟩
  have hskip : removeLeadingZeroes d.toDecimalT = if prec > 0 then
      (ws, skipZeroDigits (ws.getD 0 0) ((prec - 1) % digPerDec1) prec) else (ws, 0) := by
    rw [removeLeadingZeroes]
    dsimp only
    rw [mod_eq_of_lt d.intg_lt, hr]
  rw [hr] at hspec hdrop
  rcases hspec with ⟨rfl, hval⟩ | hlead
  · refine ⟨[], 0, ?_, rfl, fun _ h => (nomatch h), hval.symm, ?_, Nat.zero_le _⟩
    · have hrest : ws = d.fracWords := by
        dsimp only at hdrop
        rw [show roundUp 0 = 0 by decide, drop_zero] at hdrop
        exact hdrop
      rw [hskip, if_neg (Nat.lt_irrefl 0), hrest, nil_append]
    · rw [StorableDecimal.intPart, hval]
      decide
  · obtain ⟨w, ws, j, a, rfl, hwords, ha, hj, heq, hge, hlt⟩ := hlead.digits
    have hlen : (ws.take a).length = a := by rw [length_take, Nat.min_eq_left ha]
    have htake : ∀ x ∈ w :: ws.take a, x < digBase := fun x hx =>
      hlead.word_lt x (mem_of_mem_take (i := a + 1) hx)
    have hval : bigEndian digBase (w :: ws.take a) = d.intPart := by
      rw [StorableDecimal.intPart, ← hlead.value, hwords, take_succ_cons]
    have hlow := bigEndian_lt one_lt_digBase (forall_mem_cons.1 htake).2
    have hpow : ∀ n, 10 ^ (digPerDec1 * a + n) = 10 ^ n * digBase ^ a := fun n => by
      rw [pow_add, pow_mul, ← digBase_eq, Nat.mul_comm]
    have hbelow : d.intPart < 10 ^ (digPerDec1 * a + j + 1) := by
      rw [← hval, bigEndian_cons, hlen, Nat.add_assoc, hpow]
      rw [hlen] at hlow
      nlinarith [Nat.mul_le_mul_right (digBase ^ a) hlt]
    have habove : 10 ^ (digPerDec1 * a + j) ≤ d.intPart := by
      rw [← hval, bigEndian_cons, hlen, hpow]
      exact (Nat.mul_le_mul_right _ hge).trans (Nat.le_add_right ..)
    refine ⟨w :: ws.take a, digPerDec1 * a + j + 1, ?_, ?_, htake, hval, hbelow, ?_⟩
    · rw [hskip, if_pos hlead.pos, heq]
      rw [hwords, drop_succ_cons] at hdrop
      rw [StorableDecimal.fracWords, ← hdrop, cons_append, take_append_drop]
    · rw [length_cons, hlen, roundUp_eq]
      rw [digPerDec1] at hj ⊢
      omega
    · exact (Nat.pow_lt_pow_iff_right (by decide)).1 (habove.trans_lt d.fits)

/-- **The image of a decimal**: both parts with the digits of the column, under the mask. -/
def columnBytes (mask : Bool) (precision scale intPart fracPart : ℕ) : Bytes :=
  invertFirst (masked mask (intBytes (precision - scale) intPart ++ fracBytes scale fracPart))

theorem byteSize_mono {m n : ℕ} (h : m ≤ n) : byteSize m ≤ byteSize n := by
  have hm := div_add_mod m digPerDec1
  have hn := div_add_mod n digPerDec1
  have hle : m / digPerDec1 ≤ n / digPerDec1 := Nat.div_le_div_right h
  have hdb := dig2bytes_le (mod_lt_digPerDec1 m)
  rw [byteSize, byteSize]
  rcases hle.eq_or_lt with heq | hlt
  · rw [heq] at hm ⊢
    have := dig2bytes_mono (d := m % digPerDec1) (mod_lt_digPerDec1 n) (by omega)
    omega
  · omega

theorem eq_zero_of_byteSize {n : ℕ} (h : byteSize n = 0) : n = 0 := by
  have hn := div_add_mod n digPerDec1
  rw [byteSize] at h
  have hdiv : n / digPerDec1 = 0 := by omega
  have hmod : n % digPerDec1 = 0 := by
    by_contra h0
    have := dig2bytes_pos (mod_lt_digPerDec1 n) h0
    omega
  rw [hdiv, hmod] at hn
  exact hn.symm

/-- The value of a storable decimal, from its two parts. -/
theorem StorableDecimal.ofDigits_down : Nat.ofDigits digBase d.down
    = d.intPart * digBase ^ roundUp d.frac
      + bigEndian digBase (d.fracWords.take (roundUp d.frac)) := by
  have hlen : (d.fracWords.take (roundUp d.frac)).length = roundUp d.frac := by
    have := d.size_le
    rw [StorableDecimal.fracWords, length_take, length_drop]
    omega
  have hdown : Nat.ofDigits digBase d.down
      = bigEndian digBase (d.buf.take (roundUp d.intg + roundUp d.frac)) := rfl
  rw [hdown, take_add, bigEndian_append]
  exact congrArg (fun n => d.intPart * digBase ^ n + _) hlen

/-- The choice that `decimal2bin` makes for a zero without fraction digits changes nothing. -/
theorem storeWords_nil (mask : Bool) (buf : List ℕ) (lim : ℕ) :
    storeWords mask buf 0 0 0 lim = [] := by
  simp [storeWords]

/-- **`decimal2bin` succeeds**, and stores the words between bytes of the mask. -/
theorem decimal2bin_words {us : List ℕ} {m k x size : ℕ}
    (hzero : removeLeadingZeroes d.toDecimalT = (us ++ d.fracWords, m))
    (hbelow : d.intPart < 10 ^ m) (hm : m ≤ precision - scale)
    (hplan : fracWords (scale / digPerDec1) (scale % digPerDec1)
      (d.frac / digPerDec1) (d.frac % digPerDec1) (byteSize scale) (byteSize d.frac) = (k, x, size))
    {bytes : Bytes}
    (hbytes : bytes = replicate (byteSize (precision - scale) - byteSize m) (maskByte d.sign)
      ++ storeWords d.sign (us ++ d.fracWords) (m % digPerDec1) (m / digPerDec1 + k) x
        (if k < scale / digPerDec1 then digPerDec1 else scale % digPerDec1)) :
    decimal2bin d.toDecimalT precision scale = (.ok, invertFirst (bytes ++ replicate
      (min (size - byteSize d.frac) (byteSize scale + byteSize (precision - scale) - bytes.length))
      (maskByte d.sign))) := by
  have hsub : ∀ n, n - n / digPerDec1 * digPerDec1 = n % digPerDec1 := fun n => by
    rw [Nat.mul_comm, ← Nat.mod_eq_sub_mul_div]
  have hsize : ∀ n, n / digPerDec1 * 4 + dig2bytes (n % digPerDec1) = byteSize n := fun _ => rfl
  have hfrac := (byteSize_mono d.frac_le).not_gt
  rw [decimal2bin]
  simp only [hzero, hsub, hsize, hplan]
  rw [if_neg hfrac]
  by_cases hz : m + byteSize d.frac = 0
  · obtain rfl : m = 0 := by omega
    have hf : d.frac = 0 := eq_zero_of_byteSize (by omega)
    have hint : d.intPart = 0 := by simpa using hbelow
    have hsign : d.sign = false := by
      by_contra h
      refine d.no_neg_zero (Bool.eq_true_of_not_eq_false h) ?_
      rw [DecimalT.magnitude, d.ofDigits_down, hint, hf]
      simp [roundUp_eq]
    rw [hf, fracWords, if_neg (fun h => h.2 rfl), Prod.mk.injEq, Prod.mk.injEq] at hplan
    obtain ⟨rfl, rfl, rfl⟩ := hplan
    rw [if_pos hz]
    dsimp only
    rw [if_neg (Nat.not_lt_zero _)]
    dsimp only
    rw [hbytes, hsign]
    simp [storeWords_nil]
  · rw [if_neg hz]
    dsimp only
    rw [if_neg hm.not_gt]
    dsimp only
    rw [hbytes]

/-- **The image is that of the value**, with the digits of the column. -/
theorem decimal2bin_eq : ∃ v, v * digBase ^ roundUp d.frac
      = bigEndian digBase (d.fracWords.take (roundUp d.frac)) * 10 ^ scale ∧
    decimal2bin d.toDecimalT precision scale
      = (.ok, columnBytes d.sign precision scale d.intPart v) := by
  obtain ⟨us, m, hzero, hlen, hlt, hval, hbelow, hm⟩ := removeLeadingZeroes_eq d
  rcases hplan : fracWords (scale / digPerDec1) (scale % digPerDec1) (d.frac / digPerDec1)
    (d.frac % digPerDec1) (byteSize scale) (byteSize d.frac) with ⟨k, x, size⟩
  have hfw : ∀ w ∈ d.fracWords, w < digBase := fun w hw => d.word_lt w (mem_of_mem_drop hw)
  have hfwlen : roundUp d.frac ≤ d.fracWords.length := by
    have := d.size_le
    rw [StorableDecimal.fracWords, length_drop]
    omega
  have hunused : d.frac % digPerDec1 ≠ 0 →
      10 ^ (digPerDec1 - d.frac % digPerDec1) ∣ d.fracWords.getD (d.frac / digPerDec1) 0 := by
    intro h
    rw [StorableDecimal.fracWords, getD_eq_getElem?_getD, getElem?_drop,
      ← getD_eq_getElem?_getD]
    exact d.unused_zero h
  generalize hout : storeFrac d.fracWords k x
    (if k < scale / digPerDec1 then digPerDec1 else scale % digPerDec1) = out
  obtain ⟨v, hv, hfill⟩ := storeFrac_fill hfwlen hfw d.frac_le hunused hplan hout.symm
  have hbytes : masked d.sign (intBytes (precision - scale) d.intPart ++ out)
      = replicate (byteSize (precision - scale) - byteSize m) (maskByte d.sign)
        ++ storeWords d.sign (us ++ d.fracWords) (m % digPerDec1) (m / digPerDec1 + k) x
          (if k < scale / digPerDec1 then digPerDec1 else scale % digPerDec1) := by
    rw [storeWords_mask d.sign (forall_mem_append.2 ⟨hlt, hfw⟩),
      storeWords_eq _ _ _ hlen hlt (hval ▸ hbelow), hval, hout, ← fill_intBytes hbelow hm,
      ← masked_replicate, ← masked_append, append_assoc]
  refine ⟨v, hv, ?_⟩
  rw [decimal2bin_words d hzero hbelow hm hplan hbytes, columnBytes, length_masked,
    length_append, length_intBytes, ← hfill, ← masked_replicate, ← masked_append,
    append_assoc, show byteSize scale + byteSize (precision - scale)
      - (byteSize (precision - scale) + out.length) = byteSize scale - out.length by omega]

end Decimal2bin

end EloqSql
