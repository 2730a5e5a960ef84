import EloqSql.Decimal.Image

/-!
# Decimal/Column — images of decimals keep value and order

The bytes of both parts, read as one number, grow with the number of the digits of a column
(`compare_digitBytes`), and their highest bit is clear (`FirstLow`). So the mask makes `-1 - n` of
the number `n` of the bytes of a negative decimal (`leInt_masked`), inverting the highest bit adds
half of the range to that, and images compare as values. The same fact read backwards restores each
word.
-/

namespace EloqSql

open Numeral List
open Nat (div_add_mod' mod_lt)

/-! ## The highest bit -/

/-- The highest bit of an image is clear. -/
def FirstLow (a : Bytes) : Prop := a = [] ∨ 2 * leNat a.reverse < 256 ^ a.length

theorem FirstLow.append {a b : Bytes} (ha : FirstLow a) (hb : a = [] → FirstLow b) :
    FirstLow (a ++ b) := by
  rcases ha with rfl | ha
  · exact hb rfl
  rcases Nat.eq_zero_or_pos a.length with h0 | hpos
  · obtain rfl := length_eq_zero_iff.1 h0
    exact hb rfl
  refine .inr ?_
  have hlow := leNat_lt b.reverse
  obtain ⟨n, hn⟩ : ∃ n, a.length = n + 1 := ⟨a.length - 1, by omega⟩
  rw [hn, pow_succ] at ha
  have hle : leNat a.reverse + 1 ≤ 256 ^ n * 128 := by omega
  rw [reverse_append, leNat_append, length_append, pow_add, hn, pow_succ]
  rw [length_reverse] at hlow ⊢
  calc 2 * (leNat b.reverse + 256 ^ b.length * leNat a.reverse)
      < 2 * (256 ^ b.length * (leNat a.reverse + 1)) := by
        rw [Nat.mul_add (256 ^ b.length), Nat.mul_one]
        omega
    _ ≤ 2 * (256 ^ b.length * (256 ^ n * 128)) :=
        Nat.mul_le_mul_left _ (Nat.mul_le_mul_left _ hle)
    _ = 256 ^ n * 256 * 256 ^ b.length := by ring

theorem firstLow_miStore {n x : ℕ} (h : n = 0 ∨ 2 * x < 256 ^ n) : FirstLow (miStore n x) := by
  rcases h with rfl | h
  · exact .inl rfl
  · refine .inr ?_
    rwa [leNat_miStore (by omega), length_miStore]

/-- The bytes for some digits leave the highest bit clear. -/
theorem two_mul_lt_dig2bytes {d x : ℕ} (hd : d < digPerDec1) (hx : x < 10 ^ d) :
    dig2bytes d = 0 ∨ 2 * x < 256 ^ dig2bytes d := by
  have hall : ∀ d < digPerDec1, dig2bytes d = 0 ∨ 2 * 10 ^ d ≤ 256 ^ dig2bytes d := by decide
  exact (hall d hd).imp_right fun h => by omega

theorem two_mul_lt_word {x : ℕ} (hx : x < digBase) : 2 * x < 256 ^ 4 := by
  have : 2 * digBase ≤ 256 ^ 4 := by decide
  omega

theorem firstLow_wordBytes (k v : ℕ) : FirstLow (wordBytes k v) := by
  cases k with
  | zero => exact .inl rfl
  | succ k =>
    rw [wordBytes_succ]
    refine (firstLow_miStore (.inr (two_mul_lt_word (mod_lt _ digBase_pos)))).append fun h => ?_
    have := congrArg length h
    rw [length_miStore] at this
    exact nomatch this

/-- **The mask makes `-1 - n` of `n`.** -/
theorem leInt_masked (mask : Bool) {a : Bytes} (ha : FirstLow a) (hne : a ≠ []) :
    leInt (masked mask a).reverse
      = if mask then -1 - (leNat a.reverse : ℤ) else leNat a.reverse := by
  have hlow := ha.resolve_left hne
  cases mask with
  | false =>
    rw [masked_false, leInt, length_reverse, if_pos hlow]
    rfl
  | true =>
    have hcompl := leNat_complement a.reverse
    rw [length_reverse] at hcompl
    have hmap : (masked true a).reverse = a.reverse.map (· ^^^ 255) := map_reverse.symm
    obtain ⟨n, hn⟩ : ∃ n, a.length = n + 1 :=
      ⟨a.length - 1, by have := length_pos_of_ne_nil hne; omega⟩
    rw [hn, pow_succ] at hcompl hlow
    rw [hmap, leInt, length_map, length_reverse, hn, pow_succ, if_neg (by omega)]
    simp only [if_true]
    omega

/-! ## The order -/

theorem firstLow_intBytes {n v : ℕ} (hv : v < 10 ^ n) : FirstLow (intBytes n v) :=
  (firstLow_miStore (two_mul_lt_dig2bytes (mod_lt_digPerDec1 n) (div_lt_digits hv))).append
    fun _ => firstLow_wordBytes _ _

theorem firstLow_fracBytes (n v : ℕ) : FirstLow (fracBytes n v) :=
  (firstLow_wordBytes _ _).append fun _ => firstLow_miStore
    (two_mul_lt_dig2bytes (mod_lt_digPerDec1 n) (mod_lt _ (Nat.pow_pos (by decide))))

theorem compare_intBytes {n v w : ℕ} (hv : v < 10 ^ n) (hw : w < 10 ^ n) :
    compare (intBytes n v) (intBytes n w) = compare v w := by
  have hlow : ∀ x : ℕ, wordBytes (n / digPerDec1) x
      = wordBytes (n / digPerDec1) (x % digBase ^ (n / digPerDec1)) := fun x => by
    conv_lhs => rw [← div_add_mod' x (digBase ^ (n / digPerDec1))]
    rw [wordBytes_add_mul]
  have hpos : 0 < digBase ^ (n / digPerDec1) := Nat.pow_pos digBase_pos
  have hstore : ∀ {x : ℕ}, x < 10 ^ n → x / digBase ^ (n / digPerDec1)
      < 256 ^ dig2bytes (n % digPerDec1) := fun hx =>
    (div_lt_digits hx).trans_le (pow_le_dig2bytes (mod_lt_digPerDec1 n))
  rw [intBytes, intBytes, MemCompare.ComparesAs.of_length_eq (by simp),
    compare_miStore (hstore hv) (hstore hw), hlow v, hlow w,
    compare_wordBytes (mod_lt _ hpos) (mod_lt _ hpos), compare_divMod _ _ _ hpos]

theorem compare_fracBytes {n v w : ℕ} (hv : v < 10 ^ n) (hw : w < 10 ^ n) :
    compare (fracBytes n v) (fracBytes n w) = compare v w := by
  have hpos : 0 < 10 ^ (n % digPerDec1) := Nat.pow_pos (by decide)
  have hdiv : ∀ {x : ℕ}, x < 10 ^ n → x / 10 ^ (n % digPerDec1) < digBase ^ (n / digPerDec1) :=
    fun hx => (Nat.div_lt_iff_lt_mul hpos).2 (by rwa [← pow_digits])
  have hstore : ∀ x : ℕ, x % 10 ^ (n % digPerDec1) < 256 ^ dig2bytes (n % digPerDec1) := fun x =>
    (mod_lt x hpos).trans_le (pow_le_dig2bytes (mod_lt_digPerDec1 n))
  rw [fracBytes, fracBytes, MemCompare.ComparesAs.of_length_eq (by simp),
    compare_wordBytes (hdiv hv) (hdiv hw), compare_miStore (hstore v) (hstore w),
    compare_divMod _ _ _ hpos]

section Column

variable {precision scale : ℕ}

/-- The bytes of a number with the digits of a column. -/
def digitBytes (precision scale n : ℕ) : Bytes :=
  intBytes (precision - scale) (n / 10 ^ scale) ++ fracBytes scale (n % 10 ^ scale)

theorem length_digitBytes (precision scale n : ℕ) :
    (digitBytes precision scale n).length = byteSize (precision - scale) + byteSize scale := by
  rw [digitBytes, length_append, length_intBytes, length_fracBytes]

variable {m n : ℕ}

theorem firstLow_digitBytes (hn : n / 10 ^ scale < 10 ^ (precision - scale)) :
    FirstLow (digitBytes precision scale n) :=
  (firstLow_intBytes hn).append fun _ => firstLow_fracBytes _ _

/-- **The bytes of a column grow with the number.** -/
theorem compare_digitBytes (hm : m / 10 ^ scale < 10 ^ (precision - scale))
    (hn : n / 10 ^ scale < 10 ^ (precision - scale)) :
    compare (digitBytes precision scale m) (digitBytes precision scale n) = compare m n := by
  have hpos : 0 < 10 ^ scale := Nat.pow_pos (by decide)
  rw [digitBytes, digitBytes, MemCompare.ComparesAs.of_length_eq
      (by rw [length_intBytes, length_intBytes]),
    compare_intBytes hm hn, compare_fracBytes (mod_lt _ hpos) (mod_lt _ hpos),
    compare_divMod _ _ _ hpos]

theorem invertFirst_eq (a : Bytes) : invertFirst a = sortInteger false a.reverse := by
  cases a with
  | nil => rfl
  | cons b a =>
    rw [reverse_cons, sortInteger_append]
    simp [invertFirst]

/-- **Images compare as signed numbers.** -/
theorem compare_invertFirst {a b : Bytes} (ha : FirstLow a) (hb : FirstLow b)
    (hlen : a.length = b.length) (hne : a ≠ []) (s t : Bool) :
    compare (invertFirst (masked s a)) (invertFirst (masked t b))
      = compare (if s then -1 - (leNat a.reverse : ℤ) else leNat a.reverse)
        (if t then -1 - (leNat b.reverse : ℤ) else leNat b.reverse) := by
  have hne' : b ≠ [] := fun h => hne (length_eq_zero_iff.1 (hlen.trans (by rw [h]; rfl)))
  rw [invertFirst_eq, invertFirst_eq, compare_sortInteger false (by simp [hlen]),
    leInt_masked s ha hne, leInt_masked t hb hne']
  rfl

/-- The image of a storable decimal, and its value, from one number of digits. -/
theorem StorableDecimal.image_eq (d : StorableDecimal precision scale) :
    ∃ n : ℕ, n / 10 ^ scale < 10 ^ (precision - scale) ∧ d.magnitude = n / (10 : ℚ) ^ scale ∧
      decimal2bin d.toDecimalT precision scale
        = (.ok, invertFirst (masked d.sign (digitBytes precision scale n))) := by
  obtain ⟨v, hv, hbin⟩ := decimal2bin_eq d
  have hpos : 0 < 10 ^ scale := Nat.pow_pos (by decide)
  have hlen : (d.fracWords.take (roundUp d.frac)).length = roundUp d.frac := by
    have := d.size_le
    rw [StorableDecimal.fracWords, length_take, length_drop]
    omega
  have hlow : bigEndian digBase (d.fracWords.take (roundUp d.frac)) < digBase ^ roundUp d.frac := by
    refine (bigEndian_lt one_lt_digBase fun w hw => d.word_lt w ?_).trans_eq
      (congrArg (digBase ^ ·) hlen)
    exact mem_of_mem_drop (mem_of_mem_take hw)
  have hvlt : v < 10 ^ scale := by
    refine Nat.lt_of_mul_lt_mul_right (a := digBase ^ roundUp d.frac) ?_
    rw [hv, Nat.mul_comm (10 ^ scale)]
    exact Nat.mul_lt_mul_of_pos_right hlow hpos
  have hdiv : (d.intPart * 10 ^ scale + v) / 10 ^ scale = d.intPart := by
    rw [Nat.mul_comm, Nat.mul_add_div hpos, Nat.div_eq_of_lt hvlt, Nat.add_zero]
  have hmod : (d.intPart * 10 ^ scale + v) % 10 ^ scale = v := by
    rw [Nat.mul_comm, Nat.mul_add_mod, Nat.mod_eq_of_lt hvlt]
  refine ⟨d.intPart * 10 ^ scale + v, hdiv.trans_lt d.fits, ?_, ?_⟩
  · have hbase : (digBase : ℚ) ≠ 0 := by
      exact_mod_cast digBase_pos.ne'
    rw [DecimalT.magnitude, d.ofDigits_down]
    have hq : (v : ℚ) * (digBase : ℚ) ^ roundUp d.frac
        = (bigEndian digBase (d.fracWords.take (roundUp d.frac)) : ℚ) * 10 ^ scale := by
      exact_mod_cast hv
    push_cast
    field_simp
    linear_combination -hq
  · rw [hbin, columnBytes, digitBytes, hdiv, hmod]

/-- A column without digits holds zero only. -/
theorem StorableDecimal.sign_of_nil {d : StorableDecimal precision scale} {n : ℕ}
    (hn : n / 10 ^ scale < 10 ^ (precision - scale)) (hmag : d.magnitude = n / (10 : ℚ) ^ scale)
    (hnil : digitBytes precision scale n = []) : precision = 0 ∧ d.value = 0 ∧ d.sign = false := by
  have hlen := length_digitBytes precision scale n
  rw [hnil, length_nil] at hlen
  have hs := eq_zero_of_byteSize (n := scale) (by omega)
  have hp := eq_zero_of_byteSize (n := precision - scale) (by omega)
  have hle := d.scale_le
  have hzero : d.magnitude = 0 := by
    rw [hp, hs, pow_zero, Nat.div_one, Nat.lt_one_iff] at hn
    rw [hmag, hn]
    simp
  refine ⟨by omega, ?_, ?_⟩
  · rw [DecimalT.value, hzero, neg_zero, ite_self]
  · by_contra h
    exact d.no_neg_zero (Bool.eq_true_of_not_eq_false h) hzero

theorem compare_eq_of_lt_iff {α β : Type*} [LinearOrder α] [LinearOrder β] {a b : α} {c d : β}
    (h : a < b ↔ c < d) (h' : b < a ↔ d < c) : compare a b = compare c d := by
  rcases lt_trichotomy c d with hlt | rfl | hgt
  · rw [compare_lt_iff_lt.2 hlt, compare_lt_iff_lt.2 (h.2 hlt)]
  · rw [compare_eq_iff_eq.2 rfl, compare_eq_iff_eq]
    exact le_antisymm (not_lt.1 (h'.not.2 (lt_irrefl c))) (not_lt.1 (h.not.2 (lt_irrefl c)))
  · rw [compare_gt_iff_gt.2 hgt, compare_gt_iff_gt.2 (h'.2 hgt)]

/-- **Images compare as values.** -/
theorem compare_decimal2bin (x y : StorableDecimal precision scale) :
    compare (decimal2bin x.toDecimalT precision scale).2
        (decimal2bin y.toDecimalT precision scale).2
      = compare x.value y.value := by
  obtain ⟨m, hm, hmag, hbin⟩ := x.image_eq
  obtain ⟨n, hn, hmag', hbin'⟩ := y.image_eq
  have hlen : (digitBytes precision scale m).length = (digitBytes precision scale n).length := by
    rw [length_digitBytes, length_digitBytes]
  rw [hbin, hbin']
  by_cases hne : digitBytes precision scale m = []
  · have hne' : digitBytes precision scale n = [] :=
      length_eq_zero_iff.1 (hlen.symm.trans (by rw [hne]; rfl))
    obtain ⟨-, hx, -⟩ := StorableDecimal.sign_of_nil hm hmag hne
    obtain ⟨-, hy, -⟩ := StorableDecimal.sign_of_nil hn hmag' hne'
    rw [hne, hne', hx, hy, compare_eq_iff_eq.2 rfl]
    rfl
  have hcmp := compare_digitBytes hm hn
  rw [compare_leNat_reverse hlen] at hcmp
  dsimp only
  rw [compare_invertFirst (firstLow_digitBytes hm) (firstLow_digitBytes hn) hlen hne]
  have hpow : (0 : ℚ) < 10 ^ scale := by positivity
  have hlt : x.magnitude < y.magnitude
      ↔ leNat (digitBytes precision scale m).reverse
        < leNat (digitBytes precision scale n).reverse := by
    rw [hmag, hmag', div_lt_div_iff_of_pos_right hpow, Nat.cast_lt, ← Nat.compare_eq_lt, ← hcmp,
      Nat.compare_eq_lt]
  have hgt : y.magnitude < x.magnitude
      ↔ leNat (digitBytes precision scale n).reverse
        < leNat (digitBytes precision scale m).reverse := by
    rw [hmag, hmag', div_lt_div_iff_of_pos_right hpow, Nat.cast_lt, ← Nat.compare_eq_gt, ← hcmp,
      Nat.compare_eq_gt]
  cases hx : x.sign <;> cases hy : y.sign
  · rw [Decimal.value_of_sign hx, Decimal.value_of_sign hy]
    refine compare_eq_of_lt_iff ?_ ?_ <;> simp [hlt, hgt]
  · have := Decimal.value_lt_of_sign hy hx
    rw [compare_gt_iff_gt.2 this, compare_gt_iff_gt]
    simp only [Bool.false_eq_true, if_false, if_true]
    omega
  · have := Decimal.value_lt_of_sign hx hy
    rw [compare_lt_iff_lt.2 this, compare_lt_iff_lt]
    simp only [Bool.false_eq_true, if_false, if_true]
    omega
  · rw [Decimal.value_of_sign hx, Decimal.value_of_sign hy]
    refine compare_eq_of_lt_iff ?_ ?_ <;> simp [hlt, hgt]

end Column

/-! ## Reading -/

section Read

variable {mask : Bool}

/-- **The mask restores a word.** -/
theorem dec1Xor_miSint {n x : ℕ} (hpos : 0 < n) (hn : n ≤ 4) (hx : 2 * x < 256 ^ n) :
    dec1Xor mask (miSint (masked mask (miStore n x))) = x := by
  have hne : miStore n x ≠ [] := fun h => by
    have := congrArg length h
    rw [length_miStore, length_nil] at this
    omega
  have hlt : 256 ^ n ≤ 2 ^ 32 := Nat.pow_le_pow_right (n := 256) (by decide) hn
  rw [miSint, leInt_masked mask (firstLow_miStore (.inr hx)) hne, leNat_miStore (by omega)]
  cases mask with
  | false =>
    simp only [Bool.false_eq_true, if_false, dec1Xor]
    omega
  | true =>
    simp only [if_true, dec1Xor]
    omega

theorem take_masked_append {a rest : Bytes} {n : ℕ} (h : a.length = n) :
    (masked mask a ++ rest).take n = masked mask a := by
  rw [← h, ← length_masked mask a, take_left]

theorem drop_masked_append {a rest : Bytes} {n : ℕ} (h : a.length = n) :
    (masked mask a ++ rest).drop n = rest := by
  rw [← h, ← length_masked mask a, drop_left]

/-- The whole words of the fraction come back. -/
theorem readFracWords_masked (v : ℕ) : ∀ (k : ℕ) (rest : Bytes), ∃ ws,
    readFracWords mask k (masked mask (wordBytes k v) ++ rest) = some ws ∧ ws.length = k ∧
      bigEndian digBase ws = v % digBase ^ k
  | 0, rest => ⟨[], rfl, rfl, by rw [pow_zero, Nat.mod_one, bigEndian_nil]⟩
  | k + 1, rest => by
      obtain ⟨ws, hread, hlen, hval⟩ := readFracWords_masked v k rest
      have hw := mod_lt (v / digBase ^ k) digBase_pos
      have hle : ¬v / digBase ^ k % digBase > digMax := by
        rw [digMax]
        omega
      refine ⟨v / digBase ^ k % digBase :: ws, ?_, by rw [length_cons, hlen], ?_⟩
      · rw [wordBytes_succ, masked_append, append_assoc, readFracWords,
          take_masked_append (length_miStore ..), drop_masked_append (length_miStore ..),
          dec1Xor_miSint (by decide) le_rfl (two_mul_lt_word hw), hread, if_neg hle,
          Option.map_some]
      · rw [bigEndian_cons, hlen, hval, Nat.mod_pow_succ, Nat.mul_comm, Nat.add_comm]

/-- **The whole words of the integer part come back**, without those of zeroes at the start. -/
theorem readIntWords_masked (v : ℕ) : ∀ (k : ℕ) (rest : Bytes) (buf : List ℕ) (intg : ℕ),
    roundUp intg = buf.length + k → (buf = [] → intg = digPerDec1 * k) → ∃ buf' intg',
      readIntWords mask k (masked mask (wordBytes k v) ++ rest) (buf, intg) = some (buf', intg') ∧
        roundUp intg' = buf'.length ∧
        bigEndian digBase buf' = bigEndian digBase buf * digBase ^ k + v % digBase ^ k
  | 0, rest, buf, intg, hround, _ => ⟨buf, intg, rfl, hround, by
      rw [pow_zero, Nat.mod_one, Nat.mul_one, Nat.add_zero]⟩
  | k + 1, rest, buf, intg, hround, hnil => by
      have hw := mod_lt (v / digBase ^ k) digBase_pos
      have hle : ¬v / digBase ^ k % digBase > digMax := by
        rw [digMax]
        omega
      have hstep : readIntWords mask (k + 1) (masked mask (wordBytes (k + 1) v) ++ rest) (buf, intg)
          = readIntWords mask k (masked mask (wordBytes k v) ++ rest)
            (putIntWord buf intg (v / digBase ^ k % digBase) digPerDec1) := by
        rw [wordBytes_succ, masked_append, append_assoc, readIntWords,
          take_masked_append (length_miStore ..), drop_masked_append (length_miStore ..),
          dec1Xor_miSint (by decide) le_rfl (two_mul_lt_word hw), if_neg hle]
      rw [hstep, putIntWord, Nat.mod_pow_succ]
      split
      · obtain ⟨buf', intg', hread, hlen, hval⟩ := readIntWords_masked v k rest
          (buf ++ [v / digBase ^ k % digBase]) intg
          (by rw [hround, length_append, length_singleton]; omega)
          (fun h => absurd h (by simp))
        refine ⟨buf', intg', hread, hlen, ?_⟩
        rw [hval, bigEndian_append, bigEndian_cons, pow_succ]
        simp only [length_singleton, length_nil, bigEndian_nil]
        ring
      · rename_i hzero
        obtain ⟨hbuf, hword⟩ := not_or.1 hzero
        obtain rfl := not_not.1 hbuf
        have hintg := hnil rfl
        obtain ⟨buf', intg', hread, hlen, hval⟩ := readIntWords_masked v k rest []
          (intg - digPerDec1)
          (by rw [hintg, Nat.mul_succ, Nat.add_sub_cancel, Nat.mul_comm, roundUp_mul]; simp)
          (fun _ => by rw [hintg, Nat.mul_succ, Nat.add_sub_cancel])
        refine ⟨buf', intg', hread, hlen, ?_⟩
        rw [hval, not_not.1 hword]
        simp

/-- The digits at the start come back. -/
theorem readIntDigits_masked {x t : ℕ} (k : ℕ) (rest : Bytes) (hx : x < digPerDec1)
    (ht : t < 10 ^ x) : ∃ buf intg,
      readIntDigits mask (masked mask (miStore (dig2bytes x) t) ++ rest) x (k * digPerDec1 + x)
        = some (buf, intg) ∧ roundUp intg = buf.length + k ∧ (buf = [] → intg = digPerDec1 * k) ∧
        bigEndian digBase buf = t := by
  rw [readIntDigits]
  by_cases h0 : x = 0
  · subst h0
    rw [if_neg (not_not.2 rfl)]
    refine ⟨[], _, rfl, ?_, fun _ => Nat.mul_comm .., ?_⟩
    · rw [Nat.add_zero, roundUp_mul, length_nil, Nat.zero_add]
    · rw [pow_zero, Nat.lt_one_iff] at ht
      rw [ht, bigEndian_nil]
  · have hpos := dig2bytes_pos hx h0
    have hlow := (two_mul_lt_dig2bytes hx ht).resolve_left hpos.ne'
    have hle : ¬t ≥ 10 ^ (x + 1) :=
      Nat.not_le.2 (ht.trans_le (Nat.pow_le_pow_right (by decide) (Nat.le_succ x)))
    rw [if_pos h0, take_masked_append (length_miStore ..),
      dec1Xor_miSint hpos (dig2bytes_le_four x) hlow, if_neg hle, putIntWord]
    split
    · refine ⟨[t], _, rfl, ?_, fun h => (nomatch h), by simp [bigEndian_cons]⟩
      rw [roundUp_eq, length_singleton]
      rw [digPerDec1] at hx ⊢
      omega
    · rename_i hzero
      have ht0 : t = 0 := not_not.1 (not_or.1 hzero).2
      refine ⟨[], _, rfl, ?_, fun _ => ?_, ht0.symm⟩
      · rw [Nat.add_sub_cancel, roundUp_mul, length_nil, Nat.zero_add]
      · rw [Nat.add_sub_cancel, Nat.mul_comm]

/-- The digits at the end come back. -/
theorem readFracDigits_masked {x z : ℕ} (rest : Bytes) (hx : x < digPerDec1) (hz : z < 10 ^ x) :
    ∃ ws, readFracDigits mask (masked mask (miStore (dig2bytes x) z) ++ rest) x = some ws ∧
      ws.length = (if x = 0 then 0 else 1) ∧
      bigEndian digBase ws * 10 ^ x = z * digBase ^ (if x = 0 then 0 else 1) := by
  rw [readFracDigits]
  by_cases h0 : x = 0
  · subst h0
    refine ⟨[], by rw [if_neg (not_not.2 rfl)], rfl, ?_⟩
    rw [pow_zero, Nat.lt_one_iff] at hz
    rw [hz, bigEndian_nil, Nat.zero_mul, Nat.zero_mul]
  · have hpos := dig2bytes_pos hx h0
    have hlow := (two_mul_lt_dig2bytes hx hz).resolve_left hpos.ne'
    have hpow : 10 ^ x * 10 ^ (digPerDec1 - x) = digBase := by
      rw [← pow_add, Nat.add_sub_cancel' hx.le, digBase_eq]
    have hlt : z * 10 ^ (digPerDec1 - x) < digBase := by
      rw [← hpow]
      exact Nat.mul_lt_mul_of_pos_right hz (Nat.pow_pos (by decide))
    have hmod : z * 10 ^ (digPerDec1 - x) % 2 ^ 32 = z * 10 ^ (digPerDec1 - x) :=
      Nat.mod_eq_of_lt (hlt.trans (by decide))
    rw [if_pos h0, take_masked_append (length_miStore ..),
      dec1Xor_miSint hpos (dig2bytes_le_four x) hlow, hmod, if_neg (by rw [digMax]; omega)]
    refine ⟨_, rfl, by rw [if_neg h0]; rfl, ?_⟩
    rw [if_neg h0, bigEndian_cons, bigEndian_nil, length_nil, pow_zero, pow_one, ← hpow]
    ring

theorem invertFirst_invertFirst (a : Bytes) : invertFirst (invertFirst a) = a := by
  cases a with
  | nil => rfl
  | cons b a => exact congrArg (· :: a) ((UInt8.xor_assoc ..).trans b.xor_zero)

@[simp] theorem length_invertFirst (a : Bytes) : (invertFirst a).length = a.length := by
  cases a <;> rfl

/-- The highest bit tells the sign. -/
theorem mask_invertFirst {a : Bytes} (ha : FirstLow a) (hne : a ≠ []) :
    decide ((invertFirst (masked mask a)).getD 0 0 &&& 0x80 = 0) = mask := by
  obtain ⟨b, a, rfl⟩ := exists_cons_of_ne_nil hne
  have hlow := ha.resolve_left hne
  have hb : b.toNat < 128 := by
    rw [reverse_cons, leNat_append, length_cons, pow_succ, length_reverse] at hlow
    simp only [leNat, Nat.mul_zero, Nat.add_zero] at hlow
    by_contra hge
    have := Nat.mul_le_mul_left (256 ^ a.length) (Nat.not_lt.1 hge)
    omega
  have hall : ∀ m : Bool, ∀ n < 128,
      decide (((UInt8.ofNat n ^^^ maskByte m) ^^^ 0x80) &&& 0x80 = 0) = m := by decide +kernel
  have := hall mask b.toNat hb
  rwa [UInt8.ofNat_toNat] at this

end Read

/-- `decimal_size`. -/
def decimalSize (precision scale : ℕ) : ℕ := roundUp (precision - scale) + roundUp scale

section Bin2decimal

variable {precision scale n : ℕ} {mask : Bool}

theorem decimalBinSize_eq :
    decimalBinSize precision scale = byteSize (precision - scale) + byteSize scale := by
  rw [decimalBinSize, byteSize, byteSize, digPerDec1]
  omega

/-- The number of the words of an integer part and a fraction. -/
theorem parts_value {i f l p e x v z m s : ℕ} (hs : s = p * x) (hm : i * s + v = m)
    (hv : f * x + z = v) (hl : l * x = z * e) : ((i * p + f) * e + l) * s = m * (p * e) := by
  subst hs hm hv
  calc ((i * p + f) * e + l) * (p * x) = (i * p + f) * e * (p * x) + l * x * p := by ring
    _ = (i * p + f) * e * (p * x) + z * e * p := by rw [hl]
    _ = (i * (p * x) + (f * x + z)) * (p * e) := by ring

/-- **The words that `bin2decimal` reads** make up the number. -/
theorem readWords_digitBytes (mask : Bool) (hn : n / 10 ^ scale < 10 ^ (precision - scale)) :
    ∃ buf intg, readWords mask (masked mask (digitBytes precision scale n))
        ((precision - scale) / digPerDec1) ((precision - scale) % digPerDec1)
        (scale / digPerDec1) (scale % digPerDec1) = some (buf, intg) ∧
      buf.length = roundUp intg + roundUp scale ∧
      bigEndian digBase buf * 10 ^ scale = n * digBase ^ roundUp scale := by
  have hround : roundUp scale = scale / digPerDec1 + if scale % digPerDec1 = 0 then 0 else 1 := by
    rw [roundUp_eq, digPerDec1]
    split <;> omega
  have hpos : 0 < 10 ^ (scale % digPerDec1) := Nat.pow_pos (by decide)
  have hfrac : n % 10 ^ scale / 10 ^ (scale % digPerDec1) < digBase ^ (scale / digPerDec1) := by
    rw [Nat.div_lt_iff_lt_mul hpos, ← pow_digits]
    exact mod_lt _ (Nat.pow_pos (by decide))
  obtain ⟨buf0, intg0, hread0, hround0, hnil0, hval0⟩ := readIntDigits_masked
    ((precision - scale) / digPerDec1)
    (masked mask (wordBytes ((precision - scale) / digPerDec1) (n / 10 ^ scale))
      ++ masked mask (fracBytes scale (n % 10 ^ scale)))
    (mod_lt_digPerDec1 (precision - scale)) (div_lt_digits hn)
  obtain ⟨buf, intg, hread, hlen, hval⟩ := readIntWords_masked (n / 10 ^ scale)
    ((precision - scale) / digPerDec1) (masked mask (fracBytes scale (n % 10 ^ scale)))
    _ _ hround0 hnil0
  obtain ⟨fracBuf, hreadF, hlenF, hvalF⟩ := readFracWords_masked
    (n % 10 ^ scale / 10 ^ (scale % digPerDec1)) (scale / digPerDec1)
    (masked mask (miStore (dig2bytes (scale % digPerDec1))
      (n % 10 ^ scale % 10 ^ (scale % digPerDec1))))
  obtain ⟨last, hreadL, hlenL, hvalL⟩ := readFracDigits_masked []
    (mod_lt_digPerDec1 scale) (mod_lt (n % 10 ^ scale) hpos)
  rw [append_nil] at hreadL
  refine ⟨buf ++ fracBuf ++ last, intg, ?_, ?_, ?_⟩
  · rw [readWords, digitBytes, intBytes, masked_append, masked_append, append_assoc, hread0]
    simp only [Option.bind_eq_bind, Option.bind_some]
    rw [drop_masked_append (length_miStore ..), hread]
    simp only [Option.bind_some]
    rw [drop_masked_append (by rw [length_wordBytes, Nat.mul_comm]), fracBytes, masked_append,
      hreadF]
    simp only [Option.bind_some]
    rw [drop_masked_append (by rw [length_wordBytes, Nat.mul_comm]), hreadL]
    rfl
  · rw [length_append, length_append, ← hlen, hlenF, hlenL, hround, Nat.add_assoc]
  · rw [hval0, div_add_mod'] at hval
    rw [Nat.mod_eq_of_lt hfrac] at hvalF
    have hn10 := div_add_mod' n (10 ^ scale)
    have hv10 := div_add_mod' (n % 10 ^ scale) (10 ^ (scale % digPerDec1))
    rw [bigEndian_append, bigEndian_append, hval, hvalF, hlenF, hlenL, hround, pow_add]
    exact parts_value (pow_digits scale) hn10 hv10 hvalL

theorem value_decimalMakeZero : decimalMakeZero.value = 0 := by
  decide +kernel

/-- **`bin2decimal` succeeds**, and restores the value of the image. -/
theorem bin2decimal_eq {len : ℕ} (hlen : decimalSize precision scale ≤ len)
    (hn : n / 10 ^ scale < 10 ^ (precision - scale)) (hne : digitBytes precision scale n ≠ []) :
    (bin2decimal (invertFirst (masked mask (digitBytes precision scale n))) len precision
        scale).1 = .ok ∧
      (bin2decimal (invertFirst (masked mask (digitBytes precision scale n))) len precision
        scale).2.value = if mask then -(n / (10 : ℚ) ^ scale) else n / (10 : ℚ) ^ scale := by
  obtain ⟨buf, intg, hread, hbuf, hval⟩ := readWords_digitBytes mask hn
  have hsub : ∀ n, n - n / digPerDec1 * digPerDec1 = n % digPerDec1 := fun n => by
    rw [Nat.mul_comm, ← Nat.mod_eq_sub_mul_div]
  have hround : ∀ n, (n / digPerDec1 + if n % digPerDec1 > 0 then 1 else 0) = roundUp n := by
    intro n
    rw [roundUp_eq, digPerDec1]
    split <;> omega
  have htake : (invertFirst (masked mask (digitBytes precision scale n))).take
      (decimalBinSize precision scale)
        = invertFirst (masked mask (digitBytes precision scale n)) := by
    refine take_of_length_le ?_
    rw [length_invertFirst, length_masked, length_digitBytes, decimalBinSize_eq]
  have hfit : fixIntgFracError len (roundUp (precision - scale)) (roundUp scale)
      = (roundUp (precision - scale), roundUp scale, .ok) := fixIntgFracError_of_le hlen
  rw [bin2decimal]
  simp only [hsub, hround, htake, invertFirst_invertFirst,
    mask_invertFirst (firstLow_digitBytes hn) hne, hfit, ne_eq, not_true_eq_false, if_false, hread]
  refine ⟨trivial, ?_⟩
  rw [div_add_mod']
  have hpos : (0 : ℚ) < 10 ^ scale := by positivity
  split
  · rename_i hzero
    -- no words were read, so that the number is zero
    obtain ⟨rfl, rfl⟩ := hzero
    have hnil : buf = [] := eq_nil_of_length_eq_zero hbuf
    rw [hnil, bigEndian_nil, Nat.zero_mul] at hval
    have hn0 : n = 0 := (Nat.mul_eq_zero.1 hval.symm).resolve_right (Nat.pow_pos digBase_pos).ne'
    rw [value_decimalMakeZero, hn0]
    simp
  · have hmag : (⟨mask, intg, scale, buf⟩ : DecimalT).magnitude = n / (10 : ℚ) ^ scale := by
      have h := magnitude_reverse mask intg scale
        (by rw [length_reverse, hbuf])
      rw [reverse_reverse] at h
      rw [h, div_eq_div_iff (pow_pos (by exact_mod_cast digBase_pos) _).ne' hpos.ne']
      exact_mod_cast hval
    rw [DecimalT.value, hmag]

/-- A column without digits has an empty image. -/
theorem bin2decimal_nil (len : ℕ) : bin2decimal [] len 0 0 = (.ok, decimalMakeZero) := by
  have hfit : fixIntgFracError len 0 0 = (0, 0, .ok) := fixIntgFracError_of_le (Nat.zero_le len)
  simp only [bin2decimal, hfit, Nat.sub_self, Nat.zero_div, Nat.zero_mul, Nat.lt_irrefl,
    if_false, Nat.add_zero, gt_iff_lt]
  rfl

/-- **The index orders decimals as `decimal_cmp` does.** -/
theorem decimalCmp_eq_compare_decimal2bin (x y : StorableDecimal precision scale) :
    decimalCmp x.toDecimalT y.toDecimalT
      = match compare (decimal2bin x.toDecimalT precision scale).2
          (decimal2bin y.toDecimalT precision scale).2 with
        | .lt => -1
        | .eq => 0
        | .gt => 1 := by
  rw [compare_decimal2bin, decimalCmp_eq]
  obtain h | h | h := lt_trichotomy x.value y.value
  · rw [compare_lt_iff_lt.2 h, sign_neg (sub_neg.2 h)]
    rfl
  · rw [compare_eq_iff_eq.2 h, h, sub_self, sign_zero]
    rfl
  · rw [compare_gt_iff_gt.2 h, sign_pos (sub_pos.2 h)]
    rfl

/-- **The binary image keeps values and order.** A decimal that fits its column comes back with its
value, and two images compare as the values do. -/
theorem decimal2bin_keeps (x y : StorableDecimal precision scale) (len : ℕ)
    (hlen : decimalSize precision scale ≤ len) :
    (decimal2bin x.toDecimalT precision scale).1 = .ok ∧
      (bin2decimal (decimal2bin x.toDecimalT precision scale).2 len precision scale).1 = .ok ∧
      (bin2decimal (decimal2bin x.toDecimalT precision scale).2 len precision scale).2.value
        = x.value ∧
      compare (decimal2bin x.toDecimalT precision scale).2
          (decimal2bin y.toDecimalT precision scale).2 = compare x.value y.value := by
  have horder := compare_decimal2bin x y
  obtain ⟨n, hn, hmag, hbin⟩ := x.image_eq
  rw [hbin] at horder ⊢
  refine ⟨rfl, ?_⟩
  by_cases hne : digitBytes precision scale n = []
  · obtain ⟨rfl, hval, hsign⟩ := StorableDecimal.sign_of_nil hn hmag hne
    obtain rfl : scale = 0 := Nat.le_zero.1 x.scale_le
    have hnil : (invertFirst (masked x.sign (digitBytes 0 0 n))) = [] := by
      rw [hne]
      rfl
    rw [hnil] at horder ⊢
    rw [bin2decimal_nil, value_decimalMakeZero, hval]
    exact ⟨rfl, rfl, hval ▸ horder⟩
  · obtain ⟨hok, hval⟩ := bin2decimal_eq hlen hn hne
    exact ⟨hok, by rw [hval, DecimalT.value, hmag], horder⟩

end Bin2decimal

/-- `-1234567890.5` in a column of 13 digits, two of them after the point. -/
def negativeFraction : StorableDecimal 13 2 where
  sign := true
  intg := 10
  frac := 1
  buf := [1, 234567890, 500000000]
  frac_le := Nat.le_succ 1
  fits := by decide +kernel
  unused_zero := by decide

/-- `0.07` in the same column. -/
def sevenHundredths : StorableDecimal 13 2 where
  sign := false
  intg := 0
  frac := 2
  buf := [70000000]
  frac_le := by decide
  fits := by decide +kernel
  unused_zero := by decide

theorem decimal2bin_keeps_negativeFraction :
    decimal2bin negativeFraction.toDecimalT 13 2
        = (.ok, [126, 242, 4, 199, 45, 205]) ∧
      bin2decimal (decimal2bin negativeFraction.toDecimalT 13 2).2 9 13 2
        = (.ok, ⟨true, 11, 2, [1, 234567890, 500000000]⟩) ∧
      (bin2decimal (decimal2bin negativeFraction.toDecimalT 13 2).2 9 13 2).2.value
        = negativeFraction.value ∧
      compare (decimal2bin negativeFraction.toDecimalT 13 2).2
          (decimal2bin sevenHundredths.toDecimalT 13 2).2
        = compare negativeFraction.value sevenHundredths.value :=
  ⟨by decide +kernel, by decide +kernel,
    (decimal2bin_keeps negativeFraction sevenHundredths 9 (by decide)).2.2⟩

end EloqSql
