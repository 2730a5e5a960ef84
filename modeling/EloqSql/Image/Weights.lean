import EloqSql.Image.Spelling

/-!
# Image/Weights — a collation is an order on characters

Every collation of an index column gives each character one weight, of a fixed number of bytes
(`Collation.weight`), and weights compare as the numbers `Collation.order` do. In these terms
`strnxfrm` writes the weights of the first characters (`strnxfrm_eq`, `strnxfrm_fill`,
`strnxfrm_char`), and `strnncollsp` and `strnncollspNchars` compare the characters continued by
spaces (`strnncollsp_eq`, `strnncollspNchars_eq`) — except in `binary`, which does not pad.

A collation is either one of single bytes or one of the two UTF-8 ones (`byte_or_utf8`).
-/

namespace EloqSql

open Segment List

namespace Collation

/-- The number of bytes of a weight. -/
def weightLen : Collation → ℕ
  | binary | latin1Bin | simple _ => 1
  | utf8Bin => 2
  | utf8mb4Bin => 3

/-- Where a character stands in the order of the collation. -/
def order : Collation → ℕ → ℕ
  | binary, c | latin1Bin, c | utf8Bin, c | utf8mb4Bin, c => c
  | simple sortOrder, c => (sortOrder (UInt8.ofNat c)).toNat

/-- The bytes a place in the order is written with. -/
def orderBytes : Collation → ℕ → Bytes
  | binary, o | latin1Bin, o | simple _, o => [UInt8.ofNat o]
  | utf8Bin, o => weightBE2 o
  | utf8mb4Bin, o => weightBE3 o

/-- The weight of a character. -/
def weight (cs : Collation) (c : ℕ) : Bytes := cs.orderBytes (cs.order c)

/-- The collations that pad with spaces: all but `binary`. -/
def PadSpace (cs : Collation) : Prop := cs.padChar = 0x20

theorem not_padSpace_binary : ¬ binary.PadSpace := by simp [PadSpace, padChar]

theorem padSpace_of_ne_binary {cs : Collation} (h : cs ≠ binary) : cs.PadSpace := by
  cases cs with
  | binary => exact absurd rfl h
  | _ => rfl

@[simp] theorem length_orderBytes (cs : Collation) (o : ℕ) :
    (cs.orderBytes o).length = cs.weightLen := by
  cases cs <;> rfl

@[simp] theorem length_weight (cs : Collation) (c : ℕ) : (cs.weight c).length = cs.weightLen :=
  length_orderBytes cs _

theorem weightLen_pos (cs : Collation) : 0 < cs.weightLen := by cases cs <;> simp [weightLen]

theorem weightLen_le_mbmaxlen (cs : Collation) : cs.weightLen ≤ cs.mbmaxlen := by
  cases cs <;> simp [weightLen, mbmaxlen]

/-! ## Single bytes and UTF-8 -/

/-- The order of the bytes in a collation of single bytes. -/
def byteOrder : Collation → UInt8 → UInt8
  | simple sortOrder => sortOrder
  | binary | latin1Bin | utf8Bin | utf8mb4Bin => id

/-- The two UTF-8 collations. -/
def utf8 : Bool → Collation
  | false => utf8Bin
  | true => utf8mb4Bin

theorem byte_or_utf8 (cs : Collation) : cs.weightLen = 1 ∨ ∃ mb4, cs = utf8 mb4 := by
  cases cs with
  | binary | latin1Bin | simple _ => exact Or.inl rfl
  | utf8Bin => exact Or.inr ⟨false, rfl⟩
  | utf8mb4Bin => exact Or.inr ⟨true, rfl⟩

section Byte

variable {cs : Collation} (h : cs.weightLen = 1)

include h

/-- A fact about the collations of single bytes. -/
@[elab_as_elim] theorem byte_cases {motive : Collation → Prop} (binary : motive .binary)
    (latin1Bin : motive .latin1Bin) (simple : ∀ so, motive (.simple so)) : motive cs := by
  cases cs with
  | binary => exact binary
  | latin1Bin => exact latin1Bin
  | simple so => exact simple so
  | utf8Bin | utf8mb4Bin => simp [weightLen] at h

theorem weight_toNat (b : UInt8) : cs.weight b.toNat = [cs.byteOrder b] := by
  cases cs with
  | binary | latin1Bin | simple _ => simp [weight, order, orderBytes, byteOrder]
  | utf8Bin | utf8mb4Bin => simp [weightLen] at h

theorem order_toNat (b : UInt8) : cs.order b.toNat = (cs.byteOrder b).toNat :=
  byte_cases h rfl rfl fun _ => by simp [order, byteOrder]

theorem chars_byte (v : Bytes) : cs.chars v = some (v.map UInt8.toNat) :=
  byte_cases h rfl rfl fun _ => rfl

theorem takeChars_byte (n : ℕ) (v : Bytes) : cs.takeChars n v = v.take n :=
  byte_cases h rfl rfl fun _ => rfl

theorem strnxfrm_byte : cs.strnxfrm = strnxfrm8bit cs.byteOrder cs.padChar :=
  byte_cases h rfl rfl fun _ => rfl

theorem mbmaxlen_byte : cs.mbmaxlen = 1 := byte_cases h rfl rfl fun _ => rfl

/-- The weights of the first bytes. -/
theorem map_byteOrder (v : Bytes) (n : ℕ) :
    (v.take n).map cs.byteOrder = ((v.map UInt8.toNat).take n).flatMap cs.weight := by
  rw [← map_take]
  generalize v.take n = w
  induction w with
  | nil => rfl
  | cons b w ih => rw [map_cons, ih, map_cons, flatMap_cons, weight_toNat h]; rfl

end Byte

section Utf8

variable (mb4 : Bool)

theorem chars_utf8_iff {v : Bytes} {xs : List ℕ} :
    (utf8 mb4).chars v = some xs ↔ Spells mb4 v xs := by
  have h : (utf8 mb4).chars v = utf8Chars (utf8MbWc mb4) v.length v := by cases mb4 <;> rfl
  rw [h]
  exact ⟨spells_of_utf8Chars, fun h => utf8Chars_of_spells h le_rfl⟩

theorem weight_utf8 : (utf8 mb4).weight = utf8Weight mb4 := by cases mb4 <;> rfl

theorem weightLen_utf8 : (utf8 mb4).weightLen = utf8WeightLen mb4 := by cases mb4 <;> rfl

theorem mbmaxlen_utf8 : (utf8 mb4).mbmaxlen = utf8MaxLen mb4 := by cases mb4 <;> rfl

theorem order_utf8 : (utf8 mb4).order = id := by cases mb4 <;> rfl

theorem padSpace_utf8 : (utf8 mb4).PadSpace := by cases mb4 <;> rfl

theorem takeChars_utf8 (n : ℕ) (v : Bytes) :
    (utf8 mb4).takeChars n v = utf8Take (utf8MbWc mb4) n v := by
  cases mb4 <;> rfl

theorem strnxfrm_utf8 :
    (utf8 mb4).strnxfrm = strnxfrmUnicode (utf8MbWc mb4) (utf8Weight mb4) := by
  cases mb4 <;> rfl

theorem strnncollspNchars_utf8 :
    (utf8 mb4).strnncollspNchars = strnncollspNcharsUtf8 mb4 := by
  cases mb4 <;> rfl

end Utf8

/-! ## The order of weights -/

theorem compare_toNat (a b : UInt8) : compare a b = compare a.toNat b.toNat := by
  simp only [compareOfLessAndEq, compare, UInt8.lt_iff_toNat_lt, ← UInt8.toNat_inj]

theorem compare_zero_ne_gt (b : UInt8) : compare 0 b ≠ .gt := by
  rw [ne_eq, Std.compare_eq_gt]
  grind

theorem compare_top_ne_gt (b : UInt8) : compare b 0xFF ≠ .gt := by
  rw [ne_eq, Std.compare_eq_gt]
  grind

theorem order_lt (cs : Collation) {c : ℕ} (h : c < 256 ^ cs.weightLen) :
    cs.order c < 256 ^ cs.weightLen := by
  cases cs with
  | binary | latin1Bin | utf8Bin | utf8mb4Bin => exact h
  | simple sortOrder => exact (sortOrder (UInt8.ofNat c)).toNat_lt

/-- **The bytes compare as the places in the order.** -/
theorem compare_orderBytes (cs : Collation) {x y : ℕ} (hx : x < 256 ^ cs.weightLen)
    (hy : y < 256 ^ cs.weightLen) :
    compare (cs.orderBytes x) (cs.orderBytes y) = compare x y := by
  cases cs with
  | binary | latin1Bin | simple _ =>
    simp only [weightLen, Nat.pow_one] at hx hy
    rw [orderBytes, orderBytes, List.compare_cons_cons, List.compare_nil_nil, Ordering.then_eq,
      compare_ofNat hx hy]
  | utf8Bin => exact compare_utf8Weight false hx hy
  | utf8mb4Bin => exact compare_utf8Weight true hx hy

/-! ## Characters -/

section Chars

variable {cs : Collation} {v w : Bytes} {xs ys : List ℕ}

section

variable (h : cs.chars v = some xs)

include h

/-- The string is its bytes, or is spelled in UTF-8. -/
theorem byte_or_spells : (cs.weightLen = 1 ∧ v.map UInt8.toNat = xs) ∨
    ∃ mb4, utf8 mb4 = cs ∧ Spells mb4 v xs := by
  rcases cs.byte_or_utf8 with hb | ⟨mb4, rfl⟩
  · exact Or.inl ⟨hb, Option.some.inj ((chars_byte hb v).symm.trans h)⟩
  · exact Or.inr ⟨mb4, rfl, (chars_utf8_iff mb4).mp h⟩

theorem lt_of_chars : ∀ x ∈ xs, x < 256 ^ cs.weightLen := by
  rcases byte_or_spells h with ⟨hb, rfl⟩ | ⟨mb4, rfl, hs⟩
  · intro x hx
    obtain ⟨b, -, rfl⟩ := mem_map.mp hx
    rw [hb]
    exact b.toNat_lt
  · rw [weightLen_utf8]
    exact hs.lt

theorem length_le_of_chars : xs.length ≤ v.length := by
  rcases byte_or_spells h with ⟨hb, rfl⟩ | ⟨mb4, rfl, hs⟩
  · simp
  · exact hs.length_le

theorem length_le_mul_of_chars : v.length ≤ cs.mbmaxlen * xs.length := by
  rcases byte_or_spells h with ⟨hb, rfl⟩ | ⟨mb4, rfl, hs⟩
  · simp [mbmaxlen_byte hb]
  · rw [mbmaxlen_utf8]
    exact hs.length_le_mul

/-- The characters of the first characters. -/
theorem chars_takeChars (n : ℕ) : cs.chars (cs.takeChars n v) = some (xs.take n) := by
  rcases byte_or_spells h with ⟨hb, rfl⟩ | ⟨mb4, rfl, hs⟩
  · rw [chars_byte hb, takeChars_byte hb, map_take]
  · rw [takeChars_utf8]
    exact (chars_utf8_iff mb4).mpr (hs.utf8Take n).1

/-- The first characters are the head of the string. -/
theorem takeChars_append (n : ℕ) :
    ∃ r, v = cs.takeChars n v ++ r ∧ cs.chars r = some (xs.drop n) := by
  rcases byte_or_spells h with ⟨hb, rfl⟩ | ⟨mb4, rfl, hs⟩
  · refine ⟨v.drop n, ?_, ?_⟩
    · rw [takeChars_byte hb, take_append_drop]
    · rw [chars_byte hb, map_drop]
  · obtain ⟨-, r, hr, hr'⟩ := hs.utf8Take n
    exact ⟨r, (takeChars_utf8 mb4 n v).symm ▸ hr, (chars_utf8_iff mb4).mpr hr'⟩

theorem chars_append (h' : cs.chars w = some ys) : cs.chars (v ++ w) = some (xs ++ ys) := by
  rcases cs.byte_or_utf8 with hb | ⟨mb4, rfl⟩
  · cases (chars_byte hb v).symm.trans h
    cases (chars_byte hb w).symm.trans h'
    rw [chars_byte hb, map_append]
  · rw [chars_utf8_iff] at h h' ⊢
    exact h.append h'

end

theorem chars_replicate_space (cs : Collation) (n : ℕ) :
    cs.chars (replicate n 0x20) = some (replicate n 0x20) := by
  rcases cs.byte_or_utf8 with hb | ⟨mb4, rfl⟩
  · rw [chars_byte hb, map_replicate]
    rfl
  · rw [chars_utf8_iff]
    induction n with
    | zero => exact Spells.nil
    | succ n ih =>
      rw [replicate_succ, replicate_succ]
      exact Spells.cons (isChar_space mb4) ih

theorem length_takeChars_le (h : cs.chars v = some xs) (n : ℕ) :
    (cs.takeChars n v).length ≤ v.length := by
  obtain ⟨r, hr, -⟩ := takeChars_append h n
  have := congrArg length hr
  rw [length_append] at this
  omega

/-- A string is given by its characters. -/
theorem chars_inj (h : cs.chars v = some xs) (h' : cs.chars w = some xs) : v = w := by
  rcases cs.byte_or_utf8 with hb | ⟨mb4, rfl⟩
  · rw [chars_byte hb] at h h'
    exact map_injective_iff.mpr (fun _ _ => UInt8.toNat_inj.mp)
      (Option.some.inj (h.trans h'.symm))
  · exact ((chars_utf8_iff mb4).mp h).bytes_unique ((chars_utf8_iff mb4).mp h')

theorem takeChars_of_length_le {n : ℕ} (h : cs.chars v = some xs) (hn : xs.length ≤ n) :
    cs.takeChars n v = v := by
  refine chars_inj (chars_takeChars h n) ?_
  rw [h, take_of_length_le hn]

/-- The first characters of the first characters are these. -/
theorem takeChars_takeChars (h : cs.chars v = some xs) (n : ℕ) :
    cs.takeChars n (cs.takeChars n v) = cs.takeChars n v :=
  takeChars_of_length_le (chars_takeChars h n) (length_take_le n xs)

theorem rdropWhile_map {α β : Type*} (f : α → β) (p : β → Bool) (v : List α) :
    (v.map f).rdropWhile p = (v.rdropWhile (p ∘ f)).map f := by
  simp only [rdropWhile, ← map_reverse, dropWhile_map]

/-- The characters of a string without its trailing spaces. -/
theorem chars_trim (h : cs.chars v = some xs) :
    cs.chars (v.rdropWhile (· == 0x20)) = some (xs.rdropWhile (· == 0x20)) := by
  rcases byte_or_spells h with ⟨hb, rfl⟩ | ⟨mb4, rfl, hs⟩
  · have hp : (fun b : UInt8 => b == 0x20) = (fun n : ℕ => n == 0x20) ∘ UInt8.toNat := by
      funext b
      rw [Function.comp, Bool.eq_iff_iff, beq_iff_eq, beq_iff_eq, ← UInt8.toNat_inj]
      rfl
    rw [chars_byte hb, rdropWhile_map, ← hp]
  · exact (chars_utf8_iff mb4).mpr hs.trim

theorem take_lengthsp (h : cs.PadSpace) (v : Bytes) :
    v.take (cs.lengthsp v) = v.rdropWhile (· == 0x20) := by
  have hp := prefix_iff_eq_take.mp (List.rdropWhile_prefix (fun b : UInt8 => b == 0x20) v)
  cases cs with
  | binary => exact absurd h not_padSpace_binary
  | _ => exact hp.symm

end Chars

/-! ## `strnxfrm` -/

section Xfrm

variable {cs : Collation} {v : Bytes} {xs : List ℕ} {dstlen n : ℕ}

/-- What `MY_STRXFRM_PAD_TO_MAXLEN` adds to fill up `k` bytes. -/
def fill : Collation → ℕ → Bytes
  | utf8Bin, k => padWeights (weightBE2 0x20) k k
  | utf8mb4Bin, k => padWeights (weightBE3 0x20) k k
  | binary, k => replicate k 0
  | latin1Bin, k | simple _, k => replicate k 0x20

theorem length_padWeights {space : Bytes} (h : 0 < space.length) (k : ℕ) :
    (padWeights space k k).length = k := by
  rw [padWeights, length_take, length_flatten, map_replicate,
    sum_replicate_nat]
  exact Nat.min_eq_left (Nat.le_mul_of_pos_right k h)

@[simp] theorem length_fill (cs : Collation) (k : ℕ) : (cs.fill k).length = k := by
  cases cs with
  | binary | latin1Bin | simple _ => exact length_replicate
  | utf8Bin | utf8mb4Bin => exact length_padWeights (by decide) k

theorem fill_byte (h : cs.weightLen = 1) (k : ℕ) : cs.fill k = replicate k cs.padChar :=
  byte_cases h rfl rfl fun _ => rfl

theorem fill_utf8 (mb4 : Bool) (k : ℕ) :
    (utf8 mb4).fill k = padWeights (utf8Weight mb4 0x20) k k := by
  cases mb4 <;> rfl

theorem length_weights (cs : Collation) (zs : List ℕ) :
    (zs.flatMap cs.weight).length = cs.weightLen * zs.length :=
  length_flatMap_weights cs.length_weight zs

theorem strnxfrm8bit_eq (sortOrder : UInt8 → UInt8) (pad : UInt8) (h : min n v.length ≤ dstlen) :
    strnxfrm8bit sortOrder pad dstlen n v {} = (v.take n).map sortOrder := by
  simp only [strnxfrm8bit, strxfrmPad, Bool.false_eq_true, if_false]
  by_cases hn : n ≤ v.length
  · rw [show min (min dstlen n) v.length = n by omega]
  · rw [show min (min dstlen n) v.length = v.length by omega, take_length,
      take_of_length_le (by omega)]

theorem strnxfrm8bit_fill (sortOrder : UInt8 → UInt8) (pad : UInt8)
    (h : min n v.length ≤ dstlen) : strnxfrm8bit sortOrder pad dstlen n v ⟨false, true⟩
      = (v.take n).map sortOrder ++ replicate (dstlen - min n v.length) pad := by
  have h0 := strnxfrm8bit_eq sortOrder pad h
  simp only [strnxfrm8bit, strxfrmPad, Bool.false_eq_true, if_false] at h0
  simp only [strnxfrm8bit, strxfrmPad, Bool.false_eq_true, if_false, if_true, h0]
  rw [length_map, length_take]

/-- **`strnxfrm` writes the weights of the first characters.** -/
theorem strnxfrm_eq (h : cs.chars v = some xs) (hd : cs.weightLen * min n xs.length ≤ dstlen) :
    cs.strnxfrm dstlen n v {} = (xs.take n).flatMap cs.weight := by
  rcases byte_or_spells h with ⟨hb, rfl⟩ | ⟨mb4, rfl, hs⟩
  · rw [hb, Nat.one_mul, length_map] at hd
    rw [strnxfrm_byte hb, strnxfrm8bit_eq _ _ hd, map_byteOrder hb]
  · rw [weightLen_utf8] at hd
    rw [strnxfrm_utf8, strnxfrmUnicode, hs.strnxfrmUnicodeLoop hd,
      weight_utf8]
    rfl

/-- **A value that is filled up**: the weights of its first characters, and the fill. -/
theorem strnxfrm_fill (h : cs.chars v = some xs) (hd : cs.weightLen * min n xs.length ≤ dstlen) :
    cs.strnxfrm dstlen n v ⟨false, true⟩
      = (xs.take n).flatMap cs.weight ++ cs.fill (dstlen - cs.weightLen * min n xs.length) := by
  rcases byte_or_spells h with ⟨hb, rfl⟩ | ⟨mb4, rfl, hs⟩
  · rw [hb, Nat.one_mul, length_map] at hd ⊢
    rw [strnxfrm_byte hb, fill_byte hb, ← map_byteOrder hb, strnxfrm8bit_fill _ _ hd]
  · have hl := length_weights (utf8 mb4) (xs.take n)
    rw [weight_utf8, length_take] at hl
    rw [weightLen_utf8] at hd
    rw [strnxfrm_utf8, strnxfrmUnicode, hs.strnxfrmUnicodeLoop hd,
      weight_utf8, fill_utf8]
    simp only [Bool.false_eq_true, if_false, if_true]
    rw [hl]

/-- Filled up, a transformation has the length it was given at least. -/
theorem le_length_strnxfrm (cs : Collation) (dstlen n : ℕ) (v : Bytes) (b : Bool) :
    dstlen ≤ (cs.strnxfrm dstlen n v ⟨b, true⟩).length := by
  rcases cs.byte_or_utf8 with hb | ⟨mb4, rfl⟩
  · rw [strnxfrm_byte hb]
    simp only [strnxfrm8bit, strxfrmPad, if_true, length_append, length_replicate]
    omega
  · have hs : 0 < (utf8Weight mb4 0x20).length := by cases mb4 <;> decide
    rw [strnxfrm_utf8]
    simp only [strnxfrmUnicode, if_true, length_append, length_padWeights hs]
    omega

/-- **A `CHAR`**: the weights of its first characters, whatever follows them, and the fill. -/
theorem strnxfrm_head (h : cs.chars v = some xs) (hd : cs.weightLen * xs.length ≤ dstlen)
    (rest : Bytes) :
    cs.strnxfrm dstlen xs.length (v ++ rest) ⟨true, true⟩
      = xs.flatMap cs.weight ++ cs.fill (dstlen - cs.weightLen * xs.length) := by
  rcases byte_or_spells h with ⟨hb, rfl⟩ | ⟨mb4, rfl, hs⟩
  · have hmap := map_byteOrder hb v v.length
    rw [take_length, take_of_length_le (by simp)] at hmap
    rw [hb, Nat.one_mul, length_map] at hd ⊢
    rw [strnxfrm_byte hb, fill_byte hb, ← hmap]
    simp only [strnxfrm8bit, strxfrmPad, if_true, length_append,
      show min (min dstlen v.length) (v.length + rest.length) = v.length by omega, Nat.sub_self,
      Nat.min_zero, replicate_zero, append_nil, length_map, take_left]
  · have hl := length_weights (utf8 mb4) xs
    rw [weight_utf8] at hl
    rw [weightLen_utf8, ← Nat.min_self xs.length] at hd
    obtain ⟨room', hloop⟩ := hs.strnxfrmUnicodeLoop_append rest hd
    rw [take_length, Nat.sub_self, strnxfrmUnicodeLoop] at hloop
    rw [strnxfrm_utf8, strnxfrmUnicode, hloop, weight_utf8, fill_utf8]
    simp only [if_true, Prod.map, id, padWeights, replicate_zero, flatten_nil,
      take_nil, append_nil]
    rw [hl]

end Xfrm

/-! ## Comparisons -/

section Compare

variable {cs : Collation} {v w : Bytes} {xs ys : List ℕ}

/-- The pattern of weights of spaces. -/
def spaceCycle (cs : Collation) : ℕ → UInt8 := cycle (cs.weight 0x20) 0

/-- Two strings compared in the order of a collation, both continued by spaces. -/
def padSpaceCompare (cs : Collation) (xs ys : List ℕ) : Ordering :=
  padCompare (fun _ => cs.order 0x20) (xs.map cs.order) (ys.map cs.order)

theorem space_lt (cs : Collation) : 0x20 < 256 ^ cs.weightLen := by
  cases cs <;> simp [weightLen]

theorem weights_eq (cs : Collation) (xs : List ℕ) :
    xs.flatMap cs.weight = (xs.map cs.order).flatMap cs.orderBytes := by
  rw [flatMap_map]
  rfl

theorem order_lt_of_chars (h : cs.chars v = some xs) :
    ∀ o ∈ xs.map cs.order, o < 256 ^ cs.weightLen := by
  intro o ho
  obtain ⟨x, hx, rfl⟩ := mem_map.mp ho
  exact cs.order_lt (lt_of_chars h x hx)

/-- **Weights, continued by the weight of the space, compare as their strings do.** -/
theorem padCompare_weights (hx : cs.chars v = some xs) (hy : cs.chars w = some ys) :
    padCompare cs.spaceCycle (xs.flatMap cs.weight) (ys.flatMap cs.weight)
      = cs.padSpaceCompare xs ys := by
  rw [weights_eq, weights_eq]
  exact padCompare_flatMap cs.length_orderBytes (fun _ _ => cs.compare_orderBytes)
    (cs.order_lt cs.space_lt) 0 (order_lt_of_chars hx) (order_lt_of_chars hy)

/-- Weights of equally many characters compare as these do. -/
theorem compare_weights (hx : cs.chars v = some xs) (hy : cs.chars w = some ys)
    (h : xs.length = ys.length) :
    compare (xs.flatMap cs.weight) (ys.flatMap cs.weight)
      = compare (xs.map cs.order) (ys.map cs.order) := by
  rw [weights_eq, weights_eq]
  exact compare_flatMap cs.length_orderBytes (fun _ _ => cs.compare_orderBytes) (by simpa using h)
    (order_lt_of_chars hx) (order_lt_of_chars hy)

theorem padSpaceCompare_of_length_eq (cs : Collation) (h : xs.length = ys.length) :
    cs.padSpaceCompare xs ys = compare (xs.map cs.order) (ys.map cs.order) := by
  rw [padSpaceCompare, padCompare_eq _ (n := xs.length) (by simp) (by simp [h]),
    padTake_of_le_length _ (by simp), padTake_of_le_length _ (by simp [h]),
    take_of_length_le (by simp), take_of_length_le (by simp [h])]

theorem then_of_ne {o o' : Ordering} (h : o ≠ .eq) : o.then o' = o := by
  cases o <;> first | rfl | exact absurd rfl h

theorem strnncollspPadspace_eq (sortOrder : UInt8 → UInt8) : ∀ a : Bytes,
    strnncollspPadspace sortOrder a
      = padCompare (fun _ => (sortOrder 0x20).toNat) (a.map fun c => (sortOrder c).toNat) []
  | [] => rfl
  | b :: s => by
      rw [strnncollspPadspace, map_cons, padCompare_cons_nil, compare_toNat,
        strnncollspPadspace_eq sortOrder s]
      split_ifs with h
      · rw [h, Nat.compare_eq_eq.mpr rfl]
        rfl
      · rw [then_of_ne (by rwa [Ne, Nat.compare_eq_eq, UInt8.toNat_inj])]

theorem strnncollsp8bit_eq (sortOrder : UInt8 → UInt8) : ∀ a b : Bytes,
    strnncollsp8bit sortOrder a b
      = padCompare (fun _ => (sortOrder 0x20).toNat) (a.map fun c => (sortOrder c).toNat)
          (b.map fun c => (sortOrder c).toNat)
  | [], b => by
      rw [strnncollsp8bit, strnncollspPadspace_eq, padCompare_swap]
      rfl
  | a :: s, [] => by
      unfold strnncollsp8bit
      rw [strnncollspPadspace_eq]
      rfl
  | a :: s, b :: t => by
      rw [strnncollsp8bit, map_cons, map_cons, padCompare_cons_cons, compare_toNat,
        strnncollsp8bit_eq sortOrder s t]
      split_ifs with h
      · rw [h, Nat.compare_eq_eq.mpr rfl]
        rfl
      · rw [then_of_ne (by rwa [Ne, Nat.compare_eq_eq, UInt8.toNat_inj])]

theorem compare_padTake_take (z n : ℕ) (xs ys : List ℕ) :
    compare (padTake (fun _ => z) n xs) (padTake (fun _ => z) n ys)
      = padCompare (fun _ => z) (xs.take n) (ys.take n) := by
  have htake : ∀ zs : List ℕ, padTake (fun _ => z) n (zs.take n) = padTake (fun _ => z) n zs := by
    intro zs
    by_cases h : n ≤ zs.length
    · rw [padTake_of_le_length _ h, padTake_of_le_length _ (by simpa using h), take_take,
        Nat.min_self]
    · rw [take_of_length_le (by omega)]
  rw [padCompare_eq _ (n := n) (by simp) (by simp), htake, htake]

/-- The comparison of a padding collation of single bytes. -/
theorem strnncollsp8bit_order (h : cs.weightLen = 1) (v w : Bytes) :
    strnncollsp8bit cs.byteOrder v w
      = cs.padSpaceCompare (v.map UInt8.toNat) (w.map UInt8.toNat) := by
  rw [strnncollsp8bit_eq, padSpaceCompare, map_map, map_map]
  simp only [← order_toNat h]
  rfl

/-- **`strnncollsp_nchars` compares the first characters, continued by spaces.** -/
theorem strnncollspNchars_eq (hp : cs.PadSpace) (hx : cs.chars v = some xs)
    (hy : cs.chars w = some ys) (n : ℕ) :
    cs.strnncollspNchars n v w = cs.padSpaceCompare (xs.take n) (ys.take n) := by
  rcases byte_or_spells hx with ⟨hb, rfl⟩ | ⟨mb4, rfl, hs⟩
  · cases (chars_byte hb w).symm.trans hy
    rw [← map_take, ← map_take, ← strnncollsp8bit_order hb]
    cases cs with
    | binary => exact absurd hp not_padSpace_binary
    | latin1Bin | simple _ => rfl
    | utf8Bin | utf8mb4Bin => simp [weightLen] at hb
  · rw [padSpaceCompare, order_utf8, map_id, map_id, ← compare_padTake_take,
      strnncollspNchars_utf8]
    exact Spells.strnncollspNcharsUtf8 n hs ((chars_utf8_iff mb4).mp hy)

/-- **`strnncollsp` compares the characters, continued by spaces.** -/
theorem strnncollsp_eq (hp : cs.PadSpace) (hx : cs.chars v = some xs) (hy : cs.chars w = some ys) :
    cs.strnncollsp v w = cs.padSpaceCompare xs ys := by
  have hl : xs.length ≤ max v.length w.length + 1 := by have := length_le_of_chars hx; omega
  have hl' : ys.length ≤ max v.length w.length + 1 := by have := length_le_of_chars hy; omega
  have h := strnncollspNchars_eq hp hx hy (max v.length w.length + 1)
  rw [take_of_length_le hl, take_of_length_le hl'] at h
  rw [← h]
  cases cs with
  | binary => exact absurd hp not_padSpace_binary
  | latin1Bin | simple _ =>
    simp only [strnncollsp, strnncollspNchars]
    rw [take_of_length_le (by omega), take_of_length_le (by omega)]
  | utf8Bin | utf8mb4Bin => rfl

/-- Nothing after the first characters is compared. -/
theorem strnncollspNchars_takeChars (h : cs.chars v = some xs) (n : ℕ) :
    cs.strnncollspNchars n (cs.takeChars n v) v = .eq := by
  by_cases hc : cs = binary
  · subst hc
    simp only [strnncollspNchars, takeChars, take_take, Nat.min_self]
    exact Std.LawfulEqOrd.compare_eq_iff_eq.mpr rfl
  · rw [strnncollspNchars_eq (padSpace_of_ne_binary hc) (chars_takeChars h n) h, take_take,
      Nat.min_self]
    exact padCompare_self _ _

/-- Trailing spaces do not count. -/
theorem samePad_trim (cs : Collation) (xs : List ℕ) (n : ℕ) :
    SamePad (fun _ => cs.order 0x20) ((xs.take n).map cs.order)
      (((xs.rdropWhile (· == 0x20)).take n).map cs.order) := by
  have hx := rdropWhile_append_replicate 0x20 xs
  have htake : xs.take n = (xs.rdropWhile (· == 0x20)).take n
      ++ (replicate (xs.length - (xs.rdropWhile (· == 0x20)).length) 0x20).take
        (n - (xs.rdropWhile (· == 0x20)).length) := by
    conv_lhs => rw [← hx, take_append]
  rw [htake, take_replicate, map_append, map_replicate, ← padTake_const]
  exact samePad_append (fun _ => cs.order 0x20) _ _

theorem padSpaceCompare_trim (cs : Collation) (xs ys : List ℕ) (n : ℕ) :
    cs.padSpaceCompare ((xs.rdropWhile (· == 0x20)).take n) ((ys.rdropWhile (· == 0x20)).take n)
      = cs.padSpaceCompare (xs.take n) (ys.take n) :=
  (padCompare_congr (cs.samePad_trim xs n) (cs.samePad_trim ys n)).symm

end Compare

end Collation

end EloqSql
