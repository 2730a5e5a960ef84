import EloqSql.Charset
import EloqSql.Lib.Segment

/-!
# Image/Spelling — well-formed UTF-8 as a sequence of characters

`IsChar mb4 c wc` says that the bytes `c` are the character `wc`, read as such whatever follows, and
`Spells mb4 v xs` that `v` is the concatenation of the characters `xs`. A string that `utf8Chars`
accepts is spelled by what it returns (`spells_of_utf8Chars`), and the functions of the character
set do to a spelled string what their names say: `Spells.utf8Take`, `Spells.trim`,
`Spells.strnxfrmUnicodeLoop`, `Spells.strnncollspNcharsUtf8`.

`mb4` chooses between `utf8mb3` and `utf8mb4`.
-/

namespace EloqSql

open List

variable {mb4 : Bool} {c b c1 : UInt8} {wc : ℕ}

/-- `mb_wc` of the two UTF-8 character sets. -/
def utf8MbWc : Bool → Bytes → Option (ℕ × ℕ)
  | false => mbWcUtf8mb3
  | true => mbWcUtf8mb4

/-- `wc_mb` of the two UTF-8 character sets. -/
def utf8WcMb : Bool → ℕ → ℕ → Option Bytes
  | false => wcMbUtf8mb3
  | true => wcMbUtf8mb4

/-- The bytes of a weight. -/
def utf8WeightLen : Bool → ℕ
  | false => 2
  | true => 3

/-- The weight of a character. -/
def utf8Weight : Bool → ℕ → Bytes
  | false => weightBE2
  | true => weightBE3

/-- `mbmaxlen`. -/
def utf8MaxLen : Bool → ℕ
  | false => 3
  | true => 4

/-! ## One character -/

/-- **`c` is the character `wc`**, and is read and written as such. -/
structure IsChar (mb4 : Bool) (c : Bytes) (wc : ℕ) : Prop where
  decode : ∀ tail, utf8MbWc mb4 (c ++ tail) = some (wc, c.length)
  scan : ∀ tail, scanWeight mb4 (c ++ tail) = (wc, c.length)
  encode : ∀ room, c.length ≤ room → utf8WcMb mb4 wc room = some c
  ne_nil : c ≠ []
  space_mem : 0x20 ∈ c → c = [0x20]
  lt : wc < 256 ^ utf8WeightLen mb4
  length_le : c.length ≤ utf8MaxLen mb4

theorem IsChar.length_pos {c : Bytes} (h : IsChar mb4 c wc) :
    0 < c.length := length_pos_iff.mpr h.ne_nil

theorem IsChar.eq_of_eq {c c' : Bytes} (h : IsChar mb4 c wc) (h' : IsChar mb4 c' wc) : c = c' := by
  have he := h.encode (max c.length c'.length) (le_max_left _ _)
  rw [h'.encode (max c.length c'.length) (le_max_right _ _)] at he
  exact (Option.some.inj he).symm

theorem eq_space_of_mem {c : Bytes} (h : ∀ b ∈ c, 0x80 ≤ b.toNat) (hs : 0x20 ∈ c) :
    c = [0x20] := absurd (h _ hs) (by decide)

theorem mbWcUtf8mb4_of_lt (h : c < 0xf0) (s : Bytes) :
    mbWcUtf8mb4 (c :: s) = mbWcUtf8mb3 (c :: s) := by
  unfold mbWcUtf8mb4
  exact if_pos h

/-- **A character of `utf8mb3` is a character of both.** -/
theorem isChar_of_mb3 {cs : Bytes} (hc : c < 0xf0) (hl : cs.length ≤ 2) (hwc : wc < 65536)
    (h3 : ∀ tail, mbWcUtf8mb3 (c :: cs ++ tail) = some (wc, cs.length + 1))
    (hscan : ∀ tail, scanWeight mb4 (c :: cs ++ tail) = (wc, cs.length + 1))
    (hspace : 0x20 ∈ c :: cs → c :: cs = [0x20]) : IsChar mb4 (c :: cs) wc := by
  have h4 : ∀ tail, mbWcUtf8mb4 (c :: cs ++ tail) = some (wc, cs.length + 1) := fun tail =>
    (mbWcUtf8mb4_of_lt hc _).trans (h3 tail)
  refine ⟨fun tail => ?_, hscan, fun room hr => ?_, cons_ne_nil _ _, hspace, ?_, ?_⟩
  · cases mb4
    · exact h3 tail
    · exact h4 tail
  · cases mb4
    · simpa [utf8WcMb] using wcMbUtf8mb3_mbWc (h3 []) hr
    · simpa [utf8WcMb] using wcMbUtf8mb4_mbWc (h4 []) hr
  · cases mb4 <;> simp only [utf8WeightLen] <;> omega
  · cases mb4 <;> simp only [utf8MaxLen, length_cons] <;> omega

/-- A one-byte character. -/
theorem isChar_one (mb4 : Bool) (hc : c.toNat < 0x80) : IsChar mb4 [c] c.toNat := by
  have hlead : c < 0x80 ∧ c < 0xf0 := by grind [UInt8.lt_iff_toNat_lt]
  refine isChar_of_mb3 hlead.2 (Nat.zero_le 2) (by omega) (fun tail => ?_) (fun tail => ?_)
    (by simp [eq_comm])
  · simp [mbWcUtf8mb3, hlead]
  · simp [scanWeight, hlead]

/-- A two-byte character. -/
theorem isChar_two (mb4 : Bool) (hc : 0xc2 ≤ c.toNat) (hc' : c.toNat < 0xe0)
    (h1 : isContinuationByte c1 = true) : IsChar mb4 [c, c1] (utf8mb2Code c c1) := by
  have hb1 := (isContinuationByte_iff c1).mp h1
  have hlead : ¬ c < 0x80 ∧ ¬ c < 0xc2 ∧ c < 0xe0 ∧ c < 0xf0 := by
    grind [UInt8.lt_iff_toNat_lt]
  refine isChar_of_mb3 hlead.2.2.2 (by simp) ?_
    (fun tail => ?_) (fun tail => ?_) (eq_space_of_mem (by simp; omega))
  · rw [utf8mb2Code_eq h1]
    omega
  · simp [mbWcUtf8mb3, hlead, h1]
  · simp [scanWeight, hlead, h1]

/-- A three-byte character. -/
theorem isChar_three (mb4 : Bool) {c2 : UInt8} (hc : 0xe0 ≤ c.toNat) (hc' : c.toNat < 0xf0)
    (h1 : isContinuationByte c1 = true) (h2 : isContinuationByte c2 = true)
    (ho : 0xe1 ≤ c.toNat ∨ 0xa0 ≤ c1.toNat) : IsChar mb4 [c, c1, c2] (utf8mb3Code c c1 c2) := by
  have hb1 := (isContinuationByte_iff c1).mp h1
  have hb2 := (isContinuationByte_iff c2).mp h2
  have hlead : ¬ c < 0x80 ∧ ¬ c < 0xc2 ∧ ¬ c < 0xe0 ∧ c < 0xf0 := by
    grind [UInt8.lt_iff_toNat_lt]
  have hs : isUtf8mb3Step2 c c1 c2 = true := by
    simp only [isUtf8mb3Step2, h1, h2, Bool.and_self, Bool.true_and, Bool.or_eq_true,
      decide_eq_true_eq, ge_iff_le, UInt8.le_iff_toNat_le]
    exact ho
  refine isChar_of_mb3 hlead.2.2.2 le_rfl ?_ (fun tail => ?_) (fun tail => ?_)
    (eq_space_of_mem (by simp; omega))
  · rw [utf8mb3Code_eq h1 h2]
    omega
  · simp [mbWcUtf8mb3, hlead, hs]
  · simp [scanWeight, hlead, hs]

/-- A four-byte character. -/
theorem isChar_four {c2 c3 : UInt8} (hc : 0xf0 ≤ c.toNat) (hc' : c.toNat < 0xf5)
    (h1 : isContinuationByte c1 = true) (h2 : isContinuationByte c2 = true)
    (h3 : isContinuationByte c3 = true) (ho : 0xf1 ≤ c.toNat ∨ 0x90 ≤ c1.toNat)
    (ho' : c.toNat ≤ 0xf3 ∨ c1.toNat ≤ 0x8f) :
    IsChar true [c, c1, c2, c3] (utf8mb4Code c c1 c2 c3) := by
  have hb1 := (isContinuationByte_iff c1).mp h1
  have hb2 := (isContinuationByte_iff c2).mp h2
  have hb3 := (isContinuationByte_iff c3).mp h3
  have hlead : ¬ c < 0x80 ∧ ¬ c < 0xc2 ∧ ¬ c < 0xe0 ∧ ¬ c < 0xf0 ∧ c < 0xf5 := by
    grind [UInt8.lt_iff_toNat_lt]
  have hs : isUtf8mb4Step2 c c1 c2 c3 = true := by
    simp only [isUtf8mb4Step2, h1, h2, h3, Bool.and_self, Bool.true_and, Bool.and_eq_true,
      Bool.or_eq_true, decide_eq_true_eq, ge_iff_le, UInt8.le_iff_toNat_le]
    exact ⟨ho, ho'⟩
  have h4 : ∀ tail, mbWcUtf8mb4 (c :: c1 :: c2 :: c3 :: tail) = some (utf8mb4Code c c1 c2 c3, 4) :=
    fun tail => by
      simp [mbWcUtf8mb4, hlead, hs]
  refine ⟨h4, fun tail => ?_, fun room hr => wcMbUtf8mb4_mbWc (h4 []) hr, by simp,
    eq_space_of_mem (by simp; omega), ?_, by simp [utf8MaxLen]⟩
  · simp [scanWeight, hlead, hs]
  · rw [utf8mb4Code_eq h1 h2 h3]
    simp only [utf8WeightLen]
    omega

/-- **What is read from a string is a character at its head.** -/
theorem isChar_of_utf8MbWc {s : Bytes} {n : ℕ}
    (h : utf8MbWc mb4 s = some (wc, n)) : ∃ c r, s = c ++ r ∧ n = c.length ∧ IsChar mb4 c wc := by
  have of3 : mbWcUtf8mb3 s = some (wc, n) →
      ∃ c r, s = c ++ r ∧ n = c.length ∧ IsChar mb4 c wc := by
    intro h
    rcases mbWcUtf8mb3_cases h with ⟨c, r, rfl, hc, rfl, rfl⟩ |
      ⟨c, c1, r, rfl, hc, hc', h1, rfl, rfl⟩ | ⟨c, c1, c2, r, rfl, hc, hc', h1, h2, ho, rfl, rfl⟩
    · exact ⟨[c], r, rfl, rfl, isChar_one mb4 hc⟩
    · exact ⟨[c, c1], r, rfl, rfl, isChar_two mb4 hc hc' h1⟩
    · exact ⟨[c, c1, c2], r, rfl, rfl, isChar_three mb4 hc hc' h1 h2 ho⟩
  cases mb4 with
  | false => exact of3 h
  | true =>
    rcases mbWcUtf8mb4_cases h with h |
      ⟨c, c1, c2, c3, r, rfl, hc, hc', h1, h2, h3, ho, ho', rfl, rfl⟩
    · exact of3 h
    · exact ⟨[c, c1, c2, c3], r, rfl, rfl, isChar_four hc hc' h1 h2 h3 ho ho'⟩

/-- The space is a character. -/
theorem isChar_space (mb4 : Bool) : IsChar mb4 [0x20] 0x20 := isChar_one mb4 (c := 0x20) (by decide)

theorem IsChar.eq_space_iff {c : Bytes} (h : IsChar mb4 c wc) : wc = 0x20 ↔ c = [0x20] := by
  constructor
  · rintro rfl
    exact h.eq_of_eq (isChar_space mb4)
  · rintro rfl
    have hd := h.decode []
    rw [append_nil, ← append_nil [0x20], (isChar_space mb4).decode []] at hd
    exact (Prod.mk.inj (Option.some.inj hd)).1.symm

/-! ## Strings of characters -/

/-- **`v` is the concatenation of the characters `xs`.** -/
inductive Spells (mb4 : Bool) : Bytes → List ℕ → Prop
  | nil : Spells mb4 [] []
  | cons {c v : Bytes} {wc : ℕ} {xs : List ℕ} :
      IsChar mb4 c wc → Spells mb4 v xs → Spells mb4 (c ++ v) (wc :: xs)

theorem spells_of_utf8Chars : ∀ {fuel : ℕ} {v : Bytes} {xs : List ℕ},
    utf8Chars (utf8MbWc mb4) fuel v = some xs → Spells mb4 v xs
  | _, [], xs, h => by
      obtain rfl : [] = xs := by simpa [utf8Chars] using h
      exact Spells.nil
  | 0, _ :: _, _, h => by simp [utf8Chars] at h
  | fuel + 1, b :: s, xs, h => by
      rw [utf8Chars] at h
      rcases hd : utf8MbWc mb4 (b :: s) with _ | ⟨wc, n⟩
      · simp [hd] at h
      · simp only [hd, Option.map_eq_some_iff] at h
        obtain ⟨ys, hys, rfl⟩ := h
        obtain ⟨c, r, hs, rfl, hc⟩ := isChar_of_utf8MbWc hd
        rw [hs, drop_left] at hys
        rw [hs]
        exact Spells.cons hc (spells_of_utf8Chars hys)

theorem utf8Chars_of_spells {v : Bytes} {xs : List ℕ} (h : Spells mb4 v xs) :
    ∀ {fuel : ℕ}, v.length ≤ fuel → utf8Chars (utf8MbWc mb4) fuel v = some xs := by
  induction h with
  | nil =>
    intro fuel _
    cases fuel <;> rfl
  | @cons c u wc xs hc hu ih =>
    intro fuel hf
    obtain ⟨b, c', rfl⟩ := exists_cons_of_ne_nil hc.ne_nil
    have hd := hc.decode u
    obtain _ | fuel := fuel
    · simp at hf
    · simp only [cons_append] at hd ⊢
      simp only [utf8Chars, hd]
      simp only [cons_append, length_cons, length_append] at hf
      rw [← cons_append, drop_left, ih (by omega)]
      rfl

namespace Spells

variable {mb4 : Bool} {v w : Bytes} {xs ys : List ℕ}

section

variable (h : Spells mb4 v xs)

include h

theorem eq_nil_iff : v = [] ↔ xs = [] := by
  cases h with
  | nil => simp
  | cons hc _ => simp [hc.ne_nil]

theorem length_le : xs.length ≤ v.length := by
  induction h with
  | nil => simp
  | cons hc _ ih =>
    have := hc.length_pos
    simp only [length_cons, length_append]
    omega

theorem length_le_mul : v.length ≤ utf8MaxLen mb4 * xs.length := by
  induction h with
  | nil => simp
  | cons hc _ ih =>
    have := hc.length_le
    rw [length_append, length_cons, Nat.mul_succ]
    omega

theorem lt : ∀ x ∈ xs, x < 256 ^ utf8WeightLen mb4 := by
  induction h with
  | nil => simp
  | cons hc _ ih => exact forall_mem_cons.mpr ⟨hc.lt, ih⟩

theorem append (h' : Spells mb4 w ys) : Spells mb4 (v ++ w) (xs ++ ys) := by
  induction h with
  | nil => exact h'
  | cons hc _ ih =>
    rw [append_assoc]
    exact Spells.cons hc ih

/-- Characters have one spelling. -/
theorem bytes_unique (h' : Spells mb4 w xs) : v = w := by
  induction h generalizing w with
  | nil => exact (h'.eq_nil_iff.mpr rfl).symm
  | @cons c u wc xs hc hu ih =>
    cases h' with
    | @cons c' u' _ _ hc' hu' => rw [hc.eq_of_eq hc', ih hu']

/-- **The first characters of a string spell the first characters.** -/
theorem utf8Take : ∀ n, Spells mb4 (utf8Take (utf8MbWc mb4) n v) (xs.take n) ∧
    ∃ r, v = EloqSql.utf8Take (utf8MbWc mb4) n v ++ r ∧ Spells mb4 r (xs.drop n) := by
  induction h with
  | nil =>
    intro n
    cases n <;> exact ⟨Spells.nil, [], rfl, Spells.nil⟩
  | @cons c u wc xs hc hu ih =>
    intro n
    cases n with
    | zero => exact ⟨Spells.nil, c ++ u, rfl, Spells.cons hc hu⟩
    | succ n =>
      obtain ⟨b, c', rfl⟩ := exists_cons_of_ne_nil hc.ne_nil
      have hd := hc.decode u
      simp only [cons_append] at hd ⊢
      simp only [EloqSql.utf8Take, hd]
      rw [← cons_append, take_left, drop_left]
      obtain ⟨ht, r, hr, hr'⟩ := ih n
      refine ⟨Spells.cons hc ht, r, ?_, hr'⟩
      rw [append_assoc, ← hr]

end

end Spells

/-! ## Trailing spaces -/

theorem rdropWhile_append {α : Type*} (p : α → Bool) (u v : List α) :
    (u ++ v).rdropWhile p = if v.rdropWhile p = [] then u.rdropWhile p
      else u ++ v.rdropWhile p := by
  simp only [rdropWhile, reverse_append, dropWhile_append, List.isEmpty_iff,
    reverse_eq_nil_iff]
  split_ifs
  · rfl
  · rw [reverse_append, reverse_reverse]

/-- What is trimmed off are copies of the trimmed element. -/
theorem rdropWhile_append_replicate {α : Type*} [BEq α] [LawfulBEq α] (a : α) (v : List α) :
    v.rdropWhile (· == a) ++ replicate (v.length - (v.rdropWhile (· == a)).length) a = v := by
  induction v using List.reverseRecOn with
  | nil => rfl
  | append_singleton v b ih =>
    rw [rdropWhile_concat]
    split_ifs with hb
    · obtain rfl : b = a := eq_of_beq hb
      have hle : (v.rdropWhile (· == b)).length ≤ v.length :=
        (List.rdropWhile_prefix _ v).length_le
      rw [length_append, length_singleton, Nat.succ_sub hle, replicate_succ',
        ← append_assoc, ih]
    · simp

theorem IsChar.trim {mb4 : Bool} {c : Bytes} {wc : ℕ} (h : IsChar mb4 c wc) :
    Spells mb4 (c.rdropWhile (· == 0x20)) ([wc].rdropWhile (· == 0x20)) := by
  by_cases hs : wc = 0x20
  · rw [h.eq_space_iff.mp hs, hs]
    exact Spells.nil
  · have hc : c ≠ [0x20] := fun hc => hs (h.eq_space_iff.mpr hc)
    have hlast : ¬ (c.getLast h.ne_nil == 0x20) = true := by
      intro hl
      exact hc (h.space_mem (eq_of_beq hl ▸ getLast_mem h.ne_nil))
    rw [(rdropWhile_eq_self_iff).mpr fun _ => hlast,
      (rdropWhile_eq_self_iff).mpr fun _ => by simpa using hs]
    simpa using Spells.cons h Spells.nil

namespace Spells

variable {mb4 : Bool} {v w : Bytes} {xs ys : List ℕ}

/-- **Trimming spaces from a string trims spaces from its characters.** -/
theorem trim (h : Spells mb4 v xs) :
    Spells mb4 (v.rdropWhile (· == 0x20)) (xs.rdropWhile (· == 0x20)) := by
  induction h with
  | nil => exact Spells.nil
  | @cons c u wc xs hc hu ih =>
    rw [rdropWhile_append, ← singleton_append, rdropWhile_append]
    by_cases he : u.rdropWhile (· == 0x20) = []
    · rw [if_pos he, if_pos (ih.eq_nil_iff.mp he)]
      exact hc.trim
    · rw [if_neg he, if_neg fun h0 => he (ih.eq_nil_iff.mpr h0)]
      exact Spells.cons hc ih

end Spells

/-! ## Weights -/

@[simp] theorem length_utf8Weight (mb4 : Bool) (wc : ℕ) :
    (utf8Weight mb4 wc).length = utf8WeightLen mb4 := by
  cases mb4 <;> rfl

theorem utf8WeightLen_pos (mb4 : Bool) : 0 < utf8WeightLen mb4 := by cases mb4 <;> decide

/-- Numbers of equally many digits compare as the digits do. -/
theorem compare_digits {a b a' b' n : ℕ} (hb : b < n) (hb' : b' < n) :
    compare (a * n + b) (a' * n + b') = (compare a a').then (compare b b') := by
  rcases Nat.lt_trichotomy a a' with h | rfl | h
  · have : (a + 1) * n ≤ a' * n := Nat.mul_le_mul_right n h
    rw [Nat.compare_eq_lt.mpr h, Nat.compare_eq_lt.mpr (by rw [Nat.add_mul] at this; omega)]
    rfl
  · rw [Nat.compare_eq_eq.mpr rfl]
    simp only [Nat.compare_eq_ite_lt, Nat.add_lt_add_iff_left]
    rfl
  · have : (a' + 1) * n ≤ a * n := Nat.mul_le_mul_right n h
    rw [Nat.compare_eq_gt.mpr h, Nat.compare_eq_gt.mpr (by rw [Nat.add_mul] at this; omega)]
    rfl

theorem compare_ofNat {m n : ℕ} (hm : m < 256) (hn : n < 256) :
    compare (UInt8.ofNat m) (UInt8.ofNat n) = compare m n := by
  have h : ∀ {k : ℕ}, k < 256 → (UInt8.ofNat k).toNat = k := fun hk => by
    rw [UInt8.toNat_ofNat', Nat.mod_eq_of_lt hk]
  simp only [compareOfLessAndEq, compare, UInt8.lt_iff_toNat_lt, ← UInt8.toNat_inj, h hm, h hn]

/-- **Weights compare as code points do.** -/
theorem compare_utf8Weight (mb4 : Bool) {x y : ℕ} (hx : x < 256 ^ utf8WeightLen mb4)
    (hy : y < 256 ^ utf8WeightLen mb4) :
    compare (utf8Weight mb4 x) (utf8Weight mb4 y) = compare x y := by
  have hmask : ∀ z : ℕ, z &&& 0xff = z % 256 := fun z => Nat.and_two_pow_sub_one_eq_mod z 8
  have hdiv : ∀ z : ℕ, z = z / 256 * 256 + z % 256 := fun z => (Nat.div_add_mod' z 256).symm
  cases mb4 with
  | false =>
    simp only [utf8WeightLen] at hx hy
    simp only [utf8Weight, weightBE2, hmask, Nat.shiftRight_eq_div_pow, List.compare_cons_cons,
      List.compare_nil_nil]
    rw [compare_ofNat (by omega) (by omega), compare_ofNat (by omega) (by omega)]
    conv_rhs => rw [hdiv x, hdiv y, compare_digits (by omega) (by omega)]
    rw [Ordering.then_eq]
  | true =>
    simp only [utf8WeightLen] at hx hy
    simp only [utf8Weight, weightBE3, hmask, Nat.shiftRight_eq_div_pow, List.compare_cons_cons,
      List.compare_nil_nil]
    rw [compare_ofNat (by omega) (by omega), compare_ofNat (by omega) (by omega),
      compare_ofNat (by omega) (by omega)]
    conv_rhs => rw [hdiv x, hdiv y, compare_digits (by omega) (by omega), hdiv (x / 256),
      hdiv (y / 256), compare_digits (by omega) (by omega)]
    rw [Ordering.then_eq, Ordering.then_assoc]
    simp only [Nat.div_div_eq_div_mul]

namespace Spells

variable {mb4 : Bool} {v w : Bytes} {xs ys : List ℕ}

theorem strnxfrmUnicodeLoop_append (h : Spells mb4 v xs) (tail : Bytes) : ∀ {room n : ℕ},
    utf8WeightLen mb4 * min n xs.length ≤ room →
      ∃ room', EloqSql.strnxfrmUnicodeLoop (utf8MbWc mb4) (utf8Weight mb4) room n (v ++ tail)
        = Prod.map ((xs.take n).flatMap (utf8Weight mb4) ++ ·) id (EloqSql.strnxfrmUnicodeLoop
          (utf8MbWc mb4) (utf8Weight mb4) room' (n - xs.length) tail) := by
  induction h with
  | nil => exact fun {room n} _ => ⟨room, by simp [Prod.map]⟩
  | @cons c u wc xs hc hu ih =>
    intro room n hroom
    cases n with
    | zero => exact ⟨0, by simp [EloqSql.strnxfrmUnicodeLoop]⟩
    | succ n =>
      rw [length_cons, Nat.succ_min_succ, Nat.mul_succ] at hroom
      have hpos := utf8WeightLen_pos mb4
      have htake : (utf8Weight mb4 wc).take room = utf8Weight mb4 wc :=
        take_of_length_le (by rw [length_utf8Weight]; omega)
      obtain ⟨room', hih⟩ := @ih (room - utf8WeightLen mb4) n (by omega)
      refine ⟨room', ?_⟩
      rw [append_assoc]
      simp only [EloqSql.strnxfrmUnicodeLoop, if_neg (show ¬ room = 0 by omega),
        hc.decode (u ++ tail), htake, length_utf8Weight, drop_left]
      rw [hih, length_cons, Nat.add_sub_add_right]
      simp [Prod.map]

/-- **`strnxfrm` writes the weights of the first characters**, and leaves those it could still
write. -/
theorem strnxfrmUnicodeLoop (h : Spells mb4 v xs) {room n : ℕ}
    (hroom : utf8WeightLen mb4 * min n xs.length ≤ room) :
    EloqSql.strnxfrmUnicodeLoop (utf8MbWc mb4) (utf8Weight mb4) room n v
      = ((xs.take n).flatMap (utf8Weight mb4), n - xs.length) := by
  obtain ⟨room', hr⟩ := h.strnxfrmUnicodeLoop_append [] hroom
  have hnil : utf8MbWc mb4 [] = none := by cases mb4 <;> rfl
  rw [append_nil] at hr
  rw [hr]
  cases n - xs.length with
  | zero => simp [EloqSql.strnxfrmUnicodeLoop]
  | succ k => by_cases h0 : room' = 0 <;> simp [EloqSql.strnxfrmUnicodeLoop, h0, hnil]

/-- **The UTF-8 comparison is that of the characters, continued by spaces.** -/
theorem strnncollspNcharsUtf8 : ∀ (n : ℕ) {v w : Bytes} {xs ys : List ℕ}, Spells mb4 v xs →
    Spells mb4 w ys → EloqSql.strnncollspNcharsUtf8 mb4 n v w
      = compare (Segment.padTake (fun _ => 0x20) n xs) (Segment.padTake (fun _ => 0x20) n ys)
  | 0, _, _, _, _, _, _ => rfl
  | n + 1, _, _, _, _, hv, hw => by
      -- the characters that one turn of the loop compares, and what is left for the next
      have hturn : ∀ {v : Bytes} {xs : List ℕ}, Spells mb4 v xs →
          ∃ x xs' k, scanWeight mb4 v = (x, k) ∧
          Spells mb4 (v.drop k) xs' ∧ (k = 0 → xs' = [] ∧ x = 0x20) ∧
          Segment.padTake (fun _ => 0x20) (n + 1) xs
            = x :: Segment.padTake (fun _ => 0x20) n xs' := by
        intro v xs h
        cases h with
        | nil => exact ⟨0x20, [], 0, rfl, Spells.nil, fun _ => ⟨rfl, rfl⟩, rfl⟩
        | @cons c u wc xs hc hu =>
          refine ⟨wc, xs, c.length, hc.scan u, by rwa [drop_left], fun h0 => ?_, rfl⟩
          exact absurd h0 (Nat.pos_iff_ne_zero.mp hc.length_pos)
      obtain ⟨x, xs', k, hsv, hv', hk, hpv⟩ := hturn hv
      obtain ⟨y, ys', l, hsw, hw', hl, hpw⟩ := hturn hw
      simp only [EloqSql.strnncollspNcharsUtf8, hsv, hsw]
      rw [hpv, hpw, List.compare_cons_cons]
      by_cases hxy : x = y
      · subst hxy
        rw [if_neg (by simp), Nat.compare_eq_eq.mpr rfl]
        by_cases h0 : k = 0 ∧ l = 0
        · rw [if_pos h0, (hk h0.1).1, (hl h0.2).1]
          exact (Std.LawfulEqOrd.compare_eq_iff_eq.mpr rfl).symm
        · rw [if_neg h0, strnncollspNcharsUtf8 n hv' hw']
          rfl
      · rw [if_pos hxy]
        rcases Nat.lt_or_gt_of_ne hxy with h | h
        · rw [Nat.compare_eq_lt.mpr h]
          rfl
        · rw [Nat.compare_eq_gt.mpr h]
          rfl

end Spells

end EloqSql
