import EloqSql.Image.Numbers
import EloqSql.Image.Segments
import EloqSql.Table

/-!
# Image/Part — the image of a key part compares as its column

`comparesAs_pack` is the one fact that all that is known about the order of keys comes from: the
images of two valid values compare as `imageCmp` says, whatever is packed after them. That is the
comparison of the SQL layer, with one exception: a `TEXT` prefix in a single-byte collation is
filled up with the space itself where its weight was meant.
-/

namespace EloqSql

open Segment MemCompare FieldPacking List
open EloqSql.Field (charLength cmpPrefix packLength sortString validValue wf wfPart)
open FieldPacking (pack)
open Collation (chars_takeChars chars_trim le_length_strnxfrm length_weights map_byteOrder
  mbmaxlen not_padSpace_binary order padChar padCompare_weights padSpace_of_ne_binary segment_dvd
  spaces strnncollspNchars strnncollspNchars_eq strnxfrm strnxfrm8bit_fill strnxfrmlen weight)

/-! ## Valid values -/

section Valid

variable {f : Field} {v : Bytes}

theorem validValue_varchar (hf : f.realType = .varchar) (h : f.validValue v = true) :
    v.length ≤ f.fieldLength ∧ ∃ xs, f.charset.chars v = some xs ∧ xs.length ≤ f.charLength := by
  simp only [validValue, hf, Bool.and_eq_true, decide_eq_true_eq, Option.any_eq_true] at h
  exact h

theorem validValue_string (hf : f.realType = .string) (h : f.validValue v = true) :
    v.length = f.fieldLength ∧
      ∃ xs, f.charset.chars v = some xs ∧ ∀ x ∈ xs.drop f.charLength, x = 0x20 := by
  simp only [validValue, hf, Bool.and_eq_true, beq_iff_eq, Option.any_eq_true,
    all_eq_true] at h
  exact h

theorem validValue_blob {n : ℕ} (hf : f.realType = .blob n) (h : f.validValue v = true) :
    v.length < 256 ^ n ∧ ∃ xs, f.charset.chars v = some xs := by
  simp only [validValue, hf, Bool.and_eq_true, decide_eq_true_eq,
    Option.isSome_iff_exists] at h
  exact h

theorem wfPart_length {len : ℕ} (h : f.wfPart len = true) :
    f.wf = true ∧ 0 < len ∧ len ≤ maxSupportedKeyLength := by
  simp only [wfPart, Bool.and_eq_true, decide_eq_true_eq] at h
  exact ⟨h.1.1.1, h.1.1.2, h.1.2⟩

/-- The number of characters of a string part, and how it fits its column. -/
theorem wfPart_string {len : ℕ} (hf : f.realType = .varchar ∨ f.realType = .string)
    (h : f.wfPart len = true) :
    0 < len ∧ len ≤ f.fieldLength ∧ len = f.charset.mbmaxlen * (len / f.charset.mbmaxlen) ∧
      f.fieldLength = f.charset.mbmaxlen * f.charLength := by
  have hmod : ∀ {a b : ℕ}, a % b = 0 → a = b * (a / b) := fun h => by
    rw [Nat.mul_div_cancel' (Nat.dvd_of_mod_eq_zero h)]
  rcases hf with hf | hf <;>
    simp only [wfPart, wf, hf, Bool.and_eq_true, beq_iff_eq, decide_eq_true_eq] at h <;>
    exact ⟨h.1.1.2, h.2.1, hmod h.2.2, hmod h.1.1.1⟩

theorem wfPart_blob {n len : ℕ} (hf : f.realType = .blob n) (h : f.wfPart len = true) :
    0 < len ∧ len ≤ maxSupportedKeyLength ∧ 1 ≤ n ∧
      len = f.charset.mbmaxlen * (len / f.charset.mbmaxlen) := by
  simp only [wfPart, wf, hf, Bool.and_eq_true, beq_iff_eq, decide_eq_true_eq] at h
  refine ⟨h.1.1.2, h.1.2, h.1.1.1.1, ?_⟩
  rw [Nat.mul_div_cancel' (Nat.dvd_of_mod_eq_zero h.2)]

end Valid

/-! ## `VARCHAR` -/

section Varchar

variable {f : Field} {len i : ℕ} {v w : Bytes} {xs ys : List ℕ}

theorem pack_varchar_binary (hf : f.realType = .varchar) (hc : f.charset = .binary) :
    ((setup i f len).pack (partField f len) v).1
      = packVariableFormat (strnxfrm8bit id 0 (monoEncodedSize f.fieldLength)
          (partField f len).charLength v {}) := by
  simp only [setup, hf, setupVarchar, hc, checkPrefix]
  split <;> simp [pack, partField, hc, strnxfrm, strnxfrmlen]

/-- How a `VARCHAR` of a padding collation is set up. -/
theorem setup_varchar_padSpace (i len : ℕ) (hf : f.realType = .varchar)
    (hp : f.charset.PadSpace) :
    (setup i f len).packFunc = some .withVarcharSpacePad ∧
    (setup i f len).segmentSize = getSegmentSizeFromCollation f.charset ∧
    (setup i f len).spaceXfrm = spacesXfrm (spaceImage f.charset) monoSpaceXfrmSize [] ∧
    (setup i f len).maxImageLen
      = (f.charset.strnxfrmlen f.fieldLength / (getSegmentSizeFromCollation f.charset - 1) + 1)
          * getSegmentSizeFromCollation f.charset := by
  cases hc : f.charset with
  | binary => exact absurd (hc ▸ hp) not_padSpace_binary
  | _ =>
    simp only [setup, hf, setupVarchar, hc, checkPrefix, setupSpacePad]
    split <;> simp

theorem weights_le_strnxfrmlen (cs : Collation) {n len L : ℕ} (hn : n ≤ len / cs.mbmaxlen)
    (hle : len ≤ L) : cs.weightLen * n ≤ cs.strnxfrmlen L := by
  cases cs <;> simp only [Collation.weightLen, mbmaxlen, strnxfrmlen] at * <;>
    omega

theorem le_chunks (x : ℕ) {N : ℕ} (hN : 0 < N) : x ≤ (x / N + 1) * (N + 1) := by
  have hlt := Nat.lt_mul_div_succ x hN
  calc x ≤ N * (x / N + 1) := hlt.le
    _ ≤ (x / N + 1) * (N + 1) := by
      rw [Nat.mul_comm]
      exact Nat.mul_le_mul_left _ (Nat.le_succ N)

/-- The weights that a `VARCHAR` part of `n` characters is packed with. -/
def varcharWeights (cs : Collation) (n : ℕ) (xs : List ℕ) : Bytes :=
  ((xs.rdropWhile (· == 0x20)).take n).flatMap cs.weight

theorem dvd_varcharWeights (cs : Collation) (n : ℕ) (xs : List ℕ) :
    cs.weightLen ∣ (varcharWeights cs n xs).length := by
  rw [varcharWeights, length_weights]
  exact Nat.dvd_mul_right _ _

section

variable (hf : f.realType = .varchar)

include hf

theorem strnxfrm_varchar (hp : f.charset.PadSpace)
    (hw : f.wfPart len = true) (hx : f.charset.chars v = some xs) :
    f.charset.strnxfrm (setup i f len).maxImageLen (len / f.charset.mbmaxlen)
      (v.take (f.charset.lengthsp v)) {}
      = varcharWeights f.charset (len / f.charset.mbmaxlen) xs := by
  obtain ⟨-, hle, -, -⟩ := wfPart_string (Or.inl hf) hw
  obtain ⟨hN, -, -⟩ := segment_dvd hp
  rw [Collation.take_lengthsp hp]
  refine Collation.strnxfrm_eq (chars_trim hx) ?_
  have hseg : getSegmentSizeFromCollation f.charset
      = getSegmentSizeFromCollation f.charset - 1 + 1 := by omega
  rw [(setup_varchar_padSpace i len hf hp).2.2.2]
  refine (weights_le_strnxfrmlen f.charset (Nat.min_le_left _ _) hle).trans ?_
  conv_rhs => rw [hseg]
  exact le_chunks _ hN

/-- **A padded `VARCHAR` is packed as the segments of its weights.** -/
theorem pack_varchar_padSpace (hp : f.charset.PadSpace)
    (hw : f.wfPart len = true) (hx : f.charset.chars v = some xs) :
    ((setup i f len).pack (partField f len) v).1
      = padEncode f.charset.spaceCycle (getSegmentSizeFromCollation f.charset - 1) varcharFlags
          ((varcharWeights f.charset (len / f.charset.mbmaxlen) xs).length + 1)
          (varcharWeights f.charset (len / f.charset.mbmaxlen) xs) := by
  obtain ⟨hpf, hseg, hxf, -⟩ := setup_varchar_padSpace i len hf hp
  obtain ⟨hN, -, -⟩ := segment_dvd hp
  have hbuf := strnxfrm_varchar (i := i) hf hp hw hx
  have hsize : getSegmentSizeFromCollation f.charset
      = getSegmentSizeFromCollation f.charset - 1 + 1 := by omega
  rw [pack, hpf]
  simp only [packWithVarcharSpacePad, partField, charLength, hbuf, hseg, hxf]
  conv_lhs => rw [hsize]
  exact (spaces hp).spacePadLoop_fst_eq (dvd_varcharWeights _ _ _)

/-- Padded `VARCHAR`s compare as their first characters do, with trailing spaces ignored. -/
theorem comparesAs_varchar_padSpace (hp : f.charset.PadSpace)
    (hw : f.wfPart len = true) (hx : f.charset.chars v = some xs)
    (hy : f.charset.chars w = some ys) :
    ComparesAs ((setup i f len).pack (partField f len) v).1
      ((setup i f len).pack (partField f len) w).1
      (f.charset.strnncollspNchars (len / f.charset.mbmaxlen) v w) := by
  have hs := spaces hp
  have hshift := hs.shift hs.dvd
  rw [pack_varchar_padSpace hf hp hw hx, pack_varchar_padSpace hf hp hw hy,
    strnncollspNchars_eq hp hx hy, ← Collation.padSpaceCompare_trim,
    ← padCompare_weights (chars_takeChars (chars_trim hx) _)
      (chars_takeChars (chars_trim hy) _)]
  generalize hn : len / f.charset.mbmaxlen = n
  -- the number of segments allowed does not matter
  have hfuel : ∀ zs : List ℕ, ∀ k, (varcharWeights f.charset n zs).length < k →
      padEncode f.charset.spaceCycle (getSegmentSizeFromCollation f.charset - 1) varcharFlags
          ((varcharWeights f.charset n zs).length + 1) (varcharWeights f.charset n zs)
        = padEncode f.charset.spaceCycle (getSegmentSizeFromCollation f.charset - 1) varcharFlags
          k (varcharWeights f.charset n zs) :=
    fun zs k hk => padEncode_congr varcharFlags hs.pos hshift (by omega) hk (fun _ => rfl)
  generalize hk : (varcharWeights f.charset n xs).length
    + (varcharWeights f.charset n ys).length + 1 = k
  rw [hfuel xs k (by omega), hfuel ys k (by omega)]
  exact comparesAs_padEncode varcharFlags hs.pos hshift (by omega) (by omega)

/-- A `VARBINARY` is packed as it is, up to the length of the part. -/
theorem pack_varchar_binary_eq (hc : f.charset = .binary) (hw : f.wfPart len = true) :
    ((setup i f len).pack (partField f len) v).1 = packVariableFormat (v.take len) := by
  obtain ⟨-, hle, -, -⟩ := wfPart_string (Or.inl hf) hw
  have hn : (partField f len).charLength = len := by
    simp [partField, charLength, hc, mbmaxlen]
  have hroom : min len v.length ≤ monoEncodedSize f.fieldLength := by
    simp only [monoEncodedSize, monoEscapeLength]
    omega
  rw [pack_varchar_binary hf hc, hn, Collation.strnxfrm8bit_eq _ _ hroom, map_id]

theorem comparesAs_varchar_binary (hc : f.charset = .binary) (hw : f.wfPart len = true) :
    ComparesAs ((setup i f len).pack (partField f len) v).1
      ((setup i f len).pack (partField f len) w).1
      (f.charset.strnncollspNchars (len / f.charset.mbmaxlen) v w) := by
  rw [pack_varchar_binary_eq hf hc hw, pack_varchar_binary_eq hf hc hw, hc]
  simp only [strnncollspNchars, mbmaxlen, Nat.div_one]
  exact comparesAs_packVariableFormat _ _

end

end Varchar

/-! ## `CHAR` -/

section Char

variable {f : Field} {len i : ℕ} {v w : Bytes} {xs ys : List ℕ}

/-- A comparison of as many characters as both strings have is that of their weights. -/
theorem strnncollspNchars_weights {cs : Collation} {n : ℕ} (hx : cs.chars v = some xs)
    (hy : cs.chars w = some ys) (hn : n ≤ xs.length) (hn' : n ≤ ys.length) :
    cs.strnncollspNchars n v w
      = compare ((xs.take n).flatMap cs.weight) ((ys.take n).flatMap cs.weight) := by
  have hlen : (xs.take n).length = (ys.take n).length := by simp [hn, hn']
  by_cases hp : cs.PadSpace
  · rw [strnncollspNchars_eq hp hx hy, cs.padSpaceCompare_of_length_eq hlen,
      Collation.compare_weights (chars_takeChars hx n) (chars_takeChars hy n)
        hlen]
  · cases cs with
    | binary =>
      cases hx
      cases hy
      rw [← map_byteOrder rfl, ← map_byteOrder rfl]
      simp [strnncollspNchars, Collation.byteOrder]
    | _ => exact absurd rfl hp

theorem setup_string (i len : ℕ) (hf : f.realType = .string) :
    (setup i f len).packFunc = some .withMakeSortKey ∧
    (setup i f len).maxImageLen = f.charset.strnxfrmlen f.fieldLength := by
  have hl : f.packLength = f.fieldLength := by simp [packLength, hf]
  simp only [setup, hf, setupString, checkPrefix, hl]
  cases f.charset <;> split <;> simp

section

variable (hf : f.realType = .string)

include hf

/-- **A `CHAR` is packed as the weights of its characters**, filled up if the part is a prefix. -/
theorem pack_string_head (hw : f.wfPart len = true)
    (hx : f.charset.chars v = some xs) (hn : xs.length = len / f.charset.mbmaxlen) (rest : Bytes) :
    ((setup i f len).pack (partField f len) (v ++ rest)).1
      = xs.flatMap f.charset.weight ++ f.charset.fill (f.charset.strnxfrmlen f.fieldLength
          - f.charset.weightLen * (len / f.charset.mbmaxlen)) := by
  obtain ⟨-, hle, hlen, -⟩ := wfPart_string (Or.inr hf) hw
  obtain ⟨hpf, hmax⟩ := setup_string i len hf
  have hvl : v.length ≤ len := by
    have := Collation.length_le_mul_of_chars hx
    rwa [hn, ← hlen] at this
  have hroom := weights_le_strnxfrmlen f.charset hn.le hle
  rw [pack, hpf]
  simp only [sortString, partField, hf, sortFieldString, charLength,
    Collation.strxfrmMultiply, Nat.mul_one, hmax]
  rw [take_append, take_of_length_le hvl, ← hn]
  exact Collation.strnxfrm_head hx hroom _

/-- A valid `CHAR` has the characters that are packed. -/
theorem chars_string (hw : f.wfPart len = true) (hv : f.validValue v = true) :
    ∃ xs, f.charset.chars v = some xs ∧ len / f.charset.mbmaxlen ≤ xs.length := by
  obtain ⟨-, hle, -, hfl⟩ := wfPart_string (Or.inr hf) hw
  obtain ⟨hvl, xs, hx, -⟩ := validValue_string hf hv
  refine ⟨xs, hx, ?_⟩
  have h := Collation.length_le_mul_of_chars hx
  rw [hvl, hfl] at h
  exact (Nat.div_le_div_right hle).trans (Nat.le_of_mul_le_mul_left h f.charset.mbmaxlen_pos)

theorem pack_string (hw : f.wfPart len = true)
    (hx : f.charset.chars v = some xs) (hn : len / f.charset.mbmaxlen ≤ xs.length) :
    ((setup i f len).pack (partField f len) v).1
      = (xs.take (len / f.charset.mbmaxlen)).flatMap f.charset.weight
        ++ f.charset.fill (f.charset.strnxfrmlen f.fieldLength
          - f.charset.weightLen * (len / f.charset.mbmaxlen)) := by
  obtain ⟨r, hr, -⟩ := Collation.takeChars_append hx (len / f.charset.mbmaxlen)
  conv_lhs => rw [hr]
  exact pack_string_head hf hw (chars_takeChars hx _)
    (by rw [length_take, Nat.min_eq_left hn]) r

/-- The image of a `CHAR` part is as long as that of the whole column. -/
theorem length_pack_string (hw : f.wfPart len = true)
    (hx : f.charset.chars v = some xs) (hn : len / f.charset.mbmaxlen ≤ xs.length) :
    ((setup i f len).pack (partField f len) v).1.length
      = f.charset.strnxfrmlen f.fieldLength := by
  obtain ⟨-, hle, -, -⟩ := wfPart_string (Or.inr hf) hw
  have hroom := weights_le_strnxfrmlen f.charset le_rfl hle
  rw [pack_string hf hw hx hn, length_append, f.charset.length_weights, length_take,
    Nat.min_eq_left hn, f.charset.length_fill]
  exact Nat.add_sub_of_le hroom

theorem comparesAs_string (hw : f.wfPart len = true)
    (hx : f.charset.chars v = some xs) (hy : f.charset.chars w = some ys)
    (hn : len / f.charset.mbmaxlen ≤ xs.length) (hn' : len / f.charset.mbmaxlen ≤ ys.length) :
    ComparesAs ((setup i f len).pack (partField f len) v).1
      ((setup i f len).pack (partField f len) w).1
      (f.charset.strnncollspNchars (len / f.charset.mbmaxlen) v w) := by
  rw [pack_string hf hw hx hn, pack_string hf hw hy hn', strnncollspNchars_weights hx hy hn hn']
  refine (ComparesAs.of_length_eq ?_).append_same _
  rw [length_weights, length_weights, length_take, length_take,
    Nat.min_eq_left hn, Nat.min_eq_left hn']

end

end Char

/-! ## `BLOB` and `TEXT` -/

section Blob

variable {f : Field} {len i packlength : ℕ} {v w : Bytes} {xs ys : List ℕ}

theorem leNat_miStore : ∀ {n a : ℕ}, a < 256 ^ n → leNat (miStore n a).reverse = a
  | 0, a, h => by
      obtain rfl : a = 0 := by simpa using h
      rfl
  | n + 1, a, h => by
      rw [Nat.pow_succ] at h
      rw [miStore, reverse_append, reverse_singleton, singleton_append, leNat,
        leNat_miStore (Nat.div_lt_of_lt_mul (by rwa [Nat.mul_comm])), UInt8.toNat_ofNat']
      exact Nat.mod_add_div a 256

@[simp] theorem length_miStore : ∀ n a : ℕ, (miStore n a).length = n
  | 0, _ => rfl
  | n + 1, a => by rw [miStore, length_append, length_miStore n, length_singleton]

theorem miStore_zero : ∀ n : ℕ, miStore n 0 = replicate n 0
  | 0 => rfl
  | n + 1 => by rw [miStore, Nat.zero_div, miStore_zero n, replicate_succ']; rfl

theorem compare_miStore {n a b : ℕ} (ha : a < 256 ^ n) (hb : b < 256 ^ n) :
    compare (miStore n a) (miStore n b) = compare a b := by
  rw [compare_leNat_reverse (by simp), leNat_miStore ha, leNat_miStore hb]

/-- A string of single bytes filled up to the length of the part. -/
theorem map_append_replicate (sortOrder : UInt8 → UInt8) (pad : UInt8) (len : ℕ) (v : Bytes) :
    (v.take len).map sortOrder ++ replicate (len - min len v.length) pad
      = padTake (fun _ => pad) len ((v.take len).map sortOrder) := by
  rw [padTake_of_length_le _ (by simp), padTake_const, length_map, length_take]

/-- A binary `BLOB` part: the head of the value filled up with zeros, and its length. -/
theorem pack_blob_binary (hf : f.realType = .blob packlength) (hc : f.charset = .binary) :
    ((setup i f len).pack (partField f len) v).1
      = padTake (fun _ => 0) len (v.take len) ++ miStore packlength (min v.length len) := by
  simp only [setup, hf, hc, pack, partField, packBlob, padChar,
    Nat.add_sub_cancel, mbmaxlen, Nat.div_one]
  split_ifs with h
  · obtain rfl : v = [] := length_eq_zero_iff.mp h.1
    rw [take_nil, padTake_const, length_nil, Nat.zero_min, miStore_zero,
      replicate_append_replicate]
  · have hx := strnxfrm8bit_fill (n := len) (v := v) id 0 (Nat.min_le_left len v.length)
    rw [map_append_replicate, map_id] at hx
    exact congrArg (· ++ _) hx

theorem comparesAs_blob_binary (i len : ℕ) (hf : f.realType = .blob packlength)
    (hc : f.charset = .binary)
    (hv : v.length < 256 ^ packlength) (hv' : w.length < 256 ^ packlength) :
    ComparesAs ((setup i f len).pack (partField f len) v).1
      ((setup i f len).pack (partField f len) w).1
      (f.charset.strnncollspNchars (len / f.charset.mbmaxlen) v w) := by
  have hmin : ∀ u : Bytes, min (u.take len).length (len + 1) = min u.length len := fun u => by
    rw [length_take]
    omega
  -- the fill leaves ties between values that differ in trailing zeros, and the length breaks them
  have hsplit := compare_split Collation.compare_zero_ne_gt len (v.take len) (w.take len)
  rw [hmin, hmin, drop_of_length_le (by simp), drop_of_length_le (by simp),
    List.compare_nil_nil, Ordering.then_eq,
    ← compare_miStore (n := packlength) (by omega) (by omega)] at hsplit
  rw [pack_blob_binary hf hc, pack_blob_binary hf hc, hc]
  simp only [strnncollspNchars, mbmaxlen, Nat.div_one]
  rw [hsplit]
  exact (ComparesAs.of_length_eq (by simp)).append (ComparesAs.of_length_eq (by simp))

/-- A `TEXT` part in a simple collation is filled up with spaces themselves, not their weights. -/
theorem pack_blob_simple {sortOrder : UInt8 → UInt8} (hf : f.realType = .blob packlength)
    (hc : f.charset = .simple sortOrder) :
    ((setup i f len).pack (partField f len) v).1
      = padTake (fun _ => 0x20) len ((v.take len).map sortOrder) := by
  simp only [setup, hf, hc, pack, partField, packBlob, padChar,
    Nat.add_zero, mbmaxlen, Nat.div_one]
  rw [if_neg (fun h => absurd h.2 (by decide)), ← map_append_replicate]
  exact strnxfrm8bit_fill sortOrder 0x20 (Nat.min_le_left len v.length)

theorem padTake_samePad_compare {p : ℕ → UInt8} {n : ℕ} {a b : Bytes} (ha : a.length ≤ n)
    (hb : b.length ≤ n) : ComparesAs (padTake p n a) (padTake p n b) (padCompare p a b) := by
  rw [padCompare_eq p ha hb]
  exact ComparesAs.of_length_eq (by simp)

/-- The fill of the other padding collations are weights of spaces. -/
theorem fill_eq_padTake {cs : Collation} (hp : cs.PadSpace) (hs : ∀ so, cs ≠ .simple so) (k : ℕ) :
    cs.fill k = padTake cs.spaceCycle k [] := by
  cases cs with
  | binary => exact absurd hp not_padSpace_binary
  | simple so => exact absurd rfl (hs so)
  | latin1Bin =>
    have hc : Collation.latin1Bin.spaceCycle = fun _ => 0x20 := by
      funext i
      simp [Collation.spaceCycle, cycle, weight, Collation.orderBytes, order,
        Nat.mod_one]
    rw [hc, padTake_const]
    rfl
  | utf8Bin | utf8mb4Bin => exact take_flatten_replicate _ 0 (by decide) k

/-- The other `TEXT` parts: the weights of the first characters, and weights of spaces. -/
theorem pack_blob_padSpace (hf : f.realType = .blob packlength) (hp : f.charset.PadSpace)
    (hs : ∀ so, f.charset ≠ .simple so) (hw : f.wfPart len = true)
    (hx : f.charset.chars v = some xs) :
    ((xs.take (len / f.charset.mbmaxlen)).flatMap f.charset.weight).length ≤ len ∧
    ((setup i f len).pack (partField f len) v).1
      = padTake f.charset.spaceCycle len
          ((xs.take (len / f.charset.mbmaxlen)).flatMap f.charset.weight) := by
  obtain ⟨-, -, -, hlen⟩ := wfPart_blob hf hw
  have hl := f.charset.length_weights (xs.take (len / f.charset.mbmaxlen))
  rw [length_take] at hl
  have hroom : f.charset.weightLen * min (len / f.charset.mbmaxlen) xs.length ≤ len := by
    calc _ ≤ f.charset.mbmaxlen * (len / f.charset.mbmaxlen) :=
          Nat.mul_le_mul f.charset.weightLen_le_mbmaxlen (Nat.min_le_left _ _)
      _ = len := hlen.symm
  refine ⟨by rw [hl]; exact hroom, ?_⟩
  have hpack : ((setup i f len).pack (partField f len) v).1
      = f.charset.strnxfrm len (len / f.charset.mbmaxlen) v ⟨false, true⟩ := by
    simp only [setup, hf, pack, partField, packBlob]
    rw [if_neg (fun h => absurd (h.2.symm.trans hp) (by decide))]
    cases hc : f.charset with
    | binary => exact absurd (hc ▸ hp) not_padSpace_binary
    | _ => rfl
  have hshift := (spaces hp).shift (Nat.dvd_mul_right f.charset.weightLen
    (min (len / f.charset.mbmaxlen) xs.length))
  have hpad := padTake_of_length_le f.charset.spaceCycle (hl ▸ hroom)
  rw [hl, hshift] at hpad
  rw [hpack, Collation.strnxfrm_fill hx hroom, fill_eq_padTake hp hs, hpad]

theorem comparesAs_blob_padSpace (hf : f.realType = .blob packlength) (hp : f.charset.PadSpace)
    (hs : ∀ so, f.charset ≠ .simple so) (hw : f.wfPart len = true)
    (hx : f.charset.chars v = some xs) (hy : f.charset.chars w = some ys) :
    ComparesAs ((setup i f len).pack (partField f len) v).1
      ((setup i f len).pack (partField f len) w).1
      (f.charset.strnncollspNchars (len / f.charset.mbmaxlen) v w) := by
  obtain ⟨hl, himg⟩ := pack_blob_padSpace (i := i) hf hp hs hw hx
  obtain ⟨hl', himg'⟩ := pack_blob_padSpace (i := i) hf hp hs hw hy
  rw [himg, himg', strnncollspNchars_eq hp hx hy,
    ← padCompare_weights (chars_takeChars hx _) (chars_takeChars hy _)]
  exact padTake_samePad_compare hl hl'

end Blob

/-! ## All parts -/

section All

variable {f : Field} {len i : ℕ} {v w : Bytes}

/-- How the images of two values of a key part compare. -/
def imageCmp (f : Field) (len : ℕ) (v w : Bytes) : Ordering :=
  match f.realType, f.charset with
  | .blob _, .simple sortOrder =>
    padCompare (fun _ => 0x20) ((v.take len).map sortOrder) ((w.take len).map sortOrder)
  | _, _ => f.cmpPrefix len v w

theorem strnxfrmlen_pos (cs : Collation) {L : ℕ} (h : 0 < L) : 0 < cs.strnxfrmlen L := by
  cases cs <;> simp only [strnxfrmlen] <;> omega

theorem ne_nil_of_le_length {n : ℕ} (h : 0 < n) (hn : n ≤ v.length) : v ≠ [] := by
  rintro rfl
  simp at hn
  omega

theorem pack_string_ne_nil (hf : f.realType = .varchar ∨ f.realType = .string)
    (hw : f.wfPart len = true) : ((setup i f len).pack (partField f len) v).1 ≠ [] := by
  obtain ⟨-, hpos, -⟩ := wfPart_length hw
  obtain ⟨-, hle, -, -⟩ := wfPart_string hf hw
  rcases hf with hf | hf
  · by_cases hc : f.charset = .binary
    · rw [pack_varchar_binary hf hc, packVariableFormat, packVariableFormatLoop]
      split <;> simp
    · have hp := padSpace_of_ne_binary hc
      rw [pack, (setup_varchar_padSpace i len hf hp).1]
      simp only [packWithVarcharSpacePad, spacePadLoop]
      split
      · simp
      · split <;> simp
  · obtain ⟨hpf, hmax⟩ := setup_string i len hf
    rw [pack, hpf]
    simp only [sortString, partField, hf, sortFieldString, hmax]
    exact ne_nil_of_le_length (strnxfrmlen_pos _ (by omega)) (le_length_strnxfrm _ _ _ _ _)

/-- A part of a column of fixed size is packed with `make_sort_key`. -/
theorem pack_fixed (hf : f.realType.fixedSize = true) :
    ((setup i f len).pack (partField f len) v).1 = f.sortString f.packLength v := by
  cases h : f.realType with
  | varchar | string | blob _ => simp [h, FieldType.fixedSize] at hf
  | time dec | datetime dec | timestamp dec =>
    cases dec <;> simp [setup, pack, sortString, partField, h]
  | _ => simp [setup, pack, sortString, partField, h]

theorem wfPart_fixed (hw : f.wfPart len = true) : f.wf = true ∧ f.realType ≠ .time 5 := by
  refine ⟨(wfPart_length hw).1, fun h => ?_⟩
  simp [wfPart, h] at hw

/-- **No image is empty**, whatever the record holds. -/
theorem pack_ne_nil (hw : f.wfPart len = true) (hv : f.shaped v = true) :
    ((setup i f len).pack (partField f len) v).1 ≠ [] := by
  obtain ⟨hwf, hpos, -⟩ := wfPart_length hw
  cases hf : f.realType with
  | varchar => exact pack_string_ne_nil (Or.inl hf) hw
  | string => exact pack_string_ne_nil (Or.inr hf) hw
  | blob packlength =>
    obtain ⟨-, -, hn, -⟩ := wfPart_blob hf hw
    cases hc : f.charset with
    | binary =>
      rw [pack_blob_binary hf hc]
      exact ne_nil_of_le_length hn (by simp)
    | _ =>
      simp only [setup, hf, hc, pack, partField, packBlob, Nat.add_zero]
      rw [if_neg (fun h => absurd h.2 (by simp [padChar]))]
      exact ne_nil_of_le_length hpos (le_length_strnxfrm _ _ _ _ _)
  | _ =>
    have hfix : f.realType.fixedSize = true := by rw [hf]; rfl
    have hpl : 0 < f.packLength := by simpa [wf, hf] using hwf
    have hl : v.length = f.packLength := by simpa [Field.shaped, hf] using hv
    rw [pack_fixed hfix]
    exact ne_nil_of_le_length hpl (by rw [Field.length_sortString hfix, hl])

/-- **The images of two valid values of a key part compare as the values do**, whatever is packed
after them. -/
theorem comparesAs_pack (hw : f.wfPart len = true) (hv : f.validValue v = true)
    (hv' : f.validValue w = true) :
    ComparesAs ((setup i f len).pack (partField f len) v).1
      ((setup i f len).pack (partField f len) w).1 (imageCmp f len v w) := by
  cases hf : f.realType with
  | varchar =>
    have hcmp : imageCmp f len v w
        = f.charset.strnncollspNchars (len / f.charset.mbmaxlen) v w := by
      simp [imageCmp, hf, cmpPrefix]
    rw [hcmp]
    obtain ⟨-, xs, hx, -⟩ := validValue_varchar hf hv
    obtain ⟨-, ys, hy, -⟩ := validValue_varchar hf hv'
    by_cases hc : f.charset = .binary
    · exact comparesAs_varchar_binary hf hc hw
    · exact comparesAs_varchar_padSpace hf (padSpace_of_ne_binary hc) hw hx hy
  | string =>
    have hcmp : imageCmp f len v w
        = f.charset.strnncollspNchars (len / f.charset.mbmaxlen) v w := by
      simp [imageCmp, hf, cmpPrefix]
    rw [hcmp]
    obtain ⟨xs, hx, hn⟩ := chars_string hf hw hv
    obtain ⟨ys, hy, hn'⟩ := chars_string hf hw hv'
    exact comparesAs_string hf hw hx hy hn hn'
  | blob packlength =>
    obtain ⟨hl, xs, hx⟩ := validValue_blob hf hv
    obtain ⟨hl', ys, hy⟩ := validValue_blob hf hv'
    cases hc : f.charset with
    | simple sortOrder =>
      simp only [imageCmp, hf, hc]
      rw [pack_blob_simple hf hc, pack_blob_simple hf hc]
      exact padTake_samePad_compare (by simp) (by simp)
    | binary =>
      have := comparesAs_blob_binary i len hf hc hl hl'
      simpa [imageCmp, hf, hc, cmpPrefix] using this
    | _ =>
      have := comparesAs_blob_padSpace (i := i) hf (by rw [hc]; rfl) (by simp [hc]) hw hx hy
      simpa [imageCmp, hf, hc, cmpPrefix] using this
  | _ =>
    have hfix : f.realType.fixedSize = true := by rw [hf]; rfl
    obtain ⟨hwf, ht⟩ := wfPart_fixed hw
    have hcmp : imageCmp f len v w = f.cmp v w := by simp [imageCmp, hf, cmpPrefix]
    rw [pack_fixed hfix, pack_fixed hfix, hcmp, ← Field.compare_sortString hfix ht hwf hv hv']
    refine ComparesAs.of_length_eq ?_
    rw [Field.length_sortString hfix, Field.length_sortString hfix,
      Field.length_of_validValue hfix hv, Field.length_of_validValue hfix hv']

/-! ### Parts with a clone of the column

A clone differs from its column in the length of a string, which decides on the room for the image:
how far the image of a `CHAR` is filled up, and nothing else. -/

theorem wfPart_partField (hf : f.realType = .varchar ∨ f.realType = .string)
    (hw : f.wfPart len = true) : (partField f len).wfPart len = true := by
  rcases hf with hf | hf <;>
    simp only [wfPart, wf, partField, hf, Bool.and_eq_true, beq_iff_eq,
      decide_eq_true_eq] at hw ⊢ <;>
    exact ⟨⟨⟨hw.2.2, hw.1.1.2⟩, hw.1.2⟩, le_refl _, hw.2.2⟩

theorem setup_partField (hf : f.realType ≠ .varchar) (hf' : f.realType ≠ .string) (n : ℕ) :
    setup i (partField f n) len = setup i f len := by
  cases h : f.realType with
  | varchar => exact absurd h hf
  | string => exact absurd h hf'
  | time dec | datetime dec | timestamp dec =>
    cases dec <;> simp only [setup, partField, h, packLength]
  | _ => simp only [setup, partField, h, packLength]

/-- **The packing of a part of a valid value is that of a string, clone or not, or of a column of
fixed size.** What is to be shown of it is shown for each of the three. -/
theorem setup_keyField_cases {P : FieldPacking → Prop} (cloned : Bool) (hw : f.wfPart len = true)
    (hv : f.validValue v = true)
    (varchar : ∀ {g : Field} {xs : List ℕ}, g.realType = .varchar → g.wfPart len = true →
      g.charset.chars v = some xs → partField g len = partField f len → P (setup i g len))
    (string : ∀ {g : Field} {xs : List ℕ}, g.realType = .string → g.wfPart len = true →
      g.charset.chars v = some xs → len / g.charset.mbmaxlen ≤ xs.length →
      partField g len = partField f len → P (setup i g len))
    (fixed : f.realType ≠ .varchar → f.realType ≠ .string → P (setup i f len)) :
    P (setup i (keyField cloned f len) len) := by
  by_cases hf : f.realType = .varchar
  · obtain ⟨-, xs, hx, -⟩ := validValue_varchar hf hv
    cases cloned with
    | false => exact varchar hf hw hx rfl
    | true => exact varchar (g := partField f len) hf (wfPart_partField (Or.inl hf) hw) hx rfl
  by_cases hf' : f.realType = .string
  · obtain ⟨xs, hx, hn⟩ := chars_string hf' hw hv
    cases cloned with
    | false => exact string hf' hw hx hn rfl
    | true => exact string (g := partField f len) hf' (wfPart_partField (Or.inr hf') hw) hx hn rfl
  · cases cloned with
    | false => exact fixed hf hf'
    | true =>
      rw [keyField, if_pos rfl, setup_partField hf hf']
      exact fixed hf hf'

/-- A clone of a `VARCHAR` makes no other image. -/
theorem pack_varchar_partField (hf : f.realType = .varchar) (hw : f.wfPart len = true)
    {xs : List ℕ} (hx : f.charset.chars v = some xs) :
    ((setup i (partField f len) len).pack (partField f len) v).1
      = ((setup i f len).pack (partField f len) v).1 := by
  have hw' := wfPart_partField (Or.inl hf) hw
  by_cases hc : f.charset = .binary
  · exact (pack_varchar_binary_eq (f := partField f len) hf hc hw').trans
      (pack_varchar_binary_eq hf hc hw).symm
  · have hp := padSpace_of_ne_binary hc
    exact (pack_varchar_padSpace (f := partField f len) hf hp hw' hx).trans
      (pack_varchar_padSpace hf hp hw hx).symm

theorem strnxfrmlen_lt (cs : Collation) {a b : ℕ} (ha : a % cs.mbmaxlen = 0)
    (hb : b % cs.mbmaxlen = 0) (h : a < b) : cs.strnxfrmlen a < cs.strnxfrmlen b := by
  cases cs <;> simp only [mbmaxlen, strnxfrmlen] at * <;> omega

theorem keyField_pack_ne_nil (cloned : Bool) (hw : f.wfPart len = true) (hv : f.shaped v = true) :
    ((setup i (keyField cloned f len) len).pack (partField f len) v).1 ≠ [] := by
  cases cloned with
  | false => exact pack_ne_nil hw hv
  | true =>
    by_cases hf : f.realType = .varchar ∨ f.realType = .string
    · exact pack_string_ne_nil (f := partField f len) hf (wfPart_partField hf hw)
    · rw [not_or] at hf
      rw [keyField, if_pos rfl, setup_partField hf.1 hf.2]
      exact pack_ne_nil hw hv

theorem comparesAs_keyField_pack (cloned : Bool) (hw : f.wfPart len = true)
    (hv : f.validValue v = true) (hv' : f.validValue w = true) :
    ComparesAs ((setup i (keyField cloned f len) len).pack (partField f len) v).1
      ((setup i (keyField cloned f len) len).pack (partField f len) w).1 (imageCmp f len v w) := by
  have hcmp : f.realType = .varchar ∨ f.realType = .string →
      imageCmp f len v w = f.charset.strnncollspNchars (len / f.charset.mbmaxlen) v w := by
    rintro (hf | hf) <;> simp [imageCmp, hf, cmpPrefix]
  cases cloned with
  | false => exact comparesAs_pack hw hv hv'
  | true =>
    rw [keyField, if_pos rfl]
    by_cases hf : f.realType = .varchar
    · have hw' := wfPart_partField (Or.inl hf) hw
      obtain ⟨-, xs, hx, -⟩ := validValue_varchar hf hv
      obtain ⟨-, ys, hy, -⟩ := validValue_varchar hf hv'
      rw [hcmp (Or.inl hf)]
      by_cases hc : f.charset = .binary
      · exact comparesAs_varchar_binary (f := partField f len) hf hc hw'
      · exact comparesAs_varchar_padSpace (f := partField f len) hf
          (padSpace_of_ne_binary hc) hw' hx hy
    by_cases hf' : f.realType = .string
    · have hw' := wfPart_partField (Or.inr hf') hw
      obtain ⟨xs, hx, hn⟩ := chars_string hf' hw hv
      obtain ⟨ys, hy, hn'⟩ := chars_string hf' hw hv'
      rw [hcmp (Or.inr hf')]
      exact comparesAs_string (f := partField f len) hf' hw' hx hy hn hn'
    · rw [setup_partField hf hf']
      exact comparesAs_pack hw hv hv'

end All

end EloqSql
