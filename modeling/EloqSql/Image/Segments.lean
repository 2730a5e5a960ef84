import EloqSql.Packing
import EloqSql.Image.Weights

/-!
# Image/Segments — the variable-length encodings are segment codes

`pack_variable_format` is the counting code of `Lib/Segment` (`packVariableFormat_eq`), and
`pack_with_varchar_space_pad` the code that stops where only spaces are left
(`spacePadLoop_fst_eq`), if the segments hold whole weights. That is what `Spaces` says of a
collation's images of the space.
-/

namespace EloqSql

open Segment MemCompare List

/-! ## `pack_variable_format` -/

theorem packVariableFormatLoop_eq : ∀ (fuel : ℕ) (src : Bytes),
    packVariableFormatLoop fuel src = countEncode 0 UInt8.ofNat 8 fuel src
  | 0, _ => rfl
  | fuel + 1, src => by
      rw [packVariableFormatLoop, countEncode]
      simp only [monoEscapeLength, length_drop]
      by_cases h : src.length ≤ 8
      · rw [if_pos (by omega), if_pos h, padTake_of_length_le _ h, padTake_const,
          show min 8 src.length = src.length by omega, take_length,
          show min src.length 9 = src.length by omega]
      · rw [if_neg (by omega), if_neg h, padTake_of_le_length _ (by omega),
          show min 8 src.length = 8 by omega, show min src.length 9 = 9 by omega,
          packVariableFormatLoop_eq fuel]

theorem packVariableFormat_eq (src : Bytes) :
    packVariableFormat src = countEncode 0 UInt8.ofNat 8 (src.length + 1) src :=
  packVariableFormatLoop_eq _ _

theorem countEncode_fuel : ∀ {k n : ℕ} {u : Bytes}, u.length < k → u.length < n →
    countEncode 0 UInt8.ofNat 8 k u = countEncode 0 UInt8.ofNat 8 n u
  | 0, _, _, h, _ => nomatch h
  | _ + 1, 0, _, _, h => nomatch h
  | k + 1, n + 1, u, h, h' => by
      rw [countEncode, countEncode]
      by_cases hu : u.length ≤ 8
      · rw [if_pos hu, if_pos hu]
      · rw [if_neg hu, if_neg hu, countEncode_fuel (n := n) (by rw [length_drop]; omega)
          (by rw [length_drop]; omega)]

/-- **Images in the variable format compare as the strings do.** -/
theorem comparesAs_packVariableFormat (u v : Bytes) :
    ComparesAs (packVariableFormat u) (packVariableFormat v) (compare u v) := by
  have hcount : ∀ i j, i ≤ 8 + 1 → j ≤ 8 + 1 →
      compare (UInt8.ofNat i) (UInt8.ofNat j) = compare i j :=
    fun i j hi hj => compare_ofNat (by omega) (by omega)
  have h := comparesAs_countEncode (k := max u.length v.length + 1) (u := u) (v := v)
    (by omega) Collation.compare_zero_ne_gt hcount (by omega) (by omega)
  rwa [packVariableFormat_eq, packVariableFormat_eq,
    countEncode_fuel (n := max u.length v.length + 1) (by omega) (by omega),
    countEncode_fuel (u := v) (n := max u.length v.length + 1) (by omega) (by omega)]

/-! ## `pack_with_varchar_space_pad` -/

/-- `VARCHAR_CMP_*` as flags of a segment. -/
def varcharFlags : Flags UInt8 := ⟨varcharCmp, by decide, by decide⟩

/-- **Images of the space fill up segments**: `xfrm` is a stretch of the pattern `p`, and segments
of `N` bytes as well as `xfrm` are whole numbers of weights of `w` bytes. -/
structure Spaces (p : ℕ → UInt8) (w N : ℕ) (xfrm : Bytes) : Prop where
  xfrm_eq : xfrm = padTake p xfrm.length []
  pos : 0 < N
  le : N ≤ xfrm.length
  dvd : w ∣ N
  dvd_xfrm : w ∣ xfrm.length
  period : ∀ i, p (i + w) = p i

namespace Spaces

variable {p : ℕ → UInt8} {w N : ℕ} {xfrm : Bytes} (hs : Spaces p w N xfrm)

include hs

theorem shift {n : ℕ} (h : w ∣ n) : (fun i => p (i + n)) = p := by
  obtain ⟨k, rfl⟩ := h
  funext i
  induction k with
  | zero => rfl
  | succ k ih => rw [Nat.mul_succ, ← Nat.add_assoc, hs.period, ih]

theorem take_xfrm {n : ℕ} (h : n ≤ xfrm.length) : xfrm.take n = padTake p n [] := by
  rw [hs.xfrm_eq, take_padTake_nil p h]

/-- **`mono_compare_string_with_spaces` compares with the pattern.** -/
theorem monoCompareStringWithSpaces_eq : ∀ {fuel : ℕ} {u : Bytes}, u.length ≤ fuel →
    monoCompareStringWithSpaces xfrm fuel u = padCompare p u []
  | _, [], _ => by
      rw [padCompare_self]
      unfold monoCompareStringWithSpaces
      rfl
  | 0, _ :: _, h => nomatch h
  | fuel + 1, b :: s, h => by
      have hle := hs.le
      have hpos := hs.pos
      rw [monoCompareStringWithSpaces]
      generalize hu : b :: s = u at h ⊢
      have hlen : 0 < u.length := by simp [← hu]
      rw [monoCompareStringWithSpaces_eq (by rw [length_drop]; omega),
        hs.take_xfrm (Nat.min_le_right _ _)]
      by_cases hm : u.length ≤ xfrm.length
      · rw [Nat.min_eq_left hm, take_length, drop_length, padCompare_self,
          Ordering.then_eq, padCompare_eq p le_rfl (Nat.zero_le _), padTake_of_le_length p le_rfl,
          take_length]
      · rw [Nat.min_eq_right (by omega), padCompare_split p xfrm.length u, hs.shift hs.dvd_xfrm,
          padTake_of_le_length p (u := u) (by omega), drop_nil]

/-- **The loop writes the segments of the string continued by the pattern.** -/
theorem spacePadLoop_fst_eq : ∀ {fuel : ℕ} {buf : Bytes}, w ∣ buf.length →
    (spacePadLoop (N + 1) xfrm fuel buf).1 = padEncode p N varcharFlags fuel buf
  | 0, _, _ => rfl
  | fuel + 1, buf, hd => by
      have hle := hs.le
      rw [spacePadLoop, padEncode]
      simp only [Nat.add_sub_cancel]
      by_cases h : buf.length < N
      · rw [if_pos (by omega), Nat.min_eq_right (by omega), take_length,
          drop_of_length_le (by omega), padCompare_self, if_pos rfl,
          padTake_of_length_le p (by omega), hs.shift hd, hs.take_xfrm (by omega)]
        rfl
      · rw [if_neg (by omega), Nat.min_eq_left (by omega),
          hs.monoCompareStringWithSpaces_eq le_rfl, padTake_of_le_length p (by omega)]
        have hd' : w ∣ (buf.drop N).length := by
          rw [length_drop]
          exact Nat.dvd_sub hd hs.dvd
        have ih : (spacePadLoop (N + 1) xfrm fuel (buf.drop N)).1 = _ := spacePadLoop_fst_eq hd'
        cases hc : padCompare p (buf.drop N) [] with
        | eq => rfl
        | lt | gt =>
          rw [← ih]
          rfl

end Spaces

namespace Collation

/-- The image of the space is its weight. -/
theorem spaceImage_eq {cs : Collation} (h : cs.PadSpace) : spaceImage cs = cs.weight 0x20 := by
  cases cs with
  | binary => exact absurd h not_padSpace_binary
  | latin1Bin => rfl
  | simple sortOrder =>
    simp only [weight, order, orderBytes, UInt8.ofNat_toNat]
    rfl
  | utf8Bin => rfl
  | utf8mb4Bin => rfl

/-- Images of the space are added until there are enough bytes. The induction is on the turns of the
loop, of which every one adds a byte. -/
theorem spacesXfrm_eq (s : Bytes) (hs : 0 < s.length) : ∀ (fuel j : ℕ),
    monoSpaceXfrmSize ≤ fuel + s.length * j → ∃ k, monoSpaceXfrmSize ≤ s.length * k ∧
      spacesXfrm s fuel (padTake (cycle s 0) (s.length * j) [])
        = padTake (cycle s 0) (s.length * k) []
  | 0, j, h => ⟨j, by simpa using h, rfl⟩
  | fuel + 1, j, h => by
      rw [spacesXfrm, length_padTake]
      split_ifs with hlt
      · have hadd : padTake (cycle s 0) (s.length * j) [] ++ s
            = padTake (cycle s 0) (s.length * (j + 1)) [] := by
          have hc : (fun i => cycle s 0 (i + s.length * j)) = cycle s 0 := by
            funext i
            rw [cycle, cycle, Nat.add_mul_mod_self_left]
          rw [Nat.mul_succ, padTake_add, hc, drop_nil, padTake_cycle]
        rw [hadd]
        exact spacesXfrm_eq s hs fuel (j + 1) (by rw [Nat.mul_succ]; omega)
      · exact ⟨j, by omega, rfl⟩

theorem segment_dvd {cs : Collation} (h : cs.PadSpace) :
    0 < getSegmentSizeFromCollation cs - 1 ∧
      getSegmentSizeFromCollation cs - 1 ≤ monoSpaceXfrmSize ∧
      cs.weightLen ∣ getSegmentSizeFromCollation cs - 1 := by
  cases cs with
  | binary => exact absurd h not_padSpace_binary
  | latin1Bin | simple _ | utf8Bin | utf8mb4Bin =>
    simp [getSegmentSizeFromCollation, monoSpaceXfrmSize, weightLen]

/-- Images of the space fill up segments that are whole numbers of them. -/
theorem spaces_of_dvd {s : Bytes} {N : ℕ} (hpos : 0 < N) (hle : N ≤ monoSpaceXfrmSize)
    (hdvd : s.length ∣ N) :
    Spaces (cycle s 0) s.length N (spacesXfrm s monoSpaceXfrmSize []) := by
  obtain ⟨k, hk, hx⟩ := spacesXfrm_eq s (Nat.pos_of_dvd_of_pos hdvd hpos) monoSpaceXfrmSize 0
    (Nat.le_add_right _ _)
  have hx' : spacesXfrm s monoSpaceXfrmSize [] = padTake (cycle s 0) (s.length * k) [] := hx
  rw [hx']
  exact ⟨by rw [length_padTake], hpos, by rw [length_padTake]; omega, hdvd,
    by rw [length_padTake]; exact Nat.dvd_mul_right _ _, congrFun (cycle_add_length s 0)⟩

/-- **The images of the space of a collation fill up its segments.** -/
theorem spaces {cs : Collation} (h : cs.PadSpace) :
    Spaces cs.spaceCycle cs.weightLen (getSegmentSizeFromCollation cs - 1)
      (spacesXfrm (spaceImage cs) monoSpaceXfrmSize []) := by
  obtain ⟨hpos, hle, hdvd⟩ := segment_dvd h
  rw [← length_weight cs 0x20] at hdvd ⊢
  rw [spaceImage_eq h]
  exact spaces_of_dvd hpos hle hdvd

end Collation

/-! ## Sequences of images -/

section Images

/-- The image of a character, of `w` bytes. -/
abbrev Image (w : ℕ) := {x : Bytes // x.length = w}

variable {w : ℕ}

instance : Ord (Image w) := ⟨fun x y => compare x.1 y.1⟩

instance : Std.LawfulEqOrd (Image w) where
  compare_self {x} := Std.ReflCmp.compare_self (a := x.1)
  eq_of_compare h := Subtype.ext (Std.LawfulEqOrd.eq_of_compare h)

/-- What `pack_with_varchar_space_pad` writes for a sequence of images. -/
def packImages (cs : Collation) (space : Image w) (turns : ℕ) (xs : List (Image w)) : Bytes :=
  (spacePadLoop (getSegmentSizeFromCollation cs) (spacesXfrm space.1 monoSpaceXfrmSize []) turns
    (xs.flatMap Subtype.val)).1

/-- **The space-padded code compares sequences of images as if each went on with spaces for ever**,
whatever the image of the space is, if segments hold whole images. -/
theorem packImages_code (cs : Collation) (space : Image w)
    (hdvd : w ∣ getSegmentSizeFromCollation cs - 1) (xs ys : List (Image w)) :
    let encode (zs : List (Image w)) := packImages cs space (w * zs.length + 1) zs
    (∀ turns, w * xs.length < turns → packImages cs space turns xs = encode xs) ∧
    (encode xs <+: encode ys → encode xs = encode ys) ∧
    compare (encode xs) (encode ys) = padCompare (fun _ => space) xs ys ∧
    (encode xs = encode ys ↔ SamePad (fun _ => space) xs ys) ∧
    ∀ (fpi : FieldPacking) (f : Field) (v : Bytes),
      fpi.segmentSize = getSegmentSizeFromCollation cs →
      fpi.spaceXfrm = spacesXfrm space.1 monoSpaceXfrmSize [] →
      f.charset.strnxfrm fpi.maxImageLen f.charLength (v.take (f.charset.lengthsp v)) {}
        = xs.flatMap Subtype.val →
      (packWithVarcharSpacePad fpi f v).1 = encode xs := by
  intro encode
  have hw : ∀ x : Image w, (Subtype.val x).length = w := Subtype.property
  have hlen := length_flatMap_weights hw
  obtain ⟨N, hN⟩ : ∃ N, getSegmentSizeFromCollation cs = N + 1 := by
    cases cs <;> exact ⟨_, rfl⟩
  have hbound : 0 < N ∧ N ≤ monoSpaceXfrmSize := by
    cases cs <;> cases hN <;> decide
  rw [hN, Nat.add_sub_cancel, ← space.2] at hdvd
  have hs := Collation.spaces_of_dvd hbound.1 hbound.2 hdvd
  have hshift := hs.shift hs.dvd
  have hpack : ∀ zs turns, w * zs.length < turns → ∀ k, w * zs.length < k →
      packImages cs space turns zs
        = padEncode (cycle space.1 0) N varcharFlags k (zs.flatMap Subtype.val) := by
    intro zs turns ht k hk
    rw [packImages, hN, hs.spacePadLoop_fst_eq (by rw [hlen, space.2]; exact Nat.dvd_mul_right _ _)]
    exact padEncode_congr varcharFlags hs.pos hshift (by rwa [hlen]) (by rwa [hlen]) fun _ => rfl
  have hcode : ComparesAs (encode xs) (encode ys) (padCompare (fun _ => space) xs ys) := by
    have hcmp := padCompare_flatMap (P := fun _ => True) hw (fun _ _ _ _ => rfl) (x := space)
      trivial 0 (fun y (_ : y ∈ xs) => trivial) fun y (_ : y ∈ ys) => trivial
    simp only [encode]
    rw [hpack xs _ (Nat.lt_add_one _) (w * xs.length + w * ys.length + 1) (by omega),
      hpack ys _ (Nat.lt_add_one _) (w * xs.length + w * ys.length + 1) (by omega), ← hcmp]
    exact comparesAs_padEncode varcharFlags hs.pos hshift (by rw [hlen]; omega)
      (by rw [hlen]; omega)
  refine ⟨fun turns ht => ?_, fun ⟨t, ht⟩ => ?_, hcode.compare_eq, ?_,
    fun fpi f v hseg hsp hbuf => ?_⟩
  · exact (hpack xs turns ht _ ht).trans (hpack xs _ (Nat.lt_add_one _) turns ht).symm
  · exact (hcode.aligned t [] (by rw [ht, append_nil])).1
  · exact hcode.eq_iff.trans padCompare_eq_eq
  · simp only [packWithVarcharSpacePad, hbuf, hseg, hsp, hlen]
    rfl

/-- Weights of two bytes in segments of eight: a space at the end does not count. -/
theorem packImages_code_utf8 :
    let space : Image 2 := ⟨[0x00, 0x20], rfl⟩
    let a : Image 2 := ⟨[0x00, 0x41], rfl⟩
    2 ∣ getSegmentSizeFromCollation .utf8Bin - 1 ∧
      compare (packImages .utf8Bin space 5 [a, space]) (packImages .utf8Bin space 3 [a]) = .eq :=
  ⟨by decide, (packImages_code .utf8Bin _ (by decide) [_, _] [_]).2.2.1.trans (by decide)⟩

end Images

end EloqSql
