import EloqSql.Image.Part
import EloqSql.Unpacking

/-!
# Image/SpacePad — space-padded strings are read back segment by segment

`pack_with_varchar_space_pad` writes what it keeps of the weights (`spacePadKept`) and the padding
of the last segment; `unpackSegments` hands a decoder the same bytes without the padding that was
counted (`unpackSegments_spacePadLoop`). The counts of trimmed and of padded spaces go through the
unpack info as one number (`readExtraSpaces_eq`).

What a decoder does with whole segments is described by a relation `D`, so that one induction does
for all of them.
-/

namespace EloqSql

open Segment FieldPacking List

/-! ## The loop over the segments -/

/-- What the loop of `pack_with_varchar_space_pad` keeps of a string: everything, or everything
before a segment boundary from which on there are only spaces. -/
def spacePadKept (N : ℕ) (xfrm : Bytes) : ℕ → Bytes → Bytes
  | 0, _ => []
  | fuel + 1, buf =>
    if buf.length < N then buf
    else if monoCompareStringWithSpaces xfrm (buf.drop N).length (buf.drop N) = .eq then buf.take N
    else buf.take N ++ spacePadKept N xfrm fuel (buf.drop N)

section Loop

variable {N : ℕ} {xfrm : Bytes}

theorem spacePadLoop_of_lt {fuel : ℕ} {buf : Bytes} (h : buf.length < N) :
    spacePadLoop (N + 1) xfrm (fuel + 1) buf
      = (buf ++ xfrm.take (N - buf.length) ++ [varcharCmp .eq], N - buf.length) := by
  rw [spacePadLoop]
  simp only [Nat.add_sub_cancel, Nat.min_eq_right h.le]
  rw [if_pos (by omega), take_length]

theorem spacePadLoop_of_eq {fuel : ℕ} {buf : Bytes} (h : N ≤ buf.length)
    (hc : monoCompareStringWithSpaces xfrm (buf.drop N).length (buf.drop N) = .eq) :
    spacePadLoop (N + 1) xfrm (fuel + 1) buf = (buf.take N ++ [varcharCmp .eq], 0) := by
  rw [spacePadLoop]
  simp only [Nat.add_sub_cancel, Nat.min_eq_left h, hc]
  rw [if_neg (by omega)]

theorem spacePadLoop_of_ne {fuel : ℕ} {buf : Bytes} (h : N ≤ buf.length) {o : Ordering}
    (hc : monoCompareStringWithSpaces xfrm (buf.drop N).length (buf.drop N) = o) (ho : o ≠ .eq) :
    spacePadLoop (N + 1) xfrm (fuel + 1) buf
      = (buf.take N ++ varcharCmp o :: (spacePadLoop (N + 1) xfrm fuel (buf.drop N)).1,
          (spacePadLoop (N + 1) xfrm fuel (buf.drop N)).2) := by
  rw [spacePadLoop]
  simp only [Nat.add_sub_cancel, Nat.min_eq_left h, hc]
  rw [if_neg (by omega)]

/-- The padding of the last segment is less than it. -/
theorem spacePadLoop_snd_le : ∀ (fuel : ℕ) (buf : Bytes),
    (spacePadLoop (N + 1) xfrm fuel buf).2 ≤ N
  | 0, _ => Nat.zero_le _
  | fuel + 1, buf => by
      by_cases h : buf.length < N
      · rw [spacePadLoop_of_lt h]
        exact Nat.sub_le _ _
      · rw [Nat.not_lt] at h
        by_cases hc : monoCompareStringWithSpaces xfrm (buf.drop N).length (buf.drop N) = .eq
        · rw [spacePadLoop_of_eq h hc]
          exact Nat.zero_le _
        · rw [spacePadLoop_of_ne h rfl hc]
          exact spacePadLoop_snd_le fuel _

theorem varcharCmp_ne_eq {o : Ordering} (h : o ≠ .eq) : varcharCmp o ≠ varcharCmp .eq ∧
    (varcharCmp o = varcharCmp .lt ∨ varcharCmp o = varcharCmp .gt) := by
  cases o with
  | eq => exact absurd rfl h
  | lt => exact ⟨by decide, Or.inl rfl⟩
  | gt => exact ⟨by decide, Or.inr rfl⟩

theorem getD_last {u : Bytes} (h : u.length = N) (c d : UInt8) : (u ++ [c]).getD N d = c := by
  subst h
  simp

theorem read_segment {u : Bytes} (h : u.length = N) (c : UInt8) (rest : Bytes) :
    StringReader.read (N + 1) (u ++ [c] ++ rest) = some (u ++ [c], rest) :=
  StringReader.read_append (by rw [length_append, h]; rfl) rest

/-- **A decoder does what `D` says**, where `D st src out st'` says that it turns `src` into `out`,
and a segment of `N` bytes can be cut off. -/
structure Decodes {σ : Type} (N : ℕ) (decode : σ → ℕ → Bytes → Option (Bytes × σ))
    (D : σ → Bytes → Bytes → σ → Prop) : Prop where
  decode_eq : ∀ {st src out st' room}, D st src out st' → out.length ≤ room →
    decode st room src = some (out, st')
  cut : ∀ {st u v out st'}, u.length = N → D st (u ++ v) out st' →
    ∃ o₁ o₂ st₁, out = o₁ ++ o₂ ∧ D st u o₁ st₁ ∧ D st₁ v o₂ st'

variable {σ : Type} {decode : σ → ℕ → Bytes → Option (Bytes × σ)}
  {D : σ → Bytes → Bytes → σ → Prop}

/-- **The segments of a string are read back as what was kept of it**, and the padding up to the
bytes that are to be removed. -/
theorem unpackSegments_spacePadLoop (hd : Decodes N decode D) (hpos : 0 < N) (hN : N ≤ xfrm.length)
    (rest : Bytes) :
    ∀ {fuel turns room spb : ℕ} {buf out : Bytes} {st st' : σ}, buf.length < fuel →
      (spacePadLoop (N + 1) xfrm fuel buf).1.length < turns →
      spb ≤ (spacePadLoop (N + 1) xfrm fuel buf).2 →
      D st (spacePadKept N xfrm fuel buf
        ++ xfrm.take ((spacePadLoop (N + 1) xfrm fuel buf).2 - spb)) out st' →
      out.length ≤ room →
      unpackSegments (N + 1) decode spb turns room st
        ((spacePadLoop (N + 1) xfrm fuel buf).1 ++ rest) = some (out, st', rest)
  | 0, _, _, _, _, _, _, _, h, _, _, _, _ => nomatch h
  | _, 0, _, _, _, _, _, _, _, h, _, _, _ => nomatch h
  | fuel + 1, turns + 1, room, spb, buf, out, st, st', hf, ht, hs, hD, hr => by
      rw [unpackSegments]
      simp only [Nat.add_sub_cancel]
      by_cases h : buf.length < N
      · -- the last segment, with padding
        rw [spacePadLoop_of_lt h] at hs hD ⊢
        simp only at hs hD ⊢
        have hseg : (buf ++ xfrm.take (N - buf.length)).length = N := by
          rw [length_append, length_take]
          omega
        rw [read_segment hseg]
        simp only
        rw [getD_last hseg, if_pos rfl, if_neg (by omega)]
        have htake : (buf ++ xfrm.take (N - buf.length) ++ [varcharCmp .eq]).take (N - spb)
            = buf ++ xfrm.take (N - buf.length - spb) := by
          rw [take_append_of_le_length (by omega), take_append,
            take_of_length_le (by omega), take_take,
            show min (N - spb - buf.length) (N - buf.length) = N - buf.length - spb by omega]
        rw [spacePadKept, if_pos h] at hD
        rw [htake, hd.decode_eq hD hr]
      · rw [Nat.not_lt] at h
        have hseg : (buf.take N).length = N := by rw [length_take]; omega
        by_cases hc : monoCompareStringWithSpaces xfrm (buf.drop N).length (buf.drop N) = .eq
        · -- the last segment, with only spaces after it
          rw [spacePadLoop_of_eq h hc] at hs hD ⊢
          simp only [Nat.le_zero] at hs
          subst hs
          simp only at hD ⊢
          rw [read_segment hseg]
          simp only
          rw [getD_last hseg, if_pos rfl, if_neg (by omega), Nat.sub_zero, take_left' hseg]
          rw [spacePadKept, if_neg (by omega), if_pos hc, Nat.sub_zero, take_zero,
            append_nil] at hD
          rw [hd.decode_eq hD hr]
        · -- another segment follows
          obtain ⟨hne, hflag⟩ := varcharCmp_ne_eq hc
          rw [spacePadLoop_of_ne h rfl hc] at ht hs hD ⊢
          simp only at ht hs hD ⊢
          rw [spacePadKept, if_neg (by omega), if_neg hc, append_assoc] at hD
          obtain ⟨o₁, o₂, st₁, rfl, h₁, h₂⟩ := hd.cut hseg hD
          rw [length_append] at hr
          rw [length_append, length_cons] at ht
          rw [append_cons, append_assoc, read_segment hseg]
          simp only
          rw [getD_last hseg, if_neg hne, if_pos hflag, take_left' hseg,
            hd.decode_eq h₁ (by omega)]
          simp only
          rw [unpackSegments_spacePadLoop hd hpos hN rest
            (by rw [length_drop]; omega) (by omega) hs h₂ (by omega)]

end Loop

/-! ## What is kept -/

section Kept

variable {N : ℕ} {xfrm : Bytes}

theorem spacePadKept_prefix : ∀ (fuel : ℕ) (buf : Bytes), spacePadKept N xfrm fuel buf <+: buf
  | 0, _ => nil_prefix
  | fuel + 1, buf => by
      rw [spacePadKept]
      split_ifs
      · exact prefix_rfl
      · exact take_prefix _ _
      · obtain ⟨r, hr⟩ := spacePadKept_prefix fuel (buf.drop N)
        exact ⟨r, by rw [append_assoc, hr, take_append_drop]⟩

/-- Segments and padding are whole weights. -/
theorem dvd_spacePadLoop_snd {w : ℕ} (hN : w ∣ N) : ∀ {fuel : ℕ} {buf : Bytes}, w ∣ buf.length →
    w ∣ (spacePadLoop (N + 1) xfrm fuel buf).2
  | 0, _, _ => Nat.dvd_zero _
  | fuel + 1, buf, hb => by
      by_cases h : buf.length < N
      · rw [spacePadLoop_of_lt h]
        exact Nat.dvd_sub hN hb
      · rw [Nat.not_lt] at h
        by_cases hc : monoCompareStringWithSpaces xfrm (buf.drop N).length (buf.drop N) = .eq
        · rw [spacePadLoop_of_eq h hc]
          exact Nat.dvd_zero _
        · rw [spacePadLoop_of_ne h rfl hc]
          refine dvd_spacePadLoop_snd hN ?_
          rw [length_drop]
          exact Nat.dvd_sub hb hN

variable {cs : Collation} {ys : List ℕ}

/-- A string compares equal to spaces if all its characters weigh as the space. -/
theorem padCompare_weights_nil (hy : ∀ y ∈ ys, y < 256 ^ cs.weightLen) :
    padCompare cs.spaceCycle (ys.flatMap cs.weight) [] = .eq
      ↔ ∀ y ∈ ys, cs.order y = cs.order 0x20 := by
  have ho : ∀ o ∈ ys.map cs.order, o < 256 ^ cs.weightLen := by
    intro o ho
    obtain ⟨y, hy', rfl⟩ := mem_map.mp ho
    exact cs.order_lt (hy y hy')
  have h := padCompare_flatMap cs.length_orderBytes (fun _ _ => cs.compare_orderBytes)
    (cs.order_lt cs.space_lt) 0 ho (forall_mem_nil _)
  rw [← Collation.weights_eq, flatMap_nil] at h
  rw [Collation.spaceCycle, Collation.weight, h, padCompare_eq_eq, samePad_const_nil,
    forall_mem_map]

/-- The characters a segment has room for. -/
def segmentChars (cs : Collation) : ℕ := (getSegmentSizeFromCollation cs - 1) / cs.weightLen

/-- The images of the space that `mono_get_mem_comparable_space` makes. -/
def spaceBytes (cs : Collation) : Bytes := spacesXfrm (spaceImage cs) monoSpaceXfrmSize []

/-- After the last segment boundary, if there is one, there are only characters that weigh as the
space. -/
def SpaceTail (cs : Collation) (ys : List ℕ) : Prop :=
  segmentChars cs < ys.length ∧
    ∀ y ∈ ys.drop (segmentChars cs * ((ys.length - 1) / segmentChars cs)),
      cs.order y = cs.order 0x20

theorem spaces_spaceBytes (hp : cs.PadSpace) : Spaces cs.spaceCycle cs.weightLen
    (getSegmentSizeFromCollation cs - 1) (spaceBytes cs) :=
  Collation.spaces hp

theorem segment_eq (hp : cs.PadSpace) :
    getSegmentSizeFromCollation cs - 1 = cs.weightLen * segmentChars cs ∧ 0 < segmentChars cs := by
  obtain ⟨hpos, -, hdvd⟩ := Collation.segment_dvd hp
  exact ⟨(Nat.mul_div_cancel' hdvd).symm, Nat.div_pos (Nat.le_of_dvd hpos hdvd) cs.weightLen_pos⟩

/-- Some of the images of the space. -/
theorem take_spaceBytes (hp : cs.PadSpace) {j : ℕ} (hj : j ≤ segmentChars cs) :
    (spaceBytes cs).take (j * cs.weightLen) = (replicate j 0x20).flatMap cs.weight := by
  have hs := spaces_spaceBytes hp
  have hle : cs.weightLen * j ≤ (spaceBytes cs).length :=
    (Nat.mul_le_mul_left _ hj).trans ((segment_eq hp).1 ▸ hs.le)
  have h := padTake_flatMap cs.length_weight 0x20 0 j []
  rw [padTake_const, flatMap_nil] at h
  rw [Nat.mul_comm, hs.take_xfrm hle]
  exact h

/-- The loop stops at a segment boundary if only such characters follow. -/
theorem compareWithSpaces_drop (hp : cs.PadSpace) (hy : ∀ y ∈ ys, y < 256 ^ cs.weightLen) :
    monoCompareStringWithSpaces (spaceBytes cs)
        ((ys.flatMap cs.weight).drop (getSegmentSizeFromCollation cs - 1)).length
        ((ys.flatMap cs.weight).drop (getSegmentSizeFromCollation cs - 1)) = .eq
      ↔ ∀ y ∈ ys.drop (segmentChars cs), cs.order y = cs.order 0x20 := by
  rw [(spaces_spaceBytes hp).monoCompareStringWithSpaces_eq le_rfl, (segment_eq hp).1,
    (take_flatMap_weights cs.length_weight _ _).2,
    padCompare_weights_nil fun y hy' => hy y (mem_of_mem_drop hy')]

/-- Behind the first segment the last segment boundary is the same. -/
theorem drop_lastSegment {n : ℕ} (hn : 0 < n) (h : n < ys.length) :
    (ys.drop n).drop (n * (((ys.drop n).length - 1) / n))
      = ys.drop (n * ((ys.length - 1) / n)) := by
  have hdiv : (ys.length - 1) / n = (ys.length - n - 1) / n + 1 := by
    rw [← Nat.add_div_right _ hn]
    congr 1
    omega
  rw [drop_drop, length_drop, hdiv, Nat.mul_succ, Nat.add_comm]

/-- Of a string without such a tail everything is kept. -/
theorem spacePadKept_eq (hp : cs.PadSpace) : ∀ {fuel : ℕ} {ys : List ℕ},
    (∀ y ∈ ys, y < 256 ^ cs.weightLen) → ys.length < fuel → ¬ SpaceTail cs ys →
      spacePadKept (getSegmentSizeFromCollation cs - 1) (spaceBytes cs) fuel (ys.flatMap cs.weight)
        = ys.flatMap cs.weight
  | 0, _, _, h, _ => nomatch h
  | fuel + 1, ys, hy, hf, ht => by
      obtain ⟨hN, hpos⟩ := segment_eq hp
      have hl := cs.length_weights ys
      rw [spacePadKept]
      split_ifs with hlt hc
      · rfl
      · -- nothing follows this segment
        rw [compareWithSpaces_drop hp hy] at hc
        have hle : ys.length ≤ segmentChars cs := by
          by_contra hgt
          rw [Nat.not_le] at hgt
          have hdiv : 1 ≤ (ys.length - 1) / segmentChars cs :=
            (Nat.one_le_div_iff hpos).mpr (by omega)
          refine ht ⟨hgt, fun y hy' => hc y ?_⟩
          refine mem_of_mem_drop (i := segmentChars cs * ((ys.length - 1) / segmentChars cs - 1)) ?_
          rw [drop_drop]
          rwa [show segmentChars cs + segmentChars cs * ((ys.length - 1) / segmentChars cs - 1)
            = segmentChars cs * ((ys.length - 1) / segmentChars cs) by
              rw [Nat.mul_sub_one, Nat.add_sub_cancel' (Nat.le_mul_of_pos_right _ hdiv)]]
        rw [take_of_length_le]
        rw [hl, hN]
        exact Nat.mul_le_mul_left _ hle
      · have hge : segmentChars cs ≤ ys.length := by
          rw [hl, hN, Nat.not_lt] at hlt
          exact Nat.le_of_mul_le_mul_left hlt cs.weightLen_pos
        rw [hN, (take_flatMap_weights cs.length_weight _ _).1,
          (take_flatMap_weights cs.length_weight _ _).2, ← hN,
          spacePadKept_eq hp (fun y hy' => hy y (mem_of_mem_drop hy'))
            (by rw [length_drop]; omega), ← flatMap_append, take_append_drop]
        rintro ⟨hgt, hall⟩
        rw [length_drop] at hgt
        exact ht ⟨by omega, drop_lastSegment hpos (by omega : segmentChars cs < ys.length) ▸ hall⟩

end Kept

/-! ## The number of spaces -/

/-- **The trimmed and the padded spaces go through the unpack info**: `k` spaces were trimmed and
`p` are in the padding. -/
theorem readExtraSpaces_eq (fpi : FieldPacking) {k p : ℕ} (hp : p ≤ monoTrimmedCharsOffset)
    (hk : fpi.unpackInfoUsesTwoBytes = false → monoTrimmedCharsOffset + k - p < 256)
    (hk' : monoTrimmedCharsOffset + k - p < 65536) (rest : Bytes) :
    readExtraSpaces fpi ((if fpi.unpackInfoUsesTwoBytes
        then writeUint16 (monoTrimmedCharsOffset + k - p)
        else writeUint8 (monoTrimmedCharsOffset + k - p)) ++ rest)
      = some (k - p, (p - k) * fpi.spaceXfrmLen, rest) := by
  have hread : (if fpi.unpackInfoUsesTwoBytes then StringReader.readUint16
        ((if fpi.unpackInfoUsesTwoBytes then writeUint16 (monoTrimmedCharsOffset + k - p)
          else writeUint8 (monoTrimmedCharsOffset + k - p)) ++ rest)
      else StringReader.readUint8
        ((if fpi.unpackInfoUsesTwoBytes then writeUint16 (monoTrimmedCharsOffset + k - p)
          else writeUint8 (monoTrimmedCharsOffset + k - p)) ++ rest))
      = some (monoTrimmedCharsOffset + k - p, rest) := by
    cases h : fpi.unpackInfoUsesTwoBytes with
    | true =>
      simp only [if_true]
      exact readUint16_writeUint16 hk' rest
    | false =>
      simp only [Bool.false_eq_true, if_false]
      exact readUint8_writeUint8 (hk h) rest
  rw [readExtraSpaces, hread]
  simp only
  split_ifs with hle
  · rw [show k - p = 0 by omega, show monoTrimmedCharsOffset - (monoTrimmedCharsOffset + k - p)
      = p - k by omega]
  · rw [show p - k = 0 by omega, Nat.zero_mul, show monoTrimmedCharsOffset + k - p
      - monoTrimmedCharsOffset = k - p by omega]

/-! ## A whole `VARCHAR` -/

section Whole

variable {f : Field} {i : ℕ} {v : Bytes} {xs : List ℕ}

theorem spaceMb_length {cs : Collation} (hp : cs.PadSpace) : (spaceMb cs).length = 1 := by
  cases cs with
  | binary => exact absurd hp Collation.not_padSpace_binary
  | _ => rfl

/-- How a whole `VARCHAR` of a padding collation is set up. -/
theorem setup_varchar_whole (i : ℕ) (hf : f.realType = .varchar) (hp : f.charset.PadSpace) :
    (setup i f f.fieldLength).unpackInfoStoresValue = false ∧
    (setup i f f.fieldLength).unpackInfoUsesTwoBytes = decide (f.fieldLength + 8 ≥ 0x100) ∧
    (setup i f f.fieldLength).spaceXfrmLen = f.charset.weightLen ∧
    (setup i f f.fieldLength).spaceMbLen = 1 ∧
    (setup i f f.fieldLength).varcharCharset = f.charset := by
  have hx : (spaceImage f.charset).length = f.charset.weightLen := by
    rw [Collation.spaceImage_eq hp, Collation.length_weight]
  have hm := spaceMb_length hp
  cases hc : f.charset with
  | binary => exact absurd (hc ▸ hp) Collation.not_padSpace_binary
  | _ =>
    rw [hc] at hx hm
    simp [setup, hf, setupVarchar, hc, checkPrefix, setupSpacePad, hx, hm]

/-- The segments of a value, and the padding of the last one in bytes. -/
def varcharSegments (cs : Collation) (n : ℕ) (xs : List ℕ) : Bytes × ℕ :=
  spacePadLoop (getSegmentSizeFromCollation cs) (spaceBytes cs)
    ((varcharWeights cs n xs).length + 1) (varcharWeights cs n xs)

/-- The padding in spaces. -/
def varcharPadding (cs : Collation) (n : ℕ) (xs : List ℕ) : ℕ :=
  (varcharSegments cs n xs).2 / cs.weightLen

/-- The spaces at the end of a value. -/
def trailingSpaces (v : Bytes) : ℕ := v.length - (v.rdropWhile (· == 0x20)).length

theorem lengthsp_eq {cs : Collation} (hp : cs.PadSpace) (v : Bytes) :
    cs.lengthsp v = (v.rdropWhile (· == 0x20)).length := by
  cases cs with
  | binary => exact absurd hp Collation.not_padSpace_binary
  | _ => rfl

/-- **What `pack_with_varchar_space_pad` writes for a whole column.** -/
theorem pack_varchar_whole (hf : f.realType = .varchar) (hp : f.charset.PadSpace)
    (hw : f.wfPart f.fieldLength = true) (hx : f.charset.chars v = some xs) :
    let removed := monoTrimmedCharsOffset + trailingSpaces v
      - varcharPadding f.charset f.charLength xs
    (setup i f f.fieldLength).pack f v
      = ((varcharSegments f.charset f.charLength xs).1,
          if (setup i f f.fieldLength).unpackInfoUsesTwoBytes then writeUint16 removed
          else writeUint8 removed) := by
  obtain ⟨hpf, hseg, hxf, -⟩ := setup_varchar_padSpace i f.fieldLength hf hp
  obtain ⟨hst, -, hxl, hml, -⟩ := setup_varchar_whole i hf hp
  have hbuf := strnxfrm_varchar (i := i) hf hp hw hx
  rw [lengthsp_eq hp] at hbuf
  simp only [FieldPacking.pack, hpf, packWithVarcharSpacePad, Field.charLength, hbuf,
    hseg, hxf, hst, hxl, hml, Nat.div_one, lengthsp_eq hp, Bool.false_eq_true, if_false]
  rfl

theorem varcharSegments_eq {cs : Collation} (hp : cs.PadSpace) (n : ℕ) (xs : List ℕ) :
    varcharSegments cs n xs = spacePadLoop (getSegmentSizeFromCollation cs - 1 + 1) (spaceBytes cs)
      ((varcharWeights cs n xs).length + 1) (varcharWeights cs n xs) := by
  obtain ⟨hpos, -, -⟩ := Collation.segment_dvd hp
  rw [Nat.sub_add_cancel (by omega)]
  rfl

theorem varcharSegments_snd {cs : Collation} (hp : cs.PadSpace) (n : ℕ) (xs : List ℕ) :
    (varcharSegments cs n xs).2 = varcharPadding cs n xs * cs.weightLen ∧
      varcharPadding cs n xs ≤ segmentChars cs := by
  have hdvd : cs.weightLen ∣ (varcharSegments cs n xs).2 := by
    rw [varcharSegments_eq hp]
    exact dvd_spacePadLoop_snd (Collation.segment_dvd hp).2.2 (dvd_varcharWeights _ _ _)
  refine ⟨(Nat.div_mul_cancel hdvd).symm, Nat.div_le_div_right ?_⟩
  rw [varcharSegments_eq hp]
  exact spacePadLoop_snd_le _ _

theorem segmentChars_le (cs : Collation) : segmentChars cs ≤ monoTrimmedCharsOffset := by
  cases cs <;> simp [segmentChars, getSegmentSizeFromCollation, Collation.weightLen,
    monoTrimmedCharsOffset]

/-- What is kept of a value. -/
def varcharKept (cs : Collation) (n : ℕ) (xs : List ℕ) : Bytes :=
  spacePadKept (getSegmentSizeFromCollation cs - 1) (spaceBytes cs)
    ((varcharWeights cs n xs).length + 1) (varcharWeights cs n xs)

variable {σ : Type} {decode : σ → ℕ → Bytes → Option (Bytes × σ)}
  {D : σ → Bytes → Bytes → σ → Prop}

/-- **The segments of a whole `VARCHAR` are read back** as what was kept, the spaces that are in the
padding, and the spaces that are not. -/
theorem unpackSpacePad_eq (hf : f.realType = .varchar) (hp : f.charset.PadSpace)
    (hd : Decodes (getSegmentSizeFromCollation f.charset - 1) decode D)
    {n k room : ℕ} {st st' : σ} {out : Bytes} (padChar : UInt8) (rest : Bytes)
    (hD : D st (varcharKept f.charset n xs ++ (spaceBytes f.charset).take
      (min k (varcharPadding f.charset n xs) * f.charset.weightLen)) out st')
    (hr : out.length + (k - varcharPadding f.charset n xs) ≤ room) :
    unpackSpacePad (setup i f f.fieldLength) decode padChar (k - varcharPadding f.charset n xs)
        ((varcharPadding f.charset n xs - k) * f.charset.weightLen) room st
        ((varcharSegments f.charset n xs).1 ++ rest)
      = some (out ++ replicate (k - varcharPadding f.charset n xs) padChar, st', rest) := by
  obtain ⟨-, hseg, -, -⟩ := setup_varchar_padSpace i f.fieldLength hf hp
  obtain ⟨hpos, -, -⟩ := Collation.segment_dvd hp
  obtain ⟨hsnd, -⟩ := varcharSegments_snd hp n xs
  have hkeep : (varcharSegments f.charset n xs).2
      - (varcharPadding f.charset n xs - k) * f.charset.weightLen
        = min k (varcharPadding f.charset n xs) * f.charset.weightLen := by
    rw [hsnd, ← Nat.sub_mul]
    congr 1
    omega
  have hle : (varcharPadding f.charset n xs - k) * f.charset.weightLen
      ≤ (varcharSegments f.charset n xs).2 := by
    rw [hsnd]
    exact Nat.mul_le_mul_right _ (Nat.sub_le _ _)
  rw [← hkeep, varcharKept, varcharSegments_eq hp] at hD
  have hturns : (varcharSegments f.charset n xs).1.length
      < ((varcharSegments f.charset n xs).1 ++ rest).length + 1 := by
    rw [length_append]
    omega
  have hroom : out.length ≤ room := by omega
  have hloop : unpackSegments (getSegmentSizeFromCollation f.charset - 1 + 1) decode
      ((varcharPadding f.charset n xs - k) * f.charset.weightLen)
      (((varcharSegments f.charset n xs).1 ++ rest).length + 1) room st
      ((varcharSegments f.charset n xs).1 ++ rest) = some (out, st', rest) := by
    rw [varcharSegments_eq hp] at hle hturns ⊢
    exact unpackSegments_spacePadLoop hd hpos (spaces_spaceBytes hp).le rest (Nat.lt_succ_self _)
      hturns hle hD hroom
  rw [Nat.sub_add_cancel (by omega)] at hloop
  rw [unpackSpacePad, hseg, hloop]
  simp only
  rw [if_neg (by omega)]

end Whole

end EloqSql
