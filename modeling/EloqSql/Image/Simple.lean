import EloqSql.Image.Bits
import EloqSql.Image.RoundTrip

/-!
# Image/Simple — `VARCHAR` in a simple collation

The characters that share a weight are told apart by an index in the unpack info. The bits of all
characters are written (`monoWriteUnpackSimple`), and the reader takes the bits of those that are in
the segments (`monoReadUnpackSimple_map`): the trimmed value and the spaces of the padding. What it
does not take stays in front of the next part's data.

Nothing is kept of a last segment that only has characters that weigh as the space
(`spacePadKept_ne`).
-/

namespace EloqSql

open Segment FieldPacking BitStream List
open UInt8 (toNat)

/-! ## The codec -/

section Codec

variable (so : UInt8 → UInt8)

theorem mem_revMap (c : UInt8) : c ∈ revMap so (so c) := by
  rw [revMap, mem_filter, mem_map]
  exact ⟨⟨c.toNat, mem_range.mpr c.toNat_lt, UInt8.ofNat_toNat⟩, by simp⟩

theorem le_two_pow_codecBits : ∀ n ≤ 256, n ≤ 2 ^ codecBits n := by
  decide +kernel

theorem encIdx_lt (c : UInt8) :
    (initCollationMapping so).encIdx c < 2 ^ (initCollationMapping so).encSize c := by
  have hlen : (revMap so (so c)).length ≤ 256 := by
    refine (length_filter_le _ _).trans ?_
    rw [length_map, length_range]
  exact (idxOf_lt_length_of_mem (mem_revMap so c)).trans_le (le_two_pow_codecBits _ hlen)

theorem decIdx_encIdx (c : UInt8) :
    (initCollationMapping so).decIdx ((initCollationMapping so).encIdx c) (so c) = c := by
  have h := idxOf_lt_length_of_mem (mem_revMap so c)
  simp only [initCollationMapping]
  rw [getD_eq_getElem?_getD, getElem?_eq_getElem h, Option.getD_some, getElem_idxOf]

/-- The numbers that are written for a string. -/
def simpleNumbers (v : Bytes) : List (ℕ × ℕ) :=
  v.map fun c => ((initCollationMapping so).encSize c, (initCollationMapping so).encIdx c)

/-- The bits of a string. -/
def simpleBits (v : Bytes) : ℕ := (v.map (initCollationMapping so).encSize).sum

theorem size_simpleNumbers (v : Bytes) : size (simpleNumbers so v) = simpleBits so v := by
  rw [size, simpleNumbers, map_map]
  rfl

theorem simpleNumbers_append (u v : Bytes) :
    simpleNumbers so (u ++ v) = simpleNumbers so u ++ simpleNumbers so v :=
  map_append

theorem simpleBits_append (u v : Bytes) :
    simpleBits so (u ++ v) = simpleBits so u + simpleBits so v := by
  rw [simpleBits, map_append, sum_append]
  rfl

theorem monoWriteUnpackSimple_eq (w : BitWriter) (v : Bytes) :
    monoWriteUnpackSimple (initCollationMapping so) w v
      = (simpleNumbers so v).foldl (fun w x => w.write x.1 x.2) w := by
  rw [monoWriteUnpackSimple, simpleNumbers, foldl_map]

variable {so}

/-- **The characters of some weights are read back**, and the reader stands before the bits of the
others. -/
theorem monoReadUnpackSimple_map {xs : List (ℕ × ℕ)} {rest : Bytes} : ∀ {v : Bytes} {r : BitReader},
    r.At (numberChunks r.offset (simpleNumbers so v ++ xs)) rest →
      ∃ r', monoReadUnpackSimple (initCollationMapping so) r (v.map so) = some (v, r') ∧
        r'.offset = (r.offset + simpleBits so v) % 8 ∧ r'.At (numberChunks r'.offset xs) rest
  | [], r, h => ⟨r, rfl, (Nat.mod_eq_of_lt h.1.lt).symm, h⟩
  | c :: v, r, h => by
      have hsize : (initCollationMapping so).decSize (so c) = (initCollationMapping so).encSize c :=
        rfl
      have hidx := encIdx_lt so c
      have hbits : simpleBits so (c :: v)
          = (initCollationMapping so).encSize c + simpleBits so v := rfl
      rw [simpleNumbers, map_cons, cons_append, numberChunks] at h
      obtain ⟨r₁, hread, hoff, hat⟩ := h.read hidx
      rw [← hoff] at hat
      obtain ⟨r', hrec, hoff', hat'⟩ := monoReadUnpackSimple_map hat
      refine ⟨r', ?_, by rw [hoff', hoff, hbits]; omega, hat'⟩
      rw [map_cons, monoReadUnpackSimple, hsize]
      split_ifs with hpos
      · rw [hread]
        simp only
        rw [hrec, decIdx_encIdx]
        rfl
      · -- a character that alone has its weight takes no bits
        obtain h0 : (initCollationMapping so).encSize c = 0 := by omega
        rw [h0] at hread hidx
        obtain h0' : (initCollationMapping so).encIdx c = 0 := by omega
        obtain rfl : r = r₁ := congrArg Prod.snd (Option.some.inj hread)
        have hdec := decIdx_encIdx so c
        rw [h0'] at hdec
        rw [hrec, hdec]
        rfl

theorem monoReadUnpackSimple_append {codec : CollationCodec} {v out : Bytes} {r' : BitReader} :
    ∀ {u : Bytes} {r : BitReader}, monoReadUnpackSimple codec r (u ++ v) = some (out, r') →
      ∃ o₁ o₂ r₁, out = o₁ ++ o₂ ∧ monoReadUnpackSimple codec r u = some (o₁, r₁) ∧
        monoReadUnpackSimple codec r₁ v = some (o₂, r') := by
  intro u
  induction u generalizing out with
  | nil => exact fun h => ⟨[], out, _, rfl, rfl, h⟩
  | cons w u ih =>
    intro r h
    rw [cons_append, monoReadUnpackSimple] at h
    rw [monoReadUnpackSimple]
    split_ifs at h ⊢ with hpos
    · cases hread : r.read (codec.decSize w) with
      | none => simp [hread] at h
      | some p =>
        simp only [hread, Option.map_eq_some_iff, Prod.exists, Prod.mk.injEq] at h ⊢
        obtain ⟨dst, r₂, hrec, rfl, rfl⟩ := h
        obtain ⟨o₁, o₂, r₁, rfl, h₁, h₂⟩ := ih hrec
        exact ⟨_ :: o₁, o₂, r₁, rfl, ⟨o₁, r₁, h₁, rfl, rfl⟩, h₂⟩
    · simp only [Option.map_eq_some_iff, Prod.exists, Prod.mk.injEq] at h ⊢
      obtain ⟨dst, r₂, hrec, rfl, rfl⟩ := h
      obtain ⟨o₁, o₂, r₁, rfl, h₁, h₂⟩ := ih hrec
      exact ⟨_ :: o₁, o₂, r₁, rfl, ⟨o₁, r₁, h₁, rfl, rfl⟩, h₂⟩

theorem length_monoReadUnpackSimple {codec : CollationCodec} : ∀ {src out : Bytes}
    {r r' : BitReader}, monoReadUnpackSimple codec r src = some (out, r') →
      out.length = src.length
  | [], out, r, r', h => by
      cases h
      rfl
  | w :: src, out, r, r', h => by
      obtain ⟨o₁, o₂, r₁, rfl, h₁, h₂⟩ := monoReadUnpackSimple_append (u := [w]) h
      have h1 : o₁.length = 1 := by
        rw [monoReadUnpackSimple] at h₁
        split_ifs at h₁
        · cases hread : r.read (codec.decSize w) with
          | none => simp [hread] at h₁
          | some p =>
            simp only [hread, monoReadUnpackSimple, Option.map_some, Option.some.injEq,
              Prod.mk.injEq] at h₁
            rw [← h₁.1]
            rfl
        · simp only [monoReadUnpackSimple, Option.map_some, Option.some.injEq, Prod.mk.injEq] at h₁
          rw [← h₁.1]
          rfl
      rw [length_append, h1, length_monoReadUnpackSimple h₂, length_cons, Nat.add_comm]

theorem decodes_simple (codec : CollationCodec) (N : ℕ) :
    Decodes N (decodeSimple codec)
      fun r src out r' => monoReadUnpackSimple codec r src = some (out, r') where
  decode_eq h hr := by
    rw [decodeSimple, if_neg (by rw [← length_monoReadUnpackSimple h]; omega), h]
  cut _ h := monoReadUnpackSimple_append h

end Codec

/-! ## What the loop keeps and pads -/

section Kept

variable {N : ℕ} {xfrm : Bytes}

/-- What is kept and the padding fill whole segments, and a segment of padding alone is only written
for an empty string. -/
theorem dvd_kept_add_padding (xfrm : Bytes) (hN : 0 < N) :
    ∀ {fuel : ℕ} {buf : Bytes}, buf.length < fuel →
    let kept := (spacePadKept N xfrm fuel buf).length
    let padding := (spacePadLoop (N + 1) xfrm fuel buf).2
    N ∣ kept + padding ∧ 0 < kept + padding ∧ (buf ≠ [] → padding < N)
  | 0, _, h => nomatch h
  | fuel + 1, buf, hf => by
      intro kept padding
      by_cases h : buf.length < N
      · have hkept : kept = buf.length := by simp only [kept, spacePadKept, if_pos h]
        have hpad : padding = N - buf.length := by simp only [padding, spacePadLoop_of_lt h]
        rw [hkept, hpad, Nat.add_sub_cancel' h.le]
        exact ⟨dvd_rfl, hN, fun hne => Nat.sub_lt hN (length_pos_iff.mpr hne)⟩
      · rw [Nat.not_lt] at h
        have hseg : (buf.take N).length = N := by rw [length_take]; omega
        by_cases hc : monoCompareStringWithSpaces xfrm (buf.drop N).length (buf.drop N) = .eq
        · have hkept : kept = N := by
            simp only [kept, spacePadKept, if_neg (Nat.not_lt.mpr h), if_pos hc, hseg]
          have hpad : padding = 0 := by simp only [padding, spacePadLoop_of_eq h hc]
          rw [hkept, hpad]
          exact ⟨dvd_rfl, hN, fun _ => hN⟩
        · have hrest : (buf.drop N).length < fuel := by rw [length_drop]; omega
          obtain ⟨hdvd, -, hlt⟩ := dvd_kept_add_padding xfrm hN hrest
          have hkept : kept = N + (spacePadKept N xfrm fuel (buf.drop N)).length := by
            simp only [kept, spacePadKept, if_neg (Nat.not_lt.mpr h), if_neg hc, length_append,
              hseg]
          have hpad : padding = (spacePadLoop (N + 1) xfrm fuel (buf.drop N)).2 := by
            simp only [padding, spacePadLoop_of_ne h rfl hc]
          rw [hkept, hpad, Nat.add_assoc]
          refine ⟨Nat.dvd_add dvd_rfl hdvd, by omega, fun _ => hlt ?_⟩
          intro hnil
          exact hc (by rw [hnil, monoCompareStringWithSpaces])

/-- What is not kept is not padded either. -/
theorem spacePadLoop_snd_of_ne (hN : 0 < N) : ∀ {fuel : ℕ} {buf : Bytes}, buf.length < fuel →
    spacePadKept N xfrm fuel buf ≠ buf → (spacePadLoop (N + 1) xfrm fuel buf).2 = 0
  | 0, _, h, _ => nomatch h
  | fuel + 1, buf, hf, hne => by
      rw [spacePadKept] at hne
      split_ifs at hne with h hc
      · exact absurd rfl hne
      · rw [spacePadLoop_of_eq (Nat.not_lt.mp h) hc]
      · rw [spacePadLoop_of_ne (Nat.not_lt.mp h) rfl hc]
        refine spacePadLoop_snd_of_ne hN (by rw [length_drop]; omega) fun heq => hne ?_
        rw [heq, take_append_drop]

/-- **Of a string with a tail of spaces the tail is not kept.** -/
theorem spacePadKept_ne {cs : Collation} (hp : cs.PadSpace) : ∀ {fuel : ℕ} {ys : List ℕ},
    (∀ y ∈ ys, y < 256 ^ cs.weightLen) → ys.length < fuel → SpaceTail cs ys →
      spacePadKept (getSegmentSizeFromCollation cs - 1) (spaceBytes cs) fuel (ys.flatMap cs.weight)
        ≠ ys.flatMap cs.weight
  | 0, _, _, h, _ => nomatch h
  | fuel + 1, ys, hy, hf, ⟨hlen, hall⟩ => by
      obtain ⟨hN, hpos⟩ := segment_eq hp
      have hl := cs.length_weights ys
      have hgt : getSegmentSizeFromCollation cs - 1 < (ys.flatMap cs.weight).length := by
        rw [hl, hN]
        exact Nat.mul_lt_mul_of_pos_left hlen cs.weightLen_pos
      rw [spacePadKept, if_neg (by omega)]
      split_ifs with hc
      · intro h
        have := congrArg length h
        rw [length_take] at this
        omega
      · rw [compareWithSpaces_drop hp hy] at hc
        rw [hN, (take_flatMap_weights cs.length_weight _ _).1,
          (take_flatMap_weights cs.length_weight _ _).2, ← hN]
        intro h
        have hdrop := drop_lastSegment hpos hlen
        have hsplit : ys.flatMap cs.weight = (ys.take (segmentChars cs)).flatMap cs.weight
            ++ (ys.drop (segmentChars cs)).flatMap cs.weight := by
          rw [← flatMap_append, take_append_drop]
        rw [hsplit] at h
        refine spacePadKept_ne hp (fun y hy' => hy y (mem_of_mem_drop hy'))
          (by rw [length_drop]; omega) ⟨?_, hdrop ▸ hall⟩ (append_cancel_left h)
        by_contra hle
        rw [Nat.div_eq_of_lt (by omega), Nat.mul_zero, drop_zero] at hdrop
        exact hc (hdrop ▸ hall)

end Kept

/-! ## A whole column -/

section Whole

/-- The spaces that pad the last segment of a string of `n` characters. -/
def spacesInPadding (n : ℕ) : ℕ := if n = 0 then 8 else (8 - n % 8) % 8

/-- **A string whose last segment is dropped**: after the last segment boundary there are only
characters that weigh as the space. -/
def DropsTail (so : UInt8 → UInt8) (t : Bytes) : Prop :=
  8 < t.length ∧ ∀ c ∈ t.drop (8 * ((t.length - 1) / 8)), so c = so 0x20

instance (so : UInt8 → UInt8) (t : Bytes) : Decidable (DropsTail so t) :=
  inferInstanceAs (Decidable (_ ∧ _))

variable {f : Field} {so : UInt8 → UInt8} {v : Bytes} {i : ℕ}

theorem segmentSize_simple : getSegmentSizeFromCollation (.simple so) = 9 := by
  simp [getSegmentSizeFromCollation]

theorem segmentChars_simple : segmentChars (.simple so) = 8 := by
  simp [segmentChars, segmentSize_simple, Collation.weightLen]

theorem spaceTail_simple (t : Bytes) :
    SpaceTail (.simple so) (t.map toNat) ↔ DropsTail so t := by
  have hord : ∀ c : UInt8, Collation.order (.simple so) c.toNat = (so c).toNat := fun c => by
    rw [Collation.order, UInt8.ofNat_toNat]
  have hsp : Collation.order (.simple so) 0x20 = (so 0x20).toNat := rfl
  simp [SpaceTail, DropsTail, segmentChars_simple, ← map_drop, hord, hsp, UInt8.toNat_inj]

theorem weights_simple (t : Bytes) :
    (t.map toNat).flatMap (Collation.weight (.simple so)) = t.map so := by
  have h := Collation.map_byteOrder (show Collation.weightLen (.simple so) = 1 from rfl) t t.length
  rw [take_length, take_of_length_le (by rw [length_map])] at h
  exact h.symm

theorem rdropWhile_toNat (v : Bytes) : (v.map toNat).rdropWhile (· == 0x20)
    = (v.rdropWhile (· == 0x20)).map toNat := by
  have h : (Collation.simple id).chars v = some (v.map toNat) := rfl
  exact (Option.some.inj (Collation.chars_trim h)).symm

/-- How many characters of a value are in the segments. -/
def keptChars (f : Field) (v : Bytes) : ℕ :=
  (varcharKept f.charset f.charLength (v.map toNat)).length

/-- How a whole `VARCHAR` of a simple collation is set up. -/
theorem setup_simple (i : ℕ) (hf : f.realType = .varchar) (hc : f.charset = .simple so) :
    (setup i f f.fieldLength).unpackFunc = some .simpleVarcharSpacePad ∧
    (setup i f f.fieldLength).makeUnpackInfoFunc = some .simpleVarchar ∧
    (setup i f f.fieldLength).charsetCodec = initCollationMapping so ∧
    (setup i f f.fieldLength).maybeNull = f.maybeNull := by
  simp [setup, hf, setupVarchar, hc, checkPrefix, setupSpacePad]

variable (hc : f.charset = .simple so) (hl : v.length ≤ f.fieldLength)

include hc hl

theorem varcharWeights_simple :
    varcharWeights f.charset f.charLength (v.map toNat)
      = (v.rdropWhile (· == 0x20)).map so := by
  have hcl : f.charLength = f.fieldLength := by simp [Field.charLength, hc, Collation.mbmaxlen]
  have hle := ( rdropWhile_prefix (· == 0x20) v).length_le.trans hl
  rw [varcharWeights, rdropWhile_toNat, take_of_length_le (by rw [length_map]; omega), hc,
    weights_simple]

/-- What is kept of a value is its head. -/
theorem varcharKept_simple : varcharKept f.charset f.charLength (v.map toNat)
    = ((v.rdropWhile (· == 0x20)).take (keptChars f v)).map so := by
  have hpre : varcharKept f.charset f.charLength (v.map toNat)
      <+: (v.rdropWhile (· == 0x20)).map so := by
    rw [← varcharWeights_simple hc hl]
    exact spacePadKept_prefix _ _
  rw [map_take]
  exact prefix_iff_eq_take.mp hpre

/-- **What is kept and padded**: all of the trimmed value with as many spaces as fill the segment,
or, if the last segment is dropped, less of it and no spaces. -/
theorem kept_and_padding :
    let t := v.rdropWhile (· == 0x20)
    let padding := varcharPadding f.charset f.charLength (v.map toNat)
    if DropsTail so t then keptChars f v < t.length ∧ padding = 0
    else keptChars f v = t.length ∧ padding = spacesInPadding t.length := by
  intro t padding
  have hp : f.charset.PadSpace := by rw [hc]; rfl
  have hweights : varcharWeights f.charset f.charLength (v.map toNat) = t.map so :=
    varcharWeights_simple hc hl
  have hlt : ∀ y ∈ t.map toNat, y < 256 ^ f.charset.weightLen :=
    Collation.lt_of_chars (Collation.chars_byte (by rw [hc]; rfl) t)
  have hpad : padding
      = (spacePadLoop (8 + 1) (spaceBytes f.charset) (t.length + 1) (t.map so)).2 := by
    simp only [padding, varcharPadding, varcharSegments, hweights, length_map]
    rw [hc, segmentSize_simple]
    exact Nat.div_one _
  have hkept : keptChars f v
      = (spacePadKept 8 (spaceBytes f.charset) (t.length + 1) (t.map so)).length := by
    simp only [keptChars, varcharKept, hweights, length_map]
    rw [hc, segmentSize_simple]
  have hlen : (t.map so).length < t.length + 1 := by rw [length_map]; exact Nat.lt_add_one _
  have hall : (t.map toNat).length < t.length + 1 := by
    rw [length_map]
    exact Nat.lt_add_one _
  rw [hpad, hkept]
  split_ifs with hd
  · have hne := spacePadKept_ne hp hlt hall (by rw [hc]; exact (spaceTail_simple t).mpr hd)
    rw [hc, weights_simple, segmentSize_simple, ← hc] at hne
    have hpre : spacePadKept 8 (spaceBytes f.charset) (t.length + 1) (t.map so) <+: t.map so :=
      spacePadKept_prefix _ _
    refine ⟨?_, spacePadLoop_snd_of_ne (by decide) hlen hne⟩
    have hle := hpre.length_le
    have hlen' := mt hpre.eq_of_length hne
    rw [length_map] at hle hlen'
    omega
  · have heq := spacePadKept_eq hp hlt hall (by rw [hc, spaceTail_simple]; exact hd)
    rw [hc, weights_simple, segmentSize_simple, ← hc] at heq
    obtain ⟨hdvd, hpos, hnil⟩ := dvd_kept_add_padding (spaceBytes f.charset)
      (show 0 < 8 by decide) hlen
    have hle : (spacePadLoop (8 + 1) (spaceBytes f.charset) (t.length + 1) (t.map so)).2 ≤ 8 :=
      spacePadLoop_snd_le _ _
    rw [Nat.add_one_sub_one] at heq
    rw [heq, length_map] at hdvd hpos ⊢
    refine ⟨rfl, ?_⟩
    rw [spacesInPadding]
    split_ifs with h0
    · omega
    · have := hnil (by rw [Ne, map_eq_nil_iff, ← length_eq_zero_iff]; exact h0)
      omega

/-- The characters in the segments and the spaces of the padding are the head of the value. -/
theorem take_keptChars :
    let padded := min (trailingSpaces v) (varcharPadding f.charset f.charLength (v.map toNat))
    (v.rdropWhile (· == 0x20)).take (keptChars f v) ++ replicate padded 0x20
      = v.take (keptChars f v + padded) := by
  intro padded
  have htrim := rdropWhile_append_replicate 0x20 v
  have hkp := kept_and_padding hc hl
  have hle : padded ≤ trailingSpaces v := Nat.min_le_left _ _
  rw [← trailingSpaces] at htrim
  generalize keptChars f v = j at hkp ⊢
  conv_rhs => rw [← htrim]
  simp only at hkp
  split_ifs at hkp
  · have hz : padded = 0 := by omega
    rw [hz, replicate_zero, append_nil, Nat.add_zero,
      take_append_of_le_length hkp.1.le]
  · rw [hkp.1, take_length, take_length_add_append, take_replicate,
      Nat.min_eq_left hle]

/-- **What a `VARCHAR` of a simple collation is unpacked to**: the characters in the segments, the
spaces of the padding and the spaces that were trimmed. The bit reader stands before the bits of the
characters that are neither in the segments nor in the padding. -/
theorem unpack_simple (hf : f.realType = .varchar) (hw : f.wfPart f.fieldLength = true)
    (rest restInfo : Bytes) :
    let fpi := setup i f f.fieldLength
    let padding := varcharPadding f.charset f.charLength (v.map toNat)
    let q := keptChars f v + min (trailingSpaces v) padding
    ∃ r : BitReader, fpi.unpack f .simpleVarcharSpacePad ((fpi.pack f v).1 ++ rest)
        ((fpi.pack f v).2 ++ fpi.makeUnpackInfo f v ++ restInfo)
          = some (v.take q ++ replicate (trailingSpaces v - padding) 0x20, rest, r.reader) ∧
      r.offset = simpleBits so (v.take q) % 8 ∧
      r.At (numberChunks r.offset (simpleNumbers so (v.drop q))) restInfo := by
  intro fpi padding q
  have hp : f.charset.PadSpace := by rw [hc]; rfl
  have hx : f.charset.chars v = some (v.map toNat) :=
    Collation.chars_byte (by rw [hc]; rfl) v
  obtain ⟨-, hmake, hcodec, -⟩ := setup_simple i hf hc
  have hq : v.take (min f.charLength v.length) = v := by
    have hcl : f.charLength = f.fieldLength := by simp [Field.charLength, hc, Collation.mbmaxlen]
    rw [take_of_length_le (by omega)]
  have hinfo : fpi.makeUnpackInfo f v = ((simpleNumbers so (v.take q)
      ++ simpleNumbers so (v.drop q)).foldl (fun w x => w.write x.1 x.2)
        (BitWriter.ofWriter [])).data := by
    rw [FieldPacking.makeUnpackInfo, hmake]
    simp only
    rw [hcodec, hq, monoWriteUnpackSimple_eq, ← simpleNumbers_append, take_append_drop]
  have hat := BitReader.at_ofReader (simpleNumbers so (v.take q) ++ simpleNumbers so (v.drop q))
    restInfo
  rw [← hinfo] at hat
  obtain ⟨r, hread, hoff, hat'⟩ := monoReadUnpackSimple_map hat
  have hpad : min (trailingSpaces v) padding ≤ segmentChars f.charset :=
    (Nat.min_le_right _ _).trans (varcharSegments_snd hp f.charLength _).2
  have hsrc : varcharKept f.charset f.charLength (v.map toNat)
      ++ (spaceBytes f.charset).take (min (trailingSpaces v) padding * f.charset.weightLen)
        = (v.take q).map so := by
    rw [varcharKept_simple hc hl, take_spaceBytes hp hpad, hc, ← take_keptChars hc hl,
      map_append, ← weights_simple (replicate _ _), map_replicate]
    rfl
  have hread' : monoReadUnpackSimple fpi.charsetCodec
      (.ofReader (fpi.makeUnpackInfo f v ++ restInfo))
      (varcharKept f.charset f.charLength (v.map toNat) ++ (spaceBytes f.charset).take
        (min (trailingSpaces v) padding * f.charset.weightLen)) = some (v.take q, r) := by
    rw [hcodec, hsrc, hread]
  have hroom : (v.take q).length + (trailingSpaces v - padding) ≤ f.packLength - f.lengthBytes := by
    have hj : keptChars f v ≤ (v.rdropWhile (· == 0x20)).length := by
      have hkp := kept_and_padding hc hl
      simp only at hkp
      split_ifs at hkp
      exacts [hkp.1.le, hkp.1.le]
    rw [length_take]
    simp only [q, Field.packLength, hf, trailingSpaces]
    omega
  have hun : unpackSpacePad fpi (decodeSimple fpi.charsetCodec) f.charset.padChar _ _ _ _ _
      = some (_, r, rest) :=
    unpackSpacePad_eq hf hp (decodes_simple _ _) _ rest hread' hroom
  have himage := congrArg Prod.fst (pack_varchar_whole (i := i) hf hp hw hx)
  refine ⟨r, ?_, hoff.trans (by rw [BitReader.ofReader, Nat.zero_add]), hat'⟩
  simp only [FieldPacking.unpack, unpackSimpleVarcharSpacePad]
  rw [append_assoc, readExtraSpaces_varchar hf hp hw hl hx]
  simp only
  rw [himage, hun, hp]

omit hc hl in
/-- A column that is not NULL. -/
theorem decodeField_of_not_null {fpi : FieldPacking} (hnull : fpi.maybeNull = f.maybeNull)
    (huses : fpi.usesUnpackInfo = true) (func : UnpackFunc) (defaultValue rest restInfo : Bytes) :
    decodeField fpi func f defaultValue ((packField f fpi ⟨false, v⟩).1 ++ rest)
        ((packField f fpi ⟨false, v⟩).2 ++ restInfo)
      = (fpi.unpack f func ((fpi.pack f v).1 ++ rest)
          ((fpi.pack f v).2 ++ fpi.makeUnpackInfo f v ++ restInfo)).map
            fun (v, rs) => (⟨false, v⟩, rs) := by
  by_cases hm : f.maybeNull <;> simp [decodeField, packField, hnull, huses, hm]

/-- **A `VARCHAR` of a simple collation is restored, with both readers left behind it, in exactly
these cases**: its last segment is not dropped, and the spaces that are trimmed and not in the
padding take no byte of their own in the unpack info. -/
theorem decodeField_simple_iff (i : ℕ) (hf : f.realType = .varchar)
    (hw : f.wfPart f.fieldLength = true) (defaultValue rest restInfo : Bytes) :
    let fpi := setup i f f.fieldLength
    let packed := packField f fpi ⟨false, v⟩
    let t := v.rdropWhile (· == 0x20)
    ∃ func, fpi.unpackFunc = some func ∧
      (decodeField fpi func f defaultValue (packed.1 ++ rest) (packed.2 ++ restInfo)
          = some (⟨false, v⟩, rest, restInfo)
        ↔ ¬ DropsTail so t ∧
          (simpleBits so (v.take (t.length + spacesInPadding t.length)) + 7) / 8
            = (simpleBits so v + 7) / 8) := by
  intro fpi packed t
  obtain ⟨hfunc, hmake, -, hnull⟩ := setup_simple i hf hc
  refine ⟨_, hfunc, ?_⟩
  obtain ⟨r, hun, hoff, hat⟩ := unpack_simple (i := i) hc hl hf hw rest restInfo
  have hreader := hat.reader_eq_iff hoff
  have hkp := kept_and_padding hc hl
  have hlen : (v.rdropWhile (· == 0x20)).length + trailingSpaces v = v.length :=
    Nat.add_sub_cancel' ( rdropWhile_prefix _ _).length_le
  rw [size_simpleNumbers, ← simpleBits_append, take_append_drop] at hreader
  rw [decodeField_of_not_null hnull (by simp only [usesUnpackInfo, hmake, Option.isSome]), hun]
  simp only [Option.map_some, Option.some.injEq, Prod.mk.injEq, Cell.mk.injEq, true_and, hreader]
  simp only at hkp
  split_ifs at hkp with hd
  · -- something of the trimmed value is missing
    refine ⟨fun h => absurd (congrArg length h.1) ?_, fun h => absurd hd h.1⟩
    rw [length_append, length_take, length_replicate, hkp.2]
    omega
  · have hv : v.take (keptChars f v + min (trailingSpaces v) (spacesInPadding t.length))
        ++ replicate (trailingSpaces v - spacesInPadding t.length) 0x20 = v := by
      have htake := take_keptChars hc hl
      rw [hkp.2] at htake
      rw [← htake, hkp.1, take_length, append_assoc, replicate_append_replicate,
        show min (trailingSpaces v) (spacesInPadding t.length)
          + (trailingSpaces v - spacesInPadding t.length) = trailingSpaces v by omega]
      exact rdropWhile_append_replicate 0x20 v
    have hq : v.take (keptChars f v + min (trailingSpaces v) (spacesInPadding t.length))
        = v.take (t.length + spacesInPadding t.length) := by
      rw [take_eq_take_iff, hkp.1]
      simp only [t]
      omega
    rw [hkp.2, hv, hq]
    exact and_congr (iff_of_true rfl hd) Iff.rfl

end Whole

/-! ### A collation to try this on -/

/-- `sort_order_koi8u_general_ci`, where the backquote weighs as the space. -/
def sortOrderKoi8uGeneralCi (c : UInt8) : UInt8 :=
  getD
   [0x00, 0x01, 0x02, 0x03, 0x04, 0x05, 0x06, 0x07, 0x08, 0x09, 0x0A, 0x0B, 0x0C, 0x0D, 0x0E, 0x0F,
    0x10, 0x11, 0x12, 0x13, 0x14, 0x15, 0x16, 0x17, 0x18, 0x19, 0x1A, 0x1B, 0x1C, 0x1D, 0x1E, 0x1F,
    0x20, 0x21, 0x22, 0x23, 0x24, 0x25, 0x26, 0x27, 0x28, 0x29, 0x2A, 0x2B, 0x2C, 0x2D, 0x2E, 0x2F,
    0x30, 0x31, 0x32, 0x33, 0x34, 0x35, 0x36, 0x37, 0x38, 0x39, 0x3A, 0x3B, 0x3C, 0x3D, 0x3E, 0x3F,
    0x40, 0x41, 0x42, 0x43, 0x44, 0x45, 0x46, 0x47, 0x48, 0x49, 0x4A, 0x4B, 0x4C, 0x4D, 0x4E, 0x4F,
    0x50, 0x51, 0x52, 0x53, 0x54, 0x55, 0x56, 0x57, 0x58, 0x59, 0x5A, 0x5B, 0x5C, 0x5D, 0x5E, 0x5F,
    0x20, 0x41, 0x42, 0x43, 0x44, 0x45, 0x46, 0x47, 0x48, 0x49, 0x4A, 0x4B, 0x4C, 0x4D, 0x4E, 0x4F,
    0x50, 0x51, 0x52, 0x53, 0x54, 0x55, 0x56, 0x57, 0x58, 0x59, 0x5A, 0x7B, 0x7C, 0x7D, 0x7E, 0x7F,
    0xA5, 0xA6, 0xA7, 0xA8, 0xA9, 0xAA, 0xAB, 0xAC, 0xAD, 0xAE, 0xAF, 0xB0, 0xB1, 0xB2, 0xB3, 0xB4,
    0xB5, 0xB6, 0xB7, 0xB8, 0xB9, 0xBA, 0xBB, 0xBC, 0xBD, 0xBE, 0xBF, 0xC0, 0xC1, 0xC2, 0xC3, 0xC4,
    0xC5, 0xC6, 0xC7, 0x88, 0x87, 0xC8, 0x8C, 0x8D, 0xC9, 0xCA, 0xCB, 0xCC, 0xCD, 0x84, 0xCE, 0xCF,
    0xD0, 0xD1, 0xD2, 0x88, 0x87, 0xD3, 0x8C, 0x8D, 0xD4, 0xD5, 0xD6, 0xD7, 0xD8, 0x84, 0xD9, 0xDA,
    0xA3, 0x80, 0x81, 0x9B, 0x85, 0x86, 0x99, 0x83, 0x9A, 0x8B, 0x8E, 0x8F, 0x90, 0x91, 0x92, 0x93,
    0x94, 0xA4, 0x95, 0x96, 0x97, 0x98, 0x89, 0x82, 0xA1, 0xA0, 0x8A, 0x9D, 0xA2, 0x9E, 0x9C, 0x9F,
    0xA3, 0x80, 0x81, 0x9B, 0x85, 0x86, 0x99, 0x83, 0x9A, 0x8B, 0x8E, 0x8F, 0x90, 0x91, 0x92, 0x93,
    0x94, 0xA4, 0x95, 0x96, 0x97, 0x98, 0x89, 0x82, 0xA1, 0xA0, 0x8A, 0x9D, 0xA2, 0x9E, 0x9C, 0x9F]
    c.toNat 0

/-- A `VARCHAR(20)` in `koi8u_general_ci`. -/
def koi8uField : Field := ⟨.varchar, false, 20, false, .simple sortOrderKoi8uGeneralCi⟩

/-- The value `Ab` with three trailing spaces is restored. -/
theorem decodeField_koi8u :
    let fpi := setup 0 koi8uField koi8uField.fieldLength
    let packed := packField koi8uField fpi ⟨false, [0x41, 0x62, 0x20, 0x20, 0x20]⟩
    ∃ func, fpi.unpackFunc = some func ∧
      decodeField fpi func koi8uField [] (packed.1 ++ [7]) (packed.2 ++ [9])
        = some (⟨false, [0x41, 0x62, 0x20, 0x20, 0x20]⟩, [7], [9]) := by
  intro fpi packed
  obtain ⟨func, hfunc, h⟩ := decodeField_simple_iff (f := koi8uField)
    (v := [0x41, 0x62, 0x20, 0x20, 0x20]) rfl (by decide) 0 rfl (by decide) [] [7] [9]
  exact ⟨func, hfunc, h.mpr (by decide +kernel)⟩

/-- The backquote of ``abcdefgh` `` is lost and its bits are left in front of the next part's data,
and so are the bits of the spaces after `a` that are not in the padding. -/
theorem decodeField_koi8u_ne :
    let fpi := setup 0 koi8uField koi8uField.fieldLength
    let decoded (v : Bytes) :=
      decodeField fpi .simpleVarcharSpacePad koi8uField []
        ((packField koi8uField fpi ⟨false, v⟩).1 ++ [7])
        ((packField koi8uField fpi ⟨false, v⟩).2 ++ [9])
    let abcdefgh : Bytes := [0x61, 0x62, 0x63, 0x64, 0x65, 0x66, 0x67, 0x68]
    let a : Bytes := 0x61 :: replicate 15 0x20
    fpi.unpackFunc = some .simpleVarcharSpacePad ∧
      decoded (abcdefgh ++ [0x60]) = some (⟨false, abcdefgh⟩, [7], [1, 9]) ∧
      decoded a = some (⟨false, a⟩, [7], [0, 9]) := by
  decide +kernel

end EloqSql
