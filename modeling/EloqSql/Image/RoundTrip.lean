import EloqSql.Image.SpacePad

/-!
# Image/RoundTrip — columns are restored from their images

`unpack_pack` restores a whole column of any type but the floating point types, in a binary or UTF-8
collation, from its image and its unpack info, and leaves both readers behind them.
`skip_pack` passes over the image of any part.
-/

namespace EloqSql

open Segment FieldPacking List
open FieldPacking (pack skip unpack)
open Collation (chars_byte chars_takeChars chars_utf8_iff map_byteOrder mbmaxlen segment_dvd
  takeChars_append utf8 weightLen weightLen_utf8 weight_utf8)

/-! ## Weights -/

theorem beNat_utf8Weight {mb4 : Bool} {wc : ℕ} (h : wc < 256 ^ utf8WeightLen mb4) :
    beNat (utf8Weight mb4 wc) = wc := by
  cases mb4 with
  | false =>
    simp only [utf8WeightLen] at h
    simp only [utf8Weight, weightBE2, beNat, foldl_cons, foldl_nil, UInt8.toNat_ofNat',
      Nat.shiftRight_eq_div_pow, Nat.and_two_pow_sub_one_eq_mod wc 8]
    omega
  | true =>
    simp only [utf8WeightLen] at h
    simp only [utf8Weight, weightBE3, beNat, foldl_cons, foldl_nil, UInt8.toNat_ofNat',
      Nat.shiftRight_eq_div_pow, Nat.and_two_pow_sub_one_eq_mod _ 8]
    omega

theorem wcMb_utf8 (mb4 : Bool) : (utf8 mb4).wcMb = utf8WcMb mb4 := by cases mb4 <;> rfl

/-- **The weights of a string are turned back into it.** The induction is on the spelling. -/
theorem Spells.unpackWeights {mb4 : Bool} {v : Bytes} {xs : List ℕ} (h : Spells mb4 v xs) :
    ∀ {fuel room : ℕ}, xs.length ≤ fuel → v.length ≤ room →
      unpackWeights (utf8 mb4) (utf8WeightLen mb4) fuel room
        (xs.flatMap (utf8Weight mb4)) = some v := by
  induction h with
  | nil =>
    intro fuel room _ _
    cases fuel <;> rfl
  | @cons c u wc xs hc hu ih =>
    intro fuel room hf hr
    obtain _ | fuel := fuel
    · simp at hf
    rw [length_append] at hr
    have hl := length_utf8Weight mb4 wc
    have hne : utf8Weight mb4 wc ≠ [] := by cases mb4 <;> simp [utf8Weight, weightBE2, weightBE3]
    obtain ⟨b, w, hw⟩ := exists_cons_of_ne_nil hne
    rw [flatMap_cons, hw, cons_append, EloqSql.unpackWeights, ← cons_append, ← hw,
      take_left' hl, drop_left' hl, beNat_utf8Weight hc.lt, wcMb_utf8,
      hc.encode room (by omega)]
    simp only
    rw [ih (by simpa using hf) (by omega)]
    rfl

/-- **The payload of a segment is decoded into the characters it holds the weights of.** -/
theorem decodes_weights {cs : Collation} (hs : ∀ so, cs ≠ .simple so) {N : ℕ}
    (hN : cs.weightLen ∣ N) :
    Decodes N (decodeWeights cs cs.weightLen)
      fun _ src out _ => ∃ ys, cs.chars out = some ys ∧ src = ys.flatMap cs.weight := by
  refine ⟨?_, ?_⟩
  · rintro ⟨⟩ src out ⟨⟩ room ⟨ys, hy, rfl⟩ hr
    rcases cs.byte_or_utf8 with hb | ⟨mb4, rfl⟩
    · cases (chars_byte hb out).symm.trans hy
      have hid : cs.byteOrder = id := by
        cases cs with
        | simple so => exact absurd rfl (hs so)
        | _ => rfl
      have hsrc : (out.map UInt8.toNat).flatMap cs.weight = out := by
        have := map_byteOrder hb out out.length
        rwa [take_length, hid, map_id, take_of_length_le (by simp), eq_comm] at this
      rw [hsrc, decodeWeights, hb, if_neg (by decide), if_neg (by omega)]
    · have hsp := (chars_utf8_iff mb4).mp hy
      have hgt : (utf8 mb4).weightLen > 1 := by cases mb4 <;> decide
      have hlen := (utf8 mb4).length_weights ys
      rw [decodeWeights, if_pos hgt, hlen, if_neg (by simp), weight_utf8,
        weightLen_utf8, hsp.unpackWeights (Nat.le_mul_of_pos_left _ (by
          rw [← weightLen_utf8]; omega)) hr]
      rfl
  · rintro ⟨⟩ u v out ⟨⟩ hu ⟨ys, hy, hsrc⟩
    obtain ⟨n, rfl⟩ := hN
    obtain ⟨htake, hdrop⟩ := take_flatMap_weights cs.length_weight n ys
    obtain ⟨r, hr, hr'⟩ := takeChars_append hy n
    refine ⟨cs.takeChars n out, r, (), hr, ⟨ys.take n, chars_takeChars hy n, ?_⟩,
      ⟨ys.drop n, hr', ?_⟩⟩
    · rw [← htake, ← hsrc, take_left' hu]
    · rw [← hdrop, ← hsrc, drop_left' hu]

/-! ## Space-padded strings -/

section SpacePad

variable {f : Field} {i : ℕ} {v : Bytes} {xs : List ℕ}

/-- A trimmed string has no tail of spaces if only the space weighs as the space. -/
theorem not_spaceTail_trim {cs : Collation} (hp : cs.PadSpace) (hs : ∀ so, cs ≠ .simple so)
    (xs : List ℕ) : ¬ SpaceTail cs (xs.rdropWhile (· == 0x20)) := by
  obtain ⟨-, hpos⟩ := segment_eq hp
  have hord : ∀ y, cs.order y = y := by
    intro y
    cases cs with
    | simple so => exact absurd rfl (hs so)
    | _ => rfl
  rintro ⟨hlen, hall⟩
  have hne : xs.rdropWhile (· == 0x20) ≠ [] := by
    intro h
    simp [h] at hlen
  have hlast := rdropWhile_last_not (· == 0x20) xs hne
  have hdiv := Nat.mul_div_le ((xs.rdropWhile (· == 0x20)).length - 1) (segmentChars cs)
  have hdrop : (xs.rdropWhile (· == 0x20)).drop
      (segmentChars cs * (((xs.rdropWhile (· == 0x20)).length - 1) / segmentChars cs)) ≠ [] := by
    rw [Ne, drop_eq_nil_iff]
    omega
  have := hall _ (getLast_drop hdrop ▸ getLast_mem hdrop)
  rw [hord, hord] at this
  simp [this] at hlast

/-- The unpack info of a whole `VARCHAR` has room for its spaces. -/
theorem readExtraSpaces_varchar (hf : f.realType = .varchar) (hp : f.charset.PadSpace)
    (hw : f.wfPart f.fieldLength = true) (hl : v.length ≤ f.fieldLength)
    (hx : f.charset.chars v = some xs) (rest : Bytes) :
    readExtraSpaces (setup i f f.fieldLength) (((setup i f f.fieldLength).pack f v).2 ++ rest)
      = some (trailingSpaces v - varcharPadding f.charset f.charLength xs,
          (varcharPadding f.charset f.charLength xs - trailingSpaces v) * f.charset.weightLen,
          rest) := by
  obtain ⟨-, htwo, hxl, -, -⟩ := setup_varchar_whole i hf hp
  have hmax : f.fieldLength ≤ 1024 := (wfPart_length hw).2.2
  have hk : trailingSpaces v ≤ f.fieldLength := (Nat.sub_le _ _).trans hl
  have hpad := (varcharSegments_snd hp f.charLength xs).2.trans (segmentChars_le f.charset)
  have hpack := pack_varchar_whole (i := i) hf hp hw hx
  have hread := readExtraSpaces_eq (setup i f f.fieldLength) (k := trailingSpaces v) hpad
    (by rw [htwo, decide_eq_false_iff_not]; intro h; simp only [monoTrimmedCharsOffset]; omega)
    (by simp only [monoTrimmedCharsOffset]; omega) rest
  rw [hxl] at hread
  rw [← hread]
  exact congrArg (fun p : Bytes × Bytes => readExtraSpaces _ (p.2 ++ rest)) hpack

/-- **A `VARCHAR` of a padding collation is restored**, with its trailing spaces. -/
theorem unpack_varchar_padSpace (hf : f.realType = .varchar) (hp : f.charset.PadSpace)
    (hs : ∀ so, f.charset ≠ .simple so) (hw : f.wfPart f.fieldLength = true)
    (hv : f.validValue v = true) (rest restInfo : Bytes) :
    unpackBinaryOrUtf8VarcharSpacePad f.charset.weightLen (setup i f f.fieldLength) f
        (((setup i f f.fieldLength).pack f v).1 ++ rest)
        (((setup i f f.fieldLength).pack f v).2 ++ restInfo)
      = some (v, rest, restInfo) := by
  obtain ⟨hl, xs, hx, hxl⟩ := validValue_varchar hf hv
  obtain ⟨-, -, -, -, hcs⟩ := setup_varchar_whole i hf hp
  have himage := congrArg Prod.fst (pack_varchar_whole (i := i) hf hp hw hx)
  have htrim := rdropWhile_append_replicate 0x20 v
  have hx' := Collation.chars_trim hx
  have hlt := Collation.lt_of_chars hx'
  generalize hp' : varcharPadding f.charset f.charLength xs = p
  -- the trimmed string is kept, and some of the spaces are in the padding
  have hkept : varcharKept f.charset f.charLength xs
      = (xs.rdropWhile (· == 0x20)).flatMap f.charset.weight := by
    have hlen : (xs.rdropWhile (· == 0x20)).length ≤ f.charLength :=
      ( rdropWhile_prefix _ _).length_le.trans hxl
    rw [varcharKept, varcharWeights, take_of_length_le hlen]
    refine spacePadKept_eq hp hlt ?_ (not_spaceTail_trim hp hs xs)
    rw [f.charset.length_weights]
    exact Nat.lt_succ_of_le (Nat.le_mul_of_pos_left _ f.charset.weightLen_pos)
  have hpad : min (trailingSpaces v) p ≤ segmentChars f.charset :=
    (Nat.min_le_right _ _).trans (hp' ▸ (varcharSegments_snd hp f.charLength xs).2)
  have hD : ∃ ys, f.charset.chars (v.rdropWhile (· == 0x20)
        ++ replicate (min (trailingSpaces v) p) 0x20) = some ys ∧
      varcharKept f.charset f.charLength xs ++ (spaceBytes f.charset).take
        (min (trailingSpaces v) p * f.charset.weightLen) = ys.flatMap f.charset.weight :=
    ⟨_, Collation.chars_append hx' (f.charset.chars_replicate_space _), by
      rw [hkept, take_spaceBytes hp hpad, flatMap_append]⟩
  have hroom : (v.rdropWhile (· == 0x20) ++ replicate (min (trailingSpaces v) p) 0x20).length
      + (trailingSpaces v - p) ≤ f.packLength - f.lengthBytes := by
    have := congrArg length htrim
    simp only [length_append, length_replicate] at this ⊢
    simp only [Field.packLength, hf, trailingSpaces] at this ⊢
    omega
  subst hp'
  have hun : unpackSpacePad (setup i f f.fieldLength)
      (decodeWeights f.charset f.charset.weightLen) f.charset.padChar _ _ _ () _
        = some (_, (), rest) :=
    unpackSpacePad_eq hf hp (decodes_weights hs (segment_dvd hp).2.2) _ rest hD hroom
  rw [unpackBinaryOrUtf8VarcharSpacePad, readExtraSpaces_varchar hf hp hw hl hx]
  simp only
  rw [hcs, himage, hun]
  simp only [Option.some.injEq, Prod.mk.injEq, and_true]
  rw [append_assoc, hp, replicate_append_replicate,
    show min (trailingSpaces v) (varcharPadding f.charset f.charLength xs)
      + (trailingSpaces v - varcharPadding f.charset f.charLength xs) = trailingSpaces v by omega]
  exact htrim

end SpacePad

/-! ## The variable format -/

section VariableFormat

variable {src : Bytes} (fuel : ℕ)

/-- The last segment: the rest of the string, a fill, and how much is in use. -/
theorem read_lastSegment (h : src.length ≤ 8) (rest : Bytes) : ∃ ptr,
    StringReader.read monoEscapeLength (packVariableFormatLoop (fuel + 1) src ++ rest)
      = some (ptr, rest) ∧ ptr.take src.length = src ∧
    calcUnpackVariableFormat (ptr.getD (monoEscapeLength - 1) 0) = some (src.length, true) := by
  have hseg : (src ++ replicate (8 - src.length) 0).length = 8 := by simp; omega
  have hloop : packVariableFormatLoop (fuel + 1) src
      = src ++ replicate (8 - src.length) 0 ++ [UInt8.ofNat src.length] := by
    rw [packVariableFormatLoop]
    simp only [monoEscapeLength, length_drop]
    rw [if_pos (by omega), Nat.min_eq_right (by omega), take_length]
  refine ⟨_, StringReader.read_append (by rw [hloop, length_append, hseg]; rfl) rest, ?_, ?_⟩
  · rw [hloop, append_assoc, take_left]
  · have hn : (UInt8.ofNat src.length).toNat = src.length := by rw [UInt8.toNat_ofNat']; omega
    rw [hloop, show monoEscapeLength - 1 = 8 from rfl, getD_last hseg, calcUnpackVariableFormat, hn,
      if_neg (by simp only [monoEscapeLength]; omega),
      if_pos (by simp only [monoEscapeLength]; omega)]

/-- Another segment: eight bytes, and the mark that there is more. -/
theorem read_fullSegment (h : 8 < src.length) (rest : Bytes) : ∃ ptr,
    StringReader.read monoEscapeLength (packVariableFormatLoop (fuel + 1) src ++ rest)
      = some (ptr, packVariableFormatLoop fuel (src.drop 8) ++ rest) ∧ ptr.take 8 = src.take 8 ∧
    calcUnpackVariableFormat (ptr.getD (monoEscapeLength - 1) 0) = some (8, false) ∧
    (packVariableFormatLoop fuel (src.drop 8)).length
      < (packVariableFormatLoop (fuel + 1) src).length := by
  have hseg : (src.take 8).length = 8 := by rw [length_take]; omega
  have hloop : packVariableFormatLoop (fuel + 1) src
      = src.take 8 ++ [9] ++ packVariableFormatLoop fuel (src.drop 8) := by
    rw [packVariableFormatLoop]
    simp only [monoEscapeLength, length_drop]
    rw [if_neg (by omega), Nat.min_eq_left (by omega), append_assoc]
    rfl
  rw [hloop, append_assoc]
  refine ⟨src.take 8 ++ [9], read_segment hseg 9 _,
    take_left' hseg, ?_, by rw [length_append, length_append, hseg]; simp⟩
  rw [show monoEscapeLength - 1 = 8 from rfl, getD_last hseg]
  decide

/-- **A `VARBINARY` is read back segment by segment.** The induction is on the segments written. -/
theorem unpackBinaryOrUtf8Varchar_pack (rest : Bytes) : ∀ {fuel turns dstLen : ℕ} {src : Bytes},
    src.length < fuel → (packVariableFormatLoop fuel src).length < turns → src.length ≤ dstLen →
      unpackBinaryOrUtf8Varchar .binary turns dstLen (packVariableFormatLoop fuel src ++ rest)
        = some (src, rest)
  | 0, _, _, _, h, _, _ => nomatch h
  | _, 0, _, _, _, h, _ => nomatch h
  | fuel + 1, turns + 1, dstLen, src, hf, ht, hd => by
      rw [unpackBinaryOrUtf8Varchar]
      by_cases h : src.length ≤ 8
      · obtain ⟨ptr, hread, htake, hcalc⟩ := read_lastSegment fuel h rest
        simp only [hread, hcalc, htake, if_true]
        rw [if_neg (by omega)]
      · rw [Nat.not_le] at h
        obtain ⟨ptr, hread, htake, hcalc, hlt⟩ := read_fullSegment fuel h rest
        have hdrop : (src.drop 8).length = src.length - 8 := length_drop
        have hlen : (src.take 8).length = 8 := by rw [length_take]; omega
        simp only [hread, hcalc, htake, hlen, Bool.false_eq_true, if_false]
        rw [if_neg (by omega), unpackBinaryOrUtf8Varchar_pack rest (by omega) (by omega) (by omega)]
        simp

/-- **The variable format compares as the strings do, is never cut short by another image, and is
read back** in front of anything. -/
theorem packVariableFormat_code (a b : Bytes) :
    compare (packVariableFormat a) (packVariableFormat b) = compare a b ∧
    (packVariableFormat a <+: packVariableFormat b → packVariableFormat a = packVariableFormat b) ∧
    ∀ rest dstLen, a.length ≤ dstLen →
      unpackBinaryOrUtf8Varchar .binary ((packVariableFormat a ++ rest).length + 1) dstLen
        (packVariableFormat a ++ rest) = some (a, rest) := by
  have hcode := comparesAs_packVariableFormat a b
  refine ⟨hcode.compare_eq, fun ⟨t, ht⟩ => ?_, fun rest dstLen hd => ?_⟩
  · exact (hcode.aligned t [] (by rw [ht, append_nil])).1
  · refine unpackBinaryOrUtf8Varchar_pack rest (Nat.lt_add_one _) ?_ hd
    rw [length_append, packVariableFormat]
    omega

/-- The skip function passes over the same segments. -/
theorem skipVariableLength_pack (rest : Bytes) : ∀ {fuel turns dstLen : ℕ} {src : Bytes},
    src.length < fuel → (packVariableFormatLoop fuel src).length < turns → src.length ≤ dstLen →
      skipVariableLength turns dstLen (packVariableFormatLoop fuel src ++ rest) = some rest
  | 0, _, _, _, h, _, _ => nomatch h
  | _, 0, _, _, _, h, _ => nomatch h
  | fuel + 1, turns + 1, dstLen, src, hf, ht, hd => by
      rw [skipVariableLength]
      by_cases h : src.length ≤ 8
      · obtain ⟨ptr, hread, -, hcalc⟩ := read_lastSegment fuel h rest
        simp only [hread, hcalc, if_true]
        rw [if_neg (by omega)]
      · rw [Nat.not_le] at h
        obtain ⟨ptr, hread, -, hcalc, hlt⟩ := read_fullSegment fuel h rest
        have hdrop : (src.drop 8).length = src.length - 8 := length_drop
        simp only [hread, hcalc, Bool.false_eq_true, if_false]
        rw [if_neg (by omega), skipVariableLength_pack rest (by omega) (by omega) (by omega)]

end VariableFormat

/-- The skip function of the space-padded format passes over the segments. -/
theorem skipVariableSpacePad_pack {N : ℕ} {xfrm : Bytes} (hpos : 0 < N) (hN : N ≤ xfrm.length)
    (rest : Bytes) : ∀ {fuel turns dstLen : ℕ} {buf : Bytes}, buf.length < fuel →
      (spacePadLoop (N + 1) xfrm fuel buf).1.length < turns → buf.length ≤ dstLen →
      skipVariableSpacePad (N + 1) turns dstLen ((spacePadLoop (N + 1) xfrm fuel buf).1 ++ rest)
        = some rest
  | 0, _, _, _, h, _, _ => nomatch h
  | _, 0, _, _, _, h, _ => nomatch h
  | fuel + 1, turns + 1, dstLen, buf, hf, ht, hd => by
      rw [skipVariableSpacePad]
      simp only [Nat.add_sub_cancel]
      by_cases h : buf.length < N
      · rw [spacePadLoop_of_lt h]
        have hseg : (buf ++ xfrm.take (N - buf.length)).length = N := by
          rw [length_append, length_take]
          omega
        rw [read_segment hseg]
        simp only
        rw [getD_last hseg, if_pos rfl]
      · rw [Nat.not_lt] at h
        have hseg : (buf.take N).length = N := by rw [length_take]; omega
        by_cases hc : monoCompareStringWithSpaces xfrm (buf.drop N).length (buf.drop N) = .eq
        · rw [spacePadLoop_of_eq h hc, read_segment hseg]
          simp only
          rw [getD_last hseg, if_pos rfl]
        · obtain ⟨hne, hflag⟩ := varcharCmp_ne_eq hc
          rw [spacePadLoop_of_ne h rfl hc] at ht ⊢
          simp only [length_append, length_cons] at ht
          simp only
          rw [append_cons, append_assoc, read_segment hseg]
          simp only
          rw [getD_last hseg, if_neg hne, if_pos hflag, if_neg (by omega),
            skipVariableSpacePad_pack hpos hN rest (by rw [length_drop]; omega) (by omega)
              (by rw [length_drop]; omega)]

/-! ## Images of fixed length -/

theorem unpackInteger_sortInteger (isUnsigned : Bool) (v : Bytes) :
    unpackInteger isUnsigned (sortInteger isUnsigned v) = v := by
  rcases eq_nil_or_concat v with rfl | ⟨u, b, rfl⟩
  · rfl
  · rw [concat_eq_append, sortInteger_append, reverse_append]
    cases isUnsigned <;> refine congrArg₂ (· ++ [·]) u.reverse_reverse ?_
    · exact (UInt8.xor_assoc ..).trans b.xor_zero
    · rfl

theorem unpackFixed_append {n : ℕ} {image : Bytes} (h : image.length = n)
    (decode : Bytes → Option Bytes) (rest restInfo : Bytes) :
    unpackFixed n decode (image ++ rest) restInfo
      = (decode image).map fun v => (v, rest, restInfo) := by
  rw [unpackFixed, StringReader.read_append h]

section Char

variable {f : Field} {i : ℕ} {v : Bytes}

/-- The image of a whole `CHAR` has exactly the weights of its characters. -/
theorem pack_string_whole (hf : f.realType = .string) (hw : f.wfPart f.fieldLength = true)
    (hv : f.validValue v = true) : ∃ xs, f.charset.chars v = some xs ∧
      f.charLength ≤ xs.length ∧ (∀ x ∈ xs.drop f.charLength, x = 0x20) ∧
      ((setup i f f.fieldLength).pack f v).1 = (xs.take f.charLength).flatMap f.charset.weight ∧
      ((setup i f f.fieldLength).pack f v).1.length = f.charset.strnxfrmlen f.fieldLength := by
  obtain ⟨-, xs, hx, hall⟩ := validValue_string hf hv
  obtain ⟨ys, hy, hn⟩ := chars_string hf hw hv
  cases hx.symm.trans hy
  change f.charLength ≤ xs.length at hn
  obtain ⟨-, -, -, hfl⟩ := wfPart_string (Or.inr hf) hw
  have hlen : f.charset.strnxfrmlen f.fieldLength = f.charset.weightLen * f.charLength := by
    rw [hfl]
    cases f.charset <;> simp only [Collation.strnxfrmlen, mbmaxlen, weightLen] <;>
      omega
  have himage := pack_string (i := i) hf hw hx hn
  rw [← Field.charLength, hlen, Nat.sub_self] at himage
  have hfill : f.charset.fill 0 = [] := length_eq_zero_iff.mp (f.charset.length_fill 0)
  rw [hfill, append_nil] at himage
  refine ⟨xs, hx, hn, hall, himage, ?_⟩
  have hl : (xs.take f.charLength).length = f.charLength := by
    rw [length_take, Nat.min_eq_left hn]
  exact (congrArg length himage).trans (by rw [f.charset.length_weights, hl, hlen])

/-- A `BINARY` or a `CHAR` in `latin1_bin` is its own image. -/
theorem unpack_string_byte (hf : f.realType = .string) (hc : f.charset = .binary ∨
    f.charset = .latin1Bin) (hw : f.wfPart f.fieldLength = true) (hv : f.validValue v = true) :
    ((setup i f f.fieldLength).pack f v).1 = v := by
  obtain ⟨hvl, -⟩ := validValue_string hf hv
  obtain ⟨xs, hx, hn, -, himage, -⟩ := pack_string_whole (i := i) hf hw hv
  have hb : f.charset.weightLen = 1 := by rcases hc with hc | hc <;> rw [hc] <;> rfl
  have hid : f.charset.byteOrder = id := by rcases hc with hc | hc <;> rw [hc] <;> rfl
  cases (chars_byte hb v).symm.trans hx
  have hl : f.charLength = v.length := by
    rw [Field.charLength, Collation.mbmaxlen_byte hb, Nat.div_one, hvl]
  rw [himage, ← map_byteOrder hb, hid, map_id, hl, take_length]

/-- A `CHAR` in a UTF-8 collation is restored, with the spaces after its characters. -/
theorem unpack_string_utf8 {mb4 : Bool} (hf : f.realType = .string)
    (hc : f.charset = .utf8 mb4) (hw : f.wfPart f.fieldLength = true)
    (hv : f.validValue v = true) :
    unpackUtf8Str f.charset (utf8WeightLen mb4) f.packLength
      ((setup i f f.fieldLength).pack f v).1 = some v := by
  obtain ⟨hvl, -⟩ := validValue_string hf hv
  obtain ⟨xs, hx, hn, hall, himage, -⟩ := pack_string_whole (i := i) hf hw hv
  obtain ⟨r, hr, hr'⟩ := takeChars_append hx f.charLength
  have hpl : f.packLength = v.length := by rw [Field.packLength, hf, hvl]
  have hhead := chars_takeChars hx f.charLength
  -- what follows the first characters is spaces
  have hspaces : r = replicate r.length 0x20 := by
    have hxs : xs.drop f.charLength = replicate (xs.drop f.charLength).length 0x20 :=
      eq_replicate_iff.mpr ⟨rfl, hall⟩
    have hrep := f.charset.chars_replicate_space (xs.drop f.charLength).length
    rw [← hxs, hc, chars_utf8_iff] at hrep
    rw [hc, chars_utf8_iff] at hr'
    have := hr'.bytes_unique hrep
    rw [this, length_replicate]
  have hpad : f.charset.padChar = 0x20 := by rw [hc]; exact Collation.padSpace_utf8 mb4
  rw [unpackUtf8Str, himage, hpl]
  rw [hc] at hhead hr hpad ⊢
  rw [chars_utf8_iff] at hhead
  rw [weight_utf8, hhead.unpackWeights]
  · simp only [Option.map_some, Option.some.injEq]
    conv_rhs => rw [hr, hspaces]
    rw [hpad]
    have := congrArg length hr
    rw [length_append] at this
    congr 2
    omega
  · rw [← weight_utf8, Collation.length_weights, weightLen_utf8]
    exact Nat.le_mul_of_pos_left _ (utf8WeightLen_pos mb4)
  · have := congrArg length hr
    rw [length_append] at this
    omega

end Char

/-! ## All columns -/

/-- A whole column that is restored from its image: any but a floating point number, whose zero
loses its sign, and with strings in a binary or UTF-8 collation. -/
def Field.restorable (f : Field) (len : ℕ) : Bool :=
  match f.realType with
  | .float | .double | .blob _ | .time _ | .datetime _ | .timestamp _ => false
  | .varchar | .string => len == f.fieldLength &&
    match f.charset with
    | .simple _ => false
    | .binary | .latin1Bin | .utf8Bin | .utf8mb4Bin => true
  | _ => true

/-- A part that is a prefix of its column, which is not restored. -/
def Field.prefixPart (f : Field) (len : ℕ) : Bool :=
  match f.realType with
  | .blob _ => true
  | .varchar | .string => len != f.fieldLength
  | _ => false

section All

variable {f : Field} {len : ℕ} {v : Bytes} (i : ℕ)

theorem restorable_string (hf : f.realType = .varchar ∨ f.realType = .string)
    (h : f.restorable len = true) : len = f.fieldLength ∧ ∀ so, f.charset ≠ .simple so := by
  have h' : (len == f.fieldLength && match f.charset with
      | .simple _ => false
      | .binary | .latin1Bin | .utf8Bin | .utf8mb4Bin => true) = true := by
    rcases hf with hf | hf <;> simpa only [Field.restorable, hf] using h
  rw [Bool.and_eq_true, beq_iff_eq] at h'
  refine ⟨h'.1, fun so hso => ?_⟩
  simp [hso] at h'

/-- The part has an unpack function, and that restores every value from its image and its unpack
info, and leaves both readers behind them. -/
def Field.Unpacks (f : Field) (i len : ℕ) : Prop := ∃ func,
  (setup i f len).unpackFunc = some func ∧ ∀ {v}, f.validValue v = true → ∀ rest restInfo,
    (setup i f len).unpack (partField f len) func
        (((setup i f len).pack (partField f len) v).1 ++ rest)
        (((setup i f len).pack (partField f len) v).2 ++ restInfo)
      = some (v, rest, restInfo)

theorem unpack_varchar (hf : f.realType = .varchar) (hw : f.wfPart f.fieldLength = true)
    (hs : ∀ so, f.charset ≠ .simple so) : f.Unpacks i f.fieldLength := by
  by_cases hb : f.charset = .binary
  · refine ⟨.binaryOrUtf8Varchar, by simp [setup, hf, setupVarchar, hb, checkPrefix],
      fun {v} hv rest restInfo => ?_⟩
    obtain ⟨hl, -⟩ := validValue_varchar hf hv
    have himage : ((setup i f f.fieldLength).pack f v).1 = packVariableFormat v := by
      refine (pack_varchar_binary_eq hf hb hw).trans ?_
      rw [take_of_length_le hl]
    have hinfo : ((setup i f f.fieldLength).pack f v).2 = [] := by
      simp [setup, hf, setupVarchar, hb, checkPrefix, pack]
    have hcs : (setup i f f.fieldLength).varcharCharset = .binary := by
      simp [setup, hf, setupVarchar, hb, checkPrefix]
    rw [partField_self, himage, hinfo, unpack, hcs, packVariableFormat,
      unpackBinaryOrUtf8Varchar_pack rest (Nat.lt_add_one _)
        (by rw [length_append]; omega) (by simp only [Field.packLength, hf]; omega)]
    rfl
  · have hun := fun {v} (hv : f.validValue v = true) =>
      unpack_varchar_padSpace (i := i) hf (Collation.padSpace_of_ne_binary hb) hs hw hv
    cases hc : f.charset with
    | binary => exact absurd hc hb
    | simple so => exact absurd hc (hs so)
    | _ =>
      refine ⟨_, by simp [setup, hf, setupVarchar, hc, checkPrefix]; rfl,
        fun {v} hv rest restInfo => ?_⟩
      simpa only [unpack, hc, weightLen, partField_self]
        using hun hv rest restInfo

theorem unpack_string (hf : f.realType = .string) (hw : f.wfPart f.fieldLength = true)
    (hs : ∀ so, f.charset ≠ .simple so) : f.Unpacks i f.fieldLength := by
  obtain ⟨hpf, hmax⟩ := setup_string i f.fieldLength hf
  have hlen : ∀ {v}, f.validValue v = true → ((setup i f f.fieldLength).pack f v).1.length
      = (setup i f f.fieldLength).maxImageLen := fun {v} hv => by
    obtain ⟨-, -, -, -, -, hlen⟩ := pack_string_whole (i := i) hf hw hv
    rw [hmax, hlen]
  have hinfo : ∀ v, ((setup i f f.fieldLength).pack f v).2 = [] := fun v => by
    rw [pack, hpf]
  have hutf8 : ∀ {v} (mb4 : Bool), f.charset = .utf8 mb4 → f.validValue v = true → _ :=
    fun mb4 hc hv => unpack_string_utf8 (i := i) hf hc hw hv
  have hun : ∀ {func decode}, (setup i f f.fieldLength).unpackFunc = some func →
      (∀ reader info, (setup i f f.fieldLength).unpack f func reader info
        = unpackFixed (setup i f f.fieldLength).maxImageLen decode reader info) →
      (∀ {v}, f.validValue v = true → decode ((setup i f f.fieldLength).pack f v).1 = some v) →
      f.Unpacks i f.fieldLength := fun hfunc hun hdec =>
    ⟨_, hfunc, fun {v} hv rest restInfo => by
      rw [partField_self, hun, unpackFixed_append (hlen hv), hdec hv, hinfo]
      rfl⟩
  cases hc : f.charset with
  | simple so => exact absurd hc (hs so)
  | binary | latin1Bin =>
    exact hun (by simp [setup, hf, setupString, hc, checkPrefix]; rfl) (fun _ _ => rfl)
      fun hv => congrArg some (unpack_string_byte hf (by simp [hc]) hw hv)
  | utf8Bin =>
    exact hun (by simp [setup, hf, setupString, hc, checkPrefix]; rfl) (fun _ _ => rfl)
      (hutf8 false hc)
  | utf8mb4Bin =>
    exact hun (by simp [setup, hf, setupString, hc, checkPrefix]; rfl) (fun _ _ => rfl)
      (hutf8 true hc)

/-- **A whole column is restored from its image and its unpack info.** -/
theorem unpack_pack (hw : f.wfPart len = true) (hr : f.restorable len = true) :
    f.Unpacks i len := by
  cases hf : f.realType with
  | float | double | blob _ | time _ | datetime _ | timestamp _ => simp [Field.restorable, hf] at hr
  | varchar =>
    obtain ⟨rfl, hs⟩ := restorable_string (Or.inl hf) hr
    exact unpack_varchar i hf hw hs
  | string =>
    obtain ⟨rfl, hs⟩ := restorable_string (Or.inr hf) hr
    exact unpack_string i hf hw hs
  | _ =>
    -- images of fixed length
    refine ⟨_, by simp only [setup, hf]; rfl, fun {v} hv rest restInfo => ?_⟩
    simp only [Field.validValue, hf, beq_iff_eq, Field.packLength] at hv
    simp only [setup, hf, pack, unpack, Field.sortString, partField,
      nil_append, Field.packLength]
    rw [unpackFixed_append (by simp [length_sortInteger, hv])]
    simp [unpackInteger_sortInteger]

/-- How a prefix of a string column is set up: it is skipped, and keeps nothing in the unpack info.
-/
theorem setup_keyPrefixed (hf : f.realType = .varchar ∨ f.realType = .string)
    (hne : f.fieldLength ≠ len) :
    (setup i f len).unpackFunc = none ∧ (setup i f len).makeUnpackInfoFunc = none ∧
      (setup i f len).unpackInfoStoresValue = true := by
  rcases hf with hf | hf
  · cases hc : f.charset <;>
      simp [setup, hf, setupVarchar, hc, checkPrefix, hne]
  · cases hc : f.charset <;>
      simp [setup, hf, setupString, hc, checkPrefix, hne]

theorem skip_varchar {xs : List ℕ} (hf : f.realType = .varchar) (hw : f.wfPart len = true)
    (hx : f.charset.chars v = some xs) (rest : Bytes) :
    (setup i f len).skip (partField f len)
      (((setup i f len).pack (partField f len) v).1 ++ rest) = some rest := by
  obtain ⟨-, hle, hlen, -⟩ := wfPart_string (Or.inl hf) hw
  have hroom : (partField f len).packLength - (partField f len).lengthBytes = len := by
    simp only [Field.packLength, partField, hf]
    omega
  by_cases hb : f.charset = .binary
  · have hskip : (setup i f len).skipFunc = .variableLength := by
      simp only [setup, hf, setupVarchar, hb, checkPrefix]
      split <;> rfl
    rw [pack_varchar_binary_eq hf hb hw, skip, hskip]
    simp only [hroom]
    exact skipVariableLength_pack rest (Nat.lt_add_one _)
      (by rw [packVariableFormat, length_append]; omega) (length_take_le _ _)
  · have hp := Collation.padSpace_of_ne_binary hb
    obtain ⟨hpf, hseg, hxf, -⟩ := setup_varchar_padSpace i len hf hp
    obtain ⟨hpos, -, -⟩ := segment_dvd hp
    have hskip : (setup i f len).skipFunc = .variableSpacePad := by
      cases hc : f.charset with
      | binary => exact absurd hc hb
      | _ =>
        simp only [setup, hf, setupVarchar, hc, checkPrefix, setupSpacePad]
        split <;> rfl
    have hbuf := strnxfrm_varchar (i := i) hf hp hw hx
    have hl : (varcharWeights f.charset (len / f.charset.mbmaxlen) xs).length ≤ len := by
      rw [varcharWeights, f.charset.length_weights, length_take]
      calc _ ≤ f.charset.mbmaxlen * (len / f.charset.mbmaxlen) :=
            Nat.mul_le_mul f.charset.weightLen_le_mbmaxlen (Nat.min_le_left _ _)
        _ = len := hlen.symm
    have himage : ((setup i f len).pack (partField f len) v).1
        = (varcharSegments f.charset (len / f.charset.mbmaxlen) xs).1 := by
      simp only [pack, hpf, packWithVarcharSpacePad, partField, Field.charLength, hbuf,
        hseg, hxf]
      rfl
    have hturns : (varcharSegments f.charset (len / f.charset.mbmaxlen) xs).1.length
        < ((varcharSegments f.charset (len / f.charset.mbmaxlen) xs).1 ++ rest).length + 1 := by
      rw [length_append]
      omega
    rw [himage, skip, hskip]
    simp only [hroom, hseg]
    rw [← Nat.sub_add_cancel (show 1 ≤ getSegmentSizeFromCollation f.charset by omega)]
    rw [varcharSegments_eq hp] at hturns ⊢
    exact skipVariableSpacePad_pack hpos (spaces_spaceBytes hp).le rest (Nat.lt_add_one _) hturns hl

/-- An image that is as long as the packing says is skipped. -/
theorem skip_maxLength {fpi : FieldPacking} {g : Field} {image : Bytes}
    (hs : fpi.skipFunc = .maxLength) (hl : image.length = fpi.maxImageLen) (rest : Bytes) :
    fpi.skip g (image ++ rest) = some rest := by
  rw [skip, hs]
  simp only
  rw [StringReader.read_append hl]
  rfl

theorem skip_string {xs : List ℕ} (hf : f.realType = .string) (hw : f.wfPart len = true)
    (hx : f.charset.chars v = some xs) (hn : len / f.charset.mbmaxlen ≤ xs.length) (rest : Bytes) :
    (setup i f len).skip (partField f len)
      (((setup i f len).pack (partField f len) v).1 ++ rest) = some rest := by
  have hs : (setup i f len).skipFunc = .maxLength := by
    simp only [setup, hf, setupString, checkPrefix]
    cases f.charset <;> split <;> rfl
  refine skip_maxLength hs ?_ rest
  rw [(setup_string i len hf).2, length_pack_string hf hw hx hn]

/-- The image of a column that is no string is as long as the packing says. -/
theorem length_pack_fixed (hf : f.realType ≠ .varchar) (hf' : f.realType ≠ .string)
    (hw : f.wfPart len = true) (hv : f.validValue v = true) :
    (setup i f len).skipFunc = .maxLength ∧
      ((setup i f len).pack (partField f len) v).1.length = (setup i f len).maxImageLen := by
  cases h : f.realType with
  | varchar => exact absurd h hf
  | string => exact absurd h hf'
  | blob packlength =>
    obtain ⟨-, xs, hx⟩ := validValue_blob h hv
    refine ⟨by simp only [setup, h], ?_⟩
    cases hc : f.charset with
    | binary =>
      rw [pack_blob_binary h hc, length_append, length_padTake, length_miStore]
      simp only [setup, h, hc]
    | simple so =>
      rw [pack_blob_simple h hc, length_padTake]
      simp [setup, h, hc]
    | _ =>
      rw [(pack_blob_padSpace h (by rw [hc]; rfl) (by simp [hc]) hw hx).2, length_padTake]
      simp [setup, h, hc]
  | _ =>
    have hfix : f.realType.fixedSize = true := by rw [h]; rfl
    refine ⟨by simp only [setup, h], ?_⟩
    rw [pack_fixed hfix, Field.length_sortString hfix, Field.length_of_validValue hfix hv]
    simp only [setup, h]

/-- **Any part is passed over**, with or without a clone of its column. -/
theorem skip_pack (cloned : Bool) (hw : f.wfPart len = true) (hv : f.validValue v = true)
    (rest : Bytes) :
    (setup i (keyField cloned f len) len).skip (partField f len)
      (((setup i (keyField cloned f len) len).pack (partField f len) v).1 ++ rest) = some rest := by
  refine setup_keyField_cases (P := fun fpi => fpi.skip (partField f len)
    ((fpi.pack (partField f len) v).1 ++ rest) = some rest) cloned hw hv ?_ ?_ ?_
  · intro g xs hg hw hx hpart
    rw [← hpart]
    exact skip_varchar i hg hw hx rest
  · intro g xs hg hw hx hn hpart
    rw [← hpart]
    exact skip_string i hg hw hx hn rest
  · intro hf hf'
    obtain ⟨hs, hl⟩ := length_pack_fixed i hf hf' hw hv
    exact skip_maxLength hs hl rest

end All

end EloqSql
