import EloqSql.Image.Simple
import EloqSql.KeyDef.RoundTrip

/-!
# KeyDef/Columns — the columns that come back from their key part

A key part that is a whole column is the only place where the column is stored, if the key is the
primary one. `restores_iff` says for which columns every value comes back from it: not for those
that `setup` gives no unpack function, not for floating point numbers, whose zero loses its sign,
and not for a `VARCHAR` of a simple collation that can end with a segment of characters that weigh
as the space (`forall_simple_iff`).
-/

namespace EloqSql

open FieldPacking BitStream List
open EloqSql.Field (charLength keyLength packLength restorable sortString validValue)
open FieldPacking (makeUnpackInfo pack skip unpack)

namespace Field

/-- The part has an unpack function, and that restores every value of the column. -/
def Restores (f : Field) (i len : ℕ) : Prop :=
  ∃ func, (setup i f len).unpackFunc = some func ∧ ∀ v, f.validValue v = true →
    ∀ defaultValue rest restInfo,
      decodeField (setup i f len) func (partField f len) defaultValue
          ((packField (partField f len) (setup i f len) ⟨false, v⟩).1 ++ rest)
          ((packField (partField f len) (setup i f len) ⟨false, v⟩).2 ++ restInfo)
        = some (⟨false, v⟩, rest, restInfo)

/-- The part has no unpack function, and every value of the column is passed over. -/
def Skipped (f : Field) (i len : ℕ) : Prop :=
  (setup i f len).unpackFunc = none ∧ ∀ v, f.validValue v = true → ∀ rest restInfo,
    skipField (setup i f len) (partField f len)
        ((packField (partField f len) (setup i f len) ⟨false, v⟩).1 ++ rest)
        ((packField (partField f len) (setup i f len) ⟨false, v⟩).2 ++ restInfo)
      = some (rest, restInfo)

/-- Only the space has the weight of the space, or the column has no more than a segment. -/
def SpaceApart (f : Field) : Prop :=
  ∀ so, f.charset = .simple so → f.fieldLength ≤ 8 ∨ ∀ c, so c = so 0x20 → c = 0x20

/-- A whole column whose values all come back from a key part. -/
def Lossless (f : Field) : Prop :=
  match f.realType with
  | .float | .double | .blob _ | .time _ | .datetime _ | .timestamp _ => False
  | .varchar => f.SpaceApart
  | _ => True

end Field

variable {f : Field} {so : UInt8 → UInt8}

/-! ## `VARCHAR` in a simple collation -/

section Varchar

/-- A space that alone has its weight takes no bits. -/
theorem simpleBits_spaces (h : ∀ c, so c = so 0x20 → c = 0x20) (n : ℕ) :
    simpleBits so (replicate n 0x20) = 0 := by
  have hnodup : (revMap so (so 0x20)).Nodup := by
    refine List.Nodup.filter _ (List.Nodup.map_on (fun x hx y hy hxy => ?_) nodup_range)
    rw [← UInt8.toNat_inj, UInt8.toNat_ofNat_of_lt' (mem_range.mp hx),
      UInt8.toNat_ofNat_of_lt' (mem_range.mp hy)] at hxy
    exact hxy
  have hall : ∀ c ∈ revMap so (so 0x20), c = 0x20 := fun c hc =>
    h c (of_decide_eq_true (mem_filter.mp hc).2)
  have hone : (revMap so (so 0x20)).length = 1 := by
    have hle : (revMap so (so 0x20)).length ≤ 1 := by
      rw [eq_replicate_of_mem hall, nodup_replicate] at hnodup
      exact hnodup
    have := length_pos_of_mem (mem_revMap so 0x20)
    omega
  have hsize : (initCollationMapping so).encSize 0x20 = 0 := by
    simp only [initCollationMapping, hone]
    decide
  simp [simpleBits, map_replicate, hsize]

theorem not_dropsTail_trim (h : ∀ c, so c = so 0x20 → c = 0x20) (v : Bytes) :
    ¬ DropsTail so (v.rdropWhile (· == 0x20)) := by
  rintro ⟨hlen, hall⟩
  have hne : v.rdropWhile (· == 0x20) ≠ [] := by
    rw [← length_pos_iff]
    omega
  have hdrop : (v.rdropWhile (· == 0x20)).drop (8 * (((v.rdropWhile (· == 0x20)).length - 1) / 8))
      ≠ [] := by
    rw [Ne, drop_eq_nil_iff]
    omega
  have hlast := rdropWhile_last_not (· == 0x20) v hne
  have := h _ (hall _ (getLast_drop hdrop ▸ getLast_mem hdrop))
  simp [this] at hlast

/-- **No value of a column loses its tail or leaves bits behind**, exactly if the space is set apart
by its weight or by the length of the column. -/
theorem forall_simple_iff (n : ℕ) :
    (∀ v : Bytes, v.length ≤ n → ¬ DropsTail so (v.rdropWhile (· == 0x20)) ∧
      (simpleBits so (v.take ((v.rdropWhile (· == 0x20)).length
        + spacesInPadding (v.rdropWhile (· == 0x20)).length)) + 7) / 8
        = (simpleBits so v + 7) / 8) ↔
    n ≤ 8 ∨ ∀ c, so c = so 0x20 → c = 0x20 := by
  constructor
  · intro h
    by_contra hn
    push Not at hn
    obtain ⟨hlong, c, hc, hne⟩ := hn
    refine (h (replicate 9 c) (by rw [length_replicate]; omega)).1 ?_
    have hlast : ¬ (([c, c, c, c, c, c, c, c] ++ [c] : Bytes).getLast (by simp) == 0x20)
        = true := by
      rw [getLast_append_singleton, beq_iff_eq]
      exact hne
    have htrim : (replicate 9 c).rdropWhile (· == 0x20) = replicate 9 c :=
      rdropWhile_eq_self_iff.mpr fun _ => hlast
    rw [htrim]
    refine ⟨by rw [length_replicate]; omega, fun c' hc' => ?_⟩
    rw [eq_of_mem_replicate (mem_of_mem_drop hc'), hc]
  · rintro (hn | h) v hv
    · have hle := ( rdropWhile_prefix (· == 0x20) v).length_le
      have hpad : v.length ≤ (v.rdropWhile (· == 0x20)).length
          + spacesInPadding (v.rdropWhile (· == 0x20)).length := by
        rw [spacesInPadding]
        split_ifs <;> omega
      refine ⟨fun hd => ?_, by rw [take_of_length_le hpad]⟩
      have := hd.1
      omega
    · refine ⟨not_dropsTail_trim h v, ?_⟩
      -- the bits are those of the trimmed value
      have hspaces := simpleBits_spaces h
      have htrim := rdropWhile_append_replicate 0x20 v
      generalize v.rdropWhile (· == 0x20) = t at htrim ⊢
      rw [← htrim, take_length_add_append, take_replicate, simpleBits_append,
        simpleBits_append, hspaces, hspaces]

theorem restores_varchar_iff (i : ℕ) (hf : f.realType = .varchar) (hc : f.charset = .simple so)
    (hw : f.wfPart f.fieldLength = true) :
    f.Restores i f.fieldLength ↔ f.fieldLength ≤ 8 ∨ ∀ c, so c = so 0x20 → c = 0x20 := by
  have hvalid : ∀ v, f.validValue v = true ↔ v.length ≤ f.fieldLength := fun v => by
    have hcl : f.charLength = f.fieldLength := by simp [charLength, hc, Collation.mbmaxlen]
    simp [validValue, hf, Collation.chars_byte (show f.charset.weightLen = 1 by rw [hc]; rfl), hcl]
  obtain ⟨hfunc, -, -, -⟩ := setup_simple i hf hc
  rw [← forall_simple_iff]
  constructor
  · rintro ⟨func, hfunc', h⟩ v hv
    obtain ⟨func'', hfunc'', hiff⟩ := decodeField_simple_iff hc hv i hf hw [] [] []
    cases hfunc'.symm.trans hfunc''
    exact hiff.mp (h v ((hvalid v).mpr hv) [] [] [])
  · intro h
    refine ⟨_, hfunc, fun v hv defaultValue rest restInfo => ?_⟩
    have hv := (hvalid v).mp hv
    obtain ⟨func, hfunc', hiff⟩ := decodeField_simple_iff hc hv i hf hw defaultValue rest restInfo
    cases hfunc.symm.trans hfunc'
    exact hiff.mpr (h v hv)

end Varchar

/-! ## All columns -/

/-- **A `CHAR` of a simple collation is unpacked**: all its characters are in the image. -/
theorem unpack_string_simple (i : ℕ) {v : Bytes} (hf : f.realType = .string)
    (hc : f.charset = .simple so) (hw : f.wfPart f.fieldLength = true) (hv : f.validValue v = true)
    (rest restInfo : Bytes) :
    let fpi := setup i f f.fieldLength
    fpi.unpackFunc = some .simple ∧ fpi.makeUnpackInfoFunc = some .simple ∧
      fpi.unpack f .simple ((fpi.pack f v).1 ++ rest)
        ((fpi.pack f v).2 ++ fpi.makeUnpackInfo f v ++ restInfo) = some (v, rest, restInfo) := by
  have hset : (setup i f f.fieldLength).unpackFunc = some .simple ∧
      (setup i f f.fieldLength).makeUnpackInfoFunc = some .simple ∧
      (setup i f f.fieldLength).charsetCodec = initCollationMapping so := by
    simp [setup, hf, setupString, hc, checkPrefix]
  obtain ⟨hfunc, hmake, hcodec⟩ := hset
  obtain ⟨hpf, hmax⟩ := setup_string i f.fieldLength hf
  refine ⟨hfunc, hmake, ?_⟩
  obtain ⟨hvl, -⟩ := validValue_string hf hv
  obtain ⟨xs, hx, -, -, himage, hlen⟩ := pack_string_whole (i := i) hf hw hv
  have hcl : f.charLength = v.length := by simp [charLength, hc, Collation.mbmaxlen, hvl]
  cases (Collation.chars_byte (by rw [hc]; rfl) v).symm.trans hx
  have himage' : ((setup i f f.fieldLength).pack f v).1 = v.map so := by
    rw [himage, hcl, take_of_length_le (by rw [length_map]), hc, weights_simple]
  have hinfo : (setup i f f.fieldLength).makeUnpackInfo f v
      = ((simpleNumbers so v ++ []).foldl
          (fun (w : BitWriter) (x : ℕ × ℕ) => w.write x.1 x.2) (.ofWriter [])).data := by
    have hpl : f.packLength = v.length := by rw [packLength, hf, hvl]
    rw [makeUnpackInfo, hmake]
    simp only
    rw [hcodec, hpl, take_length, monoWriteUnpackSimple_eq, append_nil]
  have hat := BitReader.at_ofReader (simpleNumbers so v ++ []) restInfo
  rw [← hinfo] at hat
  obtain ⟨r, hread, hoff, hat'⟩ := monoReadUnpackSimple_map hat
  have hrest : r.reader = restInfo := (hat'.reader_eq_iff hoff).mpr (by simp [size])
  have hpack : ((setup i f f.fieldLength).pack f v).2 = [] := by rw [pack, hpf]
  rw [hpack, nil_append]
  simp only [unpack]
  rw [StringReader.read_append (hlen.trans hmax.symm)]
  simp only
  rw [hcodec, himage', hread, Option.map_some, hrest]

theorem restores_string (i : ℕ) (hf : f.realType = .string) (hc : f.charset = .simple so)
    (hw : f.wfPart f.fieldLength = true) : f.Restores i f.fieldLength := by
  have hun := fun v hv => unpack_string_simple i (v := v) hf hc hw hv
  refine ⟨.simple, by simp [setup, hf, setupString, hc, checkPrefix],
    fun v hv defaultValue rest restInfo => ?_⟩
  obtain ⟨-, hmake, hun⟩ := hun v hv rest restInfo
  rw [partField_self, decodeField_of_not_null (setup_maybeNull i)
    (by simp only [usesUnpackInfo, hmake, Option.isSome]), hun, Option.map_some]

/-- A part whose image and unpack info two values share does not restore both. -/
theorem not_restores_of_eq {i len : ℕ} {v w : Bytes} (hv : f.validValue v = true)
    (hw : f.validValue w = true) (hne : v ≠ w)
    (h : packField (partField f len) (setup i f len) ⟨false, v⟩
      = packField (partField f len) (setup i f len) ⟨false, w⟩) : ¬ f.Restores i len := by
  rintro ⟨func, -, hdec⟩
  have hv' := hdec v hv [] [] []
  have hw' := hdec w hw [] [] []
  rw [h, hw'] at hv'
  simp only [Option.some.injEq, Prod.mk.injEq, Cell.mk.injEq, true_and, and_true] at hv'
  exact hne hv'.symm

/-- Both zeros have one image. -/
theorem not_restores_float (i len : ℕ) (hf : f.realType = .float ∨ f.realType = .double) :
    ¬ f.Restores i len := by
  rcases hf with hf | hf
  · refine not_restores_of_eq (v := [0, 0, 0, 0]) (w := [0, 0, 0, 0x80])
      (by simp only [validValue, hf]; decide) (by simp only [validValue, hf]; decide)
      (by decide) ?_
    have hsort : sortFloat fltExpDig [0, 0, 0, 0] = sortFloat fltExpDig [0, 0, 0, 0x80] := by decide
    simp only [packField, pack, makeUnpackInfo, setup, hf,
      sortString, partField, hsort]
  · refine not_restores_of_eq (v := [0, 0, 0, 0, 0, 0, 0, 0]) (w := [0, 0, 0, 0, 0, 0, 0, 0x80])
      (by simp only [validValue, hf]; decide) (by simp only [validValue, hf]; decide)
      (by decide) ?_
    have hsort : sortFloat dblExpDig [0, 0, 0, 0, 0, 0, 0, 0]
        = sortFloat dblExpDig [0, 0, 0, 0, 0, 0, 0, 0x80] := by decide
    simp only [packField, pack, makeUnpackInfo, setup, hf,
      sortString, partField, hsort]

/-- A whole string column that is not restorable has a simple collation. -/
theorem exists_simple {len : ℕ} (hr : ¬ f.restorable len = true)
    (hf : f.realType = .varchar ∨ f.realType = .string) (hl : f.fieldLength = len) :
    ∃ so, f.charset = .simple so := by
  by_contra hs
  refine hr ?_
  rcases hf with hf | hf <;> cases hc : f.charset <;> simp_all [restorable]

/-- **Every value of a whole column comes back from its key part**, exactly if the column is
lossless. -/
theorem restores_iff (i : ℕ) {len : ℕ} (hw : f.wfPart len = true) (hlen : f.keyLength = len) :
    f.Restores i len ↔ f.Lossless := by
  by_cases hr : f.restorable len = true
  · have hrestores : f.Restores i len := by
      obtain ⟨func, hfunc, -⟩ := unpack_pack i hw hr
      refine ⟨func, hfunc, fun v hv defaultValue rest restInfo => ?_⟩
      obtain ⟨func', hfunc', h⟩ := decodeField_packField i (c := ⟨false, v⟩) hw hv hr defaultValue
      cases hfunc.symm.trans hfunc'
      exact h rest restInfo
    refine iff_of_true hrestores ?_
    cases hf : f.realType with
    | float | double | blob _ | time _ | datetime _ | timestamp _ =>
      simp [restorable, hf] at hr
    | varchar =>
      simp only [Field.Lossless, hf]
      exact fun so hso => absurd hso ((restorable_string (Or.inl hf) hr).2 so)
    | _ => simp only [Field.Lossless, hf]
  · cases hf : f.realType with
    | float => simpa only [Field.Lossless, hf, iff_false] using not_restores_float i len (Or.inl hf)
    | double =>
      simpa only [Field.Lossless, hf, iff_false] using not_restores_float i len (Or.inr hf)
    | blob _ | time _ | datetime _ | timestamp _ =>
      simp only [Field.Lossless, hf, iff_false]
      rintro ⟨func, hfunc, -⟩
      simp [setup, hf] at hfunc
    | varchar =>
      obtain rfl : f.fieldLength = len := by simpa only [keyLength, hf] using hlen
      obtain ⟨so, hc⟩ := exists_simple hr (Or.inl hf) rfl
      rw [restores_varchar_iff i hf hc hw]
      simp [Field.Lossless, hf, Field.SpaceApart, hc, Collation.simple.injEq]
    | string =>
      obtain rfl : f.fieldLength = len := by
        simpa only [keyLength, packLength, hf] using hlen
      obtain ⟨so, hc⟩ := exists_simple hr (Or.inr hf) rfl
      simp only [Field.Lossless, hf, iff_true]
      exact restores_string i hf hc hw
    | _ => simp [restorable, hf] at hr

/-- A prefix is passed over, whatever its collation. -/
theorem skipped_of_prefixPart (i : ℕ) {len : ℕ} (hw : f.wfPart len = true)
    (hp : f.prefixPart len = true) : f.Skipped i len :=
  ⟨(setup_prefixPart i hp).1, fun v hv => (skipField_packField i (c := ⟨false, v⟩) hw hv hp).2⟩

/-! ## Skipping and unpacking -/

section Readers

variable {n : ℕ} {r r' : Bytes}

/-- Both loops over the segments stop at the same one. -/
theorem reader_unpackSegments {σ : Type} {decode : σ → ℕ → Bytes → Option (Bytes × σ)} {spb : ℕ} :
    ∀ {turns room dstLen : ℕ} {st st' : σ} {reader out : Bytes},
      unpackSegments n decode spb turns room st reader = some (out, st', r) →
      skipVariableSpacePad n turns dstLen reader = some r' → r = r'
  | 0, _, _, _, _, _, _, hu, _ => nomatch hu
  | turns + 1, _, _, _, _, _, _, hu, hs => by
      have ih := @reader_unpackSegments σ decode spb turns
      grind [unpackSegments, skipVariableSpacePad]

theorem reader_unpackBinaryOrUtf8Varchar :
    ∀ {turns dstLen dstLen' : ℕ} {reader out : Bytes},
      unpackBinaryOrUtf8Varchar .binary turns dstLen reader = some (out, r) →
      skipVariableLength turns dstLen' reader = some r' → r = r'
  | 0, _, _, _, _, hu, _ => nomatch hu
  | turns + 1, _, _, _, _, hu, hs => by
      have ih := @reader_unpackBinaryOrUtf8Varchar turns
      rw [unpackBinaryOrUtf8Varchar] at hu
      rw [skipVariableLength] at hs
      grind

theorem reader_unpackFixed {decode : Bytes → Option Bytes} {reader info v info' : Bytes}
    (hu : unpackFixed n decode reader info = some (v, r, info'))
    (hs : (StringReader.read n reader).map (·.2) = some r') : r = r' := by
  grind [unpackFixed, Option.map_eq_some_iff]

variable {g h : Field} {i len : ℕ} {func : UnpackFunc} {reader info v info' : Bytes}

theorem whole_of_unpackFunc (hfunc : (setup i g len).unpackFunc = some func)
    (hf : g.realType = .varchar ∨ g.realType = .string) : g.fieldLength = len :=
  by_contra fun hne => by simp [(setup_keyPrefixed i hf hne).1] at hfunc

/-- **Where both return, skipping and unpacking leave the reader at one place**, whatever it reads.
-/
theorem reader_unpack (hfunc : (setup i g len).unpackFunc = some func)
    (hu : (setup i g len).unpack h func reader info = some (v, r, info'))
    (hs : (setup i g len).skip h reader = some r') : r = r' := by
  cases hf : g.realType with
  | varchar =>
    obtain rfl := whole_of_unpackFunc hfunc (.inl hf)
    cases hc : g.charset <;>
      simp [setup, hf, hc, setupVarchar, checkPrefix, setupSpacePad] at hfunc hu hs <;> subst hfunc
    · simp only [unpack, Option.map_eq_some_iff] at hu
      obtain ⟨_, hu, h⟩ := hu
      cases h
      exact reader_unpackBinaryOrUtf8Varchar hu hs
    all_goals
      grind [unpack, skip, unpackBinaryOrUtf8VarcharSpacePad,
        unpackSimpleVarcharSpacePad, unpackSpacePad, reader_unpackSegments]
  | string =>
    obtain rfl := whole_of_unpackFunc hfunc (.inr hf)
    cases hc : g.charset <;> simp [setup, hf, hc, setupString, checkPrefix] at hfunc hu hs <;>
      subst hfunc
    case simple => grind [unpack, skip, Option.map_eq_some_iff]
    all_goals exact reader_unpackFixed hu hs
  | _ =>
    simp [setup, hf, packLength] at hfunc hu hs <;> subst hfunc <;>
      exact reader_unpackFixed hu hs

end Readers

/-- **A part with an unpack function is unpacked**, and the reader is left behind it. -/
theorem unpack_packField (i : ℕ) {len : ℕ} {func : UnpackFunc} {v : Bytes}
    (hw : f.wfPart len = true) (hv : f.validValue v = true)
    (hfunc : (setup i f len).unpackFunc = some func) (rest restInfo : Bytes) : ∃ v' info',
      (setup i f len).unpack (partField f len) func
          (((setup i f len).pack (partField f len) v).1 ++ rest)
          ((packField (partField f len) (setup i f len) ⟨false, v⟩).2 ++ restInfo)
        = some (v', rest, info') := by
  by_cases hr : f.restorable len = true
  · obtain ⟨func', hfunc', hun⟩ := unpack_pack i hw hr
    cases hfunc.symm.trans hfunc'
    rw [packField_snd i (.inl hr), Bool.and_false, if_neg Bool.false_ne_true]
    exact ⟨v, restInfo, hun hv rest restInfo⟩
  cases hf : f.realType with
  | varchar =>
    obtain rfl := whole_of_unpackFunc hfunc (.inl hf)
    obtain ⟨so, hc⟩ := exists_simple hr (.inl hf) rfl
    obtain ⟨hfunc', hmake, -⟩ := setup_simple i hf hc
    cases hfunc.symm.trans hfunc'
    obtain ⟨r, hun, -⟩ := unpack_simple hc (validValue_varchar hf hv).1 (i := i) hf hw rest restInfo
    rw [partField_self]
    exact ⟨_, r.reader, by simpa [packField, usesUnpackInfo, hmake] using hun⟩
  | string =>
    obtain rfl := whole_of_unpackFunc hfunc (.inr hf)
    obtain ⟨so, hc⟩ := exists_simple hr (.inr hf) rfl
    obtain ⟨hfunc', hmake, hun⟩ := unpack_string_simple i hf hc hw hv rest restInfo
    cases hfunc.symm.trans hfunc'
    rw [partField_self]
    exact ⟨v, restInfo, by simpa [packField, usesUnpackInfo, hmake] using hun⟩
  | float | double =>
    obtain ⟨-, hlen⟩ := length_pack_fixed i (by simp [hf]) (by simp [hf]) hw hv
    simp only [setup, hf, Option.some.injEq, packLength] at hfunc hlen ⊢
    subst hfunc
    rw [unpack, unpackFixed_append hlen]
    exact ⟨_, _, rfl⟩
  | blob _ | time _ | datetime _ | timestamp _ => simp [setup, hf] at hfunc
  | _ => simp [restorable, hf] at hr

/-- **Skipping a part and unpacking it move the reader alike**: both to the end of what was packed.
The skip function never fails, and the unpack function does not if the value fits the field that the
part was set up with. -/
theorem skip_and_unpack (i : ℕ) {len : ℕ} {v : Bytes} (cloned : Bool) (hw : f.wfPart len = true)
    (hv : f.validValue v = true) :
    let fpi := setup i (keyField cloned f len) len
    let image := (fpi.pack (partField f len) v).1
    (∀ rest, fpi.skip (partField f len) (image ++ rest) = some rest) ∧
    ∀ func, fpi.unpackFunc = some func →
      (∀ rest info v' r info', fpi.unpack (partField f len) func (image ++ rest) info
        = some (v', r, info') → r = rest) ∧
      ((keyField cloned f len).validValue v = true → ∀ rest restInfo, ∃ v' info',
        fpi.unpack (partField f len) func (image ++ rest)
            ((packField (partField f len) fpi ⟨false, v⟩).2 ++ restInfo)
          = some (v', rest, info')) := by
  have hskip := skip_pack i cloned hw hv
  refine ⟨hskip, fun func hfunc => ⟨fun rest info v' r info' hu => ?_, fun hv' => ?_⟩⟩
  · exact reader_unpack hfunc hu (hskip rest)
  · cases cloned with
    | false => exact unpack_packField i hw hv hfunc
    | true =>
      by_cases hf : f.realType = .varchar ∨ f.realType = .string
      · exact unpack_packField (f := partField f len) i (wfPart_partField hf hw) hv' hfunc
      · rw [not_or] at hf
        simp only [keyField, if_true, setup_partField hf.1 hf.2] at hfunc ⊢
        exact unpack_packField i hw hv hfunc

/-- A clone of two characters in front of another byte. -/
theorem skip_and_unpack_koi8u :
    let g := partField koi8uField 2
    let fpi := setup 0 g 2
    fpi.skip g ((fpi.pack g [0x61, 0x62]).1 ++ [7]) = some [7] ∧
    ∃ v' info', fpi.unpack g .simpleVarcharSpacePad ((fpi.pack g [0x61, 0x62]).1 ++ [7])
      ((packField g fpi ⟨false, [0x61, 0x62]⟩).2 ++ []) = some (v', [7], info') :=
  have h := skip_and_unpack 0 true (show koi8uField.wfPart 2 = true by decide) (by decide)
  ⟨h.1 [7], (h.2 _ rfl).2 (by decide) [7] []⟩

/-! ## The length of the unpack info -/

variable (so) in
theorem simpleBits_le : ∀ v : Bytes, simpleBits so v ≤ 8 * v.length
  | [] => Nat.zero_le _
  | c :: v => by
      have hbits : ∀ n ≤ 256, codecBits n ≤ 8 := by decide +kernel
      have hc : (initCollationMapping so).encSize c ≤ 8 := by
        refine hbits _ ((length_filter_le _ _).trans ?_)
        rw [length_map, length_range]
      have hv : simpleBits so (c :: v)
          = (initCollationMapping so).encSize c + simpleBits so v := rfl
      have := simpleBits_le v
      rw [hv, length_cons]
      omega

theorem length_monoWriteUnpackSimple_le (v : Bytes) :
    (monoWriteUnpackSimple (initCollationMapping so) (.ofWriter []) v).data.length ≤ v.length := by
  have hbits := simpleBits_le so v
  rw [monoWriteUnpackSimple_eq, data_writeAll, nil_append, length_map,
    length_emit (fits_numberChunks (Nat.zero_lt_succ 7)), size_numberChunks (Nat.zero_lt_succ 7),
    size_simpleNumbers]
  omega

/-- The unpack info of the characters of a part has a byte for each at most. -/
theorem length_makeUnpackInfo_le (i len : ℕ) (v : Bytes) :
    ((setup i f len).makeUnpackInfo (partField f len) v).length ≤ len := by
  cases hf : f.realType with
  | varchar =>
    simp only [setup, hf, setupVarchar, checkPrefix, setupSpacePad, makeUnpackInfo]
    cases hc : f.charset with
    | simple so =>
      simp only
      split_ifs
      · exact Nat.zero_le _
      · refine (length_monoWriteUnpackSimple_le _).trans ((length_take_le _ _).trans ?_)
        simp only [charLength, partField, hf]
        exact (Nat.min_le_left _ _).trans (Nat.div_le_self _ _)
    | _ => split_ifs <;> exact Nat.zero_le _
  | string =>
    simp only [setup, hf, setupString, checkPrefix, makeUnpackInfo]
    cases hc : f.charset with
    | simple so =>
      simp only
      split_ifs
      · exact Nat.zero_le _
      · refine (length_monoWriteUnpackSimple_le _).trans ((length_take_le _ _).trans ?_)
        simp only [packLength, partField, hf, le_refl]
    | _ => split_ifs <;> exact Nat.zero_le _
  | _ =>
    simp only [setup, hf, makeUnpackInfo]
    exact Nat.zero_le _

/-- A part adds no more to the unpack info than two bytes and one for each of its own. -/
theorem length_packField_snd_le (i len : ℕ) (c : Cell) :
    (packField (partField f len) (setup i f len) c).2.length ≤ 2 + len := by
  have hmake := length_makeUnpackInfo_le (f := f) i len c.bytes
  have hpack := length_pack_snd (setup i f len) (partField f len) c.bytes
  rw [packField]
  split
  · exact Nat.zero_le _
  · simp only
    split
    · rw [length_append]
      omega
    · omega

end EloqSql
