import EloqSql.Image.Part
import EloqSql.KeyDef.Parts

/-!
# KeyDef/Order — keys compare as rows

The image of a part compares as the part, NULL first, whatever follows it
(`comparesAs_partImage`). A key therefore compares as the row, part by part:
`Index.compare_packRecord` states that for keys of whole columns, in the order of the SQL layer.
-/

namespace EloqSql

open Segment MemCompare FieldPacking List

/-! ## One part -/

/-- A comparison of columns that may be NULL, with NULL first. -/
def cmpNullFirst (cmp : Bytes → Bytes → Ordering) (c d : Cell) : Ordering :=
  match c.isNull, d.isNull with
  | true, true => .eq
  | true, false => .lt
  | false, true => .gt
  | false, false => cmp c.bytes d.bytes

section Part

variable {t : TableShare} {p : KeyPartInfo}

/-- How the images of a part of two records compare. -/
def partCmp (t : TableShare) (r s : Record) (p : KeyPartInfo) : Ordering :=
  cmpNullFirst (imageCmp (t.field p.fieldIndex) p.length) (r p.fieldIndex) (s p.fieldIndex)

/-- **The images of a part of two rows compare as the part.** -/
theorem comparesAs_partImage (hp : p.Wf t) (row row' : Row t) :
    ComparesAs (partImage t row.record p) (partImage t row'.record p)
      (partCmp t row.record row'.record p) := by
  simp only [partImage, partCmp, KeyDef.packPart, cmpNullFirst]
  obtain ⟨hm, hn⟩ | ⟨hn, hv⟩ := row.null_or_valid hp.1 <;>
    obtain ⟨hm', hn'⟩ | ⟨hn', hv'⟩ := row'.null_or_valid hp.1
  · simpa [hm, hn, hn'] using ComparesAs.refl [(0 : UInt8)]
  · have hlt : compare (0 : UInt8) 1 = .lt := by decide
    simpa [hm, hn, hn', hlt] using ComparesAs.of_head_ne (a := (0 : UInt8)) (b := 1) (by decide)
  · have hgt : compare (1 : UInt8) 0 = .gt := by decide
    simpa [hm', hn, hn', hgt] using ComparesAs.of_head_ne (a := (1 : UInt8)) (b := 0) (by decide)
  · have hpack := comparesAs_keyField_pack (i := p.fieldIndex) p.cloned hp.2 hv hv'
    cases hm : (t.field p.fieldIndex).maybeNull with
    | false => simpa [hn, hn'] using hpack
    | true => simpa [hn, hn'] using (ComparesAs.singleton (1 : UInt8) 1).append hpack

/-- Parts of one column and one length agree in the same rows, cloned or not. -/
theorem partImage_eq_iff_of_sameAs {q : KeyPartInfo} (hpq : p.sameAs q = true)
    (hp : p.Wf t) (row row' : Row t) :
    partImage t row.record p = partImage t row'.record p ↔
      partImage t row.record q = partImage t row'.record q := by
  obtain ⟨hidx, hlen⟩ := KeyPartInfo.sameAs_iff.mp hpq
  have hcmp : partCmp t row.record row'.record p = partCmp t row.record row'.record q := by
    rw [partCmp, partCmp, hidx, hlen]
  have hq : q.Wf t := by rwa [KeyPartInfo.Wf, ← hidx, ← hlen]
  rw [(comparesAs_partImage hp row row').eq_iff, hcmp, (comparesAs_partImage hq row row').eq_iff]

/-! ## Whole columns -/

/-- The part is a whole column, of any type but `BLOB`, which has no whole columns in keys. -/
def WholeColumn (t : TableShare) (p : KeyPartInfo) : Prop :=
  match (t.field p.fieldIndex).realType with
  | .varchar | .string => p.length = (t.field p.fieldIndex).fieldLength
  | .blob _ => False
  | _ => True

/-- The SQL order of two records in a column. -/
def sqlCmp (t : TableShare) (r s : Record) (p : KeyPartInfo) : Ordering :=
  cmpNullFirst (t.field p.fieldIndex).cmp (r p.fieldIndex) (s p.fieldIndex)

/-- No valid `VARCHAR` is longer than its column. -/
theorem strnncollspNchars_whole {f : Field} (hf : f.realType = .varchar)
    {v w : Bytes} (hv : f.validValue v = true) (hv' : f.validValue w = true) :
    f.charset.strnncollspNchars f.charLength v w = f.charset.strnncollsp v w := by
  obtain ⟨hl, xs, hx, hxl⟩ := validValue_varchar hf hv
  obtain ⟨hl', ys, hy, hyl⟩ := validValue_varchar hf hv'
  by_cases hc : f.charset = .binary
  · have hn : f.charLength = f.fieldLength := by
      rw [Field.charLength, hc, Collation.mbmaxlen, Nat.div_one]
    rw [hc, hn]
    simp only [Collation.strnncollspNchars, Collation.strnncollsp]
    rw [take_of_length_le hl, take_of_length_le hl']
  · have hp := Collation.padSpace_of_ne_binary hc
    rw [Collation.strnncollspNchars_eq hp hx hy, Collation.strnncollsp_eq hp hx hy,
      take_of_length_le hxl, take_of_length_le hyl]

theorem imageCmp_whole (hp : WholeColumn t p) {v w : Bytes}
    (hv : (t.field p.fieldIndex).validValue v = true)
    (hv' : (t.field p.fieldIndex).validValue w = true) :
    imageCmp (t.field p.fieldIndex) p.length v w = (t.field p.fieldIndex).cmp v w := by
  cases hf : (t.field p.fieldIndex).realType with
  | varchar =>
    simp only [WholeColumn, hf] at hp
    simp only [imageCmp, Field.cmpPrefix, Field.cmp, hf, hp]
    exact strnncollspNchars_whole hf hv hv'
  | string =>
    simp only [WholeColumn, hf] at hp
    simp only [imageCmp, Field.cmpPrefix, Field.cmp, hf, hp, Field.charLength]
  | blob _ => simp [WholeColumn, hf] at hp
  | _ => simp only [imageCmp, Field.cmpPrefix, hf]

/-- The images of a whole column compare in the SQL order. -/
theorem partCmp_whole (hi : p.fieldIndex < t.fields) (hp : WholeColumn t p) (row row' : Row t) :
    partCmp t row.record row'.record p = sqlCmp t row.record row'.record p := by
  simp only [partCmp, sqlCmp, cmpNullFirst]
  obtain ⟨-, hn⟩ | ⟨hn, hv⟩ := row.null_or_valid hi <;>
    obtain ⟨-, hn'⟩ | ⟨hn', hv'⟩ := row'.null_or_valid hi <;> rw [hn, hn']
  exact imageCmp_whole hp hv hv'

end Part

/-! ## Keys -/

/-- A hidden primary key, which `my_uuid` makes. -/
abbrev HiddenPk : Type := { id : Bytes // id.length = myUuidSize }

namespace Table.Index

variable {t : Table} (ix : Index t)

/-- The parts of an index are parts of columns of the table. -/
theorem wf_of_mem {p : KeyPartInfo} (hp : p ∈ ix.parts) : p.Wf t := by
  cases ix with
  | primary pk h => exact t.part_wf _ (t.key_mem (t.pk_wf pk h).1) p hp
  | secondary x =>
    rcases mem_append.mp hp with hp | hp
    · exact t.part_wf_of_mem x.key_mem hp
    · exact x.missing_wf hp

/-- **The keys of two rows compare as their parts**, and then as the hidden primary keys. -/
theorem comparesAs_packRecord (unset : ℕ) {m : Bool} {n : ℕ} (h : n = 0 ∨ m = true)
    (row row' : Row t) (id id' : HiddenPk) :
    ComparesAs (packRecord t (ix.keyDef unset) row.record m (t.hiddenPk id.1) n).tuple
      (packRecord t (ix.keyDef unset) row'.record m (t.hiddenPk id'.1) n).tuple
      ((thenAll (ix.parts.map (partCmp t row.record row'.record))).then
        (if t.tableHasHiddenPk then compare id.1 id'.1 else .eq)) := by
  rw [ix.packRecord_tuple row.record unset id.1 h, ix.packRecord_tuple row'.record unset id'.1 h]
  refine ComparesAs.append (ComparesAs.flatMap fun p hp => ?_) ?_
  · exact comparesAs_partImage (ix.wf_of_mem hp) row row'
  · cases hh : t.tableHasHiddenPk with
    | true =>
      simp only [hiddenPk, hh, if_true, Option.getD_some]
      exact ComparesAs.of_length_eq (id.2.trans id'.2.symm)
    | false =>
      simp only [hiddenPk, hh, Bool.false_eq_true, if_false, Option.getD_none]
      exact ComparesAs.nil

/-- **Packing keeps the SQL order**: the keys of two rows compare as the rows do part by part, with
NULL first, and they are one key exactly if all parts compare equal. The hidden primary key, if
there is one, comes last. -/
theorem compare_packRecord (hc : ∀ p ∈ ix.parts, WholeColumn t.toTableShare p) (unset : ℕ)
    (m : Bool) (row row' : Row t.toTableShare) (id id' : HiddenPk) :
    let key := fun (row : Row t.toTableShare) (id : HiddenPk) =>
      (packRecord t.toTableShare (ix.keyDef unset) row.record m (t.hiddenPk id.1) 0).tuple
    compare (key row id) (key row' id')
        = (thenAll (ix.parts.map (sqlCmp t.toTableShare row.record row'.record))).then
          (if t.tableHasHiddenPk then compare id.1 id'.1 else .eq) ∧
      (key row id = key row' id' ↔
        (∀ p ∈ ix.parts, sqlCmp t.toTableShare row.record row'.record p = .eq) ∧
          (t.tableHasHiddenPk = true → id = id')) := by
  intro key
  have hcmp := ix.comparesAs_packRecord unset (m := m) (n := 0) (Or.inl rfl) row row' id id'
  have hparts : ix.parts.map (partCmp t.toTableShare row.record row'.record)
      = ix.parts.map (sqlCmp t.toTableShare row.record row'.record) :=
    map_congr_left fun p hp => partCmp_whole (ix.wf_of_mem hp).1 (hc p hp) row row'
  rw [hparts] at hcmp
  refine ⟨hcmp.compare_eq, hcmp.eq_iff.trans ?_⟩
  rw [Ordering.then_eq_eq, thenAll_eq_eq, forall_mem_map]
  refine and_congr_right fun _ => ?_
  cases hh : t.tableHasHiddenPk with
  | true => simp [Subtype.ext_iff]
  | false => simp

/-- In the sample, `b = 2` and `b = 300` compare as numbers. -/
theorem compare_packRecord_sample :
    let ix : Index sample := .secondary ⟨2, by decide, by decide⟩
    let row : Row sample.toTableShare :=
      ⟨fun i => ⟨false, [UInt8.ofNat (44 * i), UInt8.ofNat i, 0, 0]⟩, by decide⟩
    compare (packRecord sample.toTableShare (ix.keyDef 0) sampleRow.record true none 0).tuple
      (packRecord sample.toTableShare (ix.keyDef 0) row.record true none 0).tuple = .lt := by
  intro ix row
  have hc : ∀ p ∈ ix.parts, WholeColumn sample.toTableShare p := by
    intro p _
    exact trivial
  let id : HiddenPk := ⟨replicate myUuidSize 0, by decide⟩
  exact (ix.compare_packRecord hc 0 true sampleRow row id id).1.trans (by decide)

end Table.Index

end EloqSql
