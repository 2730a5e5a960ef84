import EloqSql.Handler
import EloqSql.KeyDef.Columns
import EloqSql.KeyDef.PrimaryKey
import EloqSql.RecordSchema.RoundTrip

/-!
# RecordSchema/KeyRecord — a row is its key and its payload

`PackKeyRecord` makes the packed primary key and the payload of a row, and `DecodeRecord` writes
both back into a record: `unpack_record` the columns of the key, then `Decode` those of the payload.
The columns of the key are there when `Decode` runs (`unpackedMem`), and the byte it may write over
the first of them is the one of the row, which is there already (`decoded_cases`).

A column is in the payload unless the whole of it is in the primary key, so nothing is lost exactly
if those columns come back from their key part (`decodeRecord_iff`).
-/

namespace EloqSql

open Memory FieldPacking List

/-! ## Columns as `unpack_record` writes them -/

namespace Field

variable {f : Field} {m : ℕ → UInt8} {ptr : ℕ}

/-- The bytes of a column: a `VARCHAR` has its length in front. -/
def columnBytes (f : Field) (v : Bytes) : Bytes :=
  match f.realType with
  | .varchar => leBytes f.lengthBytes v.length ++ v
  | _ => v

theorem columnBytes_value (hb : ∀ n, f.realType ≠ .blob n) :
    f.columnBytes (f.value m ptr) = load m ptr (f.columnBytes (f.value m ptr)).length := by
  cases hf : f.realType with
  | varchar =>
    have hlen := leBytes_leNat (load m ptr f.lengthBytes)
    rw [length_load] at hlen
    simp only [columnBytes, hf, value, length_load, length_append, length_leBytes]
    rw [dataLength, hlen, load_append]
  | blob n => exact absurd hf (hb n)
  | _ => simp only [columnBytes, hf, value, length_load]

/-- A column whose bytes are in their place has the value. -/
theorem value_of_columnBytes (hw : f.wfColumn = true) (hb : ∀ n, f.realType ≠ .blob n) {v : Bytes}
    (hv : f.validValue v = true) (h : load m ptr (f.columnBytes v).length = f.columnBytes v) :
    f.value m ptr = v := by
  cases hf : f.realType with
  | varchar =>
    simp only [columnBytes, hf] at h
    obtain ⟨hnum, hval⟩ := load_split h
    rw [length_leBytes] at hnum hval
    have hlen : f.dataLength m ptr = v.length := by
      rw [dataLength, hnum, leNat_leBytes_of_lt (length_lt_of_varchar hf hw hv)]
    rw [value_varchar hf, hlen, hval]
  | string =>
    have hlen : f.packLength = v.length := by
      simp only [packLength, hf, (validValue_string hf hv).1]
    simp only [columnBytes, hf] at h
    simp only [value, hf, hlen, h]
  | blob n => exact absurd hf (hb n)
  | _ =>
    have hlen := length_of_validValue (f := f) (by rw [hf]; rfl) hv
    simp only [columnBytes, hf] at h
    simp only [value, hf, ← hlen, h]

theorem length_columnBytes_le (hb : ∀ n, f.realType ≠ .blob n) {v : Bytes}
    (hv : f.validValue v = true) : (f.columnBytes v).length ≤ f.packLength := by
  cases hf : f.realType with
  | varchar =>
    have := (validValue_varchar hf hv).1
    simp only [columnBytes, hf, length_append, length_leBytes, packLength]
    omega
  | string =>
    simp only [columnBytes, hf, packLength, (validValue_string hf hv).1, le_refl]
  | blob n => exact absurd hf (hb n)
  | _ =>
    simp only [columnBytes, hf]
    exact (length_of_validValue (f := f) (by rw [hf]; rfl) hv).le

end Field

/-! ## `DecodeRecord` -/

/-- The columns that `unpack_record` writes. -/
def KeyDef.unpackedColumns (kd : KeyDef) : List ℕ :=
  kd.packInfo.filterMap fun fpi => if fpi.unpackFunc.isSome then fpi.fieldIdx else none

namespace RecordLayout

variable {t : TableShare} (l : RecordLayout t) (record : ℕ)

/-- A column is written as a cell. -/
def putCell (m : ℕ → UInt8) (i : ℕ) (c : Cell) : ℕ → UInt8 :=
  store (l.setNull m record i c.isNull) (l.ptr record i) ((t.field i).columnBytes c.bytes)

/-- `unpack_record`, into a record in memory. -/
def unpackRecord (kd : KeyDef) (defaults : ℕ → Bytes) (m : ℕ → UInt8)
    (packedKey unpackInfo : Bytes) : Option (ℕ → UInt8) :=
  (EloqSql.unpackRecord t kd defaults (l.cell m record) packedKey unpackInfo).map fun (r, _) =>
    kd.unpackedColumns.foldl (fun m i => l.putCell record m i (r i)) m

/-- `decode_flag_`. -/
structure DecodeFlag where
  decodePk : Bool
  decodePayload : Bool

variable (decodeSet : ℕ → Bool)

/-- The loop of `SetupDecodeFlagOnFirstRead` over the columns. -/
def setupDecodeFlagLoop : List ℕ → DecodeFlag → DecodeFlag
  | [], flag => flag
  | i :: fields, flag =>
    if l.storedInDb i = false then setupDecodeFlagLoop fields flag
    else if decodeSet i then
      if t.tableHasHiddenPk then { flag with decodePayload := true }
      else if t.partOfPk i then
        if flag.decodePayload then { flag with decodePk := true }
        else setupDecodeFlagLoop fields { flag with decodePk := true }
      else if flag.decodePk then { flag with decodePayload := true }
      else setupDecodeFlagLoop fields { flag with decodePayload := true }
    else setupDecodeFlagLoop fields flag

/-- `SetupDecodeFlagOnFirstRead`. -/
def setupDecodeFlag : DecodeFlag := l.setupDecodeFlagLoop decodeSet (range t.fields) ⟨false, false⟩

end RecordLayout

namespace Handler

variable (h : Handler) (l : RecordLayout h.table)

/-- `DecodeRecord`, for the payload of `rec` at the address `data`; none if `unpack_record` fails,
which is reported as `HA_ERR_TABLE_CORRUPT`. -/
def decodeRecord (decodeSet : ℕ → Bool) (defaults : ℕ → Bytes) (m : ℕ → UInt8) (record : ℕ)
    (key : Bytes) (rec : EloqRecord) (data : ℕ) : Option (ℕ → UInt8) :=
  let flag := l.setupDecodeFlag decodeSet
  let unpacked :=
    if !h.table.tableHasHiddenPk && flag.decodePk then
      l.unpackRecord record h.pkDescr defaults m key rec.unpackInfo
    else some m
  unpacked.map fun m =>
    if flag.decodePayload then
      ((EloqRecordSchema.ofTable l).decode l decodeSet m record data rec.encodedBlob).1
    else m

/-- `PackKeyRecord` of a record in memory. -/
def packKeyRecordOf {l : RecordLayout h.table.toTableShare} (src : l.RowBuffer) (uuid : Bytes) :
    Bytes × EloqRecord :=
  ({ h with encode := fun _ => src.encoded } : Handler).packKeyRecord src.row.record uuid

end Handler

/-! ## What is read back of a key -/

namespace Table

variable {t : Table}

theorem partOfPk_iff {p : KeyPartInfo} (hp : p ∈ t.pkParts) : t.partOfPk p.fieldIndex = true ↔
    (t.field p.fieldIndex).keyLength = p.length ∧
      ∀ n, (t.field p.fieldIndex).realType ≠ .blob n := by
  rw [TableShare.partOfPk, any_eq_true]
  simp only [Bool.and_eq_true, beq_iff_eq]
  constructor
  · rintro ⟨q, hq, ⟨hidx, hlen⟩, hb⟩
    obtain rfl := t.eq_of_mem_pkParts hq hp hidx
    refine ⟨hlen, fun n hn => ?_⟩
    simp [hn] at hb
  · rintro ⟨hlen, hb⟩
    refine ⟨p, hp, ⟨rfl, hlen⟩, ?_⟩
    split
    next n hn => exact absurd hn (hb n)
    next => rfl

theorem exists_of_partOfPk {i : ℕ} (h : t.partOfPk i = true) :
    ∃ p ∈ t.pkParts, p.fieldIndex = i := by
  obtain ⟨p, hp, h⟩ := any_eq_true.mp h
  simp only [Bool.and_eq_true, beq_iff_eq] at h
  exact ⟨p, hp, h.1.1⟩

/-- A primary key part that is not the whole column is a prefix. -/
theorem prefixPart_of_not_partOfPk {p : KeyPartInfo} (hp : p ∈ t.pkParts)
    (h : t.partOfPk p.fieldIndex = false) : (t.field p.fieldIndex).prefixPart p.length = true := by
  have hnot := mt (partOfPk_iff hp).mpr (by rw [h]; exact Bool.false_ne_true)
  have hw := (t.wf_of_mem_pkParts hp).2
  cases hf : (t.field p.fieldIndex).realType with
  | varchar =>
    simp only [Field.keyLength, hf, ne_eq, reduceCtorEq, not_false_eq_true, implies_true,
      and_true] at hnot
    simpa only [Field.prefixPart, hf, bne_iff_ne] using Ne.symm hnot
  | string =>
    simp only [Field.keyLength, Field.packLength, hf, ne_eq, reduceCtorEq, not_false_eq_true,
      implies_true, and_true] at hnot
    simpa only [Field.prefixPart, hf, bne_iff_ne] using Ne.symm hnot
  | blob n => simp only [Field.prefixPart, hf]
  | _ =>
    simp only [Field.keyLength, hf, ne_eq, reduceCtorEq, not_false_eq_true, implies_true,
      and_true] at hnot
    simp only [Field.wfPart, hf, Bool.and_eq_true, beq_iff_eq] at hw
    exact absurd (Eq.symm (by first | exact hw.2 | exact hw.2.2)) hnot

/-- **No column is lost**: it is left out of the payload and restored by its primary key part, or it
is in the payload and its primary key part, if there is one, is passed over. -/
def ColumnsKept (t : Table) (l : RecordLayout t.toTableShare) : Prop :=
  ∀ i < t.fields, l.storedInDb i = true →
    (i ∉ l.payload ∧ ∃ p ∈ t.pkParts, p.fieldIndex = i ∧ (t.field i).Restores i p.length) ∨
      (i ∈ l.payload ∧ ∀ p ∈ t.pkParts, p.fieldIndex = i → (t.field i).Skipped i p.length)

theorem columnsKept_iff (l : RecordLayout t) :
    t.ColumnsKept l ↔ ∀ i < t.fields, t.partOfPk i = true → (t.field i).Lossless := by
  have hrestores : ∀ {p}, p ∈ t.pkParts → t.partOfPk p.fieldIndex = true →
      ((t.field p.fieldIndex).Restores p.fieldIndex p.length ↔ (t.field p.fieldIndex).Lossless) :=
    fun hp h => restores_iff _ (t.wf_of_mem_pkParts hp).2 ((partOfPk_iff hp).mp h).1
  constructor
  · intro hkept i hi hpart
    obtain ⟨p, hp, rfl⟩ := exists_of_partOfPk hpart
    rcases hkept _ hi (l.pk_stored p hp) with ⟨-, q, hq, hidx, h⟩ | ⟨hin, -⟩
    · obtain rfl := t.eq_of_mem_pkParts hq hp hidx
      exact (hrestores hp hpart).mp h
    · rw [(l.mem_payload.mp hin).2.2] at hpart
      exact Bool.noConfusion hpart
  · intro hless i hi hs
    cases hpart : t.partOfPk i with
    | true =>
      obtain ⟨p, hp, rfl⟩ := exists_of_partOfPk hpart
      refine Or.inl ⟨fun hin => ?_, p, hp, rfl, (hrestores hp hpart).mpr (hless _ hi hpart)⟩
      rw [(l.mem_payload.mp hin).2.2] at hpart
      exact Bool.noConfusion hpart
    | false =>
      refine Or.inr ⟨l.mem_payload.mpr ⟨hi, hs, hpart⟩, ?_⟩
      rintro p hp rfl
      exact skipped_of_prefixPart _ (t.wf_of_mem_pkParts hp).2 (prefixPart_of_not_partOfPk hp hpart)

end Table

/-! ## `PackKeyRecord`, then `DecodeRecord` -/

namespace RecordLayout

variable {t : TableShare} {l : RecordLayout t} {decodeSet : ℕ → Bool}

variable (l decodeSet) in
theorem setupDecodeFlagLoop_mono : ∀ (fields : List ℕ) (flag : DecodeFlag),
    (flag.decodePk = true → (l.setupDecodeFlagLoop decodeSet fields flag).decodePk = true) ∧
    (flag.decodePayload = true → (l.setupDecodeFlagLoop decodeSet fields flag).decodePayload = true)
  | [], _ => ⟨id, id⟩
  | i :: fields, flag => by
      have ih := setupDecodeFlagLoop_mono fields
      simp only [setupDecodeFlagLoop]
      split_ifs
      · exact ih flag
      · exact ⟨id, fun _ => rfl⟩
      · exact ⟨fun _ => rfl, id⟩
      · exact ⟨fun _ => (ih _).1 rfl, fun h => (ih _).2 h⟩
      · exact ⟨id, fun _ => rfl⟩
      · exact ⟨fun h => (ih _).1 h, fun _ => (ih _).2 rfl⟩
      · exact ih flag

/-- A requested column that is stored sets the flag for the place it is in. -/
theorem setupDecodeFlagLoop_of_mem (decodeSet : ℕ → Bool) {i : ℕ} (hs : l.storedInDb i = true)
    (hr : decodeSet i = true) :
    ∀ {fields : List ℕ} (flag : DecodeFlag), i ∈ fields →
      (t.tableHasHiddenPk = false → t.partOfPk i = true →
        (l.setupDecodeFlagLoop decodeSet fields flag).decodePk = true) ∧
      (t.partOfPk i = false →
        (l.setupDecodeFlagLoop decodeSet fields flag).decodePayload = true)
  | j :: fields, flag, hi => by
      have hmono := setupDecodeFlagLoop_mono l decodeSet fields
      rcases mem_cons.mp hi with rfl | hi
      · simp only [setupDecodeFlagLoop, hs, hr, Bool.true_eq_false, if_false, if_true]
        split_ifs with hh hp hf hf
        · exact ⟨fun h => absurd (hh.symm.trans h) (by decide), fun _ => rfl⟩
        · exact ⟨fun _ _ => rfl, fun h => absurd (hp.symm.trans h) (by decide)⟩
        · exact ⟨fun _ _ => (hmono _).1 rfl, fun h => absurd (hp.symm.trans h) (by decide)⟩
        · exact ⟨fun _ h => absurd h hp, fun _ => rfl⟩
        · exact ⟨fun _ h => absurd h hp, fun _ => (hmono _).2 rfl⟩
      · have ih := fun flag => setupDecodeFlagLoop_of_mem decodeSet hs hr flag hi
        simp only [setupDecodeFlagLoop]
        split_ifs with h1 h2 hh hp hf hf
        · exact ih flag
        · exact ⟨fun h => absurd (hh.symm.trans h) (by decide), fun _ => rfl⟩
        · exact ⟨fun _ _ => rfl, fun _ => hf⟩
        · exact ih _
        · exact ⟨fun _ _ => hf, fun _ => rfl⟩
        · exact ih _
        · exact ih flag

end RecordLayout

namespace Table

variable {t : Table}

/-- The columns that are in the primary key and not in the payload. -/
def pkColumns (t : Table) : List ℕ := (t.pkParts.map (·.fieldIndex)).filter t.partOfPk

theorem mem_pkColumns {i : ℕ} : i ∈ t.pkColumns ↔ t.partOfPk i = true := by
  rw [pkColumns, mem_filter, and_iff_right_iff_imp, mem_map]
  exact fun h => exists_of_partOfPk h

theorem lt_of_mem_pkColumns {i : ℕ} (hi : i ∈ t.pkColumns) : i < t.fields := by
  obtain ⟨p, hp, rfl⟩ := exists_of_partOfPk (mem_pkColumns.mp hi)
  exact (t.wf_of_mem_pkParts hp).1

end Table

namespace RecordLayout

variable {t : Table} {l : RecordLayout t}

theorem stored_of_mem_pkColumns {i : ℕ} (hi : i ∈ t.pkColumns) :
    i < t.fields ∧ l.storedInDb i = true := by
  obtain ⟨p, hp, rfl⟩ := Table.exists_of_partOfPk (Table.mem_pkColumns.mp hi)
  exact ⟨(t.wf_of_mem_pkParts hp).1, l.pk_stored p hp⟩

theorem ne_of_mem_payload {i j : ℕ} (hi : i ∈ l.payload) (hj : j ∈ t.pkColumns) : i ≠ j := by
  rintro rfl
  exact Bool.noConfusion ((l.mem_payload.mp hi).2.2.symm.trans (Table.mem_pkColumns.mp hj))

theorem isNull_of_mem_pkColumns {i : ℕ} (hi : i ∈ t.pkColumns) (m : ℕ → UInt8) (record : ℕ) :
    l.isNull m record i = false := by
  obtain ⟨p, hp, rfl⟩ := Table.exists_of_partOfPk (Table.mem_pkColumns.mp hi)
  rw [isNull, t.maybeNull_of_mem_pkParts hp, Bool.false_and]

/-- No address is in two stored columns. -/
theorem not_covers_of_ne {i j : ℕ} (hi : i < t.fields ∧ l.storedInDb i = true)
    (hj : j < t.fields ∧ l.storedInDb j = true) (hne : i ≠ j) {x : ℕ}
    (hx : Covers (l.offset i) (t.field i).packLength x) :
    ¬ Covers (l.offset j) (t.field j).packLength x := by
  simp only [Covers] at hx ⊢
  rcases Nat.lt_or_gt_of_ne hne with h | h
  · have := l.offset_le j hj.1 i h hi.2
    omega
  · have := l.offset_le i hi.1 j h hj.2
    omega

namespace RowBuffer

variable (src : l.RowBuffer) (record : ℕ)

/-- What a part of the primary key is unpacked to, if the columns become some values. -/
def pkCell (t : Table) (w : ℕ → Bytes) (p : KeyPartInfo) : Option Cell :=
  if t.partOfPk p.fieldIndex then some ⟨false, w p.fieldIndex⟩ else none

/-- **The primary key of the row is unpacked to some values.** Their first bytes are those of the
row, which `Decode` may write again. -/
structure UnpacksTo (defaults : ℕ → Bytes) (w : ℕ → Bytes) : Prop where
  reads : ∀ p ∈ t.pkParts, Reads t.toTableShare defaults src.row.record p (pkCell t w p)
  valid : ∀ i ∈ t.pkColumns, (t.field i).validValue (w i) = true
  head : ∀ i ∈ t.pkColumns, ((t.field i).columnBytes (w i)).head?
    = ((t.field i).columnBytes (src.value i)).head?

/-- A part of the primary key is set up with its column, and is not NULL. -/
theorem packPart_pkPart {p : KeyPartInfo} (hp : p ∈ t.pkParts) :
    KeyDef.packPart t p = setup p.fieldIndex (t.field p.fieldIndex) p.length ∧
      src.isNull p.fieldIndex = false ∧
      src.row.record p.fieldIndex = ⟨false, src.value p.fieldIndex⟩ := by
  have hnull : src.isNull p.fieldIndex = false := by
    rw [isNull, RecordLayout.isNull, t.maybeNull_of_mem_pkParts hp, Bool.false_and]
  refine ⟨?_, hnull, ?_⟩
  · rw [KeyDef.packPart, t.not_cloned_of_mem_pkParts hp]
    rfl
  · rw [← hnull]
    rfl

/-- A part that is a prefix is passed over. -/
theorem reads_prefix (defaults : ℕ → Bytes) {p : KeyPartInfo} (hp : p ∈ t.pkParts)
    (h : t.partOfPk p.fieldIndex = false) : Reads t defaults src.row.record p none := by
  obtain ⟨hset, hnull, hcell⟩ := src.packPart_pkPart hp
  obtain ⟨hlt, hw⟩ := t.wf_of_mem_pkParts hp
  obtain ⟨hfunc, hskip⟩ := skipped_of_prefixPart p.fieldIndex hw
    (Table.prefixPart_of_not_partOfPk hp h)
  rw [Reads, packPartOf_packPart, hset, hcell]
  exact ⟨hfunc, hskip _ (src.validValue hlt hnull)⟩

/-- **The primary key is unpacked to the values of the row** if the columns that are not in the
payload are lossless. -/
theorem unpacksTo_value (hless : ∀ i < t.fields, t.partOfPk i = true → (t.field i).Lossless)
    (defaults : ℕ → Bytes) : src.UnpacksTo defaults src.value where
  reads p hp := by
    obtain ⟨hset, hnull, hcell⟩ := src.packPart_pkPart hp
    obtain ⟨hlt, hw⟩ := t.wf_of_mem_pkParts hp
    rw [pkCell]
    split_ifs with h
    · obtain ⟨func, hfunc, hdec⟩ := (restores_iff p.fieldIndex hw
        ((Table.partOfPk_iff hp).mp h).1).mpr (hless _ hlt h)
      rw [Reads, packPartOf_packPart, hset, hcell]
      exact ⟨func, hfunc, hdec _ (src.validValue hlt hnull) _⟩
    · exact src.reads_prefix defaults hp (Bool.eq_false_iff.mpr h)
  valid i hi := src.validValue (Table.lt_of_mem_pkColumns hi) (isNull_of_mem_pkColumns hi _ _)
  head _ _ := rfl

/-- The columns of the primary key as blocks of a record. -/
def pkBlocks (l : RecordLayout t.toTableShare) (w : ℕ → Bytes) (record : ℕ) : List (ℕ × Bytes) :=
  t.pkColumns.map fun i => (l.ptr record i, (t.field i).columnBytes (w i))

variable {src record} {w : ℕ → Bytes} (hw : ∀ i ∈ t.pkColumns, (t.field i).validValue (w i) = true)

theorem not_blob_of_mem_pkColumns {i : ℕ} (hi : i ∈ t.pkColumns) :
    ∀ n, (t.field i).realType ≠ .blob n := by
  obtain ⟨p, hp, rfl⟩ := Table.exists_of_partOfPk (Table.mem_pkColumns.mp hi)
  exact ((Table.partOfPk_iff hp).mp (Table.mem_pkColumns.mp hi)).2

include hw

theorem length_pkBlock {i : ℕ} (hi : i ∈ t.pkColumns) :
    ((t.field i).columnBytes (w i)).length ≤ (t.field i).packLength :=
  Field.length_columnBytes_le (not_blob_of_mem_pkColumns hi) (hw i hi)

/-- An address outside of the columns of the primary key. -/
theorem pkBlocks_outside {x : ℕ}
    (h : ∀ i ∈ t.pkColumns, ¬ Covers (l.ptr record i) (t.field i).packLength x) :
    ∀ b ∈ pkBlocks l w record, ¬ Covers b.1 b.2.length x := by
  intro b hb hc
  obtain ⟨i, hi, rfl⟩ := mem_map.mp hb
  have hle := length_pkBlock hw hi
  refine h i hi ?_
  simp only [Covers] at hc ⊢
  omega

theorem pkBlocks_pairwise : (pkBlocks l w record).Pairwise fun c d =>
    ∀ x, Covers c.1 c.2.length x → ¬ Covers d.1 d.2.length x := by
  have hnodup : t.pkColumns.Nodup := (pairwise_map.mpr t.pkParts_pairwise).filter _
  refine pairwise_map.mpr (hnodup.imp_of_mem fun {i j} hi hj hne x hx hx' => ?_)
  have hi' := length_pkBlock hw hi
  have hj' := length_pkBlock hw hj
  simp only [Covers, ptr] at hx hx'
  refine l.not_covers_of_ne (stored_of_mem_pkColumns hi) (stored_of_mem_pkColumns hj) hne
    (x := x - record) ?_ ?_
  · simp only [Covers]
    omega
  · simp only [Covers]
    omega

theorem storeAll_pkBlocks (record : ℕ) (m : ℕ → UInt8) {i k : ℕ} (hi : i ∈ t.pkColumns)
    (hk : k < ((t.field i).columnBytes (w i)).length) :
    storeAll m (pkBlocks l w record) (l.ptr record i + k) = ((t.field i).columnBytes (w i))[k] := by
  have hb : (l.ptr record i, (t.field i).columnBytes (w i)) ∈ pkBlocks l w record :=
    mem_map_of_mem hi
  exact storeAll_apply_of_mem hk hb (pkBlocks_pairwise hw)

/-- The payload is not in the way of the primary key. -/
theorem load_pkBlocks (dst : l.Target src.encoded) :
    load (storeAll dst.mem (pkBlocks l w dst.record)) dst.data src.encoded.length
      = src.encoded := by
  refine Eq.trans (load_congr fun k hk => storeAll_apply_of_outside (pkBlocks_outside hw ?_))
    dst.holds
  intro i hi hc
  have hle := l.offset_lt i (Table.lt_of_mem_pkColumns hi)
  have hapart := dst.apart
  simp only [Covers, ptr] at hc
  omega

/-- The record, with the columns of the primary key unpacked. -/
def unpacked (dst : l.Target src.encoded) : l.Target src.encoded where
  mem := storeAll dst.mem (pkBlocks l w dst.record)
  record := dst.record
  data := dst.data
  holds := load_pkBlocks hw dst
  apart := dst.apart
  data_lt := dst.data_lt

/-- A column that is in the payload keeps its bytes when the primary key is unpacked. -/
theorem unpacked_apply_of_payload (dst : l.Target src.encoded) {i k : ℕ} (hi : i ∈ l.payload)
    (hk : k < (t.field i).packLength) :
    (unpacked hw dst).mem (l.ptr dst.record i + k) = dst.mem (l.ptr dst.record i + k) := by
  obtain ⟨hlt, hs, -⟩ := l.mem_payload.mp hi
  refine storeAll_apply_of_outside (pkBlocks_outside hw fun j hj hc => ?_)
  refine l.not_covers_of_ne ⟨hlt, hs⟩ (stored_of_mem_pkColumns hj) (ne_of_mem_payload hi hj)
    (x := l.offset i + k) ?_ ?_
  · simp only [Covers]
    omega
  · simp only [Covers, ptr] at hc ⊢
    omega

/-- **A column of the primary key has its value after `Decode`**, too. -/
theorem value_decoded_unpacked (hhead : ∀ i ∈ t.pkColumns, ((t.field i).columnBytes (w i)).head?
      = ((t.field i).columnBytes (src.value i)).head?)
    (dst : l.Target src.encoded) (decodeSet : ℕ → Bool) {i : ℕ} (hi : i ∈ t.pkColumns) :
    (t.field i).value (src.decoded decodeSet (unpacked hw dst)) (l.ptr dst.record i) = w i := by
  obtain ⟨hlt, hs⟩ := stored_of_mem_pkColumns (l := l) hi
  have hb := not_blob_of_mem_pkColumns hi
  refine Field.value_of_columnBytes (l.column_wf i hlt) hb (hw i hi) ?_
  rw [load_eq_take le_rfl fun k _ hk => ?_, take_length]
  have hle : k < (t.field i).packLength := lt_of_lt_of_le hk (length_pkBlock hw hi)
  have hunpacked := storeAll_pkBlocks (l := l) hw dst.record dst.mem hi hk
  have hnot : ¬ src.InRequested decodeSet (l.offset i + k) := by
    rintro ⟨j, hj, -, -, hc⟩
    obtain ⟨hlt', hs', -⟩ := l.mem_payload.mp hj
    exact l.not_covers_of_ne ⟨hlt, hs⟩ ⟨hlt', hs'⟩ (ne_of_mem_payload hj hi).symm
      (x := l.offset i + k) ⟨Nat.le_add_right _ _, by omega⟩ hc
  have hnull : ∀ b, ¬ l.IsNullBit (l.offset i + k) b := by
    rintro b ⟨j, hj, hm, he, -⟩
    have := l.null_lt j (l.mem_payload.mp hj).1 i hlt hm
    omega
  by_cases hk0 : k = 0
  · -- the first byte is the one of the row in any case
    subst hk0
    rcases src.decoded_cases decodeSet (unpacked hw dst) hnot hnull with h | h
    · exact h.trans hunpacked
    · refine h.trans ?_
      have hfirst := hhead i hi
      rw [head?_eq_getElem?, getElem?_eq_getElem hk, head?_eq_getElem?, eq_comm,
        getElem?_eq_some_iff] at hfirst
      obtain ⟨hpos, hfirst⟩ := hfirst
      rw [← hfirst]
      exact (getElem_load _ _ _ 0 _).symm.trans (getElem_of_eq (Field.columnBytes_value hb) _).symm
  · refine Eq.trans (Bitmap.eq_of_testBit fun b _ => ?_) hunpacked
    rw [ptr, Nat.add_assoc]
    refine src.testBit_decoded decodeSet (unpacked hw dst) hnot (hnull b) fun j hj _ _ _ he => ?_
    obtain ⟨hlt', hs', -⟩ := l.mem_payload.mp hj
    rcases Nat.lt_or_gt_of_ne (ne_of_mem_payload hj hi) with hij | hij
    · have := l.offset_le i hlt j hij hs'
      omega
    · have := l.offset_le j hlt' i hij hs
      omega

end RowBuffer

end RecordLayout

namespace Handler

open RecordLayout RowBuffer

variable (h : Handler) {l : RecordLayout h.table} (src : l.RowBuffer)

theorem pkDescr_packInfo (hh : h.table.tableHasHiddenPk = false) :
    h.pkDescr.packInfo = h.table.pkParts.map (KeyDef.packPart h.table) := by
  rw [pkDescr, TableShare.pkParts]
  cases hpk : h.table.primaryKey with
  | none => simp [TableShare.tableHasHiddenPk, hpk] at hh
  | some pk => rfl

theorem unpackedColumns_pkDescr (hh : h.table.tableHasHiddenPk = false) {defaults w : ℕ → Bytes}
    (hu : src.UnpacksTo defaults w) : h.pkDescr.unpackedColumns = h.table.pkColumns := by
  rw [KeyDef.unpackedColumns, h.pkDescr_packInfo hh, Table.pkColumns, filterMap_map,
    ← filterMap_eq_filter, filterMap_map]
  refine filterMap_congr fun p hp => ?_
  have hidx : (KeyDef.packPart h.table p).fieldIdx = some p.fieldIndex :=
    (setup_eq _ _ _).1
  have hp := hu.reads p hp
  simp only [Function.comp_apply, Option.guard, hidx]
  rw [pkCell] at hp
  by_cases hpart : h.table.partOfPk p.fieldIndex = true
  · rw [if_pos hpart] at hp
    obtain ⟨func, hfunc, -⟩ := hp
    rw [hfunc, if_pos hpart]
    rfl
  · rw [if_neg hpart] at hp
    rw [hp.1, if_neg hpart]
    rfl

theorem foldl_putCell (l : RecordLayout h.table) {record : ℕ} {r : Record}
    {w : ℕ → Bytes} : ∀ {is : List ℕ} {m : ℕ → UInt8},
    (∀ i ∈ is, (h.table.field i).maybeNull = false ∧ r i = ⟨false, w i⟩) →
      is.foldl (fun m i => l.putCell record m i (r i)) m
        = storeAll m (is.map fun i => (l.ptr record i, (h.table.field i).columnBytes (w i)))
  | [], _, _ => rfl
  | i :: is, m, hi => by
      obtain ⟨hn, hr⟩ := hi i mem_cons_self
      have hput : l.putCell record m i (r i)
          = store m (l.ptr record i) ((h.table.field i).columnBytes (w i)) := by
        rw [putCell, setNull, hn, if_neg Bool.false_ne_true, hr]
      rw [foldl_cons, hput, foldl_putCell l fun j hj => hi j (mem_cons_of_mem i hj)]
      rfl

/-- The unpack info of a primary key is not too long for its length. -/
theorem length_infoParts_pkParts (r : Record) :
    (infoParts h.table r
      (h.table.pkParts.map (KeyDef.packPart h.table))).length + 2 < 65536 := by
  have hle : (infoParts h.table r (h.table.pkParts.map
      (KeyDef.packPart h.table))).length
        ≤ (2 + maxSupportedKeyLength) * h.table.pkParts.length := by
    refine length_infoParts_le fun p hp => ?_
    have hlen := (h.table.wf_of_mem_pkParts hp).2
    simp only [Field.wfPart, Bool.and_eq_true, decide_eq_true_eq] at hlen
    rw [packPartOf_packPart, KeyDef.packPart, h.table.not_cloned_of_mem_pkParts hp]
    exact (length_packField_snd_le _ _ _).trans (Nat.add_le_add_left hlen.1.2 2)
  have hparts := h.table.length_pkParts_le
  simp only [maxSupportedKeyLength, maxRefParts] at hle hparts
  omega

variable {src} {defaults w : ℕ → Bytes} (hu : src.UnpacksTo defaults w)

include hu

/-- **`unpack_record` of the primary key** writes the columns that are not in the payload. -/
theorem unpackRecord_pkDescr (hh : h.table.tableHasHiddenPk = false) (dst : l.Target src.encoded) :
    l.unpackRecord dst.record h.pkDescr defaults dst.mem (h.packPk src.row.record).tuple
      (h.packPk src.row.record).unpackInfo = some (unpacked hu.valid dst).mem := by
  rw [RecordLayout.unpackRecord, h.unpackedColumns_pkDescr src hh hu]
  cases hpk : h.table.primaryKey with
  | none => simp [TableShare.tableHasHiddenPk, hpk] at hh
  | some pk =>
    have hparts : h.table.pkParts = (Table.Index.primary pk hpk).parts := by
      rw [TableShare.pkParts, hpk]
      rfl
    have hdescr : h.pkDescr = (Table.Index.primary pk hpk).keyDef 0 := by
      rw [pkDescr, hpk]
      rfl
    have hhidden : h.table.hiddenPk (replicate myUuidSize 0) = none := by
      rw [Table.hiddenPk, hh, if_neg Bool.false_ne_true]
    have hun := (Table.Index.primary pk hpk).unpackRecord_reads (hparts ▸ hu.reads)
      (hparts ▸ h.length_infoParts_pkParts src.row.record) 0 false
      ⟨replicate myUuidSize 0, by decide⟩ (l.cell dst.mem dst.record)
    rw [hhidden, ← hdescr, ← hparts] at hun
    rw [packPk, hun]
    refine congrArg some (h.foldl_putCell l fun i hi => ?_)
    obtain ⟨p, hp, rfl⟩ := Table.exists_of_partOfPk (Table.mem_pkColumns.mp hi)
    have hcell : pkCell h.table w p = some ⟨false, w p.fieldIndex⟩ :=
      if_pos (Table.mem_pkColumns.mp hi)
    refine ⟨h.table.maybeNull_of_mem_pkParts hp, putParts_of_some hcell hp fun q hq he => ?_⟩
    rw [h.table.eq_of_mem_pkParts hq hp he]
    exact Or.inr hcell

theorem unpacked_mem_of_nil (hnil : h.table.pkColumns = []) (dst : l.Target src.encoded) :
    (unpacked hu.valid dst).mem = dst.mem := by
  simp [unpacked, pkBlocks, hnil, storeAll]

/-- **`DecodeRecord` of all columns** unpacks the primary key and decodes the payload; what a flag
leaves out would change nothing. -/
theorem decodeRecord_eq (dst : l.Target src.encoded) (uuid : Bytes) :
    h.decodeRecord l (fun _ => true) defaults dst.mem dst.record (h.packKeyRecordOf src uuid).1
        (h.packKeyRecordOf src uuid).2 dst.data
      = some (src.decoded (fun _ => true) (unpacked hu.valid dst)) := by
  have hflag : ∀ i < h.table.fields, l.storedInDb i = true → _ := fun i hi hs =>
    setupDecodeFlagLoop_of_mem (fun _ => true) hs rfl ⟨false, false⟩
      (mem_range.mpr hi)
  have hkey : (if (!h.table.tableHasHiddenPk && (l.setupDecodeFlag fun _ => true).decodePk)
      = true then
      l.unpackRecord dst.record h.pkDescr defaults dst.mem (h.packKeyRecordOf src uuid).1
        (h.packKeyRecordOf src uuid).2.unpackInfo
    else some dst.mem) = some (unpacked hu.valid dst).mem := by
    cases hh : h.table.tableHasHiddenPk with
    | true =>
      have hnil : h.table.pkColumns = [] := by
        have hnone : h.table.primaryKey = none := Option.isNone_iff_eq_none.mp hh
        rw [Table.pkColumns, TableShare.pkParts, hnone]
        rfl
      rw [h.unpacked_mem_of_nil hu hnil]
      rfl
    | false =>
      have hpacked : h.packKeyRecordOf src uuid = ((h.packPk src.row.record).tuple,
          ⟨src.encoded, (h.packPk src.row.record).unpackInfo⟩) := by
        simp only [packKeyRecordOf, packKeyRecord, hh, Bool.false_eq_true, if_false]
        rfl
      rw [hpacked]
      cases hf : (l.setupDecodeFlag fun _ => true).decodePk with
      | true => exact h.unpackRecord_pkDescr hu hh dst
      | false =>
        have hnil : h.table.pkColumns = [] := by
          refine eq_nil_iff_forall_not_mem.mpr fun i hi => ?_
          obtain ⟨hlt, hs⟩ := stored_of_mem_pkColumns (l := l) hi
          rw [setupDecodeFlag, (hflag i hlt hs).1 hh (Table.mem_pkColumns.mp hi)] at hf
          exact Bool.noConfusion hf
        rw [h.unpacked_mem_of_nil hu hnil]
        rfl
  have hblob : (h.packKeyRecordOf src uuid).2.encodedBlob = src.encoded := by
    simp only [packKeyRecordOf, packKeyRecord]
    split <;> rfl
  simp only [decodeRecord, hkey, Option.map_some, hblob]
  split
  · rfl
  · rename_i hf
    have hnil : l.payload = [] := by
      refine eq_nil_iff_forall_not_mem.mpr fun i hi => hf ?_
      obtain ⟨hlt, hs, hpart⟩ := l.mem_payload.mp hi
      exact (hflag i hlt hs).2 hpart
    rw [decoded_eq, hnil]
    rfl

/-- **What `DecodeRecord` leaves in a column**: what the primary key is unpacked to, or the column
of the row. -/
theorem cell_decodeRecord (dst : l.Target src.encoded) {i : ℕ} (hi : i < h.table.fields)
    (hs : l.storedInDb i = true) :
    let m := src.decoded (fun _ => true) (unpacked hu.valid dst)
    l.isNull m dst.record i = src.isNull i ∧
      (h.table.partOfPk i = true → (h.table.field i).value m (l.ptr dst.record i) = w i) ∧
      (h.table.partOfPk i = false → src.isNull i = false →
        ((h.table.field i).value m (l.ptr dst.record i) = src.value i ↔
          src.ComesBack dst.mem dst.record i)) := by
  intro m
  cases hpart : h.table.partOfPk i with
  | true =>
    have hmem := Table.mem_pkColumns.mpr hpart
    refine ⟨?_, fun _ => src.value_decoded_unpacked hu.valid hu.head dst _ hmem,
      fun h => Bool.noConfusion h⟩
    rw [isNull_of_mem_pkColumns hmem]
    exact (isNull_of_mem_pkColumns hmem _ _).symm
  | false =>
    have hmem := l.mem_payload.mpr ⟨hi, hs, hpart⟩
    obtain ⟨is, js, hsplit, -, hjs⟩ := EloqRecordSchema.split_payload hmem
    refine ⟨?_, fun h => Bool.noConfusion h, fun _ hn => ?_⟩
    · rw [show m = _ from decoded_eq _ _ _]
      exact EloqRecordSchema.isNull_restoreAll hsplit hjs _ _
    · refine (src.value_decoded_iff (fun _ => true) _ hmem rfl hn).trans
        (and_congr_left' (imp_congr_right fun hd => ?_))
      have hpl : (h.table.field i).packLength = 8 := by simp only [Field.packLength, hd]
      have hload : load (unpacked hu.valid dst).mem (l.ptr dst.record i + 5) 3
          = load dst.mem (l.ptr dst.record i + 5) 3 := load_congr fun k hk => by
        rw [Nat.add_assoc]
        exact unpacked_apply_of_payload hu.valid dst hmem (by omega)
      rw [← hload]
      rfl

omit hu

variable (src)

/-- **No column is lost between key and payload**: every stored column is restored by its primary
key part or in the payload, and `DecodeRecord` of what `PackKeyRecord` makes of a row gives every
stored column back — exactly if the columns that are left out of the payload are lossless, and every
column of the payload that is not NULL comes back. -/
theorem decodeRecord_iff (dst : l.Target src.encoded) (uuid : Bytes) (defaults : ℕ → Bytes) :
    let packed := h.packKeyRecordOf src uuid
    (h.table.ColumnsKept l ∧ ∃ m,
      h.decodeRecord l (fun _ => true) defaults dst.mem dst.record packed.1 packed.2 dst.data
          = some m ∧
        ∀ i < h.table.fields, l.storedInDb i = true →
          l.isNull m dst.record i = src.isNull i ∧ (src.isNull i = false →
            (h.table.field i).value m (l.ptr dst.record i) = src.value i)) ↔
    (∀ i < h.table.fields, h.table.partOfPk i = true → (h.table.field i).Lossless) ∧
      ∀ i ∈ l.payload, src.isNull i = false → src.ComesBack dst.mem dst.record i := by
  intro packed
  rw [Table.columnsKept_iff]
  refine and_congr_right fun hless => ?_
  have hu := src.unpacksTo_value hless defaults
  rw [h.decodeRecord_eq hu]
  simp only [Option.some.injEq, exists_eq_left']
  constructor
  · intro hall i hi hn
    obtain ⟨hlt, hs, hpart⟩ := l.mem_payload.mp hi
    exact ((h.cell_decodeRecord hu dst hlt hs).2.2 hpart hn).mp ((hall i hlt hs).2 hn)
  · intro hold i hlt hs
    obtain ⟨hnull, hpk, hpay⟩ := h.cell_decodeRecord hu dst hlt hs
    refine ⟨hnull, fun hn => ?_⟩
    cases hpart : h.table.partOfPk i with
    | true => exact hpk hpart
    | false => exact (hpay hpart hn).mpr (hold i (l.mem_payload.mpr ⟨hlt, hs, hpart⟩) hn)

/-! ### A primary key of the old format -/

/-- `CREATE TABLE t (d DATETIME PRIMARY KEY)`, with `mysql56_temporal_format=OFF`. -/
def dateKeyTable : TableShare where
  fields := 1
  field _ := ⟨.datetime 0, false, 19, false, .binary⟩
  keyInfo := [⟨true, [⟨0, 8, false⟩], [⟨0, 8, false⟩]⟩]
  primaryKey := some 0

def dateKeySample : Handler :=
  ⟨dateKeyTable.toTable (by decide), fun _ => 0, fun _ => [], [], true, 0⟩

def dateKeyLayout : RecordLayout dateKeySample.table.toTableShare where
  storedInDb _ := true
  offset _ := 1
  nullOffset _ := 0
  nullBit _ := 0
  reclength := 9
  storeReal := RecordLayout.RowBuffer.datetimeLayout.storeReal
  length_storeReal := RecordLayout.RowBuffer.datetimeLayout.length_storeReal
  null_inj _ _ _ _ h := Bool.noConfusion h

/-- The row `('2024-01-02 03:04:05')`. -/
def dateKeyRow : dateKeyLayout.RowBuffer where
  mem x := [255, 69, 124, 23, 132, 104, 18, 0, 0].getD x 0
  record := 0

/-- The column is in the key only, which has no unpack function for it: nothing of the row comes
back into a record of zeros. -/
theorem decodeRecord_dateKey :
    let packed := dateKeySample.packKeyRecordOf dateKeyRow []
    dateKeyLayout.payload = [] ∧ dateKeyRow.value 0 = [69, 124, 23, 132, 104, 18, 0, 0] ∧
      dateKeySample.pkDescr.packInfo.map (·.unpackFunc) = [none] ∧
      (dateKeySample.decodeRecord dateKeyLayout (fun _ => true) (fun _ => [])
        (fun _ => 0) 0 packed.1
        packed.2 100).map (fun m => load m 1 8) = some [0, 0, 0, 0, 0, 0, 0, 0] := by
  decide +kernel

end Handler

end EloqSql
