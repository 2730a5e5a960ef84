import EloqSql.RecordSchema.Decode

/-!
# RecordSchema/RoundTrip — what `Decode` leaves in a record

Columns are in the record in the order they are decoded in. The byte that is written behind a wide
column is therefore the first of a column to come, and is written over if that one is requested; so
every requested column that `ComesBack` has its value again (`decode_encode_iff`), but not every
byte that is not requested is left alone (`decode_frame_iff`).

A bit of the memory is followed through the loop: a column leaves it alone unless it is its NULL bit
or among the bytes that are written for it (`testBit_restore`).
-/

namespace EloqSql

open Memory List
open Bitmap (eq_of_testBit testBit)
open RecordLayout (isNull ptr setNull)

namespace EloqRecordSchema

variable {t : TableShare} {l : RecordLayout t}

/-! ## Columns and their neighbours -/

/-- How many bytes `Decode` may write over a column. -/
def reach (f : Field) : ℕ := f.packLength + if f.realType.wide then 1 else 0

theorem payload_pairwise (l : RecordLayout t) : l.payload.Pairwise (· < ·) :=
  pairwise_lt_range.filter _

theorem ptr_add_le {i j : ℕ} (hi : i ∈ l.payload) (hj : j ∈ l.payload) (h : i < j) (record : ℕ) :
    l.ptr record i + (t.field i).packLength ≤ l.ptr record j := by
  have := l.offset_le j (l.mem_payload.mp hj).1 i h (l.mem_payload.mp hi).2.1
  simp only [ptr]
  omega

theorem null_lt_ptr {i j : ℕ} (hi : i ∈ l.payload) (hj : j ∈ l.payload)
    (hn : (t.field i).maybeNull = true) (record : ℕ) :
    record + l.nullOffset i < l.ptr record j := by
  have := l.null_lt i (l.mem_payload.mp hi).1 j (l.mem_payload.mp hj).1 hn
  simp only [ptr]
  omega

section Restore

variable (src : l.RowBuffer) (decodeSet : ℕ → Bool) (record data : ℕ)

theorem restoreAll_append : ∀ (is js : List ℕ) (off : ℕ) (m : ℕ → UInt8),
    restoreAll src decodeSet record data (is ++ js) off m
      = restoreAll src decodeSet record data js (off + (is.flatMap src.bytes).length)
          (restoreAll src decodeSet record data is off m)
  | [], js, off, m => by simp [restoreAll]
  | i :: is, js, off, m => by
      rw [cons_append, restoreAll, restoreAll_append is js, restoreAll, flatMap_cons,
        length_append, Nat.add_assoc]

/-- The bit is not the NULL bit of a column, and not among the bytes that are written for it. -/
def Outside (x b i : ℕ) : Prop :=
  ((t.field i).maybeNull = true → x = record + l.nullOffset i → b ≠ l.nullBit i) ∧
    (written src decodeSet i = true → ¬ Covers (l.ptr record i) (reach (t.field i)) x)

variable {src decodeSet record data}

theorem setNull_apply_self {i : ℕ} (hn : (t.field i).maybeNull = true) (m : ℕ → UInt8) (v : Bool) :
    l.setNull m record i v (record + l.nullOffset i)
      = Bitmap.withBit v (l.nullBit i) (m (record + l.nullOffset i)) := by
  rw [setNull, if_pos hn]
  exact store_apply m (record + l.nullOffset i) [_] 0

theorem setNull_apply_of_ne {i x : ℕ}
    (h : (t.field i).maybeNull = true → x ≠ record + l.nullOffset i) (m : ℕ → UInt8) (v : Bool) :
    l.setNull m record i v x = m x := by
  rw [setNull]
  split
  · rename_i hn
    have := h hn
    exact store_apply_of_outside (by simp only [Covers, length_singleton]; omega)
  · rfl

theorem testBit_setNull {i x b : ℕ} (hi : i < t.fields) (m : ℕ → UInt8) (v : Bool)
    (h : (t.field i).maybeNull = true → x = record + l.nullOffset i → b ≠ l.nullBit i) :
    testBit (l.setNull m record i v x) b = testBit (m x) b := by
  by_cases hx : (t.field i).maybeNull = true ∧ x = record + l.nullOffset i
  · obtain ⟨hn, rfl⟩ := hx
    rw [setNull_apply_self hn, Bitmap.testBit_withBit v (l.nullBit_lt i hi), if_neg (h hn rfl)]
  · rw [setNull_apply_of_ne fun hn he => hx ⟨hn, he⟩]

theorem restore_apply_of_not_covers {i x off : ℕ} (hi : i < t.fields) {m : ℕ → UInt8}
    (h : written src decodeSet i = true → ¬ Covers (l.ptr record i) (reach (t.field i)) x) :
    restore src decodeSet record data i off m x = l.setNull m record i (src.isNull i) x := by
  rw [restore]
  split
  · rename_i hw
    have hn : src.isNull i = false := by
      simp only [written, Bool.and_eq_true, Bool.not_eq_true'] at hw
      exact hw.2
    have hle : ((t.field i).image (l.storeReal i) src.mem (l.ptr src.record i) (data + off)).length
        ≤ reach (t.field i) :=
      length_image_le (l.length_storeReal i) (l.column_wf i hi) (src.validValue hi hn) _
    have hout := h hw
    simp only [Covers] at hout
    exact store_apply_of_outside (by simp only [Covers]; omega)
  · rfl

/-- **A column leaves every bit alone that is outside of it.** -/
theorem testBit_restore {i x b off : ℕ} (hi : i < t.fields) (m : ℕ → UInt8)
    (h : Outside src decodeSet record x b i) :
    testBit (restore src decodeSet record data i off m x) b = testBit (m x) b := by
  rw [restore_apply_of_not_covers hi h.2, testBit_setNull hi m _ h.1]

/-- A loop over columns leaves every bit alone that is outside of all of them. -/
theorem testBit_restoreAll {x b : ℕ} : ∀ {is : List ℕ} {off : ℕ} {m : ℕ → UInt8},
    (∀ i ∈ is, i < t.fields) → (∀ i ∈ is, Outside src decodeSet record x b i) →
    testBit (restoreAll src decodeSet record data is off m x) b = testBit (m x) b
  | [], _, _, _, _ => rfl
  | i :: is, off, m, hlt, hout => by
      rw [restoreAll, testBit_restoreAll (fun j hj => hlt j (mem_cons_of_mem _ hj))
        (fun j hj => hout j (mem_cons_of_mem _ hj)),
        testBit_restore (hlt i mem_cons_self) m (hout i mem_cons_self)]

/-- A column among those of the payload: those before it and those after it. -/
theorem split_payload {i : ℕ} (hi : i ∈ l.payload) : ∃ is js, l.payload = is ++ i :: js ∧
    (∀ j ∈ is, j ∈ l.payload ∧ j < i) ∧ ∀ j ∈ js, j ∈ l.payload ∧ i < j := by
  obtain ⟨is, js, h⟩ := append_of_mem hi
  have hp := payload_pairwise l
  rw [h, pairwise_append] at hp
  refine ⟨is, js, h, fun j hj => ⟨?_, hp.2.2 j hj i mem_cons_self⟩, fun j hj => ⟨?_, ?_⟩⟩
  · rw [h]
    exact mem_append_left _ hj
  · rw [h]
    exact mem_append_right _ (mem_cons_of_mem _ hj)
  · exact rel_of_pairwise_cons hp.2.1 hj

/-- An address of a column is that of no NULL bit. -/
theorem ptr_ne_null {i : ℕ} (hi : i ∈ l.payload) (record k : ℕ) :
    ∀ j ∈ l.payload, (t.field j).maybeNull = true →
      l.ptr record i + k ≠ record + l.nullOffset j := by
  intro j hj hn
  have := null_lt_ptr hj hi hn record
  omega

section Own

variable {i : ℕ} {is js : List ℕ} (h : l.payload = is ++ i :: js)
  (his : ∀ j ∈ is, j ∈ l.payload ∧ j < i) (hjs : ∀ j ∈ js, j ∈ l.payload ∧ i < j)
  (off : ℕ) (m : ℕ → UInt8)

include h hjs

/-- **The NULL bit of a column is the one of the row.** -/
theorem isNull_restoreAll :
    l.isNull (restoreAll src decodeSet record data l.payload off m) record i = src.isNull i := by
  have hi : i ∈ l.payload := by rw [h]; simp
  have hlt := (l.mem_payload.mp hi).1
  cases hn : (t.field i).maybeNull with
  | false => simp [isNull, RecordLayout.RowBuffer.isNull, hn]
  | true =>
    rw [isNull, hn, Bool.true_and, h, restoreAll_append, restoreAll,
      testBit_restoreAll (fun j hj => (l.mem_payload.mp (hjs j hj).1).1) fun j hj => ?_]
    · have hout : written src decodeSet i = true → ¬ Covers (l.ptr record i) (reach (t.field i))
          (record + l.nullOffset i) := fun _ hc => by
        have := null_lt_ptr hi hi hn record
        simp only [Covers] at hc
        omega
      rw [restore_apply_of_not_covers hlt hout, setNull_apply_self hn,
        Bitmap.testBit_withBit _ (l.nullBit_lt i hlt), if_pos rfl]
    · obtain ⟨hj, hij⟩ := hjs j hj
      refine ⟨fun hm hx hb => ?_, fun _ hc => ?_⟩
      · have := l.null_inj i hlt j (l.mem_payload.mp hj).1 hn hm (by omega) hb
        omega
      · have := null_lt_ptr hi hj hn record
        simp only [Covers] at hc
        omega

/-- **The image of a column is in its place**, as far as no later column is over it. -/
theorem restoreAll_apply_image (record data : ℕ) (hw : written src decodeSet i = true) {k : ℕ}
    (hk : k < ((t.field i).image (l.storeReal i) src.mem (l.ptr src.record i)
      (data + (off + (is.flatMap src.bytes).length))).length)
    (hc : ∀ j ∈ js, written src decodeSet j = true →
      ¬ Covers (l.ptr record j) (reach (t.field j)) (l.ptr record i + k)) :
    restoreAll src decodeSet record data l.payload off m (l.ptr record i + k)
      = ((t.field i).image (l.storeReal i) src.mem (l.ptr src.record i)
          (data + (off + (is.flatMap src.bytes).length)))[k] := by
  have hi : i ∈ l.payload := by rw [h]; simp
  have hnull := ptr_ne_null hi record k
  refine eq_of_testBit fun b _ => ?_
  rw [h, restoreAll_append, restoreAll,
    testBit_restoreAll (fun j hj => (l.mem_payload.mp (hjs j hj).1).1) fun j hj =>
      ⟨fun hm hx => absurd hx (hnull j (hjs j hj).1 hm), hc j hj⟩,
    restore, if_pos hw, store_apply, getElem?_eq_getElem hk, Option.getD_some]

include his

/-- A byte of a column that its image does not have keeps its content. -/
theorem restoreAll_apply_rest {k : ℕ} (hpos : 0 < k) (hlt : k < (t.field i).packLength)
    (hk : ((t.field i).image (l.storeReal i) src.mem (l.ptr src.record i)
      (data + (off + (is.flatMap src.bytes).length))).length ≤ k) :
    restoreAll src decodeSet record data l.payload off m (l.ptr record i + k)
      = m (l.ptr record i + k) := by
  have hi : i ∈ l.payload := by rw [h]; simp
  have hnull := ptr_ne_null hi record k
  refine eq_of_testBit fun b _ => ?_
  rw [h, restoreAll_append, restoreAll,
    testBit_restoreAll (fun j hj => (l.mem_payload.mp (hjs j hj).1).1) fun j hj => ?_]
  · have hself : ∀ m, restore src decodeSet record data i (off + (is.flatMap src.bytes).length) m
        (l.ptr record i + k) = m (l.ptr record i + k) := fun m => by
      rw [restore]
      split
      · rw [store_apply_of_outside (by simp only [Covers]; omega),
          setNull_apply_of_ne (hnull i hi)]
      · exact setNull_apply_of_ne (hnull i hi) _ _
    rw [hself, testBit_restoreAll (fun j hj => (l.mem_payload.mp (his j hj).1).1) fun j hj => ?_]
    refine ⟨fun hm hx => absurd hx (hnull j (his j hj).1 hm), fun _ hc => ?_⟩
    have := ptr_add_le (his j hj).1 hi (his j hj).2 record
    simp only [Covers, reach] at hc
    split at hc <;> omega
  · refine ⟨fun hm hx => absurd hx (hnull j (hjs j hj).1 hm), fun _ hc => ?_⟩
    have := ptr_add_le hi (hjs j hj).1 (hjs j hj).2 record
    simp only [Covers] at hc
    omega

end Own

end Restore

end EloqRecordSchema

/-! ## The record after `Decode` -/

/-- A record buffer that a payload is decoded into: the payload is elsewhere in the memory. A record
buffer has room for one byte more than a record. -/
structure RecordLayout.Target {t : TableShare} (l : RecordLayout t) (buf : Bytes) where
  mem : ℕ → UInt8
  record : ℕ
  /-- `buf.data()`. -/
  data : ℕ
  holds : load mem data buf.length = buf := by decide +kernel
  apart : data + buf.length ≤ record ∨ record + l.reclength + 1 ≤ data := by decide +kernel
  data_lt : data + buf.length < 2 ^ 64 := by decide +kernel

/-- A bit of the record is the NULL bit of a column of the payload. -/
def RecordLayout.IsNullBit {t : TableShare} (l : RecordLayout t) (x b : ℕ) : Prop :=
  ∃ i ∈ l.payload, (t.field i).maybeNull = true ∧ x = l.nullOffset i ∧ b = l.nullBit i

namespace RecordLayout.RowBuffer

variable {t : TableShare} {l : RecordLayout t} (src : l.RowBuffer) (decodeSet : ℕ → Bool)

/-- The payload of the row. -/
def encoded : Bytes := (EloqRecordSchema.ofTable l).encode l src.mem src.record

variable (dst : l.Target src.encoded)

/-- The memory after the first columns of the table are decoded, and the offset in the payload. -/
def decodedUpTo (j : ℕ) : (ℕ → UInt8) × ℕ :=
  (EloqRecordSchema.ofTable l).decodeLoop l decodeSet dst.record dst.data src.encoded
    (range j) 0 0 (dst.mem, (EloqRecordSchema.ofTable l).bitmapBytes)

/-- The memory after the payload is decoded. -/
def decoded : ℕ → UInt8 :=
  ((EloqRecordSchema.ofTable l).decode l decodeSet dst.mem dst.record dst.data src.encoded).1

open EloqRecordSchema

theorem decoded_eq : src.decoded decodeSet dst
    = restoreAll src decodeSet dst.record dst.data l.payload (ofTable l).bitmapBytes dst.mem :=
  congrArg Prod.fst (decodeLoop_encode src decodeSet dst.record dst.data dst.mem le_rfl)

/-- Every address of the record that `Decode` writes to is in the record, or just behind it. -/
theorem outside_of_apart {x b i : ℕ} (hi : i ∈ l.payload)
    (hx : x < dst.record ∨ dst.record + l.reclength + 1 ≤ x) :
    Outside src decodeSet dst.record x b i := by
  have hlt := (l.mem_payload.mp hi).1
  have hle := l.offset_lt i hlt
  refine ⟨fun hn he => ?_, fun _ hc => ?_⟩
  · have := l.null_lt i hlt i hlt hn
    omega
  · simp only [Covers, reach, ptr] at hc
    split at hc <;> omega

/-- The payload is not touched. -/
theorem load_decoded_data : load (src.decoded decodeSet dst) dst.data src.encoded.length
    = src.encoded := by
  refine Eq.trans (load_congr fun k hk => eq_of_testBit fun b _ => ?_) dst.holds
  rw [decoded_eq, testBit_restoreAll (fun i hi => (l.mem_payload.mp hi).1) fun i hi => ?_]
  refine src.outside_of_apart decodeSet dst hi ?_
  have := dst.apart
  omega

/-- **What a column of the row needs to come back**: the last three bytes of a `DATETIME` of the old
format are in the record already, and `Field::store` leaves a `FLOAT` or `DOUBLE` as it is. -/
def ComesBack (mem : ℕ → UInt8) (record i : ℕ) : Prop :=
  ((t.field i).realType = .datetime 0 →
    load mem (l.ptr record i + 5) 3 = load src.mem (l.ptr src.record i + 5) 3) ∧
  (t.field i).stored (l.storeReal i) (src.value i) = src.value i

/-- **A column that is requested and not NULL has its value again** exactly if it comes back. -/
theorem value_decoded_iff {i : ℕ} (hi : i ∈ l.payload) (hr : decodeSet i = true)
    (hn : src.isNull i = false) :
    (t.field i).value (src.decoded decodeSet dst) (l.ptr dst.record i) = src.value i ↔
      src.ComesBack dst.mem dst.record i := by
  have hlt := (l.mem_payload.mp hi).1
  have hwf := l.column_wf i hlt
  have hv := src.validValue hlt hn
  have hw : written src decodeSet i = true := by simp [written, hr, hn]
  obtain ⟨is, js, h, his, hjs⟩ := split_payload hi
  have himage : ∀ k < (t.field i).packLength, ∀ hk : k < ((t.field i).image (l.storeReal i) src.mem
      (l.ptr src.record i) (dst.data + ((ofTable l).bitmapBytes
        + (is.flatMap src.bytes).length))).length,
      src.decoded decodeSet dst (l.ptr dst.record i + k)
        = ((t.field i).image (l.storeReal i) src.mem
        (l.ptr src.record i) (dst.data + ((ofTable l).bitmapBytes
          + (is.flatMap src.bytes).length)))[k] := by
    intro k hlt' hk
    rw [decoded_eq]
    refine restoreAll_apply_image h hjs _ _ _ _ hw hk fun j hj _ hc => ?_
    have := ptr_add_le hi (hjs j hj).1 (hjs j hj).2 dst.record
    simp only [Covers] at hc
    omega
  by_cases hd : (t.field i).realType = .datetime 0
  · have hpl : (t.field i).packLength = 8 := by simp only [Field.packLength, hd]
    have hrest : load (src.decoded decodeSet dst) (l.ptr dst.record i + 5) 3
        = load dst.mem (l.ptr dst.record i + 5) 3 := by
      refine load_congr fun k hk => ?_
      rw [decoded_eq, Nat.add_assoc]
      refine restoreAll_apply_rest h his hjs _ _ (by omega) (by omega) ?_
      rw [image_fixed (by rw [hd]; rfl), stored_of_ne (by simp [hd]), length_load,
        show (t.field i).copied = 5 by simp only [Field.copied, hd]]
      omega
    rw [ComesBack, stored_of_ne (by simp [hd]), and_iff_left rfl, ← hrest]
    simp only [hd, forall_const]
    exact value_datetime hd himage
  · rw [ComesBack, and_iff_right fun h => absurd h hd]
    refine iff_of_eq (congrArg (· = src.value i)
      (value_of_image (l.length_storeReal i) hwf hv himage (fun n hf => ?_) hd))
    have hb : src.bytes i = leBytes (t.field i).payloadLenBytes (src.value i).length
        ++ src.value i := by
      rw [bytes, if_neg (by simp [hn]), (EloqFieldType.blob_cases _ _ id hf hwf).1, ← value_blob hf,
        ← show (src.value i).length = _ from (congrArg length (value_blob hf)).trans
          (length_load _ _ _)]
      rfl
    have hbuf : src.encoded = (nullBitmap src ++ is.flatMap src.bytes)
        ++ (leBytes (t.field i).payloadLenBytes (src.value i).length ++ src.value i)
        ++ js.flatMap src.bytes := by
      rw [encoded, encode_eq, h, flatMap_append, flatMap_cons, hb]
      simp
    have hlen : (nullBitmap src ++ is.flatMap src.bytes).length
        = (ofTable l).bitmapBytes + (is.flatMap src.bytes).length := by
      simp [nullBitmap]
    have hmid := load_middle (src.load_decoded_data decodeSet dst) hbuf
    rw [length_leBytes, hlen, ← Nat.add_assoc] at hmid
    refine ⟨?_, hmid⟩
    have hle := congrArg length hbuf
    simp only [length_append, length_leBytes] at hle hlen
    have := dst.data_lt
    omega

/-- **A record comes back from its payload**: the NULL flags of the columns of the payload, the
values of the requested ones, and every column takes as many bytes as were written for it — exactly
if every column that is requested and not NULL comes back. -/
theorem decode_encode_iff :
    ((∀ i ∈ l.payload, l.isNull (src.decoded decodeSet dst) dst.record i = src.isNull i) ∧
      (∀ i ∈ l.payload, decodeSet i = true → src.isNull i = false →
        (t.field i).value (src.decoded decodeSet dst) (l.ptr dst.record i) = src.value i) ∧
      ∀ j ≤ t.fields, (src.decodedUpTo decodeSet dst j).2 = (ofTable l).bitmapBytes
        + (((range j).filter l.inPayload).flatMap src.bytes).length) ↔
    ∀ i ∈ l.payload, decodeSet i = true → src.isNull i = false →
      src.ComesBack dst.mem dst.record i := by
  have hflags : ∀ i ∈ l.payload,
      l.isNull (src.decoded decodeSet dst) dst.record i = src.isNull i := fun i hi => by
    obtain ⟨is, js, h, -, hjs⟩ := split_payload hi
    rw [decoded_eq]
    exact isNull_restoreAll h hjs _ _
  have hskip : ∀ j ≤ t.fields, (src.decodedUpTo decodeSet dst j).2 = (ofTable l).bitmapBytes
      + (((range j).filter l.inPayload).flatMap src.bytes).length := fun j hj =>
    congrArg Prod.snd (decodeLoop_encode src decodeSet dst.record dst.data dst.mem hj)
  constructor
  · rintro ⟨-, hvalues, -⟩ i hi hr hn
    exact (src.value_decoded_iff decodeSet dst hi hr hn).mp (hvalues i hi hr hn)
  · intro hold
    exact ⟨hflags, fun i hi hr hn =>
      (src.value_decoded_iff decodeSet dst hi hr hn).mpr (hold i hi hr hn), hskip⟩

/-! ### A `DATETIME` of the old format -/

/-- `CREATE TABLE t (a INT PRIMARY KEY, d DATETIME NOT NULL)`, with `mysql56_temporal_format=OFF`.
-/
def datetimeSample : TableShare where
  fields := 2
  field i := ⟨if i = 0 then .long else .datetime 0, false, 19, false, .binary⟩
  keyInfo := [⟨true, [⟨0, 4, false⟩], [⟨0, 4, false⟩]⟩]
  primaryKey := some 0

def datetimeLayout : RecordLayout datetimeSample where
  storedInDb _ := true
  offset i := 1 + 4 * i
  nullOffset _ := 0
  nullBit _ := 0
  reclength := 13
  storeReal _ v := v
  length_storeReal _ _ := rfl
  null_inj _ _ _ _ h := Bool.noConfusion h

/-- The row `(1, '2024-01-02 03:04:05')`. -/
def datetimeRow : datetimeLayout.RowBuffer where
  mem x := [255, 1, 0, 0, 0, 69, 124, 23, 132, 104, 18, 0, 0].getD x 0
  record := 0

/-- A record of zeros, and the payload at the address 100. -/
def datetimeTarget : datetimeLayout.Target datetimeRow.encoded where
  mem x := if x < 100 then 0 else datetimeRow.encoded.getD (x - 100) 0
  record := 0
  data := 100

/-- The three high bytes of the column are not in the payload, and not in the record. -/
theorem decode_datetimeSample :
    datetimeRow.encoded = [0, 69, 124, 23, 132, 104] ∧
      datetimeRow.value 1 = [69, 124, 23, 132, 104, 18, 0, 0] ∧
      (datetimeSample.field 1).value (datetimeRow.decoded (fun _ => true) datetimeTarget)
        (datetimeLayout.ptr 0 1) = [69, 124, 23, 132, 104, 0, 0, 0] := by
  decide +kernel

/-! ### What else `Decode` changes -/

/-- A byte of the record is in a column that is requested and not NULL. -/
def InRequested (x : ℕ) : Prop :=
  ∃ i ∈ l.payload, decodeSet i = true ∧ src.isNull i = false ∧
    Covers (l.offset i) (t.field i).packLength x

/-- What is written behind a wide column: the byte that followed it in the row. -/
theorem decoded_behind_wide {i : ℕ} (hi : i ∈ l.payload) (hr : decodeSet i = true)
    (hn : src.isNull i = false) (hwide : (t.field i).realType.wide = true)
    (hx : ¬ src.InRequested decodeSet (l.offset i + (t.field i).packLength)) :
    src.decoded decodeSet dst (dst.record + (l.offset i + (t.field i).packLength))
      = src.mem (src.record + (l.offset i + (t.field i).packLength)) := by
  have hw : written src decodeSet i = true := by simp [written, hr, hn]
  obtain ⟨is, js, h, -, hjs⟩ := split_payload hi
  obtain ⟨hfix, -, hcopied⟩ := copied_wide hwide
  have hreal : ¬((t.field i).realType = .float ∨ (t.field i).realType = .double) := by
    rintro (h | h) <;> simp [h, FieldType.wide] at hwide
  have himage := restoreAll_apply_image h hjs (ofTable l).bitmapBytes dst.mem dst.record dst.data
    hw (k := (t.field i).packLength)
    (by rw [image_fixed hfix, stored_of_ne hreal, length_load, hcopied]; omega)
    fun j hj hwj hc => ?_
  · rw [← decoded_eq] at himage
    simpa only [image_fixed hfix, stored_of_ne hreal, getElem_load, ptr, Nat.add_assoc] using himage
  · -- a later column that starts there is in the record's storage, unless it is empty
    have hle := ptr_add_le hi (hjs j hj).1 (hjs j hj).2 dst.record
    simp only [written, Bool.and_eq_true, Bool.not_eq_true'] at hwj
    have hcov : ¬ Covers (l.offset j) (t.field j).packLength
        (l.offset i + (t.field i).packLength) := fun hc =>
      hx ⟨j, (hjs j hj).1, hwj.1, hwj.2, hc⟩
    simp only [Covers, reach, ptr] at hle hc hcov
    split at hc
    · rename_i hwide'
      have := (copied_wide hwide').2.1
      omega
    · omega

/-- A bit that no requested column has, no NULL flag is and no wide column reaches is left alone. -/
theorem testBit_decoded {x b : ℕ} (hreq : ¬ src.InRequested decodeSet x) (hnull : ¬ l.IsNullBit x b)
    (hspill : ∀ i ∈ l.payload, decodeSet i = true → src.isNull i = false →
      (t.field i).realType.wide = true → x ≠ l.offset i + (t.field i).packLength) :
    testBit (src.decoded decodeSet dst (dst.record + x)) b
      = testBit (dst.mem (dst.record + x)) b := by
  rw [decoded_eq, testBit_restoreAll (fun i hi => (l.mem_payload.mp hi).1) fun i hi => ?_]
  refine ⟨fun hm he hb => hnull ⟨i, hi, hm, by omega, hb⟩, fun hw hc => ?_⟩
  simp only [written, Bool.and_eq_true, Bool.not_eq_true'] at hw
  have hcov : ¬ Covers (l.offset i) (t.field i).packLength x := fun hc =>
    hreq ⟨i, hi, hw.1, hw.2, hc⟩
  have := hspill i hi hw.1 hw.2
  simp only [Covers, reach, ptr] at hc hcov
  split at hc
  · rename_i hwide
    exact this hwide (by omega)
  · omega

/-- A byte outside of the requested columns and the NULL bits is left alone, or becomes that of the
row. -/
theorem decoded_cases {x : ℕ} (hreq : ¬ src.InRequested decodeSet x)
    (hnull : ∀ b, ¬ l.IsNullBit x b) :
    src.decoded decodeSet dst (dst.record + x) = dst.mem (dst.record + x) ∨
      src.decoded decodeSet dst (dst.record + x) = src.mem (src.record + x) := by
  by_cases hspill : ∃ i ∈ l.payload, decodeSet i = true ∧ src.isNull i = false ∧
      (t.field i).realType.wide = true ∧ x = l.offset i + (t.field i).packLength
  · obtain ⟨i, hi, hr, hn, hwide, rfl⟩ := hspill
    exact Or.inr (src.decoded_behind_wide decodeSet dst hi hr hn hwide hreq)
  · exact Or.inl (eq_of_testBit fun b _ => src.testBit_decoded decodeSet dst hreq (hnull b)
      fun i hi hr hn hwide he => hspill ⟨i, hi, hr, hn, hwide, he⟩)

/-- **`Decode` changes nothing but the requested columns and the NULL bits**, exactly if behind
every wide column that is requested the record has the byte that the row has there. -/
theorem decode_frame_iff :
    (∀ x < l.reclength, ∀ b < 8, ¬ src.InRequested decodeSet x → ¬ l.IsNullBit x b →
      testBit (src.decoded decodeSet dst (dst.record + x)) b
        = testBit (dst.mem (dst.record + x)) b) ↔
    ∀ i ∈ l.payload, decodeSet i = true → src.isNull i = false →
      (t.field i).realType.wide = true →
      l.offset i + (t.field i).packLength < l.reclength →
      ¬ src.InRequested decodeSet (l.offset i + (t.field i).packLength) →
      dst.mem (dst.record + (l.offset i + (t.field i).packLength))
        = src.mem (src.record + (l.offset i + (t.field i).packLength)) := by
  constructor
  · intro hframe i hi hr hn hwide hlt hx
    rw [← src.decoded_behind_wide decodeSet dst hi hr hn hwide hx]
    refine (eq_of_testBit fun b hb => hframe _ hlt b hb hx ?_).symm
    rintro ⟨j, hj, hm, he, -⟩
    have := l.null_lt j (l.mem_payload.mp hj).1 i (l.mem_payload.mp hi).1 hm
    omega
  · intro hbehind x hx b _ hreq hnull
    by_cases hspill : ∃ i ∈ l.payload, decodeSet i = true ∧ src.isNull i = false ∧
        (t.field i).realType.wide = true ∧ x = l.offset i + (t.field i).packLength
    · obtain ⟨i, hi, hr, hn, hwide, rfl⟩ := hspill
      rw [src.decoded_behind_wide decodeSet dst hi hr hn hwide hreq,
        hbehind i hi hr hn hwide hx hreq]
    · exact src.testBit_decoded decodeSet dst hreq hnull
        fun i hi hr hn hwide he => hspill ⟨i, hi, hr, hn, hwide, he⟩

/-! ### A `SET` of three bytes -/

/-- `CREATE TABLE t (a INT PRIMARY KEY, s SET(…) NOT NULL, b INT NOT NULL)`, where the set has 17 to
24 members. -/
def setSample : TableShare where
  fields := 3
  field i := ⟨if i = 1 then .set 3 else .long, false, 11, false, .binary⟩
  keyInfo := [⟨true, [⟨0, 4, false⟩], [⟨0, 4, false⟩]⟩]
  primaryKey := some 0

def setLayout : RecordLayout setSample where
  storedInDb _ := true
  offset i := [1, 5, 8].getD i 0
  nullOffset _ := 0
  nullBit _ := 0
  reclength := 12
  storeReal _ v := v
  length_storeReal _ _ := rfl
  null_inj _ _ _ _ h := Bool.noConfusion h
  null_lt _ _ _ _ h := Bool.noConfusion h

/-- A row with `b = 7`. -/
def setRow : setLayout.RowBuffer where
  mem x := [255, 1, 0, 0, 0, 1, 0, 0, 7, 0, 0, 0].getD x 0
  record := 0

/-- A record of zeros, and the payload at the address 100. -/
def setTarget : setLayout.Target setRow.encoded where
  mem x := if x < 100 then 0 else setRow.encoded.getD (x - 100) 0
  record := 0
  data := 100

/-- Only `s` is requested, and `b` becomes 7. -/
theorem decode_setSample :
    load setTarget.mem 0 12 = [0, 0, 0, 0, 0, 0, 0, 0, 0, 0, 0, 0] ∧
      load (setRow.decoded (fun i => i == 1) setTarget) 0 12
        = [0, 0, 0, 0, 0, 1, 0, 0, 7, 0, 0, 0] := by
  decide +kernel

end RecordLayout.RowBuffer

end EloqSql
