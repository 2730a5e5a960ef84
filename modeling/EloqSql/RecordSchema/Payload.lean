import Mathlib.Tactic.IntervalCases
import EloqSql.Image.Part
import EloqSql.RecordSchema

/-!
# RecordSchema/Payload — one column through the payload

What `Encode` appends for a column, `Decode` reads to its last byte, whether the column is requested
or not (`decodeField_encodeField`). What it then writes over the column is the `Field.image`, which
is not always as long as the column: a `SET` of three bytes, and a `TIME(5)` and a `DATETIME(5)` of
the old format, are one byte longer (`FieldType.wide`), and a `DATETIME` of the old format is three
bytes shorter. `value_of_image` has the value back for all but the last; a `FLOAT` and a `DOUBLE`
are stored once more, which may round them (`Field.stored`).
-/

namespace EloqSql

open Memory List
open EloqSql.Field (blobPacklength packLength value wfColumn)

/-! ## Numbers and strings in a record -/

@[simp]
theorem length_leBytes : ∀ n v, (leBytes n v).length = n
  | 0, _ => rfl
  | n + 1, v => by rw [leBytes, length_cons, length_leBytes n]

theorem leNat_leBytes : ∀ n v, leNat (leBytes n v) = v % 256 ^ n
  | 0, v => by simp [leBytes, leNat, Nat.mod_one]
  | n + 1, v => by
      have h : (UInt8.ofNat v).toNat = v % 256 := by simp
      rw [leBytes, leNat, leNat_leBytes n, h, Nat.pow_succ', Nat.mod_mul]

theorem leBytes_leNat : ∀ bs : Bytes, leBytes bs.length (leNat bs) = bs
  | [] => rfl
  | b :: bs => by
      have hb := b.toNat_lt
      have hhead : UInt8.ofNat (b.toNat + 256 * leNat bs) = b := by
        rw [← UInt8.toNat_inj, UInt8.toNat_ofNat']
        omega
      rw [length_cons, leBytes, leNat, Nat.add_mul_div_left _ _ (by decide),
        Nat.div_eq_of_lt hb, Nat.zero_add, leBytes_leNat bs, hhead]

theorem leNat_leBytes_of_lt {n v : ℕ} (h : v < 256 ^ n) : leNat (leBytes n v) = v := by
  rw [leNat_leBytes, Nat.mod_eq_of_lt h]

namespace Field

variable {f : Field} {v : Bytes}

/-- The length of a `VARCHAR` fits into its length bytes. -/
theorem length_lt_of_varchar (hf : f.realType = .varchar) (hw : f.wfColumn = true)
    (hv : f.validValue v = true) : v.length < 256 ^ f.lengthBytes := by
  obtain ⟨hl, -⟩ := validValue_varchar hf hv
  have hlt : f.fieldLength < 65536 := by
    simp only [wfColumn, hf, Bool.and_eq_true, decide_eq_true_eq] at hw
    exact hw.1
  rw [lengthBytes]
  split <;> omega

/-- A valid `VARCHAR` is stored as it is. -/
theorem storeVarstring_of_valid (hf : f.realType = .varchar) (hv : f.validValue v = true)
    (m : ℕ → UInt8) (ptr : ℕ) :
    f.storeVarstring m ptr v = store m ptr (leBytes f.lengthBytes v.length ++ v) := by
  obtain ⟨hl, xs, hx, hn⟩ := validValue_varchar hf hv
  rw [storeVarstring, take_of_length_le hl, Collation.takeChars_of_length_le hx hn]

/-- So is a valid `CHAR`: what follows its characters is padding. -/
theorem storeString_of_valid (hf : f.realType = .string) (hv : f.validValue v = true)
    (m : ℕ → UInt8) (ptr : ℕ) :
    f.storeString m ptr v = store m ptr v := by
  obtain ⟨hl, xs, hx, hpad⟩ := validValue_string hf hv
  obtain ⟨r, hr, hr'⟩ := Collation.takeChars_append hx f.charLength
  have hlen : f.fieldLength - (f.charset.takeChars f.charLength v).length = r.length := by
    have := congrArg length hr
    rw [length_append] at this
    omega
  have hspace : r = replicate r.length f.charset.padChar := by
    have hspaces := eq_replicate_of_mem hpad
    have hr0 : r = replicate (xs.drop f.charLength).length 0x20 := by
      refine Collation.chars_inj hr' ?_
      rw [Collation.chars_replicate_space, ← hspaces]
    rw [hr0, length_replicate]
    cases hc : f.charset with
    | binary =>
      -- every byte is a character, so nothing follows them
      have hxs : xs.length = f.charLength := by
        rw [hc, Collation.chars] at hx
        rw [← Option.some.inj hx, length_map, hl, charLength, hc, Collation.mbmaxlen,
          Nat.div_one]
      simp [drop_of_length_le hxs.le]
    | _ => rfl
  rw [storeString, take_of_length_le hl.le, hlen, ← hspace, ← hr]

/-- How many bytes of a column of fixed size are in the payload. Where `Convert` has another length
than the column it is that of the type, not that of the column. -/
def copied (f : Field) : ℕ :=
  match f.realType with
  | .set 3 => 4
  | .time 5 => 6
  | .datetime 5 => 8
  | .datetime 0 => 5
  | _ => f.packLength

/-- What is stored for a column of fixed size that is `v` in the payload. -/
def stored (f : Field) (storeReal : Bytes → Bytes) (v : Bytes) : Bytes :=
  if f.realType = .float ∨ f.realType = .double then storeReal v else v

/-- How many bytes the length of a `BLOB` has in the payload. -/
def payloadLenBytes (f : Field) : ℕ :=
  if f.charset.isBinary && 2 < f.blobPacklength then 4 else f.blobPacklength

end Field

open EloqSql.Field (copied payloadLenBytes stored)

/-! ## `Convert` -/

namespace EloqFieldType

variable {f : Field} (m : ℕ → UInt8) (ptr : ℕ) (storeReal : Bytes → Bytes)

theorem decimal_len : ∀ precision ≤ 65, ∀ decimals ≤ 65,
    ((precision <<< 8 ||| decimals) % 2 ^ 16) >>> 8 = precision ∧
      ((precision <<< 8 ||| decimals) % 2 ^ 16) &&& 0xFF = decimals := by
  decide +kernel

/-- **A column of fixed size is copied**, in the length that its type has. -/
theorem fixed_cases (hf : f.realType.fixedSize = true) (hw : f.wfColumn = true) :
    (convert f).encodeField f m ptr = load m ptr f.copied ∧
      ∀ requested data buf bufOffset,
        (convert f).decodeField f m ptr storeReal requested data buf bufOffset
          = (if requested then
              store m ptr (f.stored storeReal ((buf.drop bufOffset).take f.copied))
            else m, bufOffset + f.copied) := by
  have hsplit : (convert f).storageLen = f.copied ∧
      (convert f).dataType ∉ [EloqDataType.varString, .varBinary, .string, .binary] ∧
      ((convert f).dataType = .float ↔ f.realType = .float ∨ f.realType = .double) := by
    cases h : f.realType with
    | varchar | string | blob _ => simp [h, FieldType.fixedSize] at hf
    | tiny | short | int24 | long | longlong =>
      cases hu : f.unsignedFlag <;>
        simp [convert, ofField, h, hu, storageLen, copied, packLength]
    | float | double | newdate | year =>
      simp [convert, ofField, h, storageLen, copied, packLength]
    | enum n =>
      simp only [wfColumn, h, contains_iff_mem, mem_cons, not_mem_nil,
        or_false] at hw
      rcases hw with rfl | rfl <;>
        simp [convert, ofField, h, storageLen, copied, packLength]
    | set n =>
      simp only [wfColumn, h, contains_iff_mem, mem_cons, not_mem_nil,
        or_false] at hw
      rcases hw with rfl | rfl | rfl | rfl | rfl <;>
        simp [convert, ofField, h, storageLen, copied, packLength]
    | bit n =>
      simp only [wfColumn, h, Bool.and_eq_true, decide_eq_true_eq] at hw
      simp [convert, ofField, h, storageLen, copied, packLength]
      omega
    | newdecimal precision decimals =>
      simp only [wfColumn, h, Bool.and_eq_true, decide_eq_true_eq] at hw
      obtain ⟨hp, hd⟩ := decimal_len precision hw.2 decimals (hw.1.2.trans hw.2)
      simp only [convert, ofField, h, storageLen, copied, packLength, hp, hd]
      simp
    | time2 dec | datetime2 dec | timestamp2 dec | time dec | datetime dec | timestamp dec =>
      simp only [wfColumn, h, decide_eq_true_eq] at hw
      interval_cases dec <;>
        simp [convert, ofField, h, storageLen, copied, packLength, myTimeBinaryLength,
          myDatetimeBinaryLength, myTimestampBinaryLength, timeHiresBytes, datetimeHiresBytes,
          secPartBytes]
  obtain ⟨hlen, hty, hreal⟩ := hsplit
  cases hd : (convert f).dataType with
  | varString | varBinary | string | binary => simp [hd] at hty
  | float =>
    have hlen' : (convert f).len = f.copied := by simpa only [storageLen, hd] using hlen
    simp [encodeField, decodeField, hd, hlen, hlen', stored, hreal.1 hd]
  | _ =>
    simp only [hd, reduceCtorEq, false_iff] at hreal
    simp [encodeField, decodeField, hd, hlen, stored, hreal]

theorem lengthBytes_mod (f : Field) : f.lengthBytes % 2 ^ 16 = f.lengthBytes := by
  rw [Field.lengthBytes]
  split <;> rfl

theorem varchar_cases (hf : f.realType = .varchar) :
    (convert f).encodeField f m ptr = leBytes f.lengthBytes (f.dataLength m ptr)
        ++ load m (ptr + f.lengthBytes) (f.dataLength m ptr) ∧
      ∀ requested data buf bufOffset,
        (convert f).decodeField f m ptr storeReal requested data buf bufOffset
          = (let strLen := leNat ((buf.drop bufOffset).take f.lengthBytes)
            (if requested then
              f.storeVarstring m ptr ((buf.drop (bufOffset + f.lengthBytes)).take strLen)
            else m, bufOffset + f.lengthBytes + strLen)) := by
  cases hc : f.charset.isBinary <;>
    simp [convert, ofField, hf, hc, encodeField, decodeField, encodeString, lengthBytes_mod,
      -Nat.reducePow]

theorem string_cases (hf : f.realType = .string) (hw : f.wfColumn = true) :
    (convert f).encodeField f m ptr = load m ptr f.fieldLength ∧
      ∀ requested data buf bufOffset,
        (convert f).decodeField f m ptr storeReal requested data buf bufOffset
          = (if requested then f.storeString m ptr ((buf.drop bufOffset).take f.fieldLength) else m,
              bufOffset + f.fieldLength) := by
  have hlen : f.fieldLength % 2 ^ 16 = f.fieldLength := by
    simp only [wfColumn, hf, Bool.and_eq_true, decide_eq_true_eq] at hw
    have hmax : f.charset.mbmaxlen ≤ 4 := by
      cases f.charset <;> simp [Collation.mbmaxlen]
    refine Nat.mod_eq_of_lt ?_
    have := Nat.mul_le_mul_left 255 hmax
    omega
  cases hc : f.charset.isBinary <;>
    simp [convert, ofField, hf, hc, encodeField, decodeField, storageLen, hlen, -Nat.reducePow]

theorem blob_cases {packlength : ℕ} (hf : f.realType = .blob packlength) (hw : f.wfColumn = true) :
    (convert f).encodeField f m ptr = leBytes f.payloadLenBytes (f.blobLength m ptr)
        ++ load m (f.blobPtr m ptr) (f.blobLength m ptr) ∧
      ∀ requested data buf bufOffset,
        (convert f).decodeField f m ptr storeReal requested data buf bufOffset
          = (let strLen := leNat ((buf.drop bufOffset).take f.payloadLenBytes)
            (if requested then f.blobSetPtr m ptr strLen (data + (bufOffset + f.payloadLenBytes))
            else m, bufOffset + f.payloadLenBytes + strLen)) := by
  simp only [wfColumn, hf, Bool.and_eq_true, decide_eq_true_eq] at hw
  have hlen : packlength % 2 ^ 16 = packlength := Nat.mod_eq_of_lt (by omega)
  cases hc : f.charset.isBinary with
  | false =>
    simp [convert, ofField, hf, hc, encodeField, decodeField, encodeString, hlen,
      payloadLenBytes, blobPacklength, -Nat.reducePow]
  | true =>
    have hbytes : blobLenBytes ⟨.varBinary, packlength⟩ = f.payloadLenBytes := by
      simp only [blobLenBytes, payloadLenBytes, hc, blobPacklength, hf, Bool.true_and,
        decide_eq_true_eq]
      split <;> split <;> omega
    simp [convert, ofField, hf, hc, encodeField, decodeField, hlen, hbytes, -Nat.reducePow]

end EloqFieldType

/-! ## From the payload to the record -/

section Column

variable {f : Field} {m : ℕ → UInt8} {ptr : ℕ} {storeReal : Bytes → Bytes}

/-- What `Decode` writes over a column for one that is at `ptr` in another memory; `data` is where
the column is in the payload. -/
def Field.image (f : Field) (storeReal : Bytes → Bytes) (m : ℕ → UInt8) (ptr data : ℕ) : Bytes :=
  match f.realType with
  | .varchar => leBytes f.lengthBytes (f.value m ptr).length ++ f.value m ptr
  | .string => f.value m ptr
  | .blob _ => leBytes f.blobPacklength (f.value m ptr).length
      ++ leBytes Field.portableSizeofCharPtr (data + f.payloadLenBytes)
  | _ => f.stored storeReal (load m ptr f.copied)

theorem value_varchar (hf : f.realType = .varchar) :
    f.value m ptr = load m (ptr + f.lengthBytes) (f.dataLength m ptr) := by
  simp only [value, hf]

theorem value_blob {n : ℕ} (hf : f.realType = .blob n) :
    f.value m ptr = load m (f.blobPtr m ptr) (f.blobLength m ptr) := by
  simp only [value, hf]

theorem value_fixed (hf : f.realType.fixedSize = true) :
    f.value m ptr = load m ptr f.packLength := by
  cases h : f.realType with
  | varchar | string | blob _ => simp [h, FieldType.fixedSize] at hf
  | _ => simp only [value, h]

theorem blobPacklength_le {n : ℕ} (hf : f.realType = .blob n) (hw : f.wfColumn = true) :
    n ≤ f.payloadLenBytes := by
  simp only [wfColumn, hf, Bool.and_eq_true, decide_eq_true_eq] at hw
  simp only [payloadLenBytes, blobPacklength, hf]
  split <;> omega

/-- **`Decode` reads exactly what `Encode` wrote for a column**, requested or not, and writes its
image if it is. -/
theorem decodeField_encodeField (hw : f.wfColumn = true)
    (hv : f.validValue (f.value m ptr) = true) (m' : ℕ → UInt8) (ptr' : ℕ) (requested : Bool)
    (data : ℕ) (pre post : Bytes) :
    (EloqFieldType.convert f).decodeField f m' ptr' storeReal requested data
        (pre ++ (EloqFieldType.convert f).encodeField f m ptr ++ post) pre.length
      = (if requested then store m' ptr' (f.image storeReal m ptr (data + pre.length)) else m',
          pre.length + ((EloqFieldType.convert f).encodeField f m ptr).length) := by
  cases hf : f.realType with
  | varchar =>
    have hlen : (f.value m ptr).length = f.dataLength m ptr := by
      rw [value_varchar hf, length_load]
    have hlt := Field.length_lt_of_varchar hf hw hv
    rw [hlen] at hlt
    rw [(EloqFieldType.varchar_cases m' ptr' storeReal hf).2,
      (EloqFieldType.varchar_cases m ptr storeReal hf).1, ← value_varchar hf]
    simp [leNat_leBytes_of_lt hlt, Field.storeVarstring_of_valid hf hv, Field.image, hf,
      length_leBytes, hlen, Nat.add_assoc]
  | string =>
    have hval : f.value m ptr = load m ptr f.fieldLength := by
      simp only [value, hf, packLength]
    rw [(EloqFieldType.string_cases m' ptr' storeReal hf hw).2,
      (EloqFieldType.string_cases m ptr storeReal hf hw).1, ← hval]
    have hlen : (f.value m ptr).length = f.fieldLength := by rw [hval, length_load]
    simp [Field.storeString_of_valid hf hv, Field.image, hf, hlen]
  | blob packlength =>
    have hlen : (f.value m ptr).length = f.blobLength m ptr := by
      rw [value_blob hf, length_load]
    have hlt : f.blobLength m ptr < 256 ^ f.payloadLenBytes := by
      rw [← hlen]
      exact (validValue_blob hf hv).1.trans_le
        (Nat.pow_le_pow_right (by decide) (blobPacklength_le hf hw))
    rw [(EloqFieldType.blob_cases m' ptr' storeReal hf hw).2,
      (EloqFieldType.blob_cases m ptr storeReal hf hw).1, ← value_blob hf]
    simp [leNat_leBytes_of_lt hlt, Field.blobSetPtr, Field.image, hf, length_leBytes, hlen,
      Nat.add_assoc]
  | _ =>
    have hfix : f.realType.fixedSize = true := by rw [hf]; rfl
    rw [(EloqFieldType.fixed_cases m' ptr' storeReal hfix hw).2,
      (EloqFieldType.fixed_cases m ptr storeReal hfix hw).1]
    simp [Field.image, hf, length_load]

theorem stored_of_ne {v : Bytes} (h : ¬(f.realType = .float ∨ f.realType = .double)) :
    f.stored storeReal v = v :=
  if_neg h

theorem length_stored (hs : ∀ v, (storeReal v).length = v.length) (v : Bytes) :
    (f.stored storeReal v).length = v.length := by
  rw [stored]
  split
  · exact hs v
  · rfl

theorem image_fixed (hf : f.realType.fixedSize = true) (data : ℕ) :
    f.image storeReal m ptr data = f.stored storeReal (load m ptr f.copied) := by
  cases h : f.realType with
  | varchar | string | blob _ => simp [h, FieldType.fixedSize] at hf
  | _ => simp only [Field.image, h]

theorem packLength_le_copied (hw : f.wfColumn = true) (hne : f.realType ≠ .datetime 0) :
    f.packLength ≤ f.copied := by
  cases hf : f.realType with
  | set n =>
    simp only [wfColumn, hf, contains_iff_mem, mem_cons, not_mem_nil,
      or_false] at hw
    rcases hw with rfl | rfl | rfl | rfl | rfl <;> simp [hf, copied, packLength]
  | time dec | datetime dec =>
    simp only [wfColumn, hf, decide_eq_true_eq] at hw
    interval_cases dec <;>
      simp_all [copied, packLength, timeHiresBytes, datetimeHiresBytes]
  | _ => simp [hf, copied]

/-- A type whose length in the payload is greater than that of the column. -/
def FieldType.wide : FieldType → Bool
  | .set 3 | .time 5 | .datetime 5 => true
  | _ => false

theorem copied_wide (h : f.realType.wide = true) :
    f.realType.fixedSize = true ∧ 0 < f.packLength ∧ f.copied = f.packLength + 1 := by
  cases hf : f.realType with
  | set n | time n | datetime n =>
    simp only [hf, FieldType.wide] at h
    split at h <;> simp_all [FieldType.fixedSize, copied, packLength, timeHiresBytes,
      datetimeHiresBytes]
  | _ => simp [hf, FieldType.wide] at h

/-- The image of a column is within the column, but for the byte after a wide one. -/
theorem length_image_le (hs : ∀ v, (storeReal v).length = v.length) (hw : f.wfColumn = true)
    (hv : f.validValue (f.value m ptr) = true) (data : ℕ) : (f.image storeReal m ptr data).length
      ≤ f.packLength + if f.realType.wide then 1 else 0 := by
  cases hf : f.realType with
  | varchar =>
    have := (validValue_varchar hf hv).1
    simp only [Field.image, hf, length_append, length_leBytes, packLength]
    omega
  | string =>
    have := (validValue_string hf hv).1
    simp only [Field.image, hf, packLength]
    omega
  | blob n =>
    simp [Field.image, hf, packLength, blobPacklength, Field.portableSizeofCharPtr]
  | set n =>
    simp only [wfColumn, hf, contains_iff_mem, mem_cons, not_mem_nil,
      or_false] at hw
    rcases hw with rfl | rfl | rfl | rfl | rfl <;>
      simp [Field.image, hf, length_stored hs, copied, packLength, FieldType.wide]
  | time dec | datetime dec =>
    simp only [wfColumn, hf, decide_eq_true_eq] at hw
    interval_cases dec <;>
      simp [Field.image, hf, length_stored hs, copied, packLength, FieldType.wide,
        timeHiresBytes, datetimeHiresBytes]
  | _ => simp [Field.image, hf, length_stored hs, copied, FieldType.wide]

/-- The bytes of a number and of what follows it. -/
theorem load_split {mf : ℕ → UInt8} {a : ℕ} {u w : Bytes}
    (h : load mf a (u ++ w).length = u ++ w) :
    load mf a u.length = u ∧ load mf (a + u.length) w.length = w := by
  rw [length_append, ← load_append] at h
  exact append_inj h (length_load _ _ _)

/-- Bytes that are a part of a block. -/
theorem load_middle {mf : ℕ → UInt8} {a : ℕ} {buf pre u v post : Bytes}
    (h : load mf a buf.length = buf) (hbuf : buf = pre ++ (u ++ v) ++ post) :
    load mf (a + (pre.length + u.length)) v.length = v := by
  have hsplit : buf = (pre ++ u) ++ (v ++ post) := by simp [hbuf]
  rw [hsplit] at h
  have hrest := (load_split h).2
  rw [length_append] at hrest
  exact (load_split hrest).1

theorem value_of_image_fixed (hs : ∀ v, (storeReal v).length = v.length) (hw : f.wfColumn = true)
    (hf : f.realType.fixedSize = true) (hne : f.realType ≠ .datetime 0) {mf : ℕ → UInt8}
    {ptr' data : ℕ} (himage : ∀ k < f.packLength, ∀ h : k < (f.image storeReal m ptr data).length,
      mf (ptr' + k) = (f.image storeReal m ptr data)[k]) :
    f.value mf ptr' = f.stored storeReal (f.value m ptr) := by
  rw [image_fixed hf] at himage
  rw [value_fixed hf, value_fixed hf]
  by_cases hreal : f.realType = .float ∨ f.realType = .double
  · have hcopied : f.copied = f.packLength := by
      rcases hreal with h | h <;> simp only [copied, h]
    rw [hcopied] at himage
    have hlen := length_stored (f := f) hs (load m ptr f.packLength)
    rw [length_load] at hlen
    rw [load_eq_take hlen.ge himage, take_of_length_le hlen.le]
  · rw [stored_of_ne hreal] at himage ⊢
    have hge := packLength_le_copied hw hne
    refine load_congr fun k hk => ?_
    rw [himage k hk (by rw [length_load]; omega), getElem_load]

/-- **A column whose image is in its place has the value as it is stored**, but for a `DATETIME` of
the old format, of which three bytes are not in the image. A `BLOB` also needs the payload to be in
its place. -/
theorem value_of_image (hs : ∀ v, (storeReal v).length = v.length) (hw : f.wfColumn = true)
    (hv : f.validValue (f.value m ptr) = true) {mf : ℕ → UInt8} {ptr' data : ℕ}
    (himage : ∀ k < f.packLength, ∀ h : k < (f.image storeReal m ptr data).length,
      mf (ptr' + k) = (f.image storeReal m ptr data)[k])
    (hblob : ∀ n, f.realType = .blob n → data + f.payloadLenBytes < 2 ^ 64 ∧
      load mf (data + f.payloadLenBytes) (f.value m ptr).length = f.value m ptr)
    (hne : f.realType ≠ .datetime 0) :
    f.value mf ptr' = f.stored storeReal (f.value m ptr) := by
  have hin : f.realType.wide = false →
      load mf ptr' (f.image storeReal m ptr data).length = f.image storeReal m ptr data :=
        fun hwide => by
    have hle := length_image_le hs hw hv data
    rw [hwide, if_neg Bool.false_ne_true] at hle
    rw [load_eq_take le_rfl fun k hk h => himage k (by omega) h, take_length]
  cases hf : f.realType with
  | varchar =>
    rw [stored_of_ne (by simp [hf])]
    have hload := hin (by rw [hf]; rfl)
    simp only [Field.image, hf] at hload
    obtain ⟨hnum, hval⟩ := load_split hload
    rw [length_leBytes] at hnum hval
    have hlen : f.dataLength mf ptr' = (f.value m ptr).length := by
      rw [Field.dataLength, hnum, leNat_leBytes_of_lt (Field.length_lt_of_varchar hf hw hv)]
    rw [value_varchar hf, hlen, hval]
  | string =>
    rw [stored_of_ne (by simp [hf])]
    have hload := hin (by rw [hf]; rfl)
    simp only [Field.image, hf] at hload
    rwa [(validValue_string hf hv).1, ← show f.packLength = f.fieldLength by
      simp only [packLength, hf], ← show f.value mf ptr' = load mf ptr' f.packLength by
      simp only [value, hf]] at hload
  | blob n =>
    rw [stored_of_ne (by simp [hf])]
    obtain ⟨hdata, hbuf⟩ := hblob n hf
    have hload := hin (by rw [hf]; rfl)
    simp only [Field.image, hf] at hload
    obtain ⟨hnum, hptr⟩ := load_split hload
    rw [length_leBytes] at hnum hptr
    have hlt : (f.value m ptr).length < 256 ^ f.blobPacklength := by
      simpa only [blobPacklength, hf] using (validValue_blob hf hv).1
    have hlen : f.blobLength mf ptr' = (f.value m ptr).length := by
      rw [Field.blobLength, hnum, leNat_leBytes_of_lt hlt]
    have hp : f.blobPtr mf ptr' = data + f.payloadLenBytes := by
      rw [Field.blobPtr]
      rw [length_leBytes] at hptr
      rw [hptr, leNat_leBytes_of_lt hdata]
    rw [value_blob hf, hlen, hp, hbuf]
  | _ => exact value_of_image_fixed hs hw (by rw [hf]; rfl) hne himage

/-- Of a `DATETIME` of the old format the first five bytes are restored. -/
theorem value_datetime (hf : f.realType = .datetime 0) {mf : ℕ → UInt8} {ptr' data : ℕ}
    (himage : ∀ k < f.packLength, ∀ h : k < (f.image storeReal m ptr data).length,
      mf (ptr' + k) = (f.image storeReal m ptr data)[k]) :
    f.value mf ptr' = f.value m ptr ↔ load mf (ptr' + 5) 3 = load m (ptr + 5) 3 := by
  have hfix : f.realType.fixedSize = true := by rw [hf]; rfl
  have hpl : f.packLength = 5 + 3 := by simp only [packLength, hf]
  have hc : f.copied = 5 := by simp only [copied, hf]
  rw [image_fixed hfix, stored_of_ne (by simp [hf]), hc, hpl] at himage
  have hhead : load mf ptr' 5 = load m ptr 5 := load_congr fun k hk => by
    rw [himage k (by omega) (by rw [length_load]; omega), getElem_load]
  rw [value_fixed hfix, value_fixed hfix, hpl, ← load_append, ← load_append, hhead,
    append_cancel_left_eq]

end Column

end EloqSql
