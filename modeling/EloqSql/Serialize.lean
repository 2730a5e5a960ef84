import EloqSql.RecordSchema.Payload
import EloqSql.Tx

/-!
# Serialize — keys and records one after another in a buffer

`EloqKey` and `EloqRecord` are written with the lengths of their parts before them: two bytes for a
key, a `size_t` each for the unpack info and the blob of a record. One overload of `Serialize`
appends to a string; the other makes room in a vector and copies into it at an offset that it moves
on. `Deserialize` reads at an offset, too. A buffer with several objects is thus read back in the
order in which they were written (`deserializeAll_serializeStrAll`), and both overloads write the
same bytes (`serializeVec_eq`).
-/

namespace EloqSql

open List
open Subtype (val)

/-! ## The overloads of `Serialize` -/

/-- `std::vector::resize`. -/
def resize (buf : Bytes) (size : ℕ) : Bytes := buf.take size ++ replicate (size - buf.length) 0

/-- `std::copy` into a buffer, from an offset on. -/
def copyAt (buf : Bytes) (offset : ℕ) (src : Bytes) : Bytes :=
  buf.take offset ++ src ++ buf.drop (offset + src.length)

/-- `sizeof(uint16_t)`. -/
def sizeofUint16 : ℕ := 2

/-- `sizeof(size_t)`. -/
def sizeofSizeT : ℕ := 8

namespace EloqKey

/-- `EloqKey::Serialize` into a vector. -/
def serializeVec (packedKey buf : Bytes) (offset : ℕ) : Bytes × ℕ :=
  let buf := resize buf (offset + sizeofUint16 + packedKey.length)
  let lenVal := packedKey.length % 2 ^ 16
  let buf := copyAt buf offset (leBytes sizeofUint16 lenVal)
  let offset := offset + sizeofUint16
  let buf := copyAt buf offset packedKey
  (buf, offset + lenVal)

/-- `EloqKey::Serialize` to a string. -/
def serializeStr (packedKey str : Bytes) : Bytes :=
  let lenVal := packedKey.length % 2 ^ 16
  str ++ leBytes sizeofUint16 lenVal ++ packedKey.take lenVal

/-- `EloqKey::SerializedLength`. -/
def serializedLength (packedKey : Bytes) : ℕ := sizeofUint16 + packedKey.length

/-- `EloqKey::Deserialize`. -/
def deserialize (buf : Bytes) (offset : ℕ) : Bytes × ℕ :=
  let lenVal := leNat ((buf.drop offset).take sizeofUint16)
  let offset := offset + sizeofUint16
  ((buf.drop offset).take lenVal, offset + lenVal)

end EloqKey

namespace EloqRecord

/-- `EloqRecord::Serialize` into a vector. -/
def serializeVec (rec : EloqRecord) (buf : Bytes) (offset : ℕ) : Bytes × ℕ :=
  let buf := resize buf
    (offset + 2 * sizeofSizeT + rec.encodedBlob.length + rec.unpackInfo.length)
  let buf := copyAt buf offset (leBytes sizeofSizeT rec.unpackInfo.length)
  let offset := offset + sizeofSizeT
  let buf := copyAt buf offset rec.unpackInfo
  let offset := offset + rec.unpackInfo.length
  let buf := copyAt buf offset (leBytes sizeofSizeT rec.encodedBlob.length)
  let offset := offset + sizeofSizeT
  let buf := copyAt buf offset rec.encodedBlob
  (buf, offset + rec.encodedBlob.length)

/-- `EloqRecord::Serialize` to a string. -/
def serializeStr (rec : EloqRecord) (str : Bytes) : Bytes :=
  str ++ leBytes sizeofSizeT rec.unpackInfo.length ++ rec.unpackInfo
    ++ leBytes sizeofSizeT rec.encodedBlob.length ++ rec.encodedBlob

/-- `EloqRecord::SerializedLength`. -/
def serializedLength (rec : EloqRecord) : ℕ :=
  sizeofSizeT * 2 + rec.unpackInfo.length + rec.encodedBlob.length

/-- `EloqRecord::Deserialize`. -/
def deserialize (buf : Bytes) (offset : ℕ) : EloqRecord × ℕ :=
  let len := leNat ((buf.drop offset).take sizeofSizeT)
  let offset := offset + sizeofSizeT
  let unpackInfo := (buf.drop offset).take len
  let offset := offset + len
  let len := leNat ((buf.drop offset).take sizeofSizeT)
  let offset := offset + sizeofSizeT
  (⟨(buf.drop offset).take len, unpackInfo⟩, offset + len)

end EloqRecord

/-- What is serialized. -/
inductive TxObject where
  | key (packedKey : Bytes)
  | record (rec : EloqRecord)

/-- The class of an object that is read. -/
inductive TxClass where
  | key | record

namespace TxObject

/-- Its class. -/
def txClass : TxObject → TxClass
  | key _ => .key
  | record _ => .record

/-- `Serialize(std::vector<char> &buf, size_t &offset)`. -/
def serializeVec : TxObject → Bytes × ℕ → Bytes × ℕ
  | key packedKey, (buf, offset) => EloqKey.serializeVec packedKey buf offset
  | record rec, (buf, offset) => rec.serializeVec buf offset

/-- `Serialize(std::string &str)`. -/
def serializeStr : TxObject → Bytes → Bytes
  | key packedKey, str => EloqKey.serializeStr packedKey str
  | record rec, str => rec.serializeStr str

/-- `SerializedLength`. -/
def serializedLength : TxObject → ℕ
  | key packedKey => EloqKey.serializedLength packedKey
  | record rec => rec.serializedLength

/-- Objects written one after another, by the first overload. -/
def serializeVecAll (os : List TxObject) : Bytes × ℕ :=
  os.foldl (fun buf o => o.serializeVec buf) ([], 0)

/-- Objects written one after another, by the second overload. -/
def serializeStrAll (os : List TxObject) : Bytes := os.foldl (fun str o => o.serializeStr str) []

/-- A key of at most 65535 bytes, and a record whose sizes are of type `size_t`. -/
def Fits : TxObject → Prop
  | key packedKey => packedKey.length ≤ 65535
  | record rec => rec.unpackInfo.length < 2 ^ 64 ∧ rec.encodedBlob.length < 2 ^ 64

end TxObject

/-- `Deserialize`. -/
def TxClass.deserialize (buf : Bytes) : TxClass → ℕ → TxObject × ℕ
  | key, offset => (.key (EloqKey.deserialize buf offset).1, (EloqKey.deserialize buf offset).2)
  | record, offset =>
    (.record (EloqRecord.deserialize buf offset).1, (EloqRecord.deserialize buf offset).2)

/-- Objects of some classes read one after another. -/
def deserializeAll (buf : Bytes) : List TxClass → ℕ → List TxObject × ℕ
  | [], offset => ([], offset)
  | c :: cs, offset =>
    let o := c.deserialize buf offset
    let os := deserializeAll buf cs o.2
    (o.1 :: os.1, os.2)

/-! ## What one object adds -/

/-- A block after its length, in `w` bytes. -/
def lengthPrefixed (w : ℕ) (block : Bytes) : Bytes := leBytes w block.length ++ block

theorem length_lengthPrefixed (w : ℕ) (block : Bytes) :
    (lengthPrefixed w block).length = w + block.length := by
  rw [lengthPrefixed, length_append, length_leBytes]

/-- The bytes of an object. -/
def TxObject.image : TxObject → Bytes
  | key packedKey => lengthPrefixed sizeofUint16 packedKey
  | record rec =>
    lengthPrefixed sizeofSizeT rec.unpackInfo ++ lengthPrefixed sizeofSizeT rec.encodedBlob

theorem resize_append (buf : Bytes) (n : ℕ) :
    resize buf (buf.length + n) = buf ++ replicate n 0 := by
  rw [resize, take_of_length_le (Nat.le_add_right ..), Nat.add_sub_cancel_left]

/-- Copying over the first of the bytes that were added. -/
theorem copyAt_append {buf src : Bytes} {offset room : ℕ} (n : ℕ) (hoff : offset = buf.length)
    (hroom : room = src.length + n) :
    copyAt (buf ++ replicate room 0) offset src = (buf ++ src) ++ replicate n 0 := by
  subst hoff hroom
  rw [copyAt, take_left, ← drop_drop, drop_left, drop_replicate,
    Nat.add_sub_cancel_left]

/-- A block read back from its place. -/
theorem read_lengthPrefixed {w : ℕ} {block : Bytes} (h : block.length < 256 ^ w)
    (before after : Bytes) :
    leNat (((before ++ (lengthPrefixed w block ++ after)).drop before.length).take w)
        = block.length ∧
      ((before ++ (lengthPrefixed w block ++ after)).drop (before.length + w)).take block.length
        = block := by
  have hw : (leBytes w block.length).length = w := length_leBytes w block.length
  rw [← drop_drop, drop_left, lengthPrefixed, append_assoc]
  refine ⟨?_, ?_⟩
  · nth_rewrite 1 [← hw]
    rw [take_left, leNat_leBytes_of_lt h]
  · nth_rewrite 1 [← hw]
    rw [drop_left, take_left]

namespace TxObject

variable {o : TxObject}

theorem length_image (o : TxObject) : o.image.length = o.serializedLength := by
  cases o with
  | key packedKey => exact length_lengthPrefixed ..
  | record rec =>
    rw [image, length_append, length_lengthPrefixed, length_lengthPrefixed, serializedLength,
      EloqRecord.serializedLength]
    omega

theorem serializeStr_eq (h : o.Fits) (str : Bytes) : o.serializeStr str = str ++ o.image := by
  cases o with
  | key packedKey =>
    have hlen : packedKey.length % 2 ^ 16 = packedKey.length :=
      Nat.mod_eq_of_lt (Nat.lt_of_le_of_lt h (by decide))
    rw [serializeStr, EloqKey.serializeStr, hlen, take_length, append_assoc]
    rfl
  | record rec => simp [serializeStr, EloqRecord.serializeStr, image, lengthPrefixed]

/-- **Both overloads write the same bytes**, and the offset is then behind them. -/
theorem serializeVec_eq (h : o.Fits) (buf : Bytes) :
    o.serializeVec (buf, buf.length) = (buf ++ o.image, (buf ++ o.image).length) := by
  cases o with
  | key packedKey =>
    have hlen : packedKey.length % 2 ^ 16 = packedKey.length :=
      Nat.mod_eq_of_lt (Nat.lt_of_le_of_lt h (by decide))
    simp only [serializeVec, EloqKey.serializeVec, hlen]
    rw [Nat.add_assoc, resize_append, copyAt_append packedKey.length rfl (by rw [length_leBytes]),
      copyAt_append 0 (by rw [length_append, length_leBytes]) (Nat.add_zero _).symm,
      replicate_zero, append_nil, append_assoc, ← lengthPrefixed, length_append,
      image, length_lengthPrefixed]
  | record rec =>
    simp only [serializeVec, EloqRecord.serializeVec]
    rw [show buf.length + 2 * sizeofSizeT + rec.encodedBlob.length + rec.unpackInfo.length
        = buf.length + (sizeofSizeT + (rec.unpackInfo.length + (sizeofSizeT
          + rec.encodedBlob.length))) by omega, resize_append,
      copyAt_append _ rfl (by rw [length_leBytes]),
      copyAt_append _ (by rw [length_append, length_leBytes]) rfl,
      copyAt_append rec.encodedBlob.length (by simp only [length_append, length_leBytes])
        (by rw [length_leBytes]),
      copyAt_append 0 (by simp only [length_append, length_leBytes]) (Nat.add_zero _).symm,
      replicate_zero, append_nil]
    simp [image, lengthPrefixed, length_leBytes, Nat.add_assoc]

/-- **An object is read back** from its place, whatever is around it. -/
theorem deserialize_image (h : o.Fits) (before after : Bytes) :
    o.txClass.deserialize (before ++ (o.image ++ after)) before.length
      = (o, (before ++ o.image).length) := by
  cases o with
  | key packedKey =>
    have hlt : packedKey.length < 256 ^ sizeofUint16 := Nat.lt_of_le_of_lt h (by decide)
    obtain ⟨hlen, hblock⟩ := read_lengthPrefixed hlt before after
    simp only [txClass, TxClass.deserialize, EloqKey.deserialize, image, hlen, hblock,
      length_append, length_lengthPrefixed, Nat.add_assoc]
  | record rec =>
    obtain ⟨hlen, hblock⟩ := read_lengthPrefixed (w := sizeofSizeT) (lt_of_lt_of_le h.1 (by decide))
      before (lengthPrefixed sizeofSizeT rec.encodedBlob ++ after)
    obtain ⟨hlen', hblock'⟩ := read_lengthPrefixed (w := sizeofSizeT)
      (lt_of_lt_of_le h.2 (by decide)) (before ++ lengthPrefixed sizeofSizeT rec.unpackInfo) after
    simp only [length_append, length_lengthPrefixed, ← Nat.add_assoc, append_assoc]
      at hlen' hblock'
    simp only [txClass, TxClass.deserialize, EloqRecord.deserialize, image, append_assoc, hlen,
      hblock, hlen', hblock', length_append, length_lengthPrefixed, ← Nat.add_assoc]

end TxObject

/-! ## Sequences of objects -/

/-- An object that can be serialized. -/
abbrev Serializable : Type := { o : TxObject // o.Fits }

/-- The bytes of some objects. -/
def images (os : List Serializable) : Bytes := os.flatMap fun o => o.1.image

theorem foldl_serializeStr : ∀ (os : List Serializable) (str : Bytes),
    (os.map val).foldl (fun str o => o.serializeStr str) str = str ++ images os
  | [], str => by simp [images]
  | o :: os, str => by
      rw [map_cons, foldl_cons, TxObject.serializeStr_eq o.2, foldl_serializeStr os,
        images, images, flatMap_cons, append_assoc]

theorem foldl_serializeVec : ∀ (os : List Serializable) (buf : Bytes),
    (os.map val).foldl (fun buf o => o.serializeVec buf) (buf, buf.length)
      = (buf ++ images os, (buf ++ images os).length)
  | [], buf => by simp [images]
  | o :: os, buf => by
      rw [map_cons, foldl_cons, TxObject.serializeVec_eq o.2, foldl_serializeVec os,
        images, images, flatMap_cons, append_assoc]

theorem deserializeAll_images : ∀ (os : List Serializable) (before : Bytes),
    deserializeAll (before ++ images os) (os.map fun o => o.1.txClass) before.length
      = (os.map val, (before ++ images os).length)
  | [], before => by simp [images, deserializeAll]
  | o :: os, before => by
      have htail := deserializeAll_images os (before ++ o.1.image)
      rw [append_assoc] at htail
      rw [images, flatMap_cons, ← images, map_cons, deserializeAll,
        TxObject.deserialize_image o.2]
      simp only [htail, map_cons]

/-- **Keys and records come back** from the buffer they were serialized into, which both overloads
fill alike; each adds as many bytes as `SerializedLength` says. -/
theorem deserializeAll_serializeAll (os : List Serializable) :
    TxObject.serializeVecAll (os.map val)
        = (TxObject.serializeStrAll (os.map val),
          (TxObject.serializeStrAll (os.map val)).length) ∧
      deserializeAll (TxObject.serializeStrAll (os.map val)) (os.map fun o => o.1.txClass) 0
        = (os.map val, (TxObject.serializeStrAll (os.map val)).length) ∧
      ∀ o ∈ os, ∀ buf,
        o.1.serializeVec (buf, buf.length)
          = (o.1.serializeStr buf, buf.length + o.1.serializedLength) ∧
        (o.1.serializeStr buf).length = buf.length + o.1.serializedLength := by
  have hstr : TxObject.serializeStrAll (os.map val) = images os :=
    foldl_serializeStr os []
  rw [hstr]
  refine ⟨foldl_serializeVec os [], deserializeAll_images os [], fun o _ buf => ?_⟩
  have hlen : (buf ++ o.1.image).length = buf.length + o.1.serializedLength := by
    rw [length_append, TxObject.length_image]
  rw [TxObject.serializeVec_eq o.2, TxObject.serializeStr_eq o.2, hlen]
  exact ⟨rfl, rfl⟩

end EloqSql
