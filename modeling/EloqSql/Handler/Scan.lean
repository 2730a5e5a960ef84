import Mathlib.Algebra.Order.BigOperators.Group.List
import Mathlib.Algebra.Order.Group.Nat
import EloqSql.Image.Length
import EloqSql.KeyDef.Lookup
import EloqSql.KeyDef.PrimaryKey

/-!
# Handler/Scan — the interval of an index scan

`prepareScan` turns a start key, a search flag and a range into an interval of packed keys. A bound
on the leading parts of a key compares as these parts do, whatever follows them; its ceiling, filled
up with `0xFF` to `m_maxlength`, comes after every stored key that starts like it
(`Bound.compare_ceiling`).

Two things spoil this. The flag of a range that is not one of two is dropped with its range, and a
key part map of the whole key, or of `MAX_REF_PARTS` parts, packs every part of the index — those
that the key does not give from the record buffer. `prepareScan_contains_iff` says exactly which
rows are misjudged then.
-/

namespace EloqSql

open MemCompare FieldPacking List

/-! ## `PrepareScan` -/

/-- `ha_rkey_function`. -/
inductive RKeyFunction where
  | keyExact | keyOrNext | keyOrPrev | afterKey | beforeKey | readPrefix | prefixLast
  | prefixLastOrPrev | mbrContain | mbrIntersect | mbrWithin | mbrDisjoint | mbrEqual
  deriving DecidableEq, Repr

inductive ScanDirection where
  | forward | backward
  deriving DecidableEq, Repr

/-- What `SetScanParameters` sets. -/
structure ScanParameters where
  direction : ScanDirection
  inclusive : Bool
  prefixMatch : Bool

/-- `SetScanParameters`; nothing for a flag that is not supported. -/
def setScanParameters : RKeyFunction → Option ScanParameters
  | .keyExact => some ⟨.forward, true, true⟩
  | .beforeKey => some ⟨.backward, false, false⟩
  | .afterKey => some ⟨.forward, false, false⟩
  | .keyOrNext => some ⟨.forward, true, false⟩
  | .prefixLast => some ⟨.backward, true, true⟩
  | .prefixLastOrPrev => some ⟨.backward, true, false⟩
  | .keyOrPrev | .readPrefix | .mbrContain | .mbrIntersect | .mbrWithin | .mbrDisjoint
  | .mbrEqual => none

/-- The longest a part can be, with its NULL byte. -/
def FieldPacking.maxLen (fpi : FieldPacking) : ℕ :=
  (if fpi.maybeNull then 1 else 0) + fpi.maxImageLen

/-- `m_maxlength`. -/
def KeyDef.maxlength (kd : KeyDef) : ℕ := (kd.packInfo.map FieldPacking.maxLen).sum

/-- `mono_key_def::get_ceiling_key`. -/
def KeyDef.getCeilingKey (kd : KeyDef) (key : Bytes) : Bytes :=
  (key ++ replicate (kd.maxlength - key.length) 0xFF).take kd.maxlength

/-- `key_range`. -/
structure KeyRange where
  key : KeyTuple
  keypartMap : ℕ
  flag : RKeyFunction

/-- What the handler knows of the index it scans. -/
structure ActiveIndex where
  share : TableShare
  keyDef : KeyDef
  /-- `active_index == table_share->primary_key`. -/
  isPrimary : Bool
  /-- `actual_n_key_parts`. -/
  keyPartCnt : ℕ

namespace ActiveIndex

variable (a : ActiveIndex)

/-- Whether a key part map covers the whole key. -/
def useFullKey (keypartMap : ℕ) : Bool :=
  keypartMap == haWholeKey || keypartMap == 2 ^ a.keyPartCnt - 1

/-- `EncodeScanKey`: the packed key, and what it leaves in the record buffer. -/
def encodeScanKey (recordBuffer : Record) (key : KeyTuple) (keypartMap : ℕ) : Bytes × Record :=
  let parts := (a.share.key a.keyDef.keyno).extKeyParts
  (packIndexTuple a.share a.keyDef recordBuffer key keypartMap,
    keyRestore a.share recordBuffer parts (key.take (calculateKeyLen parts.length keypartMap)))

/-- A bound that all keys with its parts are to be below of, unless it is a whole primary key. -/
def ceilingUnlessFull (keypartMap : ℕ) (key : Bytes) : Bytes :=
  if !a.useFullKey keypartMap || !a.isPrimary then a.keyDef.getCeilingKey key else key

/-- `PrepareForwardScanEndKey`: the end key and whether it is inclusive, or nothing. -/
def prepareForwardScanEndKey (recordBuffer : Record) (endRange : Option KeyRange) :
    Option (Bytes × Bool) :=
  match endRange with
  | none => none
  | some range =>
    let key := (a.encodeScanKey recordBuffer range.key range.keypartMap).1
    match range.flag with
    | .beforeKey => some (key, false)
    | .afterKey => some (a.ceilingUnlessFull range.keypartMap key, true)
    | _ => none

/-- `PrepareBackwardScanEndKey`. -/
def prepareBackwardScanEndKey (recordBuffer : Record) (startRange : Option KeyRange) :
    Option (Bytes × Bool) :=
  match startRange with
  | none => none
  | some range =>
    let key := (a.encodeScanKey recordBuffer range.key range.keypartMap).1
    match range.flag with
    | .keyOrNext => some (key, true)
    | .afterKey => some (a.ceilingUnlessFull range.keypartMap key, false)
    | _ => none

end ActiveIndex

/-- The interval of a scan: where it starts and ends, and whether that is included. -/
structure ScanInterval where
  direction : ScanDirection
  start : Bytes
  startInclusive : Bool
  /-- `scan_end_key_` and `end_inclusive`, if `end_specified`. -/
  stop : Option (Bytes × Bool)
  deriving DecidableEq, Repr

/-- `PrepareScan`, with the ranges that the SQL layer has set. -/
def ActiveIndex.prepareScan (a : ActiveIndex) (recordBuffer : Record) (key : KeyTuple)
    (keypartMap : ℕ) (flag : RKeyFunction) (endRange startRange : Option KeyRange) :
    Option ScanInterval :=
  match setScanParameters flag with
  | none => none
  | some ⟨direction, inclusive, prefixMatch⟩ =>
    let (searchKey, recordBuffer) := a.encodeScanKey recordBuffer key keypartMap
    let ceiling := a.keyDef.getCeilingKey searchKey
    some <|
      if prefixMatch then
        match direction with
        | .forward => ⟨direction, searchKey, inclusive, some (ceiling, true)⟩
        | .backward => ⟨direction, ceiling, inclusive, some (searchKey, true)⟩
      else
        match direction with
        | .forward =>
          ⟨direction, if inclusive then searchKey else a.ceilingUnlessFull keypartMap searchKey,
            inclusive, a.prepareForwardScanEndKey recordBuffer endRange⟩
        | .backward =>
          ⟨direction, if inclusive then a.ceilingUnlessFull keypartMap searchKey else searchKey,
            inclusive, a.prepareBackwardScanEndKey recordBuffer startRange⟩

/-- A key is not before a bound, or behind it. -/
def notBefore (inclusive : Bool) (key bound : Bytes) : Prop :=
  if inclusive then compare key bound ≠ .lt else compare key bound = .gt

/-- A key is not behind a bound, or before it. -/
def notBehind (inclusive : Bool) (key bound : Bytes) : Prop :=
  if inclusive then compare key bound ≠ .gt else compare key bound = .lt

/-- **The interval contains a key.** -/
def ScanInterval.Contains (i : ScanInterval) (key : Bytes) : Prop :=
  match i.direction with
  | .forward => notBefore i.startInclusive key i.start ∧
      ∀ stop ∈ i.stop, notBehind stop.2 key stop.1
  | .backward => notBehind i.startInclusive key i.start ∧
      ∀ stop ∈ i.stop, notBefore stop.2 key stop.1

/-! ## Stored keys and bounds -/

namespace Table

variable {t : Table}

namespace Index

variable (ix : Index t)

/-- Its `KEY`. -/
def key : Index t → Key
  | primary pk _ => t.key pk
  | secondary x => x.key

def isPrimary : Index t → Bool
  | primary _ _ => true
  | secondary _ => false

/-- A unique secondary index, whose keys are cut behind the declared parts. -/
def isUniqueSk : Index t → Bool
  | primary _ _ => false
  | secondary x => x.key.nosame

/-- `actual_n_key_parts`: all parts the SQL layer knows, or the declared ones only. -/
def keyPartCnt (extended : Bool) : ℕ :=
  if extended then ix.key.extKeyParts.length else ix.key.userDefinedKeyParts.length

/-- The index as the handler scans it. -/
def active (unset : ℕ) (extended : Bool) : ActiveIndex :=
  ⟨t.toTableShare, ix.keyDef unset, ix.isPrimary, ix.keyPartCnt extended⟩

/-- The parts of the keys that are stored. -/
def storedParts : List KeyPartInfo :=
  if ix.isUniqueSk then ix.key.userDefinedKeyParts else ix.parts

/-- The hidden primary key at the end of the keys that are stored. -/
def storedHidden (id : Bytes) : Bytes := if ix.isUniqueSk then [] else (t.hiddenPk id).getD []

/-- The key that is stored for a row. -/
def storedKey (r : Record) (id : Bytes) : Bytes :=
  ix.storedParts.flatMap (partImage t.toTableShare r) ++ ix.storedHidden id

theorem key_mem : ix.key ∈ t.keyInfo := by
  cases ix with
  | primary pk h => exact t.key_mem (t.pk_wf pk h).1
  | secondary x => exact x.key_mem

theorem keyno_keyDef (unset : ℕ) : t.key (ix.keyDef unset).keyno = ix.key := by
  cases ix <;> rfl

/-- The parts start with those that the SQL layer knows. -/
theorem parts_eq : ∃ more, ix.parts = ix.key.extKeyParts ++ more := by
  cases ix with
  | primary pk h => exact ⟨[], (append_nil _).symm⟩
  | secondary x => exact ⟨_, x.ext_append_missing.symm⟩

theorem keyPartCnt_le (extended : Bool) : ix.keyPartCnt extended ≤ ix.key.extKeyParts.length := by
  rw [keyPartCnt]
  split_ifs
  · exact le_rfl
  · obtain ⟨tail, hext, -⟩ := t.ext_sublist _ ix.key_mem
    rw [hext, length_append]
    exact Nat.le_add_right _ _

theorem take_parts {n : ℕ} (hn : n ≤ ix.key.extKeyParts.length) :
    ix.parts.take n = ix.key.extKeyParts.take n := by
  obtain ⟨more, hmore⟩ := ix.parts_eq
  rw [hmore, take_append_of_le_length hn]

/-- The keys that are stored start with the parts that the SQL layer knows. -/
theorem take_storedParts {n : ℕ} (hn : n ≤ ix.key.extKeyParts.length) :
    ix.storedParts.take n = ix.key.extKeyParts.take n := by
  rw [storedParts]
  split_ifs with hu
  · rw [t.ext_nosame _ ix.key_mem]
    cases ix with
    | primary pk h => exact (t.pk_wf pk h).2.1
    | secondary x => exact hu
  · exact ix.take_parts hn

end Index

/-- A bound of a scan: values for some leading parts of a key, those of a row, and their key part
map. -/
structure Bound (ix : Index t) (extended : Bool) where
  row : Row t.toTableShare
  parts : ℕ
  /-- The key part map is `HA_WHOLE_KEY`. -/
  whole : Bool
  pos : 0 < parts
  le : parts ≤ ix.keyPartCnt extended
  whole_eq : whole = true → parts = ix.keyPartCnt extended

namespace Bound

variable {ix : Index t} {extended : Bool} (b : Bound ix extended)

/-- The parts that it gives values for. -/
def given : List KeyPartInfo := ix.key.extKeyParts.take b.parts

/-- Its key tuple. -/
def key : KeyTuple := keyCopy t.toTableShare b.given b.row.record

def keypartMap : ℕ := if b.whole then haWholeKey else 2 ^ b.parts - 1

/-- `pack_record` takes `0` and `MAX_REF_PARTS` for all parts of the index. -/
def packsAll : Bool := b.whole || b.parts == maxRefParts

/-- What it leaves in the record buffer. -/
def restored (recordBuffer : Record) : Record :=
  keyRestore t.toTableShare recordBuffer b.given b.key

/-- The parts that are packed but not given, out of the record buffer. -/
def stray (recordBuffer : Record) : Bytes :=
  if b.packsAll then
    (ix.parts.drop b.parts).flatMap (partImage t.toTableShare (b.restored recordBuffer))
  else []

/-- The images of the given parts. -/
def image : Bytes := b.given.flatMap (partImage t.toTableShare b.row.record)

theorem le_ext : b.parts ≤ ix.key.extKeyParts.length := b.le.trans (ix.keyPartCnt_le extended)

theorem length_given : b.given.length = b.parts := by
  rw [given, length_take, Nat.min_eq_left b.le_ext]

theorem given_nodup : (b.given.map (·.fieldIndex)).Nodup := by
  rw [given, map_take]
  exact (t.parts_nodup _ ix.key_mem).sublist (take_sublist _ _)

theorem given_wf {p : KeyPartInfo} (hp : p ∈ b.given) : p.Wf t :=
  t.part_wf _ ix.key_mem p (mem_of_mem_take hp)

/-- The given parts are packed as the row has them. -/
theorem given_restored (scratch : Scratch t) :
    b.given.flatMap (partImage t (b.restored scratch.record)) = b.image := by
  refine flatMap_congr fun p hp => ?_
  refine partImage_keyRestorePart b.row scratch (b.given_wf hp) ?_
  exact keyRestore_of_mem t b.given_nodup hp

theorem length_key : b.key.length = b.parts := by
  rw [key, keyCopy, length_map, b.length_given]

theorem mask_lt : 2 ^ b.parts - 1 < haWholeKey := by
  have hle := b.le_ext.trans (t.parts_le _ ix.key_mem)
  have := Nat.pow_le_pow_right (n := 2) (by decide) (hle.trans (show maxRefParts ≤ 63 by decide))
  rw [haWholeKey]
  omega

/-- The key part map covers the key tuple. -/
theorem take_key :
    b.key.take (calculateKeyLen ix.key.extKeyParts.length b.keypartMap) = b.key := by
  refine take_of_length_le ?_
  rw [b.length_key, keypartMap]
  split_ifs
  · have hle := t.parts_le _ ix.key_mem
    have := Nat.pow_le_pow_right (n := 2) (by decide) (hle.trans (show maxRefParts ≤ 64 by decide))
    rw [calculateKeyLen_eq (by rw [haWholeKey]; omega)]
    exact b.le_ext
  · rw [calculateKeyLen_mask b.le_ext]

/-- How many parts are packed: those that are given, or all of the index. -/
theorem usedKeyParts_eq (unset : ℕ) :
    usedKeyParts t (ix.keyDef unset) false false
        (if b.keypartMap = haWholeKey then 0 else myCountBits b.keypartMap)
      = if b.packsAll then ix.parts.length else b.parts := by
  have hkp := ix.keyParts_eq unset
  have hmask := b.mask_lt
  have hpos := b.pos
  have hcount := myCountBits_eq b.parts (b.le_ext.trans (t.parts_le _ ix.key_mem))
  have hall : ∀ n, n = 0 ∨ n = maxRefParts →
      usedKeyParts t (ix.keyDef unset) false false n = ix.parts.length := by
    intro n hn
    cases hh : t.tableHasHiddenPk with
    | true => simp [usedKeyParts, hh, hn, hkp]
    | false => simp [usedKeyParts, hh, hn, hkp]
  cases hw : b.whole with
  | true =>
    rw [keypartMap, hw, if_pos rfl, if_pos rfl, packsAll, hw, Bool.true_or, if_pos rfl]
    exact hall 0 (Or.inl rfl)
  | false =>
    rw [keypartMap, hw, if_neg Bool.false_ne_true, if_neg hmask.ne, hcount, packsAll, hw,
      Bool.false_or]
    by_cases hmax : b.parts = maxRefParts
    · rw [hall _ (Or.inr hmax), if_pos (by simpa using hmax)]
    · rw [if_neg (by simpa using hmax)]
      simp [usedKeyParts, hmax, hpos.ne']

/-- **A bound is packed as the images of its parts**, and of the stray parts. -/
theorem encodeScanKey_eq (unset : ℕ) (scratch : Scratch t) :
    (ix.active unset extended).encodeScanKey scratch.record b.key b.keypartMap
      = (b.image ++ b.stray scratch.record, b.restored scratch.record) := by
  have hkey : t.key (ix.keyDef unset).keyno = ix.key := ix.keyno_keyDef unset
  have hrestore : keyRestore t scratch.record ix.key.extKeyParts b.key
      = b.restored scratch.record := by
    rw [restored, given, ← keyRestore_take, b.length_key]
  have hhead : (ix.parts.take b.parts).flatMap
        (partImage t (b.restored scratch.record)) = b.image := by
    rw [ix.take_parts b.le_ext]
    exact b.given_restored scratch
  have hinfo : ∀ n ≤ ix.parts.length, (ix.keyDef unset).packInfo.take n
      = (ix.parts.take n).map (KeyDef.packPart t) := by
    intro n hn
    rw [ix.packInfo_eq, take_append_of_le_length (by simpa using hn), map_take]
  have hle : b.parts ≤ ix.parts.length := by
    obtain ⟨more, hmore⟩ := ix.parts_eq
    rw [hmore, length_append]
    exact b.le_ext.trans (Nat.le_add_right _ _)
  simp only [ActiveIndex.encodeScanKey, Index.active, packIndexTuple, hkey, b.take_key, hrestore,
    packRecord_none_tuple, b.usedKeyParts_eq unset]
  refine Prod.ext ?_ rfl
  rw [stray]
  split_ifs with hall
  · rw [hinfo _ le_rfl, take_length, packParts_map, ← hhead, ← flatMap_append,
      take_append_drop]
  · rw [hinfo _ hle, packParts_map, hhead, append_nil]

end Bound

/-! ## Lengths -/

/-- **No part of a key is longer than `m_maxlength` allows for.** -/
theorem length_partImage_le {p : KeyPartInfo} (hp : p.Wf t)
    (row : Row t) :
    (partImage t row.record p).length
      ≤ (KeyDef.packPart t p).maxLen := by
  have hnull : (KeyDef.packPart t p).maybeNull = (t.field p.fieldIndex).maybeNull :=
    packPart_maybeNull p
  rw [FieldPacking.maxLen, hnull]
  simp only [partImage, KeyDef.packPart]
  obtain ⟨hm, hn⟩ | ⟨hn, hv⟩ := row.null_or_valid hp.1
  · simp [hm, hn]
  · have := length_pack_le (i := p.fieldIndex) p.cloned hp.2 hv
    rw [hn]
    cases hm : (t.field p.fieldIndex).maybeNull with
    | true =>
      simp only [if_true, Bool.false_eq_true, if_false, length_cons]
      omega
    | false => simpa using this

/-- The longest some parts can be. -/
def maxLens (ps : List KeyPartInfo) : ℕ :=
  (ps.map fun p => (KeyDef.packPart t.toTableShare p).maxLen).sum

theorem length_flatMap_partImage_le (ps : List KeyPartInfo)
    (hps : ∀ p ∈ ps, p.Wf t) (row : Row t) :
    (ps.flatMap (partImage t row.record)).length ≤ maxLens (t := t) ps := by
  rw [length_flatMap, maxLens]
  exact sum_le_sum fun p hp => length_partImage_le (hps p hp) row

namespace Index

variable (ix : Index t)

theorem maxlength_eq (unset : ℕ) : (ix.keyDef unset).maxlength
    = maxLens (t := t) ix.parts + if t.tableHasHiddenPk then myUuidSize else 0 := by
  rw [KeyDef.maxlength, ix.packInfo_eq, map_append, sum_append, map_map]
  split_ifs <;> rfl

/-- What follows the first parts in the key of a row. -/
def rest (n : ℕ) (r : Record) (id : Bytes) : Bytes :=
  (ix.storedParts.drop n).flatMap (partImage t.toTableShare r) ++ ix.storedHidden id

theorem storedKey_eq {n : ℕ} (hn : n ≤ ix.key.extKeyParts.length) (r : Record) (id : Bytes) :
    ix.storedKey r id = (ix.key.extKeyParts.take n).flatMap (partImage t r)
      ++ ix.rest n r id := by
  rw [← ix.take_storedParts hn, rest, ← append_assoc, ← flatMap_append,
    take_append_drop, storedKey]

theorem storedParts_prefix : ∃ more, ix.parts = ix.storedParts ++ more := by
  rw [storedParts]
  split_ifs with hu
  · cases ix with
    | primary pk h => exact absurd hu Bool.false_ne_true
    | secondary x => exact ⟨x.missing, rfl⟩
  · exact ⟨[], (append_nil _).symm⟩

/-- **A bound and what follows its parts in a stored key fit into `m_maxlength` together.** -/
theorem length_add_rest_le {n : ℕ} (unset : ℕ) (row row' : Row t) (id : HiddenPk) :
    ((ix.parts.take n).flatMap (partImage t row.record)).length
        + (ix.rest n row'.record id.1).length ≤ (ix.keyDef unset).maxlength := by
  have htake := length_flatMap_partImage_le (ix.parts.take n)
    (fun p hp => ix.wf_of_mem (mem_of_mem_take hp)) row
  obtain ⟨more, hmore⟩ := ix.storedParts_prefix
  have hdrop := length_flatMap_partImage_le (ix.storedParts.drop n)
    (fun p hp => ix.wf_of_mem (hmore ▸ mem_append_left _ (mem_of_mem_drop hp))) row'
  have hsum : maxLens (t := t) (ix.parts.take n) + maxLens (t := t) (ix.parts.drop n)
      = maxLens (t := t) ix.parts := by
    rw [maxLens, maxLens, maxLens, ← sum_append, ← map_append, take_append_drop]
  have hle : maxLens (t := t) (ix.storedParts.drop n) ≤ maxLens (t := t) (ix.parts.drop n) := by
    rw [hmore, drop_append, maxLens, maxLens, map_append, sum_append]
    exact Nat.le_add_right _ _
  have hhidden : (ix.storedHidden id.1).length ≤ if t.tableHasHiddenPk then myUuidSize else 0 := by
    rw [storedHidden, hiddenPk]
    split_ifs <;> simp [id.2]
  rw [rest, length_append, ix.maxlength_eq]
  omega

end Index

/-! ## How a stored key compares with a bound -/

namespace Bound

variable {ix : Index t} {extended : Bool} (b : Bound ix extended) (unset : ℕ)
  (recordBuffer : Record) (row : Row t) (id : HiddenPk)

/-- How the row compares with the bound in the given parts. -/
def lead : Ordering := thenAll (b.given.map (partCmp t.toTableShare row.record b.row.record))

/-- What is behind them in the ceiling. -/
def ceilingTail : Bytes :=
  (b.stray recordBuffer ++ replicate ((ix.keyDef unset).maxlength
    - (b.image ++ b.stray recordBuffer).length) 0xFF).take
    ((ix.keyDef unset).maxlength - b.image.length)

/-- A row with the given parts is taken to be below the bound, because of stray parts. -/
def TakenBelow : Prop :=
  b.packsAll = true ∧ b.lead row = .eq ∧
    compare (ix.rest b.parts row.record id.1) (b.stray recordBuffer) = .lt

/-- A row with the given parts is taken to be above the ceiling of the bound, because of stray
parts. -/
def TakenAbove : Prop :=
  b.packsAll = true ∧ b.lead row = .eq ∧
    compare (ix.rest b.parts row.record id.1) (b.ceilingTail unset recordBuffer) = .gt

theorem length_image_add_rest_le : b.image.length + (ix.rest b.parts row.record id.1).length
    ≤ (ix.keyDef unset).maxlength := by
  have h := ix.length_add_rest_le (n := b.parts) unset b.row row id
  rwa [ix.take_parts b.le_ext] at h

/-- **A stored key compares with a bound as the given parts do**, then as what follows them. -/
theorem compare_storedKey (tail : Bytes) :
    compare (ix.storedKey row.record id.1) (b.image ++ tail)
      = (b.lead row).then (compare (ix.rest b.parts row.record id.1) tail) := by
  rw [ix.storedKey_eq b.le_ext]
  refine ComparesAs.flatMap (fun p hp => ?_) _ _
  exact comparesAs_partImage (b.given_wf hp) row b.row

theorem getCeilingKey_eq : (ix.keyDef unset).getCeilingKey (b.image ++ b.stray recordBuffer)
    = b.image ++ b.ceilingTail unset recordBuffer := by
  have hle := b.length_image_add_rest_le unset b.row ⟨replicate myUuidSize 0, by decide⟩
  rw [KeyDef.getCeilingKey, ceilingTail, append_assoc, take_append,
    take_of_length_le (by omega)]

theorem stray_eq_nil (h : b.packsAll = false) : b.stray recordBuffer = [] :=
  if_neg (by simp [h])

/-- A stored key is below a bound if its parts are, or if it is taken to be. -/
theorem compare_eq_lt_iff :
    compare (ix.storedKey row.record id.1) (b.image ++ b.stray recordBuffer) = .lt ↔
      b.lead row = .lt ∨ b.TakenBelow recordBuffer row id := by
  rw [b.compare_storedKey, Ordering.then_eq_lt, TakenBelow]
  refine or_congr_right (and_iff_right_of_imp fun h => ?_).symm
  by_contra hall
  rw [b.stray_eq_nil _ (Bool.eq_false_iff.mpr hall)] at h
  cases hr : ix.rest b.parts row.record id.1 <;> simp [hr] at h

/-- **The ceiling of a bound comes after every stored key with its parts**, unless that is taken to
be above it. -/
theorem compare_ceiling_eq_gt_iff :
    compare (ix.storedKey row.record id.1)
        ((ix.keyDef unset).getCeilingKey (b.image ++ b.stray recordBuffer)) = .gt ↔
      b.lead row = .gt ∨ b.TakenAbove unset recordBuffer row id := by
  rw [b.getCeilingKey_eq, b.compare_storedKey, Ordering.then_eq_gt, TakenAbove]
  refine or_congr_right (and_iff_right_of_imp fun h => ?_).symm
  by_contra hall
  have hle := b.length_image_add_rest_le unset row id
  rw [ceilingTail, b.stray_eq_nil _ (Bool.eq_false_iff.mpr hall), append_nil, nil_append,
    take_of_length_le (by simp)] at h
  exact compare_replicate_ne_gt Collation.compare_top_ne_gt (by omega) h.2

/-- A whole primary key is all of a stored key. -/
theorem rest_eq_nil (hp : ix.isPrimary = true) (hn : b.parts = ix.keyPartCnt extended) :
    ix.rest b.parts row.record id.1 = [] ∧ b.stray recordBuffer = [] := by
  cases ix with
  | secondary x => exact absurd hp Bool.false_ne_true
  | primary pk h =>
    have hmem := t.key_mem (t.pk_wf pk h).1
    have hcnt : b.parts = (t.key pk).extKeyParts.length := by
      rw [hn, Index.keyPartCnt, Index.key, t.ext_nosame _ hmem (t.pk_wf pk h).2.1, ite_self]
    have hdrop : (Index.primary pk h).parts.drop b.parts = [] := by
      rw [hcnt]
      exact drop_length
    have hhidden : t.hiddenPk id.1 = none := by
      rw [hiddenPk, TableShare.tableHasHiddenPk, h]
      rfl
    constructor
    · have hstored : (Index.primary pk h).storedParts = (Index.primary pk h).parts := rfl
      have hend : (Index.primary pk h).storedHidden id.1 = (t.hiddenPk id.1).getD [] := rfl
      rw [Index.rest, hstored, hend, hdrop, hhidden]
      rfl
    · rw [stray, hdrop, flatMap_nil, ite_self]

theorem parts_eq_of_useFullKey (h : (ix.active unset extended).useFullKey b.keypartMap = true) :
    b.parts = ix.keyPartCnt extended := by
  cases hw : b.whole with
  | true => exact b.whole_eq hw
  | false =>
    have hmask := b.mask_lt
    rw [ActiveIndex.useFullKey, keypartMap, hw, if_neg Bool.false_ne_true, Bool.or_eq_true,
      beq_iff_eq, beq_iff_eq, or_iff_right hmask.ne] at h
    have hpos : ∀ n : ℕ, 0 < 2 ^ n := Nat.two_pow_pos
    have hpow : 2 ^ b.parts = 2 ^ ix.keyPartCnt extended := by
      have := hpos b.parts
      have := hpos (ix.keyPartCnt extended)
      have : 2 ^ b.parts - 1 = 2 ^ ix.keyPartCnt extended - 1 := h
      omega
    exact Nat.pow_right_injective le_rfl hpow

theorem compare_ceilingUnlessFull_eq_gt_iff :
    compare (ix.storedKey row.record id.1)
      ((ix.active unset extended).ceilingUnlessFull b.keypartMap
        (b.image ++ b.stray recordBuffer)) = .gt ↔
      b.lead row = .gt ∨ b.TakenAbove unset recordBuffer row id := by
  rw [ActiveIndex.ceilingUnlessFull]
  split_ifs with hfull
  · exact b.compare_ceiling_eq_gt_iff unset recordBuffer row id
  · rw [Bool.or_eq_true, not_or, Bool.not_eq_true', Bool.not_eq_true', Bool.not_eq_false,
      Bool.not_eq_false] at hfull
    obtain ⟨hrest, hstray⟩ := b.rest_eq_nil recordBuffer row id hfull.2
      (b.parts_eq_of_useFullKey unset hfull.1)
    rw [hstray, b.compare_storedKey, hrest, List.compare_nil_nil, Ordering.then_eq, TakenAbove,
      hrest]
    refine (or_iff_left_of_imp fun h => ?_).symm
    cases ht : b.ceilingTail unset recordBuffer <;> simp [ht] at h

/-! A bound judges a row as the given parts do, unless the row is taken to be at its other side. -/

theorem judges_lt : compare (ix.storedKey row.record id.1) (b.image ++ b.stray recordBuffer) = .lt ↔
    (b.lead row = .lt ↔ ¬ b.TakenBelow recordBuffer row id) := by
  have htie : b.TakenBelow recordBuffer row id → b.lead row ≠ .lt := fun h => by simp [h.2.1]
  rw [b.compare_eq_lt_iff recordBuffer row id]
  tauto

theorem judges_not_lt :
    compare (ix.storedKey row.record id.1) (b.image ++ b.stray recordBuffer) ≠ .lt ↔
      (b.lead row ≠ .lt ↔ ¬ b.TakenBelow recordBuffer row id) := by
  rw [ne_eq, b.judges_lt recordBuffer row id]
  tauto

theorem judges_gt : compare (ix.storedKey row.record id.1)
      ((ix.active unset extended).ceilingUnlessFull b.keypartMap
        (b.image ++ b.stray recordBuffer)) = .gt ↔
    (b.lead row = .gt ↔ ¬ b.TakenAbove unset recordBuffer row id) := by
  have htie : b.TakenAbove unset recordBuffer row id → b.lead row ≠ .gt := fun h => by simp [h.2.1]
  rw [b.compare_ceilingUnlessFull_eq_gt_iff unset recordBuffer row id]
  tauto

theorem judges_not_gt : compare (ix.storedKey row.record id.1)
      ((ix.active unset extended).ceilingUnlessFull b.keypartMap
        (b.image ++ b.stray recordBuffer)) ≠ .gt ↔
    (b.lead row ≠ .gt ↔ ¬ b.TakenAbove unset recordBuffer row id) := by
  rw [ne_eq, b.judges_gt unset recordBuffer row id]
  tauto

/-- The bound and its ceiling judge together which rows have the given parts. -/
theorem judges_eq :
    compare (ix.storedKey row.record id.1) (b.image ++ b.stray recordBuffer) ≠ .lt ∧
        compare (ix.storedKey row.record id.1)
          ((ix.keyDef unset).getCeilingKey (b.image ++ b.stray recordBuffer)) ≠ .gt ↔
      (b.lead row = .eq ↔
        ¬ (b.TakenBelow recordBuffer row id ∨ b.TakenAbove unset recordBuffer row id)) := by
  have htie : b.TakenBelow recordBuffer row id ∨ b.TakenAbove unset recordBuffer row id →
      b.lead row = .eq := fun h => h.elim (fun h => h.2.1) (fun h => h.2.1)
  rw [ne_eq, ne_eq, b.compare_eq_lt_iff recordBuffer row id,
    b.compare_ceiling_eq_gt_iff unset recordBuffer row id]
  cases hl : b.lead row <;> simp only [hl] at htie <;> simp <;> tauto

end Bound

/-! ## Which rows a scan is to find, and which it finds -/

/-- What a search flag asks of a row that compares with the start key as `o`. -/
def StartHolds (flag : RKeyFunction) (o : Ordering) : Prop :=
  match flag with
  | .keyExact | .prefixLast => o = .eq
  | .keyOrNext => o ≠ .lt
  | .afterKey => o = .gt
  | .beforeKey => o = .lt
  | .prefixLastOrPrev => o ≠ .gt
  | _ => False

/-- What the range asks of a row that compares with its key as `o`: `handler::compare_key` takes
every flag but one for an inclusive end, and `QUICK_SELECT_DESC::cmp_prev` every flag but one for an
inclusive start. -/
def RangeHolds (direction : ScanDirection) (flag : RKeyFunction) (o : Ordering) : Prop :=
  match direction with
  | .forward => if flag = .beforeKey then o = .lt else o ≠ .gt
  | .backward => if flag = .afterKey then o = .gt else o ≠ .lt

/-- A call of `index_read_map` that scans an index. -/
structure ScanRequest (ix : Index t) (extended : Bool) where
  recordBuffer : Scratch t.toTableShare
  start : Bound ix extended
  flag : RKeyFunction
  supported : (setScanParameters flag).isSome
  endRange : Option (Bound ix extended × RKeyFunction)
  startRange : Option (Bound ix extended × RKeyFunction)

namespace ScanRequest

variable {ix : Index t} {extended : Bool} (req : ScanRequest ix extended) (unset : ℕ)
  (row : Row t) (id : HiddenPk)

/-- A range as the SQL layer passes it. -/
def keyRange (range : Bound ix extended × RKeyFunction) : KeyRange :=
  ⟨range.1.key, range.1.keypartMap, range.2⟩

def prepareScan : Option ScanInterval :=
  (ix.active unset extended).prepareScan req.recordBuffer.record req.start.key req.start.keypartMap
    req.flag (req.endRange.map keyRange) (req.startRange.map keyRange)

/-- The range that ends the scan, unless it is for the keys with a prefix. -/
def range : Option (ScanDirection × Bound ix extended × RKeyFunction) :=
  match req.flag with
  | .afterKey | .keyOrNext => req.endRange.map (.forward, ·)
  | .beforeKey | .prefixLastOrPrev => req.startRange.map (.backward, ·)
  | _ => none

/-- **The row is at the right side of the start key.** -/
def InStart : Prop := StartHolds req.flag (req.start.lead row)

/-- **The row is at the right side of the range.** -/
def InRange : Prop :=
  ∀ range ∈ req.range, RangeHolds range.1 range.2.2 (range.2.1.lead row)

/-- The start key has stray parts that the row is taken to be at the wrong side of. -/
def StartMisjudged : Prop :=
  match req.flag with
  | .keyOrNext | .beforeKey => req.start.TakenBelow req.recordBuffer.record row id
  | .afterKey | .prefixLastOrPrev => req.start.TakenAbove unset req.recordBuffer.record row id
  | _ => req.start.TakenBelow req.recordBuffer.record row id ∨
      req.start.TakenAbove unset req.recordBuffer.record row id

/-- A range has stray parts that the row is taken to be at the wrong side of, or the row is at the
wrong side of a range that is dropped for its flag. -/
def Misjudges (recordBuffer : Record) : ScanDirection × Bound ix extended × RKeyFunction → Prop
  | (.forward, b, .beforeKey) | (.backward, b, .keyOrNext) => b.TakenBelow recordBuffer row id
  | (_, b, .afterKey) => b.TakenAbove unset recordBuffer row id
  | (direction, b, flag) => ¬ RangeHolds direction flag (b.lead row)

def RangeMisjudged : Prop :=
  ∃ range ∈ req.range, Misjudges unset row id (req.start.restored req.recordBuffer.record) range

/-! ## The two ends -/

/-- The range judges the row as it should, or misjudges it. -/
def Judges (recordBuffer : Record) (direction : ScanDirection)
    (range : Option (Bound ix extended × RKeyFunction)) : Prop :=
  (∀ r ∈ range, RangeHolds direction r.2 (r.1.lead row)) ↔
    ¬ ∃ r ∈ range, Misjudges unset row id recordBuffer (direction, r)

variable (scratch : Scratch t) (range : Option (Bound ix extended × RKeyFunction))

theorem forward_stop_iff :
    (∀ stop ∈ (ix.active unset extended).prepareForwardScanEndKey scratch.record
        (range.map keyRange), notBehind stop.2 (ix.storedKey row.record id.1) stop.1) ↔
      Judges unset row id scratch.record .forward range := by
  obtain _ | ⟨b, flag⟩ := range
  · simp [ActiveIndex.prepareForwardScanEndKey, Judges]
  have hlt := b.judges_lt scratch.record row id
  have hgt := b.judges_not_gt unset scratch.record row id
  have hkey := b.encodeScanKey_eq unset scratch
  cases flag <;> simp_all [ActiveIndex.prepareForwardScanEndKey, keyRange, notBehind, RangeHolds,
    Misjudges, Judges]

theorem backward_stop_iff :
    (∀ stop ∈ (ix.active unset extended).prepareBackwardScanEndKey scratch.record
        (range.map keyRange), notBefore stop.2 (ix.storedKey row.record id.1) stop.1) ↔
      Judges unset row id scratch.record .backward range := by
  obtain _ | ⟨b, flag⟩ := range
  · simp [ActiveIndex.prepareBackwardScanEndKey, Judges]
  have hlt := b.judges_not_lt scratch.record row id
  have hgt := b.judges_gt unset scratch.record row id
  have hkey := b.encodeScanKey_eq unset scratch
  cases flag <;> simp_all [ActiveIndex.prepareBackwardScanEndKey, keyRange, notBefore, RangeHolds,
    Misjudges, Judges]

/-- Two ends that each judge right unless they misjudge are right together, unless one misjudges
while the other holds, or both misjudge and agree. -/
theorem exact_iff_of_judges {A B S E s e : Prop} (hA : A ↔ (S ↔ ¬ s)) (hB : B ↔ (E ↔ ¬ e)) :
    (A ∧ B ↔ S ∧ E) ↔ ¬ (s ∧ ¬ e ∧ E) ∧ ¬ (e ∧ ¬ s ∧ S) ∧ ¬ (s ∧ e ∧ (S ↔ E)) := by
  rw [hA, hB]
  by_cases hs : s <;> by_cases he : e <;> by_cases hS : S <;> simp [hs, he, hS]

/-- Without a range the start alone judges. -/
theorem exact_iff_of_unended {A S E s e : Prop} (hA : A ↔ (S ↔ ¬ s)) (hE : E ↔ ¬ e) :
    (A ↔ S ∧ E) ↔ ¬ (s ∧ ¬ e ∧ E) ∧ ¬ (e ∧ ¬ s ∧ S) ∧ ¬ (s ∧ e ∧ (S ↔ E)) := by
  rw [← exact_iff_of_judges hA (iff_of_true trivial hE), and_true]

/-- The record buffer that the range is restored into. -/
def nextBuffer : Scratch t.toTableShare :=
  ⟨req.start.restored req.recordBuffer.record, fun _ hi =>
    shaped_keyRestore req.start.row req.recordBuffer req.start.given_nodup
      (fun _ hp => (req.start.given_wf hp).2) hi⟩

theorem range_judges {direction : ScanDirection}
    {r : Option (Bound ix extended × RKeyFunction)} (hr : req.range = r.map (direction, ·))
    {B : Prop} (hB : B ↔ Judges unset row id req.nextBuffer.record direction r) :
    B ↔ (req.InRange row ↔ ¬ req.RangeMisjudged unset row id) := by
  rw [hB, Judges, InRange, RangeMisjudged, hr]
  cases r <;> simp [nextBuffer]

/-- **A scan contains a stored key exactly if the row is at the right side of the start key and of
the range, unless one of these misjudges the row and the other one holds**, or both misjudge it. -/
theorem prepareScan_contains_iff :
    ∃ interval, req.prepareScan unset = some interval ∧
      ((interval.Contains (ix.storedKey row.record id.1) ↔ req.InStart row ∧ req.InRange row) ↔
        ¬ (req.StartMisjudged unset row id ∧ ¬ req.RangeMisjudged unset row id ∧ req.InRange row) ∧
        ¬ (req.RangeMisjudged unset row id ∧ ¬ req.StartMisjudged unset row id ∧ req.InStart row) ∧
        ¬ (req.StartMisjudged unset row id ∧ req.RangeMisjudged unset row id ∧
          (req.InStart row ↔ req.InRange row))) := by
  have hlow := req.start.judges_lt req.recordBuffer.record row id
  have hnotLow := req.start.judges_not_lt req.recordBuffer.record row id
  have hhigh := req.start.judges_gt unset req.recordBuffer.record row id
  have hnotHigh := req.start.judges_not_gt unset req.recordBuffer.record row id
  have heq := req.start.judges_eq unset req.recordBuffer.record row id
  have hforward := forward_stop_iff unset row id req.nextBuffer req.endRange
  have hbackward := backward_stop_iff unset row id req.nextBuffer req.startRange
  have hsupported := req.supported
  simp only [prepareScan, ActiveIndex.prepareScan,
    req.start.encodeScanKey_eq unset req.recordBuffer]
  -- a flag decides on the direction, on the range that ends the scan, and on the bound or its
  -- ceiling as the start
  cases hflag : req.flag with
  | keyOrNext =>
    refine ⟨_, rfl, exact_iff_of_judges ?_ (req.range_judges unset row id ?_ hforward)⟩
    · simpa [InStart, StartMisjudged, hflag, StartHolds, notBefore] using hnotLow
    · simp only [range, hflag]
  | afterKey =>
    refine ⟨_, rfl, exact_iff_of_judges ?_ (req.range_judges unset row id ?_ hforward)⟩
    · simpa [InStart, StartMisjudged, hflag, StartHolds, notBefore] using hhigh
    · simp only [range, hflag]
  | beforeKey =>
    refine ⟨_, rfl, exact_iff_of_judges ?_ (req.range_judges unset row id ?_ hbackward)⟩
    · simpa [InStart, StartMisjudged, hflag, StartHolds, notBehind] using hlow
    · simp only [range, hflag]
  | prefixLastOrPrev =>
    refine ⟨_, rfl, exact_iff_of_judges ?_ (req.range_judges unset row id ?_ hbackward)⟩
    · simpa [InStart, StartMisjudged, hflag, StartHolds, notBehind] using hnotHigh
    · simp only [range, hflag]
  | keyExact =>
    refine ⟨_, rfl, exact_iff_of_unended ?_ (by simp [InRange, RangeMisjudged, range, hflag])⟩
    simpa [InStart, StartMisjudged, hflag, StartHolds, notBefore, notBehind,
      ScanInterval.Contains, Index.active] using heq
  | prefixLast =>
    refine ⟨_, rfl, exact_iff_of_unended ?_ (by simp [InRange, RangeMisjudged, range, hflag])⟩
    simpa [InStart, StartMisjudged, hflag, StartHolds, notBefore, notBehind,
      ScanInterval.Contains, Index.active] using and_comm.trans heq
  | _ => simp [hflag, setScanParameters] at hsupported

/-! ### A scan whose end is dropped -/

/-- `CREATE TABLE t (a INT PRIMARY KEY, b INT NOT NULL, KEY (b))`. -/
def keySample : Table :=
  TableShare.toTable
    { fields := 2
      field := fun _ => intField false
      keyInfo := [⟨true, [⟨0, 4, false⟩], [⟨0, 4, false⟩]⟩,
        ⟨false, [⟨1, 4, false⟩], [⟨1, 4, false⟩, ⟨0, 4, false⟩]⟩]
      primaryKey := some 0 } (by decide)

/-- The row `(7, b)`. -/
def keySampleRow (b : UInt8) : Row keySample.toTableShare where
  record i :=
    match i with
    | 0 => ⟨false, [7, 0, 0, 0]⟩
    | _ => ⟨false, [b, 0, 0, 0]⟩
  valid i hi :=
    match i, hi with
    | 0, _ | 1, _ => rfl

/-- `KEY (b)`. -/
abbrev keySampleIndex : Index keySample := .secondary ⟨1, by decide, by decide⟩

/-- The bound `b = 2`. -/
def keySampleBound : Bound keySampleIndex true :=
  ⟨keySampleRow 2, 1, false, by decide, by decide, by decide⟩

/-- `SELECT * FROM t WHERE b = 2 ORDER BY b DESC, a DESC` reads backwards from the last key of
`b = 2`, and its range starts at `b = 2` with `HA_READ_KEY_EXACT`. -/
def keySampleRequest : ScanRequest keySampleIndex true where
  recordBuffer := ⟨(keySampleRow 0).record, by decide⟩
  start := keySampleBound
  flag := .prefixLastOrPrev
  supported := by decide
  endRange := some (keySampleBound, .afterKey)
  startRange := some (keySampleBound, .keyExact)

/-- The scan has no end: it contains the row `(7, 1)`, whose `b` is not 2. -/
theorem prepareScan_keySample :
    keySampleRequest.prepareScan 0
        = some ⟨.backward, [128, 0, 0, 2, 255, 255, 255, 255], true, none⟩ ∧
      (⟨.backward, [128, 0, 0, 2, 255, 255, 255, 255], true, none⟩ : ScanInterval).Contains
        (Index.storedKey (.secondary ⟨1, by decide, by decide⟩ : Index keySample)
          (keySampleRow 1).record (replicate 16 0)) ∧
      ¬ keySampleRequest.InRange (keySampleRow 1) := by
  refine ⟨by decide +kernel, ⟨?_, by simp⟩, ?_⟩
  · rw [notBehind, if_pos rfl]
    decide +kernel
  · intro h
    exact absurd (h _ rfl) (by unfold RangeHolds; decide +kernel)

end ScanRequest

end Table

end EloqSql
