import EloqSql.Image.Part
import EloqSql.KeyDef.Parts

/-!
# KeyDef/Lookup — the key of an exact lookup in a unique index

A lookup writes its key tuple into the scratch record of the handler and packs that. A column that
went through a key tuple has the image it had (`pack_restoreKeyImage`), so the declared parts of the
key come out as they were stored (`packParts_keyRestore`); whatever else is packed comes from the
scratch record.
-/

namespace EloqSql

open Segment MemCompare FieldPacking List

/-! ## A column through a key tuple -/

section Restore

variable {f : Field} {len i : ℕ} {v old : Bytes}

/-- The first characters of a valid string are a valid string. -/
theorem validValue_takeChars (hf : f.realType = .varchar ∨ ∃ n, f.realType = .blob n)
    (hv : f.validValue v = true) (n : ℕ) : f.validValue (f.charset.takeChars n v) = true := by
  rcases hf with hf | ⟨packlength, hf⟩
  · obtain ⟨hl, xs, hx, hxl⟩ := validValue_varchar hf hv
    have hle := Collation.length_takeChars_le hx n
    simp only [Field.validValue, hf, Collation.chars_takeChars hx n, Bool.and_eq_true,
      decide_eq_true_eq, Option.any_some]
    exact ⟨hle.trans hl, (length_take_le' n xs).trans hxl⟩
  · obtain ⟨hl, xs, hx⟩ := validValue_blob hf hv
    have hle := Collation.length_takeChars_le hx n
    simp only [Field.validValue, hf, Collation.chars_takeChars hx n, Bool.and_eq_true,
      decide_eq_true_eq, Option.isSome_some, and_true]
    exact hle.trans_lt hl

/-- A part does not tell a string from its first characters. -/
theorem imageCmp_takeChars (hf : f.realType = .varchar ∨ ∃ n, f.realType = .blob n)
    (hv : f.validValue v = true) :
    imageCmp f len (f.charset.takeChars (len / f.charset.mbmaxlen) v) v = .eq := by
  obtain ⟨xs, hx⟩ : ∃ xs, f.charset.chars v = some xs := by
    rcases hf with hf | ⟨packlength, hf⟩
    · obtain ⟨-, xs, hx, -⟩ := validValue_varchar hf hv
      exact ⟨xs, hx⟩
    · exact (validValue_blob hf hv).2
  have hcmp := Collation.strnncollspNchars_takeChars hx (len / f.charset.mbmaxlen)
  have hpre : ∀ w, f.cmpPrefix len w v
      = f.charset.strnncollspNchars (len / f.charset.mbmaxlen) w v := fun w => by
    rcases hf with hf | ⟨packlength, hf⟩ <;> simp only [Field.cmpPrefix, hf]
  unfold imageCmp
  split
  · rename_i hc
    simp only [hc, Collation.takeChars, Collation.mbmaxlen, Nat.div_one, take_take,
      Nat.min_self]
    exact padCompare_self _ _
  · rw [hpre, hcmp]

/-- A `CHAR` in a key tuple starts with the first characters of the value, and is as long as the
part. -/
theorem getKeyImage_string (hf : f.realType = .string) (hw : f.wfPart len = true)
    (hv : f.validValue v = true) :
    (getKeyImage f len v).length = len ∧
      ∃ pad, getKeyImage f len v = f.charset.takeChars (len / f.charset.mbmaxlen) v ++ pad := by
  obtain ⟨-, -, hlen, -⟩ := wfPart_string (Or.inr hf) hw
  obtain ⟨xs, hx, hn⟩ := chars_string hf hw hv
  have hle := Collation.length_le_mul_of_chars
    (Collation.chars_takeChars hx (len / f.charset.mbmaxlen))
  rw [length_take, Nat.min_eq_left hn, ← hlen] at hle
  simp only [getKeyImage, hf]
  refine ⟨?_, _, rfl⟩
  rw [length_append, length_replicate]
  omega

/-- **A column that went through a key tuple has the image it had**, whatever it was written over.
-/
theorem pack_restoreKeyImage (cloned : Bool) (hw : f.wfPart len = true) (hv : f.validValue v = true)
    (ho : f.shaped old = true) :
    ((setup i (keyField cloned f len) len).pack (partField f len)
        (restoreKeyImage f len (getKeyImage f len v) old)).1
      = ((setup i (keyField cloned f len) len).pack (partField f len) v).1 := by
  have hstr : f.realType = .varchar ∨ (∃ n, f.realType = .blob n) →
      restoreKeyImage f len (getKeyImage f len v) old
        = f.charset.takeChars (len / f.charset.mbmaxlen) v →
      ((setup i (keyField cloned f len) len).pack (partField f len)
          (restoreKeyImage f len (getKeyImage f len v) old)).1
        = ((setup i (keyField cloned f len) len).pack (partField f len) v).1 := fun hf he => by
    rw [he]
    exact (comparesAs_keyField_pack cloned hw (validValue_takeChars hf hv _) hv).eq_iff.mpr
      (imageCmp_takeChars hf hv)
  cases hf : f.realType with
  | varchar =>
    obtain ⟨-, xs, hx, -⟩ := validValue_varchar hf hv
    refine hstr (Or.inl hf) ?_
    simp only [restoreKeyImage, getKeyImage, hf]
    exact Collation.takeChars_takeChars hx _
  | blob n =>
    refine hstr (Or.inr ⟨n, hf⟩) ?_
    simp only [restoreKeyImage, getKeyImage, hf]
  | string =>
    obtain ⟨xs, hx, hn⟩ := chars_string hf hw hv
    obtain ⟨-, pad, hpad⟩ := getKeyImage_string hf hw hv
    have hl : (xs.take (len / f.charset.mbmaxlen)).length = len / f.charset.mbmaxlen := by
      rw [length_take, Nat.min_eq_left hn]
    have hr : restoreKeyImage f len (getKeyImage f len v) old
        = f.charset.takeChars (len / f.charset.mbmaxlen) v
          ++ (pad ++ old.drop (getKeyImage f len v).length) := by
      simp only [restoreKeyImage, hf]
      rw [← append_assoc, ← hpad]
    rw [hr]
    cases cloned with
    | false =>
      exact (pack_string_head hf hw (Collation.chars_takeChars hx _) hl _).trans
        (pack_string hf hw hx hn).symm
    | true =>
      have hw' := wfPart_partField (Or.inr hf) hw
      exact (pack_string_head (f := partField f len) hf hw' (Collation.chars_takeChars hx _) hl
        _).trans (pack_string (f := partField f len) hf hw' hx hn).symm
  | _ =>
    have hfix : f.realType.fixedSize = true := by rw [hf]; rfl
    have ho : old.length = f.packLength := by simpa [Field.shaped, hf] using ho
    have hl : old.length = v.length := ho.trans (Field.length_of_validValue hfix hv).symm
    simp [restoreKeyImage, getKeyImage, hf, ← hl]

/-- A restored column is as long as it was. -/
theorem shaped_restoreKeyImage (hw : f.wfPart len = true) (hv : f.validValue v = true)
    (ho : f.shaped old = true) :
    f.shaped (restoreKeyImage f len (getKeyImage f len v) old) = true := by
  cases hf : f.realType with
  | varchar | blob _ => simp only [Field.shaped, hf]
  | string =>
    obtain ⟨-, hle, -, -⟩ := wfPart_string (Or.inr hf) hw
    obtain ⟨hl, -⟩ := getKeyImage_string hf hw hv
    simp only [Field.shaped, Field.packLength, hf, beq_iff_eq] at ho
    simp only [Field.shaped, restoreKeyImage, hf, beq_iff_eq, length_append, length_drop,
      Field.packLength]
    omega
  | _ =>
    have hfix : f.realType.fixedSize = true := by rw [hf]; rfl
    have hl := Field.length_of_validValue hfix hv
    simp only [Field.shaped, hf, beq_iff_eq] at ho
    simp only [Field.shaped, restoreKeyImage, getKeyImage, hf, beq_iff_eq, length_append,
      length_drop]
    omega

end Restore

/-! ## A record through a key tuple -/

/-- The scratch record `record_buffer_` of the handler, with any content. -/
structure Scratch (t : TableShare) where
  record : Record
  shaped : ∀ i < t.fields, (t.field i).shaped (record i).bytes = true

section Record

variable (t : TableShare)

variable {r : Record} {p : KeyPartInfo} {i : ℕ}

theorem keyRestorePart_of_ne {image : Cell}
    (h : i ≠ p.fieldIndex) : keyRestorePart t r p image i = r i :=
  Function.update_of_ne h _ _

theorem keyRestore_of_notMem : ∀ {parts : List KeyPartInfo} {key : KeyTuple} {r : Record},
    i ∉ parts.map (·.fieldIndex) → keyRestore t r parts key i = r i
  | [], _, _, _ | _ :: _, [], _, _ => rfl
  | p :: parts, image :: key, r, h => by
      rw [map_cons, mem_cons, not_or] at h
      rw [keyRestore, keyRestore_of_notMem h.2, keyRestorePart_of_ne t h.1]

/-- Each column of a key is restored from its own image. The induction is on the parts, and no later
part has the column again. -/
theorem keyRestore_of_mem {g : KeyPartInfo → Cell} {q : KeyPartInfo} :
    ∀ {parts : List KeyPartInfo} {r : Record}, (parts.map (·.fieldIndex)).Nodup → q ∈ parts →
      keyRestore t r parts (parts.map g) q.fieldIndex = keyRestorePart t r q (g q) q.fieldIndex
  | p :: parts, r, hd, hq => by
      rw [map_cons, nodup_cons] at hd
      rw [map_cons, keyRestore]
      rcases mem_cons.mp hq with rfl | hq
      · exact keyRestore_of_notMem t hd.1
      · have hne : q.fieldIndex ≠ p.fieldIndex := fun he =>
          hd.1 (he ▸ mem_map_of_mem hq)
        rw [keyRestore_of_mem hd.2 hq]
        simp [keyRestorePart, Function.update_of_ne hne]

variable {t} (row : Row t) (scratch : Scratch t)

theorem partImage_ne_nil (hw : (t.field p.fieldIndex).wfPart p.length = true)
    (hr : (t.field p.fieldIndex).shaped (r p.fieldIndex).bytes = true) :
    partImage t r p ≠ [] := by
  have := keyField_pack_ne_nil (i := p.fieldIndex) p.cloned hw hr
  simp only [partImage]
  split_ifs <;> first | exact this | exact cons_ne_nil _ _

/-- The image of a column of a key after a key tuple of the row was restored. -/
theorem partImage_keyRestorePart (hp : p.Wf t)
    (hr : r p.fieldIndex = keyRestorePart t scratch.record p
      (if (t.field p.fieldIndex).maybeNull && (row.record p.fieldIndex).isNull then ⟨true, []⟩
        else ⟨false, getKeyImage (t.field p.fieldIndex) p.length
          (row.record p.fieldIndex).bytes⟩) p.fieldIndex) :
    partImage t r p = partImage t row.record p := by
  simp only [partImage, hr, keyRestorePart, Function.update_self, KeyDef.packPart]
  obtain ⟨hm, hn⟩ | ⟨hn, hv⟩ := row.null_or_valid hp.1
  · simp [hm, hn]
  · have hpack := pack_restoreKeyImage (i := p.fieldIndex) p.cloned hp.2 hv (scratch.shaped _ hp.1)
    by_cases hm : (t.field p.fieldIndex).maybeNull <;> simp [hm, hn, hpack]

/-- A record into which columns were restored can be a scratch record again. -/
theorem shaped_keyRestore {parts : List KeyPartInfo} (hd : (parts.map (·.fieldIndex)).Nodup)
    (hw : ∀ p ∈ parts, (t.field p.fieldIndex).wfPart p.length = true) (hi : i < t.fields) :
    (t.field i).shaped (keyRestore t scratch.record parts (keyCopy t parts row.record) i).bytes
      = true := by
  by_cases hmem : i ∈ parts.map (·.fieldIndex)
  · obtain ⟨p, hp, rfl⟩ := mem_map.mp hmem
    have hsh := scratch.shaped _ hi
    rw [keyCopy, keyRestore_of_mem t hd hp]
    simp only [keyRestorePart, Function.update_self]
    obtain ⟨hm, hn⟩ | ⟨hn, hv⟩ := row.null_or_valid hi
    · simpa [hm, hn] using hsh
    · simpa [hn] using shaped_restoreKeyImage (hw p hp) hv hsh
  · rw [keyRestore_of_notMem t hmem]
    exact scratch.shaped i hi

end Record

namespace Table

variable {t : Table} (x : Secondary t) (row : Row t) (scratch : Scratch t)

/-- The scratch record of a lookup of the declared columns of a row. -/
def Secondary.restored : Record :=
  keyRestore t.toTableShare scratch.record x.key.userDefinedKeyParts
    (keyCopy t.toTableShare x.key.userDefinedKeyParts row.record)

/-- **The declared parts are packed as the row has them.** -/
theorem Secondary.declared_restored :
    x.declared (x.restored row scratch) = x.declared row.record := by
  refine congrArg flatten (map_congr_left fun p hp => ?_)
  refine partImage_keyRestorePart row scratch (t.part_wf_of_mem x.key_mem hp) ?_
  exact keyRestore_of_mem t (t.userDefinedKeyParts_nodup x.key_mem) hp

theorem Secondary.shaped_restored {i : ℕ} (hi : i < t.fields) :
    (t.field i).shaped (x.restored row scratch i).bytes = true :=
  shaped_keyRestore row scratch (t.userDefinedKeyParts_nodup x.key_mem)
    (fun _ hp => (t.part_wf_of_mem x.key_mem hp).2) hi

theorem Secondary.partImage_restored_ne_nil {p : KeyPartInfo} (hp : p.Wf t) :
    partImage t (x.restored row scratch) p ≠ [] :=
  partImage_ne_nil hp.2 (x.shaped_restored row scratch hp.1)

/-! ## The key part map -/

/-- No more than the given cells of a key tuple are restored. -/
theorem keyRestore_take (t : TableShare) : ∀ {parts : List KeyPartInfo} {key : KeyTuple}
    {r : Record}, keyRestore t r (parts.take key.length) key = keyRestore t r parts key
  | [], _, _ => by rw [take_nil]
  | _ :: _, [], _ => rfl
  | p :: parts, image :: key, r => by
      rw [length_cons, take_succ_cons, keyRestore, keyRestore, keyRestore_take]

/-- A key part map that covers all parts covers the whole key tuple. -/
theorem calculateKeyLen_eq : ∀ {n m : ℕ}, 2 ^ n - 1 ≤ m → calculateKeyLen n m = n
  | 0, _, _ => rfl
  | n + 1, m, h => by
      have hpos : 0 < 2 ^ n := Nat.two_pow_pos n
      rw [Nat.pow_succ] at h
      rw [calculateKeyLen, if_neg (by omega), calculateKeyLen_eq (by
        rw [Nat.shiftRight_eq_div_pow]
        omega)]

/-- A key part map of leading parts covers these. -/
theorem calculateKeyLen_mask : ∀ {n m : ℕ}, m ≤ n → calculateKeyLen n (2 ^ m - 1) = m
  | 0, m, h => by
      obtain rfl : m = 0 := by omega
      rfl
  | n + 1, 0, _ => rfl
  | n + 1, m + 1, h => by
      have hpos : 0 < 2 ^ m := Nat.two_pow_pos m
      have hshift : (2 ^ (m + 1) - 1) >>> 1 = 2 ^ m - 1 := by
        rw [Nat.shiftRight_eq_div_pow, Nat.pow_succ]
        omega
      rw [calculateKeyLen, if_neg (by rw [Nat.pow_succ]; omega), hshift,
        calculateKeyLen_mask (by omega)]

theorem myCountBits_eq : ∀ n ≤ maxRefParts, myCountBits (2 ^ n - 1) = n := by decide +kernel

/-- Without a hidden primary key value, a number of parts of the record are packed. -/
theorem packRecord_none_tuple (t : TableShare) (kd : KeyDef) (r : Record) (m : Bool) (n : ℕ) :
    (packRecord t kd r m none n).tuple
      = packParts t r (kd.packInfo.take (usedKeyParts t kd m false n)) := by
  have h := packRecordLoop_eq t r kd.uniqueSkOnlyKeyParts (usedKeyParts t kd m false n) none
    (Or.inl rfl) 0 (kd.packInfo.take (usedKeyParts t kd m false n)) ⟨[], [], none⟩
  exact congrArg PackedRecord.tuple h

theorem Secondary.packIndexTuple_eq (hu : x.key.nosame = true) (unset : ℕ) {m : ℕ}
    (hm : 2 ^ x.key.userDefinedKeyParts.length - 1 ≤ m) :
    packIndexTuple t (x.keyDef unset) scratch.record
        (keyCopy t x.key.userDefinedKeyParts row.record) m
      = packParts t (x.restored row scratch) ((x.keyDef unset).packInfo.take
          (usedKeyParts t (x.keyDef unset) false false
            (if m = haWholeKey then 0 else myCountBits m))) := by
  have hext : (t.key (x.keyDef unset).keyno).extKeyParts = x.key.userDefinedKeyParts :=
    t.ext_nosame _ x.key_mem hu
  simp only [packIndexTuple, hext, calculateKeyLen_eq hm, packRecord_none_tuple]
  rw [take_of_length_le (by rw [keyCopy, length_map])]
  rfl

/-- In a table with a hidden primary key a lookup never packs more than the declared parts. -/
theorem Secondary.packIndexTuple_of_hidden (hu : x.key.nosame = true)
    (hh : t.tableHasHiddenPk = true) (unset : ℕ) {m : ℕ}
    (hm : m = haWholeKey ∨ m = 2 ^ x.key.userDefinedKeyParts.length - 1) :
    packIndexTuple t (x.keyDef unset) scratch.record
        (keyCopy t x.key.userDefinedKeyParts row.record) m
      = x.declared row.record := by
  have hle := t.userDefinedKeyParts_le x.key_mem
  have hn := length_pos_iff.mpr (t.parts_ne_nil _ x.key_mem)
  have hpow : 2 ^ x.key.userDefinedKeyParts.length - 1 < haWholeKey := by
    have := Nat.pow_le_pow_right (n := 2) (by decide) (hle.trans (show maxRefParts ≤ 63 by decide))
    rw [haWholeKey]
    omega
  have hused : usedKeyParts t (x.keyDef unset) false false
      (if m = haWholeKey then 0 else myCountBits m) = x.key.userDefinedKeyParts.length := by
    have hk : (x.keyDef unset).keyParts = x.key.userDefinedKeyParts.length + 1 := by
      rw [KeyDef.keyParts, x.packInfo_of_hidden hh]
      simp
    rcases hm with rfl | rfl
    · simp [usedKeyParts, hh, hk]
    · rw [if_neg hpow.ne, myCountBits_eq _ hle]
      by_cases hmax : x.key.userDefinedKeyParts.length = maxRefParts
      · simp [usedKeyParts, hh, hk, hmax]
      · simp [usedKeyParts, hmax, hn.ne']
  have hmask : 2 ^ x.key.userDefinedKeyParts.length - 1 ≤ m := by rcases hm with rfl | rfl <;> omega
  rw [x.packIndexTuple_eq row scratch hu unset hmask, hused, x.packInfo_of_hidden hh,
    take_left' (length_map _), packParts_map]
  exact x.declared_restored row scratch

/-- In a table with a primary key a lookup of the whole key packs the primary key as well, from the
scratch record. -/
theorem Secondary.packIndexTuple_whole (hu : x.key.nosame = true)
    (hh : t.tableHasHiddenPk = false) (unset : ℕ) :
    packIndexTuple t (x.keyDef unset) scratch.record
        (keyCopy t x.key.userDefinedKeyParts row.record) haWholeKey
      = x.declared row.record
        ++ x.missing.flatMap (partImage t (x.restored row scratch)) := by
  have hle := t.userDefinedKeyParts_le x.key_mem
  have hmask : 2 ^ x.key.userDefinedKeyParts.length - 1 ≤ haWholeKey := by
    have := Nat.pow_le_pow_right (n := 2) (by decide) (hle.trans (show maxRefParts ≤ 64 by decide))
    rw [haWholeKey]
    omega
  have hused : usedKeyParts t (x.keyDef unset) false false 0
      = (x.keyDef unset).keyParts := by
    simp [usedKeyParts, hh]
  rw [x.packIndexTuple_eq row scratch hu unset hmask, if_pos rfl, hused, KeyDef.keyParts,
    take_length, x.packInfo_of_not_hidden hh, ← map_append, packParts_map,
    flatMap_append]
  exact congrArg (· ++ _) (x.declared_restored row scratch)

/-- **An exact lookup packs the key that `Insert` stored, for both key part maps of the whole key,
exactly if the primary key is hidden.** -/
theorem Secondary.lookup_eq_stored_iff (hu : x.key.nosame = true) (unset : ℕ) (pk : Bytes) :
    let key := keyCopy t.toTableShare x.key.userDefinedKeyParts row.record
    let stored := packRecord t.toTableShare (x.keyDef unset) row.record true (t.hiddenPk pk) 0
    (∀ keypartMap ∈ [haWholeKey, 2 ^ x.key.userDefinedKeyParts.length - 1],
        packIndexTuple t.toTableShare (x.keyDef unset) scratch.record key keypartMap
          = stored.tuple.take stored.split)
      ↔ t.tableHasHiddenPk = true := by
  intro key stored
  have hstored : (stored.tuple.take stored.split, _) = _ :=
    x.packRecord_stored row.record hu unset pk
  constructor
  · intro hall
    have hwhole := hall haWholeKey (by simp)
    by_contra hh
    rw [Bool.not_eq_true] at hh
    rw [x.packIndexTuple_whole row scratch hu hh unset] at hwhole
    by_cases hmiss : x.missing = []
    · -- nothing was stored, and the declared parts are packed
      rw [if_neg (by simp [hh, hmiss]), Prod.mk.injEq] at hstored
      rw [hstored.1, ← x.declared_restored row scratch, declared] at hwhole
      obtain ⟨p, ps, hps⟩ := exists_cons_of_ne_nil (t.parts_ne_nil _ x.key_mem)
      have hp : p ∈ x.key.userDefinedKeyParts := by rw [hps]; exact mem_cons_self
      refine x.partImage_restored_ne_nil row scratch (t.part_wf_of_mem x.key_mem hp) ?_
      exact flatMap_eq_nil_iff.mp (append_eq_nil_iff.mp hwhole).1 p hp
    · -- the declared parts were stored, and a missing part is packed after them
      rw [if_pos (Or.inr hmiss), Prod.mk.injEq] at hstored
      rw [hstored.1, append_right_eq_self] at hwhole
      obtain ⟨p, ps, hps⟩ := exists_cons_of_ne_nil hmiss
      have hp : p ∈ x.missing := by rw [hps]; exact mem_cons_self
      exact x.partImage_restored_ne_nil row scratch (x.missing_wf hp)
        (flatMap_eq_nil_iff.mp hwhole p hp)
  · intro hh m hm
    rw [if_pos (Or.inl hh), Prod.mk.injEq] at hstored
    rw [hstored.1]
    refine x.packIndexTuple_of_hidden row scratch hu hh unset ?_
    simpa using hm

/-- `CREATE TABLE t (a INT, b INT NOT NULL, UNIQUE (b))`, with a hidden primary key. -/
def hiddenSample : Table :=
  TableShare.toTable
    { fields := 2
      field := fun i => intField (i == 0)
      keyInfo := [⟨true, [⟨1, 4, false⟩], [⟨1, 4, false⟩]⟩]
      primaryKey := none } (by decide)

theorem lookup_hiddenSample :
    let x : Secondary hiddenSample := ⟨0, by decide, by decide⟩
    let row : Row hiddenSample.toTableShare := ⟨sampleRow.record, by decide⟩
    let scratch : Scratch hiddenSample.toTableShare := ⟨sampleRow.record, by decide⟩
    let key := keyCopy hiddenSample.toTableShare x.key.userDefinedKeyParts row.record
    let stored := packRecord hiddenSample.toTableShare (x.keyDef 0) row.record true
      (hiddenSample.hiddenPk (replicate 16 7)) 0
    packIndexTuple hiddenSample.toTableShare (x.keyDef 0) scratch.record key haWholeKey
      = stored.tuple.take stored.split := by
  intro x row scratch key stored
  exact (x.lookup_eq_stored_iff row scratch (by decide) 0 (replicate 16 7)).mpr (by decide)
    haWholeKey (by simp)

/-- The key of `UNIQUE (b)` in the sample is that of `b = 2`; a lookup of the whole key packs the
`a` of the scratch record after it, here 0. -/
theorem lookup_sample_ne_stored :
    let x : Secondary sample := ⟨2, by decide, by decide⟩
    let scratch : Scratch sample.toTableShare := ⟨fun _ => ⟨false, [0, 0, 0, 0]⟩, by decide⟩
    let key := keyCopy sample.toTableShare x.key.userDefinedKeyParts sampleRow.record
    let stored := packRecord sample.toTableShare (x.keyDef 0) sampleRow.record true none 0
    stored.tuple.take stored.split = [128, 0, 0, 2] ∧
    packIndexTuple sample.toTableShare (x.keyDef 0) scratch.record key haWholeKey
      = [128, 0, 0, 2, 128, 0, 0, 0] := by
  decide +kernel

end Table

end EloqSql
