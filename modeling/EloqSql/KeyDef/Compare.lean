import EloqSql.KeyDef.PrimaryKey
import EloqSql.KeyDef.Order

/-!
# KeyDef/Compare — comparing two keys column by column

`compare_keys` walks two packed keys in parallel and stops at the first part that differs. It calls
the skip functions without a field, so that they do not know how long a value can get; but a value
ends where its image says so (`skipNullField_of_skip`), and each key is cut at its own parts,
however long the parts before were (`comparePart_partImage`).
-/

namespace EloqSql

open FieldPacking List

/-! ## `mono_key_def::compare_keys` -/

/-- `UINT_MAX`. -/
def uintMax : ℕ := 2 ^ 32 - 1

/-- `m_skip_func`, called without a field. -/
def FieldPacking.skipNullField (fpi : FieldPacking) (reader : Bytes) : Option Bytes :=
  match fpi.skipFunc with
  | .maxLength => (StringReader.read fpi.maxImageLen reader).map (·.2)
  | .variableLength => skipVariableLength (reader.length + 1) uintMax reader
  | .variableSpacePad => skipVariableSpacePad fpi.segmentSize (reader.length + 1) uintMax reader

/-- The values of a part in both keys: nothing if one of them cannot be skipped, and nothing left to
read if they differ. -/
def compareValue (fpi : FieldPacking) (reader1 reader2 : Bytes) : Option (Option (Bytes × Bytes)) :=
  match fpi.skipNullField reader1, fpi.skipNullField reader2 with
  | some rest1, some rest2 =>
    let size1 := reader1.length - rest1.length
    let size2 := reader2.length - rest2.length
    if size1 ≠ size2 then some none
    else if reader1.take size1 ≠ reader2.take size1 then some none
    else some (some (rest1, rest2))
  | _, _ => none

/-- A turn of the loop of `compare_keys`. -/
def comparePart (fpi : FieldPacking) (reader1 reader2 : Bytes) : Option (Option (Bytes × Bytes)) :=
  if fpi.maybeNull then
    match reader1, reader2 with
    | nullp1 :: reader1, nullp2 :: reader2 =>
      if nullp1 ≠ nullp2 then some none
      else if nullp1 = 0 then some (some (reader1, reader2))
      else compareValue fpi reader1 reader2
    | _, _ => none
  else compareValue fpi reader1 reader2

/-- The loop of `compare_keys` from the `i`-th part on. -/
def compareKeysLoop : ℕ → List FieldPacking → Bytes → Bytes → Option ℕ
  | i, [], _, _ => some i
  | i, fpi :: parts, reader1, reader2 =>
    match comparePart fpi reader1 reader2 with
    | none => none
    | some none => some i
    | some (some (reader1, reader2)) => compareKeysLoop (i + 1) parts reader1 reader2

/-- **`mono_key_def::compare_keys`**: `*column_index`, or nothing if it fails. -/
def KeyDef.compareKeys (kd : KeyDef) (key1 key2 : Bytes) : Option ℕ :=
  compareKeysLoop 0 kd.packInfo key1 key2

/-! ## Skipping without a field -/

/-- More room for the data changes nothing. -/
theorem skipVariableLength_mono {rest : Bytes} : ∀ {turns dstLen dstLen' : ℕ} {reader : Bytes},
    dstLen ≤ dstLen' → skipVariableLength turns dstLen reader = some rest →
      skipVariableLength turns dstLen' reader = some rest
  | 0, _, _, _, _, h => by cases h
  | turns + 1, dstLen, dstLen', reader, hle, h => by
      rw [skipVariableLength] at h ⊢
      cases hread : StringReader.read monoEscapeLength reader with
      | none => simp only [hread, reduceCtorEq] at h
      | some r =>
        cases hcalc : calcUnpackVariableFormat (r.1.getD (monoEscapeLength - 1) 0) with
        | none => simp only [hread, hcalc, reduceCtorEq] at h
        | some u =>
          simp only [hread, hcalc] at h ⊢
          by_cases hlt : dstLen < u.1
          · rw [if_pos hlt] at h
            cases h
          · rw [if_neg hlt] at h
            rw [if_neg (by omega)]
            by_cases hfin : u.2 = true
            · rwa [if_pos hfin] at h ⊢
            · rw [if_neg hfin] at h ⊢
              exact skipVariableLength_mono (Nat.sub_le_sub_right hle u.1) h

/-- The same of the space-padded format. -/
theorem skipVariableSpacePad_mono {n : ℕ} {rest : Bytes} :
    ∀ {turns dstLen dstLen' : ℕ} {reader : Bytes}, dstLen ≤ dstLen' →
      skipVariableSpacePad n turns dstLen reader = some rest →
      skipVariableSpacePad n turns dstLen' reader = some rest
  | 0, _, _, _, _, h => by cases h
  | turns + 1, dstLen, dstLen', reader, hle, h => by
      rw [skipVariableSpacePad] at h ⊢
      cases hread : StringReader.read n reader with
      | none => simp only [hread, reduceCtorEq] at h
      | some r =>
        simp only [hread] at h ⊢
        by_cases heq : r.1.getD (n - 1) 0 = varcharCmp .eq
        · rwa [if_pos heq] at h ⊢
        · rw [if_neg heq] at h ⊢
          by_cases hne : r.1.getD (n - 1) 0 = varcharCmp .lt ∨ r.1.getD (n - 1) 0 = varcharCmp .gt
          · rw [if_pos hne] at h ⊢
            by_cases hlt : n - 1 > dstLen
            · rw [if_pos hlt] at h
              cases h
            · rw [if_neg hlt] at h
              rw [if_neg (by omega)]
              exact skipVariableSpacePad_mono (Nat.sub_le_sub_right hle (n - 1)) h
          · rw [if_neg hne] at h
            cases h

/-- **The field is not needed** to skip what the skip function passes over with it. -/
theorem skipNullField_of_skip {fpi : FieldPacking} {f : Field} {reader rest : Bytes}
    (hf : f.realType = .varchar → f.fieldLength ≤ uintMax)
    (hfpi : f.realType ≠ .varchar → fpi.skipFunc = .maxLength)
    (h : fpi.skip f reader = some rest) : fpi.skipNullField reader = some rest := by
  have hroom : f.realType = .varchar → f.packLength - f.lengthBytes ≤ uintMax := by
    intro hv
    refine le_trans (le_of_eq ?_) (hf hv)
    simp only [Field.packLength, hv]
    omega
  rw [FieldPacking.skip] at h
  rw [FieldPacking.skipNullField]
  cases hs : fpi.skipFunc with
  | maxLength => simpa only [hs] using h
  | variableLength =>
    have hv : f.realType = .varchar := not_not.1 fun hne => by simp [hfpi hne] at hs
    rw [hs] at h
    exact skipVariableLength_mono (hroom hv) h
  | variableSpacePad =>
    have hv : f.realType = .varchar := not_not.1 fun hne => by simp [hfpi hne] at hs
    rw [hs] at h
    exact skipVariableSpacePad_mono (hroom hv) h

/-- Only a `VARCHAR` says itself where it ends. -/
theorem setup_skipFunc {i : ℕ} {f : Field} {len : ℕ} (hf : f.realType ≠ .varchar) :
    (setup i f len).skipFunc = .maxLength := by
  cases h : f.realType with
  | varchar => exact absurd h hf
  | string =>
    simp only [setup, h, setupString, checkPrefix]
    cases f.charset <;> split <;> rfl
  | _ => simp only [setup, h]

theorem skipNullField_pack {f : Field} {len : ℕ} {v : Bytes} (i : ℕ) (cloned : Bool)
    (hw : f.wfPart len = true) (hv : f.validValue v = true) (rest : Bytes) :
    (setup i (keyField cloned f len) len).skipNullField
      (((setup i (keyField cloned f len) len).pack (partField f len) v).1 ++ rest)
        = some rest := by
  refine skipNullField_of_skip (f := partField f len) (fun _ => ?_) (fun hne => ?_)
    (skip_pack i cloned hw hv rest)
  · have hlen : len ≤ maxSupportedKeyLength := by
      simp only [Field.wfPart, Bool.and_eq_true, decide_eq_true_eq] at hw
      exact hw.1.2
    exact hlen.trans (by decide)
  · refine setup_skipFunc ?_
    cases cloned <;> exact hne

/-! ## A part of both keys -/

theorem compareValue_of_skip {fpi : FieldPacking} {a b rest1 rest2 : Bytes}
    (ha : fpi.skipNullField (a ++ rest1) = some rest1)
    (hb : fpi.skipNullField (b ++ rest2) = some rest2) :
    compareValue fpi (a ++ rest1) (b ++ rest2)
      = some (if a = b then some (rest1, rest2) else none) := by
  have hsize : ∀ u v : Bytes, (u ++ v).length - v.length = u.length := fun u v => by simp
  simp only [compareValue, ha, hb, hsize]
  by_cases hlen : a.length = b.length
  · rw [if_neg (not_not.2 hlen), take_left, hlen, take_left]
    by_cases hab : a = b
    · rw [if_neg (not_not.2 hab), if_pos hab]
    · rw [if_pos hab, if_neg hab]
  · rw [if_pos hlen, if_neg fun hab => hlen (congrArg length hab)]

/-- **A column is compared by its image**, and both readers are then at its end. -/
theorem comparePart_partImage {t : TableShare} {p : KeyPartInfo} (hp : p.Wf t) (row row' : Row t)
    (rest1 rest2 : Bytes) :
    comparePart (KeyDef.packPart t p) (partImage t row.record p ++ rest1)
        (partImage t row'.record p ++ rest2)
      = some (if partImage t row.record p = partImage t row'.record p then some (rest1, rest2)
          else none) := by
  unfold comparePart
  simp only [packPart_maybeNull, partImage]
  obtain ⟨hm, hn⟩ | ⟨hn, hv⟩ := row.null_or_valid hp.1 <;>
    obtain ⟨hm', hn'⟩ | ⟨hn', hv'⟩ := row'.null_or_valid hp.1
  any_goals simp [*]; done
  have hskip := compareValue_of_skip (skipNullField_pack p.fieldIndex p.cloned hp.2 hv rest1)
    (skipNullField_pack p.fieldIndex p.cloned hp.2 hv' rest2)
  obtain hm | hm := Bool.eq_false_or_eq_true (t.field p.fieldIndex).maybeNull <;>
    simpa [hm, hn, hn', KeyDef.packPart] using hskip

/-- The hidden primary key is always of one length. -/
theorem comparePart_hidden (id id' : HiddenPk) (rest1 rest2 : Bytes) :
    comparePart setupHidden (id.1 ++ rest1) (id'.1 ++ rest2)
      = some (if id.1 = id'.1 then some (rest1, rest2) else none) := by
  have hskip : ∀ (id : HiddenPk) rest, setupHidden.skipNullField (id.1 ++ rest) = some rest :=
    fun id rest => by
      simp [skipNullField, setupHidden, StringReader.read_append id.2]
  simp only [comparePart, setupHidden, Bool.false_eq_true, if_false]
  exact compareValue_of_skip (hskip id rest1) (hskip id' rest2)

/-! ## The whole keys -/

/-- The loop stops at the first part whose images differ, by induction on the parts. -/
theorem compareKeysLoop_images {α : Type*} {fpi : α → FieldPacking} {f g : α → Bytes} :
    ∀ {ps : List α} (i : ℕ), (∀ p ∈ ps, ∀ rest1 rest2, comparePart (fpi p) (f p ++ rest1)
        (g p ++ rest2) = some (if f p = g p then some (rest1, rest2) else none)) →
      compareKeysLoop i (ps.map fpi) (ps.flatMap f) (ps.flatMap g)
        = some (i + ps.findIdx fun p => decide (f p ≠ g p))
  | [], _, _ => rfl
  | p :: ps, i, h => by
      rw [map_cons, flatMap_cons, flatMap_cons, compareKeysLoop,
        h p mem_cons_self, findIdx_cons]
      by_cases heq : f p = g p
      · rw [if_pos heq, decide_eq_false (not_not.2 heq)]
        simp only [cond_false]
        rw [compareKeysLoop_images (i + 1) fun q hq => h q (mem_cons_of_mem p hq)]
        congr 1
        omega
      · rw [if_neg heq, decide_eq_true heq]
        rfl

theorem comparePart_self (fpi : FieldPacking) (reader : Bytes) :
    comparePart fpi reader reader = none ∨
      ∃ rest, comparePart fpi reader reader = some (some (rest, rest)) := by
  have hvalue : ∀ reader, compareValue fpi reader reader = none ∨
      ∃ rest, compareValue fpi reader reader = some (some (rest, rest)) := fun reader => by
    unfold compareValue
    cases fpi.skipNullField reader with
    | none => exact Or.inl rfl
    | some rest => exact Or.inr ⟨rest, by simp⟩
  unfold comparePart
  split
  · cases reader with
    | nil => exact Or.inl rfl
    | cons nullp reader =>
      by_cases h0 : nullp = 0
      · exact Or.inr ⟨reader, by simp [h0]⟩
      · simpa [h0] using hvalue reader
  · exact hvalue reader

/-- A key does not differ from itself. -/
theorem compareKeysLoop_self {c : ℕ} : ∀ {parts : List FieldPacking} {i : ℕ} {reader : Bytes},
    compareKeysLoop i parts reader reader = some c → c = i + parts.length
  | [], i, _, h => (Option.some.inj h).symm
  | fpi :: parts, i, reader, h => by
      rw [compareKeysLoop] at h
      obtain hnone | ⟨rest, hsome⟩ := comparePart_self fpi reader
      · simp only [hnone, reduceCtorEq] at h
      · simp only [hsome] at h
        rw [compareKeysLoop_self h, length_cons]
        omega

/-- The key definitions of a table. -/
inductive Table.Descr (t : Table) where
  | index (ix : t.Index)
  | hiddenPrimary (h : t.tableHasHiddenPk = true)

namespace Table.Descr

variable {t : Table} (d : t.Descr)

/-- The key definition. -/
def keyDef (unset : ℕ) : t.Descr → KeyDef
  | index ix => ix.keyDef unset
  | hiddenPrimary _ => KeyDef.setup t.toTableShare .hiddenPrimary t.keyInfo.length unset

/-- Its parts: columns, or the hidden primary key. -/
def parts : t.Descr → List (Option KeyPartInfo)
  | index ix => ix.parts.map some ++ if t.tableHasHiddenPk then [none] else []
  | hiddenPrimary _ => [none]

/-- The packed part of a row. -/
def image (row : Row t.toTableShare) (id : HiddenPk) : Option KeyPartInfo → Bytes
  | some p => partImage t.toTableShare row.record p
  | none => id.1

/-- The packed key of a row; `id` is its hidden primary key, if the table has one. -/
def packedKey (unset : ℕ) (isModifyingUniqueSk : Bool) (row : Row t.toTableShare) (id : HiddenPk) :
    Bytes :=
  (packRecord t.toTableShare (d.keyDef unset) row.record isModifyingUniqueSk (t.hiddenPk id.1)
    0).tuple

theorem packedKey_eq (unset : ℕ) (m : Bool) (row : Row t) (id : HiddenPk) :
    d.packedKey unset m row id = d.parts.flatMap (image row id) := by
  cases d with
  | index ix =>
    rw [packedKey, keyDef, ix.packRecord_tuple row.record unset id.1 (Or.inl rfl), parts,
      flatMap_append, flatMap_map, hiddenPk]
    cases t.tableHasHiddenPk <;> simp [image]
  | hiddenPrimary h =>
    simp [packedKey, keyDef, KeyDef.setup, packRecord, packRecordLoop, usedKeyParts,
      KeyDef.keyParts, hiddenPk, h, parts, image]
    split <;> rfl

/-- How the packing of a part is set up. -/
def packing (t : Table) : Option KeyPartInfo → FieldPacking
  | some p => KeyDef.packPart t.toTableShare p
  | none => setupHidden

theorem packInfo_eq (unset : ℕ) : (d.keyDef unset).packInfo = d.parts.map (packing t) := by
  cases d with
  | index ix =>
    rw [keyDef, ix.packInfo_eq, parts, map_append, map_map]
    cases t.tableHasHiddenPk <;> rfl
  | hiddenPrimary h => rfl

theorem comparePart_image (row row' : Row t) (id id' : HiddenPk)
    {p : Option KeyPartInfo} (hp : p ∈ d.parts) (rest1 rest2 : Bytes) :
    comparePart (packing t p) (image row id p ++ rest1) (image row' id' p ++ rest2)
      = some (if image row id p = image row' id' p then some (rest1, rest2) else none) := by
  cases p with
  | none => exact comparePart_hidden id id' rest1 rest2
  | some p =>
    cases d with
    | hiddenPrimary h => simp [parts] at hp
    | index ix =>
      have hmem : p ∈ ix.parts := by
        rw [parts, mem_append] at hp
        obtain hp | hp := hp
        · simpa using hp
        · split at hp <;> simp at hp
      exact comparePart_partImage (ix.wf_of_mem hmem) row row' rest1 rest2

/-- **Two keys are compared column by column.** `compare_keys` succeeds on the packed keys of any
two rows, and finds the first part that is packed differently, or that the keys are equal. -/
theorem compareKeys_packedKey (unset : ℕ) (m : Bool) (row row' : Row t.toTableShare)
    (id id' : HiddenPk) :
    ∃ columnIndex, (d.keyDef unset).compareKeys (d.packedKey unset m row id)
        (d.packedKey unset m row' id') = some columnIndex ∧
      columnIndex ≤ (d.keyDef unset).keyParts ∧
      (∀ j < columnIndex, (d.parts.map (image row id))[j]? = (d.parts.map (image row' id'))[j]?) ∧
      (columnIndex < (d.keyDef unset).keyParts → (d.parts.map (image row id))[columnIndex]?
        ≠ (d.parts.map (image row' id'))[columnIndex]?) ∧
      (columnIndex = (d.keyDef unset).keyParts ↔
        d.packedKey unset m row id = d.packedKey unset m row' id') := by
  set differs : Option KeyPartInfo → Bool := fun p => decide (image row id p ≠ image row' id' p)
  have hparts : (d.keyDef unset).keyParts = d.parts.length := by
    rw [KeyDef.keyParts, packInfo_eq, length_map]
  have hloop : (d.keyDef unset).compareKeys (d.packedKey unset m row id)
      (d.packedKey unset m row' id') = some (d.parts.findIdx differs) := by
    rw [KeyDef.compareKeys, packInfo_eq, packedKey_eq, packedKey_eq,
      compareKeysLoop_images 0 fun p hp => d.comparePart_image row row' id id' hp, Nat.zero_add]
  have hle : d.parts.findIdx differs ≤ d.parts.length := findIdx_le_length
  have hsame : ∀ j < d.parts.findIdx differs,
      (d.parts.map (image row id))[j]? = (d.parts.map (image row' id'))[j]? := by
    intro j hj
    have h : differs d.parts[j] = false := not_of_lt_findIdx hj
    rw [getElem?_map, getElem?_map, getElem?_eq_getElem (hj.trans_le hle)]
    exact congrArg some (not_not.1 (of_decide_eq_false h))
  refine ⟨_, hloop, hparts ▸ hle, hsame, fun hlt => ?_, fun heq => ?_, fun heq => ?_⟩
  · rw [hparts] at hlt
    have h : differs d.parts[d.parts.findIdx differs] = true := findIdx_getElem
    rw [getElem?_map, getElem?_map, getElem?_eq_getElem hlt]
    exact fun hc => of_decide_eq_true h (Option.some.inj hc)
  · have hmap : d.parts.map (image row id) = d.parts.map (image row' id') := by
      refine ext_getElem? fun j => ?_
      obtain hj | hj := lt_or_ge j (d.parts.findIdx differs)
      · exact hsame j hj
      · rw [getElem?_eq_none (by rw [length_map]; omega),
          getElem?_eq_none (by rw [length_map]; omega)]
    rw [packedKey_eq, packedKey_eq, flatMap_def, flatMap_def, hmap]
  · rw [← heq] at hloop
    rw [compareKeysLoop_self hloop, Nat.zero_add]
    rfl

end Table.Descr

end EloqSql
