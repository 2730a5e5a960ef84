import Mathlib.Data.List.Perm.Subperm
import EloqSql.Image.RoundTrip
import EloqSql.KeyDef.Order

/-!
# KeyDef/RoundTrip — a key is taken apart again

`decodeField_packField` restores a column and `skipField_packField` passes over a prefix, both from
the head of what follows. The key bytes and the unpack info are read in lock step, so the loop over
the parts reads them one after the other (`unpackParts_reads`), and
`Index.unpackRecord_packRecord` puts them together.
-/

namespace EloqSql

open FieldPacking List
open KeyDef (packPart)

/-! ## One part -/

section Part

variable {f : Field} {len : ℕ} {c : Cell} (i : ℕ)

theorem setup_maybeNull : (setup i f len).maybeNull = f.maybeNull := by
  cases hf : f.realType with
  | varchar =>
    simp only [setup, hf, setupVarchar, checkPrefix]
    cases f.charset <;> split <;> simp [setupSpacePad]
  | string =>
    simp only [setup, hf, setupString, checkPrefix]
    cases f.charset <;> split <;> simp
  | _ => simp [setup, hf]

/-- Only simple collations keep characters in the unpack info. -/
theorem makeUnpackInfo_eq_nil (h : f.restorable len = true ∨ f.prefixPart len = true)
    (g : Field) (v : Bytes) : (setup i f len).makeUnpackInfo g v = [] := by
  have hfunc : (setup i f len).makeUnpackInfoFunc = none ∨
      (setup i f len).makeUnpackInfoFunc = some .dummy := by
    cases hf : f.realType with
    | varchar =>
      rcases h with h | h
      · obtain ⟨rfl, hs⟩ := restorable_string (Or.inl hf) h
        cases hc : f.charset with
        | simple so => exact absurd hc (hs so)
        | binary =>
          exact Or.inl (by simp [setup, hf, setupVarchar, hc, checkPrefix])
        | _ =>
          exact Or.inr (by simp [setup, hf, setupVarchar, hc, checkPrefix])
      · simp only [Field.prefixPart, hf, bne_iff_ne] at h
        exact Or.inl (setup_keyPrefixed i (Or.inl hf) h.symm).2.1
    | string =>
      rcases h with h | h
      · obtain ⟨rfl, hs⟩ := restorable_string (Or.inr hf) h
        cases hc : f.charset with
        | simple so => exact absurd hc (hs so)
        | _ =>
          exact Or.inl (by simp [setup, hf, setupString, hc, checkPrefix])
      · simp only [Field.prefixPart, hf, bne_iff_ne] at h
        exact Or.inl (setup_keyPrefixed i (Or.inr hf) h.symm).2.1
    | _ => simp [setup, hf]
  rcases hfunc with hfunc | hfunc <;> simp only [FieldPacking.makeUnpackInfo, hfunc]

theorem length_pack_snd (fpi : FieldPacking) (g : Field) (v : Bytes) :
    (fpi.pack g v).2.length ≤ 2 := by
  rw [FieldPacking.pack]
  split
  · simp
  · simp
  · split <;> simp
  · simp
  · simp only [packWithVarcharSpacePad]
    split_ifs <;> simp [writeUint16, writeUint8]

/-- A prefix is skipped, and keeps nothing in the unpack info. -/
theorem setup_prefixPart (h : f.prefixPart len = true) :
    (setup i f len).unpackFunc = none ∧ (∀ g v, ((setup i f len).pack g v).2 = []) ∧
      ((setup i f len).skipFunc = .variableSpacePad →
        (setup i f len).unpackInfoStoresValue = true) := by
  have hstr : f.realType = .varchar ∨ f.realType = .string → f.fieldLength ≠ len →
      (setup i f len).unpackFunc = none ∧ (∀ g v, ((setup i f len).pack g v).2 = []) ∧
        ((setup i f len).skipFunc = .variableSpacePad →
          (setup i f len).unpackInfoStoresValue = true) := fun hf hne => by
    obtain ⟨hu, -, hs⟩ := setup_keyPrefixed i hf hne
    refine ⟨hu, fun g v => ?_, fun _ => hs⟩
    rw [FieldPacking.pack]
    split
    · rfl
    · rfl
    · split <;> rfl
    · rfl
    · simp [packWithVarcharSpacePad, hs]
  cases hf : f.realType with
  | varchar =>
    simp only [Field.prefixPart, hf, bne_iff_ne] at h
    exact hstr (Or.inl hf) h.symm
  | string =>
    simp only [Field.prefixPart, hf, bne_iff_ne] at h
    exact hstr (Or.inr hf) h.symm
  | blob n =>
    refine ⟨by simp only [setup, hf], fun g v => ?_, by simp [setup, hf]⟩
    simp only [setup, hf, FieldPacking.pack]
    split <;> rfl
  | _ => simp [Field.prefixPart, hf] at h

/-- What is added to the unpack info for a column. -/
theorem packField_snd (h : f.restorable len = true ∨ f.prefixPart len = true) :
    (packField (partField f len) (setup i f len) c).2
      = if f.maybeNull && c.isNull then []
        else ((setup i f len).pack (partField f len) c.bytes).2 := by
  simp only [packField, makeUnpackInfo_eq_nil i h, append_nil, ite_self]
  rw [apply_ite Prod.snd]
  rfl

/-- What is added to the key for a column. -/
theorem packField_fst (g : Field) (fpi : FieldPacking) : (packField g fpi c).1
    = if g.maybeNull && c.isNull then [0]
      else if g.maybeNull then 1 :: (fpi.pack g c.bytes).1 else (fpi.pack g c.bytes).1 := by
  rw [packField, apply_ite Prod.fst]

theorem length_packField_snd (h : f.restorable len = true ∨ f.prefixPart len = true) :
    (packField (partField f len) (setup i f len) c).2.length ≤ 2 := by
  rw [packField_snd i h]
  split_ifs
  · simp
  · exact length_pack_snd _ _ _

/-- What a column is restored to: NULL comes with the default value. -/
def restoredCell (defaultValue : Bytes) (c : Cell) : Cell :=
  if c.isNull then ⟨true, defaultValue⟩ else c

/-- A column that is not NULL. -/
theorem validValue_of_not_null (hv : f.validCell c = true)
    (hn : ¬ (f.maybeNull && c.isNull) = true) :
    c.isNull = false ∧ f.validValue c.bytes = true := by
  rw [Field.validCell] at hv
  cases hb : c.isNull with
  | true =>
    rw [hb, if_pos rfl] at hv
    simp [hv, hb] at hn
  | false => exact ⟨rfl, by simpa [hb] using hv⟩

variable (hw : f.wfPart len = true) (hv : f.validCell c = true)

include hw hv

/-- **A restorable column is restored**, and both readers are left behind it. -/
theorem decodeField_packField (hr : f.restorable len = true) (defaultValue : Bytes) : ∃ func,
    (setup i f len).unpackFunc = some func ∧ ∀ rest restInfo,
      decodeField (setup i f len) func (partField f len) defaultValue
          ((packField (partField f len) (setup i f len) c).1 ++ rest)
          ((packField (partField f len) (setup i f len) c).2 ++ restInfo)
        = some (restoredCell defaultValue c, rest, restInfo) := by
  obtain ⟨func, hfunc, hun⟩ := unpack_pack i hw hr
  have hm : (partField f len).maybeNull = f.maybeNull := rfl
  refine ⟨func, hfunc, fun rest restInfo => ?_⟩
  rw [packField_snd i (Or.inl hr), packField_fst, hm]
  unfold decodeField
  rw [setup_maybeNull]
  by_cases hn : (f.maybeNull && c.isNull) = true
  · obtain ⟨hm, hnull⟩ := Bool.and_eq_true_iff.mp hn
    rw [if_pos hn, if_pos hn, if_pos hm]
    simp [restoredCell, hnull]
  · obtain ⟨hnull, hval⟩ := validValue_of_not_null hv hn
    have hcell : restoredCell defaultValue c = ⟨false, c.bytes⟩ := by
      rw [restoredCell, hnull, if_neg Bool.false_ne_true, ← hnull]
    rw [if_neg hn, if_neg hn, hcell]
    cases hm : f.maybeNull with
    | true => simp [hun hval]
    | false => simp [hun hval]

/-- **A prefix is passed over.** -/
theorem skipField_packField (hp : f.prefixPart len = true) :
    (setup i f len).unpackFunc = none ∧ ∀ rest restInfo,
      skipField (setup i f len) (partField f len)
          ((packField (partField f len) (setup i f len) c).1 ++ rest)
          ((packField (partField f len) (setup i f len) c).2 ++ restInfo)
        = some (rest, restInfo) := by
  obtain ⟨hfunc, hinfo, hstores⟩ := setup_prefixPart i hp
  have hm : (partField f len).maybeNull = f.maybeNull := rfl
  have hkeep : ¬ ((setup i f len).skipFunc = .variableSpacePad ∧
      (setup i f len).unpackInfoStoresValue = false) := by
    rintro ⟨hs, hf⟩
    rw [hstores hs] at hf
    exact Bool.noConfusion hf
  refine ⟨hfunc, fun rest restInfo => ?_⟩
  rw [packField_snd i (Or.inr hp), packField_fst, hm, hinfo, ite_self, nil_append]
  unfold skipField
  rw [setup_maybeNull]
  simp only [if_neg hkeep]
  by_cases hn : (f.maybeNull && c.isNull) = true
  · rw [if_pos hn, if_pos (Bool.and_eq_true_iff.mp hn).1]
    simp
  · obtain ⟨-, hval⟩ := validValue_of_not_null hv hn
    have hskip := skip_pack i false hw hval
    simp only [keyField, Bool.false_eq_true, if_false] at hskip
    rw [if_neg hn]
    cases hm : f.maybeNull with
    | true => simp [hskip]
    | false => simp [hskip]

end Part

/-! ## The loop over the parts -/

section Parts

variable (t : TableShare) (defaults : ℕ → Bytes) (r : Record)

/-- What reading a part of a row comes to: it is unpacked to a cell, or passed over. Both readers
are left behind it. -/
def Reads (p : KeyPartInfo) : Option Cell → Prop
  | some c => ∃ func, (packPart t p).unpackFunc = some func ∧ ∀ rest restInfo,
      decodeField (packPart t p) func (partField (t.field p.fieldIndex) p.length)
          (defaults p.fieldIndex) ((packPartOf t r (packPart t p)).1 ++ rest)
          ((packPartOf t r (packPart t p)).2 ++ restInfo)
        = some (c, rest, restInfo)
  | none => (packPart t p).unpackFunc = none ∧ ∀ rest restInfo,
      skipField (packPart t p) (partField (t.field p.fieldIndex) p.length)
          ((packPartOf t r (packPart t p)).1 ++ rest)
          ((packPartOf t r (packPart t p)).2 ++ restInfo)
        = some (rest, restInfo)

/-- A record into which parts are unpacked, as some cells. -/
def putParts (cells : KeyPartInfo → Option Cell) : List KeyPartInfo → Record → Record
  | [], buf => buf
  | p :: ps, buf => putParts cells ps ((cells p).elim buf (Function.update buf p.fieldIndex))

theorem putParts_of_none {cells : KeyPartInfo → Option Cell} {j : ℕ} : ∀ {ps : List KeyPartInfo}
    {buf : Record}, (∀ p ∈ ps, p.fieldIndex = j → cells p = none) → putParts cells ps buf j = buf j
  | [], _, _ => rfl
  | p :: ps, buf, h => by
      rw [putParts, putParts_of_none fun q hq => h q (mem_cons_of_mem p hq)]
      by_cases hj : p.fieldIndex = j
      · rw [h p mem_cons_self hj]
        rfl
      · cases cells p with
        | none => rfl
        | some c => exact Function.update_of_ne (Ne.symm hj) _ _

/-- A column that is unpacked to one cell only, by one part or more. -/
theorem putParts_of_some {cells : KeyPartInfo → Option Cell} {c : Cell} {q : KeyPartInfo}
    (hc : cells q = some c) : ∀ {ps : List KeyPartInfo} {buf : Record}, q ∈ ps →
    (∀ p ∈ ps, p.fieldIndex = q.fieldIndex → cells p = none ∨ cells p = some c) →
      putParts cells ps buf q.fieldIndex = c
  | p :: ps, buf, hq, h => by
      have h' := fun p' hp' => h p' (mem_cons_of_mem p hp')
      rw [putParts]
      by_cases hlast : ∃ p' ∈ ps, p'.fieldIndex = q.fieldIndex ∧ cells p' = some c
      · obtain ⟨p', hp', hidx, hc'⟩ := hlast
        rw [← hidx]
        exact putParts_of_some hc' hp' fun p'' hp'' he => h' p'' hp'' (he.trans hidx)
      · push Not at hlast
        obtain rfl : q = p := by
          by_contra hne
          exact hlast q ((mem_cons.mp hq).resolve_left hne) rfl hc
        rw [putParts_of_none fun p' hp' he => (h' p' hp' he).resolve_right (hlast p' hp' he), hc]
        exact Function.update_self _ _ _

variable {t defaults r}

/-- **The parts are read back one after the other.** The induction is on the parts; the part of the
hidden primary key, if there is one, is still to come. -/
theorem unpackParts_reads {indexType : IndexType} (hi : indexType ≠ .hiddenPrimary) {n : ℕ}
    (cells : KeyPartInfo → Option Cell) (tail : List FieldPacking) (rest restInfo : Bytes) :
    ∀ {ps : List KeyPartInfo} {i : ℕ} {buf : Record},
      (∀ p ∈ ps, Reads t defaults r p (cells p)) →
      (t.tableHasHiddenPk = true → i + ps.length < n) →
      unpackParts t indexType defaults n i (ps.map (packPart t) ++ tail) buf
          (ps.flatMap (partImage t r) ++ rest)
          (infoParts t r (ps.map (packPart t)) ++ restInfo)
        = unpackParts t indexType defaults n (i + ps.length) tail (putParts cells ps buf) rest
            restInfo
  | [], _, _, _, _ => rfl
  | p :: ps, i, buf, hps, hn => by
      have hread := hps p mem_cons_self
      have hps' := fun q hq => hps q (mem_cons_of_mem p hq)
      have hn' : t.tableHasHiddenPk = true → i + 1 + ps.length < n := fun hh => by
        have := hn hh
        rw [length_cons] at this
        omega
      have hcol : ¬ ((indexType = .secondary ∧ t.tableHasHiddenPk = true ∧ i + 1 = n) ∨
          indexType = .hiddenPrimary) := by
        rintro (⟨-, hh, rfl⟩ | h)
        · have := hn' hh
          omega
        · exact hi h
      have hidx : (packPart t p).fieldIdx = some p.fieldIndex := (setup_eq _ _ _).1
      have hlen : (packPart t p).keyPartLength = p.length := (setup_eq _ _ _).2
      rw [map_cons, cons_append, flatMap_cons, append_assoc, infoParts,
        flatMap_cons, append_assoc, ← packPartOf_fst, unpackParts, if_neg hcol]
      simp only [hidx, hlen]
      rw [length_cons, Nat.add_comm ps.length 1, ← Nat.add_assoc, putParts]
      cases hc : cells p with
      | some c =>
        rw [hc] at hread
        obtain ⟨func, hfunc, hdec⟩ := hread
        simp only [hfunc, hdec]
        exact unpackParts_reads hi cells tail rest restInfo hps' hn'
      | none =>
        rw [hc] at hread
        obtain ⟨hfunc, hskip⟩ := hread
        simp only [hfunc, hskip]
        exact unpackParts_reads hi cells tail rest restInfo hps' hn'

/-! ### Parts that are restored or skipped -/

variable (t)

/-- A part is restored, or it cannot be unpacked and is passed over. A prefix that is set up with a
clone of its column is neither: it is unpacked into the head of the column. -/
def Readable (p : KeyPartInfo) : Prop :=
  (t.field p.fieldIndex).restorable p.length = true ∨
    ((t.field p.fieldIndex).prefixPart p.length = true ∧ p.cloned = false)

/-- What a readable part is unpacked to. -/
def restoredPart (defaults : ℕ → Bytes) (r : Record) (p : KeyPartInfo) : Option Cell :=
  if (t.field p.fieldIndex).restorable p.length then
    some (restoredCell (defaults p.fieldIndex) (r p.fieldIndex))
  else none

theorem not_restorable_of_prefixPart {f : Field} {len : ℕ} (h : f.prefixPart len = true) :
    f.restorable len = false := by
  cases hf : f.realType with
  | varchar | string =>
    simp only [Field.prefixPart, hf, bne_iff_ne] at h
    simp [Field.restorable, hf, h]
  | blob _ => simp [Field.restorable, hf]
  | _ => simp [Field.prefixPart, hf] at h

variable {t}

/-- It makes no difference to a whole column whether it is cloned. -/
theorem Readable.packPart_eq {p : KeyPartInfo} (h : Readable t p) :
    packPart t p = setup p.fieldIndex (t.field p.fieldIndex) p.length := by
  rw [packPart]
  cases hc : p.cloned with
  | false => rfl
  | true =>
    obtain hr | ⟨-, hf⟩ := h
    · rw [keyField, if_pos rfl]
      by_cases hstr : (t.field p.fieldIndex).realType = .varchar ∨
          (t.field p.fieldIndex).realType = .string
      · rw [(restorable_string hstr hr).1]
        rfl
      · rw [not_or] at hstr
        exact setup_partField hstr.1 hstr.2 _
    · rw [hc] at hf
      exact Bool.noConfusion hf

theorem Readable.restorable_or_prefixPart {p : KeyPartInfo} (h : Readable t p) :
    (t.field p.fieldIndex).restorable p.length = true ∨
      (t.field p.fieldIndex).prefixPart p.length = true :=
  h.imp_right And.left

theorem Readable.reads {p : KeyPartInfo} (h : Readable t p) (hp : p.Wf t)
    (defaults : ℕ → Bytes) (row : Row t) :
    Reads t defaults row.record p (restoredPart t defaults row.record p) := by
  have hv := row.valid _ hp.1
  have hset := h.packPart_eq
  rw [restoredPart]
  rcases h with hr | ⟨hpre, -⟩
  · rw [if_pos hr, Reads, packPartOf_packPart, hset]
    exact decodeField_packField p.fieldIndex hp.2 hv hr (defaults p.fieldIndex)
  · rw [not_restorable_of_prefixPart hpre, if_neg Bool.false_ne_true, Reads, packPartOf_packPart,
      hset]
    exact skipField_packField p.fieldIndex hp.2 hv hpre

end Parts

/-! ## Keys -/

theorem length_infoParts_le {t : TableShare} {r : Record} {n : ℕ} : ∀ {ps : List KeyPartInfo},
    (∀ p ∈ ps, (packPartOf t r (packPart t p)).2.length ≤ n) →
      (infoParts t r (ps.map (packPart t))).length ≤ n * ps.length
  | [], _ => Nat.zero_le _
  | p :: ps, h => by
      have hp := h p mem_cons_self
      have ih := length_infoParts_le fun q hq => h q (mem_cons_of_mem p hq)
      rw [infoParts] at ih ⊢
      rw [map_cons, flatMap_cons, length_append, length_cons, Nat.mul_succ]
      omega

/-- A readable part adds two bytes to the unpack info at most. -/
theorem Readable.length_packPartOf_snd {t : TableShare} {p : KeyPartInfo} (h : Readable t p)
    (r : Record) : (packPartOf t r (packPart t p)).2.length ≤ 2 := by
  rw [packPartOf_packPart, h.packPart_eq]
  exact length_packField_snd _ h.restorable_or_prefixPart

/-- The header of the unpack info is the length that is checked. -/
theorem unpackRecord_eq {t : TableShare} {kd : KeyDef} {defaults : ℕ → Bytes} {buf buf' : Record}
    {key info : Bytes} (hl : info.length + 2 < 65536)
    (h : unpackParts t kd.indexType defaults kd.keyParts 0 kd.packInfo buf key info
      = some (buf', [], [])) :
    unpackRecord t kd defaults buf key (unpackHeader info) = some (buf', []) := by
  rw [unpackRecord, unpackHeader]
  by_cases hi : info.length = 0
  · obtain rfl := length_eq_zero_iff.mp hi
    simp [h]
  · have hlen : (writeUint16 (info.length + 2) ++ info).length = info.length + 2 := by
      simp [writeUint16]
    simp only [if_neg hi, hlen, readUint16_writeUint16 hl]
    simp [h]

theorem Table.length_pkParts_le (t : Table) : t.pkParts.length ≤ maxRefParts := by
  unfold TableShare.pkParts
  cases h : t.primaryKey with
  | none => exact Nat.zero_le _
  | some pk =>
    obtain ⟨hlt, hns, -⟩ := t.pk_wf pk h
    show (t.key pk).extKeyParts.length ≤ maxRefParts
    exact t.parts_le _ (t.key_mem hlt)

namespace Table.Index

variable {t : Table} (ix : Index t)

theorem length_parts_le : ix.parts.length ≤ 2 * maxRefParts := by
  have hpk := t.length_pkParts_le
  cases ix with
  | primary pk h =>
    have : t.pkParts = (t.key pk).extKeyParts := by rw [TableShare.pkParts, h]
    rw [parts, ← this]
    omega
  | secondary x =>
    have hu := t.userDefinedKeyParts_le x.key_mem
    have hm : x.missing.length ≤ t.pkParts.length :=
      (subperm_of_subset (x.missing_pairwise.imp fun hne heq => hne (by rw [heq]))
        fun _ => x.pkPart_of_mem_missing).length_le
    rw [parts, length_append]
    omega

theorem indexType_ne (unset : ℕ) : (ix.keyDef unset).indexType ≠ .hiddenPrimary := by
  cases ix <;> simp [keyDef, Secondary.keyDef, KeyDef.setup]

/-- The part of the hidden primary key is passed over. -/
theorem unpackParts_tail (unset : ℕ) (defaults : ℕ → Bytes) (id : HiddenPk) (buf : Record) :
    unpackParts t (ix.keyDef unset).indexType defaults
        (ix.parts.length + if t.tableHasHiddenPk then 1 else 0) ix.parts.length
        (if t.tableHasHiddenPk then [FieldPacking.setupHidden] else []) buf
        ((t.hiddenPk id.1).getD []) []
      = some (buf, [], []) := by
  cases hh : t.tableHasHiddenPk with
  | true =>
    have hsec : (ix.keyDef unset).indexType = .secondary := by
      cases ix with
      | primary pk h => simp [TableShare.tableHasHiddenPk, h] at hh
      | secondary x => rfl
    have hread : StringReader.read FieldPacking.setupHidden.maxImageLen id.1 = some (id.1, []) := by
      have := StringReader.read_append id.2 []
      rwa [append_nil] at this
    simp only [hiddenPk, hh, if_true, Option.getD_some]
    rw [unpackParts, if_pos (Or.inl ⟨hsec, hh, rfl⟩), hread]
    rfl
  | false =>
    simp only [hiddenPk, hh, Bool.false_eq_true, if_false]
    rfl

/-- A key whose parts can be read is taken apart. -/
theorem unpackRecord_reads {cells : KeyPartInfo → Option Cell} {defaults : ℕ → Bytes} {r : Record}
    (h : ∀ p ∈ ix.parts, Reads t defaults r p (cells p))
    (hle : (infoParts t r (ix.parts.map (packPart t))).length + 2
      < 65536) (unset : ℕ) (m : Bool) (id : HiddenPk) (buf : Record) :
    let packed := packRecord t (ix.keyDef unset) r m (t.hiddenPk id.1) 0
    unpackRecord t (ix.keyDef unset) defaults buf packed.tuple packed.unpackInfo
      = some (putParts cells ix.parts buf, []) := by
  intro packed
  have htuple : packed.tuple = _ := ix.packRecord_tuple r unset id.1 (Or.inl rfl)
  have hinfo : packed.unpackInfo = _ := ix.packRecord_unpackInfo r unset id.1 (Or.inl rfl)
  have hkp := ix.keyParts_eq unset
  rw [htuple, hinfo]
  refine unpackRecord_eq hle ?_
  rw [ix.packInfo_eq, ← append_nil (infoParts _ _ _),
    unpackParts_reads (ix.indexType_ne unset) cells _ _ [] h
      (fun hh => by rw [hkp, if_pos hh]; omega), Nat.zero_add, hkp]
  exact ix.unpackParts_tail unset defaults id _

/-- **A key is taken apart again**: `unpack_record` reads the key and the unpack info that
`pack_record` wrote to their ends, restores the whole columns among the parts, with their NULL flags
and trailing spaces, and leaves the other columns alone. -/
theorem unpackRecord_packRecord (hc : ∀ p ∈ ix.parts, Readable t.toTableShare p) (unset : ℕ)
    (m : Bool) (row : Row t.toTableShare) (id : HiddenPk) (defaults : ℕ → Bytes) (buf : Record) :
    let packed := packRecord t.toTableShare (ix.keyDef unset) row.record m (t.hiddenPk id.1) 0
    ∃ restored, unpackRecord t.toTableShare (ix.keyDef unset) defaults buf packed.tuple
        packed.unpackInfo = some (restored, []) ∧
      (∀ p ∈ ix.parts, (t.field p.fieldIndex).restorable p.length = true →
        restored p.fieldIndex
          = restoredCell (defaults p.fieldIndex) (row.record p.fieldIndex)) ∧
      ∀ j, (∀ p ∈ ix.parts, p.fieldIndex = j → (t.field j).restorable p.length = false) →
        restored j = buf j := by
  intro packed
  have hle := length_infoParts_le fun p hp => (hc p hp).length_packPartOf_snd row.record
  have hparts := ix.length_parts_le
  refine ⟨_, ix.unpackRecord_reads (fun p hp => (hc p hp).reads (ix.wf_of_mem hp) defaults row)
    (by simp only [maxRefParts] at hparts; omega) unset m id buf, fun p hp hr => ?_, fun j hj => ?_⟩
  · refine putParts_of_some (if_pos hr) hp fun q _ hq => ?_
    rw [restoredPart, hq]
    split_ifs
    exacts [Or.inr rfl, Or.inl rfl]
  · refine putParts_of_none fun p hp he => if_neg ?_
    rw [he, hj p hp he]
    exact Bool.false_ne_true

/-- The key of `UNIQUE (b)` in the sample gives both columns back. -/
theorem unpackRecord_sample :
    let ix : Index sample := .secondary ⟨2, by decide, by decide⟩
    let packed := packRecord sample.toTableShare (ix.keyDef 0) sampleRow.record true none 0
    ∃ restored, unpackRecord sample.toTableShare (ix.keyDef 0) (fun _ => []) (fun _ => ⟨true, []⟩)
        packed.tuple packed.unpackInfo = some (restored, []) ∧
      restored 0 = ⟨false, [1, 0, 0, 0]⟩ ∧ restored 1 = ⟨false, [2, 0, 0, 0]⟩ := by
  intro ix packed
  have hc : ∀ p ∈ ix.parts, Readable sample.toTableShare p := fun p _ => Or.inl rfl
  obtain ⟨restored, hun, hparts, -⟩ := ix.unpackRecord_packRecord hc 0 true sampleRow
    ⟨replicate myUuidSize 0, by decide⟩ (fun _ => []) (fun _ => ⟨true, []⟩)
  exact ⟨restored, hun, hparts ⟨0, 4, false⟩ (by decide) rfl,
    hparts ⟨1, 4, false⟩ (by decide) rfl⟩

end Table.Index

end EloqSql
