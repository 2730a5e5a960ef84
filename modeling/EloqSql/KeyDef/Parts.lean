import Mathlib.Data.List.Nodup
import EloqSql.KeyDef

/-!
# KeyDef/Parts — a key is the concatenation of the images of its parts

`packRecord` writes the images of the parts of an index and the hidden primary key
(`Index.packRecord_tuple`). In a secondary index the declared parts come first and then its
`suffix`: the primary key parts that it misses, or the hidden primary key. The split between the two
is recorded exactly if the suffix has a part (`Secondary.packRecord_split`).
-/

namespace EloqSql

open List
open KeyDef (packPart)
open FieldPacking (checkPrefix keyField partField setup setupHidden setupString)

/-! ## The image of a part -/

section Part

variable (t : TableShare) (r : Record) (p : KeyPartInfo)

theorem setup_eq (i : ℕ) (f : Field) (len : ℕ) :
    (setup i f len).fieldIdx = some i ∧
    (setup i f len).keyPartLength = len := by
  cases hf : f.realType with
  | varchar =>
    simp only [setup, hf, FieldPacking.setupVarchar, checkPrefix]
    cases f.charset <;> split <;> simp [FieldPacking.setupSpacePad]
  | string =>
    simp only [setup, hf, setupString, checkPrefix]
    cases f.charset <;> split <;> simp
  | _ => simp [setup, hf]

/-- The image of a part of a record: a NULL byte if the column may be NULL, and the packed value. -/
def partImage : Bytes :=
  let f := t.field p.fieldIndex
  let c := r p.fieldIndex
  let image := ((packPart t p).pack (partField f p.length) c.bytes).1
  if f.maybeNull then if c.isNull then [0] else 1 :: image else image

theorem packPartOf_packPart : packPartOf t r (packPart t p)
    = packField (partField (t.field p.fieldIndex) p.length) (packPart t p)
        (r p.fieldIndex) := by
  obtain ⟨hi, hl⟩ := setup_eq p.fieldIndex
    (keyField p.cloned (t.field p.fieldIndex) p.length) p.length
  simp only [packPartOf, packPart, hi, hl]

theorem packPartOf_fst : (packPartOf t r (packPart t p)).1 = partImage t r p := by
  rw [packPartOf_packPart]
  by_cases hm : (t.field p.fieldIndex).maybeNull <;> by_cases hn : (r p.fieldIndex).isNull <;>
    simp [packField, partImage, partField, hm, hn]

end Part

/-! ## The loop of `pack_record` -/

section Loop

variable (t : TableShare) (r : Record)

/-- The images of some parts. -/
def packParts (parts : List FieldPacking) : Bytes := parts.flatMap fun fpi => (packPartOf t r fpi).1

theorem packParts_map (ps : List KeyPartInfo) :
    packParts t r (ps.map (packPart t)) = ps.flatMap (partImage t r) := by
  rw [packParts, flatMap_map]
  simp only [packPartOf_fst]

/-- What some parts add to the unpack info. -/
def infoParts (parts : List FieldPacking) : Bytes := parts.flatMap fun fpi => (packPartOf t r fpi).2

/-- The size that is recorded when a loop over parts from the `i`-th on comes to the `u`-th. -/
def splitAt (u i : ℕ) (parts : List FieldPacking) (acc : PackedRecord) : Option ℕ :=
  if i ≤ u ∧ u < i + parts.length then some (acc.tuple ++ packParts t r (parts.take (u - i))).length
  else acc.uniqueSkPackSize

/-- What a turn of the loop that packs a part does. -/
def packTurn (u i : ℕ) (fpi : FieldPacking) (acc : PackedRecord) : PackedRecord :=
  ⟨acc.tuple ++ (packPartOf t r fpi).1, acc.unpackInfo ++ (packPartOf t r fpi).2,
    if i = u then some acc.tuple.length else acc.uniqueSkPackSize⟩

theorem packRecordLoop_cons (u n : ℕ) (hidden : Option Bytes) {i : ℕ}
    (h : hidden = none ∨ ¬ (t.tableHasHiddenPk = true ∧ i + 1 = n)) (fpi : FieldPacking)
    (parts : List FieldPacking) (acc : PackedRecord) :
    packRecordLoop t u n r hidden i (fpi :: parts) acc
      = packRecordLoop t u n r hidden (i + 1) parts (packTurn t r u i fpi acc) := by
  cases hidden with
  | none =>
    simp only [packRecordLoop, packTurn]
    split_ifs <;> rfl
  | some id =>
    simp only [packRecordLoop, packTurn, if_neg (h.resolve_left (by simp))]
    split_ifs <;> rfl

theorem splitAt_packTurn (u i : ℕ) (fpi : FieldPacking) (parts : List FieldPacking)
    (acc : PackedRecord) :
    splitAt t r u (i + 1) parts (packTurn t r u i fpi acc)
      = splitAt t r u i (fpi :: parts) acc := by
  simp only [splitAt, packTurn, length_cons]
  by_cases hu : i = u
  · subst hu
    rw [if_neg (by omega), if_pos rfl, if_pos (by omega), Nat.sub_self, take_zero]
    simp [packParts]
  · rw [if_neg hu]
    by_cases hr : i + 1 ≤ u ∧ u < i + 1 + parts.length
    · rw [if_pos hr, if_pos (by omega), show u - i = u - (i + 1) + 1 by omega, take_succ_cons]
      simp [packParts]
    · rw [if_neg hr, if_neg (by omega)]

/-- **Without a hidden primary key the loop packs all parts.** The induction is on the parts that
are left. -/
theorem packRecordLoop_eq (u n : ℕ) (hidden : Option Bytes)
    (h : hidden = none ∨ t.tableHasHiddenPk = false) :
    ∀ (i : ℕ) (parts : List FieldPacking) (acc : PackedRecord),
      packRecordLoop t u n r hidden i parts acc
        = ⟨acc.tuple ++ packParts t r parts, acc.unpackInfo ++ infoParts t r parts,
            splitAt t r u i parts acc⟩
  | i, [], acc => by
      have : splitAt t r u i [] acc = acc.uniqueSkPackSize := if_neg (by simp)
      rw [this]
      simp [packRecordLoop, packParts, infoParts]
  | i, fpi :: parts, acc => by
      rw [packRecordLoop_cons t r u n hidden (h.imp_right (by simp +contextual)),
        packRecordLoop_eq u n hidden h (i + 1) parts, splitAt_packTurn]
      simp [packParts, infoParts, packTurn]

/-- **With a hidden primary key the last part is filled with it.** -/
theorem packRecordLoop_hidden (u : ℕ) (id : Bytes) (h : t.tableHasHiddenPk = true)
    (last : FieldPacking) : ∀ (i : ℕ) (parts : List FieldPacking) (acc : PackedRecord),
      packRecordLoop t u (i + parts.length + 1) r (some id) i (parts ++ [last]) acc
        = ⟨acc.tuple ++ packParts t r parts ++ id, acc.unpackInfo ++ infoParts t r parts,
            splitAt t r u i (parts ++ [last]) acc⟩
  | i, [], acc => by
      have hs := splitAt_packTurn t r u i last [] acc
      rw [splitAt, if_neg (by simp)] at hs
      rw [nil_append, ← hs]
      simp only [packRecordLoop, packParts, infoParts, packTurn, h, length_nil, Nat.add_zero,
        and_self, if_true, flatMap_nil, append_nil]
      split_ifs <;> rfl
  | i, fpi :: parts, acc => by
      have hn : i + (fpi :: parts).length + 1 = i + 1 + parts.length + 1 := by
        rw [length_cons]
        omega
      rw [hn, cons_append, packRecordLoop_cons t r u _ _ (Or.inr (by omega)),
        packRecordLoop_hidden u id h last (i + 1) parts, splitAt_packTurn]
      simp [packParts, infoParts, packTurn]

end Loop

/-! ## Secondary indexes -/

theorem KeyPartInfo.sameAs_iff {p q : KeyPartInfo} :
    p.sameAs q = true ↔ p.fieldIndex = q.fieldIndex ∧ p.length = q.length := by
  rw [KeyPartInfo.sameAs, Bool.and_eq_true, beq_iff_eq, beq_iff_eq]

theorem KeyPartInfo.sameAs_self (p : KeyPartInfo) : p.sameAs p = true := sameAs_iff.mpr ⟨rfl, rfl⟩

namespace Table

variable (t : Table)

theorem key_mem {keyno : ℕ} (h : keyno < t.keyInfo.length) : t.key keyno ∈ t.keyInfo := by
  rw [TableShare.key, getD_eq_getElem?_getD, getElem?_eq_getElem h]
  exact getElem_mem h

/-- No two parts of the primary key are of one column. -/
theorem pkParts_pairwise : t.pkParts.Pairwise fun p q => p.fieldIndex ≠ q.fieldIndex := by
  unfold TableShare.pkParts
  cases hpk : t.primaryKey with
  | none => exact List.Pairwise.nil
  | some pk =>
    obtain ⟨hlt, hns, -⟩ := t.pk_wf pk hpk
    have hmem := t.key_mem hlt
    show (t.key pk).extKeyParts.Pairwise _
    exact pairwise_map.mp (t.parts_nodup _ hmem)

/-- A primary key part of the column of another is that part. -/
theorem eq_of_mem_pkParts {p q : KeyPartInfo} (hp : p ∈ t.pkParts) (hq : q ∈ t.pkParts)
    (h : p.fieldIndex = q.fieldIndex) : p = q :=
  inj_on_of_nodup_map (pairwise_map.mpr t.pkParts_pairwise) hp hq h

theorem userDefinedKeyParts_nodup {k : Key} (h : k ∈ t.keyInfo) :
    (k.userDefinedKeyParts.map (·.fieldIndex)).Nodup := by
  obtain ⟨tail, hext, -⟩ := t.ext_sublist k h
  have hnodup := t.parts_nodup k h
  rw [hext, map_append] at hnodup
  exact List.Nodup.of_append_left hnodup

theorem userDefinedKeyParts_le {k : Key} (h : k ∈ t.keyInfo) :
    k.userDefinedKeyParts.length ≤ maxRefParts := by
  obtain ⟨tail, hext, -⟩ := t.ext_sublist k h
  have hle := t.parts_le k h
  rw [hext, length_append] at hle
  omega

theorem part_wf_of_mem {k : Key} (hk : k ∈ t.keyInfo) {p : KeyPartInfo}
    (hp : p ∈ k.userDefinedKeyParts) : p.Wf t := by
  obtain ⟨tail, hext, -⟩ := t.ext_sublist k hk
  refine t.part_wf k hk p ?_
  rw [hext]
  exact mem_append_left _ hp

theorem wf_of_mem_pkParts {p : KeyPartInfo} (hp : p ∈ t.pkParts) : p.Wf t := by
  unfold TableShare.pkParts at hp
  cases h : t.primaryKey with
  | none => simp [h] at hp
  | some pk =>
    rw [h] at hp
    exact t.part_wf _ (t.key_mem (t.pk_wf pk h).1) p hp

/-- A secondary index. -/
structure Secondary where
  keyno : ℕ
  lt : keyno < t.keyInfo.length
  ne_pk : t.primaryKey ≠ some keyno

/-- The `hidden_pk` the handler passes: the packed primary key, if that is hidden. -/
def hiddenPk (pk : Bytes) : Option Bytes := if t.tableHasHiddenPk then some pk else none

namespace Secondary

variable {t} (x : Secondary t) (r : Record)

/-- Its `KEY`. -/
def key : Key := t.key x.keyno

theorem key_mem : x.key ∈ t.keyInfo := t.key_mem x.lt

/-- Its key definition. -/
def keyDef (unset : ℕ) : KeyDef := KeyDef.setup t.toTableShare .secondary x.keyno unset

/-- The primary key parts it is extended with, by the SQL layer and then by `mono_key_def::setup`.
-/
def missing : List KeyPartInfo :=
  x.key.extKeyParts.drop x.key.userDefinedKeyParts.length ++ t.missingPkParts x.key.extKeyParts

/-- The images of its declared parts. -/
def declared : Bytes := x.key.userDefinedKeyParts.flatMap (partImage t.toTableShare r)

/-- What follows them: the images of the missing primary key parts, or the hidden primary key. -/
def suffix (pk : Bytes) : Bytes :=
  if t.tableHasHiddenPk then pk else x.missing.flatMap (partImage t.toTableShare r)

theorem ext_append_missing :
    x.key.extKeyParts ++ t.missingPkParts x.key.extKeyParts
      = x.key.userDefinedKeyParts ++ x.missing := by
  obtain ⟨tail, hext, -⟩ := t.ext_sublist _ x.key_mem
  rw [missing, ← append_assoc, hext, drop_left]

/-- **It is extended with the primary key parts that it does not declare.** -/
theorem mem_missing_iff {q : KeyPartInfo} (hq : q ∈ t.pkParts) :
    q ∈ x.missing ↔ ∀ p ∈ x.key.userDefinedKeyParts, q.sameAs p = false := by
  obtain ⟨tail, hext, hsub⟩ := t.ext_sublist _ x.key_mem
  have hmem : ∀ {parts : List KeyPartInfo},
      q ∈ t.missingPkParts parts ↔ ∀ p ∈ parts, q.sameAs p = false := by
    intro parts
    rw [TableShare.missingPkParts, mem_filter, and_iff_right hq, Bool.not_eq_true',
      any_eq_false]
    simp
  rw [missing, hext, drop_left, mem_append, hmem, forall_mem_append]
  constructor
  · rintro (htail | hno)
    · exact hmem.mp (hsub.subset htail)
    · exact hno.1
  · intro hno
    by_cases htail : ∃ p ∈ tail, q.sameAs p = true
    · obtain ⟨p, hp, hqp⟩ := htail
      have hpk := mem_of_mem_filter (hsub.subset hp)
      exact Or.inl (t.eq_of_mem_pkParts hq hpk (KeyPartInfo.sameAs_iff.mp hqp).1 ▸ hp)
    · simp only [not_exists, not_and, Bool.not_eq_true] at htail
      exact Or.inr ⟨hno, htail⟩

theorem pkPart_of_mem_missing {p : KeyPartInfo} (hp : p ∈ x.missing) : p ∈ t.pkParts := by
  obtain ⟨tail, hext, hsub⟩ := t.ext_sublist _ x.key_mem
  rw [missing, hext, drop_left, mem_append] at hp
  rcases hp with hp | hp
  · exact mem_of_mem_filter (hsub.subset hp)
  · exact mem_of_mem_filter hp

/-- No two of the parts it is extended with are of one column. -/
theorem missing_pairwise : x.missing.Pairwise fun p q => p.fieldIndex ≠ q.fieldIndex := by
  obtain ⟨tail, hext, hsub⟩ := t.ext_sublist _ x.key_mem
  rw [missing, hext, drop_left, pairwise_append]
  refine ⟨(t.pkParts_pairwise.filter _).sublist hsub, t.pkParts_pairwise.filter _, ?_⟩
  intro p hp q hq heq
  obtain ⟨hqpk, hno⟩ := mem_filter.mp hq
  rw [Bool.not_eq_true', any_eq_false] at hno
  obtain rfl := t.eq_of_mem_pkParts (mem_of_mem_filter (hsub.subset hp)) hqpk heq
  exact hno p (mem_append_right _ hp) p.sameAs_self

theorem missing_of_hidden (h : t.tableHasHiddenPk = true) : x.missing = [] := by
  rw [TableShare.tableHasHiddenPk, Option.isNone_iff_eq_none] at h
  rw [eq_nil_iff_forall_not_mem]
  intro p hp
  have := x.pkPart_of_mem_missing hp
  simp [TableShare.pkParts, h] at this

theorem missing_wf {p : KeyPartInfo} (hp : p ∈ x.missing) : p.Wf t :=
  t.wf_of_mem_pkParts (x.pkPart_of_mem_missing hp)

/-- The SQL layer does not extend an index by a hidden primary key. -/
theorem extKeyParts_of_hidden (h : t.tableHasHiddenPk = true) :
    x.key.extKeyParts = x.key.userDefinedKeyParts := by
  have happend := x.ext_append_missing
  rw [x.missing_of_hidden h, append_nil] at happend
  obtain ⟨tail, hext, -⟩ := t.ext_sublist _ x.key_mem
  have hlen := congrArg length happend
  rw [hext, length_append, length_append] at hlen
  rw [hext, length_eq_zero_iff.mp (show tail.length = 0 by omega), append_nil]

theorem packInfo_of_hidden (h : t.tableHasHiddenPk = true) (unset : ℕ) :
    (x.keyDef unset).packInfo
      = x.key.userDefinedKeyParts.map (packPart t)
        ++ [setupHidden] := by
  show x.key.extKeyParts.map _ ++ KeyDef.simulatedParts _ x.key = _
  rw [x.extKeyParts_of_hidden h, KeyDef.simulatedParts, if_pos h]

theorem packInfo_of_not_hidden (h : t.tableHasHiddenPk = false) (unset : ℕ) :
    (x.keyDef unset).packInfo
      = x.key.userDefinedKeyParts.map (packPart t)
        ++ x.missing.map (packPart t) := by
  show x.key.extKeyParts.map _ ++ KeyDef.simulatedParts _ x.key = _
  rw [KeyDef.simulatedParts, if_neg (by simp [h]), ← map_append, ← map_append,
    x.ext_append_missing]

end Secondary

/-! ## All indexes -/

/-- The key definitions of a table that pack columns. -/
inductive Index where
  | primary (pk : ℕ) (h : t.primaryKey = some pk)
  | secondary (x : Secondary t)

/-- All parts are packed when all are asked for, or the key is being modified. -/
theorem usedKeyParts_eq (kd : KeyDef) (pk : Bytes) {m : Bool} {n : ℕ} (h : n = 0 ∨ m = true) :
    usedKeyParts t kd m (t.hiddenPk pk).isSome n = kd.keyParts := by
  have h1 : ¬ (t.tableHasHiddenPk = true ∧ (!(t.hiddenPk pk).isSome) = true ∧
      (n = 0 ∨ n = maxRefParts)) := by
    rintro ⟨hh, hs, -⟩
    simp [hiddenPk, hh] at hs
  simp only [usedKeyParts]
  rw [if_neg h1, if_pos]
  exact h.imp Or.inl id

namespace Index

variable {t} (ix : Index t) (r : Record)

/-- The key definition. -/
def keyDef (unset : ℕ) : Index t → KeyDef
  | primary pk _ => KeyDef.setup t.toTableShare .primary pk unset
  | secondary x => x.keyDef unset

/-- Its parts that are columns. -/
def parts : Index t → List KeyPartInfo
  | primary pk _ => (t.key pk).extKeyParts
  | secondary x => x.key.userDefinedKeyParts ++ x.missing

/-- A secondary index has each part of the primary key, with or without a clone of the column. -/
theorem exists_sameAs (x : Secondary t) {p : KeyPartInfo} (hp : p ∈ t.pkParts) :
    ∃ q ∈ (secondary x).parts, p.sameAs q = true := by
  simp only [parts, mem_append]
  cases hd : x.key.userDefinedKeyParts.any fun q => p.sameAs q with
  | true =>
    obtain ⟨q, hq, hpq⟩ := any_eq_true.mp hd
    exact ⟨q, Or.inl hq, hpq⟩
  | false =>
    rw [any_eq_false] at hd
    refine ⟨p, Or.inr ((x.mem_missing_iff hp).mpr fun q hq => ?_), p.sameAs_self⟩
    exact Bool.eq_false_iff.mpr (hd q hq)

theorem packInfo_eq (unset : ℕ) : (ix.keyDef unset).packInfo
    = ix.parts.map (packPart t)
      ++ if t.tableHasHiddenPk then [setupHidden] else [] := by
  cases ix with
  | primary pk h =>
    have hh : t.tableHasHiddenPk = false := by rw [TableShare.tableHasHiddenPk, h]; rfl
    rw [hh, if_neg Bool.false_ne_true, append_nil]
    rfl
  | secondary x =>
    cases hh : t.tableHasHiddenPk with
    | true =>
      rw [if_pos rfl, parts, x.missing_of_hidden hh, append_nil,
        ← x.packInfo_of_hidden hh unset, keyDef]
    | false =>
      rw [if_neg Bool.false_ne_true, parts, map_append, append_nil,
        ← x.packInfo_of_not_hidden hh unset, keyDef]

theorem keyParts_eq (unset : ℕ) : (ix.keyDef unset).keyParts
    = ix.parts.length + if t.tableHasHiddenPk then 1 else 0 := by
  rw [KeyDef.keyParts, ix.packInfo_eq, length_append, length_map]
  split_ifs <;> rfl

/-- The loop over all parts, with the hidden primary key in the last. -/
theorem packRecordLoop_all (unset : ℕ) (pk : Bytes) {m : Bool} {n : ℕ} (h : n = 0 ∨ m = true) :
    let k := usedKeyParts t (ix.keyDef unset) m (t.hiddenPk pk).isSome n
    packRecordLoop t (ix.keyDef unset).uniqueSkOnlyKeyParts k r (t.hiddenPk pk) 0
        ((ix.keyDef unset).packInfo.take k) ⟨[], [], none⟩
      = ⟨ix.parts.flatMap (partImage t r) ++ (t.hiddenPk pk).getD [],
          infoParts t r (ix.parts.map (packPart t)),
          splitAt t r (ix.keyDef unset).uniqueSkOnlyKeyParts 0
            (ix.keyDef unset).packInfo ⟨[], [], none⟩⟩ := by
  simp only [t.usedKeyParts_eq _ pk h, KeyDef.keyParts, take_length, ix.packInfo_eq]
  cases hh : t.tableHasHiddenPk with
  | true =>
    rw [hiddenPk, if_pos hh, if_pos rfl, length_append, length_singleton,
      ← Nat.zero_add (length _), packRecordLoop_hidden _ _ _ _ hh, packParts_map]
    rfl
  | false =>
    rw [if_neg Bool.false_ne_true, append_nil, packRecordLoop_eq _ _ _ _ _ (Or.inr hh),
      packParts_map, hiddenPk, if_neg (by simp [hh])]
    simp

/-- **A key is the images of its parts, and the hidden primary key.** -/
theorem packRecord_tuple (unset : ℕ) (pk : Bytes) {m : Bool} {n : ℕ} (h : n = 0 ∨ m = true) :
    (packRecord t (ix.keyDef unset) r m (t.hiddenPk pk) n).tuple
      = ix.parts.flatMap (partImage t r) ++ (t.hiddenPk pk).getD [] :=
  congrArg PackedRecord.tuple (ix.packRecordLoop_all r unset pk h)

theorem packRecord_unpackInfo (unset : ℕ) (pk : Bytes) {m : Bool} {n : ℕ} (h : n = 0 ∨ m = true) :
    (packRecord t (ix.keyDef unset) r m (t.hiddenPk pk) n).unpackInfo
      = unpackHeader (infoParts t r
          (ix.parts.map (packPart t))) :=
  congrArg (fun p : PackedRecord => unpackHeader p.unpackInfo) (ix.packRecordLoop_all r unset pk h)

end Index

/-! ## The keys of secondary indexes -/

namespace Secondary

variable {t} (x : Secondary t) (r : Record)

theorem suffix_eq (pk : Bytes) : x.suffix r pk
    = x.missing.flatMap (partImage t r) ++ (t.hiddenPk pk).getD [] := by
  cases hh : t.tableHasHiddenPk with
  | true =>
    rw [suffix, if_pos hh, x.missing_of_hidden hh, hiddenPk, if_pos hh, flatMap_nil]
    rfl
  | false => rw [suffix, if_neg (by simp [hh]), hiddenPk, if_neg (by simp [hh]), Option.getD_none,
      append_nil]

/-- **A key of a secondary index is the images of its declared parts, and its suffix.** -/
theorem packRecord_tuple (unset : ℕ) (pk : Bytes) {m : Bool} {n : ℕ} (h : n = 0 ∨ m = true) :
    (packRecord t (x.keyDef unset) r m (t.hiddenPk pk) n).tuple
      = x.declared r ++ x.suffix r pk := by
  have htuple := (Index.secondary x).packRecord_tuple r unset pk h
  rwa [Index.parts, flatMap_append, append_assoc, ← x.suffix_eq] at htuple

/-- **The split of the key of a unique index is recorded if a part follows the declared ones**,
because the loop records it on entering that part. -/
theorem packRecord_split (hu : x.key.nosame = true) (unset : ℕ) (pk : Bytes) (n : ℕ) :
    (packRecord t (x.keyDef unset) r true (t.hiddenPk pk) n).uniqueSkPackSize
      = if t.tableHasHiddenPk = true ∨ x.missing ≠ [] then some (x.declared r).length
        else none := by
  have hsplit := congrArg PackedRecord.uniqueSkPackSize
    ((Index.secondary x).packRecordLoop_all r unset pk (m := true) (n := n) (Or.inr rfl))
  refine hsplit.trans ?_
  have hparts : (x.keyDef unset).uniqueSkOnlyKeyParts
      = (x.key.userDefinedKeyParts.map (packPart t)).length := by
    rw [length_map, ← t.ext_nosame _ x.key_mem hu]
    exact if_pos hu
  simp only [splitAt, Index.keyDef, hparts, Nat.zero_le, true_and, Nat.zero_add, Nat.sub_zero,
    nil_append]
  cases hh : t.tableHasHiddenPk with
  | true =>
    rw [x.packInfo_of_hidden hh, take_left, if_pos (by simp), if_pos (Or.inl rfl), declared,
      packParts_map]
  | false =>
    rw [x.packInfo_of_not_hidden hh, take_left, declared, packParts_map]
    refine if_congr ?_ rfl rfl
    simp [length_pos_iff]

/-- The key that is stored for a row in a unique index: nothing, if it has no split. -/
theorem packRecord_stored (hu : x.key.nosame = true) (unset : ℕ) (pk : Bytes) :
    let p := packRecord t (x.keyDef unset) r true (t.hiddenPk pk) 0
    (p.tuple.take p.split, p.tuple.drop p.split)
      = if t.tableHasHiddenPk = true ∨ x.missing ≠ [] then (x.declared r, x.suffix r pk)
        else ([], x.declared r ++ x.suffix r pk) := by
  simp only [PackedRecord.split, x.packRecord_tuple r unset pk (Or.inr rfl),
    x.packRecord_split r hu unset pk 0]
  split_ifs
  · rw [Option.getD_some, take_left, drop_left]
  · rfl

/-- **`unique_sk_pack_size` splits the key of a unique index into the images of the declared columns
and those of the missing primary key columns exactly if there are such columns**, or the primary key
is hidden. -/
theorem packRecord_splits_iff (hu : x.key.nosame = true) (unset : ℕ) (row : Row t.toTableShare)
    (pk : Bytes) (n : ℕ) :
    let p := packRecord t.toTableShare (x.keyDef unset) row.record true (t.hiddenPk pk) n
    let size := (x.declared row.record).length
    (p.uniqueSkPackSize = some size ∧ p.tuple.take size = x.declared row.record ∧
        p.tuple.drop size = x.suffix row.record pk)
      ↔ t.tableHasHiddenPk = true ∨ x.missing ≠ [] := by
  intro p size
  have htuple : p.tuple = x.declared row.record ++ x.suffix row.record pk :=
    x.packRecord_tuple row.record unset pk (Or.inr rfl)
  have hsplit : p.uniqueSkPackSize = _ := x.packRecord_split row.record hu unset pk n
  rw [htuple, take_left, drop_left, hsplit]
  split_ifs with h
  · exact iff_of_true ⟨rfl, rfl, rfl⟩ h
  · exact iff_of_false (fun hs => hs.1) h

end Secondary

/-! ### A table to try this on -/

/-- An `INT` column. -/
def intField (maybeNull : Bool) : Field := ⟨.long, maybeNull, 11, false, .binary⟩

/-- `CREATE TABLE t (a INT PRIMARY KEY, b INT NOT NULL, UNIQUE (a), UNIQUE (b))`. -/
def sample : Table :=
  TableShare.toTable
    { fields := 2
      field := fun _ => intField false
      keyInfo := [0, 0, 1].map fun i => ⟨true, [⟨i, 4, false⟩], [⟨i, 4, false⟩]⟩
      primaryKey := some 0 } (by decide)

/-- The row `(1, 2)`. -/
def sampleRow : Row sample.toTableShare :=
  ⟨fun i => ⟨false, [UInt8.ofNat (i + 1), 0, 0, 0]⟩, by decide⟩

/-- `UNIQUE (b)` is extended by `a`. -/
theorem packRecord_splits_sample :
    let x : Secondary sample := ⟨2, by decide, by decide⟩
    (packRecord sample.toTableShare (x.keyDef 0) sampleRow.record true none 0).uniqueSkPackSize
      = some 4 := by
  intro x
  exact ((x.packRecord_splits_iff (by decide) 0 sampleRow [] 0).mpr (Or.inr (by decide))).1

/-- `UNIQUE (a)` misses no primary key column, and the size stays as the caller left it. -/
theorem packRecord_no_split :
    let x : Secondary sample := ⟨1, by decide, by decide⟩
    let p := packRecord sample.toTableShare (x.keyDef 0) sampleRow.record true none 0
    p.tuple = x.declared sampleRow.record ∧ p.tuple.length = 4 ∧ p.uniqueSkPackSize = none := by
  decide

end Table

end EloqSql
