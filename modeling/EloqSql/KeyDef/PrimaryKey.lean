import Mathlib.Algebra.Order.BigOperators.Group.List
import Mathlib.Algebra.Order.Group.Nat
import EloqSql.KeyDef.RoundTrip

/-!
# KeyDef/PrimaryKey — the primary key out of a secondary key

`getPrimaryKeyTuple` cuts a secondary key into the images of its parts and puts those of primary key
columns together again. A column can be in the key twice, and the later image wins
(`offsets_of_split`), so each primary key part comes from its own copy at the end of the key or, if
it has none there, from a declared part of the same column and length (`Secondary.source`).

The declared part may be set up with a clone of the column. That is another image than the primary
key has exactly for a prefix of a `CHAR` (`partImage_source_eq_iff`): its image is filled up to the
length of the column in the primary key, and to that of the prefix in the index.
-/

namespace EloqSql

open FieldPacking List
open KeyDef (packPart)

/-! ## `mono_key_def::get_primary_key_tuple` -/

/-- `m_pk_part_no` of a part: the primary key part of its column, whatever its length. -/
def pkPartNo (t : TableShare) (p : KeyPartInfo) : Option ℕ :=
  t.pkParts.findIdx? fun q => q.fieldIndex == p.fieldIndex

/-- `m_pk_part_no` of the parts of a secondary index, as `mono_key_def::setup` fills it in. -/
def pkPartNos (t : TableShare) (keyno : ℕ) : List (Option ℕ) :=
  let parts := (t.key keyno).extKeyParts
  if t.tableHasHiddenPk then parts.map (fun _ => none) ++ [some 0]
  else (parts ++ t.missingPkParts parts).map (pkPartNo t)

/-- `m_pk_key_parts` of a secondary index. -/
def pkKeyParts (t : TableShare) : ℕ := if t.tableHasHiddenPk then 1 else t.pkParts.length

/-- `read_memcmp_key_part` of the `i`-th of `n` parts: what is left of the reader. -/
def readMemcmpKeyPart (t : TableShare) (n i : ℕ) (fpi : FieldPacking) (reader : Bytes) :
    Option Bytes :=
  let skip (reader : Bytes) : Option Bytes :=
    if i + 1 = n ∧ t.tableHasHiddenPk then
      (StringReader.read fpi.maxImageLen reader).map Prod.snd
    else
      match fpi.fieldIdx with
      | none => none
      | some j => fpi.skip (partField (t.field j) fpi.keyPartLength) reader
  if fpi.maybeNull then
    match reader with
    | [] => none
    | nullp :: reader => if nullp = 0 then some reader else if nullp = 1 then skip reader else none
  else skip reader

/-- The first loop of `get_primary_key_tuple`: the bytes between `start_offs` and `end_offs` of each
primary key part. -/
def pkOffsets (t : TableShare) (n : ℕ) :
    ℕ → List (FieldPacking × Option ℕ) → Bytes → (ℕ → Bytes) → Option (ℕ → Bytes)
  | _, [], _, offs => some offs
  | i, (fpi, pkKeyPart) :: parts, reader, offs =>
    match readMemcmpKeyPart t n i fpi reader with
    | none => none
    | some rest =>
      pkOffsets t n (i + 1) parts rest <|
        match pkKeyPart with
        | none => offs
        | some j => Function.update offs j (reader.take (reader.length - rest.length))

/-- `mono_key_def::get_primary_key_tuple`; `uninit` is between the offsets that no part sets. -/
def getPrimaryKeyTuple (t : TableShare) (kd : KeyDef) (uninit : ℕ → Bytes) (key : Bytes) :
    Option Bytes :=
  (pkOffsets t kd.keyParts 0 (kd.packInfo.zip (pkPartNos t kd.keyno)) key uninit).map fun offs =>
    (List.range (pkKeyParts t)).flatMap offs

/-! ## The loop over the parts -/

section Loop

variable {t : TableShare}

theorem packPart_maybeNull (p : KeyPartInfo) :
    (packPart t p).maybeNull = (t.field p.fieldIndex).maybeNull := by
  rw [packPart, setup_maybeNull]
  cases p.cloned <;> rfl

/-- **A part is read to its end.** -/
theorem readMemcmpKeyPart_partImage {n i : ℕ} (hcol : ¬ (i + 1 = n ∧ t.tableHasHiddenPk = true))
    {p : KeyPartInfo} (hp : p.Wf t) (row : Row t) (rest : Bytes) :
    readMemcmpKeyPart t n i (packPart t p) (partImage t row.record p ++ rest)
      = some rest := by
  obtain ⟨hidx, hlen⟩ := setup_eq p.fieldIndex
    (keyField p.cloned (t.field p.fieldIndex) p.length) p.length
  unfold readMemcmpKeyPart
  rw [packPart_maybeNull]
  simp only [if_neg hcol, packPart, hidx, hlen, partImage]
  obtain ⟨hm, hn⟩ | ⟨hn, hv⟩ := row.null_or_valid hp.1
  · simp [hm, hn]
  · have hskip := skip_pack p.fieldIndex p.cloned hp.2 hv rest
    cases hm : (t.field p.fieldIndex).maybeNull <;> simpa [hn] using hskip

/-- What a part does to the offsets. -/
def setOffset (t : TableShare) (r : Record) (offs : ℕ → Bytes) (p : KeyPartInfo) : ℕ → Bytes :=
  match pkPartNo t p with
  | none => offs
  | some j => Function.update offs j (partImage t r p)

/-- **The loop cuts the key into the images of its parts.** The induction is on the parts. -/
theorem pkOffsets_partImages (row : Row t) {n : ℕ} (hh : t.tableHasHiddenPk = false) :
    ∀ {ps : List KeyPartInfo} {i : ℕ} {offs : ℕ → Bytes},
      (∀ p ∈ ps, p.Wf t) →
      pkOffsets t n i (ps.map fun p => (packPart t p, pkPartNo t p))
          (ps.flatMap (partImage t row.record)) offs
        = some (ps.foldl (setOffset t row.record) offs)
  | [], _, _, _ => rfl
  | p :: ps, i, offs, hps => by
      have hcol : ¬ (i + 1 = n ∧ t.tableHasHiddenPk = true) := by simp [hh]
      rw [map_cons, flatMap_cons, pkOffsets, readMemcmpKeyPart_partImage hcol (hps p mem_cons_self)]
      simp only [length_append, Nat.add_sub_cancel, take_left]
      rw [pkOffsets_partImages row hh fun q hq => hps q (mem_cons_of_mem p hq)]
      rfl

/-- With a hidden primary key, the last part is all that is kept. -/
theorem pkOffsets_hidden (row : Row t) (hh : t.tableHasHiddenPk = true) {id : Bytes}
    (hid : id.length = myUuidSize) :
    ∀ {ps : List KeyPartInfo} {i : ℕ} {offs : ℕ → Bytes},
      (∀ p ∈ ps, p.Wf t) →
      pkOffsets t (i + ps.length + 1) i
          (ps.map (fun p => (packPart t p, none)) ++ [(setupHidden, some 0)])
          (ps.flatMap (partImage t row.record) ++ id) offs
        = some (Function.update offs 0 id)
  | [], i, offs, _ => by
      have hread : readMemcmpKeyPart t (i + 1) i setupHidden id = some [] := by
        have := StringReader.read_append hid []
        rw [append_nil] at this
        simp [readMemcmpKeyPart, setupHidden, hh, this]
      simp [pkOffsets, hread]
  | p :: ps, i, offs, hps => by
      have hn : i + (p :: ps).length + 1 = i + 1 + ps.length + 1 := by
        rw [length_cons]
        omega
      rw [hn, map_cons, cons_append, flatMap_cons, append_assoc, pkOffsets,
        readMemcmpKeyPart_partImage (by omega) (hps p mem_cons_self)]
      exact pkOffsets_hidden row hh hid fun q hq => hps q (mem_cons_of_mem p hq)

/-- **The last part of a column wins.** -/
theorem offsets_of_split {r : Record} {p : KeyPartInfo} {j : ℕ} (hp : pkPartNo t p = some j) :
    ∀ {after : List KeyPartInfo} (offs : ℕ → Bytes), (∀ q ∈ after, pkPartNo t q ≠ some j) →
      after.foldl (setOffset t r) (setOffset t r offs p) j = partImage t r p := by
  intro after offs hafter
  have hkeep : ∀ {qs : List KeyPartInfo} {o : ℕ → Bytes}, (∀ q ∈ qs, pkPartNo t q ≠ some j) →
      qs.foldl (setOffset t r) o j = o j := by
    intro qs
    induction qs with
    | nil => intros; rfl
    | cons q qs ih =>
      intro o hq
      rw [foldl_cons, ih fun q' h' => hq q' (mem_cons_of_mem q h'), setOffset]
      have hne := hq q mem_cons_self
      cases hj : pkPartNo t q with
      | none => rfl
      | some k => exact Function.update_of_ne (fun he => hne (by rw [hj, he])) _ _
  rw [hkeep hafter, setOffset, hp]
  exact Function.update_self _ _ _

end Loop

/-- Concatenations of lists that are no longer than those of another agree only piece by piece. -/
theorem flatMap_eq_iff_of_length_le {α β : Type*} {f g : α → List β} :
    ∀ {l : List α}, (∀ a ∈ l, (f a).length ≤ (g a).length) →
      (l.flatMap f = l.flatMap g ↔ ∀ a ∈ l, f a = g a)
  | [], _ => by simp
  | a :: l, h => by
      have hl := fun b hb => h b (mem_cons_of_mem a hb)
      have hle : (l.flatMap f).length ≤ (l.flatMap g).length := by
        simp only [length_flatMap]
        exact sum_le_sum hl
      rw [flatMap_cons, flatMap_cons, forall_mem_cons,
        ← flatMap_eq_iff_of_length_le hl]
      refine ⟨fun he => append_inj he ?_, fun he => by rw [he.1, he.2]⟩
      have htotal := congrArg List.length he
      rw [length_append, length_append] at htotal
      have hhead := h a mem_cons_self
      omega

/-! ## Where a primary key part comes from -/

namespace Table

variable {t : Table}

/-- Each primary key part is the one its number says. -/
theorem pkPartNo_eq_some_iff {p : KeyPartInfo} {j : ℕ} : pkPartNo t p = some j ↔
    ∃ q, t.pkParts[j]? = some q ∧ q.fieldIndex = p.fieldIndex := by
  rw [pkPartNo, List.findIdx?_eq_some_iff_getElem]
  constructor
  · rintro ⟨hlt, hq, -⟩
    exact ⟨t.pkParts[j], List.getElem?_eq_getElem hlt, beq_iff_eq.mp hq⟩
  · rintro ⟨q, hq, hidx⟩
    obtain ⟨hlt, rfl⟩ := List.getElem?_eq_some_iff.mp hq
    refine ⟨hlt, beq_iff_eq.mpr hidx, fun k hk hb => ?_⟩
    have hne := pairwise_iff_getElem.mp t.pkParts_pairwise k j (by omega) hlt hk
    exact hne ((beq_iff_eq.mp hb).trans hidx.symm)

theorem not_cloned_of_mem_pkParts {p : KeyPartInfo} (hp : p ∈ t.pkParts) : p.cloned = false := by
  unfold TableShare.pkParts at hp
  cases h : t.primaryKey with
  | none => simp [h] at hp
  | some pk =>
    obtain ⟨hlt, hns, -⟩ := t.pk_wf pk h
    rw [h] at hp
    simp only at hp
    rw [t.ext_nosame _ (t.key_mem hlt) hns] at hp
    rw [t.part_cloned pk hlt p hp, TableShare.clonesField, h]
    simp

theorem maybeNull_of_mem_pkParts {q : KeyPartInfo} (hq : q ∈ t.pkParts) :
    (t.field q.fieldIndex).maybeNull = false := by
  unfold TableShare.pkParts at hq
  cases h : t.primaryKey with
  | none => simp [h] at hq
  | some pk =>
    rw [h] at hq
    exact (t.pk_wf pk h).2.2 q hq

namespace Secondary

variable (x : Secondary t)

variable {q : KeyPartInfo}

/-- The part of an index that a primary key part is read from: the declared part of the same column
and length, or its own copy. -/
def source (q : KeyPartInfo) : KeyPartInfo :=
  (x.key.userDefinedKeyParts.find? q.sameAs).getD q

/-- A primary key part is missing, or there is a declared part like it. -/
theorem source_cases (hq : q ∈ t.pkParts) : (x.source q = q ∧ q ∈ x.missing) ∨
      (x.source q ∈ x.key.userDefinedKeyParts ∧ q.sameAs (x.source q) = true ∧ q ∉ x.missing) := by
  rw [source]
  cases hf : x.key.userDefinedKeyParts.find? q.sameAs with
  | none =>
    refine Or.inl ⟨rfl, (x.mem_missing_iff hq).mpr fun p hp => ?_⟩
    exact Bool.eq_false_iff.mpr (List.find?_eq_none.mp hf p hp)
  | some p =>
    have hp := mem_of_find?_eq_some hf
    have hqp : q.sameAs p = true := List.find?_some hf
    refine Or.inr ⟨hp, hqp, fun hm => ?_⟩
    rw [(x.mem_missing_iff hq).mp hm p hp] at hqp
    exact Bool.noConfusion hqp

/-- **The offsets of a primary key part are those of its source.** -/
theorem offsets_eq {j : ℕ} (hq : t.pkParts[j]? = some q) (r : Record) (offs : ℕ → Bytes) :
    (Index.secondary x).parts.foldl (setOffset t r) offs j
      = partImage t r (x.source q) := by
  have hmem := mem_of_getElem? hq
  have hno : ∀ {p : KeyPartInfo}, p.fieldIndex = q.fieldIndex ↔
      pkPartNo t p = some j := by
    intro p
    rw [pkPartNo_eq_some_iff]
    exact ⟨fun h => ⟨q, hq, h.symm⟩, fun ⟨q', hq', h⟩ => by
      rw [← h, Option.some.inj (hq.symm.trans hq')]⟩
  rcases x.source_cases hmem with ⟨hs, hm⟩ | ⟨hd, hsame, hm⟩
  · -- no part behind the copy has its column
    rw [hs]
    obtain ⟨before, after, hsplit⟩ := append_of_mem hm
    have hpair := x.missing_pairwise
    rw [hsplit, pairwise_append, pairwise_cons] at hpair
    rw [Index.parts, hsplit, ← append_assoc, foldl_append, foldl_cons]
    exact offsets_of_split (hno.mp rfl) _ fun p hp he =>
      hpair.2.1.1 p hp (hno.mpr he).symm
  · -- no part behind the declared one has its column: it would be another declared part, or a
    -- missing part, and then this part itself
    obtain ⟨hidx, -⟩ := KeyPartInfo.sameAs_iff.mp hsame
    obtain ⟨before, after, hsplit⟩ := append_of_mem hd
    have hpair := pairwise_map.mp (t.userDefinedKeyParts_nodup x.key_mem)
    rw [hsplit, pairwise_append, pairwise_cons] at hpair
    rw [Index.parts, hsplit, append_assoc, cons_append, foldl_append,
      foldl_cons]
    refine offsets_of_split (hno.mp hidx.symm) _ fun p hp he => ?_
    have hcol := hno.mpr he
    rcases mem_append.mp hp with hp | hp
    · exact hpair.2.1.1 p hp (hidx.symm.trans hcol.symm)
    · have hpk := x.pkPart_of_mem_missing hp
      exact hm (t.eq_of_mem_pkParts hmem hpk hcol.symm ▸ hp)

/-- **The primary key is put together from the sources of its parts.** -/
theorem getPrimaryKeyTuple_eq (hh : t.tableHasHiddenPk = false) (unset : ℕ)
    (row : Row t) (uninit : ℕ → Bytes) :
    getPrimaryKeyTuple t (x.keyDef unset) uninit
        ((Index.secondary x).parts.flatMap (partImage t row.record))
      = some (t.pkParts.flatMap fun q => partImage t row.record (x.source q)) := by
  have hzip : (x.keyDef unset).packInfo.zip (pkPartNos t x.keyno)
      = (Index.secondary x).parts.map fun p =>
        (packPart t p, pkPartNo t p) := by
    have hext := x.ext_append_missing
    simp only [key] at hext
    rw [x.packInfo_of_not_hidden hh, ← map_append, pkPartNos, if_neg (by simp [hh]), hext]
    exact zip_map'
  have hwf := fun p hp => (Index.secondary x).wf_of_mem (p := p) hp
  show (pkOffsets _ _ 0 ((x.keyDef unset).packInfo.zip (pkPartNos _ x.keyno)) _ _).map _ = _
  rw [hzip, pkOffsets_partImages row hh hwf, Option.map_some, pkKeyParts, if_neg (by simp [hh])]
  refine congrArg some ?_
  rw [flatMap_def, flatMap_def]
  refine congrArg List.flatten (ext_getElem? fun j => ?_)
  rw [List.getElem?_map, List.getElem?_map]
  cases hq : t.pkParts[j]? with
  | none =>
    rw [List.getElem?_eq_none (by simpa using hq)]
    rfl
  | some q =>
    rw [List.getElem?_range (List.getElem?_eq_some_iff.mp hq).1, Option.map_some, Option.map_some,
      x.offsets_eq hq]

/-- A hidden primary key is the end of the key. -/
theorem getPrimaryKeyTuple_hidden (hh : t.tableHasHiddenPk = true) (unset : ℕ)
    (row : Row t) (id : HiddenPk) (uninit : ℕ → Bytes) :
    getPrimaryKeyTuple t (x.keyDef unset) uninit
        ((Index.secondary x).parts.flatMap (partImage t row.record) ++ id.1)
      = some id.1 := by
  have hparts : (Index.secondary x).parts = x.key.userDefinedKeyParts := by
    rw [Index.parts, x.missing_of_hidden hh, append_nil]
  have hinfo := x.packInfo_of_hidden hh unset
  have hext : (t.key x.keyno).extKeyParts = x.key.userDefinedKeyParts :=
    x.extKeyParts_of_hidden hh
  have hzip : (x.keyDef unset).packInfo.zip (pkPartNos t x.keyno)
      = x.key.userDefinedKeyParts.map (fun p => (packPart t p, none))
        ++ [(setupHidden, some 0)] := by
    rw [hinfo, pkPartNos, if_pos hh, hext, zip_append (by simp)]
    exact congrArg (· ++ _) (zip_map')
  have hlen : (x.keyDef unset).keyParts = 0 + x.key.userDefinedKeyParts.length + 1 := by
    rw [KeyDef.keyParts, hinfo, length_append, length_map, Nat.zero_add]
    rfl
  show (pkOffsets _ _ 0 ((x.keyDef unset).packInfo.zip (pkPartNos _ x.keyno)) _ _).map _ = _
  rw [hzip, hlen, hparts, pkOffsets_hidden row hh id.2 fun p hp => t.part_wf_of_mem x.key_mem hp,
    pkKeyParts, if_pos hh]
  simp

/-! ## The images of the sources -/

/-- A prefix of a `CHAR` or `BINARY` column. -/
def CharPrefix (t : TableShare) (p : KeyPartInfo) : Prop :=
  (t.field p.fieldIndex).realType = .string ∧ p.length ≠ (t.field p.fieldIndex).fieldLength

/-- A primary key part is never NULL. -/
theorem partImage_of_mem_pkParts (hq : q ∈ t.pkParts) (r : Record) (c : Bool) :
    partImage t r { q with cloned := c }
      = ((setup q.fieldIndex (keyField c (t.field q.fieldIndex) q.length) q.length).pack
          (partField (t.field q.fieldIndex) q.length) (r q.fieldIndex).bytes).1 := by
  simp only [partImage, maybeNull_of_mem_pkParts hq, Bool.false_eq_true, if_false]
  rfl

theorem validValue_of_mem_pkParts (hq : q ∈ t.pkParts) (row : Row t) :
    (t.field q.fieldIndex).validValue (row.record q.fieldIndex).bytes = true := by
  have hval := row.valid _ (t.wf_of_mem_pkParts hq).1
  have hn : ¬ ((t.field q.fieldIndex).maybeNull && (row.record q.fieldIndex).isNull) = true := by
    simp [maybeNull_of_mem_pkParts hq]
  exact (validValue_of_not_null hval hn).2

/-- The source of a primary key part differs from it in the clone at most. -/
theorem source_eq (hq : q ∈ t.pkParts) (hm : q ∉ x.missing) :
    x.source q = { q with cloned := t.clonesField x.keyno q } := by
  obtain ⟨-, hm'⟩ | ⟨hd, hsame, -⟩ := x.source_cases hq
  · exact absurd hm' hm
  · obtain ⟨hidx, hlen⟩ := KeyPartInfo.sameAs_iff.mp hsame
    have hc : (x.source q).cloned = t.clonesField x.keyno q := by
      rw [t.part_cloned x.keyno x.lt _ hd, TableShare.clonesField, TableShare.clonesField, hidx,
        hlen]
    rw [← hc, hidx, hlen]

/-- **The source of a primary key part has the image of the part**, unless it is a declared prefix
of a `CHAR`. -/
theorem partImage_source_eq (hq : q ∈ t.pkParts) (row : Row t)
    (h : ¬ (CharPrefix t q ∧ q ∉ x.missing)) :
    partImage t row.record (x.source q) = partImage t row.record q := by
  by_cases hm : q ∈ x.missing
  · obtain ⟨hs, -⟩ | ⟨-, -, hm'⟩ := x.source_cases hq
    · rw [hs]
    · exact absurd hm hm'
  have hval := validValue_of_mem_pkParts hq row
  obtain ⟨-, hw⟩ := t.wf_of_mem_pkParts hq
  have hq' : { q with cloned := false } = q := by rw [← not_cloned_of_mem_pkParts hq]
  rw [x.source_eq hq hm]
  cases hc : t.clonesField x.keyno q with
  | false => rw [hq']
  | true =>
    conv_rhs => rw [← hq']
    rw [partImage_of_mem_pkParts hq, partImage_of_mem_pkParts hq]
    simp only [TableShare.clonesField, Bool.and_eq_true] at hc
    cases hf : (t.field q.fieldIndex).realType with
    | varchar =>
      obtain ⟨-, xs, hx, -⟩ := validValue_varchar hf hval
      exact pack_varchar_partField hf hw hx
    | string =>
      have hne : q.length ≠ (t.field q.fieldIndex).fieldLength := by simpa [hf] using hc.2
      exact absurd ⟨⟨hf, hne⟩, hm⟩ h
    | blob _ => simp [hf] at hc
    | _ =>
      rw [keyField, if_pos rfl, setup_partField (by simp [hf]) (by simp [hf])]
      rfl

/-- A declared prefix of a `CHAR` is filled up to its own length, not to that of the column. -/
theorem length_partImage_source_lt (hq : q ∈ t.pkParts)
    (row : Row t) (hp : CharPrefix t q) (hm : q ∉ x.missing) :
    (partImage t row.record (x.source q)).length
      < (partImage t row.record q).length := by
  obtain ⟨hf, hne⟩ := hp
  have hval := validValue_of_mem_pkParts hq row
  obtain ⟨-, hw⟩ := t.wf_of_mem_pkParts hq
  have hw' := wfPart_partField (Or.inr hf) hw
  obtain ⟨xs, hx, hn⟩ := chars_string hf hw hval
  have hq' : { q with cloned := false } = q := by rw [← not_cloned_of_mem_pkParts hq]
  have hc : t.clonesField x.keyno q = true := by
    simp [TableShare.clonesField, hf, hne, x.ne_pk]
  have himage := partImage_of_mem_pkParts hq row.record false
  rw [hq'] at himage
  rw [x.source_eq hq hm, hc, partImage_of_mem_pkParts hq, himage]
  have hclone := length_pack_string (i := q.fieldIndex)
    (f := partField (t.field q.fieldIndex) q.length)
    hf hw' hx hn
  have hwhole := length_pack_string (i := q.fieldIndex) hf hw hx hn
  refine (hclone.trans_lt ?_).trans_eq hwhole.symm
  obtain ⟨-, hle, hmul, hfl⟩ := wfPart_string (Or.inr hf) hw
  refine strnxfrmlen_lt _ ?_ ?_ (lt_of_le_of_ne hle hne)
  · rw [hmul]
    exact Nat.mul_mod_right _ _
  · rw [hfl]
    exact Nat.mul_mod_right _ _

/-- **The sources make up the packed primary key exactly if no prefix of a `CHAR` is declared in
both keys.** -/
theorem flatMap_source_eq_iff (row : Row t) :
    (t.pkParts.flatMap fun q => partImage t row.record (x.source q))
        = t.pkParts.flatMap (partImage t row.record) ↔
      ∀ q ∈ t.pkParts, CharPrefix t q → q ∈ x.missing := by
  have hsource := fun q hq => x.partImage_source_eq (q := q) hq row
  have hlt := fun q hq => x.length_partImage_source_lt (q := q) hq row
  rw [flatMap_eq_iff_of_length_le]
  · refine forall₂_congr fun q hq =>
      ⟨fun he hp => ?_, fun h => hsource q hq fun hp => hp.2 (h hp.1)⟩
    by_contra hm
    have := hlt q hq hp hm
    rw [he] at this
    exact lt_irrefl _ this
  · intro q hq
    by_cases hp : CharPrefix t q ∧ q ∉ x.missing
    · exact (hlt q hq hp.1 hp.2).le
    · exact (congrArg List.length (hsource q hq hp)).le

end Secondary

end Table

end EloqSql
