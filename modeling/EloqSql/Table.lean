import Mathlib.Logic.Function.Basic
import EloqSql.Field

/-!
# Table — tables, their keys and their rows

`TableShare` is what the engine reads of the server's `TABLE_SHARE`. A `Table` is one as the server
makes it, and a `Row` a record whose columns are all valid: theorems about keys quantify over these,
so that no definition or record that cannot exist is ever packed.
-/

namespace EloqSql

open List

/-- `KEY_PART_INFO`: a column, and how many bytes of it are in the key. -/
structure KeyPartInfo where
  /-- `field->field_index`. -/
  fieldIndex : ℕ
  length : ℕ
  /-- Whether `field` is a clone of the column that has the length of the part. -/
  cloned : Bool
  deriving DecidableEq, Repr

/-- The parts are of one column and one length. -/
def KeyPartInfo.sameAs (p q : KeyPartInfo) : Bool :=
  p.fieldIndex == q.fieldIndex && p.length == q.length

/-- `KEY`. -/
structure Key where
  /-- `flags & HA_NOSAME`. -/
  nosame : Bool
  /-- The `user_defined_key_parts`. -/
  userDefinedKeyParts : List KeyPartInfo
  /-- The `ext_key_parts`, with the primary key columns that the SQL layer appends. -/
  extKeyParts : List KeyPartInfo

/-- `TABLE_SHARE`. -/
structure TableShare where
  /-- The number of columns. -/
  fields : ℕ
  field : ℕ → Field
  keyInfo : List Key
  /-- `primary_key`, which is empty (`MAX_INDEXES`) if the primary key is hidden. -/
  primaryKey : Option ℕ

namespace TableShare

/-- `table_has_hidden_pk`. -/
def tableHasHiddenPk (t : TableShare) : Bool := t.primaryKey.isNone

/-- `key_info[keyno]`. -/
def key (t : TableShare) (keyno : ℕ) : Key := t.keyInfo.getD keyno ⟨false, [], []⟩

/-- The key parts of the primary key. -/
def pkParts (t : TableShare) : List KeyPartInfo :=
  match t.primaryKey with
  | none => []
  | some pk => (t.key pk).extKeyParts

end TableShare

/-- `key_length()`. -/
def Field.keyLength (f : Field) : ℕ :=
  match f.realType with
  | .varchar => f.fieldLength
  | _ => f.packLength

/-- `field->part_of_key.is_set(primary_key)`: the whole of the column is in the primary key. -/
def TableShare.partOfPk (t : TableShare) (i : ℕ) : Bool :=
  t.pkParts.any fun p => p.fieldIndex == i && (t.field i).keyLength == p.length &&
    match (t.field i).realType with
    | .blob _ => false
    | _ => true

/-! ## Well-formed tables -/

/-- `MAX_REF_PARTS`. -/
def maxRefParts : ℕ := 32

/-- `max_supported_key_length()`. -/
def maxSupportedKeyLength : ℕ := 1024

/-- A key part of a column as the server makes it: the whole of the column, or a number of
characters from the head of a string. A `TIME(5)` of the old format is left out, whose sort string
is out of order above 688 hours. -/
def Field.wfPart (f : Field) (length : ℕ) : Bool :=
  f.wf && 0 < length && length ≤ maxSupportedKeyLength &&
    match f.realType with
    | .varchar | .string => length ≤ f.fieldLength && length % f.charset.mbmaxlen == 0
    | .blob _ => length % f.charset.mbmaxlen == 0
    | .time dec => dec != 5 && length == f.packLength
    | _ => length == f.packLength

/-- The parts of the primary key that are not among some parts, by column and length. -/
def TableShare.missingPkParts (t : TableShare) (parts : List KeyPartInfo) : List KeyPartInfo :=
  t.pkParts.filter fun p => !parts.any fun q => p.sameAs q

/-- The constructor of `MysqlTableSchema` clones the field of a declared part of a secondary index
that is a prefix of a column, unless that is a `BLOB`. Primary key parts keep the column, those that
an index is extended with included. -/
def TableShare.clonesField (t : TableShare) (keyno : ℕ) (p : KeyPartInfo) : Bool :=
  decide (t.primaryKey ≠ some keyno) &&
    match (t.field p.fieldIndex).realType with
    | .varchar | .string => p.length != (t.field p.fieldIndex).fieldLength
    | .blob _ => false
    | _ => p.length != (t.field p.fieldIndex).packLength

/-- The part is one of a column of the table, of a length it can have. -/
def KeyPartInfo.Wf (t : TableShare) (p : KeyPartInfo) : Prop :=
  p.fieldIndex < t.fields ∧ (t.field p.fieldIndex).wfPart p.length = true

/-- A table definition as the server makes it. -/
structure Table extends TableShare where
  part_wf : ∀ k ∈ keyInfo, ∀ p ∈ k.extKeyParts,
    p.fieldIndex < fields ∧ (field p.fieldIndex).wfPart p.length = true
  parts_ne_nil : ∀ k ∈ keyInfo, k.userDefinedKeyParts ≠ []
  /-- No key has a column twice. -/
  parts_nodup : ∀ k ∈ keyInfo, (k.extKeyParts.map (·.fieldIndex)).Nodup
  parts_le : ∀ k ∈ keyInfo, k.extKeyParts.length ≤ maxRefParts
  /-- A unique key is not extended. -/
  ext_nosame : ∀ k ∈ keyInfo, k.nosame = true → k.extKeyParts = k.userDefinedKeyParts
  /-- Another key is extended by some of the primary key parts it misses. -/
  ext_sublist : ∀ k ∈ keyInfo, ∃ tail, k.extKeyParts = k.userDefinedKeyParts ++ tail ∧
    tail.Sublist (toTableShare.missingPkParts k.userDefinedKeyParts)
  /-- The primary key is a unique key of columns that are not NULL. -/
  pk_wf : ∀ pk, primaryKey = some pk → pk < keyInfo.length ∧ (toTableShare.key pk).nosame = true ∧
    ∀ p ∈ (toTableShare.key pk).extKeyParts, (field p.fieldIndex).maybeNull = false
  part_cloned : ∀ keyno < keyInfo.length, ∀ p ∈ (toTableShare.key keyno).userDefinedKeyParts,
    p.cloned = toTableShare.clonesField keyno p

instance : Coe Table TableShare := ⟨Table.toTableShare⟩

namespace TableShare

/-- The conditions of a `Table` on one key, checked. -/
def wfKey (t : TableShare) (k : Key) : Bool :=
  k.extKeyParts.all (fun p => p.fieldIndex < t.fields && (t.field p.fieldIndex).wfPart p.length) &&
  !k.userDefinedKeyParts.isEmpty && (k.extKeyParts.map (·.fieldIndex)).Nodup &&
  k.extKeyParts.length ≤ maxRefParts &&
  (!k.nosame || k.extKeyParts == k.userDefinedKeyParts) &&
  (k.extKeyParts.take k.userDefinedKeyParts.length == k.userDefinedKeyParts &&
    (k.extKeyParts.drop k.userDefinedKeyParts.length).isSublist
      (t.missingPkParts k.userDefinedKeyParts))

theorem wfKey_iff {t : TableShare} {k : Key} : t.wfKey k = true ↔
    (((((∀ p ∈ k.extKeyParts, p.Wf t) ∧ k.userDefinedKeyParts ≠ []) ∧
      (k.extKeyParts.map (·.fieldIndex)).Nodup) ∧ k.extKeyParts.length ≤ maxRefParts) ∧
      (k.nosame = false ∨ k.extKeyParts = k.userDefinedKeyParts)) ∧
      (k.extKeyParts.take k.userDefinedKeyParts.length = k.userDefinedKeyParts ∧
        (k.extKeyParts.drop k.userDefinedKeyParts.length).Sublist
          (t.missingPkParts k.userDefinedKeyParts)) := by
  simp [wfKey, KeyPartInfo.Wf]

/-- The conditions of a `Table`, checked. -/
def wf (t : TableShare) : Bool :=
  t.keyInfo.all t.wfKey && t.primaryKey.all (fun pk =>
    pk < t.keyInfo.length && (t.key pk).nosame &&
      (t.key pk).extKeyParts.all fun p => !(t.field p.fieldIndex).maybeNull) &&
  (range t.keyInfo.length).all fun keyno =>
    (t.key keyno).userDefinedKeyParts.all fun p => p.cloned == t.clonesField keyno p

theorem wfKey_of_mem {t : TableShare} (h : t.wf = true) {k : Key} (hk : k ∈ t.keyInfo) :
    t.wfKey k = true :=
  all_eq_true.mp (Bool.and_eq_true_iff.mp (Bool.and_eq_true_iff.mp h).1).1 k hk

/-- A `TABLE_SHARE` that passes the check. -/
def toTable (t : TableShare) (h : t.wf = true) : Table where
  toTableShare := t
  part_wf _ hk := (wfKey_iff.mp (wfKey_of_mem h hk)).1.1.1.1.1
  parts_ne_nil _ hk := (wfKey_iff.mp (wfKey_of_mem h hk)).1.1.1.1.2
  parts_nodup _ hk := (wfKey_iff.mp (wfKey_of_mem h hk)).1.1.1.2
  parts_le _ hk := (wfKey_iff.mp (wfKey_of_mem h hk)).1.1.2
  ext_nosame _ hk hns :=
    (wfKey_iff.mp (wfKey_of_mem h hk)).1.2.resolve_left (by rw [hns]; exact Bool.noConfusion)
  ext_sublist k hk := by
    obtain ⟨htake, hsub⟩ := (wfKey_iff.mp (wfKey_of_mem h hk)).2
    refine ⟨k.extKeyParts.drop k.userDefinedKeyParts.length, ?_, hsub⟩
    conv_lhs => rw [← take_append_drop k.userDefinedKeyParts.length k.extKeyParts, htake]
  pk_wf pk hpk := by
    have := (Option.all_eq_true _ _).mp
      (Bool.and_eq_true_iff.mp (Bool.and_eq_true_iff.mp h).1).2 pk hpk
    simp only [Bool.and_eq_true, decide_eq_true_eq, all_eq_true, Bool.not_eq_true'] at this
    exact ⟨this.1.1, this.1.2, this.2⟩
  part_cloned keyno hlt p hp := by
    have := all_eq_true.mp (Bool.and_eq_true_iff.mp h).2 keyno (mem_range.mpr hlt)
    exact beq_iff_eq.mp (all_eq_true.mp this p hp)

end TableShare

/-- A record of a table with valid columns. -/
structure Row (t : TableShare) where
  record : Record
  valid : ∀ i < t.fields, (t.field i).validCell (record i) = true

/-- A column of a row is NULL or has a valid value. -/
theorem Row.null_or_valid {t : TableShare} (row : Row t) {i : ℕ} (hi : i < t.fields) :
    (t.field i).maybeNull = true ∧ (row.record i).isNull = true ∨
      (row.record i).isNull = false ∧ (t.field i).validValue (row.record i).bytes = true := by
  have hv := row.valid i hi
  cases hn : (row.record i).isNull <;> simp_all [Field.validCell]

end EloqSql
