import EloqSql.Handler.Consistency
import EloqSql.KeyDef.PrimaryKey

/-!
# Handler/Read — the primary key of an index entry

A scan of a secondary index reads entries, and finds the row through the primary key that
`get_primary_key_tuple` makes of the key — for a unique index, of the key and the record behind it,
as `DecodeUniqueSkRecord` does. It is the key that `PackKeyRecord` stored the row under exactly if
no prefix of a `CHAR` column is declared in both keys (`getPrimaryKeyTuple_entry_iff`).
-/

namespace EloqSql

namespace Handler

variable (h : Handler)

/-- **The primary key of an index entry is the key of the row exactly if no part of the primary key
is a prefix of a `CHAR` or `BINARY` column that the index declares with the same length.** -/
theorem getPrimaryKeyTuple_entry_iff (x : Table.Secondary h.table) (row : h.TableRow)
    (uuid : HiddenPk) (uninit : ℕ → Bytes) :
    let t := h.table.toTableShare
    let ix := h.index x.keyno
    let key := (h.packKeyRecord row.record uuid.1).1
    let entry := h.skEntry ix key row
    (getPrimaryKeyTuple t ix.keyDef uninit (h.packSk ix row.record (h.table.hiddenPk key)).tuple
          = some key ∧
        (x.key.nosame = true →
          getPrimaryKeyTuple t ix.keyDef uninit (entry.1 ++ entry.2) = some key)) ↔
      ∀ q ∈ t.pkParts, (t.field q.fieldIndex).realType = .string →
        q.length ≠ (t.field q.fieldIndex).fieldLength →
          ∀ p ∈ x.key.userDefinedKeyParts, q.sameAs p = false := by
  intro t ix key entry
  have hentry : entry.1 ++ entry.2 = (h.packSk ix row.record (h.table.hiddenPk key)).tuple :=
    h.skEntry_append ix key row
  have htuple : (h.packSk ix row.record (h.table.hiddenPk key)).tuple = _ :=
    (Table.Index.secondary x).packRecord_tuple row.record (h.unset x.keyno) key (Or.inl rfl)
  rw [hentry, and_iff_left_of_imp fun hk _ => hk, htuple]
  cases hh : h.table.tableHasHiddenPk with
  | true =>
    have hkey : key = uuid.1 := congrArg Prod.fst (if_pos hh)
    have hparts : t.pkParts = [] := by
      rw [TableShare.tableHasHiddenPk, Option.isNone_iff_eq_none] at hh
      rw [TableShare.pkParts, hh]
    rw [hkey, Table.hiddenPk, if_pos hh, Option.getD_some, hparts]
    refine iff_of_true (x.getPrimaryKeyTuple_hidden hh (h.unset x.keyno) row uuid uninit) ?_
    exact fun q hq => absurd hq List.not_mem_nil
  | false =>
    have hkey : key = t.pkParts.flatMap (partImage t row.record) :=
      (congrArg Prod.fst (if_neg (by simp [hh]))).trans (h.packPk_tuple hh row.record)
    have hnone : h.table.hiddenPk key = none := if_neg (by simp [hh])
    rw [hnone, Option.getD_none, List.append_nil]
    have hget := x.getPrimaryKeyTuple_eq hh (h.unset x.keyno) row uninit
    rw [show getPrimaryKeyTuple t ix.keyDef uninit _ = _ from hget, hkey, Option.some.injEq,
      x.flatMap_source_eq_iff row]
    refine forall₂_congr fun q hq => ?_
    rw [Table.Secondary.CharPrefix, and_imp, Table.Secondary.mem_missing_iff x hq]

/-! ### A table with a prefix in both keys -/

/-- `CREATE TABLE t (c CHAR(4), PRIMARY KEY (c(2)), KEY (c(2)), KEY (c(3)))`, where `c` is in
`latin1_bin`. -/
def charPrefixSample : Handler where
  table := TableShare.toTable
    { fields := 1
      field := fun _ => ⟨.string, false, 4, false, .latin1Bin⟩
      keyInfo := [⟨true, [⟨0, 2, false⟩], [⟨0, 2, false⟩]⟩, ⟨false, [⟨0, 2, true⟩], [⟨0, 2, true⟩]⟩,
        ⟨false, [⟨0, 3, true⟩], [⟨0, 3, true⟩]⟩]
      primaryKey := some 0 } (by decide)
  unset := fun _ => 0
  encode := fun r => (r 0).bytes
  dirty := []
  isInsertSemantic := true
  nextNumberIndex := 0

/-- The row `('abcd')`. -/
def charPrefixRow : charPrefixSample.TableRow := ⟨fun _ => ⟨false, [97, 98, 99, 100]⟩, by decide⟩

/-- `KEY (c(2))` gives back the two characters without the spaces that the primary key has. -/
theorem getPrimaryKeyTuple_charPrefix :
    let x : Table.Secondary charPrefixSample.table := ⟨1, by decide, by decide⟩
    let ix := charPrefixSample.index x.keyno
    let key := (charPrefixSample.packKeyRecord charPrefixRow.record []).1
    key = [97, 98, 32, 32] ∧
      getPrimaryKeyTuple charPrefixSample.table.toTableShare ix.keyDef (fun _ => [])
        (charPrefixSample.packSk ix charPrefixRow.record none).tuple = some [97, 98] := by
  decide +kernel

end Handler

end EloqSql
