import EloqSql.FileName
import EloqSql.Lib.Pattern

/-!
# CatalogName — the catalog keys of a table

A table has one entry in the catalog, under its path. `create` gets the path from the SQL layer, as
`delete_table` and `eloq_discover_table` do; each caller builds it with `build_table_filename`, in a
buffer of its own. `inplace_alter_table` puts the key together from the names themselves. The first
three agree for every table that was created; the fourth agrees when both names are their own file
names (`catalogKey_iff`).
-/

namespace EloqSql

open List

namespace NameEnv

/-! ## The keys -/

/-- **A table that could be created**: `create_table_impl` refuses a path that does not leave room
for the extension. -/
structure CreatedTable (E : NameEnv) where
  db : Identifier
  table : Identifier
  fits : (E.buildTableFilename fnReflen db.name table.name []).length + regExt.length ≤ fnReflen

variable {E : NameEnv} (t : E.CreatedTable)

namespace CreatedTable

/-- The key `ha_eloq::create` stores the table under: the path `create_table_impl` passes. -/
def createKey : Bytes := E.buildTableFilename fnReflen t.db.name t.table.name []

/-- The key `ha_eloq::delete_table` looks for: `mysql_rm_table_no_locks` builds the path with the
extension and cuts that off. -/
def deleteTableKey : Bytes :=
  let path := E.buildTableFilename fnReflen t.db.name t.table.name regExt
  path.take (path.length - regExt.length)

/-- The key `eloq_discover_table` looks for: the path of the share, which `alloc_table_share`
builds in a buffer one byte shorter. -/
def discoverTableKey : Bytes := E.buildTableFilename (fnReflen - 1) t.db.name t.table.name []

/-- The key `ha_eloq::inplace_alter_table` reads and updates. -/
def inplaceAlterTableKey : Bytes :=
  ascii "./" ++ t.db.name ++ ascii "/" ++ t.table.name

/-! ## Paths that fit -/

/-- The file name of the database. -/
def dbFile : Bytes := tablenameToFilename E.letters t.db.name fnReflen

/-- The file name of the table. -/
def tableFile : Bytes :=
  if E.keepsTmpName t.dbFile t.table.name then t.table.name.take (fnReflen - 1)
  else tablenameToFilename E.letters t.table.name fnReflen

/-- The path in a buffer that holds the directory. -/
theorem buildTableFilename_eq {bufflen : ℕ} (ext : Bytes) (hb : 510 ≤ bufflen) :
    E.buildTableFilename bufflen t.db.name t.table.name ext =
      ascii "./" ++ t.dbFile ++ [fnLibchar] ++
        (t.tableFile ++ ext).take (bufflen - (3 + t.dbFile.length)) := by
  have hdb := (t.db.tablenameToFilename_spec E.letters).2
  have hhome : mysqlDataHome.take (bufflen - 3) = mysqlDataHome :=
    take_of_length_le (by simp only [mysqlDataHome, ascii]; simp; omega)
  have htake : t.dbFile.take (bufflen - 2 - 2) = t.dbFile :=
    take_of_length_le (by simp only [dbFile]; omega)
  have hlast : ¬ mysqlDataHome.getLast? = some fnLibchar := by decide
  have hpath : mysqlDataHome ++ [fnLibchar] = ascii "./" := by decide
  have hlen : (ascii "./").length = 2 := by decide
  have hdir : (ascii "./" ++ t.dbFile ++ [fnLibchar]).length = 3 + t.dbFile.length := by
    rw [length_append, length_append, hlen, length_singleton]
    omega
  rw [← hdir, tableFile]
  simp only [NameEnv.buildTableFilename, hhome, if_neg hlast, hpath, hlen]
  rw [show tablenameToFilename E.letters t.db.name fnReflen = t.dbFile from rfl, htake]

/-- **The path of a created table** is not cut. -/
theorem createKey_eq : t.createKey = ascii "./" ++ t.dbFile ++ [fnLibchar] ++ t.tableFile := by
  have hfits := t.fits
  have hext : regExt.length = 4 := by decide
  have hpre : (ascii "./").length = 2 := by decide
  rw [t.buildTableFilename_eq [] (by decide), append_nil, hext] at hfits
  simp only [length_append, hpre, length_singleton, length_take, fnReflen] at hfits
  rw [createKey, t.buildTableFilename_eq [] (by decide), append_nil,
    take_of_length_le (by simp only [fnReflen]; omega)]

theorem length_tableFile_le : 3 + t.dbFile.length + t.tableFile.length ≤ 508 := by
  have hfits := t.fits
  have hext : regExt.length = 4 := by decide
  have hpre : (ascii "./").length = 2 := by decide
  change t.createKey.length + _ ≤ _ at hfits
  rw [t.createKey_eq, hext] at hfits
  simp only [length_append, hpre, length_singleton, fnReflen] at hfits
  omega

theorem deleteTableKey_eq : t.deleteTableKey = t.createKey := by
  have hle := t.length_tableFile_le
  have hext : regExt.length = 4 := by decide
  have hfull : E.buildTableFilename fnReflen t.db.name t.table.name regExt =
      t.createKey ++ regExt := by
    rw [t.buildTableFilename_eq regExt (by decide), t.createKey_eq,
      take_of_length_le (by rw [length_append, hext]; simp only [fnReflen]; omega)]
    simp
  rw [deleteTableKey, hfull, length_append, Nat.add_sub_cancel, take_left]

theorem discoverTableKey_eq : t.discoverTableKey = t.createKey := by
  have hle := t.length_tableFile_le
  rw [discoverTableKey, t.buildTableFilename_eq [] (by decide), t.createKey_eq, append_nil,
    take_of_length_le (by simp only [fnReflen]; omega)]

/-! ## One key for a table -/

theorem tableFile_eq_self_iff :
    t.tableFile = t.table.name ↔
      PlainName t.table.name ∨ E.keepsTmpName t.dbFile t.table.name = true := by
  rw [tableFile]
  split_ifs with hk
  · -- the name is shorter than the buffer
    have hlen : t.table.name.length < nameCharLen := by
      simp only [keepsTmpName, Bool.and_eq_true, decide_eq_true_eq] at hk
      exact hk.1.2
    refine iff_of_true (take_of_length_le ?_) (Or.inr hk)
    simp only [nameCharLen, fnReflen] at hlen ⊢
    omega
  · rw [t.table.tablenameToFilename_eq_self_iff E.letters]
    simp [hk]

/-- The path is the key made of the names exactly when both file names are the names. -/
theorem inplaceAlterTableKey_eq_iff :
    t.inplaceAlterTableKey = t.createKey ↔ t.dbFile = t.db.name ∧ t.tableFile = t.table.name := by
  have hsep : ascii "/" = [fnLibchar] := by decide
  rw [t.createKey_eq, inplaceAlterTableKey, hsep]
  refine ⟨fun h => ?_, fun h => by rw [h.1, h.2]⟩
  rw [append_assoc, append_assoc, append_assoc, append_assoc,
    append_cancel_left_eq, singleton_append, singleton_append] at h
  have hdb : fnLibchar ∉ t.dbFile := (t.db.tablenameToFilename_spec E.letters).1
  by_cases hmem : fnLibchar ∈ t.db.name
  · -- the file name of such a database is longer than what stands before the separator
    exfalso
    have hle := t.db.length_le_of_libchar E.letters hmem
    obtain ⟨u, v, hname, hu⟩ := eq_append_cons_of_mem hmem
    rw [hname, append_assoc, cons_append] at h
    obtain ⟨rfl, -⟩ := Pattern.split_first hu hdb h
    have := congrArg length hname
    rw [length_append, length_cons] at this
    simp only [dbFile] at this
    omega
  · obtain ⟨h1, h2⟩ := Pattern.split_first hmem hdb h
    exact ⟨h1.symm, h2.symm⟩

/-- **One catalog key for a table**: `create`, `delete_table` and the discovery use the encoded
path, and the in-place alter agrees exactly when the file name conversion leaves the database name
as it is, and the table name too unless an existing temporary file name is kept. -/
theorem catalogKey_iff :
    (t.inplaceAlterTableKey = t.createKey ∧ t.deleteTableKey = t.createKey ∧
      t.discoverTableKey = t.createKey) ↔
    PlainName t.db.name ∧
      (PlainName t.table.name ∨ E.keepsTmpName t.dbFile t.table.name = true) := by
  rw [t.inplaceAlterTableKey_eq_iff, t.tableFile_eq_self_iff]
  simp only [t.deleteTableKey_eq, t.discoverTableKey_eq, and_true]
  rw [dbFile, t.db.tablenameToFilename_eq_self_iff E.letters]

/-- A server whose names are all ASCII and whose data directory holds no definition file. -/
def sampleEnv : NameEnv where
  letters := ⟨fun _ => 0, fun _ => by decide⟩
  frmExists _ _ := false

/-- The table `my-table` of the database `test`. -/
def sampleTable : sampleEnv.CreatedTable where
  db := ⟨ascii "test", by decide +kernel⟩
  table := ⟨ascii "my-table", by decide +kernel⟩
  fits := by decide +kernel

/-- **A dash in a table name is enough**: the table is stored under the escaped path and altered
under the name as it is. -/
theorem inplaceAlterTableKey_my_table :
    sampleTable.createKey = ascii "./test/my@002dtable" ∧
      sampleTable.inplaceAlterTableKey = ascii "./test/my-table" ∧
      sampleTable.inplaceAlterTableKey ≠ sampleTable.createKey := by
  decide +kernel

end CreatedTable

end NameEnv

end EloqSql
