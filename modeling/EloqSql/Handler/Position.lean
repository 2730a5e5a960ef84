import EloqSql.Handler.Consistency
import EloqSql.Handler.Scan
import EloqSql.RecordSchema.KeyRecord

/-!
# Handler/Position — row positions

A row position is the packed primary key of the row, filled up with zeros to `ref_length`. To look
the row up again the padding is taken off by `key_length`, which passes over the parts of the key
one by one: the image of a part says where it ends, whatever follows (`skip_pack`), so that the
zeros are never taken for a part of the key.
-/

namespace EloqSql

open FieldPacking List

/-! ## `mono_key_def::key_length` -/

/-- `m_skip_func` of a part; the hidden primary key has no column. -/
def skipKeyPart (t : TableShare) (fpi : FieldPacking) (reader : Bytes) : Option Bytes :=
  match fpi.fieldIdx with
  | none => (StringReader.read fpi.maxImageLen reader).map Prod.snd
  | some i => fpi.skip (partField (t.field i) fpi.keyPartLength) reader

/-- The loop of `key_length`: what is left of the reader. -/
def skipKeyParts (t : TableShare) : List FieldPacking → Bytes → Option Bytes
  | [], reader => some reader
  | fpi :: parts, reader => (skipKeyPart t fpi reader).bind (skipKeyParts t parts)

/-- **`mono_key_def::key_length`**; nothing stands for `size_t(-1)`. -/
def KeyDef.keyLength (t : TableShare) (kd : KeyDef) (key : Bytes) : Option ℕ :=
  (skipKeyParts t kd.packInfo key).map fun reader => key.length - reader.length

namespace Handler

variable (h : Handler)

/-! ## The calls of the handler -/

/-- `ref_length`: `max_storage_fmt_length` of the primary key. -/
def refLength : ℕ := h.pkDescr.maxlength

/-- **`ha_eloq::position`**: what it leaves in `ref`. -/
def position (isMrrSortRowid : Bool) (lastReadKey : Bytes) (record : Record) : Bytes :=
  let packed :=
    if h.table.tableHasHiddenPk = false ∧ isMrrSortRowid = false then (h.packPk record).tuple
    else lastReadKey
  packed ++ replicate (h.refLength - packed.length) 0

/-- The key that `rnd_pos` and `batch_load_records` look up. -/
def posKey (pos : Bytes) : Option Bytes :=
  (h.pkDescr.keyLength h.table.toTableShare (pos.take h.refLength)).map pos.take

/-! ## The round trip -/

variable {h}

/-- **A part of the primary key is passed over**, whatever follows. -/
theorem skipKeyPart_partImage {p : KeyPartInfo} (hp : p ∈ h.table.pkParts)
    (row : h.TableRow) (rest : Bytes) :
    skipKeyPart h.table (KeyDef.packPart h.table p)
      (partImage h.table row.record p ++ rest) = some rest := by
  obtain ⟨hidx, hlen⟩ := setup_eq p.fieldIndex
    (keyField p.cloned (h.table.field p.fieldIndex) p.length) p.length
  have hskip := skip_pack p.fieldIndex p.cloned (h.table.wf_of_mem_pkParts hp).2
    (Table.Secondary.validValue_of_mem_pkParts hp row) rest
  unfold skipKeyPart partImage
  simp only [KeyDef.packPart, hidx, hlen, Table.maybeNull_of_mem_pkParts hp, Bool.false_eq_true,
    if_false]
  exact hskip

/-- The loop passes over all parts, by induction on them. -/
theorem skipKeyParts_partImages (row : h.TableRow) (rest : Bytes) :
    ∀ {ps : List KeyPartInfo}, (∀ p ∈ ps, p ∈ h.table.pkParts) →
      skipKeyParts h.table (ps.map (KeyDef.packPart h.table))
        (ps.flatMap (partImage h.table row.record) ++ rest) = some rest
  | [], _ => rfl
  | p :: ps, hps => by
      rw [map_cons, flatMap_cons, append_assoc, skipKeyParts,
        skipKeyPart_partImage (hps p mem_cons_self)]
      exact skipKeyParts_partImages row rest fun q hq => hps q (mem_cons_of_mem p hq)

variable (h) in
/-- The packed primary key of a row; `uuid` is that of a row without a primary key. -/
def rowPk (row : h.TableRow) (uuid : HiddenPk) : Bytes :=
  (h.packKeyRecord row.record uuid.1).1

theorem rowPk_eq (hh : h.table.tableHasHiddenPk = false) (row : h.TableRow) (uuid : HiddenPk) :
    h.rowPk row uuid = (h.packPk row.record).tuple := by
  rw [rowPk, packKeyRecord, if_neg (by simp [hh])]

theorem rowPk_hidden (hh : h.table.tableHasHiddenPk = true) (row : h.TableRow) (uuid : HiddenPk) :
    h.rowPk row uuid = uuid.1 := by
  rw [rowPk, packKeyRecord, if_pos hh]

theorem pkDescr_packInfo_hidden (hh : h.table.tableHasHiddenPk = true) :
    h.pkDescr.packInfo = [setupHidden] := by
  have hnone : h.table.primaryKey = none := Option.isNone_iff_eq_none.1 hh
  rw [pkDescr, hnone]
  rfl

/-- **`key_length` finds the end of the key.** -/
theorem skipKeyParts_rowPk (row : h.TableRow) (uuid : HiddenPk) (rest : Bytes) :
    skipKeyParts h.table h.pkDescr.packInfo (h.rowPk row uuid ++ rest) =
      some rest := by
  cases hh : h.table.tableHasHiddenPk with
  | false =>
    rw [h.pkDescr_packInfo hh, rowPk_eq hh, h.packPk_tuple hh]
    exact skipKeyParts_partImages row rest fun _ hp => hp
  | true =>
    have hread : StringReader.read myUuidSize (uuid.1 ++ rest) = some (uuid.1, rest) :=
      StringReader.read_append uuid.2 rest
    rw [pkDescr_packInfo_hidden hh, rowPk_hidden hh, skipKeyParts, skipKeyPart]
    simp only [setupHidden, hread]
    rfl

/-- The key fits into `ref`. -/
theorem length_rowPk_le (row : h.TableRow) (uuid : HiddenPk) :
    (h.rowPk row uuid).length ≤ h.refLength := by
  unfold refLength KeyDef.maxlength
  cases hh : h.table.tableHasHiddenPk with
  | false =>
    rw [h.pkDescr_packInfo hh, rowPk_eq hh, h.packPk_tuple hh, map_map]
    exact Table.length_flatMap_partImage_le _ (fun p hp => h.table.wf_of_mem_pkParts hp) row
  | true =>
    rw [pkDescr_packInfo_hidden hh, rowPk_hidden hh, uuid.2]
    exact le_rfl

/-- `position` leaves the key in `ref`, with zeros behind it. -/
theorem position_eq (isMrrSortRowid : Bool) (row : h.TableRow) (uuid : HiddenPk) :
    h.position isMrrSortRowid (h.rowPk row uuid) row.record =
      h.rowPk row uuid ++ replicate (h.refLength - (h.rowPk row uuid).length) 0 := by
  unfold position
  dsimp only
  split_ifs with hpack
  · rw [rowPk_eq hpack.1]
  · rfl

variable (h) in
/-- **A row position leads back to the row.** Of the bytes in `ref`, `key_length` takes the packed
primary key and nothing else, whatever the key contains; `lastReadKey` is the key of the row. -/
theorem posKey_position (isMrrSortRowid : Bool) (row : h.TableRow) (uuid : HiddenPk) :
    (h.position isMrrSortRowid (h.rowPk row uuid) row.record).length = h.refLength ∧
      h.pkDescr.keyLength h.table
          (h.position isMrrSortRowid (h.rowPk row uuid) row.record) =
        some (h.rowPk row uuid).length ∧
      h.posKey (h.position isMrrSortRowid (h.rowPk row uuid) row.record) =
        some (h.rowPk row uuid) := by
  have hle := length_rowPk_le row uuid
  have hlen : (h.position isMrrSortRowid (h.rowPk row uuid) row.record).length = h.refLength := by
    rw [position_eq, length_append, length_replicate]
    omega
  have hkey : h.pkDescr.keyLength h.table
      (h.position isMrrSortRowid (h.rowPk row uuid) row.record) =
        some (h.rowPk row uuid).length := by
    rw [position_eq, KeyDef.keyLength, skipKeyParts_rowPk]
    simp
  refine ⟨hlen, hkey, ?_⟩
  rw [posKey, take_of_length_le hlen.le, hkey, position_eq]
  simp

end Handler

end EloqSql
