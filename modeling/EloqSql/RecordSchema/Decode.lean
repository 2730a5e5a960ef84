import EloqSql.RecordSchema.Payload

/-!
# RecordSchema/Decode — a payload is written and read column by column

`Encode` and `Decode` walk over the columns with an index of their own into the schema; `loop_eq`
takes both to a loop over the columns of the payload. A payload is then the bitmap of the NULL
columns and the bytes of the others (`encode_eq`), and decoding it does `restore` for each column
(`decodeLoop_encode`).
-/

namespace EloqSql

open Memory List

/-! ## Records in memory -/

namespace RecordLayout

variable {t : TableShare} (l : RecordLayout t)

/-- A record in memory whose columns are valid. -/
structure RowBuffer where
  mem : ℕ → UInt8
  record : ℕ
  valid : ∀ i < t.fields, (t.field i).validCell (l.cell mem record i) = true := by
    decide +kernel

/-- Whether a column goes into the payload. -/
def inPayload (i : ℕ) : Bool := l.storedInDb i && !t.partOfPk i

/-- The columns of the payload. -/
def payload : List ℕ := (range t.fields).filter l.inPayload

theorem mem_payload {i : ℕ} :
    i ∈ l.payload ↔ i < t.fields ∧ l.storedInDb i = true ∧ t.partOfPk i = false := by
  simp [payload, inPayload]

end RecordLayout

namespace RecordLayout.RowBuffer

variable {t : TableShare} {l : RecordLayout t} (src : RowBuffer l)

/-- The row that the record holds. -/
def row : Row t := ⟨l.cell src.mem src.record, src.valid⟩

def isNull (i : ℕ) : Bool := l.isNull src.mem src.record i

def value (i : ℕ) : Bytes := (t.field i).value src.mem (l.ptr src.record i)

/-- What the payload has of a column. -/
def bytes (i : ℕ) : Bytes :=
  if src.isNull i then []
  else (EloqFieldType.convert (t.field i)).encodeField (t.field i) src.mem (l.ptr src.record i)

theorem validValue {i : ℕ} (hi : i < t.fields) (hn : src.isNull i = false) :
    (t.field i).validValue (src.value i) = true := by
  have := src.valid i hi
  rwa [Field.validCell, show (l.cell src.mem src.record i).isNull = false from hn] at this

end RecordLayout.RowBuffer

/-! ## The loop over the columns -/

namespace EloqRecordSchema

variable {t : TableShare} {l : RecordLayout t}

section Loop

variable {schema : EloqRecordSchema}

/-- What is left of the schema starts with the columns to come. -/
def Aligned (schema : EloqRecordSchema) (l : RecordLayout t) (fields : List ℕ) (fidx : ℕ) : Prop :=
  (fields.filter l.storedInDb).map (fun i => EloqFieldType.convert (t.field i))
      <+: schema.fieldTypes.drop fidx ∧
    (fields.filter l.storedInDb).map t.partOfPk <+: schema.isPartOfPk.drop fidx

variable {i fidx : ℕ} {fields : List ℕ}

theorem Aligned.of_virtual (h : Aligned schema l (i :: fields) fidx) (hs : l.storedInDb i = false) :
    Aligned schema l fields fidx := by
  simpa [Aligned, filter_cons, hs] using h

theorem getD_of_isPrefix {α : Type} {a d : α} {as xs : List α} {n : ℕ} (h : a :: as <+: xs.drop n) :
    xs.getD n d = a ∧ as <+: xs.drop (n + 1) := by
  obtain ⟨rest, hrest⟩ := h
  have hhead := congrArg head? hrest
  rw [head?_drop, cons_append, head?_cons] at hhead
  refine ⟨by rw [getD_eq_getElem?_getD, ← hhead]; rfl, rest, ?_⟩
  rw [← drop_drop, ← hrest, drop_one, cons_append, tail_cons]

theorem Aligned.of_stored (h : Aligned schema l (i :: fields) fidx) (hs : l.storedInDb i = true) :
    schema.fieldType fidx = .convert (t.field i) ∧
      schema.isPartOfPk.getD fidx false = t.partOfPk i ∧ Aligned schema l fields (fidx + 1) := by
  obtain ⟨ht, hp⟩ := h
  rw [filter_cons, if_pos hs, map_cons] at ht hp
  obtain ⟨ht, ht'⟩ := getD_of_isPrefix ht
  obtain ⟨hp, hp'⟩ := getD_of_isPrefix hp
  exact ⟨ht, hp, ht', hp'⟩

/-- **A loop over the columns is one over the columns of the payload.** Encoding and decoding both
are such loops: `step` is what they do for a column, with its number in the bitmap. -/
theorem loop_eq {σ : Type} (loop : List ℕ → ℕ → ℕ → σ → σ) (step : ℕ → ℕ → σ → σ)
    (hnil : ∀ fidx k s, loop [] fidx k s = s)
    (hvirtual : ∀ {i fields fidx k s}, l.storedInDb i = false →
      loop (i :: fields) fidx k s = loop fields fidx k s)
    (hpk : ∀ {i fields fidx k s}, l.storedInDb i = true →
      schema.isPartOfPk.getD fidx false = true →
      loop (i :: fields) fidx k s = loop fields (fidx + 1) k s)
    (hstep : ∀ {i fields fidx k s}, l.storedInDb i = true →
      schema.isPartOfPk.getD fidx false = false →
      schema.fieldType fidx = .convert (t.field i) →
      loop (i :: fields) fidx k s = loop fields (fidx + 1) (k + 1) (step i k s)) :
    ∀ {fields : List ℕ} {fidx k : ℕ} {s : σ}, Aligned schema l fields fidx →
      loop fields fidx k s
        = ((fields.filter l.inPayload).zipIdx k).foldl (fun s p => step p.1 p.2 s) s
  | [], _, _, _, _ => by rw [hnil]; rfl
  | i :: fields, fidx, k, s, h => by
      cases hs : l.storedInDb i with
      | false =>
        rw [hvirtual hs, loop_eq loop step hnil hvirtual hpk hstep (h.of_virtual hs),
          filter_cons, if_neg (by simp [RecordLayout.inPayload, hs])]
      | true =>
        obtain ⟨ht, hp, hrest⟩ := h.of_stored hs
        cases hpart : t.partOfPk i with
        | true =>
          rw [hpk hs (hp.trans hpart), loop_eq loop step hnil hvirtual hpk hstep hrest,
            filter_cons, if_neg (by simp [RecordLayout.inPayload, hpart])]
        | false =>
          rw [hstep hs (hp.trans hpart) ht, loop_eq loop step hnil hvirtual hpk hstep hrest,
            filter_cons, if_pos (by simp [RecordLayout.inPayload, hs, hpart]),
            zipIdx_cons, foldl_cons]

end Loop

theorem aligned_ofTable (l : RecordLayout t) {j : ℕ} (hj : j ≤ t.fields) :
    Aligned (ofTable l) l (range j) 0 := by
  have h : (range j).filter l.storedInDb <+: (range t.fields).filter l.storedInDb := by
    obtain ⟨d, hd⟩ := Nat.exists_eq_add_of_le hj
    rw [hd, range_add]
    exact (prefix_append _ _).filter _
  exact ⟨h.map _, h.map _⟩

/-! ## `Encode` -/

section Encode

variable (src : l.RowBuffer)

@[simp]
theorem length_mark (i k : ℕ) (bitmap : Bytes) :
    (if src.isNull i then Bitmap.set bitmap k else bitmap).length = bitmap.length := by
  split <;> simp

/-- The bitmap after the NULL columns among some are marked, the first of which has number `k`. -/
def markNulls : List ℕ → ℕ → Bytes → Bytes
  | [], _, bitmap => bitmap
  | i :: is, k, bitmap =>
    markNulls is (k + 1) (if src.isNull i then Bitmap.set bitmap k else bitmap)

@[simp]
theorem length_markNulls : ∀ (is : List ℕ) (k : ℕ) (bitmap : Bytes),
    (markNulls src is k bitmap).length = bitmap.length
  | [], _, _ => rfl
  | i :: is, k, bitmap => by
      rw [markNulls, length_markNulls is, length_mark]

theorem get_markNulls_of_lt : ∀ {is : List ℕ} {k n : ℕ} {bitmap : Bytes}, n < k →
    k + is.length ≤ 8 * bitmap.length →
    Bitmap.get (markNulls src is k bitmap) n = Bitmap.get bitmap n
  | [], _, _, _, _, _ => rfl
  | i :: is, k, n, bitmap, hn, hlen => by
      rw [length_cons] at hlen
      rw [markNulls, get_markNulls_of_lt (by omega) (by rw [length_mark]; omega)]
      split
      · rw [Bitmap.get_set (by omega), if_neg (by omega)]
      · rfl

/-- The bit of a column is set if the column is NULL. -/
theorem get_markNulls : ∀ {is : List ℕ} {k : ℕ} {bitmap : Bytes},
    k + is.length ≤ 8 * bitmap.length → (∀ n ≥ k, Bitmap.get bitmap n = false) →
    ∀ p ∈ is.zipIdx k, Bitmap.get (markNulls src is k bitmap) p.2 = src.isNull p.1
  | [], _, _, _, _, p, hp => by simp at hp
  | i :: is, k, bitmap, hlen, hzero, p, hp => by
      rw [length_cons] at hlen
      rw [zipIdx_cons, mem_cons] at hp
      rw [markNulls]
      have hlen' : k + 1 + is.length
          ≤ 8 * (if src.isNull i then Bitmap.set bitmap k else bitmap).length := by
        rw [length_mark]
        omega
      rcases hp with rfl | hp
      · rw [get_markNulls_of_lt src (Nat.lt_succ_self k) hlen']
        cases hn : src.isNull i with
        | true => rw [if_pos rfl, Bitmap.get_set (by omega), if_pos rfl]
        | false => exact hzero k le_rfl
      · refine get_markNulls hlen' (fun n hn => ?_) p hp
        split
        · rw [Bitmap.get_set (by omega), if_neg (by omega), hzero n (by omega)]
        · exact hzero n (by omega)

/-- What `Encode` does for a column of the payload. -/
def encodeStep (i k : ℕ) (buf : Bytes) : Bytes :=
  if src.isNull i then Bitmap.set buf k else buf ++ src.bytes i

theorem encodeStep_eq (i k : ℕ) (buf : Bytes) : encodeStep src i k buf
    = if l.isNull src.mem src.record i then Bitmap.set buf k
      else buf ++ (EloqFieldType.convert (t.field i)).encodeField (t.field i) src.mem
        (l.ptr src.record i) := by
  rw [encodeStep, RecordLayout.RowBuffer.bytes, RecordLayout.RowBuffer.isNull]
  split <;> rfl

theorem encodeStep_foldl : ∀ {is : List ℕ} {k : ℕ} (bitmap body : Bytes),
    k + is.length ≤ 8 * bitmap.length →
    (is.zipIdx k).foldl (fun buf p => encodeStep src p.1 p.2 buf) (bitmap ++ body)
      = markNulls src is k bitmap ++ (body ++ is.flatMap src.bytes)
  | [], _, _, _, _ => by simp [markNulls]
  | i :: is, k, bitmap, body, hlen => by
      rw [length_cons] at hlen
      rw [zipIdx_cons, foldl_cons, markNulls, flatMap_cons]
      cases hn : src.isNull i with
      | true =>
        have hb : src.bytes i = [] := by simp [RecordLayout.RowBuffer.bytes, hn]
        rw [encodeStep, if_pos hn, Bitmap.set_append (by omega), if_pos rfl, hb, nil_append,
          encodeStep_foldl _ _ (by simp; omega)]
      | false =>
        rw [encodeStep, if_neg (by simp [hn]), append_assoc, if_neg (by simp),
          encodeStep_foldl _ _ (by omega), append_assoc]

theorem nonPkColumnCount_ofTable (l : RecordLayout t) :
    (ofTable l).nonPkColumnCount = l.payload.length := by
  rw [nonPkColumnCount, ofTable, RecordLayout.payload, countP_map,
    countP_eq_length_filter, filter_filter]
  refine congrArg length (filter_congr fun i _ => ?_)
  simp [RecordLayout.inPayload, Bool.and_comm]

theorem length_payload_le (l : RecordLayout t) :
    l.payload.length ≤ 8 * (ofTable l).bitmapBytes := by
  rw [bitmapBytes, nonPkColumnCount_ofTable]
  split <;> omega

/-- The bitmap of a record. -/
def nullBitmap : Bytes :=
  markNulls src l.payload 0 (replicate (ofTable l).bitmapBytes 0)

/-- **The payload is the bitmap of the NULL columns and the columns that are not NULL.** -/
theorem encode_eq : (ofTable l).encode l src.mem src.record
    = nullBitmap src ++ l.payload.flatMap src.bytes := by
  have hloop := loop_eq (l := l)
    ((ofTable l).encodeLoop l src.mem src.record) (encodeStep src)
    (fun _ _ _ => rfl)
    (fun hs => by rw [encodeLoop, if_pos hs])
    (fun hs hp => by rw [encodeLoop, if_neg (by simp [hs]), if_pos hp])
    (fun hs hp ht => by
      rw [encodeLoop, if_neg (by simp [hs]), hp, if_neg (by simp), ht, encodeStep_eq])
    (k := 0) (s := replicate (ofTable l).bitmapBytes 0) (aligned_ofTable l le_rfl)
  have h := encodeStep_foldl src (k := 0) (replicate (ofTable l).bitmapBytes 0) []
    (by simpa using length_payload_le l)
  rw [append_nil, nil_append] at h
  exact hloop.trans h

end Encode

/-! ## `Decode` -/

section Decode

variable (src : l.RowBuffer) (decodeSet : ℕ → Bool) (record data : ℕ)

/-- The value of the column is written into the record. -/
def written (i : ℕ) : Bool := decodeSet i && !src.isNull i

/-- What becomes of the memory for a column that is at `off` in the payload. -/
def restore (i off : ℕ) (m : ℕ → UInt8) : ℕ → UInt8 :=
  let m := l.setNull m record i (src.isNull i)
  if written src decodeSet i then
    store m (l.ptr record i)
      ((t.field i).image (l.storeReal i) src.mem (l.ptr src.record i) (data + off))
  else m

/-- What becomes of the memory for some columns, the first of which is at `off` in the payload. -/
def restoreAll : List ℕ → ℕ → (ℕ → UInt8) → ℕ → UInt8
  | [], _, m => m
  | i :: is, off, m =>
    restoreAll is (off + (src.bytes i).length) (restore src decodeSet record data i off m)

/-- What `Decode` does for a column of the payload. -/
def decodeStep (buf : Bytes) (i k : ℕ) (s : (ℕ → UInt8) × ℕ) : (ℕ → UInt8) × ℕ :=
  if Bitmap.get buf k then (l.setNull s.1 record i true, s.2)
  else
    (EloqFieldType.convert (t.field i)).decodeField (t.field i) (l.setNull s.1 record i false)
      (l.ptr record i) (l.storeReal i) (decodeSet i) data buf s.2

theorem decodeStep_eq {i k : ℕ} (hi : i < t.fields) {pre post : Bytes} (m : ℕ → UInt8)
    (hk : Bitmap.get (pre ++ src.bytes i ++ post) k = src.isNull i) :
    decodeStep (l := l) decodeSet record data (pre ++ src.bytes i ++ post) i k (m, pre.length)
      = (restore src decodeSet record data i pre.length m,
          pre.length + (src.bytes i).length) := by
  cases hn : src.isNull i with
  | true =>
    have hb : src.bytes i = [] := by simp [RecordLayout.RowBuffer.bytes, hn]
    rw [decodeStep, hk, if_pos hn, restore, written, hn, hb]
    simp
  | false =>
    have hb : src.bytes i = (EloqFieldType.convert (t.field i)).encodeField (t.field i) src.mem
        (l.ptr src.record i) := by
      simp [RecordLayout.RowBuffer.bytes, hn]
    rw [decodeStep, hk, if_neg (by simp [hn]), hb, decodeField_encodeField (l.column_wf i hi)
      (src.validValue hi hn), restore, written, hn]
    simp

/-- **`Decode` follows the payload column by column**: what it does to the record, and where it is
in the payload. -/
theorem decodeStep_foldl (buf : Bytes) : ∀ (is : List ℕ) {k : ℕ} {pre post : Bytes}
    {m : ℕ → UInt8}, (∀ i ∈ is, i < t.fields) →
    (∀ p ∈ is.zipIdx k, Bitmap.get buf p.2 = src.isNull p.1) →
    buf = pre ++ is.flatMap src.bytes ++ post →
    (is.zipIdx k).foldl (fun s p => decodeStep (l := l) decodeSet record data buf p.1 p.2 s)
        (m, pre.length)
      = (restoreAll src decodeSet record data is pre.length m,
          pre.length + (is.flatMap src.bytes).length)
  | [], _, _, _, _, _, _, _ => by simp [restoreAll]
  | i :: is, k, pre, post, m, hlt, hget, hbuf => by
      rw [zipIdx_cons] at hget
      rw [flatMap_cons, ← append_assoc] at hbuf
      have hhead : buf = pre ++ src.bytes i ++ (is.flatMap src.bytes ++ post) := by
        rw [hbuf, append_assoc (pre ++ src.bytes i)]
      have hstep := decodeStep_eq src decodeSet record data (k := k)
        (hlt i mem_cons_self) m
        (by rw [← hhead]; exact hget (i, k) mem_cons_self)
      rw [← hhead, ← length_append] at hstep
      rw [zipIdx_cons, foldl_cons, hstep,
        decodeStep_foldl buf is
          (fun j hj => hlt j (mem_cons_of_mem _ hj))
          (fun p hp => hget p (mem_cons_of_mem _ hp)) hbuf, restoreAll, flatMap_cons]
      simp [Nat.add_assoc]

end Decode

/-- **`Decode` of what `Encode` made**, over the first columns of the table. -/
theorem decodeLoop_encode (src : l.RowBuffer) (decodeSet : ℕ → Bool) (record data : ℕ)
    (m : ℕ → UInt8) {j : ℕ} (hj : j ≤ t.fields) :
    (ofTable l).decodeLoop l decodeSet record data ((ofTable l).encode l src.mem src.record)
        (range j) 0 0 (m, (ofTable l).bitmapBytes)
      = (restoreAll src decodeSet record data ((range j).filter l.inPayload)
            (ofTable l).bitmapBytes m,
          (ofTable l).bitmapBytes
            + (((range j).filter l.inPayload).flatMap src.bytes).length) := by
  have hloop := loop_eq (l := l)
    ((ofTable l).decodeLoop l decodeSet record data ((ofTable l).encode l src.mem src.record))
    (decodeStep (l := l) decodeSet record data ((ofTable l).encode l src.mem src.record))
    (fun _ _ _ => rfl)
    (fun hs => by rw [decodeLoop, if_pos hs])
    (fun hs hp => by rw [decodeLoop, if_neg (by simp [hs]), if_pos hp])
    (fun hs hp ht => by
      rw [decodeLoop, if_neg (by simp [hs]), hp, if_neg (by simp), ht, decodeStep])
    (k := 0) (s := (m, (ofTable l).bitmapBytes)) (aligned_ofTable l hj)
  obtain ⟨rest, hrest⟩ : (range j).filter l.inPayload <+: l.payload := by
    obtain ⟨d, hd⟩ := Nat.exists_eq_add_of_le hj
    rw [RecordLayout.payload, hd, range_add]
    exact (prefix_append _ _).filter _
  have hbits : (nullBitmap src).length = (ofTable l).bitmapBytes := by simp [nullBitmap]
  have hfold := decodeStep_foldl src decodeSet record data
    ((ofTable l).encode l src.mem src.record) ((range j).filter l.inPayload) (k := 0) (m := m)
    (fun i hi => by
      have := mem_range.mp (mem_of_mem_filter hi)
      omega)
    (fun p hp => by
      have hmem : p ∈ l.payload.zipIdx := by
        rw [← hrest, zipIdx_append]
        exact mem_append_left _ hp
      have hlt := snd_lt_of_mem_zipIdx hmem
      have hle := length_payload_le l
      rw [encode_eq, Bitmap.get_append (by rw [hbits]; omega)]
      exact get_markNulls src (by simpa using hle)
        (fun n _ => Bitmap.get_replicate_zero _ n) p hmem)
    (by rw [encode_eq, append_assoc, ← flatMap_append, hrest])
  rw [hbits] at hfold
  exact hloop.trans hfold

end EloqRecordSchema

end EloqSql
