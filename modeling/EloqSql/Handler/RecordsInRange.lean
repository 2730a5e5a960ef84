import EloqSql.Handler.Scan
import EloqSql.Lib.Odometer

/-!
# Handler/RecordsInRange — the keys of a range estimate

`records_in_range` asks the statistics for the rows between two packed keys. A bound on leading
parts is packed and, if the range is cut behind the rows with these parts, replaced by its
`successor`; the upper key is then filled up with `0xFF` to the length of the lower one.

The successor is the next byte string (`successor_eq`), which steps over exactly the keys with the
given parts (`Bound.steady`). It wraps around to zeros if all bytes are `0xFF`. A lower end that
wraps has nothing above it; an upper end that wraps has every row below it but gets the key of zeros
(`recordsInRange_encloses_iff`).
-/

namespace EloqSql

open MemCompare FieldPacking List

/-! ## The successor -/

/-- The loop of `mono_key_def::successor`, over the last byte first: the bytes, and how many of them
were changed. -/
def successorLoop : Bytes → Bytes × ℕ
  | [] => ([], 0)
  | b :: p =>
    if b ≠ 0xFF then ((b + 1) :: p, 1)
    else
      let (p, changed) := successorLoop p
      (0 :: p, changed + 1)

/-- `mono_key_def::successor`. -/
def successor (packedTuple : Bytes) : Bytes × ℕ :=
  let (p, changed) := successorLoop packedTuple.reverse
  (p.reverse, changed)

/-- Bytes as the symbols of an odometer. -/
def byteWheel : Wheel UInt8 where
  bot := 0
  top := 0xFF
  next b := b + 1
  bot_le := Collation.compare_zero_ne_gt
  le_top := Collation.compare_top_ne_gt
  lt_next b hb := by
    rw [Std.compare_eq_lt]
    grind
  next_le b c h := by
    rw [ne_eq, Std.compare_eq_gt]
    rw [Std.compare_eq_lt] at h
    grind

theorem successorLoop_fst : ∀ p : Bytes, (successorLoop p).1 = byteWheel.incrLow p
  | [] => rfl
  | b :: p => by
      have ih := successorLoop_fst p
      have htop : byteWheel.top = 0xFF := rfl
      rw [successorLoop, Wheel.incrLow, htop]
      split
      · rfl
      · rw [← ih]
        rfl

/-- **The successor is the next byte string.** -/
theorem successor_eq (s : Bytes) : (successor s).1 = byteWheel.incr s := by
  rw [Wheel.incr, ← successorLoop_fst]
  rfl

/-! ## `records_in_range` -/

/-- `SuccessorForKeyRange`. -/
def successorForKeyRange (flag : RKeyFunction) : Bool :=
  flag == .prefixLastOrPrev || flag == .prefixLast || flag == .afterKey

/-- `EloqKey::PackedNegativeInfinity`. -/
def packedNegativeInfinity : Bytes := [0]

namespace ActiveIndex

variable (a : ActiveIndex)

/-- `EloqKey::PackedPositiveInfinity`. -/
def packedPositiveInfinity (pkDescr : KeyDef) : Bytes :=
  let maxLength :=
    if a.isPrimary then a.keyDef.maxlength else a.keyDef.maxlength + pkDescr.maxlength
  replicate maxLength 0xFF

theorem le_packedPositiveInfinity (pkDescr : KeyDef) {s : Bytes}
    (h : s.length ≤ a.keyDef.maxlength) : compare s (a.packedPositiveInfinity pkDescr) ≠ .gt := by
  refine compare_replicate_ne_gt byteWheel.le_top (h.trans ?_)
  split
  · exact le_rfl
  · exact Nat.le_add_right _ _

/-- The packed key of an end of a range, or its successor, and what is left in the record buffer. -/
def packRangeKey (recordBuffer : Record) (range : KeyRange) : Bytes × Record :=
  let (key, recordBuffer) := a.encodeScanKey recordBuffer range.key range.keypartMap
  (if successorForKeyRange range.flag then (successor key).1 else key, recordBuffer)

/-- `MonoMinKeyFromKeyRange`, and what it leaves in the record buffer. -/
def monoMinKeyFromKeyRange (recordBuffer : Record) (minKey : Option KeyRange) : Bytes × Record :=
  match minKey with
  | some range =>
    if range.key.length > 0 then a.packRangeKey recordBuffer range
    else (packedNegativeInfinity, recordBuffer)
  | none => (packedNegativeInfinity, recordBuffer)

/-- `MonoMaxKeyFromKeyRange`. -/
def monoMaxKeyFromKeyRange (pkDescr : KeyDef) (recordBuffer : Record) (maxKey : Option KeyRange)
    (minKeySize : ℕ) : Bytes :=
  match maxKey with
  | some range =>
    if range.key.length > 0 then
      let key := (a.packRangeKey recordBuffer range).1
      key ++ replicate (minKeySize - key.length) 0xFF
    else a.packedPositiveInfinity pkDescr
  | none => a.packedPositiveInfinity pkDescr

/-- **The two keys that `records_in_range` computes.** -/
def recordsInRange (pkDescr : KeyDef) (recordBuffer : Record) (minKey maxKey : Option KeyRange) :
    Bytes × Bytes :=
  let (monoMinKey, recordBuffer) := a.monoMinKeyFromKeyRange recordBuffer minKey
  (monoMinKey, a.monoMaxKeyFromKeyRange pkDescr recordBuffer maxKey monoMinKey.length)

end ActiveIndex

/-! ## Steps of parts and bounds -/

namespace Table

variable {t : Table}

/-- The images of a valid value are stepped within their column. -/
theorem steady_pack {f : Field} {len i : ℕ} {v w : Bytes} (cloned : Bool)
    (hw : f.wfPart len = true) (hv : f.validValue v = true) (hv' : f.validValue w = true) :
    byteWheel.Steady ((setup i (keyField cloned f len) len).pack (partField f len) v).1
      ((setup i (keyField cloned f len) len).pack (partField f len) w).1 := by
  by_cases hf : f.realType = .varchar
  · obtain ⟨b, hlast, hb⟩ := getLast_pack_varchar (i := i) cloned hf hw hv
    exact .of_getLast hlast hb
  · refine .of_length_le (le_of_eq ?_)
    rw [length_pack_eq cloned hf hw hv, length_pack_eq cloned hf hw hv']

/-- **The images of a part of two rows are steady**: those of fixed length, those of a `VARCHAR`
because of the marks of its segments, and NULL bytes are never `0xFF`. -/
theorem steady_partImage {p : KeyPartInfo} (hp : p.Wf t)
    (row row' : Row t) :
    byteWheel.Steady (partImage t row.record p)
      (partImage t row'.record p) := by
  simp only [partImage, KeyDef.packPart]
  obtain ⟨hm, hn⟩ | ⟨hn, hv⟩ := row.null_or_valid hp.1
  · rw [hm, hn]
    exact .of_getLast (b := 0) rfl (by decide)
  obtain ⟨hm', hn'⟩ | ⟨hn', hv'⟩ := row'.null_or_valid hp.1
  · rw [hm', hn, hn']
    exact .of_head_lt (by decide) (by decide)
  · have hpack := steady_pack (i := p.fieldIndex) p.cloned hp.2 hv hv'
    rw [hn, hn']
    cases hm : (t.field p.fieldIndex).maybeNull with
    | false => exact hpack
    | true =>
      exact .append (ComparesAs.refl [1])
        (comparesAs_keyField_pack (i := p.fieldIndex) p.cloned hp.2 hv' hv)
        (.of_length_le le_rfl) hpack

theorem shaped_of_validValue {f : Field} {v : Bytes} (h : f.validValue v = true) :
    f.shaped v = true := by
  cases hf : f.realType with
  | time dec => cases dec <;> simp_all [Field.validValue, Field.shaped]
  | float | double | string =>
    simp_all [Field.validValue, Field.shaped, Field.packLength]
  | _ => simp_all [Field.validValue, Field.shaped]

theorem partImage_row_ne_nil {p : KeyPartInfo} (hp : p.Wf t)
    (row : Row t) : partImage t row.record p ≠ [] := by
  obtain ⟨hm, hn⟩ | ⟨-, hv⟩ := row.null_or_valid hp.1
  · simp [partImage, hm, hn]
  · exact partImage_ne_nil hp.2 (shaped_of_validValue hv)

namespace Bound

variable {ix : Index t} {extended : Bool} (b : Bound ix extended) (recordBuffer : Record)
  (row : Row t) (id : HiddenPk)

/-- The images of the given parts, of a row that is above the bound. -/
theorem steady : byteWheel.Steady b.image (b.given.flatMap (partImage t row.record)) :=
  .flatMap (o := partCmp t row.record b.row.record)
    (fun _ hp => comparesAs_partImage (b.given_wf hp) row b.row)
    fun _ hp => steady_partImage (b.given_wf hp) b.row row

theorem comparesAs_given :
    ComparesAs (b.given.flatMap (partImage t row.record)) b.image (b.lead row) :=
  .flatMap fun _ hp => comparesAs_partImage (b.given_wf hp) row b.row

/-- The key of a row starts as the images of its given parts. -/
theorem head_given : (b.given.flatMap (partImage t row.record)).head?
    = (ix.storedKey row.record id.1).head? := by
  obtain ⟨p, ps, hps⟩ := exists_cons_of_length_pos (b.pos.trans_eq b.length_given.symm)
  have hp := partImage_row_ne_nil (b.given_wf (hps ▸ mem_cons_self)) row
  rw [ix.storedKey_eq b.le_ext, ← given, hps, flatMap_cons, append_assoc,
    head?_append_of_ne_nil _ hp, head?_append_of_ne_nil _ hp]

/-- A row whose key starts above that of a row that is not below the bound. -/
theorem lead_eq_gt {row' : Row t} (hrow : (ix.storedKey row.record id.1).head? = some 0)
    (hrow' : (ix.storedKey row'.record id.1).head? = some 0xFF) (h : b.lead row ≠ .lt) :
    b.lead row' = .gt := by
  rw [← b.head_given] at hrow hrow'
  have hgt : compare (b.given.flatMap (partImage t row'.record))
      (b.given.flatMap (partImage t row.record)) = .gt := by
    rw [← cons_head?_tail hrow, ← cons_head?_tail hrow']
    rfl
  rw [← (b.comparesAs_given _).compare_eq] at h ⊢
  exact Std.TransCmp.gt_of_gt_of_isGE hgt (Ordering.isGE_iff_ne_lt.2 h)

/-- **No row above the bound is below its successor.** -/
theorem not_lt_successor (h : b.lead row = .gt) :
    compare (ix.storedKey row.record id.1) (successor b.image).1 ≠ .lt := by
  have hgiven := b.comparesAs_given row
  rw [h] at hgiven
  rw [successor_eq, ix.storedKey_eq b.le_ext]
  exact (b.steady row).not_lt_incr hgiven _

/-- **Every row that is not above the bound is below its successor**, unless that wraps around. -/
theorem lt_successor (h : b.lead row ≠ .gt) (himage : ∃ x ∈ b.image, x ≠ 0xFF) (fill : Bytes) :
    compare (ix.storedKey row.record id.1) ((successor b.image).1 ++ fill) = .lt := by
  have hfull : ¬byteWheel.Full b.image := fun hfull => himage.elim fun x hx => hx.2 (hfull x hx.1)
  have hself := b.compare_storedKey row id (ix.rest b.parts row.record id.1)
  rw [Std.LawfulEqOrd.compare_eq_iff_eq.mpr rfl, Ordering.then_eq] at hself
  have hle : (compare (ix.storedKey row.record id.1)
      (b.image ++ ix.rest b.parts row.record id.1)).isLE := by
    rw [hself]
    exact Ordering.isLE_iff_ne_gt.2 h
  rw [successor_eq]
  exact Std.TransCmp.lt_of_isLE_of_lt hle (byteWheel.lt_incr hfull _ fill)

end Bound

/-! ## Ranges -/

/-- The flags of the ends of a range. -/
def rangeFlags : List RKeyFunction :=
  [.keyOrNext, .afterKey, .beforeKey, .prefixLast, .prefixLastOrPrev]

/-- An end of a range: a bound and where the range is cut. -/
structure RangeEnd (ix : Index t) (extended : Bool) where
  bound : Bound ix extended
  flag : RKeyFunction
  flag_mem : flag ∈ rangeFlags

namespace RangeEnd

variable {ix : Index t} {extended : Bool} (e : RangeEnd ix extended)

/-- Whether the range is cut behind the rows that have the given parts, or before them. -/
def cutBehind : Bool :=
  match e.flag with
  | .afterKey | .prefixLast | .prefixLastOrPrev => true
  | _ => false

/-- The row is at the upper side of the cut. -/
def Above (row : Row t.toTableShare) : Prop :=
  if e.cutBehind then e.bound.lead row = .gt else e.bound.lead row ≠ .lt

/-- The row is at the lower side of the cut. -/
def Below (row : Row t.toTableShare) : Prop :=
  if e.cutBehind then e.bound.lead row ≠ .gt else e.bound.lead row = .lt

/-- **The key part map packs the parts that the key gives**: it is neither `HA_WHOLE_KEY` nor one of
32 parts, unless the key gives all parts of the index. -/
def PacksGiven : Prop := e.bound.packsAll = true → e.bound.parts = ix.parts.length

theorem PacksGiven.stray_eq_nil {e : RangeEnd ix extended} (h : e.PacksGiven)
    (recordBuffer : Record) : e.bound.stray recordBuffer = [] := by
  rw [Bound.stray]
  split_ifs with hall
  · rw [h hall, drop_length, flatMap_nil]
  · rfl

/-- The end as the SQL layer passes it. -/
def keyRange : KeyRange := ⟨e.bound.key, e.bound.keypartMap, e.flag⟩

theorem length_key_pos : 0 < e.keyRange.key.length :=
  e.bound.pos.trans_eq e.bound.length_key.symm

theorem packRangeKey_eq (h : e.PacksGiven) (unset : ℕ) (scratch : Scratch t) :
    (ix.active unset extended).packRangeKey scratch.record e.keyRange
      = (if e.cutBehind then (successor e.bound.image).1 else e.bound.image,
          e.bound.restored scratch.record) := by
  have hflag : successorForKeyRange e.flag = e.cutBehind := by
    rw [cutBehind]
    cases e.flag <;> rfl
  simp only [ActiveIndex.packRangeKey, keyRange, e.bound.encodeScanKey_eq unset scratch, hflag,
    h.stray_eq_nil, append_nil]

end RangeEnd

namespace Index

variable (ix : Index t) (row : Row t) (id : HiddenPk)

theorem storedKey_ne_nil : ix.storedKey row.record id.1 ≠ [] := by
  obtain ⟨tail, hext, -⟩ := t.ext_sublist _ ix.key_mem
  obtain ⟨p, ps, hps⟩ := exists_cons_of_ne_nil (t.parts_ne_nil _ ix.key_mem)
  rw [hps, cons_append] at hext
  have hmem : p ∈ ix.key.extKeyParts := by rw [hext]; exact mem_cons_self
  have hpart := partImage_row_ne_nil (t.part_wf _ ix.key_mem p hmem) row
  rw [ix.storedKey_eq (n := 1) (by rw [hext]; simp), hext]
  simp [hpart]

theorem length_storedKey_le (unset : ℕ) :
    (ix.storedKey row.record id.1).length ≤ (ix.keyDef unset).maxlength := by
  have h := ix.length_add_rest_le (n := 0) unset row row id
  rw [ix.storedKey_eq (Nat.zero_le _)]
  simpa using h

end Index

/-- A call of `records_in_range`. -/
structure RangeRequest (ix : Index t) (extended : Bool) where
  recordBuffer : Scratch t.toTableShare
  minKey : Option (RangeEnd ix extended)
  maxKey : Option (RangeEnd ix extended)

namespace RangeRequest

variable {ix : Index t} {extended : Bool} (req : RangeRequest ix extended) (unset : ℕ)
  (pkDescr : KeyDef) (row : Row t) (id : HiddenPk)

/-- The two keys. -/
def keys : Bytes × Bytes :=
  (ix.active unset extended).recordsInRange pkDescr req.recordBuffer.record
    (req.minKey.map RangeEnd.keyRange) (req.maxKey.map RangeEnd.keyRange)

/-- **The given parts of the row are in the range.** -/
def InRange : Prop := (∀ e ∈ req.minKey, e.Above row) ∧ ∀ e ∈ req.maxKey, e.Below row

/-- **The keys enclose the key of a row.** -/
def Encloses : Prop :=
  compare (req.keys unset pkDescr).1 (ix.storedKey row.record id.1) ≠ .gt ∧
  compare (ix.storedKey row.record id.1) (req.keys unset pkDescr).2 ≠ .gt ∧
  compare (req.keys unset pkDescr).1 (req.keys unset pkDescr).2 ≠ .gt

/-- The record buffer that the upper end is restored into. -/
def maxBuffer : Scratch t.toTableShare :=
  match req.minKey with
  | none => req.recordBuffer
  | some e => ⟨e.bound.restored req.recordBuffer.record, fun _ hi =>
      shaped_keyRestore e.bound.row req.recordBuffer e.bound.given_nodup
        (fun _ hp => (e.bound.given_wf hp).2) hi⟩

variable (hmin : ∀ e ∈ req.minKey, e.PacksGiven)

include hmin

theorem monoMinKey_eq :
    (ix.active unset extended).monoMinKeyFromKeyRange req.recordBuffer.record
        (req.minKey.map RangeEnd.keyRange)
      = (match req.minKey with
          | none => packedNegativeInfinity
          | some e => if e.cutBehind then (successor e.bound.image).1 else e.bound.image,
        req.maxBuffer.record) := by
  rw [maxBuffer]
  cases hkey : req.minKey with
  | none => rfl
  | some e =>
    simp [ActiveIndex.monoMinKeyFromKeyRange, e.length_key_pos, e.packRangeKey_eq (hmin e hkey)]

/-- **The lower key is not above a row of the range.** -/
theorem minKey_le (h : ∀ e ∈ req.minKey, e.Above row) :
    compare (ix.storedKey row.record id.1) (req.keys unset pkDescr).1 ≠ .lt := by
  rw [keys, ActiveIndex.recordsInRange, req.monoMinKey_eq unset hmin]
  cases hkey : req.minKey with
  | none =>
    have hlow := Wheel.not_lt_of_start_or_lt
      (byteWheel.bots_start_or_lt (length_pos_iff.2 (ix.storedKey_ne_nil row id))) []
    rw [append_nil] at hlow
    exact hlow
  | some e =>
    have habove := h e hkey
    rw [RangeEnd.Above] at habove
    dsimp only
    split_ifs at habove ⊢
    · exact e.bound.not_lt_successor row id habove
    · rw [← append_nil e.bound.image, e.bound.compare_storedKey]
      cases hlead : e.bound.lead row with
      | lt => exact absurd hlead habove
      | eq => cases ix.rest e.bound.parts row.record id.1 <;> simp
      | gt => simp

/-- **The upper key is not below a row of the range**, if it does not wrap around. -/
theorem le_maxKey (hmax : ∀ e ∈ req.maxKey, e.PacksGiven ∧
      (e.cutBehind = true → ∃ b ∈ e.bound.image, b ≠ 0xFF))
    (h : ∀ e ∈ req.maxKey, e.Below row) :
    compare (ix.storedKey row.record id.1) (req.keys unset pkDescr).2 ≠ .gt := by
  rw [keys, ActiveIndex.recordsInRange, req.monoMinKey_eq unset hmin]
  cases hkey : req.maxKey with
  | none =>
    exact (ix.active unset extended).le_packedPositiveInfinity pkDescr
      (ix.length_storedKey_le row id unset)
  | some e =>
    have hbelow := h e hkey
    obtain ⟨hgiven, himage⟩ := hmax e hkey
    rw [RangeEnd.Below] at hbelow
    simp only [Option.map_some, ActiveIndex.monoMaxKeyFromKeyRange, gt_iff_lt, e.length_key_pos,
      if_true, e.packRangeKey_eq hgiven]
    split_ifs at hbelow ⊢ with hcut
    · rw [e.bound.lt_successor row id hbelow (himage hcut)]
      decide
    · rw [e.bound.compare_storedKey, hbelow]
      simp

/-- **A range with rows is not enclosed if its upper end wraps around**: the row that has the parts
of this end is in the range, and the key of zeros is below it. -/
theorem exists_not_encloses {e : RangeEnd ix extended} (hkey : req.maxKey = some e)
    (hgiven : e.PacksGiven) (hcut : e.cutBehind = true) (hfull : byteWheel.Full e.bound.image)
    (hin : req.InRange row) : ∃ row', req.InRange row' ∧ ¬ req.Encloses unset pkDescr row' id := by
  have htop := e.bound.head_given e.bound.row id
  rw [← Bound.image] at htop
  obtain ⟨x, xs, hx⟩ := exists_cons_of_ne_nil (l := e.bound.image) fun hnil =>
    ix.storedKey_ne_nil e.bound.row id (head?_eq_none_iff.1 (by rw [← htop, hnil]; rfl))
  rw [hx, hfull x (by rw [hx]; exact mem_cons_self)] at htop
  obtain ⟨fill, hzero⟩ : ∃ fill, (req.keys unset pkDescr).2 = byteWheel.bot :: fill := by
    have hsucc := byteWheel.incr_append_of_full (u := []) hfull
    rw [nil_append, hx] at hsucc
    rw [keys, ActiveIndex.recordsInRange, req.monoMinKey_eq unset hmin, hkey]
    simp only [Option.map_some, ActiveIndex.monoMaxKeyFromKeyRange, gt_iff_lt, e.length_key_pos,
      if_true, e.packRangeKey_eq hgiven, hcut, successor_eq, hx, hsucc]
    exact ⟨_, rfl⟩
  have hhead (row' : Row t) (h : req.Encloses unset pkDescr row' id) :
      (ix.storedKey row'.record id.1).head? = some 0 := by
    obtain ⟨r, hr⟩ := (byteWheel.bots_start_or_lt
      (length_pos_iff.2 (ix.storedKey_ne_nil row' id))).resolve_right fun hgt =>
        h.2.1 (by simpa [hzero] using hgt [] fill)
    rw [← hr]
    rfl
  by_contra! hall
  have hlow := hhead row (hall row hin)
  have hin' : req.InRange e.bound.row := by
    refine ⟨fun e' he' => ?_, fun e' he' => ?_⟩
    · have hgt := e'.bound.lead_eq_gt row id hlow htop.symm (by
        have habove := hin.1 e' he'
        rw [RangeEnd.Above] at habove
        split_ifs at habove <;> simp_all)
      simp [RangeEnd.Above, hgt]
    · obtain rfl := Option.some.inj (hkey.symm.trans he')
      have hself := (e.bound.comparesAs_given e.bound.row).eq_iff.1 rfl
      simp [RangeEnd.Below, hcut, hself]
  have hend := hhead e.bound.row (hall _ hin')
  rw [← htop] at hend
  cases hend

omit hmin

/-! ### The greatest value of a column -/

open ScanRequest

/-- `b <= 2` on `KEY (b)`. -/
def upToRequest : RangeRequest keySampleIndex true :=
  ⟨keySampleRequest.recordBuffer, none, some ⟨keySampleBound, .afterKey, by decide⟩⟩

/-- `b <= 2147483647` on `KEY (b)`. -/
def topRequest : RangeRequest keySampleIndex true :=
  ⟨keySampleRequest.recordBuffer, none, some ⟨{ keySampleBound with
    row := ⟨fun _ => ⟨false, [0xFF, 0xFF, 0xFF, 0x7F]⟩, by decide⟩ }, .afterKey, by decide⟩⟩

end RangeRequest

end Table

end EloqSql
