import EloqSql.Image.Numbers
import EloqSql.KeyDef.Parts
import EloqSql.Lib.Window

/-!
# KeyDef/PosInInterval — where a key is between two others

To estimate the position of a key in an interval, `EloqKey::PosInInterval` removes the common prefix
of the two ends and reads the next eight bytes of each key as a number. From the two ends it also
removes the hidden primary key that a key of a non-unique index ends with, but not from the key
itself. The number of the key is never below that of the lower end, and it is above that of the
upper end exactly if the key has the columns of the upper end, and the eight bytes reach into its
hidden primary key (`posValues_ordered_iff`).
-/

namespace EloqSql

open MemCompare List

/-! ## The model -/

/-- `EloqKeySchema`. -/
structure EloqKeySchema where
  indexType : IndexType
  isUniqueIndex : Bool

/-- `txservice::KeySchema`. -/
inductive KeySchema where
  | primary (schema : EloqKeySchema)
  | secondary (skSchema pkSchema : EloqKeySchema)

/-- `trim_suffix_size`. -/
def KeySchema.trimSuffixSize : KeySchema → ℕ
  | .primary _ => 0
  | .secondary sk pk =>
    if pk.indexType = .hiddenPrimary ∧ sk.isUniqueIndex = false then myUuidSize else 0

/-- `Slice::difference_offset`. -/
def differenceOffset : Bytes → Bytes → ℕ
  | a :: u, b :: v => if a ≠ b then 0 else differenceOffset u v + 1
  | _, _ => 0

/-- The number that is read from a slice: its first eight bytes, zeros behind its end, turned around
and read by `uint8korr`. -/
def keyValue (slice : Bytes) : ℕ :=
  let buf := slice.take 8 ++ replicate (8 - slice.length) 0
  leNat buf.reverse

/-- An end of the interval without the common prefix and the suffix. -/
def trimmedEnd (offset trimSuffixSize : ℕ) (slice : Bytes) : Bytes :=
  let trimSize := offset + trimSuffixSize
  (slice.drop offset).take (if slice.length > trimSize then slice.length - trimSize else 0)

/-- **The three numbers of `EloqKey::PosInInterval`**: of the lower end, the key and the upper end.
-/
def posValues (schema : KeySchema) (minKey key maxKey : Bytes) : ℕ × ℕ × ℕ :=
  let offset := differenceOffset minKey maxKey
  (keyValue (trimmedEnd offset schema.trimSuffixSize minKey), keyValue (key.drop offset),
    keyValue (trimmedEnd offset schema.trimSuffixSize maxKey))

/-! ## The numbers of ordered keys -/

theorem keyValue_eq (slice : Bytes) : keyValue slice = leNat (window 0 8 slice).reverse := rfl

/-- **Numbers are ordered as the windows they are read from.** -/
theorem keyValue_le_iff (u v : Bytes) :
    keyValue u ≤ keyValue v ↔ compare (window 0 8 u) (window 0 8 v) ≠ .gt := by
  have hlen : (window 0 8 u).reverse.length = (window 0 8 v).reverse.length := by simp
  have hcompare := compare_reverse hlen
  rw [reverse_reverse, reverse_reverse] at hcompare
  rw [keyValue_eq, keyValue_eq, hcompare, ne_eq, Nat.compare_eq_gt, Nat.not_lt]

/-- The two strings agree up to `differenceOffset`. -/
theorem exists_of_differenceOffset : ∀ u v : Bytes, ∃ p a b,
    u = p ++ a ∧ v = p ++ b ∧ p.length = differenceOffset u v
  | [], v => ⟨[], [], v, by simp [differenceOffset]⟩
  | a :: u, [] => ⟨[], a :: u, [], by simp [differenceOffset]⟩
  | a :: u, b :: v => by
      by_cases hab : a = b
      · subst hab
        obtain ⟨p, x, y, hu, hv, hp⟩ := exists_of_differenceOffset u v
        exact ⟨a :: p, x, y, by simp [hu], by simp [hv], by simp [differenceOffset, hp]⟩
      · exact ⟨[], a :: u, b :: v, by simp [differenceOffset, hab]⟩

theorem trimmedEnd_append (p s : Bytes) (trim : ℕ) :
    trimmedEnd p.length trim (p ++ s) = s.take (s.length - trim) := by
  rw [trimmedEnd, drop_left, length_append]
  congr 1
  split <;> omega

/-! ## The order -/

/-- Where the columns of `slice` end, if that is behind `offset`. -/
def columnsEnd (offset trimSuffixSize : ℕ) (slice : Bytes) : ℕ :=
  max offset (slice.length - trimSuffixSize)

/-- **The number of the key reads its hidden primary key**: the key has the columns of the upper
end, they end within the eight bytes, and something else than zeros follows there. -/
def ReadsHiddenPk (schema : KeySchema) (minKey key maxKey : Bytes) : Prop :=
  let offset := differenceOffset minKey maxKey
  let columns := columnsEnd offset schema.trimSuffixSize maxKey
  maxKey.take columns <+: key ∧ ∃ i, columns ≤ i ∧ i < offset + 8 ∧ key.getD i 0 ≠ 0

/-- **The lower end is never above the key.** -/
theorem keyValue_trimmedEnd_le {trim : ℕ} {p a c : Bytes} (h : compare a c = .lt) :
    keyValue (trimmedEnd p.length trim (p ++ a)) ≤ keyValue c := by
  rw [trimmedEnd_append, keyValue_le_iff]
  refine window_mono Collation.compare_zero_ne_gt
    (le_of_append_le (x := a.drop (a.length - trim)) ?_)
  rw [take_append_drop, h]
  decide

/-- **The three numbers are ordered as the keys**, unless the number of the key reads its hidden
primary key. -/
theorem posValues_ordered_iff (schema : KeySchema) {minKey key maxKey : Bytes}
    (hmin : compare minKey key = .lt) (hmax : compare key maxKey = .lt) :
    ((posValues schema minKey key maxKey).1 ≤ (posValues schema minKey key maxKey).2.1 ∧
        (posValues schema minKey key maxKey).2.1 ≤ (posValues schema minKey key maxKey).2.2) ↔
      ¬ ReadsHiddenPk schema minKey key maxKey := by
  obtain ⟨p, a, b, rfl, rfl, hp⟩ := exists_of_differenceOffset minKey maxKey
  obtain ⟨c, rfl⟩ := start_of_between hmin hmax
  rw [compare_append_left] at hmin hmax
  have hcolumns : columnsEnd p.length schema.trimSuffixSize (p ++ b)
      = p.length + (b.length - schema.trimSuffixSize) := by
    rw [columnsEnd, length_append]
    omega
  simp only [posValues, ReadsHiddenPk, ← hp, drop_left, hcolumns]
  rw [and_iff_right (keyValue_trimmedEnd_le hmin), trimmedEnd_append, keyValue_le_iff,
    window_le_iff Collation.compare_zero_ne_gt
      (x := b.drop (b.length - schema.trimSuffixSize)) (by rwa [take_append_drop])]
  rw [length_take_of_le (Nat.sub_le ..), take_length_add_append,
    prefix_append_right_inj]
  set columns := b.length - schema.trimSuffixSize
  have hget : ∀ i, (p ++ c).getD (p.length + i) 0 = c.getD i 0 := fun i => by
    rw [getD_eq_getElem?_getD, getElem?_append_right (by omega), Nat.add_sub_cancel_left,
      getD_eq_getElem?_getD]
  constructor
  · rintro h ⟨hstart, i, hlow, hhigh, hi⟩
    rw [show i = p.length + (i - p.length) by omega, hget] at hi
    rcases h with h | h | h
    · omega
    · exact h hstart
    · exact hi (h _ (by omega) (by omega))
  · intro h
    refine .inr (not_or_of_imp fun hstart i hlow hhigh => ?_)
    by_contra hi
    exact h ⟨hstart, p.length + i, by omega, by omega, by rwa [hget]⟩

/-! ### An index of a table without primary key -/

/-- `CREATE TABLE t (a INT NOT NULL, KEY (a))`, with a hidden primary key. -/
def keyedTable : Table :=
  TableShare.toTable
    { fields := 1
      field := fun _ => Table.intField false
      keyInfo := [⟨false, [⟨0, 4, false⟩], [⟨0, 4, false⟩]⟩]
      primaryKey := none } (by decide)

/-- The key schema of `KEY (a)`. -/
def keyedSchema : KeySchema := .secondary ⟨.secondary, false⟩ ⟨.hiddenPrimary, false⟩

/-- The key of the row `a`, whose hidden primary key is sixteen times `id`. -/
def keyedKey (a id : UInt8) : Bytes :=
  eloqKey keyedTable.toTableShare (KeyDef.setup keyedTable.toTableShare .secondary 0 0)
    (fun _ => ⟨false, [a, 0, 0, 0]⟩) (some (replicate myUuidSize id)) false 0

/-- A key with another column than the upper end. -/
theorem posValues_keyedKey :
    let values := posValues keyedSchema (keyedKey 1 7) (keyedKey 3 7) (keyedKey 5 7)
    values.1 ≤ values.2.1 ∧ values.2.1 ≤ values.2.2 := by
  refine (posValues_ordered_iff keyedSchema (by decide +kernel) (by decide +kernel)).2 fun h => ?_
  exact absurd h.1 (by decide +kernel)

/-- **Two rows have the column of the upper end**, and the row below it gets the larger number: its
hidden primary key is read behind the column, and zeros are read for the upper end. -/
theorem posValues_keyedKey_same :
    compare (keyedKey 1 7) (keyedKey 5 3) = .lt ∧ compare (keyedKey 5 3) (keyedKey 5 7) = .lt ∧
    posValues keyedSchema (keyedKey 1 7) (keyedKey 5 3) (keyedKey 5 7)
      = (0x01 * 2 ^ 56, 0x0503030303030303, 0x05 * 2 ^ 56) := by
  decide +kernel

end EloqSql
