import Mathlib.Data.Set.Function
import Mathlib.Logic.Function.Basic

/-!
# Lib/IndexImage — an index that mirrors a table

A table maps keys to rows, and an index maps index keys to values. `entry` says which entry a row
has in the index. The index is **exact** if its entries are those of the rows of the table; where
entries tell the keys apart, each row then has an entry of its own (`exact_iff_bijOn`).

An exact index stays exact when a row and its entry are added, removed or replaced together.
-/

namespace IndexImage

open Function (update update_comm update_idem update_of_ne update_self)

variable {K R I B : Type*} {entry : K → R → I × B} {T : K → Option R} {ix : I → Option B}

/-- **The entries of the index are those of the rows.** -/
def Exact (entry : K → R → I × B) (T : K → Option R) (ix : I → Option B) : Prop :=
  ∀ i b, ix i = some b ↔ ∃ k r, T k = some r ∧ entry k r = (i, b)

/-- Rows that may be in a table under some key have entries that tell the keys apart. -/
def Separates (Valid : K → R → Prop) (entry : K → R → I × B) : Prop :=
  ∀ {k r k' r'}, Valid k r → Valid k' r' → entry k r = entry k' r' → k = k'

namespace Exact

theorem mem (h : Exact entry T ix) {k : K} {r : R} (hk : T k = some r) :
    ix (entry k r).1 = some (entry k r).2 :=
  (h _ _).mpr ⟨k, r, hk, rfl⟩

end Exact

variable {Valid : K → R → Prop}

/-- **An index is exact if each row has an entry of its own, and there are no others.** -/
theorem exact_iff_bijOn (hT : ∀ {k r}, T k = some r → Valid k r) (hs : Separates Valid entry) :
    Exact entry T ix ↔
      Set.BijOn (fun p : K × R => entry p.1 p.2) {p | T p.1 = some p.2}
        {e | ix e.1 = some e.2} := by
  constructor
  · intro h
    refine ⟨fun p hp => h.mem hp, ?_, ?_⟩
    · rintro ⟨k, r⟩ (hk : T k = some r) ⟨k', r'⟩ (hk' : T k' = some r') he
      obtain rfl := hs (hT hk) (hT hk') he
      rw [Option.some.inj (hk.symm.trans hk')]
    · rintro ⟨i, b⟩ hb
      obtain ⟨k, r, hk, he⟩ := (h i b).mp hb
      exact ⟨(k, r), hk, he⟩
  · rintro ⟨hmaps, -, hsurj⟩ i b
    constructor
    · intro hb
      obtain ⟨⟨k, r⟩, hk, he⟩ := hsurj (show (i, b) ∈ {e : I × B | ix e.1 = some e.2} from hb)
      exact ⟨k, r, hk, he⟩
    · rintro ⟨k, r, hk, he⟩
      have hmem : ix (entry k r).1 = some (entry k r).2 :=
        hmaps (show (k, r) ∈ {p : K × R | T p.1 = some p.2} from hk)
      rwa [he] at hmem

namespace Exact

/-- A row that is not in the table has no entry with its value. -/
theorem ne_some (h : Exact entry T ix) (hT : ∀ {k r}, T k = some r → Valid k r)
    (hs : Separates Valid entry) {k : K} {r : R} (hv : Valid k r) (hk : T k = none) :
    ix (entry k r).1 ≠ some (entry k r).2 := by
  intro hi
  obtain ⟨k', r', hk', he⟩ := (h _ _).mp hi
  obtain rfl := hs (hT hk') hv he
  exact absurd (hk.symm.trans hk') (by simp)

variable [DecidableEq K] [DecidableEq I]

theorem insert (h : Exact entry T ix) {k : K} {r : R} (hk : T k = none)
    (hi : ix (entry k r).1 = none) :
    Exact entry (update T k (some r))
      (update ix (entry k r).1 (some (entry k r).2)) := by
  intro i b
  have hold : (∃ k' r', update T k (some r) k' = some r' ∧ entry k' r' = (i, b))
      ↔ entry k r = (i, b) ∨ ix i = some b := by
    rw [h i b]
    constructor
    · rintro ⟨k', r', hk', he⟩
      by_cases hkk : k' = k
      · subst hkk
        rw [update_self] at hk'
        exact Or.inl (Option.some.inj hk' ▸ he)
      · exact Or.inr ⟨k', r', by rwa [update_of_ne hkk] at hk', he⟩
    · rintro (he | ⟨k', r', hk', he⟩)
      · exact ⟨k, r, update_self _ _ _, he⟩
      · refine ⟨k', r', ?_, he⟩
        rwa [update_of_ne]
        rintro rfl
        exact absurd (hk.symm.trans hk') (by simp)
  rw [hold]
  by_cases hii : i = (entry k r).1
  · subst hii
    rw [update_self, hi, Prod.ext_iff]
    simp
  · rw [update_of_ne hii, Prod.ext_iff]
    simp [Ne.symm hii]

theorem erase (h : Exact entry T ix) (hT : ∀ {k r}, T k = some r → Valid k r)
    (hs : Separates Valid entry) {k : K} {r : R} (hk : T k = some r) :
    Exact entry (update T k none) (update ix (entry k r).1 none) := by
  intro i b
  by_cases hii : i = (entry k r).1
  · -- no other row has an entry with this index key
    subst hii
    rw [update_self]
    refine iff_of_false (by simp) ?_
    rintro ⟨k', r', hk', he⟩
    by_cases hkk : k' = k
    · rw [hkk, update_self] at hk'
      simp at hk'
    · rw [update_of_ne hkk] at hk'
      have hb : ix (entry k r).1 = some b := (h _ _).mpr ⟨k', r', hk', he⟩
      refine hkk (hs (hT hk') (hT hk) (he.trans (Prod.ext rfl ?_)))
      exact Option.some.inj (hb.symm.trans (h.mem hk))
  · rw [update_of_ne hii, h i b]
    refine exists_congr fun k' => exists_congr fun r' => ?_
    refine and_congr_left fun he => ?_
    by_cases hkk : k' = k
    · subst hkk
      rw [update_self, hk]
      refine iff_of_false (fun hr => hii ?_) (by simp)
      rw [Option.some.inj hr, he]
    · rw [update_of_ne hkk]

omit [DecidableEq I] in
/-- A row with the same entry may take the place of another. -/
theorem replace_of_eq (h : Exact entry T ix) {k : K} {r r' : R} (hk : T k = some r)
    (he : entry k r' = entry k r) : Exact entry (update T k (some r')) ix := by
  intro i b
  rw [h i b]
  constructor
  · rintro ⟨k₁, r₁, hk₁, he₁⟩
    by_cases hkk : k₁ = k
    · subst hkk
      cases hk.symm.trans hk₁
      exact ⟨k₁, r', update_self _ _ _, he.trans he₁⟩
    · exact ⟨k₁, r₁, by rwa [update_of_ne hkk], he₁⟩
  · rintro ⟨k₁, r₁, hk₁, he₁⟩
    by_cases hkk : k₁ = k
    · subst hkk
      rw [update_self] at hk₁
      cases hk₁
      exact ⟨k₁, r, hk, he.symm.trans he₁⟩
    · exact ⟨k₁, r₁, by rwa [update_of_ne hkk] at hk₁, he₁⟩

/-- The new entry may be written before the old one is removed. -/
theorem replace (h : Exact entry T ix) (hT : ∀ {k r}, T k = some r → Valid k r)
    (hs : Separates Valid entry) {k : K} {r r' : R} (hk : T k = some r)
    (hne : (entry k r').1 ≠ (entry k r).1) (hi : ix (entry k r').1 = none) :
    Exact entry (update T k (some r'))
      (update (update ix (entry k r').1 (some (entry k r').2))
        (entry k r).1 none) := by
  have herase := h.erase hT hs hk
  have hinsert := herase.insert (r := r') (update_self k none T)
    (by rw [update_of_ne hne, hi])
  rw [update_idem] at hinsert
  rwa [update_comm hne]

end Exact

end IndexImage
