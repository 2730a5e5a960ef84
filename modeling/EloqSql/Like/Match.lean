import EloqSql.Lib.Wildcard
import EloqSql.Like

/-!
# Like/Match — what a pattern accepts

`my_wildcmp_8bit` backtracks at each many-wildcard, and has three answers: a match, no match, and
that no match is possible at any later place of the string either, at which the searches around it
end. The last one is given where the string ends too early and where a character behind a
many-wildcard is found no more. `matched` shows that it is never given too early, so that the
matcher accepts exactly the strings that split along the pattern (`myWildcmp8bit_eq_zero_iff`).
-/

namespace EloqSql

namespace Like

open Wildcard

/-- **`my_wildcmp_8bit`.** -/
def myWildcmp8bit (w : Wildcards) (stackGuard : ℕ → Bool) (sortOrder : UInt8 → UInt8)
    (str wildstr : Bytes) : ℤ :=
  if stackGuard 1 then 1 else wildcmpImpl w stackGuard sortOrder wildstr (.plain (-1)) 1 str

/-- **The items of a pattern**, behind an escape or not: an escape before a character makes it stand
for itself. -/
def items (w : Wildcards) : Bool → Bytes → List (Item UInt8)
  | _, [] => []
  | true, c :: wildstr => .lit c :: items w false wildstr
  | false, c :: wildstr =>
    if c = w.wMany then .many :: items w false wildstr
    else if c = w.wOne then .one :: items w false wildstr
    else if c = w.escape ∧ wildstr ≠ [] then items w true wildstr
    else .lit c :: items w false wildstr

section

variable {w : Wildcards} {sortOrder : UInt8 → UInt8} {wildstr : Bytes}

/-- **The search for a character** finds a place behind which the rest splits, if there is one. -/
theorem search_eq_zero_iff {is : List (Item UInt8)} {rest : Bytes → ℤ} {c : UInt8}
    (hrest : ∀ str, Answers sortOrder is str (rest str)) (str : Bytes) :
    search sortOrder (sortOrder c) rest str = 0 ↔
      Splits sortOrder (.many :: .lit c :: is) str := by
  induction str with
  | nil => simp [search, Splits]
  | cons b str ih =>
    rw [splits_many_cons, splits_lit_cons, search, ← ih, ← (hrest str).eq_zero_iff]
    by_cases hb : sortOrder b = sortOrder c
    · rw [if_neg (not_not.2 hb), and_iff_right hb.symm]
      dsimp only
      split
      · -- the answer below ends the search: it is a match, or there is none at a later place
        refine ⟨Or.inl, fun h => h.elim id fun h => ?_⟩
        obtain hlt | heq := Int.lt_or_eq_of_le ‹rest str ≤ 0›
        · have hlater := (splits_many_cons (b := b)).2 (Or.inr (ih.1 h))
          exact absurd (splits_many_of_lit hlater) ((hrest str).nowhere hlt)
        · exact heq
      · exact (or_iff_right fun h => ‹¬rest str ≤ 0› (Int.le_of_eq h)).symm
    · rw [if_pos hb, or_iff_right fun h => hb h.1.symm]

/-- What the matcher answers at a place of the pattern, behind a many-wildcard and an escape or not.
-/
structure Matched (w : Wildcards) (sortOrder : UInt8 → UInt8) (wildstr : Bytes) : Prop where
  plain : ∀ (result : ℤ) (level : ℕ) (str : Bytes), result ≠ 0 →
    Answers sortOrder (items w false wildstr) str
      (wildcmpImpl w (fun _ => false) sortOrder wildstr (.plain result) level str)
  escaped : ∀ (level : ℕ) (str : Bytes), Answers sortOrder (items w true wildstr) str
    (wildcmpImpl w (fun _ => false) sortOrder wildstr .escaped level str)
  many : ∀ (level : ℕ) (str : Bytes),
    wildcmpImpl w (fun _ => false) sortOrder wildstr .many level str = 0 ↔
      Splits sortOrder (.many :: items w false wildstr) str
  manyEscaped : wildstr ≠ [] → ∀ (level : ℕ) (str : Bytes),
    wildcmpImpl w (fun _ => false) sortOrder wildstr .manyEscaped level str = 0 ↔
      Splits sortOrder (.many :: items w true wildstr) str

/-- At the end of the pattern. -/
theorem matched_nil : Matched w sortOrder [] := by
  have hend : ∀ str : Bytes, Answers sortOrder [] str (if str ≠ [] then 1 else 0) := by
    intro str
    constructor <;> split <;> simp_all [Splits]
  refine ⟨fun _ _ str _ => ?_, fun _ str => ?_, fun _ str => ?_, fun h => absurd rfl h⟩
  · simpa only [wildcmpImpl, items] using hend str
  · simpa only [wildcmpImpl, items] using hend str
  · exact iff_of_true rfl ⟨str, [], (List.append_nil str).symm, rfl⟩

/-- **A character that is compared.** -/
theorem Matched.anchor (h : Matched w sortOrder wildstr) (c : UInt8) (level : ℕ) (str : Bytes) :
    Answers sortOrder (items w true (c :: wildstr)) str
      (wildcmpImpl w (fun _ => false) sortOrder (c :: wildstr) .escaped level str) := by
  rw [items]
  cases str with
  | nil => exact answers_nil Int.one_ne_zero (by simp [Splits])
  | cons b str =>
    rw [wildcmpImpl]
    split
    · next hne =>
      exact ⟨iff_of_false Int.one_ne_zero fun hs => hne (splits_lit_cons.1 hs).1, by simp⟩
    · next heq => exact (h.plain 1 level str Int.one_ne_zero).lit (not_not.1 heq)

/-- **The first character behind a many-wildcard.** -/
theorem Matched.find (h : Matched w sortOrder wildstr) (c : UInt8) (level : ℕ) (str : Bytes) :
    wildcmpImpl w (fun _ => false) sortOrder (c :: wildstr) .manyEscaped level str = 0 ↔
      Splits sortOrder (.many :: items w true (c :: wildstr)) str := by
  rw [wildcmpImpl, items]
  exact search_eq_zero_iff (fun str => h.plain (-1) (level + 1) str (by decide)) str

/-- **Every place of the pattern**, from the one behind it. -/
theorem Matched.cons (h : Matched w sortOrder wildstr) (c : UInt8) :
    Matched w sortOrder (c :: wildstr) := by
  refine ⟨fun result level str hr => ?_, h.anchor c, fun level str => ?_, fun _ => h.find c⟩
  · have hanchor := h.anchor c level str
    rw [items]
    cases str with
    | nil =>
      rw [wildcmpImpl] at hanchor
      rw [wildcmpImpl]
      split_ifs with hmany hone hescape
      · exact .many (h.many level [])
      · exact answers_nil hr (by simp [Splits])
      · exact h.escaped level []
      · exact hanchor
    | cons b str =>
      rw [wildcmpImpl] at hanchor
      rw [wildcmpImpl]
      split
      · exact .many (h.many level (b :: str))
      split
      · exact (h.plain result level str hr).one
      split
      · exact h.escaped level (b :: str)
      · exact hanchor
  · have hfind := h.find c level str
    rw [items]
    cases str with
    | nil =>
      rw [wildcmpImpl, if_pos rfl]
      split_ifs with hmany hone hescape
      · exact (h.many level []).trans splits_many_many.symm
      · simp [Splits]
      · -- the letter behind the escape is wanted
        obtain ⟨d, rest, rfl⟩ := List.exists_cons_of_ne_nil hescape.2
        simp [items, Splits]
      · simp [Splits]
    | cons b str =>
      rw [wildcmpImpl] at hfind
      rw [wildcmpImpl, if_neg (List.cons_ne_nil b str)]
      split
      · exact (h.many level (b :: str)).trans splits_many_many.symm
      split
      · exact (h.many level str).trans splits_many_one.symm
      split
      · exact h.manyEscaped (And.right ‹_›) level (b :: str)
      · exact hfind

theorem matched : ∀ wildstr : Bytes, Matched w sortOrder wildstr
  | [] => matched_nil
  | c :: wildstr => (matched wildstr).cons c

end

/-- **Matching is exact**: the matcher accepts the strings that split along the pattern. -/
theorem myWildcmp8bit_eq_zero_iff (w : Wildcards) (sortOrder : UInt8 → UInt8)
    (str wildstr : Bytes) : myWildcmp8bit w (fun _ => false) sortOrder str wildstr = 0 ↔
      Splits sortOrder (items w false wildstr) str :=
  ((matched wildstr).plain (-1) 1 str (by decide)).eq_zero_iff

end Like

end EloqSql
