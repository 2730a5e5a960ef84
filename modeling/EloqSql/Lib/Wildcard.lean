import Mathlib.Data.Int.Notation
import Mathlib.Data.List.Basic

/-!
# Lib/Wildcard — patterns with wildcards

An item of a pattern is a letter, which takes a letter of the same weight, or a wildcard for one
letter or for any number of them; a text splits along a pattern if each item can take its part
(`Splits`).

A backtracking matcher may do better than yes or no: that no suffix of the text will do either ends
all searches around it. `Answers` is what such an answer has to be.
-/

namespace Wildcard

open List

variable {α β : Type*}

/-- **An item of a pattern.** -/
inductive Item (α : Type*)
  /-- A wildcard for one letter. -/
  | one
  /-- A wildcard for any number of letters. -/
  | many
  /-- A letter. -/
  | lit (a : α)

/-- **A text splits along a pattern** into parts that its items take. -/
def Splits (weight : α → β) : List (Item α) → List α → Prop
  | [], s => s = []
  | .one :: items, s => ∃ b v, s = b :: v ∧ Splits weight items v
  | .many :: items, s => ∃ u v, s = u ++ v ∧ Splits weight items v
  | .lit a :: items, s => ∃ b v, s = b :: v ∧ weight a = weight b ∧ Splits weight items v

variable {weight : α → β} {items : List (Item α)} {a b : α} {s : List α}

theorem splits_one_cons : Splits weight (.one :: items) (b :: s) ↔ Splits weight items s := by
  simp [Splits]

theorem splits_lit_cons :
    Splits weight (.lit a :: items) (b :: s) ↔ weight a = weight b ∧ Splits weight items s := by
  simp [Splits]

theorem splits_many_nil : Splits weight (.many :: items) [] ↔ Splits weight items [] := by
  simp [Splits]

theorem splits_many_cons : Splits weight (.many :: items) (b :: s) ↔
    Splits weight items (b :: s) ∨ Splits weight (.many :: items) s := by
  constructor
  · rintro ⟨_ | ⟨c, u⟩, v, hs, hv⟩
    · exact .inl (hs ▸ hv)
    · exact .inr ⟨u, v, (List.cons.inj hs).2, hv⟩
  · rintro (h | ⟨u, v, rfl, hv⟩)
    · exact ⟨[], _, rfl, h⟩
    · exact ⟨b :: u, v, rfl, hv⟩

theorem splits_many_many :
    Splits weight (.many :: .many :: items) s ↔ Splits weight (.many :: items) s := by
  constructor
  · rintro ⟨u, _, rfl, v, w, rfl, hw⟩
    exact ⟨u ++ v, w, (append_assoc ..).symm, hw⟩
  · exact fun h => ⟨[], s, rfl, h⟩

/-- The wildcard for any number of letters may take what the one for one letter takes. -/
theorem splits_many_one :
    Splits weight (.many :: .one :: items) (b :: s) ↔ Splits weight (.many :: items) s := by
  constructor
  · rintro ⟨u, _, hs, c, v, rfl, hv⟩
    refine ⟨(u ++ [c]).tail, v, ?_, hv⟩
    have htail := congrArg tail (hs.trans (append_cons u c v))
    rwa [tail_append_of_ne_nil (by simp)] at htail
  · rintro ⟨u, v, rfl, hv⟩
    have hlast := dropLast_append_getLast (cons_ne_nil b u)
    refine ⟨(b :: u).dropLast, _, ?_, (b :: u).getLast (by simp), v, rfl, hv⟩
    rw [append_cons, hlast, cons_append]

/-- A letter takes a letter too. -/
theorem splits_many_of_lit (h : Splits weight (.many :: .lit a :: items) (b :: s)) :
    Splits weight (.many :: items) s := by
  obtain ⟨u, _, hs, c, v, rfl, -, hv⟩ := h
  exact splits_many_one.1 ⟨u, c :: v, hs, c, v, rfl, hv⟩

/-! ## Answers of a matcher -/

/-- **An answer of a matcher**: zero if the text splits along the pattern, and below zero only if no
suffix of it does. -/
structure Answers (weight : α → β) (items : List (Item α)) (s : List α) (r : ℤ) : Prop where
  eq_zero_iff : r = 0 ↔ Splits weight items s
  nowhere : r < 0 → ¬Splits weight (.many :: items) s

variable {r : ℤ}

/-- At the end of a text that still needs a letter, every answer but zero is right. -/
theorem answers_nil (hr : r ≠ 0) (h : ¬Splits weight items []) : Answers weight items [] r :=
  ⟨iff_of_false hr h, fun _ => mt splits_many_nil.1 h⟩

theorem Answers.one (h : Answers weight items s r) : Answers weight (.one :: items) (b :: s) r :=
  ⟨h.eq_zero_iff.trans splits_one_cons.symm, fun hr => mt splits_many_one.1 (h.nowhere hr)⟩

theorem Answers.lit (h : Answers weight items s r) (hab : weight a = weight b) :
    Answers weight (.lit a :: items) (b :: s) r :=
  ⟨h.eq_zero_iff.trans (splits_lit_cons.trans (and_iff_right hab)).symm,
    fun hr => mt splits_many_of_lit (h.nowhere hr)⟩

/-- Behind a wildcard for any number of letters yes and no are enough. -/
theorem Answers.many (h : r = 0 ↔ Splits weight (.many :: items) s) :
    Answers weight (.many :: items) s r :=
  ⟨h, fun hr hs => absurd (h.2 (splits_many_many.1 hs)) (Int.ne_of_lt hr)⟩

end Wildcard
