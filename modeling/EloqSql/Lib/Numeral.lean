import Mathlib.Data.Nat.Digits.Defs
import Mathlib.Tactic.LinearCombination

/-!
# Lib/Numeral — long addition and subtraction

Numbers of several words are lists with the lowest word first, and `Nat.ofDigits` is their value.
`zipCarry` runs over two of them with a carry, word by word. What a word operation adds or takes
away, the run does (`ofDigits_zipCarry_add`, `ofDigits_zipCarry_sub`); the second one allows for a
multiple of the words that are taken away, as in long division.
-/

namespace Numeral

open List

variable {b : ℕ} {op : ℕ → ℕ → ℕ → ℕ × ℕ}

/-- A word operation along two numbers, as far as the shorter one goes: the words, and the carry. -/
def zipCarry (op : ℕ → ℕ → ℕ → ℕ × ℕ) : List ℕ → List ℕ → ℕ → List ℕ × ℕ
  | u :: us, v :: vs, carry =>
    let (w, carry) := op u v carry
    let (ws, carry) := zipCarry op us vs carry
    (w :: ws, carry)
  | _, _, carry => ([], carry)

theorem zipCarry_cons (u v : ℕ) (us vs : List ℕ) (c : ℕ) :
    zipCarry op (u :: us) (v :: vs) c
      = ((op u v c).1 :: (zipCarry op us vs (op u v c).2).1, (zipCarry op us vs (op u v c).2).2) :=
  rfl

variable (op) in
theorem length_zipCarry : ∀ {us vs : List ℕ} {c : ℕ}, us.length = vs.length →
    (zipCarry op us vs c).1.length = us.length
  | [], [], _, _ => rfl
  | u :: us, v :: vs, c, h => by
      rw [zipCarry_cons, length_cons, length_zipCarry (by simpa using h), length_cons]

theorem zipCarry_append_right : ∀ {us vs : List ℕ} {c : ℕ} (more : List ℕ), us.length = vs.length →
    zipCarry op us (vs ++ more) c = zipCarry op us vs c
  | [], [], c, [], _ => rfl
  | [], [], c, _ :: _, _ => rfl
  | u :: us, v :: vs, c, more, h => by
      rw [cons_append, zipCarry_cons, zipCarry_cons,
        zipCarry_append_right more (by simpa using h)]

theorem zipCarry_append_left : ∀ {us vs : List ℕ} {c : ℕ} (more : List ℕ), us.length = vs.length →
    zipCarry op (us ++ more) vs c = zipCarry op us vs c
  | [], [], c, [], _ => rfl
  | [], [], c, _ :: _, _ => rfl
  | u :: us, v :: vs, c, more, h => by
      rw [cons_append, zipCarry_cons, zipCarry_cons,
        zipCarry_append_left more (by simpa using h)]

/-- **A word operation that adds.** -/
def Adds (b : ℕ) (op : ℕ → ℕ → ℕ → ℕ × ℕ) : Prop :=
  ∀ u v c, u < b → v < b → c ≤ 1 →
    (op u v c).1 < b ∧ (op u v c).2 ≤ 1 ∧ (op u v c).1 + b * (op u v c).2 = u + v + c

/-- **A word operation that takes away `g` times a word**, with a carry of at most `m`. -/
def Subtracts (b g m : ℕ) (op : ℕ → ℕ → ℕ → ℕ × ℕ) : Prop :=
  ∀ u v c, u < b → v < b → c ≤ m →
    (op u v c).1 < b ∧ (op u v c).2 ≤ m ∧ (op u v c).1 + g * v + c = u + b * (op u v c).2

theorem ofDigits_zipCarry_add (hop : Adds b op) : ∀ {us vs : List ℕ} {c : ℕ},
    us.length = vs.length → (∀ u ∈ us, u < b) → (∀ v ∈ vs, v < b) → c ≤ 1 →
      (∀ w ∈ (zipCarry op us vs c).1, w < b) ∧ (zipCarry op us vs c).2 ≤ 1 ∧
      Nat.ofDigits b (zipCarry op us vs c).1 + b ^ us.length * (zipCarry op us vs c).2
        = Nat.ofDigits b us + Nat.ofDigits b vs + c
  | [], [], c, _, _, _, hc => by simp [zipCarry, hc]
  | u :: us, v :: vs, c, hlen, hu, hv, hc => by
      obtain ⟨hu0, hus⟩ := forall_mem_cons.1 hu
      obtain ⟨hv0, hvs⟩ := forall_mem_cons.1 hv
      obtain ⟨hw, hc', hsum⟩ := hop u v c hu0 hv0 hc
      obtain ⟨hws, hc'', ih⟩ := ofDigits_zipCarry_add hop (by simpa using hlen) hus hvs hc'
      rw [zipCarry_cons]
      refine ⟨forall_mem_cons.2 ⟨hw, hws⟩, hc'', ?_⟩
      simp only [Nat.ofDigits_cons, length_cons, pow_succ]
      zify at hsum ih ⊢
      linear_combination hsum + (b : ℤ) * ih

theorem ofDigits_zipCarry_sub {g m : ℕ} (hop : Subtracts b g m op) : ∀ {us vs : List ℕ} {c : ℕ},
    us.length = vs.length → (∀ u ∈ us, u < b) → (∀ v ∈ vs, v < b) → c ≤ m →
      (∀ w ∈ (zipCarry op us vs c).1, w < b) ∧ (zipCarry op us vs c).2 ≤ m ∧
      Nat.ofDigits b (zipCarry op us vs c).1 + g * Nat.ofDigits b vs + c
        = Nat.ofDigits b us + b ^ us.length * (zipCarry op us vs c).2
  | [], [], c, _, _, _, hc => by simp [zipCarry, hc]
  | u :: us, v :: vs, c, hlen, hu, hv, hc => by
      obtain ⟨hu0, hus⟩ := forall_mem_cons.1 hu
      obtain ⟨hv0, hvs⟩ := forall_mem_cons.1 hv
      obtain ⟨hw, hc', hsum⟩ := hop u v c hu0 hv0 hc
      obtain ⟨hws, hc'', ih⟩ := ofDigits_zipCarry_sub hop (by simpa using hlen) hus hvs hc'
      rw [zipCarry_cons]
      refine ⟨forall_mem_cons.2 ⟨hw, hws⟩, hc'', ?_⟩
      simp only [Nat.ofDigits_cons, length_cons, pow_succ]
      zify at hsum ih ⊢
      linear_combination hsum + (b : ℤ) * ih

end Numeral
