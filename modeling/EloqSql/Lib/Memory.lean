import Mathlib.Data.Nat.Notation
import Mathlib.Tactic.TypeStar

/-!
# Lib/Memory — a flat memory that is read and written in blocks

A memory is a function from addresses to cells. `load` reads a block, `store` writes one; what is
known of a cell after a write follows from whether the block covers it (`store_apply`,
`store_apply_of_outside`).
-/

namespace Memory

open List

variable {α : Type*}

/-- The block of `n` cells from an address on. -/
def load (m : ℕ → α) (a n : ℕ) : List α := (range n).map fun k => m (a + k)

/-- Write a block. -/
def store (m : ℕ → α) (a : ℕ) (block : List α) : ℕ → α := fun x =>
  if x < a then m x else block[x - a]?.getD (m x)

/-- An address is within a block. -/
def Covers (a n x : ℕ) : Prop := a ≤ x ∧ x < a + n

instance (a n x : ℕ) : Decidable (Covers a n x) := inferInstanceAs (Decidable (_ ∧ _))

/-! ## Blocks -/

@[simp]
theorem length_load (m : ℕ → α) (a n : ℕ) : (load m a n).length = n := by simp [load]

theorem getElem?_load (m : ℕ → α) (a n k : ℕ) :
    (load m a n)[k]? = if k < n then some (m (a + k)) else none := by
  by_cases h : k < n <;> simp [load, h]

@[simp]
theorem getElem_load (m : ℕ → α) (a n k : ℕ) (h : k < (load m a n).length) :
    (load m a n)[k] = m (a + k) := by simp [load]

theorem load_congr {m m' : ℕ → α} {a a' n : ℕ} (h : ∀ k < n, m (a + k) = m' (a' + k)) :
    load m a n = load m' a' n := by
  refine map_congr_left fun k hk => ?_
  exact h k (mem_range.mp hk)

/-- A block that is in memory, up to some cell. -/
theorem load_eq_take {m : ℕ → α} {a n : ℕ} {block : List α} (hn : n ≤ block.length)
    (h : ∀ k < n, ∀ hk : k < block.length, m (a + k) = block[k]) : load m a n = block.take n := by
  refine ext_getElem? fun k => ?_
  rw [getElem?_load, getElem?_take]
  by_cases hk : k < n
  · rw [if_pos hk, if_pos hk, h k hk (by omega), getElem?_eq_getElem (by omega)]
  · rw [if_neg hk, if_neg hk]

theorem load_append (m : ℕ → α) (a n k : ℕ) :
    load m a n ++ load m (a + n) k = load m a (n + k) := by
  simp [load, range_add, Nat.add_assoc, Function.comp_def]

/-! ## Writes -/

theorem store_apply (m : ℕ → α) (a : ℕ) (block : List α) (k : ℕ) :
    store m a block (a + k) = block[k]?.getD (m (a + k)) := by
  rw [store, if_neg (Nat.not_lt.mpr (Nat.le_add_right a k)), Nat.add_sub_cancel_left]

theorem store_apply_of_outside {m : ℕ → α} {a x : ℕ} {block : List α}
    (h : ¬ Covers a block.length x) : store m a block x = m x := by
  rw [store]
  split
  · rfl
  · rename_i hx
    rw [getElem?_eq_none (by simp only [Covers] at h; omega)]
    rfl

/-! ## Several writes -/

/-- Write some blocks, each a list of cells at an address. -/
def storeAll (m : ℕ → α) : List (ℕ × List α) → ℕ → α
  | [] => m
  | b :: bs => storeAll (store m b.1 b.2) bs

theorem storeAll_apply_of_outside {x : ℕ} : ∀ {bs : List (ℕ × List α)} {m : ℕ → α},
    (∀ b ∈ bs, ¬ Covers b.1 b.2.length x) → storeAll m bs x = m x
  | [], _, _ => rfl
  | b :: bs, m, h => by
      rw [storeAll, storeAll_apply_of_outside fun b' hb' => h b' (mem_cons_of_mem b hb'),
        store_apply_of_outside (h b mem_cons_self)]

/-- A cell of a block that no later block is over. -/
theorem storeAll_apply_of_mem {b : ℕ × List α} {k : ℕ} (hk : k < b.2.length) :
    ∀ {bs : List (ℕ × List α)} {m : ℕ → α}, b ∈ bs →
      (bs.Pairwise fun c d => ∀ x, Covers c.1 c.2.length x → ¬ Covers d.1 d.2.length x) →
      storeAll m bs (b.1 + k) = b.2[k]
  | c :: bs, m, hb, hd => by
      rw [storeAll]
      rcases mem_cons.mp hb with rfl | hb
      · rw [storeAll_apply_of_outside fun d hd' => rel_of_pairwise_cons hd hd' _
          ⟨Nat.le_add_right _ _, by omega⟩, store_apply, getElem?_eq_getElem hk,
          Option.getD_some]
      · exact storeAll_apply_of_mem hk hb hd.of_cons

end Memory
