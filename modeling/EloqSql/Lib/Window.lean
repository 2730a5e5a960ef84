import EloqSql.Lib.MemCompare

/-!
# Lib/Window — the first symbols of strings that are ordered

`window bot n s` is the first `n` symbols of `s`, filled up with a least symbol. Windows of strings
are ordered as the strings are (`window_mono`). If a string is below `m ++ x`, its window may still
be above that of `m` alone, and `window_le_iff` says when.
-/

namespace MemCompare

open List

variable {β : Type*} {bot : β} {n : ℕ} {s t u v m x : List β}

/-- **The first `n` symbols**, filled up with `bot`. -/
def window (bot : β) (n : ℕ) (s : List β) : List β := s.take n ++ replicate (n - s.length) bot

@[simp] theorem window_zero : window bot 0 s = [] := by simp [window]

@[simp] theorem window_nil : window bot n [] = replicate n bot := by simp [window]

@[simp] theorem window_cons (a : β) : window bot (n + 1) (a :: s) = a :: window bot n s := by
  simp [window, Nat.add_sub_add_right]

@[simp] theorem length_window : (window bot n s).length = n := by
  simp only [window, length_append, length_take, length_replicate]
  omega

theorem window_append (h : m.length ≤ n) :
    window bot n (m ++ s) = m ++ window bot (n - m.length) s := by
  simp [window, take_append, take_of_length_le h, Nat.sub_add_eq]

theorem window_of_le (h : n ≤ m.length) : window bot n (m ++ s) = window bot n m := by
  simp only [window, length_append, take_append, Nat.sub_eq_zero_of_le h, take_zero,
    append_nil]
  congr 2
  omega

theorem window_eq_replicate_iff : ∀ {n : ℕ} {s : List β},
    window bot n s = replicate n bot ↔ ∀ i, i < n → s.getD i bot = bot
  | 0, s => by simp
  | n + 1, [] => by simp
  | n + 1, a :: s => by
      rw [window_cons, replicate_succ, List.cons.injEq, window_eq_replicate_iff]
      constructor
      · rintro ⟨rfl, hs⟩ i hi
        cases i with
        | zero => rfl
        | succ i => exact hs i (by omega)
      · exact fun h => ⟨h 0 (by omega), fun i hi => h (i + 1) (by omega)⟩

section Order

variable [Ord β]

theorem replicate_bot_le (hbot : ∀ b, compare bot b ≠ .gt) : ∀ {s : List β},
    compare (replicate s.length bot) s ≠ .gt
  | [] => by simp
  | a :: s => by
      have ih := replicate_bot_le hbot (s := s)
      rw [length_cons, replicate_succ, List.compare_cons_cons]
      cases hb : compare bot a with
      | lt => simp
      | eq => exact ih
      | gt => exact absurd hb (hbot a)

/-- **Windows are ordered as the strings are.** -/
theorem window_mono (hbot : ∀ b, compare bot b ≠ .gt) : ∀ {n : ℕ} {u v : List β},
    compare u v ≠ .gt → compare (window bot n u) (window bot n v) ≠ .gt
  | 0, _, _, _ => by simp
  | n + 1, [], v, _ => by
      have hle := replicate_bot_le hbot (s := window bot (n + 1) v)
      rw [length_window] at hle
      rwa [window_nil]
  | n + 1, a :: u, [], h => absurd rfl h
  | n + 1, a :: u, b :: v, h => by
      rw [List.compare_cons_cons] at h
      rw [window_cons, window_cons, List.compare_cons_cons]
      cases hab : compare a b with
      | lt => simp
      | eq =>
        rw [hab] at h
        exact window_mono hbot h
      | gt =>
        rw [hab] at h
        exact absurd rfl h

/-- A string cut short is not above what the string is not above. -/
theorem le_of_append_le : ∀ {u v : List β}, compare (u ++ x) v ≠ .gt → compare u v ≠ .gt
  | [], [], _ => by simp
  | [], _ :: _, _ => by simp
  | _ :: _, [], h => absurd rfl h
  | a :: u, b :: v, h => by
      rw [cons_append, List.compare_cons_cons] at h
      rw [List.compare_cons_cons]
      cases hab : compare a b with
      | lt => simp
      | eq =>
        rw [hab] at h
        exact le_of_append_le h
      | gt =>
        rw [hab] at h
        exact absurd rfl h

variable [Std.LawfulEqOrd β]

/-- A string that does not go on from `m` is compared with `m` alone. -/
theorem compare_append_of_not_start : ∀ {m t : List β}, ¬ m <+: t →
    compare t (m ++ x) = compare t m
  | [], t, h => absurd ⟨t, rfl⟩ h
  | a :: m, [], _ => rfl
  | a :: m, b :: t, h => by
      rw [cons_append, List.compare_cons_cons, List.compare_cons_cons]
      cases hba : compare b a with
      | lt => rfl
      | gt => rfl
      | eq =>
        obtain rfl := Std.LawfulEqOrd.compare_eq_iff_eq.mp hba
        have hm : ¬ m <+: t := fun hm => h (cons_prefix_cons.2 ⟨rfl, hm⟩)
        exact congrArg _ (compare_append_of_not_start hm)

/-- What is between two strings that start with `m` starts with it too. -/
theorem start_of_between [Std.OrientedOrd β] (hlow : compare (m ++ u) t = .lt)
    (hhigh : compare t (m ++ v) = .lt) : m <+: t := by
  by_contra hm
  have hlow' : compare t (m ++ u) = .gt := by
    rw [Std.OrientedOrd.eq_swap, hlow]
    rfl
  rw [compare_append_of_not_start hm] at hlow' hhigh
  rw [hlow'] at hhigh
  cases hhigh

theorem compare_append_left (m u v : List β) : compare (m ++ u) (m ++ v) = compare u v :=
  (ComparesAs.refl m) u v

/-- **The window of a string below `m ++ x` is not above that of `m`**, unless the string goes on
from `m` within the window, with something else than `bot`. -/
theorem window_le_iff [Std.OrientedOrd β] (hbot : ∀ b, compare bot b ≠ .gt)
    (ht : compare t (m ++ x) = .lt) :
    compare (window bot n t) (window bot n m) ≠ .gt ↔
      n ≤ m.length ∨ ¬ m <+: t ∨ ∀ i, m.length ≤ i → i < n → t.getD i bot = bot := by
  by_cases hm : m <+: t
  swap
  · rw [compare_append_of_not_start hm] at ht
    exact iff_of_true (window_mono hbot (by simp [ht])) (.inr (.inl hm))
  obtain ⟨r, rfl⟩ := hm
  by_cases hn : n ≤ m.length
  · rw [window_of_le hn]
    exact iff_of_true (by simp [Std.ReflCmp.compare_self]) (.inl hn)
  have hle : m.length ≤ n := by omega
  have hwin : window bot n m = m ++ replicate (n - m.length) bot := by
    have hnil : window bot n (m ++ []) = m ++ window bot (n - m.length) [] := window_append hle
    rwa [append_nil, window_nil] at hnil
  have hge := replicate_bot_le hbot (s := window bot (n - m.length) r)
  rw [length_window] at hge
  have hiff : compare (window bot (n - m.length) r) (replicate (n - m.length) bot) ≠ .gt ↔
      window bot (n - m.length) r = replicate (n - m.length) bot := by
    constructor
    · intro h
      rw [← Std.LawfulEqOrd.compare_eq_iff_eq]
      rw [Std.OrientedOrd.eq_swap] at hge
      cases hc : compare (window bot (n - m.length) r) (replicate (n - m.length) bot) with
      | lt => simp [hc] at hge
      | eq => rfl
      | gt => exact absurd hc h
    · intro h
      simp [h, Std.ReflCmp.compare_self]
  rw [window_append hle, hwin, compare_append_left, hiff, window_eq_replicate_iff]
  simp only [hn, prefix_append, not_true, false_or]
  constructor
  · intro h i hi hin
    have hr := h (i - m.length) (by omega)
    rwa [getD_eq_getElem?_getD, List.getElem?_append_right hi, ← getD_eq_getElem?_getD]
  · intro h i hi
    have hr := h (m.length + i) (by omega) (by omega)
    rwa [getD_eq_getElem?_getD, List.getElem?_append_right (by omega),
      Nat.add_sub_cancel_left, ← getD_eq_getElem?_getD] at hr

end Order

end MemCompare
