import Mathlib.Data.List.Basic

/-!
# Lib/Pattern — patterns of literals and repeated classes

A pattern is a sequence of pieces: a literal, or one or more letters of a class, which a group also
captures. `Matches` is the relation a pattern stands for; `exec` is the backtracking matcher, which
takes each repetition as long as it can and gives up letters while the rest does not match. The
matcher finds a match exactly when there is one, and what it captures is a match
(`matches_of_exec`, `exec_isSome_of_matches`). Equal texts are cut alike at their first and at their
last separator (`split_first`, `split_last`).
-/

namespace Pattern

open List

variable {α : Type*} {β : Type*}

/-- **A piece of a pattern.** -/
inductive Piece (α : Type*)
  /-- The letters themselves. -/
  | lit (l : List α)
  /-- One or more letters of a class. -/
  | many (p : α → Bool)
  /-- One or more letters of a class, captured. -/
  | group (p : α → Bool)

/-- **A text matches a pattern**, with what its groups capture. -/
inductive Matches : List (Piece α) → List α → List (List α) → Prop
  | nil : Matches [] [] []
  | lit {ps s cs} (l : List α) : Matches ps s cs → Matches (.lit l :: ps) (l ++ s) cs
  | many {ps s cs} {p : α → Bool} (w : List α) : w ≠ [] → (∀ a ∈ w, p a) → Matches ps s cs →
      Matches (.many p :: ps) (w ++ s) cs
  | group {ps s cs} {p : α → Bool} (w : List α) : w ≠ [] → (∀ a ∈ w, p a) → Matches ps s cs →
      Matches (.group p :: ps) (w ++ s) (w :: cs)

/-! ## The matcher -/

/-- The first of `f n, …, f 1` that succeeds. -/
def firstFrom (f : ℕ → Option β) : ℕ → Option β
  | 0 => none
  | n + 1 => (f (n + 1)).or (firstFrom f n)

/-- **The matcher**: the captures of the first match found. -/
def exec [DecidableEq α] : List (Piece α) → List α → Option (List (List α))
  | [], s => if s = [] then some [] else none
  | .lit l :: ps, s => if l <+: s then exec ps (s.drop l.length) else none
  | .many p :: ps, s => firstFrom (fun n => exec ps (s.drop n)) (s.takeWhile p).length
  | .group p :: ps, s =>
      firstFrom (fun n => (exec ps (s.drop n)).map (s.take n :: ·)) (s.takeWhile p).length

theorem firstFrom_eq_some {f : ℕ → Option β} {b : β} :
    ∀ {n : ℕ}, firstFrom f n = some b → ∃ k, 0 < k ∧ k ≤ n ∧ f k = some b
  | 0, h => by simp [firstFrom] at h
  | n + 1, h => by
      rcases Option.or_eq_some_iff.1 h with h | ⟨-, h⟩
      · exact ⟨n + 1, by omega, Nat.le_refl _, h⟩
      · obtain ⟨k, hk, hn, he⟩ := firstFrom_eq_some h
        exact ⟨k, hk, by omega, he⟩

theorem isSome_firstFrom {f : ℕ → Option β} {k : ℕ} (h0 : 0 < k) (hk : (f k).isSome) :
    ∀ {n : ℕ}, k ≤ n → (firstFrom f n).isSome
  | 0, h => by omega
  | n + 1, h => by
      rw [firstFrom, Option.isSome_or]
      rcases Nat.eq_or_lt_of_le h with rfl | hlt
      · rw [hk, Bool.true_or]
      · rw [isSome_firstFrom h0 hk (Nat.lt_succ_iff.1 hlt), Bool.or_true]

/-- What a class repeated `k` times takes: the first `k` letters, all of the class. -/
theorem take_of_le_takeWhile {p : α → Bool} {s : List α} {k : ℕ} (h0 : 0 < k)
    (hk : k ≤ (s.takeWhile p).length) : s.take k ≠ [] ∧ ∀ a ∈ s.take k, p a := by
  have htake : s.take k = (s.takeWhile p).take k := by
    conv_lhs => rw [← takeWhile_append_dropWhile (p := p) (l := s)]
    rw [take_append_of_le_length hk]
  refine ⟨fun h => ?_, fun a ha => ?_⟩
  · have := congrArg length (htake ▸ h)
    simp only [length_take, length_nil] at this
    omega
  · rw [htake] at ha
    exact all_eq_true.1 all_takeWhile a (mem_of_mem_take ha)

/-- **What the matcher captures is a match.** -/
theorem matches_of_exec [DecidableEq α] :
    ∀ {ps : List (Piece α)} {s : List α} {cs}, exec ps s = some cs → Matches ps s cs
  | [], s, cs, h => by
      rw [exec] at h
      split at h
      · rename_i hs
        rw [hs, ← Option.some.inj h]
        exact .nil
      · simp at h
  | .lit l :: ps, s, cs, h => by
      rw [exec] at h
      split at h
      · rename_i hs
        obtain ⟨t, rfl⟩ := hs
        rw [drop_left] at h
        exact .lit l (matches_of_exec h)
      · simp at h
  | .many p :: ps, s, cs, h => by
      obtain ⟨k, h0, hk, he⟩ := firstFrom_eq_some h
      obtain ⟨hne, hall⟩ := take_of_le_takeWhile h0 hk
      have := Matches.many (s.take k) hne hall (matches_of_exec he)
      rwa [take_append_drop] at this
  | .group p :: ps, s, cs, h => by
      obtain ⟨k, h0, hk, he⟩ := firstFrom_eq_some h
      obtain ⟨hne, hall⟩ := take_of_le_takeWhile h0 hk
      obtain ⟨cs', hrest, rfl⟩ := Option.map_eq_some_iff.1 he
      have := Matches.group (s.take k) hne hall (matches_of_exec hrest)
      rwa [take_append_drop] at this

/-- A repetition that matches is one of those the matcher tries. -/
theorem length_le_takeWhile {p : α → Bool} {w s : List α} (hall : ∀ a ∈ w, p a) :
    w.length ≤ ((w ++ s).takeWhile p).length := by
  rw [takeWhile_append_of_pos hall, length_append]
  exact Nat.le_add_right _ _

/-- **The matcher finds a match when there is one.** -/
theorem exec_isSome_of_matches [DecidableEq α] {ps : List (Piece α)} {s : List α} {cs}
    (h : Matches ps s cs) : (exec ps s).isSome := by
  induction h with
  | nil => rfl
  | lit l _ ih => simpa [exec] using ih
  | many w hne hall _ ih =>
    refine isSome_firstFrom (length_pos_iff.2 hne) ?_ (length_le_takeWhile hall)
    rw [drop_left]
    exact ih
  | group w hne hall _ ih =>
    refine isSome_firstFrom (length_pos_iff.2 hne) ?_ (length_le_takeWhile hall)
    rw [drop_left, Option.isSome_map]
    exact ih

/-! ## Texts cut at a separator -/

/-- **Equal texts split alike at their first separator.** -/
theorem split_first {a : α} {u v u' v' : List α} (hu : a ∉ u) (hu' : a ∉ u')
    (h : u ++ a :: v = u' ++ a :: v') : u = u' ∧ v = v' := by
  induction u generalizing u' with
  | nil =>
    cases u' with
    | nil => exact ⟨rfl, (List.cons.inj h).2⟩
    | cons x u' => exact absurd ((List.cons.inj h).1 ▸ mem_cons_self) hu'
  | cons x u ih =>
    cases u' with
    | nil => exact absurd ((List.cons.inj h).1 ▸ mem_cons_self) hu
    | cons y u' =>
      obtain ⟨rfl, htail⟩ := List.cons.inj h
      obtain ⟨rfl, rfl⟩ := ih (fun hm => hu (mem_cons_of_mem _ hm))
        (fun hm => hu' (mem_cons_of_mem _ hm)) htail
      exact ⟨rfl, rfl⟩

/-- **Equal texts split alike at their last separator.** -/
theorem split_last {a : α} {u v u' v' : List α} (hv : a ∉ v) (hv' : a ∉ v')
    (h : u ++ a :: v = u' ++ a :: v') : u = u' ∧ v = v' := by
  have hrev := congrArg reverse h
  simp only [reverse_append, reverse_cons, append_assoc, singleton_append]
    at hrev
  obtain ⟨h1, h2⟩ := split_first (by simpa using hv) (by simpa using hv') hrev
  exact ⟨reverse_injective h2, reverse_injective h1⟩

end Pattern
