import Mathlib.Order.MinMax
import EloqSql.Lib.MemCompare

/-!
# Lib/Segment — strings of any length cut into segments of one size

Two codes that write a string as segments of `N` payload symbols and one flag symbol, so that the
image says where it ends and compares as the string does.

* `padEncode` compares strings as if each was continued for ever by a fixed pattern: the flag says
  how what is left compares with the pattern, and the image stops as soon as nothing but the pattern
  is left (`comparesAs_padEncode`);
* `countEncode` compares strings lexicographically, the shorter first: the flag counts the payload
  symbols that are in use, and `N + 1` says that more segments follow (`comparesAs_countEncode`).

Both take a number of segments they may write; any number above the length of the string will do.
-/

namespace Segment

open MemCompare List

variable {β : Type*}

/-! ## Strings continued by a pattern -/

/-- The first `n` symbols of `u` continued by `p`. -/
def padTake (p : ℕ → β) : ℕ → List β → List β
  | 0, _ => []
  | n + 1, [] => p 0 :: padTake (fun i => p (i + 1)) n []
  | n + 1, a :: u => a :: padTake (fun i => p (i + 1)) n u

@[simp] theorem length_padTake : ∀ (p : ℕ → β) (n : ℕ) (u : List β), (padTake p n u).length = n
  | _, 0, _ => rfl
  | p, n + 1, [] => by rw [padTake, length_cons, length_padTake]
  | p, n + 1, a :: u => by rw [padTake, length_cons, length_padTake]

theorem padTake_add : ∀ (p : ℕ → β) (m n : ℕ) (u : List β),
    padTake p (m + n) u = padTake p m u ++ padTake (fun i => p (i + m)) n (u.drop m)
  | p, 0, n, u => by simp [padTake]
  | p, m + 1, n, [] => by
      rw [show m + 1 + n = m + n + 1 by omega, padTake, padTake, padTake_add _ m n]
      simp [Nat.add_assoc, Nat.add_comm m 1]
  | p, m + 1, n, a :: u => by
      rw [show m + 1 + n = m + n + 1 by omega, padTake, padTake, padTake_add _ m n,
        drop_succ_cons]
      simp [Nat.add_assoc, Nat.add_comm m 1]

theorem padTake_of_length_le : ∀ (p : ℕ → β) {n : ℕ} {u : List β}, u.length ≤ n →
    padTake p n u = u ++ padTake (fun i => p (i + u.length)) (n - u.length) []
  | p, n, [], _ => by simp
  | p, 0, a :: u, h => nomatch h
  | p, n + 1, a :: u, h => by
      have h' : u.length ≤ n := by simpa using h
      rw [padTake, padTake_of_length_le _ h']
      simp [Nat.add_assoc, Nat.add_sub_add_right]

theorem padTake_of_le_length : ∀ (p : ℕ → β) {n : ℕ} {u : List β}, n ≤ u.length →
    padTake p n u = u.take n
  | p, 0, u, _ => by simp [padTake]
  | p, n + 1, [], h => nomatch h
  | p, n + 1, a :: u, h => by
      rw [padTake, take_succ_cons, padTake_of_le_length _ (by simpa using h)]

theorem padTake_const (z : β) : ∀ (n : ℕ), padTake (fun _ => z) n [] = replicate n z
  | 0 => rfl
  | n + 1 => by rw [padTake, padTake_const z n, replicate_succ]

/-- Continuing a string by some of the pattern changes nothing. -/
theorem padTake_append : ∀ (p : ℕ → β) (n m : ℕ) (u : List β),
    padTake p n (u ++ padTake (fun i => p (i + u.length)) m []) = padTake p n u
  | _, 0, _, _ => by simp [padTake]
  | p, n + 1, m, a :: u => by
      rw [cons_append, padTake, padTake]
      simpa [Nat.add_assoc, Nat.add_comm 1] using padTake_append (fun i => p (i + 1)) n m u
  | p, n + 1, 0, [] => by simp [padTake]
  | p, n + 1, m + 1, [] => by
      have ih := padTake_append (fun i => p (i + 1)) n m []
      simp only [nil_append, length_nil, Nat.add_zero] at ih ⊢
      rw [padTake, padTake, padTake, ih]

/-- **The two strings are one and the same when both are continued by `p`.** -/
def SamePad (p : ℕ → β) (u v : List β) : Prop := ∀ n, padTake p n u = padTake p n v

theorem SamePad.drop {p : ℕ → β} {u v : List β} (h : SamePad p u v) (N : ℕ) :
    SamePad (fun i => p (i + N)) (u.drop N) (v.drop N) := by
  intro n
  have hN := h (N + n)
  rw [padTake_add, padTake_add, h N] at hN
  exact append_cancel_left hN

theorem samePad_append (p : ℕ → β) (u : List β) (m : ℕ) :
    SamePad p (u ++ padTake (fun i => p (i + u.length)) m []) u :=
  fun n => padTake_append p n m u

/-- A string is as good as empty if it only repeats the pad symbol. -/
theorem samePad_const_nil {a : β} {u : List β} : SamePad (fun _ => a) u [] ↔ ∀ x ∈ u, x = a := by
  constructor
  · intro h
    have hn := h u.length
    rw [padTake_of_le_length _ le_rfl, take_length, padTake_const] at hn
    intro x hx
    rw [hn] at hx
    exact eq_of_mem_replicate hx
  · intro h
    have hs := samePad_append (fun _ => a) [] u.length
    rwa [nil_append, padTake_const, ← eq_replicate_iff.mpr ⟨rfl, h⟩] at hs

section Pad

variable [Ord β]

/-- **The comparison of two strings that are both continued by `p`.** -/
def padCompare (p : ℕ → β) (u v : List β) : Ordering :=
  compare (padTake p (max u.length v.length) u) (padTake p (max u.length v.length) v)

theorem compare_padTake_add (p : ℕ → β) (m n : ℕ) (u v : List β) :
    compare (padTake p (m + n) u) (padTake p (m + n) v)
      = (compare (padTake p m u) (padTake p m v)).then
          (compare (padTake (fun i => p (i + m)) n (u.drop m))
            (padTake (fun i => p (i + m)) n (v.drop m))) := by
  rw [padTake_add, padTake_add]
  exact ComparesAs.of_length_eq (by simp) _ _

variable [Std.LawfulEqOrd β]

/-- Any number of symbols that covers both strings shows their comparison. -/
theorem padCompare_eq (p : ℕ → β) {n : ℕ} {u v : List β} (hu : u.length ≤ n)
    (hv : v.length ≤ n) : padCompare p u v = compare (padTake p n u) (padTake p n v) := by
  obtain ⟨k, rfl⟩ := Nat.exists_eq_add_of_le (max_le hu hv)
  rw [compare_padTake_add, drop_of_length_le (le_max_left _ _),
    drop_of_length_le (le_max_right _ _), Std.LawfulEqOrd.compare_eq_iff_eq.mpr rfl,
    Ordering.then_eq]
  rfl

theorem padCompare_congr {p : ℕ → β} {u u' v v' : List β} (hu : SamePad p u u')
    (hv : SamePad p v v') : padCompare p u v = padCompare p u' v' := by
  have hn : ∀ {w : List β}, w ∈ [u, v, u', v'] →
      w.length ≤ u.length + v.length + u'.length + v'.length := by
    intro w hw
    simp only [mem_cons, not_mem_nil, or_false] at hw
    rcases hw with rfl | rfl | rfl | rfl <;> omega
  rw [padCompare_eq p (hn (by simp)) (hn (by simp)), hu, hv,
    ← padCompare_eq p (hn (by simp)) (hn (by simp))]

/-- Strings compare as equal exactly if the pattern makes them the same. -/
theorem padCompare_eq_eq {p : ℕ → β} {u v : List β} : padCompare p u v = .eq ↔ SamePad p u v := by
  constructor
  · intro h n
    have hle := padCompare_eq p (n := max u.length v.length + n) (u := u) (v := v) (by omega)
      (by omega)
    rw [h, eq_comm, Std.LawfulEqOrd.compare_eq_iff_eq, Nat.add_comm, padTake_add,
      padTake_add] at hle
    exact (append_inj hle (by simp)).1
  · intro h
    rw [padCompare, h, Std.LawfulEqOrd.compare_eq_iff_eq]

@[simp] theorem padCompare_self (p : ℕ → β) (u : List β) : padCompare p u u = .eq :=
  Std.LawfulEqOrd.compare_eq_iff_eq.mpr rfl

/-- The first `N` symbols decide, then the rest. -/
theorem padCompare_split (p : ℕ → β) (N : ℕ) (u v : List β) :
    padCompare p u v
      = (compare (padTake p N u) (padTake p N v)).then
          (padCompare (fun i => p (i + N)) (u.drop N) (v.drop N)) := by
  rw [padCompare_eq p (n := N + max u.length v.length) (by omega) (by omega),
    compare_padTake_add, padCompare_eq (n := max u.length v.length) _ (by simp) (by simp)]

theorem padCompare_cons_cons (p : ℕ → β) (a b : β) (u v : List β) :
    padCompare p (a :: u) (b :: v)
      = (compare a b).then (padCompare (fun i => p (i + 1)) u v) := by
  rw [padCompare_split p 1]
  simp [padTake]

theorem padCompare_cons_nil (p : ℕ → β) (a : β) (u : List β) :
    padCompare p (a :: u) [] = (compare a (p 0)).then (padCompare (fun i => p (i + 1)) u []) := by
  rw [padCompare_split p 1]
  simp [padTake]

/-- **Strings that compare differently with the pattern compare with one another likewise.** -/
theorem padCompare_of_pad [Std.TransOrd β] (p : ℕ → β) {u v : List β} :
    (padCompare p u [] = .lt → padCompare p v [] ≠ .lt → padCompare p u v = .lt) ∧
    (padCompare p u [] = .eq → padCompare p v [] = .eq → padCompare p u v = .eq) ∧
    (padCompare p u [] = .eq → padCompare p v [] = .gt → padCompare p u v = .lt) := by
  have hu : u.length ≤ max u.length v.length := le_max_left _ _
  have hv : v.length ≤ max u.length v.length := le_max_right _ _
  rw [padCompare_eq p hu (Nat.zero_le _), padCompare_eq p hv (Nat.zero_le _),
    padCompare_eq p hu hv]
  generalize padTake p (max u.length v.length) u = a
  generalize padTake p (max u.length v.length) v = b
  generalize padTake p (max u.length v.length) [] = c
  refine ⟨fun h1 h2 => ?_, fun h1 h2 => ?_, fun h1 h2 => ?_⟩
  · have h3 : (compare c b).isLE := by
      rw [Std.OrientedOrd.eq_swap, Ordering.isLE_swap, Ordering.isGE_iff_ne_lt]
      exact h2
    exact Std.TransCmp.lt_of_lt_of_isLE h1 h3
  · rw [Std.LawfulEqOrd.compare_eq_iff_eq] at h1 h2 ⊢
    exact h1.trans h2.symm
  · rw [Std.LawfulEqOrd.compare_eq_iff_eq] at h1
    rw [h1]
    exact Std.OrientedCmp.lt_of_gt h2

omit [Std.LawfulEqOrd β] in
theorem padCompare_swap [Std.OrientedOrd β] (p : ℕ → β) (u v : List β) :
    (padCompare p u v).swap = padCompare p v u := by
  unfold padCompare
  rw [max_comm v.length u.length]
  exact Std.OrientedCmp.eq_swap.symm

end Pad

/-! ## Strings of weights -/

section Weights

/-- The pattern that repeats `s` for ever. -/
def cycle (s : List β) (d : β) : ℕ → β := fun i => s.getD (i % s.length) d

theorem cycle_add_length (s : List β) (d : β) :
    (fun i => cycle s d (i + s.length)) = cycle s d := by
  funext i
  rw [cycle, cycle, Nat.add_mod_right]

theorem padTake_nil : ∀ (p : ℕ → β) (n : ℕ), padTake p n [] = (range n).map p
  | _, 0 => rfl
  | p, n + 1 => by
      rw [padTake, padTake_nil _ n, range_succ_eq_map, map_cons, map_map]
      rfl

theorem padTake_cycle (s : List β) (d : β) : padTake (cycle s d) s.length [] = s := by
  rw [padTake_nil]
  refine ext_getElem (by simp) fun i hi hs => ?_
  rw [getElem_map, getElem_range, cycle, Nat.mod_eq_of_lt hs]
  exact (getElem_eq_getD d).symm

variable {α : Type*} {wb : α → List β} {w : ℕ}

theorem length_flatMap_weights (hw : ∀ x, (wb x).length = w) : ∀ (xs : List α),
    (xs.flatMap wb).length = w * xs.length
  | [] => rfl
  | x :: xs => by
      rw [flatMap_cons, length_append, hw, length_flatMap_weights hw xs,
        length_cons, Nat.mul_succ, Nat.add_comm]

theorem take_flatMap_weights (hw : ∀ x, (wb x).length = w) (n : ℕ) (xs : List α) :
    (xs.flatMap wb).take (w * n) = (xs.take n).flatMap wb ∧
      (xs.flatMap wb).drop (w * n) = (xs.drop n).flatMap wb := by
  have happ : xs.flatMap wb = (xs.take n).flatMap wb ++ (xs.drop n).flatMap wb := by
    rw [← flatMap_append, take_append_drop]
  by_cases hn : n ≤ xs.length
  · have hl : ((xs.take n).flatMap wb).length = w * n := by
      rw [length_flatMap_weights hw, length_take, Nat.min_eq_left hn]
    rw [happ]
    exact ⟨take_left' hl, drop_left' hl⟩
  · have hl : (xs.flatMap wb).length ≤ w * n := by
      rw [length_flatMap_weights hw]
      exact Nat.mul_le_mul_left w (by omega)
    rw [take_of_length_le hl, drop_of_length_le hl, take_of_length_le (by omega),
      drop_of_length_le (by omega)]
    exact ⟨rfl, rfl⟩

/-- A string of weights, continued by the weight of `x`, is the weights of the string continued by
`x`. -/
theorem padTake_flatMap (hw : ∀ x, (wb x).length = w) (x : α) (d : β) : ∀ (n : ℕ) (xs : List α),
    padTake (cycle (wb x) d) (w * n) (xs.flatMap wb) = (padTake (fun _ => x) n xs).flatMap wb
  | 0, xs => by simp [padTake]
  | n + 1, [] => by
      have hc : (fun i => cycle (wb x) d (i + w)) = cycle (wb x) d := by
        rw [← hw x]
        exact cycle_add_length (wb x) d
      have h1 : padTake (cycle (wb x) d) w [] = wb x := by
        rw [← hw x]
        exact padTake_cycle (wb x) d
      rw [Nat.mul_succ, Nat.add_comm, padTake_add, hc, flatMap_nil, h1, drop_nil, padTake,
        flatMap_cons, ← padTake_flatMap hw x d n [], flatMap_nil]
  | n + 1, y :: xs => by
      have hc : (fun i => cycle (wb x) d (i + w)) = cycle (wb x) d := by
        rw [← hw x]
        exact cycle_add_length (wb x) d
      rw [Nat.mul_succ, Nat.add_comm, padTake_add, hc, flatMap_cons,
        padTake_of_le_length _ (by simp [hw]), take_left' (hw y), drop_left' (hw y),
        padTake_flatMap hw x d n xs, padTake, flatMap_cons]

theorem take_padTake_nil (p : ℕ → β) {k n : ℕ} (h : k ≤ n) :
    (padTake p n []).take k = padTake p k [] := by
  obtain ⟨j, rfl⟩ := Nat.exists_eq_add_of_le h
  rw [padTake_add, take_left' (by simp)]

/-- Copies of `s`, cut off somewhere, are a stretch of the pattern that repeats it. -/
theorem take_flatten_replicate (s : List β) (d : β) (hs : 0 < s.length) (k : ℕ) :
    (replicate k s).flatten.take k = padTake (cycle s d) k [] := by
  have hw : ∀ _ : Unit, s.length = s.length := fun _ => rfl
  have h := padTake_flatMap hw () d k []
  rw [padTake_const] at h
  rw [← take_padTake_nil (cycle s d) (Nat.le_mul_of_pos_left k hs)]
  exact congrArg (take k) (by simpa [flatMap] using h.symm)

theorem mem_padTake_const {x y : α} : ∀ {n : ℕ} {xs : List α},
    y ∈ padTake (fun _ => x) n xs → y = x ∨ y ∈ xs
  | 0, _, h => absurd h (by simp [padTake])
  | n + 1, [], h => by
      rw [padTake, mem_cons] at h
      rcases h with h | h
      · exact Or.inl h
      · exact mem_padTake_const h
  | n + 1, z :: xs, h => by
      rw [padTake, mem_cons] at h
      rcases h with rfl | h
      · exact Or.inr (by simp)
      · exact (mem_padTake_const h).imp_right (mem_cons_of_mem _)

variable [Ord α] [Ord β] {P : α → Prop}

theorem compare_flatMap (hw : ∀ x, (wb x).length = w)
    (hc : ∀ x y, P x → P y → compare (wb x) (wb y) = compare x y) : ∀ {xs ys : List α},
    xs.length = ys.length → (∀ x ∈ xs, P x) → (∀ y ∈ ys, P y) →
      compare (xs.flatMap wb) (ys.flatMap wb) = compare xs ys
  | [], [], _, _, _ => rfl
  | x :: xs, y :: ys, h, hx, hy => by
      rw [forall_mem_cons] at hx hy
      have hlen : (wb x).length = (wb y).length := (hw x).trans (hw y).symm
      rw [flatMap_cons, flatMap_cons, ComparesAs.of_length_eq hlen, hc x y hx.1 hy.1,
        compare_flatMap hw hc (by simpa using h) hx.2 hy.2, List.compare_cons_cons]

/-- **Strings of weights, continued by the weight of `x`, compare as the strings continued by
`x`.** -/
theorem padCompare_flatMap [Std.LawfulEqOrd β] (hw : ∀ x, (wb x).length = w)
    (hc : ∀ x y, P x → P y → compare (wb x) (wb y) = compare x y) {x : α} (hx : P x) (d : β)
    {xs ys : List α} (hxs : ∀ y ∈ xs, P y) (hys : ∀ y ∈ ys, P y) :
    padCompare (cycle (wb x) d) (xs.flatMap wb) (ys.flatMap wb)
      = padCompare (fun _ => x) xs ys := by
  have hlen : ∀ {zs : List α} {n : ℕ}, zs.length ≤ n → (zs.flatMap wb).length ≤ w * n := by
    intro zs n hn
    rw [length_flatMap_weights hw]
    exact Nat.mul_le_mul_left w hn
  have hP : ∀ {zs : List α} (n : ℕ), (∀ y ∈ zs, P y) → ∀ y ∈ padTake (fun _ => x) n zs, P y := by
    intro zs n hz y hy
    rcases mem_padTake_const hy with rfl | hy
    · exact hx
    · exact hz y hy
  rw [padCompare_eq _ (hlen (le_max_left xs.length ys.length)) (hlen (le_max_right _ _)),
    padTake_flatMap hw, padTake_flatMap hw,
    compare_flatMap hw hc (by simp) (hP _ hxs) (hP _ hys), padCompare]

end Weights

/-! ## Segments that stop at the pattern -/

section PadEncode

variable [Ord β]

/-- A flag symbol for each way what is left can compare with the pattern, in their order. -/
structure Flags (β : Type*) [Ord β] where
  /-- The flag written for an ordering. -/
  flag : Ordering → β
  lt_eq : compare (flag .lt) (flag .eq) = .lt
  eq_gt : compare (flag .eq) (flag .gt) = .lt

theorem Flags.lt_gt [Std.TransOrd β] (f : Flags β) : compare (f.flag .lt) (f.flag .gt) = .lt :=
  Std.TransCmp.lt_trans f.lt_eq f.eq_gt

/-- At most `k` segments of `u`, continued by `p`, up to the one after which only `p` is left. -/
def padEncode (p : ℕ → β) (N : ℕ) (f : Flags β) : ℕ → List β → List β
  | 0, _ => []
  | k + 1, u =>
    padTake p N u ++ f.flag (padCompare p (u.drop N) []) ::
      if padCompare p (u.drop N) [] = .eq then [] else padEncode p N f k (u.drop N)

/-- A string that ends before the `m`-th segment does has no more segments. -/
theorem length_padEncode_le [Std.LawfulEqOrd β] {p : ℕ → β} {N : ℕ} (f : Flags β) :
    ∀ {k m : ℕ} {u : List β}, u.length < m * N → (padEncode p N f k u).length ≤ m * (N + 1)
  | 0, _, _, _ => Nat.zero_le _
  | k + 1, 0, _, h => absurd h (by simp)
  | k + 1, m + 1, u, h => by
      rw [padEncode, length_append, length_cons, length_padTake]
      rw [Nat.succ_mul] at h
      split_ifs with he
      · simp only [length_nil, Nat.succ_mul]
        omega
      · have hN : N < u.length := by
          by_contra hle
          rw [drop_of_length_le (by omega), padCompare_self] at he
          exact he rfl
        have ih := length_padEncode_le (p := p) (N := N) f (k := k) (m := m) (u := u.drop N)
          (by rw [length_drop]; omega)
        rw [Nat.succ_mul]
        omega

/-- Segments end with a flag. -/
theorem getLast_padEncode {p : ℕ → β} {N : ℕ} (f : Flags β) : ∀ (k : ℕ) (u : List β),
    ∃ o, (padEncode p N f (k + 1) u).getLast? = some (f.flag o)
  | 0, u => ⟨padCompare p (u.drop N) [], by simp [padEncode]⟩
  | k + 1, u => by
      obtain ⟨o, ho⟩ := getLast_padEncode (p := p) (N := N) f k (u.drop N)
      rw [padEncode, List.getLast?_append]
      split_ifs
      · exact ⟨padCompare p (u.drop N) [], rfl⟩
      · exact ⟨o, by rw [List.getLast?_cons, ho]; rfl⟩

variable [Std.TransOrd β] [Std.LawfulEqOrd β]

theorem flag_comparesAs (p : ℕ → β) (f : Flags β) {u v r r' : List β}
    (h : padCompare p u [] ≠ padCompare p v []) :
    ComparesAs (f.flag (padCompare p u []) :: r) (f.flag (padCompare p v []) :: r')
      (padCompare p u v) := by
  obtain ⟨hlt, -, hgt⟩ := padCompare_of_pad p (u := u) (v := v)
  obtain ⟨hlt', -, hgt'⟩ := padCompare_of_pad p (u := v) (v := u)
  -- the flags stand in the order of the two comparisons, and so do the strings
  have key : ∀ {a b : β} {o : Ordering}, padCompare p u v = o → o ≠ .eq → compare a b = o →
      ComparesAs (a :: r) (b :: r') (padCompare p u v) := by
    intro a b o ho hne hab
    rw [ho, ← hab]
    exact ComparesAs.of_head_ne (hab ▸ hne)
  have flip : ∀ {a b : β}, compare b a = .lt → compare a b = .gt := fun hba =>
    Std.OrientedCmp.gt_of_lt hba
  have back : padCompare p v u = .lt → padCompare p u v = .gt := fun hvu => by
    rw [← padCompare_swap, hvu]
    rfl
  rcases hu : padCompare p u [] with _ | _ | _ <;> rcases hv : padCompare p v [] with _ | _ | _
  case lt.lt | eq.eq | gt.gt => exact absurd (hu.trans hv.symm) h
  case lt.eq => exact key (hlt hu (by simp [hv])) (by simp) f.lt_eq
  case lt.gt => exact key (hlt hu (by simp [hv])) (by simp) f.lt_gt
  case eq.gt => exact key (hgt hu hv) (by simp) f.eq_gt
  case eq.lt => exact key (back (hlt' hv (by simp [hu]))) (by simp) (flip f.lt_eq)
  case gt.lt => exact key (back (hlt' hv (by simp [hu]))) (by simp) (flip f.lt_gt)
  case gt.eq => exact key (back (hgt' hv hu)) (by simp) (flip f.eq_gt)

omit [Std.TransOrd β] in
/-- What is left after a segment is shorter, unless it is the pattern. -/
theorem length_drop_lt {p : ℕ → β} {N k : ℕ} (hN : 0 < N) {w : List β} (hw : w.length < k + 1)
    (hne : padCompare p (w.drop N) [] ≠ .eq) : (w.drop N).length < k := by
  have hpos : 0 < (w.drop N).length := by
    rw [length_pos_iff]
    intro h0
    exact hne (by rw [h0]; simp)
  simp only [length_drop] at hpos ⊢
  omega

/-- **The image compares as the strings continued by the pattern**, if the pattern repeats with
every segment. The induction is on the number of segments. -/
theorem comparesAs_padEncode {p : ℕ → β} {N : ℕ} (f : Flags β) (hN : 0 < N)
    (hp : (fun i => p (i + N)) = p) : ∀ {k : ℕ} {u v : List β}, u.length < k → v.length < k →
      ComparesAs (padEncode p N f k u) (padEncode p N f k v) (padCompare p u v)
  | 0, _, _, hu, _ => nomatch hu
  | k + 1, u, v, hu, hv => by
      rw [padCompare_split p N, hp, padEncode, padEncode]
      refine (ComparesAs.of_length_eq (by simp)).append ?_
      by_cases h : padCompare p (u.drop N) [] = padCompare p (v.drop N) []
      · rw [h]
        by_cases he : padCompare p (v.drop N) [] = .eq
        · rw [if_pos he, if_pos he, (padCompare_of_pad p).2.1 (h.trans he) he]
          exact ComparesAs.refl _
        · rw [if_neg he, if_neg he]
          exact (ComparesAs.refl [_]).append
            (comparesAs_padEncode f hN hp (length_drop_lt hN hu (h ▸ he))
              (length_drop_lt hN hv he))
      · exact flag_comparesAs p f h

omit [Std.TransOrd β] in
/-- **Strings that the pattern makes the same have the same image.** The induction is on the number
of segments. -/
theorem padEncode_congr {p : ℕ → β} {N : ℕ} (f : Flags β) (hN : 0 < N)
    (hp : (fun i => p (i + N)) = p) : ∀ {k k' : ℕ} {u v : List β}, u.length < k → v.length < k' →
      SamePad p u v → padEncode p N f k u = padEncode p N f k' v
  | 0, _, _, _, hu, _, _ => nomatch hu
  | _ + 1, 0, _, _, _, hv, _ => nomatch hv
  | k + 1, k' + 1, u, v, hu, hv, h => by
      have hd := h.drop N
      rw [hp] at hd
      rw [padEncode, padEncode, h, padCompare_congr hd (fun _ => rfl)]
      by_cases he : padCompare p (v.drop N) [] = .eq
      · rw [if_pos he, if_pos he]
      · have he' : padCompare p (u.drop N) [] ≠ .eq := by
          rwa [padCompare_congr hd (fun _ => rfl)]
        rw [if_neg he, if_neg he, padEncode_congr f hN hp
          (length_drop_lt hN hu he') (length_drop_lt hN hv he) hd]

end PadEncode

/-! ## Segments that count -/

section CountEncode

variable [Ord β] {z : β}

/-- At most `k` segments of `u`: payload filled up with `z`, then the number of symbols in use, or
`N + 1` if more follow. -/
def countEncode (z : β) (count : ℕ → β) (N : ℕ) : ℕ → List β → List β
  | 0, _ => []
  | k + 1, u =>
    padTake (fun _ => z) N u ++ count (min u.length (N + 1)) ::
      if u.length ≤ N then [] else countEncode z count N k (u.drop N)

omit [Ord β] in
theorem length_countEncode_le {count : ℕ → β} {N : ℕ} :
    ∀ {k m : ℕ} {u : List β}, u.length ≤ (m + 1) * N →
      (countEncode z count N k u).length ≤ (m + 1) * (N + 1)
  | 0, _, _, _ => Nat.zero_le _
  | k + 1, m, u, h => by
      rw [countEncode, length_append, length_cons, length_padTake]
      split_ifs with hle
      · simp only [length_nil, Nat.succ_mul]
        omega
      · obtain _ | m := m
        · omega
        · rw [Nat.succ_mul] at h
          have hdrop : (u.drop N).length ≤ (m + 1) * N := by
            rw [length_drop]
            omega
          have ih : (countEncode z count N k (u.drop N)).length ≤ _ := length_countEncode_le hdrop
          rw [Nat.succ_mul (m + 1)]
          omega

omit [Ord β] in
/-- Segments end with a count. -/
theorem getLast_countEncode {count : ℕ → β} {N : ℕ} : ∀ (k : ℕ) (u : List β),
    ∃ n ≤ N + 1, (countEncode z count N (k + 1) u).getLast? = some (count n)
  | 0, u => ⟨min u.length (N + 1), Nat.min_le_right _ _, by simp [countEncode]⟩
  | k + 1, u => by
      obtain ⟨n, hn, hlast⟩ := getLast_countEncode (N := N) k (u.drop N)
      rw [countEncode, List.getLast?_append]
      split_ifs
      · exact ⟨min u.length (N + 1), Nat.min_le_right _ _, rfl⟩
      · exact ⟨n, hn, by rw [List.getLast?_cons, hlast]; rfl⟩

theorem compare_padTake_nil_ne_gt [Std.LawfulEqOrd β] (hz : ∀ b, compare z b ≠ .gt) :
    ∀ (N : ℕ) (v : List β), compare (padTake (fun _ => z) N []) (padTake (fun _ => z) N v) ≠ .gt
  | 0, _ => by simp [padTake]
  | N + 1, [] => by rw [Std.LawfulEqOrd.compare_eq_iff_eq.mpr rfl]; simp
  | N + 1, b :: v => by
      rw [padTake, padTake, List.compare_cons_cons]
      rcases h : compare z b with _ | _ | _
      · simp
      · exact compare_padTake_nil_ne_gt hz N v
      · exact absurd h (hz b)

theorem compare_nil_cons_split [Std.LawfulEqOrd β] (hz : ∀ b, compare z b ≠ .gt) (N : ℕ) (b : β)
    (v : List β) (o : Ordering) :
    (compare (padTake (fun _ => z) (N + 1) []) (padTake (fun _ => z) (N + 1) (b :: v))).then
      ((compare (min 0 (N + 2)) (min (v.length + 1) (N + 2))).then o) = .lt := by
  have hlen : compare (min 0 (N + 2)) (min (v.length + 1) (N + 2)) = .lt := by
    rw [Nat.compare_eq_lt]
    omega
  rw [hlen]
  have hne := compare_padTake_nil_ne_gt hz (N + 1) (b :: v)
  rcases h : compare (padTake (fun _ => z) (N + 1) []) (padTake (fun _ => z) (N + 1) (b :: v))
    with _ | _ | _
  · rfl
  · rfl
  · exact absurd h hne

variable [Std.TransOrd β] [Std.LawfulEqOrd β]

/-- **Payload, then count, then the rest decide**: filling up with the least symbol leaves only
ties, and the count breaks them. -/
theorem compare_split (hz : ∀ b, compare z b ≠ .gt) : ∀ (N : ℕ) (u v : List β),
    compare u v = (compare (padTake (fun _ => z) N u) (padTake (fun _ => z) N v)).then
      ((compare (min u.length (N + 1)) (min v.length (N + 1))).then
        (compare (u.drop N) (v.drop N)))
  | 0, [], [] => rfl
  | 0, [], b :: v => by simp [padTake, Nat.compare_eq_lt.mpr]
  | 0, a :: u, [] => by simp [padTake, Nat.compare_eq_gt.mpr]
  | 0, a :: u, b :: v => by simp [padTake]
  | N + 1, [], [] => by
      rw [Std.LawfulEqOrd.compare_eq_iff_eq.mpr (rfl : padTake (fun _ => z) (N + 1) [] = _)]
      simp
  | N + 1, [], b :: v => (compare_nil_cons_split hz N b v _).symm
  | N + 1, a :: u, [] => by
      have h := congrArg Ordering.swap (compare_nil_cons_split hz N a u
        (compare (List.drop (N + 1) []) (List.drop (N + 1) (a :: u))))
      rw [Ordering.swap_then, Ordering.swap_then, ← Std.OrientedOrd.eq_swap,
        ← Std.OrientedOrd.eq_swap, ← Std.OrientedOrd.eq_swap] at h
      exact h.symm
  | N + 1, a :: u, b :: v => by
      have hmin : ∀ n, min (n + 1) (N + 1 + 1) = min n (N + 1) + 1 := by omega
      have hcmp : ∀ m n : ℕ, compare (m + 1) (n + 1) = compare m n := by
        intro m n
        simp only [Nat.compare_eq_ite_lt]
        simp
      rw [List.compare_cons_cons, compare_split hz N u v, padTake, padTake,
        List.compare_cons_cons, Ordering.then_assoc, length_cons, length_cons, hmin,
        hmin, hcmp]
      rfl

/-- **The counted image compares as the strings do.** The induction is on the number of
segments. -/
theorem comparesAs_countEncode {count : ℕ → β} {N : ℕ} (hN : 0 < N)
    (hz : ∀ b, compare z b ≠ .gt)
    (hcount : ∀ i j, i ≤ N + 1 → j ≤ N + 1 → compare (count i) (count j) = compare i j) :
    ∀ {k : ℕ} {u v : List β}, u.length < k → v.length < k →
      ComparesAs (countEncode z count N k u) (countEncode z count N k v) (compare u v)
  | 0, _, _, hu, _ => nomatch hu
  | k + 1, u, v, hu, hv => by
      rw [compare_split hz N u v, countEncode, countEncode]
      refine (ComparesAs.of_length_eq (by simp)).append ?_
      have hc := hcount _ _ (Nat.min_le_right u.length (N + 1)) (Nat.min_le_right v.length (N + 1))
      by_cases h : min u.length (N + 1) = min v.length (N + 1)
      · rw [h, Nat.compare_eq_eq.mpr rfl]
        by_cases hle : v.length ≤ N
        · have hle' : u.length ≤ N := by omega
          rw [if_pos hle, if_pos hle', drop_of_length_le hle, drop_of_length_le hle']
          exact ComparesAs.refl _
        · have hle' : ¬ u.length ≤ N := by omega
          rw [if_neg hle, if_neg hle']
          exact (ComparesAs.refl [_]).append (comparesAs_countEncode hN hz hcount
            (by rw [length_drop]; omega) (by rw [length_drop]; omega))
      · have hne : compare (min u.length (N + 1)) (min v.length (N + 1)) ≠ .eq := by
          rwa [Ne, Nat.compare_eq_eq]
        have hdec : (compare (min u.length (N + 1)) (min v.length (N + 1))).then
            (compare (u.drop N) (v.drop N))
              = compare (min u.length (N + 1)) (min v.length (N + 1)) := by
          cases hcc : compare (min u.length (N + 1)) (min v.length (N + 1)) <;>
            first | rfl | exact absurd hcc hne
        rw [hdec, ← hc]
        exact ComparesAs.of_head_ne (by rwa [hc])

end CountEncode

end Segment
