import Mathlib.Data.List.Chain
import Mathlib.Data.List.Nodup

/-!
# Lib/CycleSearch — a depth-first search for a cycle through its start

The search keeps no set of visited nodes, only its depth: from a node it first looks whether an edge
leads back to the start, and then goes down each edge in turn. A search that stays above its limit
is exact — what it finds is a cycle (`isCycle_of_search`), and if it finds nothing there is none
(`not_isCycle_of_search`). That a found path has no node twice is due to the limit: below the second
visit of a node the search would do all it did below the first.
-/

namespace CycleSearch

open List

variable {X : Type*} {next : X → Option (List X)} {start x y : X} {n m : ℕ} {p : List X}
  {r : Option (List X)}

/-- There is an edge from `x` to `y`. A node without a list of successors is not in the graph. -/
def Edge (next : X → Option (List X)) (x y : X) : Prop := ∃ ys, next x = some ys ∧ y ∈ ys

/-- **A cycle through `start`**, by its nodes from `start` on. -/
structure IsCycle (next : X → Option (List X)) (start : X) (p : List X) : Prop where
  head : p.head? = some start
  chain : (p ++ [start]).IsChain (Edge next)
  nodup : p.Nodup

/-! ## The first of several searches -/

/-- The first of the searches below the nodes of a list that does not end with nothing found. -/
def first (f : X → Option (Option (List X))) : List X → Option (Option (List X))
  | [] => some none
  | y :: ys => match f y with
    | some none => first f ys
    | found => found

theorem first_eq_some_none {f : X → Option (Option (List X))} :
    ∀ {ys : List X}, first f ys = some none ↔ ∀ y ∈ ys, f y = some none
  | [] => by simp [first]
  | y :: ys => by
      rw [first, forall_mem_cons]
      rcases hf : f y with _ | _ | p
      · simp
      · simp [first_eq_some_none]
      · simp

theorem exists_of_first {f : X → Option (Option (List X))} :
    ∀ {ys : List X}, first f ys = some (some p) → ∃ y ∈ ys, f y = some (some p)
  | [], h => by simp [first] at h
  | y :: ys, h => by
      rw [first] at h
      rcases hf : f y with _ | _ | q <;> rw [hf] at h
      · exact nomatch h
      · obtain ⟨z, hz, hfz⟩ := exists_of_first h
        exact ⟨z, mem_cons_of_mem _ hz, hfz⟩
      · exact ⟨y, mem_cons_self, hf.trans h⟩

theorem first_mono {f g : X → Option (Option (List X))} (hfg : ∀ y r, f y = some r → g y = some r) :
    ∀ {ys : List X}, first f ys = some r → first g ys = some r
  | [], h => h
  | y :: ys, h => by
      rw [first] at h ⊢
      rcases hf : f y with _ | _ | q <;> rw [hf] at h
      · exact nomatch h
      · rw [hfg y _ hf]
        exact first_mono hfg h
      · rw [hfg y _ hf]
        exact h

/-! ## The search -/

variable [DecidableEq X]

/-- **The search below `x`, `n` nodes deep**: `none` if it gets deeper, else the path it has found,
if any. -/
def search (next : X → Option (List X)) (start : X) : ℕ → X → Option (Option (List X))
  | 0, x => match next x with
    | none => some none
    | some _ => none
  | n + 1, x => match next x with
    | none => some none
    | some ys =>
        if start ∈ ys then some (some [x])
        else (first (search next start n) ys).map (Option.map (x :: ·))

theorem search_of_none (h : next x = none) : search next start n x = some none := by
  cases n <;> simp [search, h]

/-! ## What one level of the search says -/

/-- **Nothing is found below `x`**: no edge leads to the start, and nothing is found below a
successor. -/
theorem search_eq_some_none (h : search next start n x = some none) (he : Edge next x y) :
    y ≠ start ∧ ∃ m, search next start m y = some none := by
  obtain ⟨ys, hys, hy⟩ := he
  cases n with
  | zero => simp [search, hys] at h
  | succ n =>
    simp only [search, hys] at h
    split_ifs at h with hstart
    · exact nomatch h
    · have hfirst : first (search next start n) ys = some none := by simpa using h
      exact ⟨fun hy' => hstart (hy' ▸ hy), n, first_eq_some_none.1 hfirst y hy⟩

/-- **A path is found below `x`**: it is the edge back to the start, or goes on as the path found
below a successor, less deep by one. -/
theorem search_eq_some_some (h : search next start n x = some (some p)) :
    ∃ m, n = m + 1 ∧ ((p = [x] ∧ Edge next x start) ∨
      ∃ y q, p = x :: q ∧ Edge next x y ∧ search next start m y = some (some q)) := by
  cases n with
  | zero => cases hx : next x <;> simp [search, hx] at h
  | succ n =>
    refine ⟨n, rfl, ?_⟩
    cases hx : next x with
    | none => simp [search, hx] at h
    | some ys =>
      simp only [search, hx] at h
      split_ifs at h with hstart
      · simp only [Option.some.injEq] at h
        exact .inl ⟨h.symm, ys, hx, hstart⟩
      · simp only [Option.map_eq_some_iff] at h
        obtain ⟨_, hfirst, q, rfl, rfl⟩ := h
        obtain ⟨y, hy, hq⟩ := exists_of_first hfirst
        exact .inr ⟨y, q, rfl, ⟨ys, hx, hy⟩, hq⟩

/-- **A greater limit does not change what the search ends with.** -/
theorem search_succ : ∀ {n : ℕ} {x : X} {r}, search next start n x = some r →
    search next start (n + 1) x = some r
  | 0, x, r, h => by
      cases hx : next x with
      | none => rwa [search_of_none hx] at h ⊢
      | some ys => simp [search, hx] at h
  | n + 1, x, r, h => by
      cases hx : next x with
      | none => rwa [search_of_none hx] at h ⊢
      | some ys =>
        rw [search, hx] at h ⊢
        dsimp only at h ⊢
        split_ifs at h ⊢
        · exact h
        · obtain ⟨r', hfirst, rfl⟩ := Option.map_eq_some_iff.1 h
          rw [first_mono (fun _ _ => search_succ) hfirst, Option.map_some]

theorem search_mono (hnm : n ≤ m) (h : search next start n x = some r) :
    search next start m x = some r := by
  induction hnm with
  | refl => exact h
  | step _ ih => exact search_succ ih

/-! ## The search is exact -/

theorem head_of_search (h : search next start n x = some (some p)) : p.head? = some x := by
  obtain ⟨m, -, ⟨rfl, -⟩ | ⟨y, q, rfl, -, -⟩⟩ := search_eq_some_some h <;> rfl

theorem chain_of_search : ∀ {n : ℕ} {x : X} {p : List X}, search next start n x = some (some p) →
    (p ++ [start]).IsChain (Edge next) := by
  intro n
  induction n with
  | zero =>
    intro x p h
    obtain ⟨m, hm, -⟩ := search_eq_some_some h
    omega
  | succ n ih =>
    intro x p h
    obtain ⟨m, hm, ⟨rfl, he⟩ | ⟨y, q, rfl, he, hq⟩⟩ := search_eq_some_some h
    · simpa using he
    · obtain rfl : n = m := by omega
      obtain ⟨q', rfl⟩ := head?_eq_some_iff.1 (head_of_search hq)
      exact List.IsChain.cons_cons he (ih hq)

/-- Below each node of a found path the search stays above the limit. -/
theorem exists_search_of_mem : ∀ {n : ℕ} {x : X} {p : List X},
    search next start n x = some (some p) → y ∈ p →
      ∃ m ≤ n, ∃ r, search next start m y = some r := by
  intro n
  induction n with
  | zero =>
    intro x p h _
    obtain ⟨m, hm, -⟩ := search_eq_some_some h
    omega
  | succ n ih =>
    intro x p h hy
    obtain ⟨m, hm, ⟨rfl, he⟩ | ⟨z, q, rfl, he, hq⟩⟩ := search_eq_some_some h
    · obtain rfl := mem_singleton.1 hy
      exact ⟨n + 1, le_rfl, _, h⟩
    · obtain rfl | hy := mem_cons.1 hy
      · exact ⟨n + 1, le_rfl, _, h⟩
      · obtain rfl : n = m := by omega
        obtain ⟨k, hk, hr⟩ := ih hq hy
        exact ⟨k, by omega, hr⟩

/-- **A found path has no node twice.** Take the least limit that is enough below its first node: if
the node came again, a smaller one would do. -/
theorem nodup_of_search : ∀ {n : ℕ} {x : X} {p : List X}, search next start n x = some (some p) →
    p.Nodup := by
  intro n
  induction n using Nat.strong_induction_on with
  | _ n ih =>
    intro x p h
    by_cases hless : ∃ m < n, ∃ r, search next start m x = some r
    · obtain ⟨m, hm, r, hr⟩ := hless
      obtain rfl : r = some p := Option.some.inj ((search_mono hm.le hr).symm.trans h)
      exact ih m hm hr
    · obtain ⟨m, rfl, ⟨rfl, -⟩ | ⟨y, q, rfl, -, hq⟩⟩ := search_eq_some_some h
      · exact nodup_singleton x
      · refine nodup_cons.2 ⟨fun hx => hless ?_, ih m (by omega) hq⟩
        obtain ⟨k, hk, hr⟩ := exists_search_of_mem hq hx
        exact ⟨k, by omega, hr⟩

/-- **What the search finds is a cycle.** -/
theorem isCycle_of_search (h : search next start n start = some (some p)) : IsCycle next start p :=
  ⟨head_of_search h, chain_of_search h, nodup_of_search h⟩

/-- Below a node where nothing is found no path leads to the start. -/
theorem not_isChain_of_search : ∀ {q : List X} {n : ℕ} {x : X},
    search next start n x = some none → ¬(x :: q ++ [start]).IsChain (Edge next)
  | [], n, x, h, hc => by
      have he : Edge next x start := by simpa using hc
      exact (search_eq_some_none h he).1 rfl
  | y :: q, n, x, h, hc => by
      obtain ⟨he, hc⟩ := isChain_cons_cons.1 hc
      obtain ⟨-, m, hm⟩ := search_eq_some_none h he
      exact not_isChain_of_search hm hc

/-- **If the search finds nothing, there is no cycle.** -/
theorem not_isCycle_of_search (h : search next start n start = some none) :
    ¬IsCycle next start p := by
  intro hp
  obtain ⟨q, rfl⟩ := head?_eq_some_iff.1 hp.head
  exact not_isChain_of_search h hp.chain

end CycleSearch
