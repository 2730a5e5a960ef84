import Mathlib.Data.List.Basic

/-!
# Lib/MemCompare — images that compare as the values they stand for

A mem-comparable image is a string whose plain lexicographic comparison says how the values behind
it compare, *whatever is written after it*. `ComparesAs u v o` states this for two images and the
ordering `o` of their values; it is closed under concatenation (`ComparesAs.append`,
`ComparesAs.flatMap`), so a tuple of images compares as its parts do, first difference first.

`Aligned u v` is the part of it that needs no order: two strings that start with `u` and with `v`
agree only if the images themselves agree, and so do the rests.
-/

namespace MemCompare

open List

variable {β ι : Type*}

/-! ## The first difference decides -/

/-- The first ordering of the list that is not `eq`. -/
def thenAll : List Ordering → Ordering
  | [] => .eq
  | o :: os => o.then (thenAll os)

theorem thenAll_eq_eq : ∀ {os : List Ordering}, thenAll os = .eq ↔ ∀ o ∈ os, o = .eq
  | [] => by simp [thenAll]
  | o :: os => by
      rw [thenAll, Ordering.then_eq_eq, thenAll_eq_eq]
      simp

/-! ## Images that compare as an ordering -/

section Compares

variable [Ord β]

/-- **`u` and `v` compare as `o`, whatever follows them.** -/
def ComparesAs (u v : List β) (o : Ordering) : Prop :=
  ∀ s t, compare (u ++ s) (v ++ t) = o.then (compare s t)

variable {u v u' v' : List β} {o o' : Ordering}

theorem ComparesAs.nil : ComparesAs ([] : List β) [] .eq := fun _ _ => rfl

theorem ComparesAs.append (h : ComparesAs u v o) (h' : ComparesAs u' v' o') :
    ComparesAs (u ++ u') (v ++ v') (o.then o') := by
  intro s t
  rw [append_assoc, append_assoc, h, h', Ordering.then_assoc]

/-- A single symbol compares as itself. -/
theorem ComparesAs.singleton (a b : β) : ComparesAs [a] [b] (compare a b) := by
  intro s t
  exact List.compare_cons_cons

/-- **Images of one length compare as strings.** -/
theorem ComparesAs.of_length_eq : ∀ {u v : List β}, u.length = v.length →
    ComparesAs u v (compare u v)
  | [], [], _ => ComparesAs.nil
  | a :: u, b :: v, h => by
      have ih := ComparesAs.of_length_eq (u := u) (v := v) (by simpa using h)
      have := (ComparesAs.singleton a b).append ih
      rwa [List.compare_cons_cons]

theorem ComparesAs.refl [Std.LawfulEqOrd β] (u : List β) : ComparesAs u u .eq := by
  have h := ComparesAs.of_length_eq (rfl : u.length = u.length)
  rwa [Std.LawfulEqOrd.compare_eq_iff_eq.mpr rfl] at h

/-- What both images end with does not matter. -/
theorem ComparesAs.append_same [Std.LawfulEqOrd β] (h : ComparesAs u v o) (s : List β) :
    ComparesAs (u ++ s) (v ++ s) o := by
  have hs := h.append (ComparesAs.refl s)
  rwa [Ordering.then_eq] at hs

/-- Strings whose first symbols differ are compared by these. -/
theorem ComparesAs.of_head_ne {a b : β} (h : compare a b ≠ .eq) :
    ComparesAs (a :: u) (b :: v) (compare a b) := by
  intro s t
  rw [cons_append, cons_append, List.compare_cons_cons]
  cases hc : compare a b <;> first | rfl | exact absurd hc h

theorem ComparesAs.of_head_gt {a b : β} (h : compare a b = .gt) :
    ComparesAs (a :: u) (b :: v) .gt := by
  have hhead := ComparesAs.of_head_ne (u := u) (v := v) (a := a) (b := b) (by simp [h])
  rwa [h] at hhead

/-- Where a string is above another one: at the first symbol or behind it. -/
theorem ComparesAs.of_cons [Std.LawfulEqOrd β] {a b : β} (h : ComparesAs (a :: u) (b :: v) .gt) :
    compare a b = .gt ∨ a = b ∧ ComparesAs u v .gt := by
  have hsplit : ∀ s t, (compare a b).then (compare (u ++ s) (v ++ t)) = .gt := fun s t => by
    have := h s t
    rwa [cons_append, cons_append, List.compare_cons_cons] at this
  cases hab : compare a b with
  | lt => simpa [hab] using hsplit [] []
  | eq =>
    refine .inr ⟨Std.LawfulEqOrd.compare_eq_iff_eq.mp hab, fun s t => ?_⟩
    simpa [hab] using hsplit s t
  | gt => exact .inl rfl

theorem ComparesAs.flatMap {f g : ι → List β} {o : ι → Ordering} :
    ∀ {ps : List ι}, (∀ p ∈ ps, ComparesAs (f p) (g p) (o p)) →
      ComparesAs (ps.flatMap f) (ps.flatMap g) (thenAll (ps.map o))
  | [], _ => ComparesAs.nil
  | p :: ps, h => by
      rw [flatMap_cons, flatMap_cons, map_cons, thenAll]
      exact (h p (by simp)).append
        (ComparesAs.flatMap fun q hq => h q (mem_cons_of_mem _ hq))

/-- No string is above enough greatest symbols. -/
theorem compare_replicate_ne_gt {top : β} (h : ∀ b, compare b top ≠ .gt) :
    ∀ {u : List β} {n : ℕ}, u.length ≤ n → compare u (replicate n top) ≠ .gt
  | [], 0, _ => by simp
  | [], n + 1, _ => by simp [replicate_succ]
  | b :: u, n + 1, hn => by
      have ih := compare_replicate_ne_gt h (u := u) (n := n) (by simpa using hn)
      rw [replicate_succ, List.compare_cons_cons]
      cases hb : compare b top with
      | lt => simp
      | eq => exact ih
      | gt => exact absurd hb (h b)

theorem ComparesAs.compare_eq (h : ComparesAs u v o) : compare u v = o := by
  have h0 := h [] []
  rwa [append_nil, append_nil, List.compare_nil_nil, Ordering.then_eq] at h0

theorem ComparesAs.eq_iff [Std.LawfulEqOrd β] (h : ComparesAs u v o) : u = v ↔ o = .eq := by
  rw [← h.compare_eq, Std.LawfulEqOrd.compare_eq_iff_eq]

end Compares

/-! ## Images that never run into one another -/

section Align

variable {u v u' v' : List β}

/-- **Strings that start with `u` and `v` agree only if `u` and `v` do, and what follows does.** -/
def Aligned (u v : List β) : Prop := ∀ s t, u ++ s = v ++ t → u = v ∧ s = t

theorem ComparesAs.aligned [Ord β] [Std.LawfulEqOrd β] {o : Ordering} (h : ComparesAs u v o) :
    Aligned u v := by
  intro s t he
  have hc : o.then (compare s t) = .eq := by
    rw [← h s t, he]
    exact Std.ReflCmp.compare_self
  obtain ⟨ho, hst⟩ := Ordering.then_eq_eq.mp hc
  exact ⟨h.eq_iff.mpr ho, Std.LawfulEqOrd.compare_eq_iff_eq.mp hst⟩

/-- **Equal tuples of aligned images have equal parts, and equal rests.** -/
theorem Aligned.flatMap_append {f g : ι → List β} : ∀ {ps : List ι} {s t : List β},
    (∀ p ∈ ps, Aligned (f p) (g p)) → ps.flatMap f ++ s = ps.flatMap g ++ t →
      (∀ p ∈ ps, f p = g p) ∧ s = t
  | [], _, _, _, he => ⟨by simp, he⟩
  | p :: ps, s, t, h, he => by
      rw [flatMap_cons, flatMap_cons, append_assoc, append_assoc] at he
      obtain ⟨hp, he'⟩ := h p (by simp) _ _ he
      obtain ⟨hps, hst⟩ :=
        Aligned.flatMap_append (fun q hq => h q (mem_cons_of_mem _ hq)) he'
      exact ⟨forall_mem_cons.mpr ⟨hp, hps⟩, hst⟩

theorem Aligned.flatMap_inj {f g : ι → List β} {ps : List ι}
    (h : ∀ p ∈ ps, Aligned (f p) (g p)) (he : ps.flatMap f = ps.flatMap g) :
    ∀ p ∈ ps, f p = g p :=
  (Aligned.flatMap_append (s := []) (t := []) h (by rw [he])).1

end Align

end MemCompare
