import Mathlib.Data.List.Basic

/-!
# Lib/Loop — a fallible step for each element of a list

`List.forM` in `EStateM` runs a step for each element and stops at the first that fails, with the
state as that step left it. A loop that succeeds keeps what its steps keep (`invariant`); one that
fails has a first element that fails after all before it have succeeded (`error_split`).

Where a step fails by a test of the state, and no step changes the test of another, the loop fails
exactly if some element fails the test at the start (`ok_iff`).
-/

namespace Loop

open List

variable {α ε σ : Type} {f : α → EStateM ε σ Unit}

theorem forM_cons_eq (f : α → EStateM ε σ Unit) (a : α) (as : List α) (s : σ) :
    ((a :: as).forM f).run s
      = match (f a).run s with
        | .ok _ s₁ => (as.forM f).run s₁
        | .error e s₁ => .error e s₁ := by
  rw [List.forM, EStateM.run_bind]
  cases (f a).run s <;> rfl

theorem forM_cons_ok {a : α} {as : List α} {s s' : σ} : ((a :: as).forM f).run s = .ok () s'
    ↔ ∃ s₁, (f a).run s = .ok () s₁ ∧ (as.forM f).run s₁ = .ok () s' := by
  rw [forM_cons_eq]
  cases h : (f a).run s with
  | ok u s₁ => simp
  | error e s₁ => simp

/-- A loop goes on from where its first elements have come to. -/
theorem forM_append {s' : σ} (ys : List α) : ∀ {xs : List α} {s : σ},
    (xs.forM f).run s = .ok () s' → ((xs ++ ys).forM f).run s = (ys.forM f).run s'
  | [], s, h => by
      obtain ⟨-, rfl⟩ := EStateM.Result.ok.inj h
      rfl
  | a :: xs, s, h => by
      obtain ⟨s₁, ha, hxs⟩ := forM_cons_ok.mp h
      rw [cons_append, forM_cons_eq, ha]
      exact forM_append ys hxs

/-- **A loop that succeeds keeps what its steps keep**, where that may speak of the elements that
are done. -/
theorem invariant {P : List α → σ → Prop}
    (hstep : ∀ done a s s', P done s → (f a).run s = .ok () s' → P (done ++ [a]) s') :
    ∀ {xs done : List α} {s s' : σ}, P done s → (xs.forM f).run s = .ok () s' → P (done ++ xs) s'
  | [], done, s, s', h, hr => by
      obtain ⟨-, rfl⟩ := EStateM.Result.ok.inj hr
      rwa [append_nil]
  | a :: xs, done, s, s', h, hr => by
      obtain ⟨s₁, ha, hxs⟩ := forM_cons_ok.mp hr
      rw [append_cons]
      exact invariant hstep (hstep _ _ _ _ h ha) hxs

/-- **A loop that fails has a first element that fails.** -/
theorem error_split {e : ε} {s' : σ} : ∀ {xs : List α} {s : σ}, (xs.forM f).run s = .error e s' →
    ∃ done a rest s₁, xs = done ++ a :: rest ∧ (done.forM f).run s = .ok () s₁ ∧
      (f a).run s₁ = .error e s'
  | [], s, h => nomatch h
  | a :: xs, s, h => by
      rw [forM_cons_eq] at h
      cases ha : (f a).run s with
      | error e' s₁ =>
        simp only [ha] at h
        exact ⟨[], a, xs, s, rfl, rfl, ha.trans h⟩
      | ok u s₁ =>
        simp only [ha] at h
        obtain ⟨done, b, rest, s₂, rfl, hd, hb⟩ := error_split h
        exact ⟨a :: done, b, rest, s₂, rfl, forM_cons_ok.mpr ⟨s₁, ha, hd⟩, hb⟩

/-- What no step changes the loop does not change. -/
theorem view_eq {ν : Type} (view : σ → ν) : ∀ {xs : List α} {s s' : σ},
    (∀ a ∈ xs, ∀ s s', (f a).run s = .ok () s' → view s' = view s) →
      (xs.forM f).run s = .ok () s' → view s' = view s
  | [], s, s', _, h => by
      obtain ⟨-, rfl⟩ := EStateM.Result.ok.inj h
      rfl
  | a :: xs, s, s', hkeep, h => by
      obtain ⟨s₁, ha, hxs⟩ := forM_cons_ok.mp h
      rw [view_eq view (fun b hb => hkeep b (mem_cons_of_mem a hb)) hxs,
        hkeep a mem_cons_self s s₁ ha]

/-- **A loop does to what belongs to an element what the step of that element does.** -/
theorem step_of_mem {ν : Type} (view : α → σ → ν) {R : α → α → Prop}
    (hkeep : ∀ a b s s', R a b → (f a).run s = .ok () s' → view b s' = view b s)
    (hsymm : ∀ a b, R a b → R b a) {b : α} : ∀ {xs : List α} {s s' : σ}, xs.Pairwise R → b ∈ xs →
      (xs.forM f).run s = .ok () s' →
      ∃ s₁ s₂, view b s₁ = view b s ∧ (f b).run s₁ = .ok () s₂ ∧ view b s' = view b s₂
  | a :: xs, s, s', hR, hb, h => by
      rw [pairwise_cons] at hR
      obtain ⟨s₁, ha, hxs⟩ := forM_cons_ok.mp h
      rcases mem_cons.mp hb with rfl | hb
      · exact ⟨s, s₁, rfl, ha,
          view_eq (view b) (fun c hc t t' => hkeep c b t t' (hsymm b c (hR.1 c hc))) hxs⟩
      · obtain ⟨s₂, s₃, h₂, h₃, h'⟩ := step_of_mem view hkeep hsymm hR.2 hb hxs
        exact ⟨s₂, s₃, h₂.trans (hkeep a b s s₁ (hR.1 b hb) ha), h₃, h'⟩

/-- **A loop whose steps fail by a test succeeds exactly if no element fails it at the start.** -/
theorem ok_iff {fails : α → σ → Prop} {R : α → α → Prop}
    (hok : ∀ a s, (∃ s', (f a).run s = .ok () s') ↔ ¬ fails a s)
    (hkeep : ∀ a b s s', R a b → (f a).run s = .ok () s' → (fails b s' ↔ fails b s)) :
    ∀ {xs : List α} {s : σ}, xs.Pairwise R →
      ((∃ s', (xs.forM f).run s = .ok () s') ↔ ∀ a ∈ xs, ¬ fails a s)
  | [], s, _ => iff_of_true ⟨s, rfl⟩ (by simp)
  | a :: xs, s, hR => by
      rw [pairwise_cons] at hR
      rw [forall_mem_cons, ← hok]
      simp only [forM_cons_ok]
      constructor
      · rintro ⟨s', s₁, ha, hxs⟩
        refine ⟨⟨s₁, ha⟩, fun b hb => ?_⟩
        rw [← hkeep _ _ _ _ (hR.1 b hb) ha]
        exact (ok_iff hok hkeep hR.2).mp ⟨s', hxs⟩ b hb
      · rintro ⟨⟨s₁, ha⟩, hall⟩
        have hrest : ∀ b ∈ xs, ¬ fails b s₁ := fun b hb => by
          rw [hkeep _ _ _ _ (hR.1 b hb) ha]
          exact hall b hb
        obtain ⟨s', hxs⟩ := (ok_iff hok hkeep hR.2).mpr hrest
        exact ⟨s', s₁, ha, hxs⟩

end Loop
