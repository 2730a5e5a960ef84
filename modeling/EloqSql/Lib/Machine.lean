import Mathlib.Algebra.BigOperators.Group.Finset.Piecewise
import Mathlib.Algebra.Order.BigOperators.Group.Finset
import Mathlib.Data.Fintype.Basic

/-!
# Lib/Machine — machines whose events may be disabled

A machine takes an event in a state and goes to the next state, or the event is disabled there. A
run is a list of events, each enabled where it happens. A property is `Safe` along a run if every
state of the run has it, and the run `Meets` a condition if every step does. A property that the
steps within the condition keep is safe along the runs within it (`safe_of_meets`); where a step
outside of the condition breaks it at once, these are all the runs it is safe along
(`safe_iff_meets`). A relation that the steps of two machines keep holds along their runs
(`exec_rel`). Where the state holds one place for each of finitely many agents, `tally` adds up the
weights of their places and `agents` counts those at places of a kind.
-/

namespace Machine

variable {σ ε : Type*} {step : σ → ε → Option σ} {C : σ → ε → Prop} {I P : σ → Prop}

/-- **The state after a run**, if every event is enabled. -/
def exec (step : σ → ε → Option σ) : σ → List ε → Option σ
  | s, [] => some s
  | s, e :: es => (step s e).bind fun s' => exec step s' es

/-- **Every state of a run has a property.** -/
def Safe (step : σ → ε → Option σ) (P : σ → Prop) : σ → List ε → Prop
  | s, [] => P s
  | s, e :: es => P s ∧ ∀ s', step s e = some s' → Safe step P s' es

/-- **Every step of a run meets a condition.** -/
def Meets (step : σ → ε → Option σ) (C : σ → ε → Prop) : σ → List ε → Prop
  | _, [] => True
  | s, e :: es => ∀ s', step s e = some s' → C s e ∧ Meets step C s' es

theorem meets_cons_iff {s s' : σ} {e : ε} {es : List ε} (h : step s e = some s') :
    Meets step C s (e :: es) ↔ C s e ∧ Meets step C s' es :=
  ⟨fun hm => hm s' h, fun hm _ hs => Option.some.inj (h.symm.trans hs) ▸ hm⟩

/-- Whether a run meets a condition is seen by running it. -/
instance decidableMeets [∀ s e, Decidable (C s e)] :
    ∀ (s : σ) (es : List ε), Decidable (Meets step C s es)
  | _, [] => isTrue trivial
  | s, e :: es =>
    match h : step s e with
    | none => isTrue fun _ hs => nomatch h.symm.trans hs
    | some s' =>
      have := decidableMeets s' es
      decidable_of_iff _ (meets_cons_iff h).symm

theorem Safe.head {s : σ} : ∀ {es : List ε}, Safe step P s es → P s
  | [], h => h
  | _ :: _, h => h.1

/-- **What every step within the condition keeps is safe along the runs within it.** -/
theorem safe_of_meets (hP : ∀ s, I s → P s)
    (hkeep : ∀ s e s', I s → C s e → step s e = some s' → I s') :
    ∀ {es : List ε} {s : σ}, I s → Meets step C s es → Safe step P s es
  | [], s, hI, _ => hP s hI
  | e :: es, s, hI, hm => by
      refine ⟨hP s hI, fun s' hs => ?_⟩
      obtain ⟨hc, hm⟩ := hm s' hs
      exact safe_of_meets hP hkeep (hkeep s e s' hI hc hs) hm

/-- **What every step keeps is safe along every run.** -/
theorem safe_of_step (hP : ∀ s, I s → P s) (hkeep : ∀ s e s', I s → step s e = some s' → I s') :
    ∀ (es : List ε) {s : σ}, I s → Safe step P s es
  | [], s, hI => hP s hI
  | e :: es, s, hI => ⟨hP s hI, fun s' hs => safe_of_step hP hkeep es (hkeep s e s' hI hs)⟩

/-- The state after a run within the condition has the invariant. -/
theorem exec_of_meets (hkeep : ∀ s e s', I s → C s e → step s e = some s' → I s') :
    ∀ {es : List ε} {s s' : σ}, I s → Meets step C s es → exec step s es = some s' → I s'
  | [], _, _, hI, _, he => Option.some.inj he ▸ hI
  | e :: es, s, s', hI, hm, he => by
      obtain ⟨t, ht, he⟩ := Option.bind_eq_some_iff.1 he
      obtain ⟨hc, hm⟩ := hm t ht
      exact exec_of_meets hkeep (hkeep s e t hI hc ht) hm he

/-- **Where every event is enabled** the state after a run is the fold of the steps. -/
theorem foldl_of_meets {f : σ → ε → σ} (hkeep : ∀ s e, I s → C s e → I (f s e)) :
    ∀ {es : List ε} {s : σ}, I s → Meets (fun s e => some (f s e)) C s es → I (es.foldl f s)
  | [], _, hI, _ => hI
  | e :: es, s, hI, hm => by
      obtain ⟨hc, hm⟩ := hm (f s e) rfl
      rw [List.foldl_cons]
      exact foldl_of_meets hkeep (hkeep s e hI hc) hm

/-- **A condition that implies another one**, in the states that the first keeps to. -/
theorem meets_of_meets {D : σ → ε → Prop} (hstep : ∀ s e s', I s → C s e → step s e = some s' →
    D s e ∧ I s') : ∀ {es : List ε} {s : σ}, I s → Meets step C s es → Meets step D s es
  | [], _, _, _ => trivial
  | e :: es, s, hI, hm => fun s' hs => by
      obtain ⟨hc, hm⟩ := hm s' hs
      obtain ⟨hd, hI'⟩ := hstep s e s' hI hc hs
      exact ⟨hd, meets_of_meets hstep hI' hm⟩

theorem exec_append : ∀ {es fs : List ε} {s s' : σ}, exec step s es = some s' →
    exec step s (es ++ fs) = exec step s' fs
  | [], _, _, _, he => Option.some.inj he ▸ rfl
  | e :: es, fs, s, s', he => by
      obtain ⟨t, ht, he⟩ := Option.bind_eq_some_iff.1 he
      rw [List.cons_append, exec, ht, Option.bind_some, exec_append he]

/-- The end of a run meets the condition from where its beginning has come to. -/
theorem meets_of_append : ∀ {es fs : List ε} {s s' : σ}, exec step s es = some s' →
    Meets step C s (es ++ fs) → Meets step C s' fs
  | [], _, _, _, he, hm => Option.some.inj he ▸ hm
  | e :: es, fs, s, s', he, hm => by
      obtain ⟨t, ht, he⟩ := Option.bind_eq_some_iff.1 he
      exact meets_of_append he (hm t ht).2

/-- **The runs within the condition are the runs the property is safe along**, where a step outside
of the condition breaks the property. -/
theorem safe_iff_meets (hP : ∀ s, I s → P s)
    (hkeep : ∀ s e s', I s → C s e → step s e = some s' → I s')
    (hbreak : ∀ s e s', I s → ¬ C s e → step s e = some s' → ¬ P s') :
    ∀ {es : List ε} {s : σ}, I s → (Safe step P s es ↔ Meets step C s es)
  | [], s, hI => ⟨fun _ => trivial, fun _ => hP s hI⟩
  | e :: es, s, hI => by
      refine ⟨fun h s' hs => ?_, fun h => safe_of_meets hP hkeep hI h⟩
      have htail := h.2 s' hs
      have hc : C s e := by
        by_contra hc
        exact hbreak s e s' hI hc hs htail.head
      exact ⟨hc, (safe_iff_meets hP hkeep hbreak (hkeep s e s' hI hc hs)).1 htail⟩

/-- A run that ends in a state without the property is not safe. -/
theorem not_safe_of_exec : ∀ {es : List ε} {s s' : σ}, exec step s es = some s' → ¬ P s' →
    ¬ Safe step P s es
  | [], s, s', h, hP, hs => hP (Option.some.inj h ▸ hs)
  | e :: es, s, s', h, hP, hs => by
      obtain ⟨t, ht, h⟩ := Option.bind_eq_some_iff.1 h
      exact not_safe_of_exec h hP (hs.2 t ht)

/-- **Machines whose steps keep a relation keep it along every run.** -/
theorem exec_rel {τ : Type*} {step' : τ → ε → Option τ} {R : σ → τ → Prop}
    (hstep : ∀ {s t} e, R s t → Option.Rel R (step s e) (step' t e)) :
    ∀ (es : List ε) {s : σ} {t : τ}, R s t → Option.Rel R (exec step s es) (exec step' t es)
  | [], _, _, h => .some h
  | e :: es, s, t, h => by
      have hrel := hstep e h
      rw [exec, exec]
      generalize step s e = o, step' t e = o' at hrel
      cases hrel with
      | some h' => exact exec_rel hstep es h'
      | none => exact .none

/-! ## Counting over agents -/

section Agents

variable {ι α : Type*} [Fintype ι]

/-- **What the agents carry together**, each by the weight of its place. -/
def tally (weight : α → ℕ) (place : ι → α) : ℕ := ∑ i, weight (place i)

/-- **An agent that goes to another place** changes the sum by the weights there and here. -/
theorem tally_update [DecidableEq ι] (weight : α → ℕ) (place : ι → α) (i : ι) (a : α) :
    tally weight (Function.update place i a) + weight (place i) =
      tally weight place + weight a := by
  unfold tally
  rw [← Finset.add_sum_erase _ _ (Finset.mem_univ i),
    ← Finset.add_sum_erase _ (fun j => weight (place j)) (Finset.mem_univ i)]
  have hrest : ∀ j ∈ Finset.univ.erase i,
      weight (Function.update place i a j) = weight (place j) := by
    intro j hj
    rw [Function.update_of_ne (Finset.ne_of_mem_erase hj)]
  rw [Finset.sum_congr rfl hrest, Function.update_self]
  omega

theorem le_tally (weight : α → ℕ) (place : ι → α) (i : ι) :
    weight (place i) ≤ tally weight place :=
  Finset.single_le_sum (f := fun j => weight (place j)) (fun _ _ => Nat.zero_le _)
    (Finset.mem_univ i)

/-- **The number of agents at a place of a kind.** -/
def agents (kind : α → Bool) (place : ι → α) : ℕ :=
  (Finset.univ.filter fun i => kind (place i)).card

theorem agents_eq_tally (kind : α → Bool) (place : ι → α) :
    agents kind place = tally (fun a => if kind a then 1 else 0) place :=
  Finset.card_filter ..

theorem agents_update [DecidableEq ι] (kind : α → Bool) (place : ι → α) (i : ι) (a : α) :
    agents kind (Function.update place i a) + (if kind (place i) then 1 else 0) =
      agents kind place + (if kind a then 1 else 0) := by
  simp only [agents_eq_tally]
  exact tally_update ..

theorem agents_pos_iff {kind : α → Bool} {place : ι → α} :
    0 < agents kind place ↔ ∃ i, kind (place i) = true := by
  simp [agents, Finset.card_pos, Finset.Nonempty]

end Agents

end Machine
