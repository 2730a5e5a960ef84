import EloqSql.Mdl.Lists

/-!
# Mdl/Control — which list a ticket belongs in

A ticket that a context holds belongs in the granted list, and the ticket a context waits for
belongs where its wait slot says: in the granted list once the slot is `GRANTED`, and in the waiting
list otherwise. `Control` states this of the map from tickets to lists, with what the contexts
remember of their tickets, and there is a lemma for each thing a context does.
-/

namespace EloqSql

namespace Mdl

open Function (update update_apply update_of_ne update_self)
open Ticket (lock)

variable {X L : Type*}

/-- The ticket a context waits for, up to the end of `acquire_lock`. -/
def Pc.pending : Pc → Option ℕ
  | .waiting k _ | .checking k _ | .ended k _ _ => some k
  | _ => none

/-- The ticket that a goal upgrades. -/
def Goal.upgrading : Goal → Option ℕ
  | .upgrade k _ => some k
  | .acquire _ => none

/-- The ticket a context is upgrading. -/
def Pc.upgrading : Pc → Option ℕ
  | .waiting _ goal | .checking _ goal | .ended _ goal _ => goal.upgrading
  | .merging k _ _ => some k
  | .idle => none

/-- **A context holds the ticket or waits for it.** -/
def State.Live (s : State X L) (k : ℕ) : Prop :=
  (∃ x d, k ∈ s.tickets x d) ∨ ∃ x, (s.pc x).pending = some k

/-- **Every ticket is where its context and the wait slot say.** -/
structure Control (s : State X L) (place : ℕ → Option (L × Side)) : Prop where
  held : ∀ x d k, k ∈ s.tickets x d →
    ∃ t, s.ticket k = some t ∧ t.ctx = x ∧ place k = some (t.lock, .granted)
  pending : ∀ x k, (s.pc x).pending = some k →
    ∃ t, s.ticket k = some t ∧ t.ctx = x ∧
      place k = some (t.lock, if s.wait x = .granted then .granted else .waiting)
  unheld : ∀ x k d, (s.pc x).pending = some k → k ∉ s.tickets x d
  fresh : ∀ k, s.next ≤ k → s.ticket k = none
  nodup : ∀ x d, (s.tickets x d).Nodup
  apart : ∀ x d e k, k ∈ s.tickets x d → k ∈ s.tickets x e → d = e
  ended : ∀ x k goal, s.pc x = .ended k goal .granted → s.wait x = .granted
  upgrading : ∀ x k, (s.pc x).upgrading = some k → ∃ d, k ∈ s.tickets x d
  target : ∀ x k k₀, (s.pc x).pending = some k → (s.pc x).upgrading = some k₀ →
    (s.ticket k).map lock = (s.ticket k₀).map lock
  merging : ∀ x k type n, s.pc x = .merging k type (some n) →
    n ∈ s.tickets x .transaction ∧ n ≠ k ∧
      (s.ticket n).map lock = (s.ticket k).map lock

namespace State

variable [DecidableEq X] {s : State X L} {x y : X} {pc : Pc} {d e : MdlDuration} {k : ℕ}

@[simp, grind =] theorem pc_goto : (s.goto x pc).pc y = if y = x then pc else s.pc y :=
  update_apply ..

@[simp, grind =] theorem tickets_goto : (s.goto x pc).tickets y e = s.tickets y e := rfl

@[simp, grind =] theorem wait_goto : (s.goto x pc).wait y = s.wait y := rfl

@[simp, grind =] theorem ticket_goto : (s.goto x pc).ticket k = s.ticket k := rfl

@[simp, grind =] theorem next_goto : (s.goto x pc).next = s.next := rfl

@[simp, grind =] theorem lists_goto : (s.goto x pc).lists = s.lists := rfl

@[simp, grind =] theorem tickets_pushTicket : (s.pushTicket x d k).tickets y e =
    if y = x ∧ e = d then k :: s.tickets y e else s.tickets y e := rfl

@[simp, grind =] theorem tickets_dropTicket : (s.dropTicket x d k).tickets y e =
    if y = x ∧ e = d then (s.tickets y e).erase k else s.tickets y e := rfl

end State

namespace Control

variable {s s' : State X L} {place : ℕ → Option (L × Side)} {x : X} {k : ℕ} {l : L}

variable {t : Ticket X L}

section

variable (h : Control s place)

include h

/-- What leaves the contexts and the tickets alone. -/
theorem congr (hticket : s'.ticket = s.ticket) (hnext : s'.next = s.next)
    (hwait : s'.wait = s.wait) (htickets : s'.tickets = s.tickets) (hpc : s'.pc = s.pc) :
    Control s' place := by
  obtain ⟨ticket, next, lists, hog, wait, tickets, pc⟩ := s'
  subst hticket hnext hwait htickets hpc
  exact ⟨h.held, h.pending, h.unheld, h.fresh, h.nodup, h.apart, h.ended, h.upgrading, h.target,
    h.merging⟩

/-- A context has made the ticket it holds or waits for. -/
theorem ticket_of_live (hk : s.Live k) : ∃ t, s.ticket k = some t := by
  rcases hk with ⟨y, d, hk⟩ | ⟨y, hk⟩
  · obtain ⟨t, ht, -⟩ := h.held y d k hk
    exact ⟨t, ht⟩
  · obtain ⟨t, ht, -⟩ := h.pending y k hk
    exact ⟨t, ht⟩

theorem not_live_next : ¬ s.Live s.next := by
  intro hk
  obtain ⟨t, ht⟩ := h.ticket_of_live hk
  rw [h.fresh s.next le_rfl] at ht
  cases ht

/-- **A ticket that no context has may be anywhere.** -/
theorem setPlace (hk : ¬ s.Live k) (p : Option (L × Side)) : Control s (update place k p) := by
  have hne : ∀ j, s.Live j → update place k p j = place j := by
    intro j hj
    refine update_of_ne ?_ ..
    rintro rfl
    exact hk hj
  refine { h with held := fun y d j hj => ?_, pending := fun y j hj => ?_ }
  · rw [hne j (.inl ⟨y, d, hj⟩)]
    exact h.held y d j hj
  · rw [hne j (.inr ⟨y, hj⟩)]
    exact h.pending y j hj

/-- Two contexts do not have one ticket. -/
theorem ctx_unique (hk : s.ticket k = some t) :
    (∀ y d, k ∈ s.tickets y d → y = t.ctx) ∧ ∀ y, (s.pc y).pending = some k → y = t.ctx := by
  refine ⟨fun y d hy => ?_, fun y hy => ?_⟩
  · obtain ⟨t', ht', hctx, -⟩ := h.held y d k hy
    rw [hk] at ht'
    cases ht'
    exact hctx.symm
  · obtain ⟨t', ht', hctx, -⟩ := h.pending y k hy
    rw [hk] at ht'
    cases ht'
    exact hctx.symm

/-- A ticket in the waiting list is the one its context waits for. -/
theorem pending_of_waiting (hk : s.ticket k = some t)
    (hplace : place k = some (l, .waiting)) (hlive : s.Live k) :
    (s.pc t.ctx).pending = some k ∧ t.lock = l ∧ s.wait t.ctx ≠ .granted := by
  rcases hlive with ⟨y, d, hy⟩ | ⟨y, hy⟩
  · obtain ⟨t', -, -, hp⟩ := h.held y d k hy
    rw [hplace] at hp
    cases hp
  · obtain rfl := (h.ctx_unique hk).2 y hy
    obtain ⟨t', ht', -, hp⟩ := h.pending t.ctx k hy
    rw [hk] at ht'
    cases ht'
    rw [hplace] at hp
    simp only [Option.some.injEq, Prod.mk.injEq] at hp
    refine ⟨hy, hp.1.symm, fun hw => ?_⟩
    rw [if_pos hw] at hp
    cases hp.2

/-- **A new ticket is made.** -/
theorem createTicket (x : X) (l : L) (type : MdlType) :
    Control (s.createTicket x l type) place := by
  have hne : ∀ j, s.Live j → j ≠ s.next := by
    rintro j hj rfl
    exact h.not_live_next hj
  have hticket : ∀ j, s.Live j → (s.createTicket x l type).ticket j = s.ticket j :=
    fun j hj => update_of_ne (hne j hj) ..
  have hup : ∀ y j, (s.pc y).upgrading = some j → s.Live j := by
    intro y j hj
    obtain ⟨d, hd⟩ := h.upgrading y j hj
    exact .inl ⟨y, d, hd⟩
  refine {
    h with
    held := fun y d j hj => ?_
    pending := fun y j hj => ?_
    fresh := fun j hj => ?_
    target := fun y j j₀ hj hj₀ => ?_
    merging := fun y j ty n hj => ?_ }
  · rw [hticket j (.inl ⟨y, d, hj⟩)]
    exact h.held y d j hj
  · rw [hticket j (.inr ⟨y, hj⟩)]
    exact h.pending y j hj
  · have hj' : s.next + 1 ≤ j := hj
    exact (update_of_ne (by omega) ..).trans (h.fresh j (by omega))
  · rw [hticket j (.inr ⟨y, hj⟩), hticket j₀ (hup y j₀ hj₀)]
    exact h.target y j j₀ hj hj₀
  · obtain ⟨hn, hnj, hlock⟩ := h.merging y j ty n hj
    have hj' : (s.pc y).upgrading = some j := by
      change s.pc y = _ at hj
      rw [hj]
      rfl
    rw [hticket n (.inl ⟨y, _, hn⟩), hticket j (hup y j hj')]
    exact ⟨hn, hnj, hlock⟩

end

variable [DecidableEq X]

section

variable (h : Control s place)

include h

/-- **The context goes on with its ticket.** -/
theorem goto {pc : Pc} (hpending : pc.pending = (s.pc x).pending)
    (hupgrading : pc.upgrading = (s.pc x).upgrading)
    (hended : ∀ k goal, pc = .ended k goal .granted → s.wait x = .granted)
    (hmerging : ∀ k type n, pc ≠ .merging k type (some n)) : Control (s.goto x pc) place := by
  have hp : ∀ y, ((s.goto x pc).pc y).pending = (s.pc y).pending := by grind
  have hu : ∀ y, ((s.goto x pc).pc y).upgrading = (s.pc y).upgrading := by grind
  exact {
    h with
    pending := fun y j hj => h.pending y j (hp y ▸ hj)
    unheld := fun y j d hj => h.unheld y j d (hp y ▸ hj)
    upgrading := fun y j hj => h.upgrading y j (hu y ▸ hj)
    target := fun y j j₀ hj hj₀ => h.target y j j₀ (hp y ▸ hj) (hu y ▸ hj₀)
    ended := by grind [Control]
    merging := by grind [Control] }

/-- **A wait slot is set** to something else than a grant, or it stays granted. -/
theorem setWait (status : MdlWait) (hstatus : status = .granted ↔ s.wait x = .granted) :
    Control { s with wait := update s.wait x status } place := by
  have hw : ∀ y, update s.wait x status y = .granted ↔ s.wait y = .granted := by
    intro y
    rw [update_apply]
    split_ifs with hyx
    · exact hyx ▸ hstatus
    · rfl
  exact {
    h with
    pending := fun y k hk => by simpa only [hw] using h.pending y k hk
    ended := fun y k goal hk => (hw y).2 (h.ended y k goal hk) }

/-- **A waiter is granted its lock.** -/
theorem grant (hk : s.ticket k = some t)
    (hplace : place k = some (l, .waiting)) (hlive : s.Live k) :
    Control { s with wait := update s.wait t.ctx .granted }
      (update place k (some (l, .granted))) := by
  obtain ⟨hpending, hlock, -⟩ := h.pending_of_waiting hk hplace hlive
  have hheld : ∀ y d j, j ∈ s.tickets y d → j ≠ k := by
    rintro y d j hj rfl
    obtain rfl := (h.ctx_unique hk).1 y d hj
    exact h.unheld t.ctx j d hpending hj
  refine { h with held := fun y d j hj => ?_, pending := fun y j hj => ?_, ended := ?_ }
  · rw [update_of_ne (hheld y d j hj)]
    exact h.held y d j hj
  · by_cases hjk : j = k
    · subst hjk
      obtain rfl := (h.ctx_unique hk).2 y hj
      exact ⟨t, hk, rfl, by simp [hlock]⟩
    · have hy : y ≠ t.ctx := by
        rintro rfl
        rw [hpending] at hj
        exact hjk (Option.some.inj hj).symm
      simpa [hjk, hy] using h.pending y j hj
  · intro y j goal hj
    change update s.wait t.ctx .granted y = .granted
    rw [update_apply]
    split_ifs
    · rfl
    · exact h.ended y j goal hj

/-- **The context is done with its ticket**, or it has none yet. -/
theorem goto_rest {pc : Pc} (hpending : pc.pending = none)
    (hupgrading : ∀ k, pc.upgrading = some k → ∃ d, k ∈ s.tickets x d)
    (hmerging : ∀ k type n, pc ≠ .merging k type (some n)) : Control (s.goto x pc) place := by
  have hended : ∀ k goal, pc ≠ .ended k goal .granted := by
    rintro k goal rfl
    cases hpending
  exact {
    h with
    pending := by grind [Control]
    unheld := by grind [Control]
    upgrading := fun y j hj => by
      rw [State.pc_goto] at hj
      split_ifs at hj with hy
      · exact hy ▸ hupgrading j hj
      · exact h.upgrading y j hj
    target := by grind [Control]
    ended := by grind [Control]
    merging := by grind [Control] }

/-- **The context begins to wait** for a ticket in the waiting list. -/
theorem goto_waiting {goal : Goal}
    (hk : s.ticket k = some t) (hctx : t.ctx = x) (hplace : place k = some (t.lock, .waiting))
    (hlive : ¬ s.Live k)
    (hgoal : ∀ k₀, goal.upgrading = some k₀ → (∃ d, k₀ ∈ s.tickets x d) ∧
      (s.ticket k).map lock = (s.ticket k₀).map lock) :
    Control (State.goto { s with wait := update s.wait x .empty } x (.waiting k goal))
      place := by
  have hheld : ∀ y d, k ∉ s.tickets y d := fun y d hy => hlive (.inl ⟨y, d, hy⟩)
  exact {
    h with
    pending := by grind [Control, Pc.pending, update_apply]
    unheld := by grind [Control, Pc.pending]
    upgrading := fun y j hj => by
      rw [State.pc_goto] at hj
      split_ifs at hj with hy
      · exact hy ▸ (hgoal j hj).1
      · exact h.upgrading y j hj
    target := by grind [Control, Pc.pending, Pc.upgrading]
    ended := by grind [Control, update_apply]
    merging := by grind [Control] }

/-- **The context has its lock**: the ticket becomes one of those it holds. -/
theorem gain {goal : Goal} (hk : s.ticket k = some t)
    (hctx : t.ctx = x) (hplace : place k = some (t.lock, .granted))
    (hheld : ∀ y d, k ∉ s.tickets y d) (hpending : ∀ y, (s.pc y).pending = some k → y = x)
    (hgoal : ∀ k₀, goal.upgrading = some k₀ → (∃ d, k₀ ∈ s.tickets x d) ∧
      (s.ticket k).map lock = (s.ticket k₀).map lock) :
    Control ((s.pushTicket x goal.duration k).goto x (goal.after k true)) place := by
  have hafter : (goal.after k true).pending = none := by cases goal <;> rfl
  have hup : (goal.after k true).upgrading = goal.upgrading := by cases goal <;> rfl
  have hmem : ∀ y d j, j ∈ s.tickets y d → j ∈ (s.pushTicket x goal.duration k).tickets y d := by
    grind
  have hcases : ∀ y d j, j ∈ (s.pushTicket x goal.duration k).tickets y d →
      j ∈ s.tickets y d ∨ y = x ∧ d = goal.duration ∧ j = k := by
    grind
  have hpc : ∀ y j, (((s.pushTicket x goal.duration k).goto x (goal.after k true)).pc y).pending =
      some j → y ≠ x ∧ (s.pc y).pending = some j := by
    intro y j hj
    rw [State.pc_goto] at hj
    split_ifs at hj with hy
    · rw [hafter] at hj
      cases hj
    · exact ⟨hy, hj⟩
  exact {
    held := by
      intro y d j hj
      rcases hcases y d j hj with hj | ⟨rfl, -, rfl⟩
      · exact h.held y d j hj
      · exact ⟨t, hk, hctx, hplace⟩
    pending := fun y j hj => h.pending y j (hpc y j hj).2
    unheld := by
      intro y j d hj hj'
      rcases hcases y d j hj' with hj' | ⟨rfl, -, -⟩
      · exact h.unheld y j d (hpc y j hj).2 hj'
      · exact (hpc y j hj).1 rfl
    fresh := h.fresh
    nodup := by
      intro y d
      rw [State.tickets_goto, State.tickets_pushTicket]
      split_ifs
      · exact List.nodup_cons.2 ⟨hheld y d, h.nodup y d⟩
      · exact h.nodup y d
    apart := by
      intro y d e j hj hj'
      rcases hcases y d j hj with hj | ⟨-, rfl, rfl⟩ <;>
        rcases hcases y e j hj' with hj' | ⟨-, rfl, hjk⟩
      · exact h.apart y d e j hj hj'
      · exact absurd (hjk ▸ hj) (hheld y d)
      · exact absurd hj' (hheld y e)
      · rfl
    ended := by
      intro y j g hj
      rw [State.pc_goto] at hj
      split_ifs at hj
      · rw [hj] at hafter
        cases hafter
      · exact h.ended y j g hj
    upgrading := by
      intro y j hj
      rw [State.pc_goto] at hj
      split_ifs at hj with hy
      · obtain ⟨d, hd⟩ := (hgoal j (hup ▸ hj)).1
        exact ⟨d, hmem y d j (hy ▸ hd)⟩
      · obtain ⟨d, hd⟩ := h.upgrading y j hj
        exact ⟨d, hmem y d j hd⟩
    target := by
      intro y j j₀ hj hj₀
      obtain ⟨hy, hj⟩ := hpc y j hj
      rw [State.pc_goto, if_neg hy] at hj₀
      exact h.target y j j₀ hj hj₀
    merging := by
      intro y j type n hj
      rw [State.pc_goto] at hj
      split_ifs at hj with hy
      · subst hy
        cases goal with
        | acquire d => cases hj
        | upgrade k₀ type' =>
          simp only [Goal.after, if_true, Pc.merging.injEq, Option.some.injEq] at hj
          obtain ⟨rfl, rfl, rfl⟩ := hj
          obtain ⟨⟨d, hd⟩, hlock⟩ := hgoal k₀ rfl
          refine ⟨by simp [Goal.duration], ?_, hlock⟩
          rintro rfl
          exact hheld y d hd
      · obtain ⟨hn, hnj, hlock⟩ := h.merging y j type n hj
        exact ⟨hmem y _ n hn, hnj, hlock⟩ }

/-- The context lets go of a ticket. -/
theorem dropTicket (d : MdlDuration) (hidle : s.pc x = .idle) :
    Control (s.dropTicket x d k) place := by
  have hmem : ∀ y e j, j ∈ (s.dropTicket x d k).tickets y e → j ∈ s.tickets y e := by
    intro y e j hj
    rw [State.tickets_dropTicket] at hj
    split_ifs at hj
    · exact List.mem_of_mem_erase hj
    · exact hj
  have hother : ∀ y, y ≠ x → ∀ e, (s.dropTicket x d k).tickets y e = s.tickets y e := by
    intro y hy e
    rw [State.tickets_dropTicket, if_neg fun hc => hy hc.1]
  have hbusy : ∀ y, s.pc y ≠ .idle → y ≠ x := by
    rintro y hy rfl
    exact hy hidle
  exact {
    held := fun y e j hj => h.held y e j (hmem y e j hj)
    pending := h.pending
    unheld := fun y j e hj hj' => h.unheld y j e hj (hmem y e j hj')
    fresh := h.fresh
    nodup := by
      intro y e
      rw [State.tickets_dropTicket]
      split_ifs
      · exact (h.nodup y e).erase k
      · exact h.nodup y e
    apart := fun y e f j hj hj' => h.apart y e f j (hmem y e j hj) (hmem y f j hj')
    ended := h.ended
    upgrading := by
      intro y j hj
      have hy : y ≠ x := hbusy y fun hc => by
        change (s.pc y).upgrading = some j at hj
        rw [hc] at hj
        cases hj
      simpa only [hother y hy] using h.upgrading y j hj
    target := h.target
    merging := by
      intro y j type n hj
      have hy : y ≠ x := hbusy y fun hc => by
        change s.pc y = _ at hj
        rw [hc] at hj
        cases hj
      rw [hother y hy]
      exact h.merging y j type n hj }

end

omit [DecidableEq X] in
/-- A ticket gets another type. -/
theorem setType (h : Control s place) (hk : s.ticket k = some t) (type : MdlType) :
    Control { s with ticket := update s.ticket k (some { t with type := type }) }
      place := by
  have hlock : ∀ j, (update s.ticket k (some { t with type := type }) j).map lock =
      (s.ticket j).map lock := by
    intro j
    rw [update_apply]
    split_ifs with hjk
    · rw [hjk, hk]
      rfl
    · rfl
  refine {
    h with
    held := fun y d j hj => ?_
    pending := fun y j hj => ?_
    fresh := fun j hj => ?_
    target := fun y j j₀ hj hj₀ => ?_
    merging := fun y j ty n hj => ?_ }
  · obtain ⟨t', ht', hctx, hp⟩ := h.held y d j hj
    by_cases hjk : j = k
    · subst hjk
      rw [hk] at ht'
      cases ht'
      exact ⟨_, update_self .., hctx, hp⟩
    · exact ⟨t', (update_of_ne hjk ..).trans ht', hctx, hp⟩
  · obtain ⟨t', ht', hctx, hp⟩ := h.pending y j hj
    by_cases hjk : j = k
    · subst hjk
      rw [hk] at ht'
      cases ht'
      exact ⟨_, update_self .., hctx, hp⟩
    · exact ⟨t', (update_of_ne hjk ..).trans ht', hctx, hp⟩
  · have hjk : j ≠ k := by
      rintro rfl
      rw [h.fresh j hj] at hk
      cases hk
    exact (update_of_ne hjk ..).trans (h.fresh j hj)
  · exact (hlock j).trans ((h.target y j j₀ hj hj₀).trans (hlock j₀).symm)
  · obtain ⟨hn, hnj, hl⟩ := h.merging y j ty n hj
    exact ⟨hn, hnj, (hlock n).trans (hl.trans (hlock j).symm)⟩

end Control

end Mdl

end EloqSql
