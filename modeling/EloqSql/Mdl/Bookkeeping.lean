import EloqSql.Mdl.Control

/-!
# Mdl/Bookkeeping — the lists of the metadata locks stay right

Every step of the metadata locks keeps the ticket lists exact and every ticket in the one list it
belongs in (`Inv`), with one exception. A waiter that finds its client disconnected goes by a local
`TIMEOUT` and leaves its slot open, so that another thread may still grant it the lock; it then
removes its ticket from the granted list and corrects the counters of the waiting one. `Closed`
rules this out, and `booked_iff` says that the books are right along exactly the runs within it.
-/

namespace EloqSql

open List

namespace Mdl

open Function (update update_apply update_eq_self update_idem update_of_ne update_self)

variable {X L : Type*} {Q : Tally X L} {s s' : State X L}
  {place : ℕ → Option (L × Side)} {x : X} {k : ℕ} {l : L}

variable {d : MdlDuration} {t : Ticket X L} {side : Side} {type : MdlType} {pc : Pc} {goal : Goal}
  {e : Event X L}

/-- **What every state has**, with the map from the tickets to the lists. -/
structure Inv (Q : Tally X L) (s : State X L) (place : ℕ → Option (L × Side)) : Prop where
  placed : Placed Q s place
  control : Control s place
  live : ∀ k, place k ≠ none → s.Live k

/-- What leaves all but the counts of strong locks alone. -/
theorem Inv.congr (h : Inv Q s place) (hs : s' = { s with hogLockCount := s'.hogLockCount }) :
    Inv Q s' place := by
  rw [hs]
  exact ⟨h.placed.congr rfl rfl, h.control.congr rfl rfl rfl rfl rfl, h.live⟩

/-- A ticket that a context holds is in the granted list. -/
theorem Inv.place_of_mem (h : Inv Q s place) (hk : k ∈ s.tickets x d) (ht : s.ticket k = some t) :
    place k = some (t.lock, .granted) := by
  obtain ⟨t', ht', -, hp⟩ := h.control.held x d k hk
  rw [ht] at ht'
  cases ht'
  exact hp

/-- The new ticket is in no list. -/
theorem Inv.place_next (h : Inv Q s place) : place s.next = none := by
  by_contra hk
  exact h.control.not_live_next (h.live s.next hk)

/-- What a context wants besides the lock: the ticket it upgrades is its own and of this lock. -/
def Goal.Sound (s : State X L) (x : X) (l : L) (goal : Goal) : Prop :=
  ∀ k₀, goal.upgrading = some k₀ → (∃ d, k₀ ∈ s.tickets x d) ∧
    (s.ticket k₀).map Ticket.lock = some l

/-- The new ticket and the one to upgrade are of one lock. -/
theorem Inv.sound_create (h : Inv Q s place) (hgoal : goal.Sound s x l)
    (type : MdlType) {k₀ : ℕ} (hk₀ : goal.upgrading = some k₀) :
    (∃ d, k₀ ∈ s.tickets x d) ∧ ((s.createTicket x l type).ticket s.next).map Ticket.lock =
      ((s.createTicket x l type).ticket k₀).map Ticket.lock := by
  obtain ⟨⟨d, hd⟩, hlock⟩ := hgoal k₀ hk₀
  have hne : k₀ ≠ s.next := by
    rintro rfl
    exact h.control.not_live_next (.inl ⟨x, d, hd⟩)
  have hnew : (s.createTicket x l type).ticket s.next = some ⟨x, l, type⟩ :=
    update_self ..
  have hold : (s.createTicket x l type).ticket k₀ = s.ticket k₀ := update_of_ne hne ..
  rw [hnew, hold, hlock]
  exact ⟨⟨d, hd⟩, rfl⟩

theorem inv_init : Inv Q (State.init : State X L) (fun _ => none) where
  placed := ⟨fun side _ => Q.nil _ _, fun _ _ => nodup_nil,
    fun _ _ _ => by simp [State.init, TicketList.nil]⟩
  control := {
    held := fun _ _ _ hk => by cases hk
    pending := fun _ _ hk => by cases hk
    unheld := fun _ _ _ hk => by cases hk
    fresh := fun _ _ => rfl
    nodup := fun _ _ => nodup_nil
    apart := fun _ _ _ _ hk => by cases hk
    ended := fun _ _ _ hk => by cases hk
    upgrading := fun _ _ hk => by cases hk
    target := fun _ _ _ hk => by cases hk
    merging := fun _ _ _ _ hk => by cases hk }
  live := fun _ hk => absurd rfl hk

/-! ## `reschedule_waiters` -/

theorem hasType_of_ticket {ticket : ℕ → Option (Ticket X L)}
    (hk : ticket k = some t) : HasType ticket t.type k := by
  unfold HasType
  rw [hk]
  rfl

variable [DecidableEq X] [DecidableEq L] (strategy : L → MdlStrategy) (m : ℕ)

/-- **A waiter may be granted its lock**: nobody else's ticket moves. -/
theorem Inv.grantWaiter (h : Inv Q s place) (hk : place k = some (l, .waiting)) (skip : Bool) :
    ∃ place', Inv Q (s.grantWaiter strategy l skip k) place' ∧ ∀ j, j ≠ k → place' j = place j := by
  have hlive : s.Live k := h.live k (by simp [hk])
  obtain ⟨t, ht⟩ := h.control.ticket_of_live hlive
  unfold State.grantWaiter
  rw [ht]
  dsimp only
  by_cases hskip : skip = true ∧ decide (t.type ∈ (strategy l).hogLockTypes) = true
  · rw [if_pos hskip]
    exact ⟨place, h, fun _ _ => rfl⟩
  rw [if_neg hskip]
  by_cases hgrant : s.canGrantLock strategy l t.type t.ctx skip ∧ s.wait t.ctx = .empty
  · rw [if_pos hgrant]
    refine ⟨update place k (some (l, .granted)), ?_,
      fun j hj => update_of_ne hj ..⟩
    have hwait : s.setStatus t.ctx .granted =
        { s with wait := update s.wait t.ctx .granted } := if_pos hgrant.2
    have hplaced : Placed Q (s.setStatus t.ctx .granted) place := by
      rw [hwait]
      exact h.placed.congr rfl rfl
    have hcontrol : Control (s.setStatus t.ctx .granted)
        (update place k (some (l, .granted))) := by
      rw [hwait]
      exact h.control.grant ht hk hlive
    have htype : HasType (s.setStatus t.ctx .granted).ticket t.type k := by
      rw [hwait]
      exact hasType_of_ticket ht
    have hmoved := (hplaced.removeTicket hk htype).addTicket (update_self ..) htype l
      .granted
    rw [update_idem] at hmoved
    refine ⟨hmoved.congr rfl rfl, hcontrol.congr rfl rfl rfl rfl rfl, fun j hj => ?_⟩
    have hj' : s.Live j := by
      by_cases hjk : j = k
      · exact hjk ▸ hlive
      · rw [update_of_ne hjk] at hj
        exact h.live j hj
    rw [hwait]
    exact hj'
  · rw [if_neg hgrant]
    exact ⟨place, h, fun _ _ => rfl⟩

/-- **What the grants of `reschedule_waiters` keep besides.** -/
structure GrantsKeep (Q : Tally X L) (l : L) (P : State X L → Prop) : Prop where
  grant : ∀ {s : State X L} {place : ℕ → Option (L × Side)} {k : ℕ} (skip : Bool),
    Inv Q s place → place k = some (l, .waiting) → P s → P (s.grantWaiter strategy l skip k)
  hog : ∀ (s : State X L) n, P s → P { s with hogLockCount := n }

theorem grantsKeep_true : GrantsKeep strategy Q l fun _ => True :=
  ⟨fun _ _ _ h => h, fun _ _ h => h⟩

variable {P : State X L → Prop}

/-- **The loop of `reschedule_waiters`**, by induction on the waiters that are left. -/
theorem Inv.grantWaiters (hP : GrantsKeep strategy Q l P) (skip : Bool) :
    ∀ (ks : List ℕ) {s : State X L} {place : ℕ → Option (L × Side)}, Inv Q s place → P s →
    (∀ k ∈ ks, place k = some (l, .waiting)) → ks.Nodup →
    (∃ place', Inv Q (ks.foldl (State.grantWaiter strategy l skip) s) place') ∧
      P (ks.foldl (State.grantWaiter strategy l skip) s)
  | [], _, place, h, hp, _, _ => ⟨⟨place, h⟩, hp⟩
  | k :: ks, s, place, h, hp, hks, hnodup => by
      obtain ⟨hk, hnodup⟩ := nodup_cons.1 hnodup
      have hplace := hks k mem_cons_self
      obtain ⟨place₁, h₁, hplace₁⟩ := h.grantWaiter strategy hplace skip
      refine grantWaiters hP skip ks h₁ (hP.grant skip h hplace hp) (fun j hj => ?_) hnodup
      rw [hplace₁ j (fun hjk => hk (hjk ▸ hj))]
      exact hks j (mem_cons_of_mem k hj)

theorem Inv.rescheduleWaiters (h : Inv Q s place) (hP : GrantsKeep strategy Q l P) (hp : P s) :
    (∃ place', Inv Q (s.rescheduleWaiters strategy m l) place') ∧
      P (s.rescheduleWaiters strategy m l) := by
  unfold State.rescheduleWaiters
  dsimp only
  obtain ⟨⟨place', h'⟩, hp'⟩ := Inv.grantWaiters strategy hP _ (s.lists l .waiting).list h hp
    (fun k hk => (h.placed.mem_iff k l .waiting).1 hk) (h.placed.nodup l .waiting)
  split_ifs
  · exact ⟨⟨place', h'⟩, hp'⟩
  · exact ⟨⟨place', h'.congr rfl⟩, hP.hog _ _ hp'⟩

omit [DecidableEq X] in
/-- **A ticket that no context has any more leaves its list.** -/
theorem removeTicket_inv (hplaced : Placed Q (s.removeTicket l side k type) (update place k none))
    (hcontrol : Control s place) (hlive : ∀ j, j ≠ k → place j ≠ none → s.Live j)
    (hk : ¬ s.Live k) : Inv Q (s.removeTicket l side k type) (update place k none) := by
  refine ⟨hplaced, (hcontrol.setPlace hk none).congr rfl rfl rfl rfl rfl, fun j hj => ?_⟩
  have hjk : j ≠ k := by
    rintro rfl
    exact hj (update_self ..)
  rw [update_of_ne hjk] at hj
  exact hlive j hjk hj

/-- The waiters are rescheduled after that. -/
theorem removeAndReschedule_inv
    (h : Inv Q (s.removeTicket t.lock side k t.type) place) (hP : GrantsKeep strategy Q t.lock P)
    (hp : P (s.removeTicket t.lock side k t.type)) :
    (∃ place', Inv Q (s.removeAndReschedule strategy m t.lock side k t.type) place') ∧
      P (s.removeAndReschedule strategy m t.lock side k t.type) := by
  unfold State.removeAndReschedule
  dsimp only
  split_ifs
  · exact ⟨⟨_, h⟩, hp⟩
  · exact h.rescheduleWaiters strategy m hP hp

/-! ## What a context does -/

omit [DecidableEq L] in
/-- A context that goes on keeps its ticket. -/
theorem live_goto (hpc : ∀ i, (s.pc x).pending = some i → pc.pending = some i)
    (hk : s.Live k) : (s.goto x pc).Live k := by
  rcases hk with hk | ⟨y, hy⟩
  · exact .inl hk
  · refine .inr ⟨y, ?_⟩
    rw [State.pc_goto]
    split_ifs with hyx
    · exact hpc k (hyx ▸ hy)
    · exact hy

omit [DecidableEq L] in
/-- A context that has its lock holds the ticket. -/
theorem live_gain (d : MdlDuration) (hpc : ∀ i, (s.pc x).pending = some i → i = k)
    {j : ℕ} (hj : j = k ∨ s.Live j) : ((s.pushTicket x d k).goto x pc).Live j := by
  have hself : ((s.pushTicket x d k).goto x pc).Live k := .inl ⟨x, d, by simp⟩
  rcases hj with rfl | ⟨y, e, hy⟩ | ⟨y, hy⟩
  · exact hself
  · refine .inl ⟨y, e, ?_⟩
    rw [State.tickets_goto, State.tickets_pushTicket]
    split_ifs
    · exact mem_cons_of_mem k hy
    · exact hy
  · by_cases hyx : y = x
    · exact hpc j (hyx ▸ hy) ▸ hself
    · refine .inr ⟨y, ?_⟩
      rw [State.pc_goto, if_neg hyx]
      exact hy

section

variable (h : Inv Q s place)

include h

omit [DecidableEq X] in
/-- **A new ticket comes into a list**, and its context has still to take it. -/
theorem Inv.create (x : X) (l : L) (side : Side) (type : MdlType) :
    Placed Q ((s.createTicket x l type).addTicket l side s.next type)
        (update place s.next (some (l, side))) ∧
      Control ((s.createTicket x l type).addTicket l side s.next type)
        (update place s.next (some (l, side))) := by
  have hticket : (s.createTicket x l type).ticket s.next = some ⟨x, l, type⟩ :=
    update_self ..
  have hplaced : Placed Q (s.createTicket x l type) place := h.placed.setTicket h.place_next _ _
  exact ⟨hplaced.addTicket h.place_next (hasType_of_ticket hticket) l side,
    ((h.control.createTicket x l type).setPlace h.control.not_live_next _).congr rfl rfl rfl rfl
      rfl⟩

/-- **A new ticket is granted at once.** -/
theorem Inv.create_granted (hidle : s.pc x = .idle) (type : MdlType) (hgoal : goal.Sound s x l) :
    Inv Q ((((s.createTicket x l type).addTicket l .granted s.next type).pushTicket x goal.duration
      s.next).goto x (goal.after s.next true))
      (update place s.next (some (l, .granted))) := by
  obtain ⟨hplaced, hcontrol⟩ := h.create x l .granted type
  have hfresh := h.control.not_live_next
  have hnew : (s.createTicket x l type).ticket s.next = some ⟨x, l, type⟩ :=
    update_self ..
  refine ⟨hplaced.congr rfl rfl, ?_, fun j hj => live_gain _ (fun i hi => ?_) ?_⟩
  · exact hcontrol.gain hnew rfl (update_self ..) (fun y d hy => hfresh (.inl ⟨y, d, hy⟩))
      (fun y hy => absurd (.inr ⟨y, hy⟩) hfresh) fun k₀ hk₀ => h.sound_create hgoal type hk₀
  · change (s.pc x).pending = some i at hi
    rw [hidle] at hi
    cases hi
  · by_cases hjk : j = s.next
    · exact .inl hjk
    · rw [update_of_ne hjk] at hj
      exact .inr (h.live j hj)

/-- **A new ticket is put among the waiting ones.** -/
theorem Inv.create_waiting (hidle : s.pc x = .idle) (type : MdlType) (hgoal : goal.Sound s x l) :
    Inv Q (State.goto { (s.createTicket x l type).addTicket l .waiting s.next type with
      wait := update s.wait x .empty } x (.waiting s.next goal))
      (update place s.next (some (l, .waiting))) := by
  obtain ⟨hplaced, hcontrol⟩ := h.create x l .waiting type
  have hnew : (s.createTicket x l type).ticket s.next = some ⟨x, l, type⟩ :=
    update_self ..
  refine ⟨hplaced.congr rfl rfl, ?_, fun j hj => ?_⟩
  · exact hcontrol.goto_waiting hnew rfl (update_self ..) h.control.not_live_next
      fun k₀ hk₀ => h.sound_create hgoal type hk₀
  · by_cases hjk : j = s.next
    · exact .inr ⟨x, by simp [hjk, Pc.pending]⟩
    · rw [update_of_ne hjk] at hj
      refine live_goto (fun i hi => ?_) (h.live j hj)
      change (s.pc x).pending = some i at hi
      rw [hidle] at hi
      cases hi

/-- **`acquire_lock` up to its wait.** -/
theorem Inv.acquireLock (hidle : s.pc x = .idle) (type : MdlType)
    (hgoal : goal.Sound s x l) (nowait : Bool) :
    ∃ place', Inv Q (s.acquireLock strategy x l type goal nowait) place' := by
  have hcreate := h.create_granted hidle type hgoal
  unfold State.acquireLock
  dsimp only
  split
  · split_ifs
    · exact ⟨_, hcreate⟩
    · -- the context has the ticket already
      refine ⟨place, h.placed.congr rfl rfl, h.control.goto_rest ?_ (fun k₀ hk₀ => ?_) ?_,
        fun j hj => live_goto (fun i hi => ?_) (h.live j hj)⟩
      · cases goal <;> rfl
      · refine (hgoal k₀ ?_).1
        cases goal <;> exact hk₀
      · intro k₀ type' n hc
        cases goal <;> simp [Goal.after] at hc
      · rw [hidle] at hi
        cases hi
  · split_ifs
    · exact ⟨_, hcreate⟩
    · exact ⟨place, h.placed.setTicket h.place_next _ _, h.control.createTicket x l type, h.live⟩
    · exact ⟨_, h.create_waiting hidle type hgoal⟩

omit [DecidableEq X] in
/-- **A granted ticket gets another type.** -/
theorem Inv.retype (ht : s.ticket k = some t)
    (hplace : place k = some (t.lock, .granted)) (type : MdlType) :
    Inv Q (s.retype k t type) place := by
  have hremoved := h.placed.removeTicket hplace (hasType_of_ticket ht)
  have htyped := hremoved.setTicket (update_self ..) (some { t with type := type }) s.next
  have hadded := htyped.addTicket (update_self ..)
    (hasType_of_ticket (update_self ..)) t.lock .granted
  rw [update_idem, ← hplace, update_eq_self] at hadded
  exact ⟨hadded.congr rfl rfl, (h.control.setType ht type).congr rfl rfl rfl rfl rfl, h.live⟩

omit [DecidableEq L] in
/-- **A context lets go of a ticket**: nobody has it any more. -/
theorem Inv.not_live_dropTicket (hk : k ∈ s.tickets x d) : ¬ (s.dropTicket x d k).Live k := by
  obtain ⟨t, ht, rfl, -⟩ := h.control.held x d k hk
  obtain ⟨hheld, hpending⟩ := h.control.ctx_unique ht
  rintro (⟨y, e, hy⟩ | ⟨y, hy⟩)
  · rw [State.tickets_dropTicket] at hy
    split_ifs at hy with hye
    · exact (h.control.nodup y e).not_mem_erase hy
    · obtain rfl := hheld y e hy
      exact hye ⟨rfl, h.control.apart _ e d k hy hk⟩
  · obtain rfl := hpending y hy
    exact h.control.unheld _ k d hy hk

end

omit [DecidableEq L] in
theorem live_dropTicket {j : ℕ} (hjk : j ≠ k) (hj : s.Live j) : (s.dropTicket x d k).Live j := by
  rcases hj with ⟨y, e, hy⟩ | hy
  · refine .inl ⟨y, e, ?_⟩
    rw [State.tickets_dropTicket]
    split_ifs
    · exact (mem_erase_of_ne hjk).2 hy
    · exact hy
  · exact .inr hy

section

variable (h : Inv Q s place)

include h

/-- **A ticket is released**, up to the rescheduling. -/
theorem Inv.release (hidle : s.pc x = .idle) (hk : k ∈ s.tickets x d) (ht : s.ticket k = some t) :
    Inv Q ((s.dropTicket x d k).removeTicket t.lock .granted k t.type)
      (update place k none) := by
  have hplaced : Placed Q (s.dropTicket x d k) place := h.placed.congr rfl rfl
  exact removeTicket_inv
    (hplaced.removeTicket (h.place_of_mem hk ht) (hasType_of_ticket ht))
    (h.control.dropTicket d hidle) (fun j hjk hj => live_dropTicket hjk (h.live j hj))
    (h.not_live_dropTicket hk)

/-- **The end of `upgrade_shared_lock`.** -/
theorem Inv.mergeTickets (hidle : s.pc x = .idle)
    (ht : s.ticket k = some t) (hk : k ∈ s.tickets x d) (type : MdlType)
    {fresh : Option ℕ}
    (hfresh : ∀ n, fresh = some n → n ∈ s.tickets x .transaction ∧ n ≠ k ∧
      (s.ticket n).map Ticket.lock = (s.ticket k).map Ticket.lock) :
    ∃ place', Inv Q (s.mergeTickets x k t type fresh) place' := by
  have hplace := h.place_of_mem hk ht
  unfold State.mergeTickets
  cases fresh with
  | none => exact ⟨_, h.retype ht hplace type⟩
  | some new =>
    obtain ⟨hnew, hne, hlock⟩ := hfresh new rfl
    obtain ⟨n, hn, -, -⟩ := h.control.held x .transaction new hnew
    have hnlock : n.lock = t.lock := by
      rw [hn, ht] at hlock
      exact Option.some.inj hlock
    dsimp only
    rw [hn, ← hnlock]
    exact ⟨_, (h.release hidle hnew hn).retype ht
      ((update_of_ne (Ne.symm hne) ..).trans hplace) type⟩

omit [DecidableEq L] in
/-- **A wait ends, or goes on**: the context keeps its ticket and where it is. -/
theorem Inv.goto (hpending : pc.pending = (s.pc x).pending)
    (hupgrading : pc.upgrading = (s.pc x).upgrading)
    (hended : ∀ k goal, pc = .ended k goal .granted → s.wait x = .granted)
    (hmerging : ∀ k type n, pc ≠ .merging k type (some n)) : Inv Q (s.goto x pc) place :=
  ⟨h.placed.congr rfl rfl, h.control.goto hpending hupgrading hended hmerging,
    fun j hj => live_goto (fun _ hi => hpending.trans hi) (h.live j hj)⟩

omit [DecidableEq L] in
/-- **An empty slot is closed** with something else than a grant. -/
theorem Inv.setWait (hempty : s.wait x = .empty) {status : MdlWait} (hstatus : status ≠ .granted) :
    Inv Q { s with wait := update s.wait x status } place :=
  ⟨h.placed.congr rfl rfl, h.control.setWait status (by simp [hempty, hstatus]), h.live⟩

omit [DecidableEq L] in
/-- **The wait has ended with a grant**: the ticket is one of those the context holds. -/
theorem Inv.finish_granted (hpc : s.pc x = .ended k goal .granted) :
    Inv Q ((s.pushTicket x goal.duration k).goto x (goal.after k true)) place := by
  have hpending : (s.pc x).pending = some k := by rw [hpc]; rfl
  have hupgrading : (s.pc x).upgrading = goal.upgrading := by rw [hpc]; rfl
  obtain ⟨t, ht, hctx, hplace⟩ := h.control.pending x k hpending
  rw [if_pos (h.control.ended x k goal hpc)] at hplace
  obtain ⟨hheld, hothers⟩ := h.control.ctx_unique ht
  refine ⟨h.placed.congr rfl rfl, ?_, fun j hj => live_gain _ (fun _ hi => ?_) ?_⟩
  · refine h.control.gain ht hctx hplace (fun y d hy => ?_)
      (fun y hy => (hothers y hy).trans hctx) (fun k₀ hk₀ => ?_)
    · obtain rfl := (hheld y d hy).trans hctx
      exact h.control.unheld y k d hpending hy
    · exact ⟨h.control.upgrading x k₀ (hupgrading.trans hk₀),
        h.control.target x k k₀ hpending (hupgrading.trans hk₀)⟩
  · exact Option.some.inj (hi.symm.trans hpending)
  · exact .inr (h.live j hj)

/-- **A context gives up** while its slot is not granted, or where that does not matter: its ticket
leaves the list it is in. -/
theorem Inv.finish_failed (hpending : (s.pc x).pending = some k)
    (hwait : s.wait x ≠ .granted ∨ Q.Lenient) (ht : s.ticket k = some t) :
    Inv Q ((s.goto x .idle).removeTicket t.lock .waiting k t.type)
      (update place k none) := by
  obtain ⟨t', ht', -, hplace⟩ := h.control.pending x k hpending
  rw [ht] at ht'
  cases ht'
  have hplaced : Placed Q (s.goto x .idle) place := h.placed.congr rfl rfl
  have hremoved : Placed Q ((s.goto x .idle).removeTicket t.lock .waiting k t.type)
      (update place k none) := by
    by_cases hgranted : s.wait x = .granted
    · rw [if_pos hgranted] at hplace
      exact hplaced.removeTicket_waiting (hwait.resolve_left (not_not.2 hgranted)) hplace t.type
    · rw [if_neg hgranted] at hplace
      exact hplaced.removeTicket hplace (hasType_of_ticket ht)
  have hcontrol : Control (s.goto x .idle) place :=
    h.control.goto_rest rfl (fun _ hc => by cases hc) (fun _ _ _ hc => by cases hc)
  refine removeTicket_inv hremoved hcontrol (fun j hjk hj => ?_) ?_
  · rcases h.live j hj with hheld | ⟨y, hy⟩
    · exact .inl hheld
    · refine .inr ⟨y, ?_⟩
      have hyx : y ≠ x := by
        rintro rfl
        exact hjk (Option.some.inj (hy.symm.trans hpending))
      rw [State.pc_goto, if_neg hyx]
      exact hy
  · obtain ⟨hheld, hothers⟩ := h.control.ctx_unique ht
    have hctx := hothers x hpending
    rintro (⟨y, d, hy⟩ | ⟨y, hy⟩)
    · obtain rfl := (hheld y d hy).trans hctx.symm
      exact h.control.unheld y k d hpending hy
    · rw [State.pc_goto] at hy
      split_ifs at hy with hyx
      · cases hy
      · exact hyx ((hothers y hy).trans hctx.symm)

end

/-! ## The steps -/

/-- **What a step does.** -/
inductive Does (s : State X L) (e : Event X L) : State X L → Prop
  | stay : Does s e s
  | acquire {x : X} {l : L} {type : MdlType} {goal : Goal} (nowait : Bool) (hidle : s.pc x = .idle)
      (hgoal : goal.Sound s x l) (htype : ∀ k type', goal = .upgrade k type' → type' = type) :
      Does s e (s.acquireLock strategy x l type goal nowait)
  | merge {x : X} {k : ℕ} {type : MdlType} {fresh : Option ℕ} {t : Ticket X L}
      (hpc : s.pc x = .merging k type fresh) (ht : s.ticket k = some t) :
      Does s e ((s.goto x .idle).mergeTickets x k t type fresh)
  | downgrade {x : X} {k : ℕ} {type : MdlType} {t : Ticket X L} {d : MdlDuration}
      (hidle : s.pc x = .idle) (ht : s.ticket k = some t) (hd : k ∈ s.tickets x d)
      (hle : (strategy t.lock).hasStrongerOrEqualType t.type type = true) :
      Does s e ((s.retype k t type).rescheduleWaiters strategy m t.lock)
  | clone {x : X} {k : ℕ} {type : MdlType} {t : Ticket X L} {d d' : MdlDuration}
      (he : e = .clone x k type d) (hidle : s.pc x = .idle) (ht : s.ticket k = some t)
      (hd : k ∈ s.tickets t.ctx d')
      (hle : (strategy t.lock).hasStrongerOrEqualType t.type type = true) :
      Does s e (s.cloneTicket x t.lock type d .idle)
  | release {x : X} {k : ℕ} {t : Ticket X L} {d : MdlDuration} (hidle : s.pc x = .idle)
      (ht : s.ticket k = some t) (hd : k ∈ s.tickets x d) :
      Does s e ((s.dropTicket x d k).removeAndReschedule strategy m t.lock .granted k t.type)
  /-- A wait goes on or ends, and the slot stays as it is. -/
  | move {x : X} {k : ℕ} {goal : Goal} {pc : Pc}
      (hfrom : s.pc x = .waiting k goal ∨ s.pc x = .checking k goal)
      (hto : pc = .waiting k goal ∨ pc = .checking k goal ∨
        ∃ status, pc = .ended k goal status ∧ (status = .granted → s.wait x = .granted)) :
      Does s e (s.goto x pc)
  /-- A wait ends, and the slot is closed. -/
  | close {x : X} {k : ℕ} {goal : Goal} {status : MdlWait} (hpc : s.pc x = .waiting k goal)
      (hempty : s.wait x = .empty) (hstatus : status ≠ .granted) :
      Does s e ({ s with wait := update s.wait x status }.goto x (.ended k goal status))
  | victim {x : X} (hempty : s.wait x = .empty) :
      Does s e { s with wait := update s.wait x .victim }
  | gain {x : X} {k : ℕ} {goal : Goal} (hpc : s.pc x = .ended k goal .granted) :
      Does s e ((s.pushTicket x goal.duration k).goto x (goal.after k true))
  | giveUp {x : X} {k : ℕ} {goal : Goal} {status : MdlWait} {t : Ticket X L} (he : e = .finish x)
      (hpc : s.pc x = .ended k goal status) (hstatus : status ≠ .granted)
      (ht : s.ticket k = some t) :
      Does s e ((s.goto x .idle).removeAndReschedule strategy m t.lock .waiting k t.type)
  | recycle (n : L → ℕ) : Does s e { s with hogLockCount := n }

theorem does_of_step (hs : s.step strategy m e = some s') : Does strategy m s e s' := by
  cases e <;> simp only [State.step] at hs
  case tryAcquire x l type d | acquire x l type d nowait =>
    obtain ⟨hidle, hs⟩ := Option.ite_none_right_eq_some.1 hs
    cases hs
    exact .acquire _ hidle (fun _ hc => by cases hc) (fun _ _ hc => by cases hc)
  case upgrade x k type nowait =>
    split at hs
    case h_2 => cases hs
    case h_1 t ht =>
      obtain ⟨⟨hidle, d, -, hd⟩, hs⟩ := Option.ite_none_right_eq_some.1 hs
      split_ifs at hs <;> cases hs
      · exact .stay
      · refine .acquire nowait hidle (fun k₀ hk₀ => ?_) fun _ _ hg => (Goal.upgrade.inj hg).2.symm
        cases hk₀
        rw [ht]
        exact ⟨⟨d, hd⟩, rfl⟩
  case merge x =>
    split at hs
    case h_2 => cases hs
    case h_1 k type fresh hpc =>
      split at hs
      case h_2 => cases hs
      case h_1 t ht => exact Option.some.inj hs ▸ .merge hpc ht
  case downgrade x k type =>
    split at hs
    case h_2 => cases hs
    case h_1 t ht =>
      obtain ⟨⟨hidle, d, -, hd⟩, hs⟩ := Option.ite_none_right_eq_some.1 hs
      split_ifs at hs with hno <;> cases hs
      · exact .stay
      · rw [not_or, Bool.not_eq_false] at hno
        exact .downgrade hidle ht hd hno.2
  case clone x k type d =>
    split at hs
    case h_2 => cases hs
    case h_1 t ht =>
      obtain ⟨⟨hidle, ⟨d', -, hd⟩, hle⟩, hs⟩ := Option.ite_none_right_eq_some.1 hs
      exact Option.some.inj hs ▸ .clone rfl hidle ht hd hle
  case release x d k =>
    split at hs
    case h_2 => cases hs
    case h_1 t ht =>
      obtain ⟨⟨hidle, hd⟩, hs⟩ := Option.ite_none_right_eq_some.1 hs
      exact Option.some.inj hs ▸ .release hidle ht hd
  case wake x =>
    split at hs
    case h_2 => cases hs
    case h_1 k goal hpc =>
      obtain ⟨-, hs⟩ := Option.ite_none_left_eq_some.1 hs
      exact Option.some.inj hs ▸ .move (.inl hpc) (.inr (.inr ⟨_, rfl, id⟩))
  case kill x | timeout x =>
    split at hs
    case h_2 => cases hs
    case h_1 k goal hpc =>
      obtain ⟨hempty, hs⟩ := Option.ite_none_right_eq_some.1 hs
      exact Option.some.inj hs ▸ .close hpc hempty (by decide)
  case shortTimeout x =>
    split at hs
    case h_2 => cases hs
    case h_1 k goal hpc =>
      obtain ⟨-, hs⟩ := Option.ite_none_right_eq_some.1 hs
      exact Option.some.inj hs ▸ .move (.inl hpc) (.inr (.inl rfl))
  case checkConnected x connected =>
    split at hs
    case h_2 => cases hs
    case h_1 k goal hpc =>
      cases hs
      cases connected with
      | true => exact .move (.inr hpc) (.inl rfl)
      | false => exact .move (.inr hpc) (.inr (.inr ⟨.timeout, rfl, nofun⟩))
  case victim x =>
    have hset : s' = s.setStatus x .victim := by
        split at hs <;> first | exact (Option.some.inj hs).symm | cases hs
    obtain rfl := hset
    unfold State.setStatus
    split_ifs with hempty
    · exact .victim hempty
    · exact .stay
  case finish x =>
    split at hs
    case h_2 => cases hs
    case h_1 k goal status hpc =>
      split at hs
      case h_2 => cases hs
      case h_1 t ht =>
        split_ifs at hs with hstatus <;> cases hs
        · exact .gain (hstatus ▸ hpc)
        · exact .giveUp rfl hpc hstatus ht
  case recycle l n =>
    obtain ⟨-, hs⟩ := Option.ite_none_right_eq_some.1 hs
    exact Option.some.inj hs ▸ .recycle _

/-- **Whoever gives up has closed its slot**: the slot of a context that goes by another status than
`GRANTED` has not been granted. -/
def Closed (s : State X L) : Event X L → Prop
  | .finish x => ∀ k goal status, s.pc x = .ended k goal status → status ≠ .granted →
      s.wait x ≠ .granted
  | _ => True

/-- **Every step within `Closed` keeps the books**, and every step at all keeps those that a grant
that is not noticed does not break. -/
theorem Inv.step (h : Inv Q s place) (hclosed : Closed s e ∨ Q.Lenient)
    (hs : s.step strategy m e = some s') : ∃ place', Inv Q s' place' := by
  cases does_of_step strategy m hs with
  | stay => exact ⟨place, h⟩
  | acquire nowait hidle hgoal => exact h.acquireLock strategy hidle _ hgoal nowait
  | @merge x k type fresh t hpc ht =>
    have hidle : Inv Q (s.goto x .idle) place :=
      ⟨h.placed.congr rfl rfl,
        h.control.goto_rest rfl (fun _ hc => by cases hc) (fun _ _ _ hc => by cases hc),
        fun j hj => live_goto (fun i hi => by rw [hpc] at hi; cases hi) (h.live j hj)⟩
    obtain ⟨d, hd⟩ := h.control.upgrading x k (by rw [hpc]; rfl)
    exact hidle.mergeTickets (by simp) ht hd type
      fun n hn => h.control.merging x k type n (hpc.trans (by rw [hn]))
  | downgrade _ ht hd =>
    exact ((h.retype ht (h.place_of_mem hd ht) _).rescheduleWaiters strategy m
      (grantsKeep_true strategy) trivial).1
  | @clone x k type t d d' _ hidle =>
    have hgoal : (Goal.acquire d).Sound s x t.lock := fun _ hc => by cases hc
    exact ⟨_, h.create_granted hidle type hgoal⟩
  | release hidle ht hd =>
    exact (removeAndReschedule_inv strategy m (h.release hidle hd ht)
      (grantsKeep_true strategy) trivial).1
  | move hfrom hto =>
    obtain hpc | hpc := hfrom <;> obtain rfl | rfl | ⟨status, rfl, hgranted⟩ := hto <;>
      exact ⟨place, h.goto (congrArg Pc.pending hpc).symm (congrArg Pc.upgrading hpc).symm
        (fun _ _ hc => by cases hc <;> exact hgranted rfl) (fun _ _ _ hc => by cases hc)⟩
  | close hpc hempty hstatus =>
    exact ⟨place, (h.setWait hempty hstatus).goto (by rw [hpc]; rfl) (by rw [hpc]; rfl)
      (fun _ _ hc => absurd (Pc.ended.inj hc).2.2 hstatus) (fun _ _ _ hc => by cases hc)⟩
  | victim hempty => exact ⟨place, h.setWait hempty (by decide)⟩
  | gain hpc => exact ⟨place, h.finish_granted hpc⟩
  | @giveUp x k goal status t he hpc hstatus ht =>
    subst he
    have hfailed := h.finish_failed (by rw [hpc]; rfl)
      (hclosed.imp_left fun hc => hc k goal status hpc hstatus) ht
    exact (removeAndReschedule_inv strategy m hfailed (grantsKeep_true strategy) trivial).1
  | recycle n => exact ⟨place, h.congr rfl⟩

/-! ## A grant that is not noticed -/

/-- **The counter of the granted list is one too high.** -/
def Excess (s : State X L) (l : L) (type : MdlType) : Prop :=
  (s.lists l .granted).typeCounters type =
    (s.lists l .granted).list.countP (HasType s.ticket type) + 1

/-- Another waiter that is granted its lock does not change that. -/
theorem Excess.grantWaiter (h : Excess s l type)
    (hk : k ∉ (s.lists l .granted).list) (skip : Bool) :
    Excess (s.grantWaiter strategy l skip k) l type ∧
      ∀ j, j ≠ k → j ∉ (s.lists l .granted).list →
        j ∉ ((s.grantWaiter strategy l skip k).lists l .granted).list := by
  unfold State.grantWaiter
  split
  · exact ⟨h, fun _ _ hj => hj⟩
  case h_2 t ht =>
    dsimp only
    by_cases hskip : skip = true ∧ decide (t.type ∈ (strategy l).hogLockTypes) = true
    · rw [if_pos hskip]
      exact ⟨h, fun _ _ hj => hj⟩
    rw [if_neg hskip]
    by_cases hgrant : s.canGrantLock strategy l t.type t.ctx skip ∧ s.wait t.ctx = .empty
    · have hwait : s.setStatus t.ctx .granted =
          { s with wait := update s.wait t.ctx .granted } := if_pos hgrant.2
      have htype : HasType s.ticket type k ↔ t.type = type := by simp [HasType, ht]
      unfold Excess at h ⊢
      rw [if_pos hgrant, hwait]
      simp only [State.addTicket, State.removeTicket, TicketList.addTicket, and_self, if_true,
        reduceCtorEq, and_false, if_false, erase_of_not_mem hk, countP_append,
        countP_singleton, update_apply, htype, mem_append,
        mem_singleton, decide_eq_true_eq]
      refine ⟨?_, fun j hjk hj => by simp [hjk, hj]⟩
      by_cases hty : type = t.type
      · subst hty
        simp [h]
      · simp [hty, Ne.symm hty, h]
    · rw [if_neg hgrant]
      exact ⟨h, fun _ _ hj => hj⟩

theorem Excess.grantWaiters (skip : Bool) : ∀ (ks : List ℕ) {s : State X L},
    Excess s l type → (∀ k ∈ ks, k ∉ (s.lists l .granted).list) → ks.Nodup →
    Excess (ks.foldl (State.grantWaiter strategy l skip) s) l type
  | [], _, h, _, _ => h
  | k :: ks, s, h, hks, hnodup => by
      obtain ⟨hk, hnodup⟩ := nodup_cons.1 hnodup
      obtain ⟨h', hother⟩ := h.grantWaiter strategy (hks k mem_cons_self) skip
      refine grantWaiters skip ks h' (fun j hj => ?_) hnodup
      exact hother j (fun hjk => hk (hjk ▸ hj)) (hks j (mem_cons_of_mem k hj))

theorem Excess.removeAndReschedule {type' : MdlType}
    (h : Excess (s.removeTicket l side k type) l type')
    (hdisjoint : ∀ j ∈ ((s.removeTicket l side k type).lists l .waiting).list,
      j ∉ ((s.removeTicket l side k type).lists l .granted).list)
    (hnodup : ((s.removeTicket l side k type).lists l .waiting).list.Nodup) :
    Excess (s.removeAndReschedule strategy m l side k type) l type' := by
  unfold State.removeAndReschedule State.rescheduleWaiters
  dsimp only
  split_ifs
  · exact h
  · exact h.grantWaiters strategy _ _ hdisjoint hnodup
  · exact h.grantWaiters strategy _ _ hdisjoint hnodup

/-- **A context gives up and its slot has been granted**: its ticket leaves the granted list, and
the counters of that list stay as they were. -/
theorem Inv.excess (h : Inv .exact s place) (hpending : (s.pc x).pending = some k)
    (hwait : s.wait x = .granted) (ht : s.ticket k = some t) :
    Excess ((s.goto x .idle).removeAndReschedule strategy m t.lock .waiting k t.type) t.lock
      t.type := by
  obtain ⟨t', ht', -, hplace⟩ := h.control.pending x k hpending
  rw [ht] at ht'
  cases ht'
  rw [if_pos hwait, ← h.placed.mem_iff] at hplace
  have hlist : ∀ side, (((s.goto x .idle).removeTicket t.lock .waiting k t.type).lists t.lock
      side).list = (s.lists t.lock side).list.erase k := by
    intro side
    dsimp only [State.removeTicket]
    split_ifs <;> rfl
  have htype : HasType s.ticket t.type k := hasType_of_ticket ht
  have hpos : 0 < (s.lists t.lock .granted).list.countP (HasType s.ticket t.type) :=
    countP_pos_iff.2 ⟨k, hplace, by simpa using htype⟩
  refine Excess.removeAndReschedule strategy m ?_ (fun j hj hj' => ?_) ?_
  · have hcounters := (h.placed.tally t.lock .granted).counters t.type
    unfold Excess
    rw [hlist]
    simp only [State.removeTicket, reduceCtorEq, and_false, if_false]
    change (s.lists t.lock .granted).typeCounters t.type =
      (((s.lists t.lock .granted).list.erase k).countP (HasType s.ticket t.type) : ℤ) + 1
    rw [countP_erase, if_pos ⟨hplace, by simpa using htype⟩]
    omega
  · rw [hlist] at hj hj'
    have hw := (h.placed.mem_iff j t.lock .waiting).1 (mem_of_mem_erase hj)
    have hg := (h.placed.mem_iff j t.lock .granted).1 (mem_of_mem_erase hj')
    rw [hw] at hg
    cases hg
  · rw [hlist]
    exact (h.placed.nodup t.lock .waiting).erase k

/-! ## The books -/

/-- **The books are right.** A ticket is one of its lock from the call that makes it until the
context releases it or gives it up. -/
structure Booked (s : State X L) : Prop where
  /-- The counters count the tickets by type, and the bitmap is the set of types present. -/
  exact : ∀ l side, (s.lists l side).Exact s.ticket
  /-- A ticket is once in one of the two lists of its lock. -/
  once : ∀ k t, s.Live k → s.ticket k = some t →
    (s.lists t.lock .granted).list.count k + (s.lists t.lock .waiting).list.count k = 1
  /-- It is in no list of another lock. -/
  own : ∀ k t l side, s.ticket k = some t → k ∈ (s.lists l side).list → t.lock = l
  /-- A ticket that no context has any more, such as that of a call that failed, is in no list. -/
  gone : ∀ k l side, ¬ s.Live k → k ∉ (s.lists l side).list

omit [DecidableEq X] in
theorem Inv.count (h : Inv Q s place) (k : ℕ) (l : L) (side : Side) :
    (s.lists l side).list.count k = if place k = some (l, side) then 1 else 0 := by
  rw [(h.placed.nodup l side).count]
  simp only [h.placed.mem_iff]

omit [DecidableEq X] in
theorem Inv.booked (h : Inv .exact s place) : Booked s where
  exact := h.placed.tally
  once := by
    intro k t hk ht
    have hplace : ∃ side, place k = some (t.lock, side) := by
      rcases hk with ⟨x, d, hk⟩ | ⟨x, hk⟩
      · exact ⟨_, h.place_of_mem hk ht⟩
      · obtain ⟨t', ht', -, hp⟩ := h.control.pending x k hk
        rw [ht] at ht'
        cases ht'
        exact ⟨_, hp⟩
    obtain ⟨side, hside⟩ := hplace
    rw [h.count, h.count, hside]
    cases side <;> simp
  own := by
    intro k t l side ht hk
    have hp := (h.placed.mem_iff k l side).1 hk
    rcases h.live k (by simp [hp]) with ⟨x, d, hk⟩ | ⟨x, hk⟩
    · rw [h.place_of_mem hk ht] at hp
      simp only [Option.some.injEq, Prod.mk.injEq] at hp
      exact hp.1
    · obtain ⟨t', ht', -, hp'⟩ := h.control.pending x k hk
      rw [ht] at ht'
      cases ht'
      rw [hp'] at hp
      simp only [Option.some.injEq, Prod.mk.injEq] at hp
      exact hp.1
  gone := by
    intro k l side hk hmem
    rw [h.placed.mem_iff] at hmem
    exact hk (h.live k (by simp [hmem]))

/-- **A step outside of `Closed` breaks the books.** -/
theorem Inv.not_booked_step (h : Inv .exact s place) (hclosed : ¬ Closed s e)
    (hs : s.step strategy m e = some s') : ¬ Booked s' := by
  cases e with
  | finish x =>
    simp only [Closed, not_forall, not_not] at hclosed
    obtain ⟨k, goal, status, hpc, hstatus, hwait⟩ := hclosed
    have hpending : (s.pc x).pending = some k := by rw [hpc]; rfl
    obtain ⟨t, ht, -⟩ := h.control.pending x k hpending
    simp only [State.step, hpc, ht, if_neg hstatus] at hs
    cases hs
    intro hb
    have hexcess := h.excess strategy m hpending hwait ht
    rw [Excess, (hb.exact t.lock .granted).counters] at hexcess
    omega
  | _ => exact absurd trivial hclosed

/-- **The books of the metadata locks are right in every state of a run, exactly if no context gives
up after its slot was granted**: a context that ends its wait with something else than `GRANTED` has
that status in its slot, or the slot is at least not granted when it removes its ticket. -/
theorem booked_iff (es : List (Event X L)) :
    Machine.Safe (State.step strategy m) Booked State.init es ↔
      Machine.Meets (State.step strategy m) Closed State.init es :=
  Machine.safe_iff_meets (I := fun s => ∃ place, Inv .exact s place) (fun _ ⟨_, h⟩ => h.booked)
    (fun _ _ _ ⟨_, h⟩ hclosed hs => h.step strategy m (.inl hclosed) hs)
    (fun _ _ _ ⟨_, h⟩ hclosed hs => h.not_booked_step strategy m hclosed hs) ⟨_, inv_init⟩

/-- **A lock that is held is seen**: its ticket is held once, by its own context, and is once in the
granted list of its lock, whose bitmap has its type. -/
def HeldSeen (s : State X L) : Prop :=
  ∀ x d k, k ∈ s.tickets x d → (s.tickets x d).count k = 1 ∧
    (∀ y e, k ∈ s.tickets y e → y = x ∧ e = d) ∧ ∃ t, s.ticket k = some t ∧ t.ctx = x ∧
      (s.lists t.lock .granted).list.count k = 1 ∧ t.type ∈ (s.lists t.lock .granted).bitmap

/-- **Every lock that is held is seen in every state of every run**, also in those that break the
books: a grant that is not noticed is counted on and never missed. -/
theorem safe_heldSeen (es : List (Event X L)) :
    Machine.Safe (State.step strategy m) HeldSeen State.init es := by
  refine Machine.safe_of_step (I := fun s => ∃ place, Inv .covers s place)
    (fun s ⟨place, h⟩ x d k hk => ?_)
    (fun _ _ _ ⟨_, h⟩ hs => h.step strategy m (.inr Tally.covers_lenient) hs) es ⟨_, inv_init⟩
  obtain ⟨t, ht, hctx, hplace⟩ := h.control.held x d k hk
  refine ⟨count_eq_one_of_mem (h.control.nodup x d) hk, fun y e hy => ?_, t, ht, hctx, ?_,
    (h.placed.tally t.lock .granted rfl).bitmap t.type
      ⟨k, (h.placed.mem_iff ..).2 hplace, hasType_of_ticket ht⟩⟩
  · obtain rfl := ((h.control.ctx_unique ht).1 y e hy).trans hctx
    exact ⟨rfl, h.control.apart y e d k hy hk⟩
  · rw [h.count, if_pos hplace]

/-- One context holds an exclusive lock and the other one waits for a shared one. Its client
disconnects; before it removes its ticket, the first context releases its lock. -/
def disconnectRun : List (Event ℕ ℕ) :=
  [.acquire 0 0 .exclusive .transaction false, .acquire 1 0 .shared .transaction false,
    .shortTimeout 1, .checkConnected 1 false, .release 0 .transaction 0, .finish 1]

/-- **No ticket is left, and the granted list counts a shared one**; its waiting list counts one too
few. -/
theorem counters_disconnectRun :
    (Machine.exec (State.step (fun _ => .object) 10) State.init disconnectRun).map
        (fun s => ((s.lists 0 .granted).list, (s.lists 0 .waiting).list,
          (s.lists 0 .granted).typeCounters .shared, (s.lists 0 .waiting).typeCounters .shared)) =
        some ([], [], 1, -1) ∧
      ¬ Machine.Safe (State.step (fun _ => .object) 10) Booked State.init disconnectRun := by
  have hend : (Machine.exec (State.step (fun _ => .object) 10) State.init disconnectRun).map
      (fun s => ((s.lists 0 .granted).list, (s.lists 0 .waiting).list,
        (s.lists 0 .granted).typeCounters .shared, (s.lists 0 .waiting).typeCounters .shared)) =
      some ([], [], 1, -1) := by
    decide +kernel
  refine ⟨hend, ?_⟩
  obtain ⟨s, hs, hs'⟩ := Option.map_eq_some_iff.1 hend
  simp only [Prod.mk.injEq] at hs'
  obtain ⟨hlist, -, hcounter, -⟩ := hs'
  refine Machine.not_safe_of_exec hs fun hb => ?_
  have := (hb.exact 0 .granted).counters .shared
  rw [hcounter, hlist] at this
  cases this

end Mdl

end EloqSql
