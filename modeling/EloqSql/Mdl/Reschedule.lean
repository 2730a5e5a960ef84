import EloqSql.Mdl.Lists

/-!
# Mdl/Reschedule — one pass over the waiting tickets is enough

`reschedule_waiters` looks at each waiting ticket once. A ticket it passes over is held up by a
granted ticket of another context, or by a waiting one that goes before it. The first stays. The
second may be granted later in the pass, but what a type waits for it also conflicts with
(`incompatibleWaitingTypes_subset`), so that the ticket is then held up by a granted one. That it is
held up is an invariant of the pass (`Pass`), and at its end nothing that is left can be granted.
-/

namespace EloqSql

/-- **A type that goes before another one conflicts with it.** -/
theorem MdlStrategy.incompatibleWaitingTypes_subset (st : MdlStrategy) (type : MdlType) :
    st.incompatibleWaitingTypes type ⊆ st.incompatibleGrantedTypes type := by
  revert type
  cases st <;> decide

open MdlType List

namespace Mdl

variable {X L : Type*}

variable {s₀ : State X L} {todo : List ℕ}

/-- **A lock whose lists are in order**: the bitmaps are exact, and so are the counters, on which no
decision depends; a waiting ticket is there once and not granted, and no two waiting tickets are of
one context. -/
structure Queue (s : State X L) (l : L) : Prop where
  exact : ∀ side, (s.lists l side).Exact s.ticket
  nodup : (s.lists l .waiting).list.Nodup
  disjoint : ∀ k ∈ (s.lists l .waiting).list, k ∉ (s.lists l .granted).list
  single : ∀ k ∈ (s.lists l .waiting).list, ∀ j ∈ (s.lists l .waiting).list, ∀ t u,
    s.ticket k = some t → s.ticket j = some u → t.ctx = u.ctx → k = j

/-- **What holds up a ticket**: a granted ticket of another context that conflicts with it, or a
waiting ticket that goes before it. -/
def HeldUp (strategy : L → MdlStrategy) (s : State X L) (l : L) (t : Ticket X L) : Prop :=
  (∃ j ∈ (s.lists l .granted).list, ∃ u, s.ticket j = some u ∧ u.ctx ≠ t.ctx ∧
      u.type ∈ (strategy l).incompatibleGrantedTypes t.type) ∨
    ∃ j ∈ (s.lists l .waiting).list, ∃ u, s.ticket j = some u ∧
      u.type ∈ (strategy l).incompatibleWaitingTypes t.type

variable [DecidableEq X] [DecidableEq L] {strategy : L → MdlStrategy} {s s' : State X L} {l : L}
  {k : ℕ} {t : Ticket X L}

omit [DecidableEq X] [DecidableEq L] in
/-- A bitmap meets a set of types if and only if a ticket of the list has one of them. -/
theorem TicketList.Exact.inter_nonempty_iff {ticket : ℕ → Option (Ticket X L)} {tl : TicketList}
    (h : tl.Exact ticket) (types : Finset MdlType) :
    (tl.bitmap ∩ types).Nonempty ↔ ∃ j ∈ tl.list, ∃ u, ticket j = some u ∧ u.type ∈ types := by
  constructor
  · rintro ⟨type, htype⟩
    obtain ⟨hbit, hmem⟩ := Finset.mem_inter.1 htype
    obtain ⟨j, hj, hjt⟩ := (h.bitmap type).1 hbit
    obtain ⟨u, hu, rfl⟩ := Option.map_eq_some_iff.1 hjt
    exact ⟨j, hj, u, hu, hmem⟩
  · rintro ⟨j, hj, u, hu, hmem⟩
    refine ⟨u.type, Finset.mem_inter.2 ⟨(h.bitmap _).2 ⟨j, hj, ?_⟩, hmem⟩⟩
    rw [HasType, hu, Option.map_some]

omit [DecidableEq L] in
/-- **`can_grant_lock` refuses a ticket if and only if something holds it up.** -/
theorem Queue.canGrantLock_eq_false_iff (h : Queue s l) (t : Ticket X L) :
    s.canGrantLock strategy l t.type t.ctx false = false ↔ HeldUp strategy s l t := by
  have hwaiting := (h.exact .waiting).inter_nonempty_iff
    ((strategy l).incompatibleWaitingTypes t.type)
  have hgranted := (h.exact .granted).inter_nonempty_iff
    ((strategy l).incompatibleGrantedTypes t.type)
  simp only [State.canGrantLock, true_and]
  by_cases hw : ((s.lists l .waiting).bitmap ∩
      (strategy l).incompatibleWaitingTypes t.type).Nonempty
  · rw [if_pos hw]
    exact iff_of_true rfl (.inr (hwaiting.1 hw))
  · rw [if_neg hw, HeldUp, or_iff_left (fun hex => hw (hwaiting.2 hex))]
    by_cases hg : ((s.lists l .granted).bitmap ∩
        (strategy l).incompatibleGrantedTypes t.type).Nonempty
    · rw [if_pos hg, all_eq_false]
      refine exists_congr fun j => and_congr_right fun _ => ?_
      cases hj : s.ticket j with
      | none => simp
      | some u => simp
    · rw [if_neg hg]
      refine iff_of_false (by simp) ?_
      rintro ⟨j, hj, u, hu, -, hmem⟩
      exact hg (hgranted.2 ⟨j, hj, u, hu, hmem⟩)

/-! ## A grant -/

/-- The state after a waiting ticket is granted. -/
def grant (strategy : L → MdlStrategy) (s : State X L) (l : L) (k : ℕ) (t : Ticket X L) :
    State X L :=
  let s := ((s.setStatus t.ctx .granted).removeTicket l .waiting k t.type).addTicket l .granted k
    t.type
  { s with hogLockCount :=
      if t.type ∈ (strategy l).hogLockTypes then
        Function.update s.hogLockCount l (s.hogLockCount l + 1)
      else s.hogLockCount }

/-- One round of the loop grants the ticket or does nothing. -/
theorem grantWaiter_eq (ht : s.ticket k = some t) :
    s.grantWaiter strategy l false k =
      if s.canGrantLock strategy l t.type t.ctx false ∧ s.wait t.ctx = .empty then
        grant strategy s l k t
      else s := by
  simp [State.grantWaiter, ht, grant]

omit [DecidableEq L] in
theorem lists_setStatus (x : X) (status : MdlWait) : (s.setStatus x status).lists = s.lists := by
  rw [State.setStatus]
  split <;> rfl

@[simp] theorem grant_ticket : (grant strategy s l k t).ticket = s.ticket := by
  simp only [grant, State.addTicket, State.removeTicket, State.setStatus]
  split <;> rfl

theorem grant_wait_of_ne {x : X} (hx : x ≠ t.ctx) : (grant strategy s l k t).wait x = s.wait x := by
  simp only [grant, State.addTicket, State.removeTicket, State.setStatus]
  split
  · exact Function.update_of_ne hx ..
  · rfl

theorem grant_waiting : (grant strategy s l k t).lists l .waiting =
    ({ s.lists l .waiting with list := (s.lists l .waiting).list.erase k } : TicketList).discount
      t.type := by
  simp [grant, State.addTicket, State.removeTicket, lists_setStatus]

theorem grant_granted (hk : k ∉ (s.lists l .granted).list) :
    (grant strategy s l k t).lists l .granted = (s.lists l .granted).addTicket k t.type := by
  simp [grant, State.addTicket, State.removeTicket, lists_setStatus, erase_of_not_mem hk]

theorem mem_grant_waiting (h : Queue s l) {j : ℕ} :
    j ∈ ((grant strategy s l k t).lists l .waiting).list ↔
      j ≠ k ∧ j ∈ (s.lists l .waiting).list := by
  rw [grant_waiting]
  exact h.nodup.mem_erase_iff

/-- A granted ticket leaves the lists in order. -/
theorem Queue.grant (h : Queue s l) (hk : k ∈ (s.lists l .waiting).list)
    (ht : s.ticket k = some t) : Queue (grant strategy s l k t) l := by
  have htype : HasType s.ticket t.type k := by rw [HasType, ht, Option.map_some]
  have hno := h.disjoint k hk
  refine ⟨fun side => ?_, ?_, fun j hj => ?_, fun j hj i hi => ?_⟩
  · rw [grant_ticket]
    cases side with
    | granted =>
      rw [grant_granted hno]
      exact (h.exact .granted).addTicket htype
    | waiting =>
      rw [grant_waiting]
      exact (h.exact .waiting).removeTicket htype hk
  · rw [grant_waiting]
    exact h.nodup.erase k
  · obtain ⟨hjk, hj⟩ := (mem_grant_waiting h).1 hj
    rw [grant_granted hno]
    simpa [TicketList.addTicket, hjk] using h.disjoint j hj
  · rw [grant_ticket]
    exact h.single j ((mem_grant_waiting h).1 hj).2 i ((mem_grant_waiting h).1 hi).2

/-- **What is held up stays held up**: a ticket that went before it now conflicts with it. -/
theorem HeldUp.grant (h : Queue s l) {j : ℕ} {u : Ticket X L} (hj : j ∈ (s.lists l .waiting).list)
    (hu : s.ticket j = some u) (hk : k ∈ (s.lists l .waiting).list) (ht : s.ticket k = some t)
    (hjk : j ≠ k) (hup : HeldUp strategy s l u) : HeldUp strategy (grant strategy s l k t) l u := by
  simp only [HeldUp, grant_ticket, grant_granted (h.disjoint k hk)] at hup ⊢
  obtain ⟨i, hi, w, hw, hctx, hmem⟩ | ⟨i, hi, w, hw, hmem⟩ := hup
  · exact .inl ⟨i, mem_append_left _ hi, w, hw, hctx, hmem⟩
  by_cases hik : i = k
  · subst hik
    obtain rfl : w = t := Option.some.inj (hw.symm.trans ht)
    refine .inl ⟨i, mem_append_right _ (by simp), w, hw, fun hctx => ?_,
      (strategy l).incompatibleWaitingTypes_subset _ hmem⟩
    exact hjk (h.single j hj i hk u w hu hw hctx.symm)
  · exact .inr ⟨i, (mem_grant_waiting h).2 ⟨hik, hi⟩, w, hw, hmem⟩

/-! ## The pass -/

/-- **Where a pass is** that began in `s₀` and has the tickets `todo` before it: the lists are in
order, the slots of the waiting contexts are as they were, and every ticket behind it whose slot was
empty is held up. -/
structure Pass (strategy : L → MdlStrategy) (s₀ : State X L) (l : L) (todo : List ℕ)
    (s : State X L) : Prop where
  queue : Queue s l
  ticket : s.ticket = s₀.ticket
  sublist : todo.Sublist (s.lists l .waiting).list
  wait : ∀ k ∈ (s.lists l .waiting).list, ∀ t, s.ticket k = some t → s.wait t.ctx = s₀.wait t.ctx
  heldUp : ∀ k ∈ (s.lists l .waiting).list, k ∉ todo → ∀ t, s.ticket k = some t →
    s₀.wait t.ctx = .empty → HeldUp strategy s l t

omit [DecidableEq X] [DecidableEq L] in
/-- A ticket that is left where it is. -/
theorem Pass.skip (h : Pass strategy s₀ l (k :: todo) s)
    (hk : ∀ t, s.ticket k = some t → s₀.wait t.ctx = .empty → HeldUp strategy s l t) :
    Pass strategy s₀ l todo s where
  queue := h.queue
  ticket := h.ticket
  sublist := (sublist_cons_self k todo).trans h.sublist
  wait := h.wait
  heldUp j hj hjtodo u hu hempty := by
    by_cases hjk : j = k
    · subst hjk
      exact hk u hu hempty
    · exact h.heldUp j hj (by simp [hjk, hjtodo]) u hu hempty

/-- A ticket that is granted. -/
theorem Pass.grant (h : Pass strategy s₀ l (k :: todo) s)
    (ht : s.ticket k = some t) : Pass strategy s₀ l todo (grant strategy s l k t) := by
  have hk : k ∈ (s.lists l .waiting).list := h.sublist.subset mem_cons_self
  have hctx : ∀ j ∈ (s.lists l .waiting).list, j ≠ k → ∀ u, s.ticket j = some u → u.ctx ≠ t.ctx :=
    fun j hj hjk u hu hc => hjk (h.queue.single j hj k hk u t hu ht hc)
  refine ⟨h.queue.grant hk ht, grant_ticket.trans h.ticket, ?_, fun j hj u hu => ?_,
    fun j hj hjtodo u hu hempty => ?_⟩
  · rw [grant_waiting]
    have hsub := h.sublist.erase k
    rwa [erase_cons_head] at hsub
  · obtain ⟨hjk, hj⟩ := (mem_grant_waiting h.queue).1 hj
    rw [grant_ticket] at hu
    rw [grant_wait_of_ne (hctx j hj hjk u hu)]
    exact h.wait j hj u hu
  · obtain ⟨hjk, hj⟩ := (mem_grant_waiting h.queue).1 hj
    rw [grant_ticket] at hu
    exact (h.heldUp j hj (by simp [hjk, hjtodo]) u hu hempty).grant h.queue hj hu hk ht hjk

/-- **One round of the loop.** -/
theorem Pass.grantWaiter (h : Pass strategy s₀ l (k :: todo) s) :
    Pass strategy s₀ l todo (s.grantWaiter strategy l false k) := by
  have hk : k ∈ (s.lists l .waiting).list := h.sublist.subset mem_cons_self
  cases ht : s.ticket k with
  | none =>
    rw [State.grantWaiter, ht]
    exact h.skip fun t ht' => by simp [ht] at ht'
  | some t =>
    rw [grantWaiter_eq ht]
    split
    · exact h.grant ht
    · next hno =>
      refine h.skip fun u hu hempty => ?_
      obtain rfl : t = u := Option.some.inj (ht.symm.trans hu)
      rw [← h.queue.canGrantLock_eq_false_iff]
      have hwait := (h.wait k hk t ht).trans hempty
      simpa [hwait] using hno

/-- **The whole loop.** -/
theorem Pass.grantWaiters : ∀ (todo : List ℕ) {s : State X L}, Pass strategy s₀ l todo s →
      Pass strategy s₀ l [] (todo.foldl (State.grantWaiter strategy l false) s)
  | [], _, h => h
  | _ :: todo, _, h => Pass.grantWaiters todo h.grantWaiter

/-- **No ticket that can be granted is left behind.** -/
theorem not_canGrantLock_rescheduleWaiters (strategy : L → MdlStrategy) (maxWriteLockCount : ℕ)
    (s : State X L) (l : L) (h : Queue s l) (hhog : s.hogLockCount l < maxWriteLockCount) :
    ∀ k ∈ ((s.rescheduleWaiters strategy maxWriteLockCount l).lists l .waiting).list, ∀ t,
      s.ticket k = some t → s.wait t.ctx = .empty →
        (s.rescheduleWaiters strategy maxWriteLockCount l).canGrantLock strategy l t.type t.ctx
          false = false := by
  intro k hk t ht hempty
  have hstart : Pass strategy s l (s.lists l .waiting).list s :=
    ⟨h, rfl, List.Sublist.refl _, fun _ _ _ _ => rfl, fun k hk hno => absurd hk hno⟩
  have hend := Pass.grantWaiters _ hstart
  have hskip : (decide (maxWriteLockCount ≤ s.hogLockCount l) &&
      decide ((s.lists l .waiting).bitmap \ (strategy l).hogLockTypes).Nonempty) = false := by
    simp [Nat.not_le.2 hhog]
  -- the count of hog locks is neither in the lists nor in what can be granted
  obtain ⟨n, hn⟩ : ∃ n, s.rescheduleWaiters strategy maxWriteLockCount l =
      { (s.lists l .waiting).list.foldl (State.grantWaiter strategy l false) s with
        hogLockCount := n } := by
    simp only [State.rescheduleWaiters, hskip]
    split
    · exact ⟨_, rfl⟩
    · exact ⟨_, rfl⟩
  rw [hn] at hk ⊢
  rw [← hend.ticket] at ht
  exact (hend.queue.canGrantLock_eq_false_iff t).2 (hend.heldUp k hk (by simp) t ht hempty)

/-! ## A shared lock before an exclusive one -/

/-- On a free lock a shared ticket waits, and behind it an exclusive one. -/
def sharedThenExclusive : State ℕ ℕ :=
  { State.init with
    ticket := fun k => if k = 0 then some ⟨0, 0, shared⟩ else
      if k = 1 then some ⟨1, 0, exclusive⟩ else none
    lists := fun _ side => match side with
      | .granted => .nil
      | .waiting => (TicketList.nil.addTicket 0 shared).addTicket 1 exclusive }

theorem queue_sharedThenExclusive : Queue sharedThenExclusive 0 where
  exact side := by
    cases side with
    | granted => exact TicketList.exact_nil
    | waiting =>
      have h0 : HasType sharedThenExclusive.ticket shared 0 := rfl
      have h1 : HasType sharedThenExclusive.ticket exclusive 1 := rfl
      exact (TicketList.exact_nil.addTicket h0).addTicket h1
  nodup := by decide
  disjoint := by decide
  single := by
    have hlist : (sharedThenExclusive.lists 0 .waiting).list = [0, 1] := rfl
    have h0 : sharedThenExclusive.ticket 0 = some ⟨0, 0, shared⟩ := rfl
    have h1 : sharedThenExclusive.ticket 1 = some ⟨1, 0, exclusive⟩ := rfl
    rw [hlist]
    simp only [forall_mem_cons, h0, h1, Option.some.injEq]
    refine ⟨⟨?_, ?_, by simp⟩, ⟨?_, ?_, by simp⟩, by simp⟩ <;> rintro t u rfl rfl <;> decide

/-- The exclusive ticket is granted, after the shared one was passed over for it; the shared one is
then left with a reason. -/
theorem not_canGrantLock_sharedThenExclusive :
    ((sharedThenExclusive.rescheduleWaiters (fun _ => .object) 1 0).lists 0 .granted).list = [1] ∧
      (sharedThenExclusive.rescheduleWaiters (fun _ => .object) 1 0).canGrantLock
        (fun _ => .object) 0 shared 0 false = false :=
  ⟨by decide +kernel, not_canGrantLock_rescheduleWaiters (fun _ => .object) 1 sharedThenExclusive 0
    queue_sharedThenExclusive (by decide) 0 (by decide +kernel) ⟨0, 0, shared⟩ rfl rfl⟩

end Mdl

end EloqSql
