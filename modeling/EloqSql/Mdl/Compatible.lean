import EloqSql.Mdl.Bookkeeping

/-!
# Mdl/Compatible — granted metadata locks are compatible

A ticket comes into the granted list, or gets another type there, by five routes: it is granted at
once, granted by `reschedule_waiters`, cloned, downgraded, or merged with the ticket of an upgrade.
Only the first two look at the other tickets (`canGrantLock`), and they look at the bitmap before
the list, which misses no ticket even where it counts one too many. The others go by a stronger
ticket of the same context: what fits with the others for a type fits for a weaker one
(`Fits.mono`). A clone goes by the stronger ticket of *any* context, and `compatible_iff` says what
that takes.
-/

namespace EloqSql

open List

open Function (update update_of_ne update_self)

/-- Outside of the backup namespace the types are incompatible both ways. -/
theorem MdlStrategy.incompatibleGrantedTypes_symm : ∀ {st : MdlStrategy}, st ≠ .backup →
    ∀ a b : MdlType, a ∈ st.incompatibleGrantedTypes b → b ∈ st.incompatibleGrantedTypes a
  | .scoped, _ => by decide +kernel
  | .object, _ => by decide +kernel
  | .backup, hst => absurd rfl hst

namespace Mdl

variable {X L : Type*} (strategy : L → MdlStrategy)

/-- **No other context has a granted ticket that is incompatible with the type.** -/
def Fits (s : State X L) (l : L) (x : X) (type : MdlType) : Prop :=
  ∀ k ∈ (s.lists l .granted).list, ∀ t, s.ticket k = some t → t.ctx ≠ x →
    t.type ∉ (strategy l).incompatibleGrantedTypes type

/-- **Granted tickets of different contexts are compatible**, in the locks of objects and schemas.
-/
def Compatible (s : State X L) : Prop :=
  ∀ l, strategy l ≠ .backup → ∀ k ∈ (s.lists l .granted).list, ∀ t, s.ticket k = some t →
    Fits strategy s l t.ctx t.type

variable {strategy} {s s' : State X L} {place : ℕ → Option (L × Side)} {x : X} {k : ℕ} {l : L}
  {type : MdlType}

/-- **What fits for a type fits for a weaker one.** -/
theorem Fits.mono {held : MdlType} (h : Fits strategy s l x held)
    (hle : (strategy l).hasStrongerOrEqualType held type = true) : Fits strategy s l x type := by
  intro k hk t ht hne hc
  have hsub : (strategy l).incompatibleGrantedTypes type ⊆
      (strategy l).incompatibleGrantedTypes held := of_decide_eq_true hle
  exact h k hk t ht hne (hsub hc)

/-- **One ticket comes, goes or changes.** -/
theorem Compatible.change (h : Compatible strategy s) (k : ℕ)
    (hlists : ∀ l, ∀ j ∈ (s'.lists l .granted).list, j ≠ k →
      j ∈ (s.lists l .granted).list ∧ s'.ticket j = s.ticket j)
    (hfits : ∀ l, strategy l ≠ .backup → k ∈ (s'.lists l .granted).list → ∀ t,
      s'.ticket k = some t → Fits strategy s l t.ctx t.type) : Compatible strategy s' := by
  intro l hl j hj t ht i hi u hu hne hc
  by_cases hjk : j = k <;> by_cases hik : i = k
  · subst hjk hik
    rw [ht] at hu
    exact hne (congrArg Ticket.ctx (Option.some.inj hu).symm)
  · subst hjk
    obtain ⟨hi', htick⟩ := hlists l i hi hik
    exact hfits l hl hj t ht i hi' u (htick ▸ hu) hne hc
  · subst hik
    obtain ⟨hj', htick⟩ := hlists l j hj hjk
    exact hfits l hl hi u hu j hj' t (htick ▸ ht) hne.symm
      (MdlStrategy.incompatibleGrantedTypes_symm hl _ _ hc)
  · obtain ⟨hj', hjt⟩ := hlists l j hj hjk
    obtain ⟨hi', hit⟩ := hlists l i hi hik
    exact h l hl j hj' t (hjt ▸ ht) i hi' u (hit ▸ hu) hne hc

/-- What leaves the lists and the tickets alone. -/
theorem Compatible.congr (h : Compatible strategy s) (hlists : s'.lists = s.lists)
    (hticket : s'.ticket = s.ticket) : Compatible strategy s' := by
  unfold Compatible Fits
  rw [hlists, hticket]
  exact h

/-! ## Grants -/

section Grants

/-- A new ticket that is in no list yet. -/
theorem Compatible.createTicket (hc : Compatible strategy s) (h : Inv .covers s place) (x : X)
    (l : L) (type : MdlType) : Compatible strategy (s.createTicket x l type) := by
  have hno : ∀ l, s.next ∉ (s.lists l .granted).list := by
    intro l hmem
    rw [h.placed.mem_iff, h.place_next] at hmem
    cases hmem
  exact hc.change s.next (fun _ j hj hjk => ⟨hj, update_of_ne hjk ..⟩)
    fun l _ hmem => absurd hmem (hno l)

variable [DecidableEq L]

/-- A ticket leaves the lists. -/
theorem Compatible.removeTicket (hc : Compatible strategy s)
    (hnodup : ∀ l, (s.lists l .granted).list.Nodup) (l : L) (side : Side) (k : ℕ)
    (type : MdlType) : Compatible strategy (s.removeTicket l side k type) := by
  have hlist : ∀ l', ((s.removeTicket l side k type).lists l' .granted).list =
      (s.lists l' .granted).list.erase k := by
    intro l'
    dsimp only [State.removeTicket]
    split_ifs <;> rfl
  refine hc.change k (fun l' j hj _ => ⟨?_, rfl⟩) fun l' _ hmem => ?_
  · rw [hlist] at hj
    exact mem_of_mem_erase hj
  · rw [hlist] at hmem
    exact absurd hmem (hnodup l').not_mem_erase

/-- **A granted ticket gets a type that fits.** -/
theorem Compatible.retype (hc : Compatible strategy s)
    (hnodup : ∀ l, (s.lists l .granted).list.Nodup) {t : Ticket X L}
    (hfits : strategy t.lock ≠ .backup → Fits strategy s t.lock t.ctx type) :
    Compatible strategy (s.retype k t type) := by
  refine hc.change k (fun l j hj hjk => ⟨?_, update_of_ne hjk ..⟩)
    fun l hl hmem u hu => ?_
  · simp only [State.retype, State.addTicket, State.removeTicket, and_true] at hj
    split_ifs at hj
    · simp only [TicketList.addTicket, TicketList.discount, mem_append, mem_singleton,
        hjk, or_false] at hj
      exact mem_of_mem_erase hj
    · exact mem_of_mem_erase hj
  · have hlock : l = t.lock := by
      by_contra hne
      simp only [State.retype, State.addTicket, State.removeTicket, and_true, hne, if_false] at hmem
      exact (hnodup l).not_mem_erase hmem
    subst hlock
    have hself : (s.retype k t type).ticket k = some { t with type := type } :=
      update_self ..
    cases hself.symm.trans hu
    exact hfits hl

variable [DecidableEq X]

omit [DecidableEq L] in
/-- **`can_grant_lock` sees every ticket that is in the way.** -/
theorem fits_of_canGrantLock (hcovers : (s.lists l .granted).Covers s.ticket) {ignore : Bool}
    (hgrant : s.canGrantLock strategy l type x ignore = true) : Fits strategy s l x type := by
  intro k hk t ht hne hc
  unfold State.canGrantLock at hgrant
  dsimp only at hgrant
  split_ifs at hgrant with hpriority hbits
  · have hall := all_eq_true.1 hgrant k hk
    simp [ht, hne, hc] at hall
  · exact hbits ⟨t.type, Finset.mem_inter.2 ⟨hcovers.bitmap _ ⟨k, hk, hasType_of_ticket ht⟩, hc⟩⟩

/-- **A waiter is granted its lock** only if its type fits. -/
theorem Compatible.grantWaiter (h : Inv .covers s place) (hk : place k = some (l, .waiting))
    (skip : Bool) (hc : Compatible strategy s) :
    Compatible strategy (s.grantWaiter strategy l skip k) := by
  unfold State.grantWaiter
  split
  · exact hc
  case h_2 t ht =>
    dsimp only
    by_cases hskip : skip = true ∧ decide (t.type ∈ (strategy l).hogLockTypes) = true
    · rw [if_pos hskip]
      exact hc
    rw [if_neg hskip]
    by_cases hgrant : s.canGrantLock strategy l t.type t.ctx skip ∧ s.wait t.ctx = .empty
    swap
    · rw [if_neg hgrant]
      exact hc
    rw [if_pos hgrant]
    have hwait : s.setStatus t.ctx .granted =
        { s with wait := update s.wait t.ctx .granted } := if_pos hgrant.2
    rw [hwait]
    refine hc.change k (fun l' j hj hjk => ⟨?_, rfl⟩) fun l' hl' hmem u hu => ?_
    · simp only [State.addTicket, State.removeTicket, reduceCtorEq, and_false, if_false] at hj
      split_ifs at hj
      · simp only [TicketList.addTicket, mem_append, mem_singleton, hjk, or_false] at hj
        exact mem_of_mem_erase hj
      · exact mem_of_mem_erase hj
    · have hl : l' = l := by
        by_contra hne
        simp only [State.addTicket, State.removeTicket, reduceCtorEq, and_false, if_false, hne,
          false_and] at hmem
        have hgranted := (h.placed.mem_iff k l' .granted).1 (mem_of_mem_erase hmem)
        rw [hk] at hgranted
        cases hgranted
      subst hl
      cases ht.symm.trans hu
      exact fits_of_canGrantLock (h.placed.tally l' .granted rfl) hgrant.1

theorem grantsKeep_compatible :
    GrantsKeep strategy (.covers : Tally X L) l (Compatible strategy) :=
  ⟨fun skip h hk hc => Compatible.grantWaiter h hk skip hc, fun _ _ hc => hc.congr rfl rfl⟩

/-- **A new ticket is granted** with a type that fits. -/
theorem Compatible.cloneTicket (hc : Compatible strategy s) (h : Inv .covers s place)
    (hfits : strategy l ≠ .backup → Fits strategy s l x type) (d : MdlDuration) (pc : Pc) :
    Compatible strategy (s.cloneTicket x l type d pc) := by
  refine hc.change s.next (fun l' j hj hjk => ⟨?_, update_of_ne hjk ..⟩)
    fun l' hl' hmem u hu => ?_
  · have hj' : j ∈ (((s.createTicket x l type).addTicket l .granted s.next type).lists l'
        .granted).list := hj
    simp only [State.addTicket, and_true] at hj'
    split_ifs at hj'
    · simp only [TicketList.addTicket, mem_append, mem_singleton, hjk, or_false] at hj'
      exact hj'
    · exact hj'
  · have hlock : l' = l := by
      by_contra hne
      have hmem' : s.next ∈ (((s.createTicket x l type).addTicket l .granted s.next type).lists l'
          .granted).list := hmem
      simp only [State.addTicket, and_true, hne, if_false] at hmem'
      have := (h.placed.mem_iff s.next l' .granted).1 hmem'
      rw [h.place_next] at this
      cases this
    subst hlock
    have hself : (s.createTicket x l' type).ticket s.next = some ⟨x, l', type⟩ :=
      update_self ..
    cases hself.symm.trans hu
    exact hfits hl'

end Grants

/-! ## What an upgrade has in hand -/

/-- The ticket and the type that a goal acquires for an upgrade. -/
def Goal.aim (k : ℕ) : Goal → Option (ℕ × MdlType)
  | .upgrade _ type => some (k, type)
  | .acquire _ => none

/-- The ticket that a context acquires for an upgrade, with the type it is to have. -/
def Pc.aim : Pc → Option (ℕ × MdlType)
  | .waiting k goal | .checking k goal | .ended k goal _ => goal.aim k
  | .merging _ type (some n) => some (n, type)
  | _ => none

variable (strategy) in
/-- **An upgrade goes by a ticket of the context**: one of the new type, or one that is stronger. -/
structure Aimed (s : State X L) (x : X) : Prop where
  typed : ∀ k type, (s.pc x).aim = some (k, type) → HasType s.ticket type k
  covered : ∀ k type, s.pc x = .merging k type none → ∃ j d t u, j ∈ s.tickets x d ∧
    s.ticket j = some t ∧ s.ticket k = some u ∧ t.lock = u.lock ∧
    (strategy t.lock).hasStrongerOrEqualType t.type type = true

theorem aimed_idle (hidle : s.pc x = .idle) : Aimed strategy s x := by
  refine ⟨fun k type hk => ?_, fun k type hk => ?_⟩ <;>
  · rw [hidle] at hk
    cases hk

/-- **Nothing of the other contexts changes.** -/
structure Frame (x : X) (s s' : State X L) : Prop where
  pc : ∀ y, y ≠ x → s'.pc y = s.pc y
  tickets : ∀ y, y ≠ x → s'.tickets y = s.tickets y
  ticket : ∀ k t, s.ticket k = some t → t.ctx ≠ x → s'.ticket k = some t

/-- The ticket of an upgrade is one of the context. -/
theorem Control.ctx_of_aim (h : Control s place) (haim : (s.pc x).aim = some (k, type)) :
    ∃ t, s.ticket k = some t ∧ t.ctx = x := by
  have hpending : (s.pc x).pending = some k → ∃ t, s.ticket k = some t ∧ t.ctx = x := by
    intro hk
    obtain ⟨t, ht, hctx, -⟩ := h.pending x k hk
    exact ⟨t, ht, hctx⟩
  have hgoal : ∀ {k' : ℕ} {goal : Goal}, goal.aim k' = some (k, type) → k' = k := by
    rintro k' (_ | _) hk
    · cases hk
    · exact (Prod.mk.inj (Option.some.inj hk)).1
  match hpc : s.pc x with
  | .idle | .merging _ _ none =>
    rw [hpc] at haim
    cases haim
  | .waiting k' goal | .checking k' goal | .ended k' goal _ =>
    rw [hpc] at haim hpending
    exact hpending (congrArg some (hgoal haim))
  | .merging k₀ type' (some n) =>
    rw [hpc] at haim
    obtain rfl := (Prod.mk.inj (Option.some.inj haim)).1
    obtain ⟨hn, -, -⟩ := h.merging x k₀ type' n hpc
    obtain ⟨t, ht, hctx, -⟩ := h.held x _ n hn
    exact ⟨t, ht, hctx⟩

/-- **What a context does leaves the upgrades of the others alone.** -/
theorem Aimed.frame (h : Control s place) (hframe : Frame x s s') {y : X} (hy : y ≠ x)
    (haimed : Aimed strategy s y) : Aimed strategy s' y := by
  have hkeep : ∀ d j, j ∈ s.tickets y d → s'.ticket j = s.ticket j := by
    intro d j hj
    obtain ⟨t, ht, hctx, -⟩ := h.held y d j hj
    rw [ht]
    exact hframe.ticket j t ht (hctx ▸ hy)
  refine ⟨fun k type hk => ?_, fun k type hk => ?_⟩
  · rw [hframe.pc y hy] at hk
    obtain ⟨t, ht, hctx⟩ := h.ctx_of_aim hk
    have htype := haimed.typed k type hk
    unfold HasType at htype ⊢
    rwa [hframe.ticket k t ht (hctx ▸ hy), ← ht]
  · rw [hframe.pc y hy] at hk
    obtain ⟨j, d, t, u, hj, ht, hu, hrest⟩ := haimed.covered k type hk
    obtain ⟨e, he⟩ := h.upgrading y k (by rw [hk]; rfl)
    refine ⟨j, d, t, u, ?_, (hkeep d j hj).trans ht, (hkeep e k he).trans hu, hrest⟩
    rw [hframe.tickets y hy]
    exact hj

/-! ## What each step does to the others -/

section Frames

theorem Frame.refl (x : X) (s : State X L) : Frame x s s :=
  ⟨fun _ _ => rfl, fun _ _ => rfl, fun _ _ ht _ => ht⟩

theorem Frame.trans {s₁ s₂ s₃ : State X L} (h : Frame x s₁ s₂) (h' : Frame x s₂ s₃) :
    Frame x s₁ s₃ :=
  ⟨fun y hy => (h'.pc y hy).trans (h.pc y hy), fun y hy => (h'.tickets y hy).trans (h.tickets y hy),
    fun k t ht hne => h'.ticket k t (h.ticket k t ht hne) hne⟩

/-- What is only in the lists and the slots does not matter. -/
theorem Frame.of_eq (x : X) (hpc : s'.pc = s.pc) (htickets : s'.tickets = s.tickets)
    (hticket : s'.ticket = s.ticket) : Frame x s s' :=
  ⟨fun _ _ => by rw [hpc], fun _ _ => by rw [htickets], fun _ _ ht _ => by rw [hticket]; exact ht⟩

theorem Frame.createTicket (h : Control s place) (x : X) (l : L) (type : MdlType) :
    Frame x s (s.createTicket x l type) := by
  refine ⟨fun _ _ => rfl, fun _ _ => rfl, fun k t ht _ => ?_⟩
  have hk : k ≠ s.next := by
    rintro rfl
    rw [h.fresh _ le_rfl] at ht
    cases ht
  exact (update_of_ne hk ..).trans ht

variable [DecidableEq X]

theorem Frame.goto (x : X) (s : State X L) (pc : Pc) : Frame x s (s.goto x pc) :=
  ⟨fun _ hy => update_of_ne hy .., fun _ _ => rfl, fun _ _ ht _ => ht⟩

theorem Frame.pushTicket (x : X) (s : State X L) (d : MdlDuration) (k : ℕ) :
    Frame x s (s.pushTicket x d k) :=
  ⟨fun _ _ => rfl, fun _ hy => funext fun _ => if_neg fun hc => hy hc.1, fun _ _ ht _ => ht⟩

theorem Frame.dropTicket (x : X) (s : State X L) (d : MdlDuration) (k : ℕ) :
    Frame x s (s.dropTicket x d k) :=
  ⟨fun _ _ => rfl, fun _ hy => funext fun _ => if_neg fun hc => hy hc.1, fun _ _ ht _ => ht⟩

variable [DecidableEq L]

theorem Frame.cloneTicket (h : Control s place) (x : X) (l : L) (type : MdlType)
    (d : MdlDuration) (pc : Pc) : Frame x s (s.cloneTicket x l type d pc) := by
  have hadd : Frame x (s.createTicket x l type)
      ((s.createTicket x l type).addTicket l .granted s.next type) := .of_eq x rfl rfl rfl
  exact (((Frame.createTicket h x l type).trans hadd).trans (.pushTicket x _ d s.next)).trans
    (.goto x _ pc)

omit [DecidableEq X] in
theorem Frame.retype (s : State X L) {t : Ticket X L} (ht : s.ticket k = some t)
    (type : MdlType) : Frame t.ctx s (s.retype k t type) := by
  refine ⟨fun _ _ => rfl, fun _ _ => rfl, fun j u hu hne => ?_⟩
  have hjk : j ≠ k := by
    rintro rfl
    exact hne (congrArg Ticket.ctx (Option.some.inj (ht.symm.trans hu)).symm)
  exact (update_of_ne hjk ..).trans hu

variable (strategy)

/-- `reschedule_waiters` moves tickets between the lists, and sets slots. -/
theorem grantWaiter_keeps (s : State X L) (l : L) (skip : Bool) (k : ℕ) :
    (s.grantWaiter strategy l skip k).pc = s.pc ∧
      (s.grantWaiter strategy l skip k).tickets = s.tickets ∧
      (s.grantWaiter strategy l skip k).ticket = s.ticket := by
  unfold State.grantWaiter State.setStatus
  split
  · exact ⟨rfl, rfl, rfl⟩
  · dsimp only
    split_ifs <;> exact ⟨rfl, rfl, rfl⟩

theorem rescheduleWaiters_keeps (m : ℕ) (s : State X L) (l : L) :
    (s.rescheduleWaiters strategy m l).pc = s.pc ∧
      (s.rescheduleWaiters strategy m l).tickets = s.tickets ∧
      (s.rescheduleWaiters strategy m l).ticket = s.ticket := by
  have hloop : ∀ (skip : Bool) (ks : List ℕ) (s : State X L),
      (ks.foldl (State.grantWaiter strategy l skip) s).pc = s.pc ∧
        (ks.foldl (State.grantWaiter strategy l skip) s).tickets = s.tickets ∧
        (ks.foldl (State.grantWaiter strategy l skip) s).ticket = s.ticket := by
    intro skip ks
    induction ks with
    | nil => exact fun s => ⟨rfl, rfl, rfl⟩
    | cons k ks ih =>
      intro s
      obtain ⟨hpc, htickets, hticket⟩ := ih (s.grantWaiter strategy l skip k)
      obtain ⟨hpc', htickets', hticket'⟩ := grantWaiter_keeps strategy s l skip k
      exact ⟨hpc.trans hpc', htickets.trans htickets', hticket.trans hticket'⟩
  unfold State.rescheduleWaiters
  dsimp only
  split_ifs <;> exact hloop ..

theorem removeAndReschedule_keeps (m : ℕ) (s : State X L) (l : L) (side : Side) (k : ℕ)
    (type : MdlType) :
    (s.removeAndReschedule strategy m l side k type).pc = s.pc ∧
      (s.removeAndReschedule strategy m l side k type).tickets = s.tickets ∧
      (s.removeAndReschedule strategy m l side k type).ticket = s.ticket := by
  unfold State.removeAndReschedule
  dsimp only
  split_ifs
  · exact ⟨rfl, rfl, rfl⟩
  · exact rescheduleWaiters_keeps strategy m _ l

end Frames

/-! ## The steps -/

section Steps

variable (strategy) (m : ℕ)

variable {d : MdlDuration} {e : Event X L} {t : Ticket X L}

/-- **What every state has.** -/
structure Sound (s : State X L) : Prop where
  inv : ∃ place, Inv .covers s place
  aimed : ∀ x, Aimed strategy s x
  compatible : Compatible strategy s

/-- **What a step of a context does.** -/
structure Keeps (x : X) (s s' : State X L) : Prop where
  frame : Frame x s s'
  aimed : Aimed strategy s' x
  compatible : Compatible strategy s'

variable {strategy m}

/-- **A ticket of the context fits**, and so does every weaker type. -/
theorem Compatible.fits_of_mem (hc : Compatible strategy s) (h : Inv .covers s place)
    (hk : k ∈ s.tickets x d) (ht : s.ticket k = some t)
    (hl : strategy t.lock ≠ .backup)
    (hle : (strategy t.lock).hasStrongerOrEqualType t.type type = true) :
    Fits strategy s t.lock x type := by
  obtain ⟨t', ht', rfl, hplace⟩ := h.control.held x d k hk
  cases ht.symm.trans ht'
  exact (hc t.lock hl k ((h.placed.mem_iff k _ _).2 hplace) t ht).mono hle

/-- Where a context goes with a new ticket of the type it wants. -/
theorem aimed_new {goal : Goal} (hpc : s.pc x = goal.after k true)
    (htype : HasType s.ticket type k)
    (hgoal : ∀ k₀ type', goal = .upgrade k₀ type' → type' = type) : Aimed strategy s x := by
  cases goal with
  | acquire d => exact aimed_idle hpc
  | upgrade k₀ type' =>
    obtain rfl := hgoal k₀ type' rfl
    refine ⟨fun j ty hj => ?_, fun j ty hj => ?_⟩
    · rw [hpc] at hj
      cases hj
      exact htype
    · rw [hpc] at hj
      simp [Goal.after] at hj

/-- A wait slot does not matter. -/
theorem Keeps.setWait (h : Keeps strategy x s s') (wait : X → MdlWait) :
    Keeps strategy x s { s' with wait := wait } :=
  ⟨h.frame.trans (.of_eq x rfl rfl rfl), ⟨h.aimed.typed, h.aimed.covered⟩,
    h.compatible.congr rfl rfl⟩

theorem sound_init : Sound strategy (State.init : State X L) :=
  ⟨⟨_, inv_init⟩, fun _ => aimed_idle rfl, fun _ _ _ hk => nomatch hk⟩

variable [DecidableEq L]

theorem findTicket_some {e : MdlDuration}
    (hfind : s.findTicket strategy x l type d = some (k, e)) : k ∈ s.tickets x e ∧
      ∃ t, s.ticket k = some t ∧ t.lock = l ∧
        (strategy l).hasStrongerOrEqualType t.type type = true := by
  unfold State.findTicket at hfind
  obtain ⟨e', -, he'⟩ := exists_of_findSome?_eq_some hfind
  obtain ⟨k', hk', heq⟩ := Option.map_eq_some_iff.1 he'
  obtain ⟨rfl, rfl⟩ := Prod.mk.inj heq
  refine ⟨mem_of_find?_eq_some hk', ?_⟩
  have hp := find?_some hk'
  cases ht : s.ticket k' with
  | none => simp [ht] at hp
  | some t =>
    simp only [ht, Bool.decide_and, Bool.decide_eq_true, Bool.and_eq_true,
      decide_eq_true_eq] at hp
    exact ⟨t, rfl, hp⟩

variable [DecidableEq X]

/-- **`acquire_lock` up to its wait.** -/
theorem Sound.acquireLock (h : Sound strategy s) (hidle : s.pc x = .idle) {goal : Goal}
    (hsound : goal.Sound s x l) (hgoal : ∀ k₀ type', goal = .upgrade k₀ type' → type' = type)
    (nowait : Bool) : Keeps strategy x s (s.acquireLock strategy x l type goal nowait) := by
  obtain ⟨⟨place, hinv⟩, -, hc⟩ := h
  have hnew : (s.createTicket x l type).ticket s.next = some ⟨x, l, type⟩ :=
    update_self ..
  -- a new ticket that is granted
  have hclone : (strategy l ≠ .backup → Fits strategy s l x type) → Keeps strategy x s
      (s.cloneTicket x l type goal.duration (goal.after s.next true)) := fun hfits =>
    ⟨.cloneTicket hinv.control x l type _ _,
      aimed_new (update_self ..) (hasType_of_ticket hnew) hgoal,
      hc.cloneTicket hinv hfits _ _⟩
  unfold State.acquireLock
  dsimp only
  split
  case h_1 found d hfind =>
    obtain ⟨hfound, t, ht, rfl, hle⟩ := findTicket_some hfind
    split_ifs with hdur
    · exact hclone fun hl => hc.fits_of_mem hinv hfound ht hl hle
    · refine ⟨.goto x s _, ?_, hc.congr rfl rfl⟩
      cases goal with
      | acquire e => exact aimed_idle (update_self ..)
      | upgrade k₀ type' =>
        obtain rfl := hgoal k₀ type' rfl
        have hpc : (s.goto x ((Goal.upgrade k₀ type').after found false)).pc x =
            .merging k₀ type' none := update_self ..
        refine ⟨fun j ty hj => ?_, fun j ty hj => ?_⟩
        · rw [hpc] at hj
          cases hj
        · rw [hpc] at hj
          obtain ⟨rfl, rfl, -⟩ := Pc.merging.inj hj
          obtain ⟨-, hlock⟩ := hsound k₀ rfl
          obtain ⟨u, hu, hulock⟩ := Option.map_eq_some_iff.1 hlock
          exact ⟨found, d, t, u, hfound, ht, hu, hulock.symm, hle⟩
  case h_2 hfind =>
    split_ifs with hgrant
    · refine hclone fun _ j hj t ht hne => ?_
      have hplaced := hinv.placed.setTicket hinv.place_next (some ⟨x, l, type⟩) (s.next + 1)
      have hjk : j ≠ s.next := by
        rintro rfl
        rw [hinv.placed.mem_iff, hinv.place_next] at hj
        cases hj
      exact fits_of_canGrantLock (hplaced.tally l .granted rfl) hgrant j hj t
        ((update_of_ne hjk ..).trans ht) hne
    · exact ⟨.createTicket hinv.control x l type, aimed_idle hidle, hc.createTicket hinv x l type⟩
    · refine ⟨?_, ?_, ?_⟩
      · have hadd : Frame x (s.createTicket x l type)
            { (s.createTicket x l type).addTicket l .waiting s.next type with
              wait := update s.wait x .empty } := .of_eq x rfl rfl rfl
        exact ((Frame.createTicket hinv.control x l type).trans hadd).trans (.goto x _ _)
      · refine ⟨fun j ty hj => ?_, fun j ty hj => ?_⟩
        · have hpc : (Pc.waiting s.next goal).aim = some (j, ty) := by
            rw [State.pc_goto, if_pos rfl] at hj
            exact hj
          cases goal with
          | acquire d => cases hpc
          | upgrade k₀ type' =>
            obtain rfl := hgoal k₀ type' rfl
            cases hpc
            exact hasType_of_ticket hnew
        · rw [State.pc_goto, if_pos rfl] at hj
          cases hj
      · refine (hc.createTicket hinv x l type).change s.next (fun l' j hj _ => ⟨?_, rfl⟩)
          fun l' _ hmem => ?_
        · simpa [State.addTicket] using hj
        · have hmem' : s.next ∈ (s.lists l' .granted).list := by
            simpa [State.addTicket, State.createTicket] using hmem
          rw [hinv.placed.mem_iff, hinv.place_next] at hmem'
          cases hmem'

/-- **The end of `upgrade_shared_lock`**: the ticket gets a type that fits, as the context has a
ticket of this type, or a stronger one. -/
theorem Sound.mergeTickets (h : Sound strategy s) {fresh : Option ℕ}
    (hpc : s.pc x = .merging k type fresh) (ht : s.ticket k = some t) :
    Keeps strategy x s ((s.goto x .idle).mergeTickets x k t type fresh) := by
  obtain ⟨⟨place, hinv⟩, haimed, hc⟩ := h
  obtain ⟨d, hk⟩ := hinv.control.upgrading x k (by rw [hpc]; rfl)
  obtain ⟨t', ht', rfl, -⟩ := hinv.control.held x d k hk
  cases ht.symm.trans ht'
  have hidle : (s.goto t.ctx .idle).pc t.ctx = .idle := update_self ..
  have hnodup : ∀ l, (s.lists l .granted).list.Nodup := fun l => hinv.placed.nodup l .granted
  have hgoto : Frame t.ctx s (s.goto t.ctx .idle) := .goto ..
  have hc' : Compatible strategy (s.goto t.ctx .idle) := hc.congr rfl rfl
  unfold State.mergeTickets
  cases fresh with
  | none =>
    obtain ⟨j, e, u, t', hj, hu, ht', hlock, hle⟩ := (haimed t.ctx).covered k type hpc
    cases ht.symm.trans ht'
    refine ⟨hgoto.trans (Frame.retype (s.goto t.ctx .idle) ht type), aimed_idle hidle, ?_⟩
    refine hc'.retype hnodup fun hl => ?_
    rw [← hlock] at hl ⊢
    exact hc.fits_of_mem hinv hj hu hl hle
  | some new =>
    obtain ⟨hnew, -, hlock⟩ := hinv.control.merging t.ctx k type new hpc
    obtain ⟨n, hn, -, -⟩ := hinv.control.held t.ctx _ new hnew
    rw [hn, ht] at hlock
    have hlock : n.lock = t.lock := Option.some.inj hlock
    have htype := (haimed t.ctx).typed new type (by rw [hpc]; rfl)
    rw [HasType, hn] at htype
    have htype : n.type = type := Option.some.inj htype
    have hdrop : Frame t.ctx s (((s.goto t.ctx .idle).dropTicket t.ctx .transaction
        new).removeTicket t.lock .granted new n.type) :=
      (hgoto.trans (.dropTicket ..)).trans (.of_eq _ rfl rfl rfl)
    have hc'' : Compatible strategy (((s.goto t.ctx .idle).dropTicket t.ctx .transaction
        new).removeTicket t.lock .granted new n.type) :=
      Compatible.removeTicket (hc'.congr rfl rfl) hnodup t.lock .granted new n.type
    dsimp only
    rw [State.ticket_goto, hn]
    refine ⟨hdrop.trans (Frame.retype (((s.goto t.ctx .idle).dropTicket t.ctx .transaction
      new).removeTicket t.lock .granted new n.type) ht type), aimed_idle hidle, ?_⟩
    have hlist : ∀ l, (((((s.goto t.ctx .idle).dropTicket t.ctx .transaction new).removeTicket
        t.lock .granted new n.type)).lists l .granted).list
          = (s.lists l .granted).list.erase new := by
      intro l
      dsimp only [State.removeTicket]
      split_ifs <;> rfl
    refine hc''.retype (fun l => ?_) fun hl j hj u hu hne => ?_
    · rw [hlist]
      exact (hnodup l).erase new
    · rw [hlist] at hj
      have hle : (strategy n.lock).hasStrongerOrEqualType n.type type = true := by
        rw [htype]
        exact decide_eq_true (Finset.Subset.refl _)
      rw [← hlock] at hl hj ⊢
      exact hc.fits_of_mem hinv hnew hn hl hle j (mem_of_mem_erase hj) u hu hne

/-- **A ticket is downgraded** to a type that fits as well. -/
theorem Sound.downgrade (h : Sound strategy s) (hidle : s.pc x = .idle)
    (ht : s.ticket k = some t) (hk : k ∈ s.tickets x d)
    (hle : (strategy t.lock).hasStrongerOrEqualType t.type type = true) :
    Keeps strategy x s ((s.retype k t type).rescheduleWaiters strategy m t.lock) := by
  obtain ⟨⟨place, hinv⟩, -, hc⟩ := h
  obtain ⟨t', ht', rfl, hplace⟩ := hinv.control.held x d k hk
  cases ht.symm.trans ht'
  obtain ⟨hpc, htickets, hticket⟩ := rescheduleWaiters_keeps strategy m (s.retype k t type) t.lock
  have hretype : Compatible strategy (s.retype k t type) :=
    hc.retype (fun l => hinv.placed.nodup l .granted) fun hl => hc.fits_of_mem hinv hk ht hl hle
  refine ⟨(Frame.retype s ht type).trans (.of_eq _ hpc htickets hticket), aimed_idle ?_, ?_⟩
  · rw [hpc]
    exact hidle
  · exact ((hinv.retype ht hplace type).rescheduleWaiters strategy m grantsKeep_compatible
      hretype).2

/-- **A ticket goes**, and the waiters are rescheduled. -/
theorem Compatible.removeAndReschedule {side : Side} (hc : Compatible strategy s)
    (hnodup : ∀ l, (s.lists l .granted).list.Nodup)
    (h : Inv .covers (s.removeTicket t.lock side k t.type) place) :
    Compatible strategy (s.removeAndReschedule strategy m t.lock side k t.type) :=
  (removeAndReschedule_inv strategy m h grantsKeep_compatible
    (hc.removeTicket hnodup t.lock side k t.type)).2

omit [DecidableEq L] in
/-- A context that goes on has the same aim. -/
theorem Sound.goto (h : Sound strategy s) {pc : Pc} (haim : pc.aim = (s.pc x).aim)
    (hmerging : ∀ k type, pc ≠ .merging k type none) : Keeps strategy x s (s.goto x pc) := by
  have hpc : (s.goto x pc).pc x = pc := update_self ..
  refine ⟨.goto x s pc, ⟨fun k type hk => ?_, fun k type hk => ?_⟩, h.compatible.congr rfl rfl⟩
  · rw [hpc, haim] at hk
    exact (h.aimed x).typed k type hk
  · rw [hpc] at hk
    exact absurd hk (hmerging k type)

variable (strategy) in
/-- **A clone fits**: the type that is asked for is compatible with all that the context whose
ticket is cloned has granted on the lock. -/
def FittingClone (s : State X L) : Event X L → Prop
  | .clone x k type _ => ∀ t, s.ticket k = some t → strategy t.lock ≠ .backup → t.ctx ≠ x →
      ∀ j ∈ (s.lists t.lock .granted).list, ∀ u, s.ticket j = some u → u.ctx = t.ctx →
        u.type ∉ (strategy t.lock).incompatibleGrantedTypes type
  | _ => True

/-- **A ticket is cloned.** -/
theorem Sound.clone (h : Sound strategy s)
    (ht : s.ticket k = some t) {e : MdlDuration} (hk : k ∈ s.tickets t.ctx e)
    (hle : (strategy t.lock).hasStrongerOrEqualType t.type type = true)
    (hfit : FittingClone strategy s (.clone x k type d)) :
    Keeps strategy x s (s.cloneTicket x t.lock type d .idle) := by
  obtain ⟨⟨place, hinv⟩, -, hc⟩ := h
  refine ⟨.cloneTicket hinv.control x t.lock type d .idle, aimed_idle (update_self ..),
    hc.cloneTicket hinv (fun hl j hj u hu hne => ?_) d .idle⟩
  by_cases hctx : u.ctx = t.ctx
  · exact hfit t ht hl (hctx ▸ hne) j hj u hu hctx
  · exact hc.fits_of_mem hinv hk ht hl hle j hj u hu hctx

/-- **Every step in which a clone fits.** -/
theorem Sound.keeps (h : Sound strategy s) (hfit : FittingClone strategy s e)
    (hs : s.step strategy m e = some s') :
    (∃ x, Keeps strategy x s s') ∨ ∃ n, s' = { s with hogLockCount := n } := by
  have hc := h.compatible
  obtain ⟨place, hinv⟩ := h.inv
  have hnodup : ∀ l, (s.lists l .granted).list.Nodup := fun l => hinv.placed.nodup l .granted
  cases does_of_step strategy m hs with
  | stay => exact .inr ⟨_, rfl⟩
  | acquire nowait hidle hgoal htype => exact .inl ⟨_, h.acquireLock hidle hgoal htype nowait⟩
  | merge hpc ht => exact .inl ⟨_, h.mergeTickets hpc ht⟩
  | downgrade hidle ht hd hle => exact .inl ⟨_, h.downgrade hidle ht hd hle⟩
  | clone he _ ht hd hle => exact .inl ⟨_, h.clone ht hd hle (he ▸ hfit)⟩
  | @release x k t d hidle ht hd =>
    obtain ⟨hpc, htickets, hticket⟩ := removeAndReschedule_keeps strategy m (s.dropTicket x d k)
      t.lock .granted k t.type
    refine .inl ⟨x, (Frame.dropTicket x s d k).trans (.of_eq x hpc htickets hticket),
      aimed_idle (by rw [hpc]; exact hidle), ?_⟩
    exact Compatible.removeAndReschedule (hc.congr rfl rfl) hnodup (hinv.release hidle hd ht)
  | move hfrom hto =>
    obtain hpc | hpc := hfrom <;> obtain rfl | rfl | ⟨status, rfl, -⟩ := hto <;>
      exact .inl ⟨_, h.goto (congrArg Pc.aim hpc).symm (fun _ _ hc => by cases hc)⟩
  | close hpc =>
    exact .inl ⟨_, (h.goto (by rw [hpc]; rfl) (fun _ _ hc => by cases hc)).setWait _⟩
  | @victim x => exact .inl ⟨x, Keeps.setWait ⟨.refl x s, h.aimed x, hc⟩ _⟩
  | @gain x k goal hpc =>
    refine .inl ⟨x, (Frame.pushTicket x s _ k).trans (.goto x _ _), ?_, hc.congr rfl rfl⟩
    cases goal with
    | acquire d => exact aimed_idle (update_self ..)
    | upgrade k₀ type =>
      exact aimed_new (update_self ..)
        ((h.aimed x).typed k type (by rw [hpc]; rfl)) fun _ _ hg => (Goal.upgrade.inj hg).2.symm
  | @giveUp x k goal status t _ hpc _ ht =>
    obtain ⟨hpc', htickets, hticket⟩ := removeAndReschedule_keeps strategy m
      (s.goto x .idle) t.lock .waiting k t.type
    refine .inl ⟨x, (Frame.goto x s .idle).trans (.of_eq x hpc' htickets hticket),
      aimed_idle (by rw [hpc']; exact update_self ..), ?_⟩
    exact Compatible.removeAndReschedule (hc.congr rfl rfl) hnodup
      (hinv.finish_failed (by rw [hpc]; rfl) (.inr Tally.covers_lenient) ht)
  | recycle n => exact .inr ⟨n, rfl⟩

theorem Sound.step (h : Sound strategy s) (hfit : FittingClone strategy s e)
    (hs : s.step strategy m e = some s') : Sound strategy s' := by
  obtain ⟨place, hinv⟩ := h.inv
  have hinv' := hinv.step strategy m (.inr Tally.covers_lenient) hs
  rcases h.keeps hfit hs with ⟨x, hkeeps⟩ | ⟨n, rfl⟩
  · refine ⟨hinv', fun y => ?_, hkeeps.compatible⟩
    by_cases hy : y = x
    · exact hy ▸ hkeeps.aimed
    · exact (h.aimed y).frame hinv.control hkeeps.frame hy
  · exact ⟨hinv', fun y => ⟨(h.aimed y).typed, (h.aimed y).covered⟩, h.compatible.congr rfl rfl⟩

/-- **A clone that does not fit is granted all the same.** -/
theorem Sound.not_compatible_step (h : Sound strategy s)
    (hfit : ¬ FittingClone strategy s e) (hs : s.step strategy m e = some s') :
    ¬ Compatible strategy s' := by
  obtain ⟨place, hinv⟩ := h.inv
  cases e with
  | clone x k type d =>
    simp only [FittingClone, not_forall, not_not] at hfit
    obtain ⟨t, ht, hl, hne, j, hj, u, hu, hctx, hbad⟩ := hfit
    simp only [State.step, ht] at hs
    obtain ⟨-, hs⟩ := Option.ite_none_right_eq_some.1 hs
    cases hs
    intro hc
    have hlist : ((s.cloneTicket x t.lock type d .idle).lists t.lock .granted).list =
        (s.lists t.lock .granted).list ++ [s.next] := by
      change (((s.createTicket x t.lock type).addTicket t.lock .granted s.next type).lists t.lock
        .granted).list = _
      simp [State.addTicket, State.createTicket, TicketList.addTicket]
    have hnew : (s.cloneTicket x t.lock type d .idle).ticket s.next = some ⟨x, t.lock, type⟩ :=
      update_self ..
    have hold : (s.cloneTicket x t.lock type d .idle).ticket j = some u := by
      refine (update_of_ne ?_ ..).trans hu
      rintro rfl
      rw [hinv.control.fresh _ le_rfl] at hu
      cases hu
    refine hc t.lock hl s.next (by simp [hlist]) _ hnew j (by simp [hlist, hj]) u hold ?_ hbad
    exact fun hc => hne (hctx.symm.trans hc)
  | _ => exact absurd trivial hfit

variable (strategy m) in
/-- **Granted metadata locks are compatible in every state of a run, exactly if every clone of
another context's ticket fits.** -/
theorem compatible_iff (es : List (Event X L)) :
    Machine.Safe (State.step strategy m) (Compatible strategy) State.init es ↔
      Machine.Meets (State.step strategy m) (FittingClone strategy) State.init es :=
  Machine.safe_iff_meets (fun _ h => Sound.compatible h) (fun _ _ _ h hfit hs => h.step hfit hs)
    (fun _ _ _ h hfit hs => h.not_compatible_step hfit hs) sound_init

end Steps

/-- One context acquires an exclusive lock, and another one clones its ticket. -/
def cloneRun : List (Event ℕ ℕ) :=
  [.acquire 0 0 .exclusive .transaction false, .clone 1 0 .exclusive .transaction]

/-- **Two contexts have an exclusive lock.** -/
theorem granted_cloneRun :
    (Machine.exec (State.step (fun _ => .object) 10) State.init cloneRun).map
        (fun s => (s.lists 0 .granted).list.map fun k =>
          (s.ticket k).map fun t => (t.ctx, t.type)) =
        some [some (0, .exclusive), some (1, .exclusive)] ∧
      ¬ Machine.Safe (State.step (fun _ => .object) 10) (Compatible fun _ => .object) State.init
        cloneRun := by
  refine ⟨by decide +kernel, ?_⟩
  intro hsafe
  have h₁ := hsafe.2 _ rfl
  have hc : Compatible (fun _ : ℕ => MdlStrategy.object) _ := h₁.2 _ rfl
  exact hc 0 (by decide) 0 (by decide) ⟨0, 0, .exclusive⟩ rfl 1 (by decide) ⟨1, 0, .exclusive⟩ rfl
    (by decide) (by decide)

end Mdl

end EloqSql
