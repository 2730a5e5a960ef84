import EloqSql.Mdl

/-!
# Mdl/Lists — the ticket lists of the metadata locks

`Exact` says that the counters and the bitmap of a list are those of its tickets, and `Covers` that
no ticket is missing there. Either is a `Tally`: adding a ticket and removing one that is in the
list keep it. `Placed` says it of all lists, with a map that gives for each ticket the one list it
is in; the steps change the map at the ticket that moves.
-/

namespace EloqSql

open List

namespace Mdl

open Function (update update_apply update_of_ne update_self)

variable {X L : Type*}

/-- The ticket has the type. -/
def HasType (ticket : ℕ → Option (Ticket X L)) (type : MdlType) (k : ℕ) : Prop :=
  (ticket k).map Ticket.type = some type

instance (ticket : ℕ → Option (Ticket X L)) (type : MdlType) :
    DecidablePred (HasType ticket type) :=
  fun k => inferInstanceAs (Decidable ((ticket k).map Ticket.type = some type))

/-- **The counters count the tickets of the list by their types, and the bitmap is the set of types
present.** -/
structure TicketList.Exact (ticket : ℕ → Option (Ticket X L)) (tl : TicketList) : Prop where
  counters : ∀ type, tl.typeCounters type = tl.list.countP (HasType ticket type)
  bitmap : ∀ type, type ∈ tl.bitmap ↔ ∃ k ∈ tl.list, HasType ticket type k

namespace TicketList

variable {ticket ticket' : ℕ → Option (Ticket X L)} {tl : TicketList} {k : ℕ} {type : MdlType}

theorem exact_nil : nil.Exact ticket := ⟨fun _ => rfl, fun _ => by simp [nil]⟩

theorem exists_iff_countP {l : List ℕ} {p : ℕ → Prop} [DecidablePred p] :
    (∃ k ∈ l, p k) ↔ l.countP p ≠ 0 := by
  rw [← Nat.pos_iff_ne_zero, countP_pos_iff]
  simp

theorem hasType_unique {type' : MdlType} (h : HasType ticket type k) (h' : HasType ticket type' k) :
    type = type' :=
  Option.some.inj (h.symm.trans h')

theorem countP_hasType_pos (hk : HasType ticket type k) (hmem : k ∈ tl.list) :
    0 < tl.list.countP (HasType ticket type) :=
  countP_pos_iff.2 ⟨k, hmem, by simpa using hk⟩

theorem hasType_congr (h : (ticket' k).map Ticket.type = (ticket k).map Ticket.type) :
    HasType ticket' type k ↔ HasType ticket type k := by
  rw [HasType, HasType, h]

theorem Exact.addTicket (h : tl.Exact ticket) (hk : HasType ticket type k) :
    (tl.addTicket k type).Exact ticket := by
  have hcount : ∀ type', (tl.addTicket k type).typeCounters type' =
      ((tl.addTicket k type).list.countP (HasType ticket type') : ℕ) := by
    intro type'
    simp only [TicketList.addTicket, countP_append, countP_singleton]
    by_cases htype : type' = type
    · subst htype
      simp [h.counters, hk]
    · have hno : ¬ HasType ticket type' k := fun hk' => htype (hasType_unique hk' hk)
      simp [htype, h.counters, hno]
  refine ⟨hcount, fun type' => ?_⟩
  simp only [TicketList.addTicket, Finset.mem_insert, h.bitmap, mem_append,
    mem_singleton]
  constructor
  · rintro (rfl | ⟨j, hj, hjt⟩)
    · exact ⟨k, .inr rfl, hk⟩
    · exact ⟨j, .inl hj, hjt⟩
  · rintro ⟨j, hj | rfl, hjt⟩
    · exact .inr ⟨j, hj, hjt⟩
    · exact .inl (hasType_unique hjt hk)

/-- **A ticket of the list is removed** with its own type. -/
theorem Exact.removeTicket (h : tl.Exact ticket) (hk : HasType ticket type k) (hmem : k ∈ tl.list) :
    (discount { tl with list := tl.list.erase k } type).Exact ticket := by
  have hcount : ∀ type', (discount { tl with list := tl.list.erase k } type).typeCounters type' =
      ((tl.list.erase k).countP (HasType ticket type') : ℕ) := by
    intro type'
    simp only [discount, countP_erase]
    by_cases htype : type' = type
    · subst htype
      have hpos := countP_hasType_pos hk hmem
      simp only [update_self, h.counters, hmem, hk, decide_true, and_self, if_true]
      omega
    · have hno : ¬ HasType ticket type' k := fun hk' => htype (hasType_unique hk' hk)
      simp [htype, h.counters, hno]
  refine ⟨hcount, fun type' => ?_⟩
  have hbit : type' ∈ (discount { tl with list := tl.list.erase k } type).bitmap ↔
      (discount { tl with list := tl.list.erase k } type).typeCounters type' ≠ 0 := by
    have hold : type' ∈ tl.bitmap ↔ tl.typeCounters type' ≠ 0 := by
      rw [h.bitmap, exists_iff_countP, h.counters]
      simp
    simp only [discount]
    by_cases htype : type' = type
    · subst htype
      have hpos := countP_hasType_pos hk hmem
      have hne : tl.typeCounters type' ≠ 0 := by
        rw [h.counters]
        omega
      by_cases hone : tl.typeCounters type' - 1 = 0 <;> simp [hone, hold, hne]
    · by_cases hone : tl.typeCounters type - 1 = 0 <;> simp [hone, hold, htype]
  rw [hbit, hcount]
  change _ ↔ ∃ k' ∈ tl.list.erase k, HasType ticket type' k'
  rw [exists_iff_countP]
  simp

/-- What is not in the list does not matter. -/
theorem Exact.congr (h : tl.Exact ticket)
    (hticket : ∀ k ∈ tl.list, (ticket' k).map Ticket.type = (ticket k).map Ticket.type) :
    tl.Exact ticket' := by
  refine ⟨fun type => ?_, fun type => ?_⟩
  · rw [h.counters]
    exact congrArg Nat.cast
      (countP_congr fun k hk => by simpa using (hasType_congr (hticket k hk)).symm)
  · rw [h.bitmap]
    exact exists_congr fun k => and_congr_right fun hk => (hasType_congr (hticket k hk)).symm

end TicketList

/-! ## Lists that miss no ticket -/

/-- **The counters count every ticket of the list, and the bitmap has the types present**; either
may have more. -/
structure TicketList.Covers (ticket : ℕ → Option (Ticket X L)) (tl : TicketList) : Prop where
  counters : ∀ type, (tl.list.countP (HasType ticket type) : ℤ) ≤ tl.typeCounters type
  bitmap : ∀ type, (∃ k ∈ tl.list, HasType ticket type k) → type ∈ tl.bitmap

namespace TicketList

variable {ticket ticket' : ℕ → Option (Ticket X L)} {tl : TicketList} {k : ℕ} {type : MdlType}

theorem Covers.addTicket (h : tl.Covers ticket) (hk : HasType ticket type k) :
    (tl.addTicket k type).Covers ticket := by
  refine ⟨fun type' => ?_, fun type' => ?_⟩
  · have hold := h.counters type'
    simp only [TicketList.addTicket, countP_append, countP_singleton,
      update_apply]
    by_cases htype : type' = type
    · subst htype
      simp only [if_true, decide_eq_true_eq, hk]
      omega
    · have hno : ¬ HasType ticket type' k := fun hk' => htype (hasType_unique hk' hk)
      simpa [htype, hno] using hold
  · simp only [TicketList.addTicket, Finset.mem_insert, mem_append, mem_singleton]
    rintro ⟨j, hj | rfl, hjt⟩
    · exact .inr (h.bitmap type' ⟨j, hj, hjt⟩)
    · exact .inl (hasType_unique hjt hk)

/-- **A ticket of the list is removed** with its own type: its bit goes with the last of the type.
-/
theorem Covers.removeTicket (h : tl.Covers ticket) (hk : HasType ticket type k)
    (hmem : k ∈ tl.list) : (discount { tl with list := tl.list.erase k } type).Covers ticket := by
  have hcount : ∀ type', ((tl.list.erase k).countP (HasType ticket type') : ℤ) ≤
      (discount { tl with list := tl.list.erase k } type).typeCounters type' := by
    intro type'
    have hold := h.counters type'
    simp only [discount, countP_erase, update_apply]
    by_cases htype : type' = type
    · subst htype
      have hpos := countP_hasType_pos hk hmem
      simp only [hmem, hk, decide_true, and_self, if_true]
      omega
    · have hno : ¬ HasType ticket type' k := fun hk' => htype (hasType_unique hk' hk)
      simpa [htype, hno] using hold
  refine ⟨hcount, fun type' hex => ?_⟩
  have hpos : 0 < (tl.list.erase k).countP (HasType ticket type') :=
    Nat.pos_of_ne_zero (exists_iff_countP.1 hex)
  obtain ⟨j, hj, hjt⟩ := hex
  have hold : type' ∈ tl.bitmap := h.bitmap type' ⟨j, mem_of_mem_erase hj, hjt⟩
  simp only [discount]
  split_ifs with hone
  · refine Finset.mem_erase.2 ⟨?_, hold⟩
    rintro rfl
    have := hcount type'
    simp only [discount, update_self, hone] at this
    omega
  · exact hold

theorem Covers.congr (h : tl.Covers ticket)
    (hticket : ∀ k ∈ tl.list, (ticket' k).map Ticket.type = (ticket k).map Ticket.type) :
    tl.Covers ticket' := by
  refine ⟨fun type => ?_, fun type ⟨k, hk, hkt⟩ =>
    h.bitmap type ⟨k, hk, (hasType_congr (hticket k hk)).1 hkt⟩⟩
  refine le_of_eq_of_le (congrArg Nat.cast ?_) (h.counters type)
  exact countP_congr fun k hk => by simpa using hasType_congr (hticket k hk)

/-- A ticket may go without being counted off. -/
theorem Covers.erase (h : tl.Covers ticket) (k : ℕ) :
    ({ tl with list := tl.list.erase k } : TicketList).Covers ticket := by
  refine ⟨fun type => le_trans (Int.ofNat_le.2 ?_) (h.counters type), fun type ⟨j, hj, hjt⟩ => ?_⟩
  · exact List.Sublist.countP_le erase_sublist
  · exact h.bitmap type ⟨j, mem_of_mem_erase hj, hjt⟩

end TicketList

/-! ## Where the tickets are -/

/-- **What is to hold of the counters and the bitmap of a list**, and is kept as tickets come and
go. -/
structure Tally (X L : Type*) where
  holds : Side → (ℕ → Option (Ticket X L)) → TicketList → Prop
  nil : ∀ side ticket, holds side ticket .nil
  addTicket : ∀ {side ticket tl k type}, holds side ticket tl → HasType ticket type k →
    holds side ticket (tl.addTicket k type)
  removeTicket : ∀ {side ticket tl k type}, holds side ticket tl → HasType ticket type k →
    k ∈ tl.list → holds side ticket (TicketList.discount { tl with list := tl.list.erase k } type)
  congr : ∀ {side ticket ticket' tl}, holds side ticket tl →
    (∀ k ∈ tl.list, (ticket' k).map Ticket.type = (ticket k).map Ticket.type) →
    holds side ticket' tl

/-- All lists are exact. -/
def Tally.exact : Tally X L where
  holds _ := TicketList.Exact
  nil _ _ := TicketList.exact_nil
  addTicket := TicketList.Exact.addTicket
  removeTicket := TicketList.Exact.removeTicket
  congr := TicketList.Exact.congr

/-- The granted lists miss no ticket. -/
def Tally.covers : Tally X L where
  holds side ticket tl := side = .granted → tl.Covers ticket
  nil _ _ _ := ⟨fun _ => le_rfl, fun _ ⟨_, hk, _⟩ => nomatch hk⟩
  addTicket h hk hside := (h hside).addTicket hk
  removeTicket h hk hmem hside := (h hside).removeTicket hk hmem
  congr h hticket hside := (h hside).congr hticket

/-- **A granted ticket may be removed as if it were a waiting one.** -/
def Tally.Lenient (Q : Tally X L) : Prop :=
  ∀ side ticket tl k type, Q.holds side ticket tl →
    Q.holds side ticket (if side = .waiting then
      TicketList.discount { tl with list := tl.list.erase k } type
    else { tl with list := tl.list.erase k })

theorem Tally.covers_lenient : (Tally.covers : Tally X L).Lenient := by
  rintro side ticket tl k type h rfl
  exact (h rfl).erase k

/-- **Every list has its tally, and every ticket is where the map says**: in the one list of the one
lock, or in none. -/
structure Placed (Q : Tally X L) (s : State X L) (place : ℕ → Option (L × Side)) : Prop where
  tally : ∀ l side, Q.holds side s.ticket (s.lists l side)
  nodup : ∀ l side, (s.lists l side).list.Nodup
  mem_iff : ∀ k l side, k ∈ (s.lists l side).list ↔ place k = some (l, side)

namespace Placed

variable {Q : Tally X L} {s s' : State X L} {place : ℕ → Option (L × Side)} {k : ℕ} {l : L}
  {side : Side} {type : MdlType}

/-- What leaves the lists and the tickets alone. -/
theorem congr (h : Placed Q s place) (hlists : s'.lists = s.lists)
    (hticket : s'.ticket = s.ticket) : Placed Q s' place :=
  ⟨fun l side => by rw [hlists, hticket]; exact h.tally l side,
    fun l side => by rw [hlists]; exact h.nodup l side,
    fun k l side => by rw [hlists]; exact h.mem_iff k l side⟩

/-- **A ticket that is in no list may change.** -/
theorem setTicket (h : Placed Q s place) (hk : place k = none) (t : Option (Ticket X L)) (n : ℕ) :
    Placed Q { s with ticket := update s.ticket k t, next := n } place := by
  refine ⟨fun l side => Q.congr (h.tally l side) fun j hj => ?_, h.nodup, h.mem_iff⟩
  have hjk : j ≠ k := by
    rintro rfl
    rw [h.mem_iff, hk] at hj
    cases hj
  exact congrArg _ (update_of_ne hjk ..)

variable [DecidableEq L]

/-- **A ticket that is in no list comes into one.** -/
theorem addTicket (h : Placed Q s place) (hk : place k = none) (htype : HasType s.ticket type k)
    (l : L) (side : Side) :
    Placed Q (s.addTicket l side k type) (update place k (some (l, side))) := by
  have hno : ∀ l side, k ∉ (s.lists l side).list := by
    intro l side hmem
    rw [h.mem_iff, hk] at hmem
    cases hmem
  refine ⟨fun l' side' => ?_, fun l' side' => ?_, fun j l' side' => ?_⟩
  · dsimp only [State.addTicket]
    split_ifs with heq
    · exact Q.addTicket (h.tally l' side') htype
    · exact h.tally l' side'
  · dsimp only [State.addTicket]
    split_ifs with heq
    · simpa [TicketList.addTicket] using (h.nodup l' side').concat (hno l' side')
    · exact h.nodup l' side'
  · dsimp only [State.addTicket]
    by_cases hjk : j = k
    · subst hjk
      rw [update_self]
      split_ifs with heq
      · simp [TicketList.addTicket, heq]
      · simp only [hno l' side', false_iff, Option.some.injEq, Prod.mk.injEq]
        exact fun hc => heq ⟨hc.1.symm, hc.2.symm⟩
    · rw [update_of_ne hjk, ← h.mem_iff]
      split_ifs
      · simp [TicketList.addTicket, hjk]
      · rfl

/-- What is left of the tickets after one has gone. -/
theorem nodup_and_mem_iff_removeTicket (h : Placed Q s place) (l : L) (side : Side) (k : ℕ)
    (type : MdlType) :
    (∀ l' side', ((s.removeTicket l side k type).lists l' side').list.Nodup) ∧
      ∀ j l' side', j ∈ ((s.removeTicket l side k type).lists l' side').list ↔
        update place k none j = some (l', side') := by
  have hlist : ∀ l' side', ((s.removeTicket l side k type).lists l' side').list =
      (s.lists l' side').list.erase k := by
    intro l' side'
    dsimp only [State.removeTicket]
    split_ifs <;> rfl
  refine ⟨fun l' side' => ?_, fun j l' side' => ?_⟩
  · rw [hlist]
    exact (h.nodup l' side').erase k
  · rw [hlist, (h.nodup l' side').mem_erase_iff, h.mem_iff]
    by_cases hjk : j = k
    · subst hjk
      simp
    · simp [hjk]

/-- **A ticket leaves the list it is in.** -/
theorem removeTicket (h : Placed Q s place) (hk : place k = some (l, side))
    (htype : HasType s.ticket type k) :
    Placed Q (s.removeTicket l side k type) (update place k none) := by
  have hmem : k ∈ (s.lists l side).list := (h.mem_iff k l side).2 hk
  have hother : ∀ l' side', ¬ (l' = l ∧ side' = side) →
      (s.lists l' side').list.erase k = (s.lists l' side').list := by
    intro l' side' hne
    refine erase_of_not_mem fun hmem' => hne ?_
    have := (h.mem_iff k l' side').1 hmem'
    rw [hk] at this
    simp only [Option.some.injEq, Prod.mk.injEq] at this
    exact ⟨this.1.symm, this.2.symm⟩
  obtain ⟨hnodup, hmem_iff⟩ := h.nodup_and_mem_iff_removeTicket l side k type
  refine ⟨fun l' side' => ?_, hnodup, hmem_iff⟩
  dsimp only [State.removeTicket]
  split_ifs with heq
  · obtain ⟨rfl, rfl⟩ := heq
    exact Q.removeTicket (h.tally l' side') htype hmem
  · rw [hother l' side' heq]
    exact h.tally l' side'

/-- **A granted ticket leaves its list as a waiting one.** -/
theorem removeTicket_waiting (h : Placed Q s place) (hQ : Q.Lenient)
    (hk : place k = some (l, .granted)) (type : MdlType) :
    Placed Q (s.removeTicket l .waiting k type) (update place k none) := by
  obtain ⟨hnodup, hmem_iff⟩ := h.nodup_and_mem_iff_removeTicket l .waiting k type
  refine ⟨fun l' side' => ?_, hnodup, hmem_iff⟩
  dsimp only [State.removeTicket]
  by_cases hl : l' = l
  · simpa only [hl, true_and] using hQ side' s.ticket (s.lists l side') k type (h.tally l side')
  · have hno : k ∉ (s.lists l' side').list := by
      intro hmem
      rw [h.mem_iff, hk] at hmem
      simp only [Option.some.injEq, Prod.mk.injEq] at hmem
      exact hl hmem.1.symm
    rw [if_neg fun hc => hl hc.1, erase_of_not_mem hno]
    exact h.tally l' side'

end Placed

end Mdl

end EloqSql
