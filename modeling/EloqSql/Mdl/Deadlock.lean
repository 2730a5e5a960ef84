import EloqSql.Lib.CycleSearch
import EloqSql.Mdl.Control

/-!
# Mdl/Deadlock — the search for a deadlock

A context that starts to wait looks whether it waits for itself. `MDL_lock::visit_subgraph` goes
from a waiting context to those that hold it up — the contexts of granted tickets that conflict with
its request, and of waiting tickets that go before it — and a `Deadlock_detection_visitor` remembers
where the search began, how deep it is and, on the way back from a cycle, the lightest context on
it. The visitor's search is the `CycleSearch.search` of the graph of contexts with an empty wait
slot (`visitSubgraph_outcome`), so it is exact as long as it stays above `MAX_SEARCH_DEPTH`.
-/

namespace EloqSql.Mdl

open List
open CycleSearch (first search search_of_none)

variable {X L : Type*}

/-! ## The wait-for graph -/

/-- **What a search for deadlocks reads**: the tickets of the locks, and of each context the ticket
it waits for, its wait slot and how often it has been a victim. -/
structure WaitForGraph (X L : Type*) where
  strategy : L → MdlStrategy
  lists : L → Side → List (Ticket X L)
  /-- `m_waiting_for`. -/
  waitingFor : X → Option (Ticket X L)
  wait : X → MdlWait
  /-- `m_deadlock_overweight`. -/
  deadlockOverweight : X → UInt32
  /-- A context waits for a ticket of its own. -/
  ctx_waitingFor : ∀ x t, waitingFor x = some t → t.ctx = x

namespace WaitForGraph

variable (g : WaitForGraph X L)

/-- `MDL_ticket::get_deadlock_weight`: `DEADLOCK_WEIGHT_FTWRL1`, `_DML` or `_DDL`. -/
def ticketDeadlockWeight (t : Ticket X L) : UInt32 :=
  if g.strategy t.lock = .backup then if t.type = MdlType.backupFtwrl1 then 0 else 100
  else if MdlType.sharedUpgradable ≤ t.type then 100 else 1

/-- `MDL_context::get_deadlock_weight`, of a context that waits. -/
def getDeadlockWeight (x : X) : ℕ :=
  match g.waitingFor x with
  | some t => (g.ticketDeadlockWeight t + g.deadlockOverweight x).toNat
  | none => 0

/-- `is_incompatible_when_granted` and `is_incompatible_when_waiting`, of a ticket in a list. -/
def isIncompatible (side : Side) (u : Ticket X L) (type : MdlType) : Bool :=
  match side with
  | .granted => u.type ∈ (g.strategy u.lock).incompatibleGrantedTypes type
  | .waiting => u.type ∈ (g.strategy u.lock).incompatibleWaitingTypes type

/-- **`x` waits for `y`**: its slot is empty, and on the lock it waits for another context `y` has a
granted ticket that conflicts with its request, or a waiting one that goes before it. -/
def WaitsFor (x y : X) : Prop :=
  ∃ t, g.waitingFor x = some t ∧ g.wait x = .empty ∧ y ≠ x ∧
    ∃ side, ∃ u ∈ g.lists t.lock side, u.ctx = y ∧ g.isIncompatible side u t.type

/-- **A deadlock of `x`**: contexts from `x` on, each waiting for the next one and the last one for
`x`, none twice. -/
structure IsDeadlock (x : X) (p : List X) : Prop where
  head : p.head? = some x
  chain : (p ++ [x]).IsChain g.WaitsFor
  nodup : p.Nodup

/-! ## The visitor -/

/-- `MAX_SEARCH_DEPTH`. -/
def maxSearchDepth : ℕ := 32

/-- **`Deadlock_detection_visitor`.** -/
structure Visitor (X : Type*) where
  startNode : X
  victim : Option X
  currentSearchDepth : ℕ
  foundDeadlock : Bool
  /-- Whether the search has been at `MAX_SEARCH_DEPTH`; nothing reads it. -/
  reachedMaxDepth : Bool

/-- The visitor of a new search. -/
def Visitor.start (x : X) : Visitor X := ⟨x, none, 0, false, false⟩

/-- The context that is the victim once `x` has been proposed. -/
def lighter (victim : Option X) (x : X) : X :=
  match victim with
  | none => x
  | some y => if g.getDeadlockWeight x ≤ g.getDeadlockWeight y then x else y

/-- `opt_change_victim_to`. -/
def optChangeVictimTo (v : Visitor X) (x : X) : Visitor X :=
  { v with victim := some (g.lighter v.victim x) }

/-- `enter_node`. -/
def enterNode (v : Visitor X) (x : X) : Bool × Visitor X :=
  let v := { v with currentSearchDepth := v.currentSearchDepth + 1 }
  let v := { v with foundDeadlock := decide (maxSearchDepth ≤ v.currentSearchDepth) }
  if v.foundDeadlock then (true, { g.optChangeVictimTo v x with reachedMaxDepth := true })
  else (false, v)

/-- `leave_node`. -/
def leaveNode (v : Visitor X) (x : X) : Visitor X :=
  let v := { v with currentSearchDepth := v.currentSearchDepth - 1 }
  if v.foundDeadlock then g.optChangeVictimTo v x else v

variable [DecidableEq X]

/-- `inspect_edge`. -/
def inspectEdge (x : X) (v : Visitor X) : Bool × Visitor X :=
  (decide (x = v.startNode), { v with foundDeadlock := decide (x = v.startNode) })

/-! ## `visit_subgraph` -/

/-- The contexts of the tickets in a list that hold up a waiting ticket. -/
def heldUpBy (side : Side) (t : Ticket X L) : List X :=
  ((g.lists t.lock side).filter fun u =>
    u.ctx ≠ t.ctx ∧ g.isIncompatible side u t.type).map Ticket.ctx

omit [DecidableEq X] in
/-- A loop over tickets: it ends with the first one for which the call returns TRUE. -/
def forEach (f : X → Visitor X → Bool × Visitor X) : List X → Visitor X → Bool × Visitor X
  | [], v => (false, v)
  | x :: xs, v => match f x v with
    | (true, v) => (true, v)
    | (false, v) => forEach f xs v

/-- **`MDL_lock::visit_subgraph`**, by what it does with an adjacent node. -/
def lockVisitSubgraph (visit : X → Visitor X → Bool × Visitor X) (t : Ticket X L) (v : Visitor X) :
    Bool × Visitor X :=
  if g.wait t.ctx ≠ .empty then (false, v)
  else match g.enterNode v t.ctx with
    -- deep enough: the node is not left
    | (true, v) => (true, v)
    | (false, v) =>
        let r := forEach inspectEdge (g.heldUpBy .granted t) v
        let r := if r.1 then r else forEach inspectEdge (g.heldUpBy .waiting t) r.2
        let r := if r.1 then r else forEach visit (g.heldUpBy .granted t) r.2
        let r := if r.1 then r else forEach visit (g.heldUpBy .waiting t) r.2
        (r.1, g.leaveNode r.2 t.ctx)

/-- **`MDL_context::visit_subgraph`.** The visitor's depth bounds the recursion. -/
def visitSubgraph : ℕ → X → Visitor X → Bool × Visitor X
  | 0, _, v => (true, v)
  | n + 1, x, v => match g.waitingFor x with
    | none => (false, v)
    | some t => g.lockVisitSubgraph (visitSubgraph n) t v

/-- **One search of `find_deadlock`**: whether there is a deadlock, and the visitor with its
victim. -/
def searchDeadlock (x : X) : Bool × Visitor X := g.visitSubgraph maxSearchDepth x (.start x)

/-! ## The graph that is searched -/

/-- The contexts that hold up `x`, if it waits with an empty slot. -/
def next (x : X) : Option (List X) :=
  (g.waitingFor x).bind fun t =>
    if g.wait x = .empty then some (g.heldUpBy .granted t ++ g.heldUpBy .waiting t) else none

variable {g} {x y : X} {v : Visitor X} {t : Ticket X L} {p : List X} {n : ℕ}

theorem mem_heldUpBy {side : Side} : y ∈ g.heldUpBy side t ↔
    y ≠ t.ctx ∧ ∃ u ∈ g.lists t.lock side, u.ctx = y ∧ g.isIncompatible side u t.type := by
  simp only [heldUpBy, mem_map, mem_filter, decide_eq_true_eq]
  constructor
  · rintro ⟨u, ⟨hu, hne, hi⟩, rfl⟩
    exact ⟨hne, u, hu, rfl, hi⟩
  · rintro ⟨hne, u, hu, rfl, hi⟩
    exact ⟨u, ⟨hu, hne, hi⟩, rfl⟩

theorem next_eq_some_iff {ys : List X} : g.next x = some ys ↔ ∃ t, g.waitingFor x = some t ∧
    t.ctx = x ∧ g.wait x = .empty ∧ g.heldUpBy .granted t ++ g.heldUpBy .waiting t = ys := by
  constructor
  · intro h
    obtain ⟨t, ht, hys⟩ := Option.bind_eq_some_iff.1 h
    split_ifs at hys with hw
    exact ⟨t, ht, g.ctx_waitingFor x t ht, hw, Option.some.inj hys⟩
  · rintro ⟨t, ht, -, hw, rfl⟩
    rw [next, ht, Option.bind_some, if_pos hw]

/-- **The edges of the graph are who waits for whom.** -/
theorem edge_next_iff : CycleSearch.Edge g.next x y ↔ g.WaitsFor x y := by
  constructor
  · rintro ⟨ys, hys, hy⟩
    obtain ⟨t, ht, rfl, hw, rfl⟩ := next_eq_some_iff.1 hys
    refine ⟨t, ht, hw, ?_⟩
    obtain hy | hy := mem_append.1 hy
    · obtain ⟨hne, hu⟩ := mem_heldUpBy.1 hy
      exact ⟨hne, .granted, hu⟩
    · obtain ⟨hne, hu⟩ := mem_heldUpBy.1 hy
      exact ⟨hne, .waiting, hu⟩
  · rintro ⟨t, ht, hw, hne, side, hu⟩
    obtain rfl := g.ctx_waitingFor x t ht
    refine ⟨_, next_eq_some_iff.2 ⟨t, ht, rfl, hw, rfl⟩, ?_⟩
    have hy : y ∈ g.heldUpBy side t := mem_heldUpBy.2 ⟨hne, hu⟩
    cases side with
    | granted => exact mem_append_left _ hy
    | waiting => exact mem_append_right _ hy

theorem isCycle_next_iff : CycleSearch.IsCycle g.next x p ↔ g.IsDeadlock x p := by
  have hedge : CycleSearch.Edge g.next = g.WaitsFor := funext₂ fun _ _ => propext edge_next_iff
  constructor
  · rintro ⟨hhead, hchain, hnodup⟩
    exact ⟨hhead, hedge ▸ hchain, hnodup⟩
  · rintro ⟨hhead, hchain, hnodup⟩
    exact ⟨hhead, hedge ▸ hchain, hnodup⟩

/-! ## The victim -/

variable (g) in
/-- The victim after a walk back along the contexts of a cycle. -/
def lightest : List X → Option X
  | [] => none
  | x :: p => some (g.lighter (lightest p) x)

omit [DecidableEq X] in
theorem exists_lightest : ∀ {p : List X}, p ≠ [] →
    ∃ z ∈ p, g.lightest p = some z ∧ ∀ y ∈ p, g.getDeadlockWeight z ≤ g.getDeadlockWeight y
  | [x], _ => ⟨x, by simp, rfl, by simp⟩
  | x :: y :: p, _ => by
      obtain ⟨z, hz, hzp, hmin⟩ := exists_lightest (p := y :: p) (by simp)
      rw [lightest, hzp, lighter]
      split_ifs with hle
      · refine ⟨x, mem_cons_self, rfl, fun w hw => ?_⟩
        obtain rfl | hw := mem_cons.1 hw
        · exact le_rfl
        · exact hle.trans (hmin w hw)
      · refine ⟨z, mem_cons_of_mem _ hz, rfl, fun w hw => ?_⟩
        obtain rfl | hw := mem_cons.1 hw
        · exact (not_le.1 hle).le
        · exact hmin w hw

/-! ## The visitor does the search -/

variable (g) in
/-- **What a call for an adjacent node comes to**, by the search below that node: it has been at the
maximum depth, or has left the visitor as it was, or has found a deadlock and its lightest
context. -/
def Outcome (v : Visitor X) : Option (Option (List X)) → Bool × Visitor X → Prop
  | none, r => r.1 = true ∧ r.2.reachedMaxDepth = true
  | some none, r => r = (false, v)
  | some (some p), r => r = (true, { v with foundDeadlock := true, victim := g.lightest p })

omit [DecidableEq X] in
theorem forEach_append {f : X → Visitor X → Bool × Visitor X} {ys : List X} :
    ∀ {xs : List X} {v : Visitor X}, forEach f (xs ++ ys) v =
      if (forEach f xs v).1 then forEach f xs v else forEach f ys (forEach f xs v).2
  | [], v => by simp [forEach]
  | x :: xs, v => by
      rw [cons_append, forEach, forEach]
      rcases f x v with ⟨_ | _, v'⟩
      · exact forEach_append
      · rfl

/-- The loops of `inspect_edge` look for the start. -/
theorem forEach_inspectEdge (hfound : v.foundDeadlock = false) : ∀ {xs : List X},
    forEach inspectEdge xs v =
      if v.startNode ∈ xs then (true, { v with foundDeadlock := true }) else (false, v)
  | [] => by simp [forEach]
  | x :: xs => by
      rw [forEach, inspectEdge]
      by_cases hx : x = v.startNode
      · simp [hx]
      · have hv : { v with foundDeadlock := false } = v := by rw [← hfound]
        simp only [hx, decide_false, hv, mem_cons, eq_comm (a := v.startNode), false_or]
        exact forEach_inspectEdge hfound

omit [DecidableEq X] in
/-- The loops of `visit_subgraph` take the first search that does not end with nothing. -/
theorem forEach_outcome {f : X → Visitor X → Bool × Visitor X} {s : X → Option (Option (List X))}
    (hf : ∀ y, g.Outcome v (s y) (f y v)) : ∀ xs : List X,
    g.Outcome v (first s xs) (forEach f xs v)
  | [] => rfl
  | y :: xs => by
      have hy := hf y
      rw [forEach, first]
      rcases hs : s y with _ | _ | p <;> rw [hs] at hy
      · obtain ⟨htrue, hreached⟩ := hy
        rcases hfy : f y v with ⟨b, w⟩
        rw [hfy] at htrue hreached
        obtain rfl : b = true := htrue
        exact ⟨rfl, hreached⟩
      · rw [show f y v = (false, v) from hy]
        exact forEach_outcome hf xs
      · rw [show f y v = _ from hy]
        rfl

/-- **Below a node that is entered**: the four loops are two, over all that holds it up. -/
theorem lockVisitSubgraph_of_enterNode {visit : X → Visitor X → Bool × Visitor X} {w : Visitor X}
    {ys : List X} (hys : g.heldUpBy .granted t ++ g.heldUpBy .waiting t = ys)
    (hw : g.wait t.ctx = .empty) (henter : g.enterNode v t.ctx = (false, w))
    (hfound : w.foundDeadlock = false) : g.lockVisitSubgraph visit t v =
      let r := if w.startNode ∈ ys then (true, { w with foundDeadlock := true })
        else forEach visit ys w
      (r.1, g.leaveNode r.2 t.ctx) := by
  subst hys
  rw [lockVisitSubgraph, if_neg (not_not.2 hw), henter]
  dsimp only
  rw [← forEach_append, forEach_inspectEdge hfound]
  by_cases hstart : w.startNode ∈ g.heldUpBy .granted t ++ g.heldUpBy .waiting t
  · simp only [if_pos hstart, if_true]
  · simp only [if_neg hstart, Bool.false_eq_true, if_false]
    rw [← forEach_append]

omit [DecidableEq X] in
/-- Leaving a node puts it on the path that was found below it. -/
theorem Outcome.leaveNode {found : Option (Option (List X))} {r : Bool × Visitor X}
    (hfound : v.foundDeadlock = false)
    (h : g.Outcome { v with currentSearchDepth := v.currentSearchDepth + 1 } found r) :
    g.Outcome v (found.map (Option.map (x :: ·))) (r.1, g.leaveNode r.2 x) := by
  rcases found with _ | _ | p
  · obtain ⟨htrue, hreached⟩ := h
    refine ⟨htrue, ?_⟩
    rw [WaitForGraph.leaveNode]
    dsimp only
    split_ifs <;> exact hreached
  · obtain rfl : r = _ := h
    obtain ⟨start, victim, depth, _, reached⟩ := v
    obtain rfl : _ = false := hfound
    rfl
  · obtain rfl : r = _ := h
    simp [Outcome, WaitForGraph.leaveNode, optChangeVictimTo, lightest]

/-- A context that is not in the graph is not entered. -/
theorem visitSubgraph_of_next_eq_none (h : g.next x = none) :
    g.visitSubgraph (n + 1) x v = (false, v) := by
  rw [visitSubgraph]
  cases ht : g.waitingFor x with
  | none => rfl
  | some t =>
    obtain rfl := g.ctx_waitingFor x t ht
    have hw : g.wait t.ctx ≠ .empty := by
      intro hw
      exact nomatch h.symm.trans (next_eq_some_iff.2 ⟨t, ht, rfl, hw, rfl⟩)
    exact if_pos hw

/-- **The visitor's search is the search of the graph.** -/
theorem visitSubgraph_outcome : ∀ {n : ℕ} {x : X} {v : Visitor X}, v.foundDeadlock = false →
    v.victim = none → v.currentSearchDepth + n + 1 = maxSearchDepth →
    g.Outcome v (search g.next v.startNode n x) (g.visitSubgraph (n + 1) x v) := by
  intro n
  induction n with
  | zero =>
    intro x v hfound hvictim hdepth
    cases hx : g.next x with
    | none => rw [search_of_none hx]; exact visitSubgraph_of_next_eq_none hx
    | some ys =>
      obtain ⟨t, ht, rfl, hw, -⟩ := next_eq_some_iff.1 hx
      have hmax : maxSearchDepth ≤ v.currentSearchDepth + 1 := by omega
      simp [search, hx, Outcome, visitSubgraph, ht, lockVisitSubgraph, hw, enterNode,
        hmax]
  | succ n ih =>
    intro x v hfound hvictim hdepth
    cases hx : g.next x with
    | none => rw [search_of_none hx]; exact visitSubgraph_of_next_eq_none hx
    | some ys =>
      obtain ⟨t, ht, rfl, hw, hys⟩ := next_eq_some_iff.1 hx
      let w := { v with currentSearchDepth := v.currentSearchDepth + 1 }
      have hmax : ¬maxSearchDepth ≤ v.currentSearchDepth + 1 := by omega
      have henter : g.enterNode v t.ctx = (false, w) := by
        simp [enterNode, hmax, w, hfound]
      have hrest := forEach_outcome
        (fun y => ih (x := y) (v := w) hfound hvictim (by simp only [w]; omega)) ys
      rw [visitSubgraph, ht]
      dsimp only
      rw [lockVisitSubgraph_of_enterNode hys hw henter hfound, search, hx]
      dsimp only
      by_cases hstart : v.startNode ∈ ys
      · rw [if_pos hstart, if_pos hstart]
        simp [Outcome, leaveNode, optChangeVictimTo, lightest, hvictim, w]
      · rw [if_neg hstart, if_neg hstart]
        exact hrest.leaveNode hfound

/-! ## The search is exact -/

/-- **The search for a deadlock is exact above its maximum depth.** It returns TRUE if and only if
its context is on a cycle of contexts that wait for each other with empty slots, and the victim is
then on such a cycle and has the least weight on it. -/
theorem searchDeadlock_exact (g : WaitForGraph X L) (x : X)
    (hdepth : (g.searchDeadlock x).2.reachedMaxDepth = false) :
    ((g.searchDeadlock x).1 = true ↔ ∃ p, g.IsDeadlock x p) ∧
      ((g.searchDeadlock x).1 = true → ∃ p, g.IsDeadlock x p ∧ ∃ z ∈ p,
        (g.searchDeadlock x).2.victim = some z ∧
          ∀ y ∈ p, g.getDeadlockWeight z ≤ g.getDeadlockWeight y) := by
  have houtcome : g.Outcome (.start x) (search g.next x 31 x) (g.searchDeadlock x) :=
    visitSubgraph_outcome (n := 31) (v := .start x) rfl rfl rfl
  rcases hs : search g.next x 31 x with _ | _ | p <;> rw [hs] at houtcome
  · exact nomatch houtcome.2.symm.trans hdepth
  · have hfalse : g.searchDeadlock x = (false, .start x) := houtcome
    rw [hfalse]
    refine ⟨⟨nofun, ?_⟩, nofun⟩
    rintro ⟨p, hp⟩
    exact absurd (isCycle_next_iff.2 hp) (CycleSearch.not_isCycle_of_search hs)
  · have htrue : g.searchDeadlock x = (true, { Visitor.start x with
        foundDeadlock := true, victim := g.lightest p }) := houtcome
    have hp : g.IsDeadlock x p := isCycle_next_iff.1 (CycleSearch.isCycle_of_search hs)
    obtain ⟨z, hz, hvictim, hmin⟩ := exists_lightest (g := g) (p := p) (by
      rintro rfl
      exact nomatch hp.head)
    rw [htrue]
    exact ⟨⟨fun _ => ⟨p, hp⟩, fun _ => rfl⟩, fun _ => ⟨p, hp, z, hz, hvictim, hmin⟩⟩

/-- Two contexts, each with an exclusive lock and waiting for a shared lock on what the other one
has. -/
def crossed : WaitForGraph ℕ ℕ where
  strategy := fun _ => .object
  lists := fun l side => match side with
    | .granted => [⟨l, l, .exclusive⟩]
    | .waiting => [⟨1 - l, l, .shared⟩]
  waitingFor := fun x => some ⟨x, 1 - x, .shared⟩
  wait := fun _ => .empty
  deadlockOverweight := fun x => if x = 0 then 1 else 0
  ctx_waitingFor := by
    rintro x t ht
    rw [← Option.some.inj ht]

theorem searchDeadlock_crossed : ∃ p, crossed.IsDeadlock 0 p ∧ ∃ z ∈ p,
    (crossed.searchDeadlock 0).2.victim = some z ∧
      ∀ y ∈ p, crossed.getDeadlockWeight z ≤ crossed.getDeadlockWeight y :=
  (searchDeadlock_exact crossed 0 (by decide)).2 (by decide)

end WaitForGraph

end EloqSql.Mdl
