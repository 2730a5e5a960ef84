import EloqSql.Lib.LinkedList
import EloqSql.Lib.Machine

/-!
# ThreadPool/HeldMutexes — the list of the mutexes a connection holds

Each connection has a list of the mutexes that its coroutine holds, with the links in the mutexes
themselves. The pointers are edited where a mutex is locked, unlocked in whatever order, or waited
with; `CoroutineYield` goes along the list to unlock its mutexes and `ResumeCoroutine` goes back
along it to lock them again. Against the mutexes a connection has locked and not unlocked, kept
aside as `held`, the list is right in every state that any number of connections reach
(`safe_kept`).
-/

namespace EloqSql

namespace HeldMutexes

open LinkedList List
open Function (update update_apply update_comm update_eq_self update_of_ne update_self)

/-- A `LIST`: `acquired_mutexes` of a connection, or `l` of a mutex. -/
inductive Node (C M : Type*) where
  | connection (c : C)
  | mutex (m : M)
  deriving DecidableEq

/-- `node->data`, as `mysql_mutex_init` sets it. -/
def Node.data {C M : Type*} : Node C M → Option M
  | .connection _ => none
  | .mutex m => some m

open Node (connection data mutex)

variable {C M : Type*}

/-! ## The pointers -/

section

variable [DecidableEq C] [DecidableEq M] (h : Links (Node C M))

/-- `list_add`. -/
def listAdd (root : Option (Node C M)) (element : Node C M) : Links (Node C M) :=
  match root with
  | some root =>
    let h := { h with next := writeAt h.next (h.prev root) (some element) }
    let h := { h with prev := update h.prev element (h.prev root) }
    let h := { h with prev := update h.prev root (some element) }
    { h with next := update h.next element (some root) }
  | none =>
    { prev := update h.prev element none, next := update h.next element none }

/-- `list_delete`, apart from the root that it returns. -/
def listDelete (element : Node C M) : Links (Node C M) :=
  let h := { h with next := writeAt h.next (h.prev element) (h.next element) }
  { h with prev := writeAt h.prev (h.next element) (h.prev element) }

/-- `add_mutex_to_tls_list`. -/
def addMutexToTlsList (c : C) (m : M) : Links (Node C M) :=
  if h.next (.connection c) = none then
    let h := { h with next := update h.next (.connection c) (some (.mutex m)) }
    let h := { h with prev := update h.prev (.mutex m) (some (.connection c)) }
    { h with next := update h.next (.mutex m) none }
  else listAdd h (h.next (.connection c)) (.mutex m)

/-- `list_delete`, and the link of the mutex set to `NULL`. -/
def deleteMutex (m : M) : Links (Node C M) :=
  let h := listDelete h (.mutex m)
  let h := { h with prev := update h.prev (.mutex m) none }
  { h with next := update h.next (.mutex m) none }

/-- **`CoroutineYield`**: the mutexes that are unlocked, one after another, in so many rounds. -/
def coroutineYield (c : C) (rounds : ℕ) : List M :=
  (walkNext h rounds (h.next (.connection c))).filterMap data

/-- **`ResumeCoroutine`**: the mutexes that are locked, one after another, with so many rounds for
each of its loops. -/
def resumeCoroutine (c : C) (rounds : ℕ) : List M :=
  match h.next (.connection c) with
  | none => []
  | some node =>
    (walkPrev h (.connection c) rounds (some (lastNode h rounds node))).filterMap data

end

/-! ## The machine -/

/-- **Where a coroutine is**: it runs, it waits for a condition with a mutex, or it has yielded. -/
inductive Pc (M : Type*) where
  | running
  | waiting (m : M)
  | suspended
  deriving DecidableEq

/-- **The mutexes and the connections.** -/
structure State (C M : Type*) where
  heap : Links (Node C M)
  /-- The holder of the pthread mutex. -/
  locked : M → Option C
  pc : C → Pc M
  /-- The mutexes a coroutine has acquired and not released, the latest first: no code reads it. -/
  held : C → List M
  /-- What a coroutine has unlocked when it yielded: no code reads it. -/
  released : C → List M

/-- What a coroutine does that succeeds. -/
inductive Event (C M : Type*) where
  | lock (c : C) (m : M)
  | trylock (c : C) (m : M)
  | unlock (c : C) (m : M)
  /-- `mysql_coro_cond_wait` or `mysql_coro_cond_timedwait`, up to its wait. -/
  | condWait (c : C) (m : M)
  /-- Its end. -/
  | condReturn (c : C)
  | yield (c : C)
  | resume (c : C)

namespace State

/-- All mutexes are initialised, and nobody holds one. -/
def init : State C M :=
  ⟨⟨fun _ => none, fun _ => none⟩, fun _ => none, fun _ => .running, fun _ => [], fun _ => []⟩

variable [DecidableEq C] [DecidableEq M] (s : State C M)

/-- The mutex is locked and put into the list. -/
def acquire (c : C) (m : M) : State C M :=
  { s with heap := addMutexToTlsList s.heap c m
           locked := update s.locked m (some c)
           held := update s.held c (m :: s.held c) }

/-- The mutex is taken out of the list and unlocked. -/
def release (c : C) (m : M) : State C M :=
  { s with heap := deleteMutex s.heap m
           locked := update s.locked m none
           held := update s.held c ((s.held c).filter (· ≠ m)) }

def goto (c : C) (pc : Pc M) : State C M := { s with pc := update s.pc c pc }

/-- The pthread mutexes of a list get another holder. -/
def setLocked (ms : List M) (holder : Option C) : State C M :=
  { s with locked := fun m => if m ∈ ms then holder else s.locked m }

/-- The pthread mutex is free, and so is the link: no coroutine has yielded with it. -/
def Free (m : M) : Prop :=
  s.locked m = none ∧ s.heap.prev (.mutex m) = none ∧ s.heap.next (.mutex m) = none

instance (m : M) : Decidable (s.Free m) := inferInstanceAs (Decidable (_ ∧ _ ∧ _))

/-- **One step.** A loop over a list makes at most one round more than there are mutexes held. -/
def step : Event C M → Option (State C M)
  | .lock c m | .trylock c m =>
    if s.pc c = .running ∧ s.Free m then some (s.acquire c m) else none
  | .unlock c m =>
    if s.pc c = .running ∧ m ∈ s.held c then some (s.release c m) else none
  | .condWait c m =>
    if s.pc c = .running ∧ m ∈ s.held c then some ((s.release c m).goto c (.waiting m)) else none
  | .condReturn c =>
    match s.pc c with
    | .waiting m => if s.Free m then some ((s.acquire c m).goto c .running) else none
    | _ => none
  | .yield c =>
    if s.pc c = .running then
      let ms := coroutineYield s.heap c ((s.held c).length + 1)
      some { (s.setLocked ms none).goto c .suspended with
        released := update s.released c ms }
    else none
  | .resume c =>
    let ms := resumeCoroutine s.heap c ((s.held c).length + 1)
    if s.pc c = .suspended ∧ ∀ m ∈ ms, s.locked m = none then
      some ((s.setLocked ms (some c)).goto c .running)
    else none

end State

/-- **The list of each connection is right**: it is a doubly linked list of the mutexes held, the
latest first, and the mutexes with a link are those that somebody holds. A coroutine that runs would
unlock each of them once, all being locked by it. One that has yielded would lock those it unlocked,
all being free, the oldest first. -/
structure Kept [DecidableEq C] [DecidableEq M] (s : State C M) : Prop where
  chain : ∀ c, Chain s.heap (.connection c) ((s.held c).map .mutex)
  nodup : ∀ c, (s.held c).Nodup
  prev_connection : ∀ c, s.heap.prev (.connection c) = none
  linked_iff : ∀ m, s.heap.prev (.mutex m) ≠ none ↔ ∃ c, m ∈ s.held c
  yield : ∀ c, s.pc c = .running → (∀ m ∈ s.held c, s.locked m = some c) ∧
    ∀ rounds, (s.held c).length < rounds → coroutineYield s.heap c rounds = s.held c
  resume : ∀ c, s.pc c = .suspended → s.held c = s.released c ∧
    (∀ m ∈ s.held c, s.locked m = none) ∧
    ∀ rounds, (s.held c).length < rounds →
      resumeCoroutine s.heap c rounds = (s.released c).reverse

/-! ## The functions on a list -/

section

variable {h : Links (Node C M)} {c : C} {m : M} {ms : List M}

/-- The nodes of a connection and its mutexes are different. -/
theorem nodup_nodes (c : C) (hms : ms.Nodup) :
    (connection c :: ms.map (mutex : M → Node C M)).Nodup :=
  nodup_cons.2 ⟨by simp, hms.map fun _ _ e => Node.mutex.inj e⟩

theorem filterMap_data (ms : List M) :
    (ms.map (mutex : M → Node C M)).filterMap data = ms := by
  rw [filterMap_map]
  exact filterMap_some

/-- **`CoroutineYield` unlocks the mutexes of the list.** -/
theorem coroutineYield_eq (hc : Chain h (.connection c) (ms.map .mutex)) {rounds : ℕ}
    (hrounds : ms.length < rounds) : coroutineYield h c rounds = ms := by
  rw [coroutineYield, walkNext_eq hc (by simpa using hrounds.le), filterMap_data]

variable [DecidableEq C] [DecidableEq M]

/-- Whether the list is empty or not, the mutex comes in behind its head. -/
theorem addMutexToTlsList_eq {l : List (Node C M)} (hc : Chain h (.connection c) l) (m : M) :
    addMutexToTlsList h c m = h.insertAfter (.connection c) (.mutex m) := by
  have hne : (mutex m : Node C M) ≠ .connection c := by simp
  cases l with
  | nil =>
    have hnone : h.next (.connection c) = none := hc
    simp only [addMutexToTlsList, Links.insertAfter, hnone, if_true, writeAt]
    rw [update_comm hne.symm]
  | cons root l =>
    obtain ⟨hnext, hprev, -⟩ := hc
    simp only [addMutexToTlsList, Links.insertAfter, hnext, hprev, listAdd, writeAt,
      reduceCtorEq, if_false]
    rw [update_comm hne.symm]

/-- A mutex is taken out whatever its neighbours are. -/
theorem deleteMutex_eq (h : Links (Node C M)) (m : M) : deleteMutex h m = h.remove (.mutex m) := by
  have hself : writeAt h.next (h.prev (.mutex m)) (h.next (.mutex m)) (.mutex m) =
      h.next (.mutex m) := by
    cases hp : h.prev (.mutex m) with
    | none => rfl
    | some p =>
      by_cases hpm : .mutex m = p
      · simp [writeAt, hpm]
      · simp [writeAt, hpm]
  simp only [deleteMutex, listDelete, Links.remove, hself]

/-- **`ResumeCoroutine` locks them, from the end of the list on.** -/
theorem resumeCoroutine_eq (hc : Chain h (.connection c) (ms.map .mutex)) (hms : ms.Nodup)
    {rounds : ℕ} (hrounds : ms.length < rounds) : resumeCoroutine h c rounds = ms.reverse := by
  cases ms with
  | nil => rw [resumeCoroutine, show h.next (.connection c) = none from hc]; rfl
  | cons m ms =>
    have hwalk := walkPrev_eq hc (nodup_nodes c hms) (by simpa using hrounds)
    obtain ⟨hnext, -, hrest⟩ := hc
    simp only [resumeCoroutine, hnext]
    rw [lastNode_eq hrest (by simp at hrounds; simp; omega), ← getLast?_cons_cons]
    rw [show connection c :: mutex m :: ms.map mutex =
      connection c :: (m :: ms).map mutex from rfl, hwalk, ← map_reverse,
      filterMap_data]

end

/-! ## The invariant -/

/-- **The invariant**: each list is right, no mutex is in two lists, what is in none has no pointer
back, and the pthread mutexes of a list are locked unless the coroutine has yielded. -/
structure Inv (s : State C M) : Prop where
  chain : ∀ c, Chain s.heap (.connection c) ((s.held c).map .mutex)
  nodup : ∀ c, (s.held c).Nodup
  prev_connection : ∀ c, s.heap.prev (.connection c) = none
  isolated : ∀ m, (∀ c, m ∉ s.held c) → s.heap.prev (.mutex m) = none
  disjoint : ∀ c d m, m ∈ s.held c → m ∈ s.held d → c = d
  locked : ∀ c, s.pc c ≠ .suspended → ∀ m ∈ s.held c, s.locked m = some c
  free : ∀ c, s.pc c = .suspended → s.held c = s.released c ∧ ∀ m ∈ s.held c, s.locked m = none

variable {s : State C M} {c d : C} {m : M}

/-- A mutex has a pointer back if and only if somebody holds it. -/
theorem Inv.linked_iff (h : Inv s) (m : M) :
    s.heap.prev (.mutex m) ≠ none ↔ ∃ c, m ∈ s.held c := by
  constructor
  · intro hne
    by_contra hno
    exact hne (h.isolated m fun c hc => hno ⟨c, hc⟩)
  · rintro ⟨c, hc⟩
    obtain ⟨p, -, hp⟩ := (h.chain c).prev_mem (mem_map_of_mem hc)
    simp [hp]

theorem inv_init : Inv (State.init : State C M) where
  chain _ := rfl
  nodup _ := nodup_nil
  prev_connection _ := rfl
  isolated _ _ := rfl
  disjoint c d m hm := by simp [State.init] at hm
  locked c _ m hm := by simp [State.init] at hm
  free c hc := by simp [State.init] at hc

/-- The nodes of two lists are different. -/
theorem Inv.nodes_disjoint (h : Inv s) (hne : d ≠ c) :
    ∀ y ∈ connection d :: (s.held d).map mutex,
      y ∉ connection c :: (s.held c).map (mutex : M → Node C M) := by
  intro y hy hy'
  obtain rfl | hy := mem_cons.1 hy
  · simp [hne] at hy'
  · obtain ⟨n, hn, rfl⟩ := mem_map.1 hy
    have hn' : n ∈ s.held c := by simpa using hy'
    exact hne (h.disjoint d c n hn hn')

/-- What the head of a list points to is one of its mutexes. -/
theorem Inv.next_connection (h : Inv s) {y : Node C M}
    (hy : s.heap.next (.connection c) = some y) : ∃ m ∈ s.held c, .mutex m = y :=
  mem_map.1 ((h.chain c).next_mem mem_cons_self hy)

variable [DecidableEq C]

/-- A coroutine that does not yield and is not resumed goes on. -/
theorem Inv.goto (h : Inv s) (hc : s.pc c ≠ .suspended) {pc : Pc M} (hpc : pc ≠ .suspended) :
    Inv (s.goto c pc) where
  __ := h
  locked d hd := by
    refine h.locked d ?_
    by_cases hdc : d = c
    · exact hdc ▸ hc
    · simpa [State.goto, hdc] using hd
  free d hd := by
    have hdc : d ≠ c := by
      rintro rfl
      exact hpc (by simpa [State.goto] using hd)
    exact h.free d (by simpa [State.goto, hdc] using hd)

variable [DecidableEq M]

theorem Inv.kept (h : Inv s) : Kept s where
  chain := h.chain
  nodup := h.nodup
  prev_connection := h.prev_connection
  linked_iff := h.linked_iff
  yield c hc := ⟨h.locked c (by simp [hc]), fun _ hr => coroutineYield_eq (h.chain c) hr⟩
  resume c hc := by
    obtain ⟨hreleased, hfree⟩ := h.free c hc
    refine ⟨hreleased, hfree, fun rounds hr => ?_⟩
    rw [resumeCoroutine_eq (h.chain c) (h.nodup c) hr, hreleased]

theorem mem_held_acquire {n : M} :
    n ∈ (s.acquire c m).held d ↔ n ∈ s.held d ∨ d = c ∧ n = m := by
  by_cases hd : d = c
  · simp [State.acquire, hd, or_comm]
  · simp [State.acquire, hd]

/-- **A free mutex is acquired.** -/
theorem Inv.acquire (h : Inv s) (hc : s.pc c ≠ .suspended) (hm : s.Free m) :
    Inv (s.acquire c m) := by
  have hno : ∀ d, m ∉ s.held d := fun d hd => (h.linked_iff m).2 ⟨d, hd⟩ hm.2.1
  have hnode : ∀ d, mutex m ∉
      connection d :: (s.held d).map (mutex : M → Node C M) := by
    intro d
    simpa using hno d
  have hheap : (s.acquire c m).heap = s.heap.insertAfter (.connection c) (.mutex m) :=
    addMutexToTlsList_eq (h.chain c) m
  have hheld : ∀ d, (s.acquire c m).held d = if d = c then m :: s.held c else s.held d := by
    intro d
    simp [State.acquire, update_apply]
  refine ⟨fun d => ?_, fun d => ?_, fun d => ?_, fun n hn => ?_, fun d e n hd he => ?_,
    fun d hd n hn => ?_, fun d hd => ?_⟩
  · rw [hheap, hheld]
    split_ifs with hd
    · subst hd
      exact (h.chain d).insertAfter (nodup_nodes d (h.nodup d)) (hnode d)
    · exact (h.chain d).insertAfter_of_disjoint (h.chain c) (hnode d) (h.nodes_disjoint hd)
  · rw [hheld]
    split_ifs with hd
    · exact nodup_cons.2 ⟨hno c, h.nodup c⟩
    · exact h.nodup d
  · rw [hheap, insertAfter_prev_of_ne (by simp), h.prev_connection]
    intro hnext
    obtain ⟨n, -, hn⟩ := h.next_connection hnext
    simp at hn
  · have hnm : n ≠ m := fun e => hn c (mem_held_acquire.2 (.inr ⟨rfl, e⟩))
    have hold : ∀ d, n ∉ s.held d := fun d hd => hn d (mem_held_acquire.2 (.inl hd))
    rw [hheap, insertAfter_prev_of_ne (by simpa using hnm), h.isolated n hold]
    intro hnext
    obtain ⟨n', hn', heq⟩ := h.next_connection hnext
    exact hold c (Node.mutex.inj heq ▸ hn')
  · obtain hd' | ⟨hdc, hdn⟩ := mem_held_acquire.1 hd <;>
      obtain he' | ⟨hec, hen⟩ := mem_held_acquire.1 he
    · exact h.disjoint d e n hd' he'
    · exact absurd (hen ▸ hd') (hno d)
    · exact absurd (hdn ▸ he') (hno e)
    · rw [hdc, hec]
  · obtain hn | ⟨rfl, rfl⟩ := mem_held_acquire.1 hn
    · have hnm : n ≠ m := fun e => hno d (e ▸ hn)
      exact (update_of_ne hnm ..).trans (h.locked d hd n hn)
    · exact update_self ..
  · have hdc : d ≠ c := fun e => hc (e ▸ hd)
    obtain ⟨hreleased, hfree⟩ := h.free d hd
    rw [hheld, if_neg hdc]
    refine ⟨hreleased, fun n hn => ?_⟩
    have hnm : n ≠ m := fun e => hno d (e ▸ hn)
    exact (update_of_ne hnm ..).trans (hfree n hn)

theorem mem_held_release {n : M} :
    n ∈ (s.release c m).held d ↔ n ∈ s.held d ∧ (d = c → n ≠ m) := by
  by_cases hd : d = c
  · simp [State.release, hd]
  · simp [State.release, hd]

/-- **A mutex is released**, wherever it is in the list. -/
theorem Inv.release (h : Inv s) (hc : s.pc c ≠ .suspended) (hm : m ∈ s.held c) :
    Inv (s.release c m) := by
  have hnode : mutex m ∈ (s.held c).map (mutex : M → Node C M) := mem_map_of_mem hm
  have hheap : (s.release c m).heap = s.heap.remove (.mutex m) := deleteMutex_eq s.heap m
  have hheld : ∀ d, (s.release c m).held d = if d = c then (s.held c).erase m else s.held d := by
    intro d
    have hfilter : (s.held c).filter (· ≠ m) = (s.held c).erase m := by
      rw [(h.nodup c).erase_eq_filter]
      exact filter_congr fun n _ => by simp [bne, BEq.beq]
    simp only [State.release, update_apply, hfilter]
  -- what the mutex points to is another mutex of its list
  have hnext : ∀ y, s.heap.next (.mutex m) = some y → ∃ n ∈ s.held c, .mutex n = y := fun y hy =>
    mem_map.1 ((h.chain c).next_mem (mem_cons_of_mem _ hnode) hy)
  have hne : ∀ d n, n ∈ (s.release c m).held d → n ∈ s.held d ∧ n ≠ m := by
    intro d n hn
    obtain ⟨hn, hnm⟩ := mem_held_release.1 hn
    refine ⟨hn, fun e => hnm (h.disjoint d c n hn (e ▸ hm)) e⟩
  refine ⟨fun d => ?_, fun d => ?_, fun d => ?_, fun n hn => ?_, fun d e n hd he => ?_,
    fun d hd n hn => ?_, fun d hd => ?_⟩
  · rw [hheap, hheld]
    split_ifs with hd
    · subst hd
      rw [map_erase fun _ _ e => Node.mutex.inj e]
      exact (h.chain d).remove (nodup_nodes d (h.nodup d)) hnode
    · exact (h.chain d).remove_of_disjoint (h.chain c) hnode (h.nodes_disjoint hd)
  · rw [hheld]
    split_ifs with hd
    · exact (h.nodup c).erase m
    · exact h.nodup d
  · rw [hheap, remove_prev_of_ne (by simp), h.prev_connection]
    intro hy
    obtain ⟨n, -, hn⟩ := hnext _ hy
    simp at hn
  · by_cases hnm : n = m
    · rw [hheap, hnm, remove_prev_self]
    · have hold : ∀ d, n ∉ s.held d := fun d hd => hn d (mem_held_release.2 ⟨hd, fun _ => hnm⟩)
      rw [hheap, remove_prev_of_ne (by simpa using hnm), h.isolated n hold]
      intro hy
      obtain ⟨n', hn', heq⟩ := hnext _ hy
      exact hold c (Node.mutex.inj heq ▸ hn')
  · exact h.disjoint d e n (hne d n hd).1 (hne e n he).1
  · obtain ⟨hn, hnm⟩ := hne d n hn
    exact (update_of_ne hnm ..).trans (h.locked d hd n hn)
  · obtain ⟨hreleased, hfree⟩ := h.free d hd
    have hdc : d ≠ c := fun e => hc (e ▸ hd)
    refine ⟨by rw [hheld, if_neg hdc]; exact hreleased, fun n hn => ?_⟩
    obtain ⟨hn, hnm⟩ := hne d n hn
    exact (update_of_ne hnm ..).trans (hfree n hn)

/-- **The mutexes of a list get another holder**, and their coroutine goes with it: none when it
yields, the coroutine when it is resumed. -/
theorem Inv.setLocked (h : Inv s) {holder : Option C} {pc : Pc M} {released : List M}
    (hrun : pc ≠ .suspended → holder = some c)
    (hsusp : pc = .suspended → holder = none ∧ released = s.held c) :
    Inv { (s.setLocked (s.held c) holder).goto c pc with
      released := update s.released c released } where
  __ := h
  locked d hd n hn := by
    by_cases hdc : d = c
    · subst hdc
      have hholder := hrun (by simpa [State.goto] using hd)
      exact (if_pos hn).trans hholder
    · have hno : n ∉ s.held c := fun hn' => hdc (h.disjoint d c n hn hn')
      have hrun : s.pc d ≠ .suspended := by simpa [State.goto, State.setLocked, hdc] using hd
      exact (if_neg hno).trans (h.locked d hrun n hn)
  free d hd := by
    by_cases hdc : d = c
    · subst hdc
      obtain ⟨hholder, hreleased⟩ := hsusp (by simpa [State.goto] using hd)
      refine ⟨?_, fun n hn => (if_pos hn).trans hholder⟩
      change s.held d = update s.released d released d
      rw [update_self, hreleased]
    · obtain ⟨hreleased, hfree⟩ :=
        h.free d (by simpa [State.goto, State.setLocked, hdc] using hd)
      refine ⟨?_, fun n hn => ?_⟩
      · change s.held d = update s.released c released d
        rw [update_of_ne hdc, hreleased]
      · have hno : n ∉ s.held c := fun hn' => hdc (h.disjoint d c n hn hn')
        exact (if_neg hno).trans (hfree n hn)

/-- **Every step keeps the invariant.** -/
theorem Inv.step (h : Inv s) {e : Event C M} {s' : State C M} (hs : s.step e = some s') :
    Inv s' := by
  cases e with
  | lock c m | trylock c m =>
    obtain ⟨⟨hc, hm⟩, hs⟩ := Option.ite_none_right_eq_some.1 hs
    exact Option.some.inj hs ▸ h.acquire (by simp [hc]) hm
  | unlock c m =>
    obtain ⟨⟨hc, hm⟩, hs⟩ := Option.ite_none_right_eq_some.1 hs
    exact Option.some.inj hs ▸ h.release (by simp [hc]) hm
  | condWait c m =>
    obtain ⟨⟨hc, hm⟩, hs⟩ := Option.ite_none_right_eq_some.1 hs
    have hrun : s.pc c ≠ .suspended := by simp [hc]
    exact Option.some.inj hs ▸ (h.release hrun hm).goto hrun (by simp)
  | condReturn c =>
    simp only [State.step] at hs
    split at hs
    · next m hc =>
      obtain ⟨hm, hs⟩ := Option.ite_none_right_eq_some.1 hs
      have hrun : s.pc c ≠ .suspended := by simp [hc]
      exact Option.some.inj hs ▸ (h.acquire hrun hm).goto hrun (by simp)
    · simp at hs
  | yield c =>
    obtain ⟨hc, hs⟩ := Option.ite_none_right_eq_some.1 hs
    rw [coroutineYield_eq (h.chain c) (Nat.lt_succ_self _)] at hs
    exact Option.some.inj hs ▸ h.setLocked (by simp) (by simp)
  | resume c =>
    obtain ⟨⟨hc, -⟩, hs⟩ := Option.ite_none_right_eq_some.1 hs
    rw [resumeCoroutine_eq (h.chain c) (h.nodup c) (Nat.lt_succ_self _)] at hs
    have hkeep : Inv { (s.setLocked (s.held c) (some c)).goto c .running with
        released := update s.released c (s.released c) } :=
      h.setLocked (by simp) (by simp)
    rw [update_eq_self] at hkeep
    have hset : s.setLocked (s.held c).reverse (some c) = s.setLocked (s.held c) (some c) := by
      simp [State.setLocked]
    rw [hset] at hs
    exact Option.some.inj hs ▸ hkeep

/-- **The lists are right in every state that the connections reach.** -/
theorem safe_kept (es : List (Event C M)) :
    Machine.Safe State.step Kept (State.init : State C M) es :=
  Machine.safe_of_step (I := Inv) (fun _ h => h.kept) (fun _ _ _ h hs => h.step hs) es inv_init

end HeldMutexes

end EloqSql
