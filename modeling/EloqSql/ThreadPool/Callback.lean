import EloqSql.Lib.Machine
import Mathlib.Data.List.Perm.Subperm

/-!
# ThreadPool/Callback — one thread at a time in `tp_callback` of a connection

Workers and the external worker take connections out of three queues in batches and call
`tp_callback` for them. Seven places enqueue a connection. The guard `being_processed_` is a load
and a later store, so that exclusion rests on the queues: a connection has at most one **token**,
which is an entry in a queue or a batch, the thread that runs its coroutine, a request to the
transaction service that will resume it, or a poller about to enqueue it. `token` counts them, and
every step moves the token or makes it from nothing where there is none, until the counter of the
events of a connection overflows (`overflow_not_exclusive`).
-/

namespace EloqSql

open List
open Machine (exec exec_append le_tally tally tally_update)

namespace Callback

open Function (update update_apply update_of_ne update_self)

variable {C T P : Type*}

/-! ## The machine -/

/-- **An entry made for a connection**, with its number among those. -/
abbrev Entry (C : Type*) := C × ℕ

/-- The three queues of `CoroutineInfo`. -/
inductive QueueId
  | req
  | resume
  | native
  deriving DecidableEq

instance : Fintype QueueId := ⟨{.req, .resume, .native}, by intro q; cases q <;> simp⟩

/-- **Where a thread is** in the loop over its batch. -/
inductive Place (C : Type*)
  /-- Between two connections. -/
  | fetching
  /-- Before the load of `being_processed_`. -/
  | checking (e : Entry C)
  /-- The load gave true. -/
  | requeueing (e : Entry C)
  /-- The load gave false: before the store at the head of `tp_callback`. -/
  | entering (e : Entry C)
  /-- In `tp_callback`, with the coroutine. -/
  | running (c : C)
  /-- In `start_io`, before `io_poll_associate_fd`. -/
  | binding (c : C)
  /-- In `start_io`, after the compare-and-swap has failed. -/
  | casFailed (c : C)
  /-- In `start_io`, before it enqueues the connection. -/
  | casStored (c : C)
  /-- In `tp_callback`, before the store at its end. -/
  | leaving (c : C)
  deriving DecidableEq

/-- **A thread**: the rest of its batch (`local_conns` after `conns_offset`) and its place. -/
structure Thread (C : Type*) where
  rest : List (Entry C)
  place : Place C

/-- **A thread group with its connections.** -/
structure Pool (C T P : Type*) where
  queue : QueueId → List (Entry C)
  thread : T → Thread C
  /-- A thread that has found `epoll_events_` not above zero, before it enqueues the connection. -/
  putter : P → Option C
  added : C → Bool
  epollEvents : C → Int32
  eventsSnapshot : C → Int32
  beingProcessed : C → Bool
  needSqlThd : C → Bool
  boundToPollDescriptor : C → Bool
  /-- The descriptor is known to the poll. -/
  associated : C → Bool
  /-- A request to the transaction service that will resume the coroutine. -/
  request : C → Bool
  /-- The number of entries made for a connection. -/
  made : C → ℕ
  /-- The entries `tp_callback` has been called for. -/
  consumed : List (Entry C)

/-- Before the first connection. -/
def Pool.init : Pool C T P where
  queue _ := []
  thread _ := ⟨[], .fetching⟩
  putter _ := none
  added _ := false
  epollEvents _ := 0
  eventsSnapshot _ := 0
  beingProcessed _ := false
  needSqlThd _ := false
  boundToPollDescriptor _ := false
  associated _ := false
  request _ := false
  made _ := 0
  consumed := []

/-- **What a thread does next.** -/
inductive Op (C : Type*)
  | fetch (q : QueueId) (batch : List (Entry C))
  | next
  | check
  | requeue
  | enter
  | waitBegin (ongoing : Bool)
  | waitEnd
  | handOver
  | longResume
  | send
  | readPacket
  | bind
  | associate (ok : Bool)
  | compareExchange
  | storeOne
  | reenqueue
  | leave
  | close

/-- **What happens next.** -/
inductive Event (C T P : Type*)
  | thread (t : T) (op : Op C)
  /-- `TP_pool_generic::add`, up to the store. -/
  | add (p : P) (c : C)
  /-- `lockfree_queue_put_bulk`, up to the `fetch_add`. -/
  | poll (p : P) (c : C)
  /-- The `Enqueue` of the two. -/
  | put (p : P)
  /-- `CoroutineResume`. -/
  | resume (c : C)

namespace Pool

variable [DecidableEq C] [DecidableEq T] [DecidableEq P] (s : Pool C T P)

/-- `Enqueue` and `EnqueueBulk`. -/
def enqueue (q : QueueId) (l : List (Entry C)) : Pool C T P :=
  { s with queue := update s.queue q (s.queue q ++ l) }

/-- A new entry for a connection. -/
def make (q : QueueId) (c : C) : Pool C T P :=
  { s.enqueue q [(c, s.made c)] with made := update s.made c (s.made c + 1) }

/-- The thread goes to another place with another batch. -/
def goto (t : T) (rest : List (Entry C)) (place : Place C) : Pool C T P :=
  { s with thread := update s.thread t ⟨rest, place⟩ }

/-- **One step of a thread**; `isSql` is `GetIsSqlThd()`. -/
def threadStep (isSql : T → Bool) (t : T) (op : Op C) : Option (Pool C T P) :=
  let rest := (s.thread t).rest
  match (s.thread t).place, op with
  -- `get_event_bulk` and `MariaModule::Process`; the queues keep no order between producers
  | .fetching, .fetch q batch =>
      if rest = [] ∧ batch.length ≤ 128 ∧ (q = .native → isSql t ∧ batch.length = 1) ∧
          batch.Subperm (s.queue q) then
        some ({ s with queue := update s.queue q ((s.queue q).diff batch) }.goto t batch
          .fetching)
      else none
  | .fetching, .next =>
      match rest with
      | e :: rest => some (s.goto t rest (.checking e))
      | [] => none
  | .checking e, .check =>
      some (s.goto t rest (if s.beingProcessed e.1 then .requeueing e else .entering e))
  | .requeueing e, .requeue =>
      some ((s.enqueue (if isSql t ∧ s.needSqlThd e.1 then .native else .resume) [e]).goto t rest
        .fetching)
  -- `tp_callback`
  | .entering e, .enter =>
      some ({ s with
        beingProcessed := update s.beingProcessed e.1 true
        consumed := e :: s.consumed }.goto t rest (.running e.1))
  -- `wait_begin` on a SQL thread gives the rest of the batch back
  | .running c, .waitBegin ongoing =>
      if isSql t then
        some (({ s with needSqlThd := update s.needSqlThd c true }.enqueue
          (if ongoing then .resume else .req) rest).goto t [] (.running c))
      else none
  | .running c, .waitEnd =>
      some { s with needSqlThd := update s.needSqlThd c false }
  -- `wait_begin` on the external worker
  | .running c, .handOver =>
      if isSql t then none
      else some (({ s with needSqlThd := update s.needSqlThd c true }.make .native c).goto t
        rest (.leaving c))
  -- `CoroutineLongResume`, then the yield
  | .running c, .longResume =>
      some ((s.make (if s.needSqlThd c then .native else .req) c).goto t rest (.leaving c))
  -- a request to the transaction service, then the yield
  | .running c, .send =>
      some ({ s with request := update s.request c true }.goto t rest (.leaving c))
  -- `do_command`
  | .running c, .readPacket =>
      some { s with eventsSnapshot := update s.eventsSnapshot c (s.epollEvents c) }
  -- `start_io`
  | .running c, .bind =>
      if s.boundToPollDescriptor c then none
      else some ({ s with
        boundToPollDescriptor := update s.boundToPollDescriptor c true
        epollEvents := update s.epollEvents c 0
        eventsSnapshot := update s.eventsSnapshot c 0 }.goto t rest (.binding c))
  | .binding c, .associate ok =>
      if ok then
        some ({ s with associated := update s.associated c true }.goto t rest (.leaving c))
      else some (s.goto t rest (.running c))
  | .running c, .compareExchange =>
      if s.boundToPollDescriptor c then
        if s.epollEvents c = s.eventsSnapshot c then
          some ({ s with epollEvents := update s.epollEvents c 0 }.goto t rest (.leaving c))
        else some (s.goto t rest (.casFailed c))
      else none
  | .casFailed c, .storeOne =>
      some ({ s with
        eventsSnapshot := update s.eventsSnapshot c 1
        epollEvents := update s.epollEvents c 1 }.goto t rest (.casStored c))
  | .casStored c, .reenqueue => some ((s.make .req c).goto t rest (.leaving c))
  -- the end of `tp_callback`
  | .leaving c, .leave =>
      some ({ s with beingProcessed := update s.beingProcessed c false }.goto t rest
        .fetching)
  -- `delete c`
  | .running _, .close => some (s.goto t rest .fetching)
  | _, _ => none

/-- **One step of the group.** -/
def step (isSql : T → Bool) (s : Pool C T P) : Event C T P → Option (Pool C T P)
  | .thread t op => s.threadStep isSql t op
  | .add p c =>
      if s.added c = false ∧ s.putter p = none then
        some { s with
          added := update s.added c true
          epollEvents := update s.epollEvents c 1
          eventsSnapshot := update s.eventsSnapshot c 1
          putter := update s.putter p (some c) }
      else none
  | .poll p c =>
      if s.associated c ∧ s.putter p = none then
        some { s with
          epollEvents := update s.epollEvents c (s.epollEvents c + 1)
          putter := update s.putter p (if 0 < s.epollEvents c then none else some c) }
      else none
  | .put p =>
      match s.putter p with
      | some c => some ({ s with putter := update s.putter p none }.make .req c)
      | none => none
  | .resume c =>
      if s.request c then
        some ({ s with request := update s.request c false }.make
          (if s.needSqlThd c then .native else .resume) c)
      else none

/-- **The counter of events does not overflow**: it is positive after the `fetch_add`. -/
def Counted (s : Pool C T P) : Event C T P → Prop
  | .poll _ c => 0 < s.epollEvents c + 1
  | _ => True

instance (s : Pool C T P) : ∀ e, Decidable (s.Counted e)
  | .poll _ c => inferInstanceAs (Decidable (0 < s.epollEvents c + 1))
  | .thread _ _ | .add _ _ | .put _ | .resume _ => isTrue trivial

end Pool

/-! ## Tokens -/

/-- The entry a thread has in its hand. -/
def Place.hand : Place C → List (Entry C)
  | .checking e | .requeueing e | .entering e => [e]
  | _ => []

section

variable [DecidableEq C]

/-- The thread runs the coroutine of the connection and has not yet given it on. -/
def Place.holds (c : C) : Place C → Bool
  | .running d | .binding d | .casFailed d | .casStored d => d = c
  | _ => false

/-- **The thread is inside `tp_callback` of the connection.** -/
def Place.inside (c : C) : Place C → Bool
  | .running d | .binding d | .casFailed d | .casStored d | .leaving d => d = c
  | _ => false

/-- The entries of a connection in a list. -/
def entries (c : C) (l : List (Entry C)) : ℕ := (l.map Prod.fst).count c

/-- The tokens of a connection that a thread has. -/
def Thread.tokens (c : C) (th : Thread C) : ℕ :=
  entries c th.rest + entries c th.place.hand + (th.place.holds c).toNat

/-- How often a thread has an entry. -/
def Thread.count (e : Entry C) (th : Thread C) : ℕ := th.rest.count e + th.place.hand.count e

end

open Place (hand holds)

open Thread (tokens)

namespace Pool

variable {s s' x : Pool C T P} {t : T} {c : C} {e : Entry C} {rest : List (Entry C)}
  {place : Place C}

/-! ## How the threads move -/

section

variable [DecidableEq T]

@[simp] theorem thread_goto {u : T} :
    (s.goto t rest place).thread u = if u = t then ⟨rest, place⟩ else s.thread u :=
  update_apply ..

/-- A thread in `start_io` of a connection has marked it. -/
def Marked (s : Pool C T P) : Prop :=
  ∀ t c, (s.thread t).place = .binding c → s.boundToPollDescriptor c = true

theorem Marked.goto (h : s.Marked) (hthread : s'.thread = s.thread)
    (hbound : ∀ c, s.boundToPollDescriptor c = true → s'.boundToPollDescriptor c = true)
    (hplace : ∀ c, place = .binding c → s'.boundToPollDescriptor c = true := by simp) :
    (s'.goto t rest place).Marked := by
  intro u c hu
  rw [thread_goto] at hu
  split_ifs at hu with hut
  · exact hplace c hu
  · exact hbound c (h u c (hthread ▸ hu))

variable [DecidableEq C]

/-- **`being_processed_` tells whether a thread is inside**, also to a thread that is about to
enter. -/
structure Guarded (s : Pool C T P) : Prop where
  inside : ∀ t c, (s.thread t).place.inside c = true → s.beingProcessed c = true
  entering : ∀ t e, (s.thread t).place = .entering e →
    ∀ u, (s.thread u).place.inside e.1 = false
  exclusive : ∀ t u c, (s.thread t).place.inside c = true → (s.thread u).place.inside c = true →
    t = u

/-- A thread that does not come inside keeps the guard right. -/
theorem Guarded.goto (h : s.Guarded)
    (hthread : s'.thread = s.thread) (hbeing : s'.beingProcessed = s.beingProcessed)
    (hplace : ∀ c, place.inside c = true → (s.thread t).place.inside c = true)
    (hentering : ∀ e, place ≠ .entering e) : (s'.goto t rest place).Guarded := by
  have hold : ∀ u c, ((s'.goto t rest place).thread u).place.inside c = true →
      (s.thread u).place.inside c = true := by
    intro u c hu
    rw [thread_goto] at hu
    split_ifs at hu with hut
    · exact hut ▸ hplace c hu
    · exact hthread ▸ hu
  refine ⟨fun u c hu => ?_, fun u e hu v => ?_, fun u v c hu hv => ?_⟩
  · exact (congrFun hbeing c).trans (h.inside u c (hold u c hu))
  · rw [thread_goto] at hu
    split_ifs at hu with hut
    · exact absurd hu (hentering e)
    · by_contra hv
      have := hold v e.1 (by simpa using hv)
      rw [h.entering u e (hthread ▸ hu) v] at this
      exact Bool.false_ne_true this
  · exact h.exclusive u v c (hold u c hu) (hold v c hv)

/-- A thread that finds `being_processed_` false may enter. -/
theorem Guarded.checked (h : s.Guarded) (hbeing : s.beingProcessed e.1 = false)
    (hplace : ∀ c, (s.thread t).place.inside c = false) :
    (s.goto t rest (.entering e)).Guarded := by
  have hold : ∀ u c, ((s.goto t rest (.entering e)).thread u).place.inside c =
      (s.thread u).place.inside c := by
    intro u c
    rw [thread_goto]
    split_ifs with hut
    · exact hut ▸ (hplace c).symm
    · rfl
  refine ⟨fun u c hu => h.inside u c (hold u c ▸ hu), fun u f hu v => ?_,
    fun u v c hu hv => h.exclusive u v c (hold u c ▸ hu) (hold v c ▸ hv)⟩
  rw [hold v f.1]
  rw [thread_goto] at hu
  split_ifs at hu with hut
  · obtain rfl : e = f := by simpa using hu
    by_contra hv
    rw [h.inside v e.1 (by simpa using hv)] at hbeing
    exact Bool.noConfusion hbeing
  · exact h.entering u f hu v

/-- The thread that leaves was the only one inside. -/
theorem Guarded.leave (h : s.Guarded) (hplace : (s.thread t).place = .leaving c) :
    (Pool.goto { s with beingProcessed := update s.beingProcessed c false } t rest
      .fetching).Guarded := by
  have ht : (s.thread t).place.inside c = true := by simp [hplace, Place.inside]
  have hmoved : (s.goto t rest .fetching).Guarded :=
    h.goto rfl rfl (fun d hd => by simp [Place.inside] at hd) (fun _ => by simp)
  refine ⟨fun u d hu => ?_, hmoved.entering, hmoved.exclusive⟩
  have hbeing := hmoved.inside u d hu
  have hdc : d ≠ c := by
    rintro rfl
    rw [thread_goto] at hu
    split_ifs at hu with hut
    · simp [Place.inside] at hu
    · exact hut (h.exclusive u t d hu ht)
  exact (update_of_ne hdc ..).trans hbeing

end

/-! ## How the entries move -/

variable [DecidableEq C]

@[simp] theorem entries_nil : entries c [] = 0 := rfl

@[simp] theorem entries_singleton : entries c [e] = if e.1 = c then 1 else 0 := by
  simp [entries, count_singleton]

@[simp] theorem entries_append {l m : List (Entry C)} :
    entries c (l ++ m) = entries c l + entries c m := by
  simp [entries]

theorem Place.hand_of_holds (h : place.holds c = true) : place.hand = [] := by
  cases place <;> simp_all [holds, hand]

/-- A place holds the token of one connection. -/
theorem Place.holds_eq (h : place.holds c = true) (d : C) : place.holds d = decide (c = d) := by
  cases place <;> simp_all [holds]

theorem Place.inside_of_holds (h : place.holds c = true) : place.inside c = true := by
  cases place <;> simp_all [holds, Place.inside]

theorem Thread.tokens_of_holds {th : Thread C} (h : th.place.holds c = true) (d : C) :
    th.tokens d = entries d th.rest + (decide (c = d)).toNat := by
  unfold tokens
  rw [Place.hand_of_holds h, Place.holds_eq h, entries_nil, Nat.add_zero]

theorem Thread.count_of_hand {th : Thread C} (h : th.place.hand = []) :
    th.count e = th.rest.count e := by
  unfold Thread.count
  rw [h, count_nil, Nat.add_zero]

/-- What is taken out of a queue is what the queue has less. -/
theorem perm_diff {l batch : List (Entry C)} (h : batch.Subperm l) :
    (batch ++ l.diff batch).Perm l :=
  subperm_append_diff_self_of_count_le (subperm_ext_iff.1 h)

variable [Fintype T]

/-- **How often an entry is in a queue, in a batch or in the hand of a thread.** -/
def outstanding (s : Pool C T P) (e : Entry C) : ℕ :=
  tally (List.count e) s.queue + tally (Thread.count e) s.thread

/-- **Every entry made is in one place, or `tp_callback` was called for it once.** -/
def Accounted (s : Pool C T P) : Prop :=
  ∀ e, s.outstanding e + s.consumed.count e = if e.2 < s.made e.1 then 1 else 0

theorem outstanding_enqueue (s : Pool C T P) (q : QueueId) (l : List (Entry C)) :
    (s.enqueue q l).outstanding e = s.outstanding e + l.count e := by
  have := tally_update (List.count e) s.queue q (s.queue q ++ l)
  rw [count_append] at this
  simp only [outstanding, enqueue]
  omega

theorem Accounted.make (h : s.Accounted) (q : QueueId) (c : C) : (s.make q c).Accounted := by
  rintro ⟨d, n⟩
  have hout : (s.make q c).outstanding (d, n)
      = s.outstanding (d, n) + [(c, s.made c)].count (d, n) :=
    outstanding_enqueue s q [(c, s.made c)]
  have hmade : (s.make q c).made d = if d = c then s.made c + 1 else s.made d :=
    update_apply ..
  have hcount : [(c, s.made c)].count (d, n) = if c = d ∧ s.made c = n then 1 else 0 := by
    simp [count_singleton]
  have he : s.outstanding (d, n) + s.consumed.count (d, n) = if n < s.made d then 1 else 0 :=
    h (d, n)
  change (s.make q c).outstanding (d, n) + s.consumed.count (d, n) =
    if n < (s.make q c).made d then 1 else 0
  rw [hout, hmade, hcount]
  by_cases hd : d = c
  · subst hd
    simp only [true_and, ↓reduceIte]
    split_ifs at he ⊢ <;> omega
  · rw [if_neg (fun h => hd h.1.symm), if_neg hd]
    omega

section

variable [DecidableEq T]

theorem outstanding_goto (s : Pool C T P) (t : T) (rest : List (Entry C)) (place : Place C) :
    (s.goto t rest place).outstanding e + (s.thread t).count e =
      s.outstanding e + Thread.count e ⟨rest, place⟩ := by
  have := tally_update (Thread.count e) s.thread t ⟨rest, place⟩
  simp only [outstanding, goto]
  omega

/-- A thread moves, and every entry is where it was, in another place or consumed. -/
theorem Accounted.goto (h : s.Accounted) (hthread : x.thread t = s.thread t)
    (hmade : x.made = s.made)
    (hout : ∀ e, x.outstanding e + x.consumed.count e + Thread.count e ⟨rest, place⟩ =
      s.outstanding e + s.consumed.count e + (s.thread t).count e) :
    (x.goto t rest place).Accounted := by
  intro e
  have hgoto := outstanding_goto (e := e) x t rest place
  have he := h e
  have := hout e
  rw [hthread] at hgoto
  rw [← hmade] at he
  change (x.goto t rest place).outstanding e + x.consumed.count e =
    if e.2 < x.made e.1 then 1 else 0
  omega

end

/-! ## How the tokens move -/

variable [Fintype P]

/-- **The tokens of a connection.** -/
def token (s : Pool C T P) (c : C) : ℕ :=
  tally (entries c) s.queue + tally (tokens c) s.thread +
    tally (fun o => (decide (o = some c)).toNat) s.putter + (s.request c).toNat

theorem token_enqueue (s : Pool C T P) (q : QueueId) (l : List (Entry C)) :
    (s.enqueue q l).token c = s.token c + entries c l := by
  have := tally_update (entries c) s.queue q (s.queue q ++ l)
  rw [entries_append] at this
  simp only [token, enqueue]
  omega

theorem token_make (s : Pool C T P) (q : QueueId) (d : C) :
    (s.make q d).token c = s.token c + if d = c then 1 else 0 :=
  (token_enqueue s q [(d, s.made d)]).trans (by simp)

theorem token_request (s : Pool C T P) (d : C) (b : Bool) :
    ({ s with request := update s.request d b } : Pool C T P).token c +
        (if d = c then (s.request d).toNat else 0) =
      s.token c + if d = c then b.toNat else 0 := by
  unfold token
  dsimp only
  by_cases hdc : d = c
  · subst hdc
    simp only [update_self, if_true]
    omega
  · rw [update_of_ne (Ne.symm hdc), if_neg hdc, if_neg hdc]

theorem token_putter [DecidableEq P] (s : Pool C T P) (p : P) (o : Option C) :
    ({ s with putter := update s.putter p o } : Pool C T P).token c +
        (decide (s.putter p = some c)).toNat =
      s.token c + (decide (o = some c)).toNat := by
  have := tally_update (fun o => (decide (o = some c)).toNat) s.putter p o
  simp only [token]
  omega

/-- **A connection has at most one token**, and none where the next poll makes one. -/
structure Single (s : Pool C T P) (c : C) : Prop where
  token_le : s.token c ≤ 1
  polled : s.associated c = true → ¬0 < s.epollEvents c → s.token c = 0
  fresh : s.added c = false → s.token c = 0 ∧ s.associated c = false
  bound : s.associated c = true → s.boundToPollDescriptor c = true

theorem Single.congr (h : s.Single c) (htoken : s'.token c = s.token c)
    (hadded : s'.added c = s.added c) (hassociated : s'.associated c = s.associated c)
    (hbound : s'.boundToPollDescriptor c = s.boundToPollDescriptor c)
    (hepoll : s'.epollEvents c = s.epollEvents c) : s'.Single c := by
  refine ⟨?_, ?_, ?_, ?_⟩
  · rw [htoken]
    exact h.token_le
  · rw [htoken, hassociated, hepoll]
    exact h.polled
  · rw [htoken, hassociated, hadded]
    exact h.fresh
  · rw [hassociated, hbound]
    exact h.bound

/-- What a thread has is part of the tokens. -/
theorem tokens_le_token (s : Pool C T P) (t : T) (c : C) : (s.thread t).tokens c ≤ s.token c := by
  have := le_tally (tokens c) s.thread t
  unfold token
  omega

/-! ## The invariant -/

/-- **What every reachable state has.** -/
structure Inv (s : Pool C T P) : Prop where
  single : ∀ c, s.Single c
  guarded : s.Guarded
  marked : s.Marked
  accounted : s.Accounted

theorem inv_init : (init : Pool C T P).Inv := by
  have htoken : ∀ c, (init : Pool C T P).token c = 0 := by
    intro c
    simp [token, init, tally, tokens, hand, holds]
  refine ⟨fun c =>
    ⟨(htoken c).le.trans (Nat.zero_le 1), fun _ _ => htoken c, fun _ => ⟨htoken c, rfl⟩,
    fun hc => by simp [init] at hc⟩, ⟨?_, ?_, ?_⟩, ?_, fun e => ?_⟩
  · intro t c ht
    simp [init, Place.inside] at ht
  · intro t e ht
    simp [init] at ht
  · intro t u c ht
    simp [init, Place.inside] at ht
  · intro t c ht
    simp [init] at ht
  · simp [outstanding, init, tally, Thread.count, hand]

section

variable (h : s.Inv)

include h

/-- The thread that runs the coroutine has the token. -/
theorem Inv.token_eq_one (hholds : (s.thread t).place.holds c = true) :
    s.token c = 1 ∧ s.added c = true := by
  have hle := (h.single c).token_le
  have hge := tokens_le_token s t c
  have hone : 1 ≤ (s.thread t).tokens c := by simp [tokens, hholds]
  refine ⟨by omega, ?_⟩
  by_contra hadded
  have := ((h.single c).fresh (by simpa using hadded)).1
  omega

theorem Inv.request_eq_false (hholds : (s.thread t).place.holds c = true) :
    s.request c = false := by
  by_contra hreq
  have hone := (h.token_eq_one hholds).1
  have ht := le_tally (tokens c) s.thread t
  rw [Thread.tokens_of_holds hholds] at ht
  unfold token at hone
  simp only [Bool.not_eq_false] at hreq
  simp [hreq] at hone ht
  omega

theorem Inv.setNeedSqlThd (f : C → Bool) : ({ s with needSqlThd := f } : Pool C T P).Inv :=
  ⟨fun d => (h.single d).congr rfl rfl rfl rfl rfl,
    ⟨h.guarded.inside, h.guarded.entering, h.guarded.exclusive⟩, h.marked, h.accounted⟩

/-- A new entry from a token outside of the queues. -/
theorem Inv.make (hx : x = { s with putter := x.putter, request := x.request })
    (htoken : ∀ d, x.token d + (if c = d then 1 else 0) = s.token d) (q : QueueId) :
    (x.make q c).Inv := by
  have hacc : x.Accounted := by
    rw [hx]
    exact h.accounted
  refine ⟨fun d => ?_, ⟨?_, ?_, ?_⟩, ?_, hacc.make q c⟩
  · refine (h.single d).congr ((token_make x q c).trans (htoken d)) ?_ ?_ ?_ ?_ <;> rw [hx] <;> rfl
  · rw [hx]
    exact h.guarded.inside
  · rw [hx]
    exact h.guarded.entering
  · rw [hx]
    exact h.guarded.exclusive
  · rw [hx]
    exact h.marked

/-- **A poller or the listener of new connections takes the token** where there is none, and it
changes what the poll sees of the connection. -/
theorem Inv.take (hx : x = { s with
      putter := x.putter, added := x.added, epollEvents := x.epollEvents
      eventsSnapshot := x.eventsSnapshot })
    (hother : ∀ d, d ≠ c → x.token d = s.token d ∧ x.added d = s.added d ∧
      x.epollEvents d = s.epollEvents d)
    (htoken : x.token c ≤ 1) (hadded : x.added c = true) (hepoll : 0 < x.epollEvents c) :
    x.Inv := by
  have hassociated : x.associated = s.associated := by rw [hx]
  have hbound : x.boundToPollDescriptor = s.boundToPollDescriptor := by rw [hx]
  refine ⟨fun d => ?_, ?_, ?_, ?_⟩
  · by_cases hdc : d = c
    · subst hdc
      refine ⟨htoken, fun _ he => absurd hepoll he, fun ha => ?_, ?_⟩
      · rw [hadded] at ha
        exact Bool.noConfusion ha
      · rw [hassociated, hbound]
        exact (h.single d).bound
    · obtain ⟨ht, ha, he⟩ := hother d hdc
      exact (h.single d).congr ht ha (congrFun hassociated d) (congrFun hbound d) he
  · rw [hx]
    exact ⟨h.guarded.inside, h.guarded.entering, h.guarded.exclusive⟩
  · rw [hx]
    exact h.marked
  · rw [hx]
    exact h.accounted

end

/-! ## The steps -/

variable [DecidableEq T]

theorem token_goto (s : Pool C T P) (t : T) (rest : List (Entry C)) (place : Place C) :
    (s.goto t rest place).token c + (s.thread t).tokens c =
      s.token c + tokens c ⟨rest, place⟩ := by
  have := tally_update (tokens c) s.thread t ⟨rest, place⟩
  simp only [token, goto]
  omega

/-- **Two threads do not share a connection's token.** -/
theorem Single.tokens_eq_zero (h : s.Single c) {u : T} (htu : u ≠ t)
    (ht : 0 < (s.thread t).tokens c) : (s.thread u).tokens c = 0 := by
  have hle := h.token_le
  have hgoto := token_goto (c := c) s t [] .fetching
  have hu := tokens_le_token (s.goto t [] .fetching) u c
  have hthread : (s.goto t [] .fetching).thread u = s.thread u := update_of_ne htu ..
  rw [hthread] at hu
  have hnone : tokens c ⟨[], .fetching⟩ = 0 := rfl
  omega

/-- A thread moves, and what it has more or less is what the rest has less or more. -/
theorem token_goto_eq {d : C} (hthread : x.thread t = s.thread t)
    (hx : x.token d + tokens d ⟨rest, place⟩ = s.token d + (s.thread t).tokens d) :
    (x.goto t rest place).token d = s.token d := by
  have := token_goto (c := d) x t rest place
  rw [hthread] at this
  omega

/-- **A thread that enters is alone**: another one about to enter would have a second token. -/
theorem Guarded.enter (h : s.Guarded) (hsingle : s.Single e.1) {consumed : List (Entry C)}
    (hplace : (s.thread t).place = .entering e) :
    (Pool.goto { s with
      beingProcessed := update s.beingProcessed e.1 true
      consumed := consumed } t rest (.running e.1)).Guarded := by
  have hnobody := h.entering t e hplace
  have hothers : ∀ u f, u ≠ t → (s.thread u).place = .entering f → f.1 ≠ e.1 := by
    intro u f hut hu hfe
    have ht : 0 < (s.thread t).tokens e.1 := by
      simp [tokens, hplace, hand]
    have hu' : 0 < (s.thread u).tokens e.1 := by
      simp [tokens, hu, hand, hfe]
    have := hsingle.tokens_eq_zero hut ht
    omega
  refine ⟨fun u c hu => ?_, fun u f hu v => ?_, fun u v c hu hv => ?_⟩
  · rw [thread_goto] at hu
    split_ifs at hu with hut
    · obtain rfl : e.1 = c := by simpa [Place.inside] using hu
      exact update_self ..
    · have := h.inside u c hu
      change update s.beingProcessed e.1 true c = true
      rw [update_apply]
      split_ifs
      · rfl
      · exact this
  · rw [thread_goto] at hu ⊢
    split_ifs at hu with hut
    split_ifs with hvt
    · simpa [Place.inside] using (hothers u f hut hu).symm
    · exact h.entering u f hu v
  · rw [thread_goto] at hu hv
    split_ifs at hu hv with hut hvt hvt
    · exact hut.trans hvt.symm
    · obtain rfl : e.1 = c := by simpa [Place.inside] using hu
      rw [hnobody v] at hv
      exact Bool.noConfusion hv
    · obtain rfl : e.1 = c := by simpa [Place.inside] using hv
      rw [hnobody u] at hu
      exact Bool.noConfusion hu
    · exact h.exclusive u v c hu hv

/-- **A thread moves** without coming inside, and what it has more or less the rest has less or
more. -/
theorem Inv.goto (h : s.Inv)
    (hx : x = { s with queue := x.queue, request := x.request, needSqlThd := x.needSqlThd })
    (htoken : ∀ d, x.token d + tokens d ⟨rest, place⟩ = s.token d + (s.thread t).tokens d)
    (hout : ∀ e, x.outstanding e + Thread.count e ⟨rest, place⟩ =
      s.outstanding e + (s.thread t).count e)
    (hplace : ∀ c, place.inside c = true → (s.thread t).place.inside c = true := by
      simp [Place.inside])
    (hentering : ∀ e, place ≠ .entering e := by simp)
    (hbinding : ∀ c, place ≠ .binding c := by simp) : (x.goto t rest place).Inv := by
  have hthread : x.thread = s.thread := by rw [hx]
  have hcons : x.consumed = s.consumed := by rw [hx]
  refine ⟨fun d => ?_, h.guarded.goto hthread (by rw [hx]) hplace hentering,
    h.marked.goto hthread (by rw [hx]; exact fun _ hc => hc) (fun c hc => absurd hc (hbinding c)),
    h.accounted.goto (congrFun hthread t) (by rw [hx]) fun e => ?_⟩
  · have := token_goto_eq (congrFun hthread t) (htoken d)
    refine (h.single d).congr this ?_ ?_ ?_ ?_ <;> rw [hx] <;> rfl
  · have := hout e
    rw [hcons]
    omega

section

variable (h : s.Inv)

include h

/-- **The thread gives its token on to a new entry.** -/
theorem Inv.handOn (q : QueueId)
    (hholds : (s.thread t).place.holds c = true := by simp [*, holds]) :
    ((s.make q c).goto t (s.thread t).rest (.leaving c)).Inv := by
  have hhand := Place.hand_of_holds hholds
  have htoken : ∀ d, ((s.make q c).goto t (s.thread t).rest (.leaving c)).token d = s.token d := by
    intro d
    have hleaving : tokens d ⟨(s.thread t).rest, .leaving c⟩ = entries d (s.thread t).rest :=
      rfl
    refine token_goto_eq rfl ?_
    rw [token_make, hleaving, Thread.tokens_of_holds hholds]
    by_cases hcd : c = d
    · simp only [hcd, if_true, decide_true, Bool.toNat_true]
      omega
    · simp only [hcd, if_false, decide_false, Bool.toNat_false]
      omega
  refine ⟨fun d => (h.single d).congr (htoken d) rfl rfl rfl rfl, ?_,
    h.marked.goto rfl fun _ hc => hc, (h.accounted.make q c).goto rfl rfl fun e => ?_⟩
  · refine h.guarded.goto rfl rfl (fun d hd => ?_) (fun e => by simp)
    obtain rfl : c = d := by simpa [Place.inside] using hd
    exact Place.inside_of_holds hholds
  · rw [show (s.make q c).thread t = s.thread t from rfl, Thread.count_of_hand hhand]
    exact Nat.add_left_cancel_iff.2 (Thread.count_of_hand rfl)

/-- **The thread stays with its connection or lets go of it**, and it changes what the poll sees of
it. -/
theorem Inv.settle
    (hpolled : place.holds c = true → x.associated c = true → 0 < x.epollEvents c)
    (hbound : x.associated c = true → x.boundToPollDescriptor c = true)
    (hmarked : s.boundToPollDescriptor c = true ∨ place = .binding c →
      x.boundToPollDescriptor c = true)
    (hholds : (s.thread t).place.holds c = true := by simp [*, holds])
    (hhand : place.hand = [] := by rfl)
    (hplace : ∀ d, place.inside d = true → d = c := by simp [Place.inside, eq_comm])
    (hx : x = { s with
      epollEvents := x.epollEvents, eventsSnapshot := x.eventsSnapshot
      associated := x.associated, boundToPollDescriptor := x.boundToPollDescriptor } := by rfl)
    (hother : ∀ d, d ≠ c → x.epollEvents d = s.epollEvents d ∧ x.associated d = s.associated d ∧
      x.boundToPollDescriptor d = s.boundToPollDescriptor d := by
        intro d hd; simp [update_of_ne hd]) :
    (x.goto t (s.thread t).rest place).Inv := by
  have hthread : x.thread = s.thread := by rw [hx]
  have htokenx : ∀ d, x.token d = s.token d := by
    intro d
    rw [hx]
    rfl
  have hadded : x.added = s.added := by rw [hx]
  obtain ⟨hone, haddedc⟩ := h.token_eq_one hholds
  have hgoto : ∀ d, (x.goto t (s.thread t).rest place).token d + (decide (c = d)).toNat =
      s.token d + (place.holds d).toNat := by
    intro d
    have := token_goto (c := d) x t (s.thread t).rest place
    have hnew : tokens d ⟨(s.thread t).rest, place⟩ =
        entries d (s.thread t).rest + (place.holds d).toNat := by
      simp [tokens, hhand, entries_nil]
    rw [hthread, Thread.tokens_of_holds hholds, htokenx, hnew] at this
    omega
  have hmark : (x.goto t (s.thread t).rest place).Marked := by
    refine h.marked.goto hthread (fun d hd => ?_) (fun d hd => ?_)
    · by_cases hdc : d = c
      · exact hdc ▸ hmarked (.inl (hdc ▸ hd))
      · exact (hother d hdc).2.2.trans hd
    · have hdc : d = c := hplace d (by simp [hd, Place.inside])
      exact hdc ▸ hmarked (.inr (hdc ▸ hd))
  have houtx : ∀ e, x.outstanding e + x.consumed.count e =
      s.outstanding e + s.consumed.count e := by
    intro e
    rw [hx]
    rfl
  refine ⟨fun d => ?_, ?_, hmark, h.accounted.goto (congrFun hthread t) (by rw [hx]) fun e => ?_⟩
  · by_cases hdc : d = c
    · subst hdc
      have hd := hgoto d
      rw [hone] at hd
      simp only [decide_true, Bool.toNat_true] at hd
      refine ⟨?_, fun ha he => ?_, fun ha => ?_, hbound⟩
      · have := (place.holds d).toNat_le
        omega
      · cases hh : place.holds d with
        | true => exact absurd (hpolled hh ha) he
        | false =>
          rw [hh] at hd
          simpa using hd
      · change x.added d = false at ha
        rw [hadded, haddedc] at ha
        exact Bool.noConfusion ha
    · have hnot : place.holds d = false := by
        by_contra hd
        exact hdc (hplace d (Place.inside_of_holds (by simpa using hd)))
      have hd := hgoto d
      rw [hnot, decide_eq_false (Ne.symm hdc)] at hd
      obtain ⟨he, ha, hb⟩ := hother d hdc
      exact (h.single d).congr (by simpa using hd) (congrFun hadded d) ha hb he
  · refine h.guarded.goto hthread (by rw [hx]) (fun d hd => ?_) (fun e he => ?_)
    · exact hplace d hd ▸ Place.inside_of_holds hholds
    · rw [he] at hhand
      simp [hand] at hhand
  · rw [houtx, Thread.count_of_hand (Place.hand_of_holds hholds)]
    exact Nat.add_left_cancel_iff.2 (Thread.count_of_hand hhand)

/-- It stays, and the poll sees nothing of it. -/
theorem Inv.stay
    (hholds : (s.thread t).place.holds c = true := by simp [*, holds])
    (hhand : place.hand = [] := by rfl)
    (hplace : ∀ d, place.inside d = true → d = c := by simp [Place.inside, eq_comm])
    (hbinding : place ≠ .binding c := by simp) : (s.goto t (s.thread t).rest place).Inv := by
  refine h.settle (fun _ ha => ?_) (h.single c).bound
    (fun hm => hm.resolve_right hbinding) hholds hhand hplace
  by_contra he
  have hone := (h.token_eq_one hholds).1
  have := (h.single c).polled ha he
  omega

/-- **A step of a thread keeps the invariant.** -/
theorem Inv.threadStep {isSql : T → Bool} {op : Op C}
    (hs : s.threadStep isSql t op = some s') : s'.Inv := by
  cases op <;> cases hp : (s.thread t).place <;>
    simp only [Pool.threadStep, hp, reduceCtorEq] at hs
  case fetch.fetching q batch =>
    split_ifs at hs with hbatch
    cases hs
    obtain ⟨hrest, -, -, hsub⟩ := hbatch
    have hperm := perm_diff hsub
    refine h.goto rfl (fun d => ?_) fun e => ?_
    · have hq := tally_update (entries d) s.queue q ((s.queue q).diff batch)
      have hd : entries d batch + entries d ((s.queue q).diff batch) = entries d (s.queue q) := by
        rw [← entries_append]
        exact (hperm.map Prod.fst).count_eq d
      simp only [token, tokens, hrest, hp, hand, holds, entries_nil]
      omega
    · have hq := tally_update (List.count e) s.queue q ((s.queue q).diff batch)
      have he : batch.count e + ((s.queue q).diff batch).count e = (s.queue q).count e := by
        rw [← count_append]
        exact hperm.count_eq e
      simp only [outstanding, Thread.count, hrest, hp, hand, count_nil]
      omega
  case next.fetching =>
    split at hs
    · next e rest hrest =>
      cases hs
      refine h.goto rfl (fun d => ?_) fun f => ?_
      · simp [tokens, hrest, hp, hand, holds, entries, count_cons]
      · simp [Thread.count, hrest, hp, hand, count_cons]
    · cases hs
  case check.checking e =>
    cases hs
    by_cases hbeing : s.beingProcessed e.1 = true
    · rw [if_pos hbeing]
      refine h.goto rfl (fun d => ?_) fun f => ?_
      · simp [tokens, hp, hand, holds]
      · simp [Thread.count, hp, hand]
    · rw [if_neg hbeing]
      refine ⟨fun d => (h.single d).congr (token_goto_eq rfl ?_) rfl rfl rfl rfl,
        h.guarded.checked (by simpa using hbeing) (fun c => by simp [hp, Place.inside]),
        h.marked.goto rfl fun _ hc => hc, h.accounted.goto rfl rfl fun f => ?_⟩
      · simp [tokens, hp, hand, holds]
      · simp [Thread.count, hp, hand]
  case requeue.requeueing e =>
    cases hs
    refine h.goto rfl (fun d => ?_) fun f => ?_
    · rw [token_enqueue]
      simp [tokens, hp, hand, holds]
      omega
    · rw [outstanding_enqueue]
      simp [Thread.count, hp, hand]
      omega
  case enter.entering e =>
    cases hs
    refine ⟨fun d => ?_, h.guarded.enter (h.single e.1) hp,
      h.marked.goto rfl fun _ hc => hc, h.accounted.goto rfl rfl fun f => ?_⟩
    · refine (h.single d).congr (token_goto_eq rfl ?_) rfl rfl rfl rfl
      refine congrArg (s.token d + ·) ?_
      simp [tokens, hp, hand, holds, Bool.toNat, Bool.cond_decide]
    · change s.outstanding f + (e :: s.consumed).count f + _ = _
      simp [Thread.count, hp, hand, count_cons]
      omega
  case waitBegin.running ongoing c =>
    by_cases hsql : isSql t = true
    case neg => simp [hsql] at hs
    rw [if_pos hsql] at hs
    cases hs
    have hneed := h.setNeedSqlThd (update s.needSqlThd c true)
    refine hneed.goto rfl (fun d => ?_) (fun f => ?_) fun d hd => ?_
    · rw [token_enqueue]
      simp [tokens, hp, hand, holds]
      omega
    · rw [outstanding_enqueue]
      simp [Thread.count, hp, hand]
    · simpa [hp] using hd
  case waitEnd.running c =>
    exact Option.some.inj hs ▸ h.setNeedSqlThd _
  case handOver.running c =>
    split_ifs at hs
    cases hs
    have hneed := h.setNeedSqlThd (update s.needSqlThd c true)
    exact hneed.handOn .native
  case longResume.running c | reenqueue.casStored c =>
    exact Option.some.inj hs ▸ h.handOn _
  case send.running c =>
    cases hs
    have hholds : (s.thread t).place.holds c = true := by simp [hp, holds]
    refine h.goto rfl (fun d => ?_) (fun f => ?_) fun d hd => by simpa [hp, Place.inside] using hd
    · have hreq := token_request (c := d) s c true
      rw [h.request_eq_false hholds] at hreq
      have hleaving : tokens d ⟨(s.thread t).rest, .leaving c⟩ =
        entries d (s.thread t).rest := rfl
      rw [Thread.tokens_of_holds hholds, hleaving]
      by_cases hcd : c = d <;> simp [hcd] at hreq ⊢ <;> omega
    · exact congrArg (s.outstanding f + ·) (by simp [Thread.count, hp, hand])
  case readPacket.running c =>
    cases hs
    exact ⟨fun d => (h.single d).congr rfl rfl rfl rfl rfl,
      ⟨h.guarded.inside, h.guarded.entering, h.guarded.exclusive⟩, h.marked, h.accounted⟩
  case bind.running c =>
    split_ifs at hs with hb
    cases hs
    have hfresh : s.associated c = false := by
      by_contra ha
      exact hb ((h.single c).bound (by simpa using ha))
    refine h.settle (c := c) (fun _ ha => ?_) (by simp) (by simp)
    rw [hfresh] at ha
    exact Bool.noConfusion ha
  case associate.binding ok c =>
    split_ifs at hs <;> cases hs
    · exact h.settle (c := c) (by simp [holds])
        (fun _ => h.marked t c hp) (fun _ => h.marked t c hp)
    · exact h.stay (c := c)
  case compareExchange.running c =>
    split_ifs at hs <;> cases hs
    · exact h.settle (c := c) (by simp [holds])
        (h.single c).bound (by simp)
    · exact h.stay (c := c)
  case storeOne.casFailed c =>
    cases hs
    exact h.settle (c := c) (by simp) (h.single c).bound (by simp)
  case leave.leaving c =>
    cases hs
    refine ⟨fun d => ?_, h.guarded.leave hp,
      h.marked.goto rfl fun _ hc => hc,
      h.accounted.goto rfl rfl fun f => Nat.add_left_cancel_iff.2 ?_⟩
    · exact (h.single d).congr (token_goto_eq rfl (congrArg (s.token d + ·)
        (by simp [tokens, hp, hand, holds]))) rfl rfl rfl rfl
    · simp [Thread.count, hp, hand]
  case close.running c =>
    cases hs
    exact h.stay (c := c)

end

variable [DecidableEq P]

/-- **Every step keeps the invariant** that does not make the counter of events overflow. -/
theorem Inv.step (h : s.Inv) {isSql : T → Bool} {ev : Event C T P} (hev : s.Counted ev)
    (hs : s.step isSql ev = some s') : s'.Inv := by
  cases ev with
  | thread t op => exact h.threadStep hs
  | add p c =>
    simp only [Pool.step] at hs
    split_ifs at hs with hadd
    cases hs
    obtain ⟨hadded, hputter⟩ := hadd
    refine h.take rfl (fun d hd => ?_) ?_ (update_self c true s.added) ?_
    · have := token_putter (c := d) s p (some c)
      simp only [hputter, Option.some.injEq, Ne.symm hd, reduceCtorEq, decide_false] at this
      exact ⟨this, update_of_ne hd .., update_of_ne hd ..⟩
    · have := token_putter (c := c) s p (some c)
      simp only [hputter, ((h.single c).fresh hadded).1, reduceCtorEq, decide_false,
        decide_true] at this
      exact this.le
    · simp
  | poll p c =>
    simp only [Pool.step] at hs
    by_cases hpoll : s.associated c = true ∧ s.putter p = none
    case neg => simp [hpoll] at hs
    rw [if_pos hpoll] at hs
    cases hs
    obtain ⟨hassociated, hputter⟩ := hpoll
    have hadded : s.added c = true := by
      by_contra ha
      rw [((h.single c).fresh (by simpa using ha)).2] at hassociated
      exact Bool.noConfusion hassociated
    refine h.take rfl (fun d hd => ?_) ?_ hadded ?_
    · have := token_putter (c := d) s p (if 0 < s.epollEvents c then none else some c)
      have hne : (if 0 < s.epollEvents c then none else some c) ≠ some d := by
        split_ifs <;> simp [Ne.symm hd]
      simp only [hputter, hne, reduceCtorEq, decide_false] at this
      exact ⟨this, rfl, update_of_ne hd ..⟩
    · have := token_putter (c := c) s p (if 0 < s.epollEvents c then none else some c)
      have hle := (h.single c).token_le
      by_cases he : 0 < s.epollEvents c
      · simp only [hputter, he, if_true, reduceCtorEq, decide_false] at this
        simp only [he, if_true]
        exact (this.trans_le hle)
      · simp only [hputter, he, (h.single c).polled hassociated he, reduceCtorEq, decide_false,
          if_false, decide_true] at this
        simp only [he, if_false]
        exact this.le
    · simpa only [update_self, Counted] using hev
  | put p =>
    simp only [Pool.step] at hs
    split at hs
    · next c hputter =>
      cases hs
      refine h.make rfl (fun d => ?_) .req
      have := token_putter (c := d) s p none
      by_cases hcd : c = d <;> simp [hcd, hputter] at this ⊢ <;> omega
    · cases hs
  | resume c =>
    simp only [Pool.step] at hs
    by_cases hreq : s.request c = true
    case neg => simp [hreq] at hs
    rw [if_pos hreq] at hs
    cases hs
    refine h.make rfl (fun d => ?_) _
    have := token_request (c := d) s c false
    rw [hreq] at this
    by_cases hcd : c = d <;> simp [hcd] at this ⊢ <;> omega

/-- **No two threads are inside `tp_callback` of one connection.** -/
def Exclusive (s : Pool C T P) : Prop :=
  ∀ c t u, (s.thread t).place.inside c = true → (s.thread u).place.inside c = true → t = u

/-- **One thread per connection, and one call per entry**: in every run of any number of workers,
with or without the external worker, that does not make a counter of events overflow, no two threads
are inside `tp_callback` of one connection, and every entry made for a connection either waits in
one place or `tp_callback` was called for it once. -/
theorem exclusive_and_accounted (isSql : T → Bool) (es : List (Event C T P))
    (hes : Machine.Meets (step isSql) Counted init es) :
    Machine.Safe (step isSql) (fun s => s.Exclusive ∧ s.Accounted) init es :=
  Machine.safe_of_meets (I := Inv)
    (fun _ h => ⟨fun c t u => h.guarded.exclusive t u c, h.accounted⟩)
    (fun _ _ _ h hev hs => h.step hev hs) inv_init hes

/-- A connection is polled, and an event has brought its command to the thread. -/
def polledRun : List (Event ℕ Bool Unit) :=
  [.add () 0, .put ()] ++ [.fetch .req [(0, 0)], .next, .check, .enter, .bind, .associate true,
    .leave].map (.thread false) ++ [.poll () 0, .put ()] ++
      [.fetch .req [(0, 1)], .next, .check, .enter, .readPacket].map (.thread false)

theorem exclusive_and_accounted_polledRun :
    Machine.Meets (step fun _ => true) Counted init polledRun ∧
      Machine.Safe (step fun _ => true) (fun s => s.Exclusive ∧ s.Accounted) init polledRun :=
  have h : Machine.Meets (step fun _ => true) Counted init polledRun := by decide +kernel
  ⟨h, exclusive_and_accounted _ _ h⟩

/-! ## The overflow of the counter -/

omit [Fintype T] [Fintype P] in
/-- **Events during a command** are counted and enqueue nothing while the counter is positive. -/
theorem exec_polls {isSql : T → Bool} {p : P} (n : ℕ) {k : ℕ} {s : Pool C T P}
    (ha : s.associated c = true) (hp : s.putter p = none) (hk : 0 < k) (hn : k + n ≤ 2 ^ 31)
    (he : s.epollEvents c = Int32.ofNat k) :
    exec (step isSql) s (replicate n (.poll p c)) =
      some { s with epollEvents := update s.epollEvents c (Int32.ofNat (k + n)) } := by
  induction n generalizing k s with
  | zero => simp [exec, ← he]
  | succ n ih =>
    have hpos : 0 < s.epollEvents c := by
      rw [he, Int32.lt_iff_toInt_lt, Int32.toInt_ofNat_of_lt (by omega)]
      simpa using hk
    have hself : update s.putter p none = s.putter := by rw [← hp, Function.update_eq_self]
    have hnext : s.epollEvents c + 1 = Int32.ofNat (k + 1) := by rw [he, Int32.ofNat_add]; rfl
    rw [replicate_succ, exec, step, if_pos ⟨ha, hp⟩, if_pos hpos, hself, hnext,
      Option.bind_some]
    refine (ih (k := k + 1) (s := { s with epollEvents := update s.epollEvents c _ }) ha hp
      k.succ_pos (by omega) (update_self ..)).trans ?_
    simp only [Function.update_idem, Nat.add_comm n 1, Nat.add_assoc]

/-- After the overflow an event enqueues the connection while its command runs, and the end of the
command enqueues it again: two threads take an entry each. -/
def overflownRun : List (Event ℕ Bool Unit) :=
  [.poll () 0, .put ()] ++ [.compareExchange, .storeOne, .reenqueue, .leave,
    .fetch .req [(0, 2)]].map (.thread false) ++ [.thread true (.fetch .req [(0, 3)])] ++
      [Op.next, .check, .enter].flatMap fun op => [.thread false op, .thread true op]

/-- **Two threads in `tp_callback` of one connection**, after 2³¹ events during one command. -/
theorem overflow_not_exclusive :
    ¬Machine.Safe (step fun _ => true) Exclusive init
      (polledRun ++ (replicate (2 ^ 31 - 1) (.poll () 0) ++ overflownRun)) := by
  have hpolled : (exec (step fun _ => true) init polledRun).map
      (fun s => (s.associated 0, s.putter (), s.epollEvents 0)) = some (true, none, 1) := by
    decide +kernel
  have htwo : ((exec (step fun _ => true) init polledRun).bind fun s =>
      (exec (step fun _ => true)
        { s with epollEvents := update s.epollEvents 0 (.ofNat (1 + (2 ^ 31 - 1))) }
        overflownRun).map fun s => ((s.thread false).place, (s.thread true).place)) =
          some (.running 0, .running 0) := by
    decide +kernel
  obtain ⟨s, hs, hstate⟩ := Option.map_eq_some_iff.1 hpolled
  simp only [Prod.mk.injEq] at hstate
  rw [hs, Option.bind_some] at htwo
  obtain ⟨s', hs', hplaces⟩ := Option.map_eq_some_iff.1 htwo
  simp only [Prod.mk.injEq] at hplaces
  refine Machine.not_safe_of_exec ((exec_append hs).trans ((exec_append (exec_polls (2 ^ 31 - 1)
    hstate.1 hstate.2.1 one_pos (by decide) hstate.2.2)).trans hs')) fun hex => ?_
  exact absurd (hex 0 false true (by simp [hplaces.1, Place.inside])
    (by simp [hplaces.2, Place.inside])) (by decide)

end Pool

end Callback

end EloqSql
