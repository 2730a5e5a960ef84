import EloqSql.Lib.Machine

/-!
# ThreadPool/Workers — the SQL workers of a thread group

The machine of a thread group in the module build: any number of SQL workers in `worker_main` and
`get_event_bulk`, and any number of other threads that resume coroutines for the SQL workers, hand a
command over from the external worker, or ask for a worker. `active_thread_count` and
`sql_native_queue_` are read and written without the mutex of the group, so a step is one access to
one of them; what the mutex protects (the listener, the waiting list) goes along with it.
-/

namespace EloqSql

open Function (update update_apply update_of_ne)

namespace Workers

variable {W R : Type*}

/-! ## The machine -/

/-- **Where a SQL worker is.** -/
inductive Pc
  /-- Not created. -/
  | unborn
  /-- Created, before `worker_main` counts itself. -/
  | starting
  /-- Before the lock of `get_event_bulk`. -/
  | fetch
  /-- At the head of its loop. -/
  | loop
  /-- At `sql_native_queue_.TryDequeue`. -/
  | tryNative
  /-- At the other two queues. -/
  | tryOther
  /-- No event: to listen or to sleep. -/
  | chooseRole
  /-- The last running worker, before it looks at the queue once more. -/
  | recheckSleep
  /-- Before it counts itself again. -/
  | restore
  /-- In the wait. -/
  | sleeping
  /-- In `lockfree_listener`. -/
  | listening
  /-- The wait has timed out, with the count before it. -/
  | timedOut (prev : ℤ)
  /-- The external worker is active, before it looks at the queue. -/
  | checkNative (prev : ℤ)
  /-- Before `prev_active_cnt > 0 || IsEmpty()`. -/
  | checkEmpty (prev : ℤ)
  /-- Ready to exit, before it lowers the count. -/
  | lower
  /-- The last worker, before it looks at the queue once more. -/
  | recheckExit
  /-- Out of `worker_main`'s loop. -/
  | exited
  /-- In the batch it has fetched. -/
  | processing
  /-- In `wait_begin`, after it has lowered the count. -/
  | beginCheck
  /-- In `wait_begin`, with no active worker left. -/
  | beginWake
  /-- In a section entered on the external worker, after it has lowered the count. -/
  | sectionCheck
  /-- There, before the lock. -/
  | sectionLock
  /-- Between `wait_begin` and `wait_end`, with the number of sections. -/
  | inSection (depth : ℕ)
  deriving DecidableEq

/-- **Where another thread is.** -/
inductive OtherPc
  | idle
  /-- In `CoroutineResume`, after `sql_native_queue_.Enqueue`. -/
  | enqueued
  /-- In `CoroutineResume`, after it has read an active count of zero. -/
  | locking
  /-- The external worker in `wait_begin`, before `sql_native_queue_.Enqueue`. -/
  | handingOver
  deriving DecidableEq

/-- **A thread group.** -/
structure Group (W R : Type*) where
  /-- `active_thread_count`. -/
  active : ℤ
  /-- The number of entries of `sql_native_queue_`. -/
  native : ℕ
  /-- `ext_worker_active_`. -/
  extActive : Bool
  /-- The holder of the mutex. -/
  owner : Option (W ⊕ R)
  /-- `listener != NULL`. -/
  listener : Bool
  /-- `waiting_threads`. -/
  waiting : List W
  woken : W → Bool
  /-- Coroutines that the external worker has handed over in `wait_begin`. -/
  handed : ℕ
  /-- Coroutines that have yielded inside a section, with its depth. -/
  yielded : List ℕ
  pc : W → Pc
  other : R → OtherPc

/-- Before the first worker. -/
def Group.init : Group W R :=
  ⟨0, 0, false, none, false, [], fun _ => false, 0, [], fun _ => .unborn, fun _ => .idle⟩

/-- **What a worker does next**: it goes on where it is, with what it reads elsewhere (`bit`) and
the thread that a creation would start (`spawn`), or it does something with a connection. -/
inductive Op (W : Type*)
  | go (bit : Bool) (spawn : W)
  | wakeUp (err : Bool)
  | again
  | requeue
  | waitBegin
  | enterSection
  | waitEnd
  | yieldInSection
  | reenterSection

/-- **What another thread does next.** -/
inductive OtherOp (W : Type*)
  | resume
  | go (spawn : W)
  | handOver (spawn : W)
  /-- `ExtThdEnd` and the stall check. -/
  | askWorker (spawn : W)

/-- **What happens next.** -/
inductive Event (W R : Type*)
  | worker (w : W) (op : Op W)
  | other (r : R) (op : OtherOp W)
  | setExtActive (b : Bool)

namespace Group

variable [DecidableEq W] (s : Group W R) (w : W)

/-- The worker goes to another place. -/
def goto (pc : Pc) : Group W R := { s with pc := update s.pc w pc }

section goto

variable {s w} {p : Pc} {v : W}

@[simp, grind =] theorem pc_goto : (s.goto w p).pc v = if v = w then p else s.pc v :=
  update_apply ..

@[simp, grind =] theorem active_goto : (s.goto w p).active = s.active := rfl

@[simp, grind =] theorem native_goto : (s.goto w p).native = s.native := rfl

@[simp, grind =] theorem owner_goto : (s.goto w p).owner = s.owner := rfl

@[simp, grind =] theorem waiting_goto : (s.goto w p).waiting = s.waiting := rfl

@[simp, grind =] theorem woken_goto : (s.goto w p).woken v = s.woken v := rfl

@[simp, grind =] theorem other_goto {r : R} : (s.goto w p).other r = s.other r := rfl

end goto

/-- The worker adds itself to the waiting list and sleeps; the mutex is free. -/
def sleep : Group W R :=
  { s with
    waiting := w :: s.waiting
    woken := update s.woken w false
    owner := none }.goto w .sleeping

/-- `wake_or_create_thread` with `force_create`, where thread creation succeeds. -/
def wakeOrCreate (spawn : W) : Option (Group W R) :=
  match s.waiting with
  | v :: rest => some { s with waiting := rest, woken := update s.woken v true }
  | [] => if s.pc spawn = .unborn then some (s.goto spawn .starting) else none

section wakeOrCreate

variable {s w} {s' : Group W R} {v : W}

/-- **What waking or creating a thread does.** -/
theorem wakeOrCreate_cases (hs : s.wakeOrCreate v = some s') :
    (∃ u rest, s.waiting = u :: rest ∧
      s' = { s with waiting := rest, woken := update s.woken u true }) ∨
    (s.waiting = [] ∧ s.pc v = .unborn ∧ s' = s.goto v .starting) := by
  unfold wakeOrCreate at hs
  split at hs
  case h_1 u rest hw => exact .inl ⟨u, rest, hw, (Option.some.inj hs).symm⟩
  case h_2 hw =>
    split_ifs at hs with hv
    exact .inr ⟨hw, hv, (Option.some.inj hs).symm⟩

/-- Whoever wakes or creates a thread stays where it is. -/
theorem pc_wakeOrCreate (hs : s.wakeOrCreate v = some s') (hw : s.pc w ≠ .unborn) :
    s'.pc w = s.pc w := by
  obtain ⟨u, rest, -, rfl⟩ | ⟨-, hv, rfl⟩ := wakeOrCreate_cases hs
  · rfl
  · exact update_of_ne (fun h => hw ((congrArg s.pc h).trans hv)) _ _

theorem owner_wakeOrCreate (hs : s.wakeOrCreate v = some s') : s'.owner = s.owner := by
  obtain ⟨u, rest, -, rfl⟩ | ⟨-, -, rfl⟩ := wakeOrCreate_cases hs <;> rfl

end wakeOrCreate

/-- **One step of a worker.** -/
def workerStep (limit : ℕ) (op : Op W) : Option (Group W R) :=
  match s.pc w, op with
  -- `worker_main`
  | .starting, .go _ _ => some ({ s with active := s.active + 1 }.goto w .fetch)
  -- `get_event_bulk`
  | .fetch, .go _ _ =>
      if s.owner = none then some ({ s with owner := some (.inl w) }.goto w .loop) else none
  | .loop, .go stalled _ =>
      some (s.goto w (if 1 + (limit : ℤ) ≤ s.active ∧ stalled = false then .chooseRole
        else .tryNative))
  | .tryNative, .go _ _ =>
      if 0 < s.native then
        some ({ s with native := s.native - 1, owner := none }.goto w .processing)
      else some (s.goto w .tryOther)
  | .tryOther, .go found _ =>
      if found then some ({ s with owner := none }.goto w .processing)
      else some (s.goto w .chooseRole)
  | .chooseRole, .go _ _ =>
      if s.listener = false then
        some ({ s with listener := true, active := s.active - 1, owner := none }.goto w .listening)
      else if s.active = 1 then some ({ s with active := s.active - 1 }.goto w .recheckSleep)
      else some ({ s with active := s.active - 1 }.sleep w)
  | .recheckSleep, .go _ _ =>
      if 0 < s.native then some (s.goto w .restore) else some (s.sleep w)
  | .restore, .go _ _ => some ({ s with active := s.active + 1 }.goto w .loop)
  | .sleeping, .wakeUp err =>
      if s.owner = none then
        some ({ s with
          owner := some (.inl w)
          active := s.active + 1
          waiting := if s.woken w then s.waiting else s.waiting.erase w }.goto w
            (if err then .timedOut s.active else .loop))
      else none
  | .timedOut prev, .go _ _ =>
      some (s.goto w (if s.extActive then .checkNative prev else .checkEmpty prev))
  | .checkNative prev, .go _ _ =>
      if 0 < s.native then some ({ s with owner := none }.goto w .exited)
      else some (s.goto w (.checkEmpty prev))
  | .checkEmpty prev, .go _ _ =>
      some (s.goto w (if 0 < prev ∨ s.native = 0 then .lower else .loop))
  | .lower, .go _ _ =>
      if s.active = 1 then some ({ s with active := s.active - 1 }.goto w .recheckExit)
      else some ({ s with active := s.active - 1, owner := none }.goto w .exited)
  | .recheckExit, .go _ _ =>
      if 0 < s.native then some (s.goto w .restore)
      else some ({ s with owner := none }.goto w .exited)
  -- the batch
  | .processing, .again => some (s.goto w .fetch)
  | .processing, .requeue => some { s with native := s.native + 1 }
  -- `wait_begin` on a SQL thread
  | .processing, .waitBegin =>
      if s.owner = none then
        some ({ s with active := s.active - 1, owner := some (.inl w) }.goto w .beginCheck)
      else none
  | .beginCheck, .go _ _ =>
      if s.active = 0 then some (s.goto w .beginWake)
      else some ({ s with owner := none }.goto w (.inSection 1))
  | .beginWake, .go hasCoro spawn =>
      if 0 < s.native ∨ s.listener = false ∨ hasCoro then
        (s.wakeOrCreate spawn).map fun s => { s with owner := none }.goto w (.inSection 1)
      else some ({ s with owner := none }.goto w (.inSection 1))
  -- `wait_begin` of the external worker, continued on a SQL thread
  | .processing, .enterSection =>
      if 0 < s.handed then
        some ({ s with handed := s.handed - 1, active := s.active - 1 }.goto w
          (if s.active = 1 then .sectionCheck else .inSection 1))
      else none
  | .sectionCheck, .go _ _ =>
      some (s.goto w (if 0 < s.native then .sectionLock else .inSection 1))
  | .sectionLock, .go _ spawn =>
      if s.owner = none then
        if 0 < s.native then (s.wakeOrCreate spawn).map fun s => s.goto w (.inSection 1)
        else some (s.goto w (.inSection 1))
      else none
  -- sections inside a section, and `wait_end`
  | .inSection depth, .waitBegin => some (s.goto w (.inSection (depth + 1)))
  | .inSection depth, .waitEnd =>
      if 1 < depth then some (s.goto w (.inSection (depth - 1)))
      else if s.owner = none then some ({ s with active := s.active + 1 }.goto w .processing)
      else none
  -- `CoroutineLongResume` and the yield of a coroutine that finds a mutex taken
  | .inSection depth, .yieldInSection =>
      some ({ s with native := s.native + 1, yielded := depth :: s.yielded }.goto w .processing)
  | .processing, .reenterSection =>
      match s.yielded with
      | depth :: rest => some ({ s with yielded := rest }.goto w (.inSection depth))
      | [] => none
  | _, _ => none

variable [DecidableEq R]

/-- **One step of another thread.** -/
def otherStep (r : R) (op : OtherOp W) : Option (Group W R) :=
  match s.other r, op with
  -- `CoroutineResume`
  | .idle, .resume =>
      some { s with native := s.native + 1, other := update s.other r .enqueued }
  | .enqueued, .go _ =>
      some { s with other := update s.other r (if s.active = 0 then .locking else .idle) }
  | .locking, .go spawn =>
      if s.owner = none then
        if s.active = 0 then
          (s.wakeOrCreate spawn).map fun s =>
            { s with other := update s.other r .idle }
        else some { s with other := update s.other r .idle }
      else none
  -- `wait_begin` on the external worker
  | .idle, .handOver spawn =>
      if s.owner = none then
        if s.active = 0 then
          (s.wakeOrCreate spawn).map fun s =>
            { s with owner := some (.inr r), other := update s.other r .handingOver }
        else some { s with
          owner := some (.inr r), other := update s.other r .handingOver }
      else none
  | .handingOver, .go _ =>
      some { s with
        native := s.native + 1
        handed := s.handed + 1
        owner := none
        other := update s.other r .idle }
  | .idle, .askWorker spawn => if s.owner = none then s.wakeOrCreate spawn else none
  | _, _ => none

/-- **One step of the group**; `limit` is `threadpool_oversubscribe`. -/
def step (limit : ℕ) (s : Group W R) : Event W R → Option (Group W R)
  | .worker w op => s.workerStep w limit op
  | .other r op => s.otherStep r op
  | .setExtActive b => some { s with extActive := b }

end Group

/-! ## The count of the running workers -/

/-- **The worker runs outside of a wait section**: it has counted itself, and it neither listens nor
sleeps nor waits nor has left. -/
def Pc.running : Pc → Bool
  | .fetch | .loop | .tryNative | .tryOther | .chooseRole | .timedOut _ | .checkNative _
  | .checkEmpty _ | .lower | .processing => true
  | .unborn | .starting | .recheckSleep | .restore | .sleeping | .listening | .recheckExit
  | .exited | .beginCheck | .beginWake | .sectionCheck | .sectionLock | .inSection _ => false

namespace Group

variable [Fintype W] {s s' : Group W R} {w : W}

/-- **The number of workers that run outside of a wait section.** -/
def running (s : Group W R) : ℕ := Machine.agents Pc.running s.pc

/-- **The step keeps the count**: a worker whose sleep has timed out and that finds the external
worker active finds `sql_native_queue_` empty, and no coroutine yields inside a section. -/
def Balanced (s : Group W R) : Event W R → Prop
  | .worker w (.go _ _) => ∀ prev, s.pc w = .checkNative prev → s.native = 0
  | .worker _ .yieldInSection => False
  | _ => True

/-- **The count is right**, and no coroutine has yielded inside a section. -/
structure Counted (s : Group W R) : Prop where
  count : s.active = s.running
  yielded : s.yielded = []

section

variable (h : s.Counted)

include h

/-- What leaves the places and the count alone leaves the count right. -/
theorem Counted.of_eq (hpc : s'.pc = s.pc) (hy : s'.yielded = s.yielded)
    (ha : s'.active = s.active) : s'.Counted :=
  ⟨by rw [ha, h.count, running, running, hpc], hy.trans h.yielded⟩

variable [DecidableEq W]

/-- **A step of one worker leaves the count right** exactly if it moves the count by what the worker
counts after the step and before it. -/
theorem Counted.active_goto_iff {t : Group W R} (hpc : t.pc = s.pc) (p : Pc) :
    (t.goto w p).active = (t.goto w p).running ↔
      t.active + (if (s.pc w).running then 1 else 0) =
        s.active + (if p.running then 1 else 0) := by
  have hu := Machine.agents_update Pc.running s.pc w p
  rw [← hpc] at hu
  change (t.goto w p).running + _ = _ at hu
  rw [hpc] at hu
  change _ = s.running + _ at hu
  have hc := h.count
  change t.active = _ ↔ _
  split_ifs at hu ⊢ <;> omega

theorem Counted.goto {t : Group W R} {p : Pc} (hpc : t.pc = s.pc)
    (hy : t.yielded = s.yielded) (ha : t.active + (if (s.pc w).running then 1 else 0) =
      s.active + (if p.running then 1 else 0)) : (t.goto w p).Counted :=
  ⟨(h.active_goto_iff hpc p).2 ha, hy.trans h.yielded⟩

theorem Counted.wakeOrCreate {v : W} (hs : s.wakeOrCreate v = some s') : s'.Counted := by
  obtain ⟨u, rest, -, rfl⟩ | ⟨-, hv, rfl⟩ := wakeOrCreate_cases hs
  · exact h.of_eq rfl rfl rfl
  · exact h.goto rfl rfl (by simp [hv, Pc.running])

/-- **A balanced step of a worker keeps the count right.** -/
theorem Counted.workerStep {limit : ℕ} {op : Op W}
    (hb : s.Balanced (.worker w op)) (hs : s.workerStep w limit op = some s') : s'.Counted := by
  cases op <;> cases hpc : s.pc w <;> simp only [Group.workerStep, hpc, reduceCtorEq] at hs
  case go.checkNative prev =>
    -- the queue is empty, so it does not leave here
    rw [if_neg (by simp [hb _ hpc])] at hs
    cases hs
    exact h.goto rfl rfl (by simp [hpc, Pc.running])
  case go.beginWake | go.sectionLock =>
    -- the thread that is woken or created counts itself later
    split_ifs at hs
    · obtain ⟨t, ht, rfl⟩ := Option.map_eq_some_iff.1 hs
      exact (h.wakeOrCreate ht).goto rfl rfl
        (by simp [pc_wakeOrCreate ht (w := w) (by simp [hpc]), hpc, Pc.running])
    · cases hs
      exact h.goto rfl rfl (by simp [hpc, Pc.running])
  case requeue.processing =>
    cases hs
    exact h.of_eq rfl rfl rfl
  case yieldInSection.inSection => exact hb.elim
  case reenterSection.processing => simp [h.yielded] at hs
  all_goals
    (try split_ifs at hs) <;> cases hs <;>
      exact h.goto rfl rfl (by simp [Pc.running, *])

variable [DecidableEq R]

theorem Counted.otherStep {r : R} {op : OtherOp W}
    (hs : s.otherStep r op = some s') : s'.Counted := by
  cases op <;> cases hr : s.other r <;> simp only [Group.otherStep, hr, reduceCtorEq] at hs
  case go.locking | handOver.idle =>
    split_ifs at hs
    · obtain ⟨t, ht, rfl⟩ := Option.map_eq_some_iff.1 hs
      exact (h.wakeOrCreate ht).of_eq rfl rfl rfl
    · cases hs
      exact h.of_eq rfl rfl rfl
  case askWorker.idle =>
    split_ifs at hs
    exact h.wakeOrCreate hs
  all_goals
    cases hs
    exact h.of_eq rfl rfl rfl

theorem Counted.step {limit : ℕ} {e : Event W R} (hb : s.Balanced e)
    (hs : s.step limit e = some s') : s'.Counted := by
  cases e with
  | worker w op => exact h.workerStep hb hs
  | other r op => exact h.otherStep hs
  | setExtActive b => exact Option.some.inj hs ▸ h.of_eq rfl rfl rfl

/-- **A step that is not balanced leaves the count wrong**: a worker leaves that is still counted,
or a worker goes on from a section that it has not counted itself for. -/
theorem Counted.not_step {limit : ℕ} {e : Event W R} (hb : ¬ s.Balanced e)
    (hs : s.step limit e = some s') : s'.active ≠ s'.running := by
  intro hc
  unfold Balanced at hb
  split at hb
  case h_1 w _ _ =>
    simp only [not_forall] at hb
    obtain ⟨prev, hpc, hn⟩ := hb
    simp only [Group.step, Group.workerStep, hpc, if_pos (Nat.pos_of_ne_zero hn)] at hs
    cases hs
    have := (h.active_goto_iff rfl _).1 hc
    simp [hpc, Pc.running] at this
  case h_2 w =>
    simp only [Group.step, Group.workerStep] at hs
    cases hpc : s.pc w <;> simp only [hpc, reduceCtorEq] at hs
    cases hs
    have := (h.active_goto_iff rfl _).1 hc
    simp [hpc, Pc.running] at this
  case h_3 => exact hb trivial

end

theorem counted_init : (init : Group W R).Counted :=
  ⟨by simp [running, Machine.agents, init, Pc.running], rfl⟩

variable [DecidableEq W] [DecidableEq R]

/-- **`active_thread_count` is the number of workers that run outside of a wait section** in every
state of a run, exactly if every step of the run is balanced: a worker whose sleep times out with
the external worker active finds `sql_native_queue_` empty (otherwise it leaves and stays counted),
and no coroutine yields inside a section. -/
theorem active_eq_running_iff (limit : ℕ) (es : List (Event W R)) :
    Machine.Safe (step limit) (fun s => s.active = s.running) init es ↔
      Machine.Meets (step limit) Balanced (init : Group W R) es :=
  Machine.safe_iff_meets (I := Counted) (fun _ h => h.count) (fun _ _ _ h hb hs => h.step hb hs)
    (fun _ _ _ h hb hs => h.not_step hb hs) counted_init

/-- One worker listens and the other one sleeps when a coroutine is resumed and the external worker
becomes active; then the sleep times out. -/
def timeoutRun : List (Event (Fin 2) ℕ) :=
  [.other 0 (.askWorker 0)] ++ List.replicate 6 (.worker 0 (.go false 0)) ++
    [.other 0 (.askWorker 1)] ++ List.replicate 7 (.worker 1 (.go false 0)) ++
    [.other 0 .resume, .setExtActive true, .worker 1 (.wakeUp true), .worker 1 (.go false 0),
      .worker 1 (.go false 0)]

/-- **The worker has left and stays counted**: `active_thread_count` is one, and no worker runs. -/
theorem active_timeoutRun :
    (Machine.exec (step 3) init timeoutRun).map
        (fun s => (s.active, s.running, s.pc 0, s.pc 1)) = some (1, 0, .listening, .exited) ∧
      ¬ Machine.Safe (step 3) (fun s => s.active = s.running) init timeoutRun := by
  have hend : (Machine.exec (step 3) init timeoutRun).map
      (fun s => (s.active, s.running, s.pc 0, s.pc 1)) = some (1, 0, .listening, .exited) := by
    decide +kernel
  refine ⟨hend, ?_⟩
  obtain ⟨s, hs, hs'⟩ := Option.map_eq_some_iff.1 hend
  simp only [Prod.mk.injEq] at hs'
  obtain ⟨hactive, hrunning, -⟩ := hs'
  exact Machine.not_safe_of_exec hs (by simp [hactive, hrunning])

end Group

end Workers

end EloqSql
