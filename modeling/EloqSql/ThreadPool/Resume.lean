import EloqSql.ThreadPool.Workers

/-!
# ThreadPool/Resume — no resumed coroutine waits for a worker that never comes

`CoroutineResume` enqueues a coroutine for the SQL workers and wakes or creates one only if it reads
an `active_thread_count` of zero. A worker that goes to rest lowers the count and looks at the queue
once more, except when it becomes the listener. So a resume is lost exactly there: `Attentive` says
what such a worker must leave behind. `Locked` is what the mutex and the waiting list give,
`Watched` what the count gives.
-/

namespace EloqSql

namespace Workers

open Function (update update_apply update_self)

variable {W R : Type*}

/-! ## The mutex and the waiting list -/

/-- The worker holds the mutex of the group. -/
def Pc.holdsMutex : Pc → Bool
  | .loop | .tryNative | .tryOther | .chooseRole | .recheckSleep | .restore | .timedOut _
  | .checkNative _ | .checkEmpty _ | .lower | .recheckExit | .beginCheck | .beginWake => true
  | .unborn | .starting | .fetch | .sleeping | .listening | .exited | .processing
  | .sectionCheck | .sectionLock | .inSection _ => false

namespace Group

variable {s s' t : Group W R} {w : W}

variable {p : Pc} {v : W} {limit : ℕ} {e : Event W R}

/-- **Who is inside the mutex owns it, and who is on the waiting list sleeps** and has not been
woken. -/
structure Locked (s : Group W R) : Prop where
  holds : ∀ w, (s.pc w).holdsMutex → s.owner = some (.inl w)
  handing : ∀ r, s.other r = .handingOver → s.owner = some (.inr r)
  listed : ∀ v ∈ s.waiting, s.pc v = .sleeping ∧ s.woken v = false
  nodup : s.waiting.Nodup

section

variable (h : s.Locked)

include h

/-- While a worker holds the mutex, no other thread is inside it. -/
theorem Locked.not_handingOver (hw : (s.pc w).holdsMutex) (r : R) : s.other r ≠ .handingOver := by
  intro hr
  simpa [h.holds w hw] using h.handing r hr

variable [DecidableEq W]

/-- A worker that is not asleep goes to another place, where it holds the mutex if it owns it. -/
theorem Locked.goto (hw : s.pc w ≠ .sleeping) (hpc : t.pc = s.pc)
    (hother : t.other = s.other) (hwaiting : t.waiting = s.waiting) (hwoken : t.woken = s.woken)
    (howner : t.owner = s.owner ∧ (p.holdsMutex → (s.pc w).holdsMutex) ∨
      s.owner = none ∧ t.owner = some (.inl w) ∨
      (s.pc w).holdsMutex ∧ p.holdsMutex = false ∧ t.owner = none) : (t.goto w p).Locked := by
  constructor
  all_goals grind [Locked]

theorem Locked.sleep (hw : (s.pc w).holdsMutex) : (s.sleep w).Locked := by
  have hpc : s.pc w ≠ .sleeping := by
    intro hpc
    simp [hpc, Pc.holdsMutex] at hw
  have hmem : w ∉ s.waiting := fun hm => hpc (h.listed w hm).1
  constructor
  · grind [Locked, Group.sleep, Pc.holdsMutex]
  · grind [Locked, Group.sleep]
  · grind [Locked, Group.sleep, update_apply]
  · exact List.nodup_cons.2 ⟨hmem, h.nodup⟩

theorem Locked.wakeOrCreate (hs : s.wakeOrCreate v = some s') : s'.Locked := by
  obtain ⟨u, rest, hw, rfl⟩ | ⟨-, hv, rfl⟩ := wakeOrCreate_cases hs
  · have hnodup := List.nodup_cons.1 (hw ▸ h.nodup)
    refine ⟨h.holds, h.handing, fun v hv => ?_, hnodup.2⟩
    have hne : v ≠ u := fun hvu => hnodup.1 (hvu ▸ hv)
    simpa [hne] using h.listed v (hw ▸ List.mem_cons_of_mem u hv)
  · exact h.goto (by simp [hv]) rfl rfl rfl rfl (.inl ⟨rfl, by simp [Pc.holdsMutex]⟩)

/-- The return from the wait: the worker owns the mutex, and it has left the list. -/
theorem Locked.wakeUp {a : ℤ} (howner : s.owner = none) : (Group.goto { s with
      owner := some (.inl w)
      active := a
      waiting := if s.woken w then s.waiting else s.waiting.erase w } w p).Locked := by
  constructor
  · grind [Locked]
  · grind [Locked]
  · intro v hv
    have := h.nodup
    grind [Locked, List.Nodup.mem_erase_iff]
  · grind [Locked, List.Nodup.erase]

theorem Locked.workerStep {op : Op W} (hs : s.workerStep w limit op = some s') : s'.Locked := by
  cases op <;> cases hpc : s.pc w <;> simp only [Group.workerStep, hpc, reduceCtorEq] at hs
  case go.beginWake | go.sectionLock =>
    split_ifs at hs
    · obtain ⟨t, ht, rfl⟩ := Option.map_eq_some_iff.1 hs
      have hw := pc_wakeOrCreate ht (w := w) (by simp [hpc])
      exact (h.wakeOrCreate ht).goto (by simp [hw, hpc]) rfl rfl rfl rfl
        (by simp [hw, hpc, Pc.holdsMutex])
    · cases hs
      exact h.goto (by simp [hpc]) rfl rfl rfl rfl (by simp [hpc, Pc.holdsMutex])
  case wakeUp.sleeping =>
    by_cases howner : s.owner = none
    · rw [if_pos howner] at hs
      exact Option.some.inj hs ▸ h.wakeUp howner
    · rw [if_neg howner] at hs
      cases hs
  case requeue.processing =>
    cases hs
    exact ⟨h.holds, h.handing, h.listed, h.nodup⟩
  case reenterSection.processing =>
    split at hs
    · cases hs
      exact h.goto (by simp [hpc]) rfl rfl rfl rfl (by simp [hpc, Pc.holdsMutex])
    · cases hs
  case go.chooseRole | go.recheckSleep =>
    have hactive : ({ s with active := s.active - 1 } : Group W R).Locked :=
      ⟨h.holds, h.handing, h.listed, h.nodup⟩
    split_ifs at hs <;> cases hs <;> first
      | exact h.goto (by simp [hpc]) rfl rfl rfl rfl (by simp [Pc.holdsMutex, hpc])
      | exact hactive.sleep (by simp [hpc, Pc.holdsMutex])
      | exact h.sleep (by simp [hpc, Pc.holdsMutex])
  all_goals
    (try split_ifs at hs) <;> cases hs <;>
      exact h.goto (by simp [hpc]) rfl rfl rfl rfl (by simp [Pc.holdsMutex, *])

variable [DecidableEq R]

theorem Locked.otherStep {r : R} {op : OtherOp W}
    (hs : s.otherStep r op = some s') : s'.Locked := by
  cases op <;> cases hr : s.other r <;> simp only [Group.otherStep, hr, reduceCtorEq] at hs
  case go.locking =>
    split_ifs at hs
    · obtain ⟨t, ht, rfl⟩ := Option.map_eq_some_iff.1 hs
      have := h.wakeOrCreate ht
      exact { this with handing := by grind [Locked, update_apply] }
    · cases hs
      exact { h with handing := by grind [Locked, update_apply] }
  case handOver.idle =>
    split_ifs at hs with howner
    · obtain ⟨t, ht, rfl⟩ := Option.map_eq_some_iff.1 hs
      have := h.wakeOrCreate ht
      have hfree := (owner_wakeOrCreate ht).trans howner
      exact { this with
        holds := by grind [Locked, update_apply]
        handing := by grind [Locked, update_apply] }
    · cases hs
      exact { h with
        holds := by grind [Locked, update_apply]
        handing := by grind [Locked, update_apply] }
  case go.handingOver =>
    cases hs
    exact { h with
      holds := by grind [Locked]
      handing := by grind [Locked, update_apply] }
  case askWorker.idle =>
    split_ifs at hs
    exact h.wakeOrCreate hs
  all_goals
    cases hs
    exact { h with handing := by grind [Locked, update_apply] }

theorem Locked.step (hs : s.step limit e = some s') : s'.Locked := by
  cases e with
  | worker w op => exact h.workerStep hs
  | other r op => exact h.otherStep hs
  | setExtActive b => exact Option.some.inj hs ▸ ⟨h.holds, h.handing, h.listed, h.nodup⟩

end

/-! ## No resume is lost -/

/-- **The worker is at rest**: it does not exist, or it sleeps and nobody has woken it, or it
listens or has left. -/
def atRest (s : Group W R) (w : W) : Bool :=
  match s.pc w with
  | .unborn | .listening | .exited => true
  | .sleeping => !s.woken w
  | _ => false

/-- Some worker is not at rest. -/
def Awake (s : Group W R) : Prop := ∃ w, s.atRest w = false

/-- **Some thread is about to wake or to create a worker**: it is in `CoroutineResume`, after it has
enqueued the coroutine. -/
def Resuming (s : Group W R) : Prop := ∃ r, s.other r = .enqueued ∨ s.other r = .locking

/-- **A resume is lost**: `sql_native_queue_` is not empty, every worker is at rest, and no thread
is about to wake or to create one. -/
def Lost (s : Group W R) : Prop := 0 < s.native ∧ ¬ s.Awake ∧ ¬ s.Resuming

/-- **The step keeps every resume**: it is balanced, and a worker that becomes the listener leaves
behind an empty `sql_native_queue_`, another worker that is not at rest, or a thread that is about
to wake or to create one. -/
def Attentive (s : Group W R) (e : Event W R) : Prop :=
  s.Balanced e ∧ ∀ w bit spawn, e = .worker w (.go bit spawn) → s.pc w = .chooseRole →
    s.listener = false → s.native = 0 ∨ (∃ v, v ≠ w ∧ s.atRest v = false) ∨ s.Resuming

/-- Whoever has handed over a coroutine, or is about to, has a worker to take it. -/
structure Watched (s : Group W R) : Prop where
  native : 0 < s.native → s.Awake ∨ s.Resuming
  handing : ∀ r, s.other r = .handingOver → s.Awake

theorem watched_of_awake (h : s.Awake) : s.Watched := ⟨fun _ => .inl h, fun _ _ => h⟩

/-- **A worker that goes to rest** leaves what the threads outside of the mutex need. -/
theorem watched_of_holdsMutex (hl : s.Locked) (hw : (s.pc w).holdsMutex)
    (hother : s'.other = s.other) (hn : 0 < s'.native → s'.Awake ∨ s'.Resuming) : s'.Watched :=
  ⟨hn, fun r hr => absurd (hother ▸ hr) (hl.not_handingOver hw r)⟩

/-- **Where the count is positive, a worker is awake.** -/
theorem Counted.awake [Fintype W] (h : s.Counted) (ha : 0 < s.active) : s.Awake := by
  have hr : 0 < Machine.agents Pc.running s.pc := by
    have := h.count
    unfold running at this
    omega
  obtain ⟨v, hv⟩ := Machine.agents_pos_iff.1 hr
  refine ⟨v, ?_⟩
  unfold atRest
  cases hpc : s.pc v <;> simp_all [Pc.running]

theorem Counted.active_pos [Fintype W] (h : s.Counted) (hw : (s.pc w).running) : 0 < s.active := by
  have hr : 0 < Machine.agents Pc.running s.pc := Machine.agents_pos_iff.2 ⟨w, hw⟩
  have := h.count
  unfold running at this
  omega

/-- **What every state of an attentive run has.** -/
structure Inv [Fintype W] (s : Group W R) : Prop where
  counted : s.Counted
  locked : s.Locked
  watched : s.Watched

theorem inv_init [Fintype W] : (init : Group W R).Inv where
  counted := counted_init
  locked := ⟨by simp [init, Pc.holdsMutex], by simp [init], by simp [init], by simp [init]⟩
  watched := ⟨by simp [init], by simp [init]⟩

theorem Inv.not_lost [Fintype W] (h : s.Inv) : ¬ s.Lost :=
  fun hlost => (h.watched.native hlost.1).elim hlost.2.1 hlost.2.2

variable [DecidableEq W]

@[simp, grind =] theorem atRest_goto : (t.goto w p).atRest v = if v = w then (match p with
      | .unborn | .listening | .exited => true
      | .sleeping => !t.woken w
      | _ => false)
    else t.atRest v := by
  unfold atRest
  rw [pc_goto, woken_goto]
  split_ifs with hv
  · rw [hv]
  · rfl

theorem watched_goto (hp : (t.goto w p).atRest w = false) : (t.goto w p).Watched :=
  watched_of_awake ⟨w, hp⟩

/-- Waking or creating a worker leaves one awake. -/
theorem Locked.awake_wakeOrCreate (h : s.Locked) (hs : s.wakeOrCreate v = some s') : s'.Awake := by
  obtain ⟨u, rest, hw, rfl⟩ | ⟨-, hv, rfl⟩ := wakeOrCreate_cases hs
  · have hu := (h.listed u (hw ▸ List.mem_cons_self)).1
    exact ⟨u, by simp [atRest, hu]⟩
  · exact ⟨v, by simp⟩

/-- **An attentive step of a worker leaves the queue watched.** Only four places lead to rest, all
of them inside the mutex. -/
theorem watched_workerStep [Fintype W] {op : Op W} (hc : s.Counted) (hc' : s'.Counted)
    (hl : s.Locked) (ha : s.Attentive (.worker w op)) (hs : s.workerStep w limit op = some s') :
    s'.Watched := by
  cases op <;> cases hpc : s.pc w <;> simp only [Group.workerStep, hpc, reduceCtorEq] at hs
  case go.chooseRole bit spawn =>
    have hw : (s.pc w).holdsMutex := by simp [hpc, Pc.holdsMutex]
    split_ifs at hs with hlistener hactive <;> cases hs
    · refine watched_of_holdsMutex hl hw rfl fun hn => ?_
      rcases ha.2 w bit spawn rfl hpc hlistener with hn' | ⟨v, hv, hrest⟩ | hr
      · exact absurd hn' (Nat.ne_of_gt hn)
      · exact .inl ⟨v, by rw [atRest_goto, if_neg hv]; exact hrest⟩
      · exact .inr hr
    · exact watched_goto (by simp)
    · have hpos := hc.active_pos (w := w) (by simp [hpc, Pc.running])
      exact watched_of_holdsMutex hl hw rfl fun _ =>
        .inl (hc'.awake (show 0 < s.active - 1 by omega))
  case go.recheckSleep | go.recheckExit =>
    have hw : (s.pc w).holdsMutex := by simp [hpc, Pc.holdsMutex]
    split_ifs at hs with hn <;> cases hs
    · exact watched_goto (by simp)
    · exact watched_of_holdsMutex hl hw rfl fun hn' => absurd hn' hn
  case go.lower =>
    have hw : (s.pc w).holdsMutex := by simp [hpc, Pc.holdsMutex]
    split_ifs at hs with hactive <;> cases hs
    · exact watched_goto (by simp)
    · have hpos := hc.active_pos (w := w) (by simp [hpc, Pc.running])
      exact watched_of_holdsMutex hl hw rfl fun _ =>
        .inl (hc'.awake (show 0 < s.active - 1 by omega))
  case go.checkNative prev =>
    rw [if_neg (by simp [ha.1 _ hpc])] at hs
    cases hs
    exact watched_goto (by simp)
  case go.beginWake | go.sectionLock =>
    split_ifs at hs
    · obtain ⟨t, -, rfl⟩ := Option.map_eq_some_iff.1 hs
      exact watched_goto (by simp)
    · cases hs
      exact watched_goto (by simp)
  case requeue.processing =>
    cases hs
    exact watched_of_awake ⟨w, by simp [atRest, hpc]⟩
  case reenterSection.processing => simp [hc.yielded] at hs
  all_goals
    (try split_ifs at hs) <;> cases hs <;> exact watched_goto (by simp)

variable [DecidableEq R]

/-- **A step of another thread leaves the queue watched.** -/
theorem Watched.otherStep [Fintype W] {r : R} {op : OtherOp W} (h : s.Watched) (hc : s.Counted)
    (hl : s.Locked) (hs : s.otherStep r op = some s') : s'.Watched := by
  have hactive : s.active ≠ 0 → s.Awake := fun ha => hc.awake (by have := hc.count; omega)
  have hhanding : ∀ p ≠ OtherPc.handingOver, ∀ q,
      update s.other r p q = .handingOver → s.Awake := by
    intro p hp q hq
    rw [update_apply] at hq
    split_ifs at hq
    · exact absurd hq hp
    · exact h.handing q hq
  cases op <;> cases hr : s.other r <;> simp only [Group.otherStep, hr, reduceCtorEq] at hs
  case resume.idle =>
    cases hs
    exact ⟨fun _ => .inr ⟨r, .inl (update_self ..)⟩, hhanding .enqueued (by simp)⟩
  case go.enqueued =>
    cases hs
    by_cases ha : s.active = 0
    · exact ⟨fun _ => .inr ⟨r, .inr (by simp [ha])⟩, hhanding _ (by simp [ha])⟩
    · exact watched_of_awake (hactive ha)
  case go.handingOver =>
    cases hs
    exact watched_of_awake (h.handing r hr)
  case go.locking | handOver.idle =>
    split_ifs at hs with howner ha
    · obtain ⟨t, ht, rfl⟩ := Option.map_eq_some_iff.1 hs
      have hawake : t.Awake := hl.awake_wakeOrCreate ht
      exact watched_of_awake hawake
    · cases hs
      exact watched_of_awake (hactive ha)
  case askWorker.idle =>
    split_ifs at hs
    exact watched_of_awake (hl.awake_wakeOrCreate hs)

theorem Inv.step [Fintype W] (h : s.Inv) (ha : s.Attentive e)
    (hs : s.step limit e = some s') : s'.Inv := by
  have hc := h.counted.step ha.1 hs
  refine ⟨hc, h.locked.step hs, ?_⟩
  cases e with
  | worker w op => exact watched_workerStep h.counted hc h.locked ha hs
  | other r op => exact h.watched.otherStep h.counted h.locked hs
  | setExtActive b => exact Option.some.inj hs ▸ ⟨h.watched.native, h.watched.handing⟩

/-- **A step that is not attentive loses a resume or leaves the count wrong.** -/
theorem Inv.lost_of_not_attentive [Fintype W] (h : s.Inv)
    (ha : ¬ s.Attentive e) (hs : s.step limit e = some s') :
    s'.Lost ∨ s'.active ≠ s'.running := by
  by_cases hb : s.Balanced e
  · left
    have hex : ∃ w bit spawn, e = .worker w (.go bit spawn) ∧ s.pc w = .chooseRole ∧
        s.listener = false ∧ ¬ (s.native = 0 ∨ (∃ v, v ≠ w ∧ s.atRest v = false) ∨ s.Resuming) := by
      by_contra hno
      refine ha ⟨hb, fun w bit spawn he hpc hlistener => ?_⟩
      by_contra hleft
      exact hno ⟨w, bit, spawn, he, hpc, hlistener, hleft⟩
    obtain ⟨w, bit, spawn, rfl, hpc, hlistener, hleft⟩ := hex
    simp only [Group.step, Group.workerStep, hpc, if_pos hlistener] at hs
    cases hs
    simp only [not_or] at hleft
    obtain ⟨hn, hrest, hr⟩ := hleft
    refine ⟨Nat.pos_of_ne_zero hn, ?_, hr⟩
    rintro ⟨v, hv⟩
    rw [atRest_goto] at hv
    split_ifs at hv with hvw
    exact hrest ⟨v, hvw, hv⟩
  · exact .inr (h.counted.not_step hb hs)

/-- **No resume is lost in an attentive run**, whatever the workers and the other threads do; and a
step that is not attentive loses one at once, or it leaves the count wrong that `CoroutineResume`
relies on. -/
theorem not_lost_exact [Fintype W] (limit : ℕ) (es : List (Event W R)) :
    (Machine.Meets (Group.step limit) Attentive init es →
      Machine.Safe (Group.step limit) (fun s => ¬ s.Lost) init es) ∧
    ∀ s e s', Machine.Meets (Group.step limit) Attentive init es →
      Machine.exec (Group.step limit) init es = some s → Group.step limit s e = some s' →
        ¬ s.Attentive e → s'.Lost ∨ s'.active ≠ s'.running := by
  have hkeep : ∀ (s : Group W R) e s', s.Inv → s.Attentive e → s.step limit e = some s' → s'.Inv :=
    fun _ _ _ h ha hs => h.step ha hs
  refine ⟨fun hm => Machine.safe_of_meets (fun _ h => h.not_lost) hkeep inv_init hm, ?_⟩
  intro s e s' hm hexec hs ha
  exact (Machine.exec_of_meets hkeep inv_init hm hexec).lost_of_not_attentive ha hs

/-- A worker has found the queues empty when a coroutine is resumed; the resumer reads that one
worker is active, and the worker becomes the listener. -/
def takeoverRun : List (Event (Fin 1) (Fin 1)) :=
  [.other 0 (.askWorker 0)] ++ List.replicate 5 (.worker 0 (.go false 0)) ++
    [.other 0 .resume, .other 0 (.go 0), .worker 0 (.go false 0)]

/-- **The resumed coroutine is lost**: it is in `sql_native_queue_`, the only worker listens, and
the resumer has gone. -/
theorem lost_takeoverRun :
    (Machine.exec (Group.step 3) init takeoverRun).map
        (fun s => (s.native, s.pc 0, s.other 0)) = some (1, .listening, .idle) ∧
      ¬ Machine.Safe (Group.step 3) (fun s => ¬ s.Lost) init takeoverRun := by
  have hend : (Machine.exec (Group.step 3) init takeoverRun).map
      (fun s => (s.native, s.pc 0, s.other 0)) = some (1, .listening, .idle) := by decide +kernel
  refine ⟨hend, ?_⟩
  obtain ⟨s, hs, hs'⟩ := Option.map_eq_some_iff.1 hend
  simp only [Prod.mk.injEq] at hs'
  obtain ⟨hnative, hpc, hother⟩ := hs'
  refine Machine.not_safe_of_exec hs (not_not.2 ⟨by simp [hnative], ?_, ?_⟩)
  · rintro ⟨w, hw⟩
    obtain rfl : w = 0 := Subsingleton.elim ..
    simp [atRest, hpc] at hw
  · rintro ⟨r, hr⟩
    obtain rfl : r = 0 := Subsingleton.elim ..
    simp [hother] at hr

end Group

end Workers

end EloqSql
