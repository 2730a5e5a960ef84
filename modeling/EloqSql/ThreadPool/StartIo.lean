import EloqSql.Lib.Machine
import Mathlib.Tactic.Common

/-!
# ThreadPool/StartIo — client commands and the event counter

The listener counts the events of a connection in `epoll_events_` and enqueues it if the count was
zero (`lockfree_queue_put_bulk`). A worker reads one packet, then takes a snapshot of the count
(`do_command`), runs the command, and gives the connection up by setting the count to zero if it is
still the snapshot (`start_io`); otherwise it enqueues the connection again. What arrives after the
snapshot is therefore noticed. What was already in the socket at the snapshot is noticed only if its
event is still to be counted: no command is lost along the runs in which that is so at every
snapshot, and a run that leaves the condition can go on to lose one (`noLoss_exact`).
-/

namespace EloqSql

namespace StartIo

/-! ## The machine -/

/-- **Where the worker of a connection is.** -/
inductive Pc
  /-- No worker has the connection. -/
  | idle
  /-- In `do_command`, before the packet is read. -/
  | reading
  /-- The packet is read, the snapshot is not taken. -/
  | snapshotting
  /-- The command runs. -/
  | executing
  /-- At the compare-and-swap of `start_io`. -/
  | startIo
  /-- It failed: before `epoll_events_.store(1)`. -/
  | storing
  /-- Before `req_queue_.Enqueue(this)`. -/
  | requeueing
  deriving DecidableEq

/-- **A connection that is bound to the poll descriptor.** -/
structure Conn where
  /-- Bytes in the socket. -/
  unread : ℕ
  /-- Bytes `has_unread_data` sees: taken from the socket, not by a `do_command`. -/
  buffered : ℕ
  /-- Arrivals whose `lockfree_queue_put_bulk` call is still to come. -/
  pending : ℕ
  /-- `epoll_events_`, an `int32_t` in the source: after it has wrapped, a call enqueues more often.
  -/
  epollEvents : ℕ
  /-- `events_snapshot_`. -/
  eventsSnapshot : ℕ
  /-- Calls of `lockfree_queue_put_bulk` that are about to enqueue the connection. -/
  enqueuing : ℕ
  /-- Entries of the connection in `req_queue_`. -/
  queued : ℕ
  pc : Pc
  deriving DecidableEq

/-- After the first `start_io`, which binds the connection. -/
def Conn.init : Conn := ⟨0, 0, 0, 0, 0, 0, 0, .idle⟩

/-- **What happens next.** -/
inductive Event
  /-- `n` bytes arrive. -/
  | arrive (n : ℕ)
  /-- `epoll_events_.fetch_add(1)`. -/
  | fetchAdd
  /-- The listener enqueues the connection. -/
  | enqueue
  /-- A worker takes the connection from the queue. -/
  | callback
  /-- One packet is read: `pulled` bytes are taken from the socket, `packet` are the packet. -/
  | read (pulled packet : ℕ)
  /-- `events_snapshot_ = epoll_events_`. -/
  | snapshot
  /-- The command ends. -/
  | done
  | compareExchange
  | store
  | requeue

/-- **One step.** -/
def step (c : Conn) : Event → Option Conn
  | .arrive n =>
      if 0 < n then some { c with unread := c.unread + n, pending := c.pending + 1 } else none
  | .fetchAdd =>
      if 0 < c.pending then
        some { c with
          pending := c.pending - 1
          epollEvents := c.epollEvents + 1
          enqueuing := if 0 < c.epollEvents then c.enqueuing else c.enqueuing + 1 }
      else none
  | .enqueue =>
      if 0 < c.enqueuing then
        some { c with enqueuing := c.enqueuing - 1, queued := c.queued + 1 }
      else none
  | .callback =>
      if c.pc = .idle ∧ 0 < c.queued then
        some { c with queued := c.queued - 1, pc := .reading }
      else none
  | .read pulled packet =>
      if c.pc = .reading ∧ 0 < packet ∧ pulled ≤ c.unread ∧ packet ≤ c.buffered + pulled then
        some { c with
          unread := c.unread - pulled
          buffered := c.buffered + pulled - packet
          pc := .snapshotting }
      else none
  | .snapshot =>
      if c.pc = .snapshotting then
        some { c with eventsSnapshot := c.epollEvents, pc := .executing }
      else none
  -- the loop of `SqlCmdCoroutine` goes on while `has_unread_data`
  | .done =>
      if c.pc = .executing then
        some { c with pc := if 0 < c.buffered then .reading else .startIo }
      else none
  | .compareExchange =>
      if c.pc = .startIo then
        if c.epollEvents = c.eventsSnapshot then some { c with epollEvents := 0, pc := .idle }
        else some { c with eventsSnapshot := 1, pc := .storing }
      else none
  | .store =>
      if c.pc = .storing then some { c with epollEvents := 1, pc := .requeueing } else none
  | .requeue =>
      if c.pc = .requeueing then some { c with queued := c.queued + 1, pc := .idle } else none

/-- The connection is idle: no worker has it, and it is in no queue nor about to be. -/
def Conn.Idle (c : Conn) : Prop := c.pc = .idle ∧ c.queued = 0 ∧ c.enqueuing = 0

/-- **No command is lost**: of an idle connection every byte is read, or a call to come enqueues
it. -/
def NoLoss (c : Conn) : Prop :=
  c.Idle → c.unread + c.buffered = 0 ∨ 0 < c.pending ∧ c.epollEvents = 0

/-- **At a snapshot the socket is empty, or an arrival is still to be counted**; unless data is
buffered, in which case the worker goes on reading. -/
def NoticedAtSnapshot (c : Conn) : Event → Prop
  | .snapshot => c.buffered = 0 → c.unread = 0 ∨ 0 < c.pending
  | _ => True

/-! ## The invariant -/

/-- What was in the socket when the count was last seen is still to be counted. -/
def Conn.Noticed (c : Conn) : Prop := c.unread = 0 ∨ 0 < c.pending

/-- **The invariant.** -/
structure Inv (c : Conn) : Prop where
  idle : c.pc = .idle → c.buffered = 0 ∧ c.queued + c.enqueuing ≤ 1
  free : c.Idle → c.epollEvents = 0 ∧ c.Noticed
  counted : ¬ c.Idle → 0 < c.epollEvents
  busy : c.pc ≠ .idle → c.queued = 0 ∧ c.enqueuing = 0
  executing : c.pc = .executing → c.buffered = 0 → c.epollEvents = c.eventsSnapshot → c.Noticed
  startIo : c.pc = .startIo → c.buffered = 0 ∧ (c.epollEvents = c.eventsSnapshot → c.Noticed)
  snapshot_le : c.pc = .executing ∨ c.pc = .startIo → c.eventsSnapshot ≤ c.epollEvents
  failed : c.pc = .storing ∨ c.pc = .requeueing → c.buffered = 0

theorem inv_init : Inv Conn.init := by
  constructor <;> simp [Conn.init, Conn.Idle, Conn.Noticed]

theorem Inv.noLoss {c : Conn} (h : Inv c) : NoLoss c := by
  intro hidle
  have hbuf := (h.idle hidle.1).1
  obtain ⟨hzero, hnoticed⟩ := h.free hidle
  rcases hnoticed with hu | hp
  · exact Or.inl (by omega)
  · exact Or.inr ⟨hp, hzero⟩

/-- **A step within the condition keeps the invariant.** -/
theorem Inv.step {c c' : Conn} {e : Event} (h : Inv c) (hc : NoticedAtSnapshot c e)
    (hs : StartIo.step c e = some c') : Inv c' := by
  obtain ⟨h1, h2, h3, h4, h5, h6, h7, h8⟩ := h
  simp only [Conn.Idle, Conn.Noticed] at h1 h2 h3 h4 h5 h6 h7 h8
  cases e with
  | arrive _ | enqueue | callback | read _ _ | store | requeue =>
    simp only [StartIo.step] at hs
    split_ifs at hs
    cases hs
    constructor <;> simp only [Conn.Idle, Conn.Noticed] <;> grind
  | fetchAdd | done | compareExchange =>
    -- the count goes past any snapshot; from zero it enqueues an idle connection
    simp only [StartIo.step] at hs
    split_ifs at hs <;> cases hs <;> constructor <;>
      simp only [Conn.Idle, Conn.Noticed] <;> grind
  | snapshot =>
    -- the condition is what the snapshot has to know
    simp only [NoticedAtSnapshot] at hc
    simp only [StartIo.step] at hs
    split_ifs at hs
    cases hs
    constructor <;> simp only [Conn.Idle, Conn.Noticed] <;> grind

/-! ## The result -/

/-- **A snapshot outside of the condition can be the end of a command**: nothing else has to happen
before the connection is given up. -/
theorem lost_of_not_noticed {c c' : Conn} (h : Inv c) (hc : ¬ NoticedAtSnapshot c .snapshot)
    (hs : step c .snapshot = some c') :
    ¬ Machine.Safe step NoLoss c' [.done, .compareExchange] := by
  simp only [NoticedAtSnapshot, not_forall, not_or, Nat.not_lt, Nat.le_zero] at hc
  obtain ⟨hbuf, hunread, hpending⟩ := hc
  have hpc : c.pc = .snapshotting := by
    simp only [step] at hs
    split_ifs at hs with hpc
    exact hpc
  obtain ⟨hqueued, henq⟩ := h.busy (by simp [hpc])
  simp only [step, if_pos hpc] at hs
  cases hs
  intro hsafe
  have hdone := (hsafe.2 { c with eventsSnapshot := c.epollEvents, pc := .startIo }
    (by simp [step, hbuf])).2
      { c with eventsSnapshot := c.epollEvents, epollEvents := 0, pc := .idle }
    (by simp [step])
  rcases hdone ⟨rfl, hqueued, henq⟩ with h0 | ⟨hp, -⟩
  · exact hunread (by simp only at h0; omega)
  · simp only at hp
    omega

/-- **No client command is lost along the runs that meet the condition, and no weaker condition will
do**: wherever a run that met it takes a snapshot outside of it, the run can go on to leave the
connection idle with an unread command. -/
theorem noLoss_exact (es : List Event) :
    (Machine.Meets step NoticedAtSnapshot Conn.init es →
      Machine.Safe step NoLoss Conn.init es) ∧
    ∀ c c', Machine.Meets step NoticedAtSnapshot Conn.init es →
      Machine.exec step Conn.init es = some c → step c .snapshot = some c' →
      ¬ NoticedAtSnapshot c .snapshot →
      ∃ es', ¬ Machine.Safe step NoLoss c' es' := by
  refine ⟨fun hm => Machine.safe_of_meets (fun _ h => h.noLoss)
    (fun _ _ _ h hc hs => h.step hc hs) inv_init hm, fun c c' hm he hs hc => ?_⟩
  have hinv : Inv c := Machine.exec_of_meets (fun _ _ _ h hc hs => Inv.step h hc hs) inv_init hm he
  exact ⟨_, lost_of_not_noticed hinv hc hs⟩

/-- Two commands arrive at once, and the listener counts one event for them. -/
def sampleRun : List Event :=
  [.arrive 20, .fetchAdd, .enqueue, .callback, .read 10 10, .snapshot, .done, .compareExchange]

/-- **The second command is lost**: the connection is idle, ten bytes are unread, and no call is to
come. -/
theorem lost_sampleRun :
    Machine.exec step Conn.init sampleRun = some ⟨10, 0, 0, 0, 1, 0, 0, .idle⟩ ∧
      ¬ NoLoss ⟨10, 0, 0, 0, 1, 0, 0, .idle⟩ := by
  refine ⟨by decide, fun h => ?_⟩
  rcases h ⟨rfl, rfl, rfl⟩ with h | h
  · exact absurd h (by decide)
  · exact absurd h.1 (by decide)

end StartIo

end EloqSql
