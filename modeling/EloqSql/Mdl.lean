import EloqSql.Lib.Machine
import Mathlib.Data.Finset.Basic
import Mathlib.Data.Finset.Insert

/-!
# Mdl — metadata locks

The metadata locks of the server (`mdl.cc`): a lock has a list of granted and a list of waiting
tickets, each with a counter for each lock type and the bitmap of the types present; a context has
its tickets and one wait slot. A step of the machine is what happens under the rwlock of a lock, or
under the mutex of a wait slot. Whether a waiter has been granted its lock is decided by its slot
alone, and whoever sets it first wins.
-/

namespace EloqSql

open Function (update)

/-- `enum_mdl_type`, up to `MDL_BACKUP_END`. -/
abbrev MdlType := Fin 14

namespace MdlType

def intentionExclusive : MdlType := 0
def shared : MdlType := 1
def sharedHighPrio : MdlType := 2
def sharedRead : MdlType := 3
def sharedWrite : MdlType := 4
def sharedUpgradable : MdlType := 5
def sharedReadOnly : MdlType := 6
def sharedNoWrite : MdlType := 7
def sharedNoReadWrite : MdlType := 8
def exclusive : MdlType := 9

def backupStart : MdlType := 0
def backupFlush : MdlType := 1
def backupWaitFlush : MdlType := 2
def backupWaitDdl : MdlType := 3
def backupWaitCommit : MdlType := 4
def backupFtwrl1 : MdlType := 5
def backupFtwrl2 : MdlType := 6
def backupDml : MdlType := 7
def backupTransDml : MdlType := 8
def backupSysDml : MdlType := 9
def backupDdl : MdlType := 10
def backupBlockDdl : MdlType := 11
def backupAlterCopy : MdlType := 12
def backupCommit : MdlType := 13

end MdlType

open MdlType

/-- `MDL_lock_strategy`, by its three implementations. -/
inductive MdlStrategy
  | scoped
  | object
  | backup
  deriving DecidableEq

namespace MdlStrategy

/-- The types that the stages of a backup keep out, besides its start. -/
def backupStages : Finset MdlType :=
  {backupFlush, backupWaitFlush, backupWaitDdl, backupWaitCommit}

/-- `incompatible_granted_types_bitmap()[type]`. -/
def incompatibleGrantedTypes : MdlStrategy → MdlType → Finset MdlType
  | .scoped, 0 => {exclusive, shared}
  | .scoped, 1 => {exclusive, intentionExclusive}
  | .scoped, 9 => {exclusive, shared, intentionExclusive}
  | .scoped, _ => ∅
  | .object, 0 => ∅
  | .object, 1 => {exclusive}
  | .object, 2 => {exclusive}
  | .object, 3 => {exclusive, sharedNoReadWrite}
  | .object, 4 => {exclusive, sharedNoReadWrite, sharedNoWrite, sharedReadOnly}
  | .object, 5 => {exclusive, sharedNoReadWrite, sharedNoWrite, sharedUpgradable}
  | .object, 6 => {exclusive, sharedNoReadWrite, sharedWrite}
  | .object, 7 => {exclusive, sharedNoReadWrite, sharedNoWrite, sharedUpgradable, sharedWrite}
  | .object, 8 =>
      {exclusive, sharedNoReadWrite, sharedNoWrite, sharedReadOnly, sharedUpgradable, sharedWrite,
        sharedRead}
  | .object, 9 =>
      {exclusive, sharedNoReadWrite, sharedNoWrite, sharedReadOnly, sharedUpgradable, sharedWrite,
        sharedRead, sharedHighPrio, shared}
  | .object, _ => ∅
  | .backup, 0 => {backupStart, backupBlockDdl} ∪ backupStages
  | .backup, 1 => {backupStart}
  | .backup, 2 => {backupStart, backupDml}
  | .backup, 3 => {backupStart, backupDml, backupDdl}
  | .backup, 4 => {backupStart, backupDml, backupSysDml, backupDdl, backupCommit}
  | .backup, 5 => {backupDml, backupTransDml, backupSysDml, backupDdl, backupAlterCopy}
  | .backup, 6 =>
      {backupDml, backupTransDml, backupSysDml, backupDdl, backupAlterCopy, backupCommit}
  | .backup, 7 => {backupFtwrl1, backupFtwrl2} ∪ backupStages
  | .backup, 8 => {backupFtwrl1, backupFtwrl2}
  | .backup, 9 => {backupWaitCommit, backupFtwrl1, backupFtwrl2}
  | .backup, 10 =>
      {backupWaitDdl, backupWaitCommit, backupFtwrl1, backupFtwrl2, backupBlockDdl}
  | .backup, 11 => {backupStart, backupBlockDdl, backupDdl} ∪ backupStages
  | .backup, 12 => {backupFtwrl1, backupFtwrl2}
  | .backup, 13 => {backupWaitCommit, backupFtwrl2}

/-- `incompatible_waiting_types_bitmap()[type]`. -/
def incompatibleWaitingTypes : MdlStrategy → MdlType → Finset MdlType
  | .scoped, 0 => {exclusive, shared}
  | .scoped, 1 => {exclusive}
  | .scoped, _ => ∅
  | .object, 1 => {exclusive}
  | .object, 3 => {exclusive, sharedNoReadWrite}
  | .object, 4 => {exclusive, sharedNoReadWrite, sharedNoWrite}
  | .object, 5 => {exclusive}
  | .object, 6 => {exclusive, sharedNoReadWrite, sharedWrite}
  | .object, 7 => {exclusive}
  | .object, 8 => {exclusive}
  | .object, _ => ∅
  | .backup, 0 => {backupBlockDdl} ∪ backupStages
  | .backup, 7 => {backupFtwrl1, backupFtwrl2} ∪ backupStages
  | .backup, 8 => {backupFtwrl1, backupFtwrl2}
  | .backup, 9 => {backupWaitCommit, backupFtwrl1, backupFtwrl2}
  | .backup, 10 =>
      {backupWaitDdl, backupWaitCommit, backupFtwrl1, backupFtwrl2, backupBlockDdl}
  | .backup, 11 => {backupStart}
  | .backup, 12 => {backupFtwrl1, backupFtwrl2}
  | .backup, 13 => {backupWaitCommit, backupFtwrl2}
  | .backup, _ => ∅

/-- `hog_lock_types_bitmap()`. -/
def hogLockTypes : MdlStrategy → Finset MdlType
  | .object => {sharedNoWrite, sharedNoReadWrite, exclusive}
  | _ => ∅

/-- `has_stronger_or_equal_type`. -/
def hasStrongerOrEqualType (st : MdlStrategy) (held type : MdlType) : Bool :=
  st.incompatibleGrantedTypes type ⊆ st.incompatibleGrantedTypes held

end MdlStrategy

/-- `enum_mdl_duration`. -/
inductive MdlDuration
  | statement
  | transaction
  | explicit
  deriving DecidableEq

/-- The three durations from one on, in the order of `find_ticket`. -/
def MdlDuration.from : MdlDuration → List MdlDuration
  | .statement => [.statement, .transaction, .explicit]
  | .transaction => [.transaction, .explicit, .statement]
  | .explicit => [.explicit, .statement, .transaction]

/-- `MDL_wait::enum_wait_status`. -/
inductive MdlWait
  | empty
  | victim
  | timeout
  | killed
  | granted
  deriving DecidableEq

namespace Mdl

/-! ## Lists of tickets -/

/-- **`MDL_lock::Ticket_list`**: the tickets, the bitmap of their types, a counter for each type,
a `uint32_t` in the source: the two differ only after `2 ^ 32` grants that went unnoticed. -/
structure TicketList where
  list : List ℕ
  bitmap : Finset MdlType
  typeCounters : MdlType → ℤ

/-- The two lists of a lock. -/
inductive Side
  | granted
  | waiting
  deriving DecidableEq

namespace TicketList

def nil : TicketList := ⟨[], ∅, fun _ => 0⟩

/-- `Ticket_list::add_ticket`. -/
def addTicket (tl : TicketList) (k : ℕ) (type : MdlType) : TicketList where
  list := tl.list ++ [k]
  bitmap := insert type tl.bitmap
  typeCounters := update tl.typeCounters type (tl.typeCounters type + 1)

/-- The counter and the bitmap after `--m_type_counters[type]`. -/
def discount (tl : TicketList) (type : MdlType) : TicketList where
  list := tl.list
  bitmap := if tl.typeCounters type - 1 = 0 then tl.bitmap.erase type else tl.bitmap
  typeCounters := update tl.typeCounters type (tl.typeCounters type - 1)

end TicketList

/-! ## The state -/

/-- **`MDL_ticket`.** -/
structure Ticket (X L : Type*) where
  ctx : X
  lock : L
  type : MdlType

/-- **Why a context acquires a lock**: for a request, or to upgrade a ticket. -/
inductive Goal
  | acquire (duration : MdlDuration)
  | upgrade (k : ℕ) (type : MdlType)
  deriving DecidableEq

/-- The duration of the request. -/
def Goal.duration : Goal → MdlDuration
  | .acquire d => d
  | .upgrade _ _ => .transaction

/-- **Where a context is.** -/
inductive Pc
  | idle
  /-- In `acquire_lock`, in one of its waits for the ticket. -/
  | waiting (k : ℕ) (goal : Goal)
  /-- A short wait has ended without a status: before `thd_is_connected`. -/
  | checking (k : ℕ) (goal : Goal)
  /-- The wait is over, with the `wait_status` that `acquire_lock` goes by. -/
  | ended (k : ℕ) (goal : Goal) (status : MdlWait)
  /-- In `upgrade_shared_lock`, before the two tickets are merged; with the new ticket if it is
  one. -/
  | merging (k : ℕ) (type : MdlType) (fresh : Option ℕ)
  deriving DecidableEq

/-- Where a context goes when it has its lock. -/
def Goal.after (k : ℕ) (fresh : Bool) : Goal → Pc
  | .acquire _ => .idle
  | .upgrade k₀ type => .merging k₀ type (if fresh then some k else none)

/-- **The metadata locks and their contexts.** -/
structure State (X L : Type*) where
  /-- The tickets made so far; a new one gets the number `next`. -/
  ticket : ℕ → Option (Ticket X L)
  next : ℕ
  lists : L → Side → TicketList
  hogLockCount : L → ℕ
  /-- The wait slot of a context. -/
  wait : X → MdlWait
  /-- `m_tickets`. -/
  tickets : X → MdlDuration → List ℕ
  pc : X → Pc

/-- Before the first lock. -/
def State.init {X L : Type*} : State X L :=
  ⟨fun _ => none, 0, fun _ _ => .nil, fun _ => 0, fun _ => .empty, fun _ _ => [], fun _ => .idle⟩

/-- **What happens next.** -/
inductive Event (X L : Type*)
  | tryAcquire (x : X) (l : L) (type : MdlType) (d : MdlDuration)
  | acquire (x : X) (l : L) (type : MdlType) (d : MdlDuration) (nowait : Bool)
  | upgrade (x : X) (k : ℕ) (type : MdlType) (nowait : Bool)
  | merge (x : X)
  | downgrade (x : X) (k : ℕ) (type : MdlType)
  /-- `clone_ticket`, of a ticket of any context. -/
  | clone (x : X) (k : ℕ) (type : MdlType) (d : MdlDuration)
  | release (x : X) (d : MdlDuration) (k : ℕ)
  /-- `timed_wait` finds its slot set. -/
  | wake (x : X)
  /-- `timed_wait` finds its slot empty and its connection killed. -/
  | kill (x : X)
  /-- The last `timed_wait` ends with a timeout. -/
  | timeout (x : X)
  /-- A short `timed_wait` ends with a timeout. -/
  | shortTimeout (x : X)
  /-- `thd_is_connected`. -/
  | checkConnected (x : X) (connected : Bool)
  /-- `find_deadlock` chooses a victim. -/
  | victim (x : X)
  /-- `acquire_lock` acts on its `wait_status`. -/
  | finish (x : X)
  /-- An empty lock goes back to the allocator and comes with another count. -/
  | recycle (l : L) (n : ℕ)

namespace State

variable {X L : Type*} [DecidableEq X] [DecidableEq L] (s : State X L)

/-! ## The operations -/

/-- `Ticket_list::add_ticket` on a list of a lock. -/
def addTicket (l : L) (side : Side) (k : ℕ) (type : MdlType) : State X L :=
  { s with lists := fun l' side' =>
      if l' = l ∧ side' = side then (s.lists l' side').addTicket k type else s.lists l' side' }

/-- `Ticket_list::remove_ticket` on a list of a lock: the node leaves the list it is linked in, and
the counters are those of the list named. -/
def removeTicket (l : L) (side : Side) (k : ℕ) (type : MdlType) : State X L :=
  { s with lists := fun l' side' =>
      let unlinked := { s.lists l' side' with list := (s.lists l' side').list.erase k }
      if l' = l ∧ side' = side then unlinked.discount type else unlinked }

def goto (x : X) (pc : Pc) : State X L := { s with pc := update s.pc x pc }

/-- `m_tickets[duration].push_front`. -/
def pushTicket (x : X) (d : MdlDuration) (k : ℕ) : State X L :=
  { s with tickets := fun y e =>
      if y = x ∧ e = d then k :: s.tickets y e else s.tickets y e }

/-- `m_tickets[duration].remove`. -/
def dropTicket (x : X) (d : MdlDuration) (k : ℕ) : State X L :=
  { s with tickets := fun y e =>
      if y = x ∧ e = d then (s.tickets y e).erase k else s.tickets y e }

/-- `MDL_ticket::create`. -/
def createTicket (x : X) (l : L) (type : MdlType) : State X L :=
  { s with ticket := update s.ticket s.next (some ⟨x, l, type⟩), next := s.next + 1 }

/-- `MDL_wait::set_status`. -/
def setStatus (x : X) (status : MdlWait) : State X L :=
  if s.wait x = .empty then { s with wait := update s.wait x status } else s

/-- `can_grant_lock`. -/
def canGrantLock (strategy : L → MdlStrategy) (l : L) (type : MdlType) (x : X)
    (ignorePriority : Bool) : Bool :=
  let waitingIncompat := (strategy l).incompatibleWaitingTypes type
  let grantedIncompat := (strategy l).incompatibleGrantedTypes type
  if ignorePriority = false ∧ ((s.lists l .waiting).bitmap ∩ waitingIncompat).Nonempty then false
  else if ((s.lists l .granted).bitmap ∩ grantedIncompat).Nonempty then
    (s.lists l .granted).list.all fun k =>
      match s.ticket k with
      | some t => t.ctx = x ∨ t.type ∉ grantedIncompat
      | none => true
  else true

/-- One round of the loop of `reschedule_waiters`. -/
def grantWaiter (strategy : L → MdlStrategy) (l : L) (skipHighPriority : Bool) (s : State X L)
    (k : ℕ) : State X L :=
  match s.ticket k with
  | none => s
  | some t =>
    let hog := decide (t.type ∈ (strategy l).hogLockTypes)
    if skipHighPriority ∧ hog then s
    else if s.canGrantLock strategy l t.type t.ctx skipHighPriority ∧ s.wait t.ctx = .empty then
      let s := ((s.setStatus t.ctx .granted).removeTicket l .waiting k t.type).addTicket l .granted
        k t.type
      { s with hogLockCount :=
          if hog then update s.hogLockCount l (s.hogLockCount l + 1) else s.hogLockCount }
    else s

/-- `reschedule_waiters`. -/
def rescheduleWaiters (strategy : L → MdlStrategy) (maxWriteLockCount : ℕ) (l : L) : State X L :=
  let weak (s : State X L) := (s.lists l .waiting).bitmap \ (strategy l).hogLockTypes
  let skipHighPriority := decide (maxWriteLockCount ≤ s.hogLockCount l) && decide (weak s).Nonempty
  let s := (s.lists l .waiting).list.foldl (grantWaiter strategy l skipHighPriority) s
  if (weak s).Nonempty then s
  else { s with hogLockCount := update s.hogLockCount l 0 }

/-- `MDL_lock::remove_ticket`. -/
def removeAndReschedule (strategy : L → MdlStrategy) (maxWriteLockCount : ℕ) (l : L) (side : Side)
    (k : ℕ) (type : MdlType) : State X L :=
  let s := s.removeTicket l side k type
  if (s.lists l .granted).list = [] ∧ (s.lists l .waiting).list = [] then s
  else s.rescheduleWaiters strategy maxWriteLockCount l

/-- `find_ticket`. -/
def findTicket (strategy : L → MdlStrategy) (x : X) (l : L) (type : MdlType) (d : MdlDuration) :
    Option (ℕ × MdlDuration) :=
  d.from.findSome? fun e =>
    ((s.tickets x e).find? fun k =>
      match s.ticket k with
      | some t => t.lock = l ∧ (strategy l).hasStrongerOrEqualType t.type type
      | none => false).map fun k => (k, e)

/-- `clone_ticket`, and where the context goes then. -/
def cloneTicket (x : X) (l : L) (type : MdlType) (d : MdlDuration) (pc : Pc) : State X L :=
  (((s.createTicket x l type).addTicket l .granted s.next type).pushTicket x d s.next).goto x pc

/-- **`acquire_lock`** up to its wait, and `try_acquire_lock` with `nowait`. -/
def acquireLock (strategy : L → MdlStrategy) (x : X) (l : L) (type : MdlType) (goal : Goal)
    (nowait : Bool) : State X L :=
  let k := s.next
  match s.findTicket strategy x l type goal.duration with
  | some (found, d) =>
      if d ≠ goal.duration ∨ goal.duration = .explicit then
        s.cloneTicket x l type goal.duration (goal.after k true)
      else s.goto x (goal.after found false)
  | none =>
      let s := s.createTicket x l type
      if s.canGrantLock strategy l type x false then
        ((s.addTicket l .granted k type).pushTicket x goal.duration k).goto x (goal.after k true)
      else if nowait then s
      else
        { s.addTicket l .waiting k type with wait := update s.wait x .empty }.goto x
          (.waiting k goal)

/-- The ticket leaves the granted list, gets another type and comes back. -/
def retype (k : ℕ) (t : Ticket X L) (type : MdlType) : State X L :=
  let s := s.removeTicket t.lock .granted k t.type
  { s with ticket := update s.ticket k (some { t with type := type }) }.addTicket t.lock
    .granted k type

/-- The end of `upgrade_shared_lock`: a new ticket goes, and the old one gets its type. -/
def mergeTickets (x : X) (k : ℕ) (t : Ticket X L) (type : MdlType) (fresh : Option ℕ) :
    State X L :=
  match fresh with
  | none => s.retype k t type
  | some new =>
      match s.ticket new with
      | some n =>
          ((s.dropTicket x .transaction new).removeTicket t.lock .granted new n.type).retype k t
            type
      | none => s

/-- **One step.** -/
def step (strategy : L → MdlStrategy) (maxWriteLockCount : ℕ) (s : State X L) :
    Event X L → Option (State X L)
  | .tryAcquire x l type d =>
      if s.pc x = .idle then some (s.acquireLock strategy x l type (.acquire d) true) else none
  | .acquire x l type d nowait =>
      if s.pc x = .idle then some (s.acquireLock strategy x l type (.acquire d) nowait) else none
  | .upgrade x k type nowait =>
      match s.ticket k with
      | some t =>
          if s.pc x = .idle ∧ ∃ d ∈ MdlDuration.statement.from, k ∈ s.tickets x d then
            if (strategy t.lock).hasStrongerOrEqualType t.type type ∧ strategy t.lock ≠ .backup then
              some s
            else some (s.acquireLock strategy x t.lock type (.upgrade k type) nowait)
          else none
      | none => none
  | .merge x =>
      match s.pc x with
      | .merging k type fresh =>
          match s.ticket k with
          | some t => some ((s.goto x .idle).mergeTickets x k t type fresh)
          | none => none
      | _ => none
  | .downgrade x k type =>
      match s.ticket k with
      | some t =>
          if s.pc x = .idle ∧ ∃ d ∈ MdlDuration.statement.from, k ∈ s.tickets x d then
            if t.type = type ∨
              (strategy t.lock).hasStrongerOrEqualType t.type type = false then some s
            else
              some ((s.retype k t type).rescheduleWaiters strategy maxWriteLockCount t.lock)
          else none
      | none => none
  | .clone x k type d =>
      match s.ticket k with
      | some t =>
          if s.pc x = .idle ∧ (∃ e ∈ MdlDuration.statement.from, k ∈ s.tickets t.ctx e) ∧
              (strategy t.lock).hasStrongerOrEqualType t.type type then
            some (s.cloneTicket x t.lock type d .idle)
          else none
      | none => none
  | .release x d k =>
      match s.ticket k with
      | some t =>
          if s.pc x = .idle ∧ k ∈ s.tickets x d then
            some ((s.dropTicket x d k).removeAndReschedule strategy maxWriteLockCount t.lock
              .granted k t.type)
          else none
      | none => none
  | .wake x =>
      match s.pc x with
      | .waiting k goal =>
          if s.wait x = .empty then none else some (s.goto x (.ended k goal (s.wait x)))
      | _ => none
  | .kill x =>
      match s.pc x with
      | .waiting k goal =>
          if s.wait x = .empty then
            some ({ s with wait := update s.wait x .killed }.goto x (.ended k goal .killed))
          else none
      | _ => none
  | .timeout x =>
      match s.pc x with
      | .waiting k goal =>
          if s.wait x = .empty then
            some ({ s with wait := update s.wait x .timeout }.goto x
              (.ended k goal .timeout))
          else none
      | _ => none
  | .shortTimeout x =>
      match s.pc x with
      | .waiting k goal => if s.wait x = .empty then some (s.goto x (.checking k goal)) else none
      | _ => none
  | .checkConnected x connected =>
      match s.pc x with
      | .checking k goal =>
          -- the slot stays as it is
          some (s.goto x (if connected then .waiting k goal else .ended k goal .timeout))
      | _ => none
  | .victim x =>
      match s.pc x with
      | .waiting _ _ | .checking _ _ | .ended _ _ _ => some (s.setStatus x .victim)
      | _ => none
  | .finish x =>
      match s.pc x with
      | .ended k goal status =>
          match s.ticket k with
          | some t =>
              if status = .granted then
                some ((s.pushTicket x goal.duration k).goto x (goal.after k true))
              else
                some ((s.goto x .idle).removeAndReschedule strategy maxWriteLockCount t.lock
                  .waiting k t.type)
          | none => none
      | _ => none
  | .recycle l n =>
      if (s.lists l .granted).list = [] ∧ (s.lists l .waiting).list = [] then
        some { s with hogLockCount := update s.hogLockCount l n }
      else none

end State

end Mdl

end EloqSql
