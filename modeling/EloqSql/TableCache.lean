import EloqSql.Lib.Machine
import Mathlib.Data.Set.Card

/-!
# TableCache — the cache of open tables

The table cache (`table_cache.cc`) keeps the `TABLE` objects of a share for the next statement. Its
instances have a mutex each; under it a TABLE goes to the list of free tables of its share and to
that of the instance, or leaves both. The list of all tables of a share, and the mark that the share
has been flushed, are under a mutex of the share. A step of the machine is what happens under a
mutex, except where `tc_release_table` looks at the mark of the share: it holds the mutex of the
instance only, so that the mark may be set before it puts the TABLE into the lists.
-/

namespace EloqSql.TableCache

open Function (update)

/-- `tc_size` and `tc_instances`. -/
structure Config where
  tcSize : ℕ
  tcInstances : ℕ
  tcInstances_pos : 0 < tcInstances

/-- Who calls `tc_remove_all_unused_tables`: `tc_purge`, with the shares it goes to next, or
`flush_unused`. -/
inductive Sweep (E : Type*)
  | purge (next : List E)
  | flush (markFlushed : Bool)
  deriving DecidableEq

/-- **Where a connection is.** -/
inductive Pc (E T : Type*)
  | idle
  /-- In `tc_add_table`, before the TABLE is in `all_tables`. -/
  | linking (t : T)
  /-- In `tc_add_table`, before the mutex of the instance. -/
  | counting (t : T)
  /-- In `tc_release_table`, with the mutex of the instance, and whether the TABLE goes. -/
  | releasing (t : T) (remove : Bool)
  /-- In `tc_remove_table`, before the mutex of the share. -/
  | removing (t : T)
  /-- In `tc_purge`, before the next share. -/
  | walking (next : List E) (purgeTables : List T)
  /-- In `tc_remove_all_unused_tables`, with the mutex of the share, before an instance. -/
  | sweeping (e : E) (i : ℕ) (purgeTables : List T) (caller : Sweep E)
  /-- Before `intern_close_table` on each TABLE of a list. -/
  | closing (purgeTables : List T)
  deriving DecidableEq

/-- **The cache and its connections.** -/
structure State (X E T : Type*) where
  /-- `tc_active_instances`. -/
  activeInstances : ℕ
  /-- Of each instance: its count, its free tables, and who holds its mutex. -/
  records : ℕ → ℕ
  freeTables : ℕ → List T
  lockTableCache : ℕ → Option X
  /-- Of each share: its mark, its tables, its free tables in each instance, and who holds its
  mutex. -/
  flushed : E → Bool
  allTables : E → List T
  shareFreeTables : E → ℕ → List T
  lockTableShare : E → Option X
  /-- Of each TABLE: its share, or `none` if it is not allocated, its instance and its user. -/
  share : T → Option E
  instanceNo : T → ℕ
  inUse : T → Option X
  /-- The tables that a connection has open. -/
  openTables : X → List T
  pc : X → Pc E T
  /-- The shares on which `flush_unused(true)` is through: no code reads it. -/
  purged : E → Bool

/-- After `tdc_init`. -/
def State.init {X E T : Type*} (c : Config) : State X E T where
  activeInstances := c.tcInstances
  records := fun _ => 0
  freeTables := fun _ => []
  lockTableCache := fun _ => none
  flushed := fun _ => false
  allTables := fun _ => []
  shareFreeTables := fun _ _ => []
  lockTableShare := fun _ => none
  share := fun _ => none
  instanceNo := fun _ => 0
  inUse := fun _ => none
  openTables := fun _ => []
  pc := fun _ => .idle
  purged := fun _ => false

/-- **What happens next.** -/
inductive Event (X E T : Type*)
  /-- `tc_add_table` with a new TABLE of a share, by a connection of a group. -/
  | add (x : X) (t : T) (e : E) (gid : ℕ)
  /-- …adds it to `all_tables`. -/
  | link (x : X)
  /-- …counts it. -/
  | count (x : X)
  | acquire (x : X) (e : E) (gid : ℕ)
  /-- `tc_release_table` decides, -/
  | release (x : X) (t : T) (needsReopen : Bool)
  /-- …and acts. -/
  | finishRelease (x : X)
  /-- `tc_remove_table`, up to `intern_close_table`. -/
  | remove (x : X)
  /-- `tc_purge`, with the shares that it will come to. -/
  | purge (x : X) (shares : List E)
  /-- …gets to the next one. -/
  | visit (x : X)
  | flushUnused (x : X) (e : E) (markFlushed : Bool)
  /-- `tc_remove_all_unused_tables` does an instance, or ends. -/
  | sweep (x : X)
  /-- `intern_close_table`. -/
  | close (x : X)
  /-- `tdc_acquire_share` makes the share anew. -/
  | create (x : X) (e : E)
  /-- `lock_and_check_contention` activates an instance. -/
  | activate

namespace State

variable {X E T : Type*} [DecidableEq X] [DecidableEq E] [DecidableEq T] (s : State X E T)

def goto (x : X) (pc : Pc E T) : State X E T := { s with pc := update s.pc x pc }

/-- `element->free_tables[i].list` gets another value. -/
def setShareFreeTables (e : E) (i : ℕ) (l : List T) : State X E T :=
  { s with shareFreeTables := fun e' j =>
      if e' = e ∧ j = i then l else s.shareFreeTables e' j }

/-- The beginning of `tc_add_table`. -/
def addTable (x : X) (t : T) (e : E) (gid : ℕ) : State X E T :=
  { s with
    share := update s.share t (some e)
    instanceNo := update s.instanceNo t (gid % s.activeInstances)
    inUse := update s.inUse t (some x) }.goto x (.linking t)

/-- `tc_add_table` under the mutex of the share. -/
def linkTable (x : X) (t : T) (e : E) : State X E T :=
  { s with allTables := update s.allTables e (t :: s.allTables e) }.goto x (.counting t)

/-- `tc_add_table` under the mutex of the instance. -/
def countTable (c : Config) (x : X) (t : T) : State X E T :=
  let i := s.instanceNo t
  let opened := { s with openTables := update s.openTables x (t :: s.openTables x) }
  let counted := { opened with
    records := update s.records i (s.records i + 1) }.goto x .idle
  if s.records i = c.tcSize then
    match s.freeTables i with
    | [] => counted
    | lru :: rest =>
      match s.share lru with
      | none => counted
      | some e =>
        -- the count stands for the new TABLE now
        { opened.setShareFreeTables e i ((s.shareFreeTables e i).erase lru) with
          freeTables := update s.freeTables i rest
          inUse := update s.inUse lru (some x) }.goto x (.removing lru)
  else counted

/-- `tc_acquire_table`. -/
def acquireTable (x : X) (e : E) (i : ℕ) : State X E T :=
  match s.shareFreeTables e i with
  | [] => s
  | t :: rest =>
    { s.setShareFreeTables e i rest with
      inUse := update s.inUse t (some x)
      freeTables := update s.freeTables i ((s.freeTables i).erase t)
      openTables := update s.openTables x (t :: s.openTables x) }

/-- The condition of `tc_release_table`. -/
def releaseTable (c : Config) (x : X) (t : T) (e : E) (needsReopen : Bool) : State X E T :=
  let i := s.instanceNo t
  { s with
    lockTableCache := update s.lockTableCache i (some x)
    openTables := update s.openTables x ((s.openTables x).erase t) }.goto x
    (.releasing t (needsReopen || s.flushed e || decide (c.tcSize < s.records i)))

/-- The branches of `tc_release_table`. -/
def finishRelease (x : X) (t : T) (e : E) (remove : Bool) : State X E T :=
  let i := s.instanceNo t
  let unlocked := { s with lockTableCache := update s.lockTableCache i none }
  if remove then
    { unlocked with records := update s.records i (s.records i - 1) }.goto x (.removing t)
  else
    { unlocked.setShareFreeTables e i (t :: s.shareFreeTables e i) with
      inUse := update s.inUse t none
      freeTables := update s.freeTables i (s.freeTables i ++ [t]) }.goto x .idle

/-- `tc_remove_table`, up to `intern_close_table`. -/
def removeTable (x : X) (t : T) (e : E) : State X E T :=
  { s with allTables := update s.allTables e ((s.allTables e).erase t) }.goto x
    (.closing [t])

/-- A round of the loop of `tc_remove_all_unused_tables` on an instance. -/
def removeUnused (x : X) (e : E) (i : ℕ) (caller : Sweep E) (s : State X E T) (t : T) :
    State X E T :=
  match s.pc x with
  | .sweeping _ _ purgeTables _ =>
    { s.setShareFreeTables e i ((s.shareFreeTables e i).erase t) with
      records := update s.records i (s.records i - 1)
      freeTables := update s.freeTables i ((s.freeTables i).erase t)
      allTables := update s.allTables e ((s.allTables e).erase t) }.goto x
      (.sweeping e i (t :: purgeTables) caller)
  | _ => s

/-- `tc_remove_all_unused_tables` on an instance. -/
def removeAllUnused (x : X) (e : E) (i : ℕ) (caller : Sweep E) : State X E T :=
  let s := (s.shareFreeTables e i).foldl (removeUnused x e i caller) s
  match s.pc x with
  | .sweeping _ _ purgeTables _ => s.goto x (.sweeping e (i + 1) purgeTables caller)
  | _ => s

/-- The end of `tc_remove_all_unused_tables` and of the section of its caller. -/
def endSweep (x : X) (e : E) (purgeTables : List T) (caller : Sweep E) : State X E T :=
  let s := { s with lockTableShare := update s.lockTableShare e none }
  match caller with
  | .purge next => s.goto x (.walking next purgeTables)
  | .flush markFlushed =>
    { s with purged := update s.purged e (s.purged e || markFlushed) }.goto x
      (.closing purgeTables)

/-- `intern_close_table` on the next TABLE. -/
def closeTable (x : X) : List T → State X E T
  | [] => s.goto x .idle
  | t :: rest => { s with share := update s.share t none }.goto x (.closing rest)

/-- **One step.** -/
def step (c : Config) (s : State X E T) : Event X E T → Option (State X E T)
  | .add x t e gid =>
      if s.pc x = .idle ∧ s.share t = none then some (s.addTable x t e gid) else none
  | .link x =>
      match s.pc x with
      | .linking t =>
          (s.share t).bind fun e =>
            if s.lockTableShare e = none then some (s.linkTable x t e) else none
      | _ => none
  | .count x =>
      match s.pc x with
      | .counting t =>
          if s.lockTableCache (s.instanceNo t) = none then some (s.countTable c x t) else none
      | _ => none
  | .acquire x e gid =>
      if s.pc x = .idle ∧ s.lockTableCache (gid % s.activeInstances) = none then
        some (s.acquireTable x e (gid % s.activeInstances))
      else none
  | .release x t needsReopen =>
      (s.share t).bind fun e =>
        if s.pc x = .idle ∧ t ∈ s.openTables x ∧ s.lockTableCache (s.instanceNo t) = none then
          some (s.releaseTable c x t e needsReopen)
        else none
  | .finishRelease x =>
      match s.pc x with
      | .releasing t remove => (s.share t).bind fun e => some (s.finishRelease x t e remove)
      | _ => none
  | .remove x =>
      match s.pc x with
      | .removing t =>
          (s.share t).bind fun e =>
            if s.lockTableShare e = none then some (s.removeTable x t e) else none
      | _ => none
  | .purge x shares => if s.pc x = .idle then some (s.goto x (.walking shares [])) else none
  | .visit x =>
      match s.pc x with
      | .walking [] purgeTables => some (s.goto x (.closing purgeTables))
      | .walking (e :: next) purgeTables =>
          if s.lockTableShare e = none then
            some ({ s with lockTableShare := update s.lockTableShare e (some x) }.goto x
              (.sweeping e 0 purgeTables (.purge next)))
          else none
      | _ => none
  | .flushUnused x e markFlushed =>
      if s.pc x = .idle ∧ s.lockTableShare e = none then
        some ({ s with
          lockTableShare := update s.lockTableShare e (some x)
          flushed := update s.flushed e (s.flushed e || markFlushed) }.goto x
          (.sweeping e 0 [] (.flush markFlushed)))
      else none
  | .sweep x =>
      match s.pc x with
      | .sweeping e i purgeTables caller =>
          if i < c.tcInstances then
            if s.lockTableCache i = none then some (s.removeAllUnused x e i caller) else none
          else some (s.endSweep x e purgeTables caller)
      | _ => none
  | .close x =>
      match s.pc x with
      | .closing purgeTables => some (s.closeTable x purgeTables)
      | _ => none
  | .create x e =>
      if s.pc x = .idle ∧ s.lockTableShare e = none then
        some { s with
          flushed := update s.flushed e false
          purged := update s.purged e false }
      else none
  | .activate =>
      if s.activeInstances < c.tcInstances then
        some { s with activeInstances := s.activeInstances + 1 }
      else none

/-! ## What the cache is to keep -/

/-- **A connection has a TABLE**: open, or in the hands of a function of the cache. -/
def Holds (x : X) (t : T) : Prop :=
  t ∈ s.openTables x ∨ s.pc x = .linking t ∨ s.pc x = .counting t ∨
    (∃ remove, s.pc x = .releasing t remove) ∨ s.pc x = .removing t

/-- **A TABLE counts for an instance**: it is a cached one of it, `tc_add_table` is past the
counter, and its removal is not. -/
def Counts (i : ℕ) (t : T) : Prop :=
  (∃ e, t ∈ s.allTables e) ∧ s.instanceNo t = i ∧ ∀ x, s.pc x ≠ .counting t ∧ s.pc x ≠ .removing t

/-- **The books of the cache.** A cached TABLE is in use by one connection and in no list of free
tables, or is not in use and in the lists of its share and of its instance, once in each and in no
other; each instance counts its tables; and where a flush is through no TABLE is free. -/
structure Kept : Prop where
  placed : ∀ e, ∀ t ∈ s.allTables e,
    (∃ x, s.inUse t = some x ∧ (∀ y, s.Holds y t ↔ y = x) ∧
      (∀ e' i, t ∉ s.shareFreeTables e' i) ∧ ∀ i, t ∉ s.freeTables i) ∨
    (s.inUse t = none ∧ (∀ y, ¬s.Holds y t) ∧
      (∀ e' i, (s.shareFreeTables e' i).count t = if e' = e ∧ i = s.instanceNo t then 1 else 0) ∧
      ∀ i, (s.freeTables i).count t = if i = s.instanceNo t then 1 else 0)
  counted : ∀ i, {t | s.Counts i t}.encard = s.records i
  purged : ∀ e, s.purged e = true →
    (∀ i, s.shareFreeTables e i = []) ∧ ∀ t ∈ s.allTables e, s.inUse t ≠ none

end State

end EloqSql.TableCache
