import EloqSql.Lib.Machine
import Mathlib.Tactic.Simps.Basic
import Mathlib.Logic.Function.Basic
import Mathlib.Data.List.Nodup

/-!
# ThreadPool/Mutex — mutexes held across a yield

A command coroutine that yields unlocks the mutexes it has acquired and keeps them in its list
(`CoroutineYield`); when it is resumed, maybe on another thread, it locks them again
(`ResumeCoroutine`). In between the link of a mutex is all that says that it is taken. The machine
below interleaves any number of coroutines and of plain threads, one access to shared state at a
time. A coroutine looks at the link after every lock, and everybody does after a wait; a plain
thread does not look at it in `mysql_mutex_lock` and `mysql_mutex_trylock`. So a mutex has one owner
along exactly those runs in which no plain thread takes a linked mutex (`exclusive_iff`).
-/

namespace EloqSql

open List

namespace CoroMutex

open Function (update update_apply)

attribute [local simp, local grind =] update_apply

variable {A M : Type*}

/-! ## The machine -/

/-- What a coroutine goes on with once it is resumed. -/
inductive After (M : Type*)
  /-- The code that yielded. -/
  | ret
  /-- The loop of `mysql_coro_mutex_lock`. -/
  | retry (m : M)
  deriving DecidableEq

/-- **Where an agent is.** -/
inductive Pc (M : Type*)
  /-- Outside of the functions below. -/
  | run
  /-- At `inline_mysql_mutex_lock`. -/
  | locking (m : M)
  /-- A coroutine that has the pthread mutex, before it looks at the link. -/
  | checking (m : M) (isTry : Bool)
  /-- Before the `inline_mysql_mutex_unlock` of a mutex another coroutine is linked to. -/
  | busy (m : M) (isTry : Bool)
  /-- Between `list_delete` and `inline_mysql_mutex_unlock`. -/
  | unlocking (m : M)
  /-- Between `list_delete` and `inline_mysql_cond_wait`. -/
  | condRelease (m : M)
  /-- In `inline_mysql_cond_wait`. -/
  | condWaiting (m : M)
  /-- Before the wait or the loop after it has the mutex again. -/
  | condRelock (m : M)
  /-- At the head of the loop after the wait. -/
  | condCheck (m : M)
  /-- At the unlock in that loop. -/
  | condUnlock (m : M)
  /-- In the loop of `CoroutineYield`, with the mutexes it has still to unlock. -/
  | yielding (todo : List M) (k : After M)
  /-- Switched out. -/
  | suspended (k : After M)
  /-- In the loop of `ResumeCoroutine`, with the mutexes it has still to lock. -/
  | resuming (todo : List M) (k : After M)
  deriving DecidableEq

/-- **What an agent does next**: it calls a function, or goes on in the one it is in. -/
inductive Op (M : Type*)
  | lock (m : M)
  | trylock (m : M)
  | unlock (m : M)
  | condWait (m : M)
  | yield
  | resume
  | go

/-- **The shared state**, with where each agent is. -/
structure State (A M : Type*) where
  /-- The holder of the pthread mutex. -/
  owner : M → Option A
  /-- `l.prev != NULL || l.next != NULL`. -/
  linked : M → Bool
  /-- `acquired_mutexes` of a coroutine's connection. -/
  acquired : A → List M
  /-- The mutexes an agent has locked and not unlocked: no code reads it. -/
  held : A → List M
  pc : A → Pc M

namespace State

/-- Before anybody runs. -/
def init : State A M := ⟨fun _ => none, fun _ => false, fun _ => [], fun _ => [], fun _ => .run⟩

variable [DecidableEq A] [DecidableEq M] (s : State A M) (a : A) (m : M)

/-- The pthread mutex is locked. -/
def take : State A M := { s with owner := update s.owner m (some a) }

/-- The pthread mutex is unlocked. -/
def drop : State A M := { s with owner := update s.owner m none }

/-- `add_mutex_to_tls_list`. -/
def link : State A M :=
  { s with acquired := update s.acquired a (m :: s.acquired a)
           linked := update s.linked m true }

/-- `list_delete`, and the link set to `NULL`. -/
def unlink : State A M :=
  { s with acquired := update s.acquired a ((s.acquired a).filter (· ≠ m))
           linked := update s.linked m false }

/-- The lock has succeeded. -/
def enter : State A M := { s with held := update s.held a (m :: s.held a) }

/-- The mutex is unlocked. -/
def leave : State A M :=
  { s with held := update s.held a ((s.held a).filter (· ≠ m)) }

/-- The agent goes to another place. -/
def goto (pc : Pc M) : State A M := { s with pc := update s.pc a pc }

attribute [simps] take drop link unlink enter leave goto

attribute [grind =] take_owner take_linked take_acquired take_held take_pc drop_owner drop_linked
  drop_acquired drop_held drop_pc link_owner link_linked link_acquired link_held link_pc
  unlink_owner unlink_linked unlink_acquired unlink_held unlink_pc enter_owner enter_linked
  enter_acquired enter_held enter_pc leave_owner leave_linked leave_acquired leave_held leave_pc
  goto_owner goto_linked goto_acquired goto_held goto_pc

end State

variable (coro : A → Bool)

/-- Where a resumed coroutine goes on. -/
def After.pc : After M → Pc M
  | .ret => .run
  | .retry m => .locking m

/-- **One step of an agent**; `coro` says whose `tls_mutex_head` is set. An agent unlocks, and waits
with, a mutex that it has locked. -/
def step [DecidableEq A] [DecidableEq M] (s : State A M) : A × Op M → Option (State A M)
  | (a, op) =>
    match s.pc a, op with
    -- `mysql_coro_mutex_lock`
    | .run, .lock m => some (s.goto a (.locking m))
    | .locking m, .go =>
        if s.owner m = none then
          if coro a then some ((s.take a m).goto a (.checking m false))
          else some (((s.take a m).enter a m).goto a .run)
        else none
    -- `mysql_coro_mutex_trylock`
    | .run, .trylock m =>
        if s.owner m = none then
          if coro a then some ((s.take a m).goto a (.checking m true))
          else some ((s.take a m).enter a m)
        else some s
    -- the link is looked at
    | .checking m isTry, .go =>
        if s.linked m then some (s.goto a (.busy m isTry))
        else some (((s.link a m).enter a m).goto a .run)
    | .busy m isTry, .go =>
        some ((s.drop m).goto a (if isTry then .run else .yielding (s.acquired a) (.retry m)))
    -- `mysql_coro_mutex_unlock`
    | .run, .unlock m =>
        if m ∈ s.held a then
          if coro a then some ((s.unlink a m).goto a (.unlocking m))
          else some ((s.drop m).leave a m)
        else none
    | .unlocking m, .go => some (((s.drop m).leave a m).goto a .run)
    -- `mysql_coro_cond_wait`
    | .run, .condWait m =>
        if m ∈ s.held a then
          some ((if coro a then s.unlink a m else s).goto a (.condRelease m))
        else none
    | .condRelease m, .go => some (((s.drop m).leave a m).goto a (.condWaiting m))
    | .condWaiting m, .go => some (s.goto a (.condRelock m))
    | .condRelock m, .go =>
        if s.owner m = none then some ((s.take a m).goto a (.condCheck m)) else none
    | .condCheck m, .go =>
        if s.linked m then some (s.goto a (.condUnlock m))
        else some (((if coro a then s.link a m else s).enter a m).goto a .run)
    | .condUnlock m, .go => some ((s.drop m).goto a (.condRelock m))
    -- `CoroutineYield` and `ResumeCoroutine`
    | .run, .yield => if coro a then some (s.goto a (.yielding (s.acquired a) .ret)) else none
    | .yielding (m :: todo) k, .go => some ((s.drop m).goto a (.yielding todo k))
    | .yielding [] k, .go => some (s.goto a (.suspended k))
    | .suspended k, .resume => some (s.goto a (.resuming (s.acquired a).reverse k))
    | .resuming (m :: todo) k, .go =>
        if s.owner m = none then some ((s.take a m).goto a (.resuming todo k)) else none
    | .resuming [] k, .go => some (s.goto a k.pc)
    | _, _ => none

/-- **No two agents are between a lock of one mutex and its unlock.** -/
def Exclusive (s : State A M) : Prop := ∀ m a b, m ∈ s.held a → m ∈ s.held b → a = b

/-- **A plain thread takes a mutex only while no coroutine is linked to it.** -/
def PlainTakesUnlinked (s : State A M) (e : A × Op M) : Prop :=
  coro e.1 = false → ∀ m, s.owner m = none →
    (s.pc e.1 = .locking m ∧ e.2 matches .go ∨ s.pc e.1 = .run ∧ e.2 = .trylock m) →
      s.linked m = false

/-! ## What a state that keeps the condition looks like -/

/-- The pthread mutex is held, outside of the list. -/
def Pc.Holds : Pc M → M → Prop
  | .checking m _, n | .busy m _, n | .unlocking m, n | .condRelease m, n | .condCheck m, n
  | .condUnlock m, n => m = n
  | _, _ => False

/-- The pthread mutex of a linked mutex is held. -/
def Pc.Keeps : Pc M → M → Prop
  | .yielding todo _, m => m ∈ todo
  | .suspended _, _ => False
  | .resuming todo _, m => m ∉ todo
  | _, _ => True

/-- The mutex is about to be unlocked. -/
def Pc.Leaves : Pc M → M → Prop
  | .unlocking m, n | .condRelease m, n => m = n
  | _, _ => False

/-- A place where an agent holds no pthread mutex but those of its list. -/
def Pc.Quiet : Pc M → Prop
  | .run | .locking _ | .condWaiting _ | .condRelock _ | .suspended _ | .resuming _ _ => True
  | _ => False

/-- A place where an agent holds the pthread mutexes of its list, and is not about to unlock one. -/
def Pc.Awake : Pc M → Prop
  | .run | .locking _ | .checking _ _ | .busy _ _ | .condWaiting _ | .condRelock _ | .condCheck _
  | .condUnlock _ => True
  | _ => False

theorem Pc.holds_of_leaves {pc : Pc M} {m : M} (h : pc.Leaves m) : pc.Holds m := by
  revert h
  cases pc <;> simp [Pc.Leaves, Pc.Holds]

theorem Pc.Awake.keeps {pc : Pc M} (h : pc.Awake) (m : M) : pc.Keeps m := by
  revert h
  cases pc <;> simp [Pc.Awake, Pc.Keeps]

theorem Pc.Awake.not_leaves {pc : Pc M} (h : pc.Awake) (m : M) : ¬ pc.Leaves m := by
  revert h
  cases pc <;> simp [Pc.Awake, Pc.Leaves]

/-- **The invariant.** -/
structure Inv (s : State A M) : Prop where
  linked_iff : ∀ m, s.linked m = true ↔ ∃ a, m ∈ s.acquired a
  acquired_unique : ∀ m a b, m ∈ s.acquired a → m ∈ s.acquired b → a = b
  acquired_nodup : ∀ a, (s.acquired a).Nodup
  acquired_plain : ∀ a, coro a = false → s.acquired a = []
  held_of_acquired : ∀ a m, m ∈ s.acquired a → m ∈ s.held a
  held_coro : ∀ a m, coro a = true → m ∈ s.held a → m ∈ s.acquired a ∨ (s.pc a).Leaves m
  held_plain : ∀ a m, coro a = false → m ∈ s.held a → s.owner m = some a ∧ s.linked m = false
  owner_pc : ∀ a m, (s.pc a).Holds m → s.owner m = some a
  owner_acquired : ∀ a m, m ∈ s.acquired a → (s.pc a).Keeps m → s.owner m = some a
  unlinked : ∀ a m, (s.pc a).Leaves m → s.linked m = false
  fresh : ∀ a m, (s.pc a).Holds m → ¬ (s.pc a).Leaves m → m ∉ s.held a
  checking_coro : ∀ a m t, s.pc a = .checking m t → coro a = true
  yielding : ∀ a todo k, s.pc a = .yielding todo k → todo.Nodup ∧ ∀ m ∈ todo, m ∈ s.acquired a

theorem inv_init : Inv coro (State.init : State A M) := by
  constructor <;> simp [State.init, Pc.Holds, Pc.Leaves]

variable {coro} {s : State A M} {a : A} {m : M}

section

variable (h : Inv coro s)

include h

theorem Inv.notMem_acquired (hlink : s.linked m = false) (c : A) : m ∉ s.acquired c := by
  intro hc
  rw [(h.linked_iff m).2 ⟨c, hc⟩] at hlink
  simp at hlink

theorem Inv.exclusive : Exclusive s := by
  intro m a b ha hb
  have key : ∀ c, m ∈ s.held c → m ∈ s.acquired c ∨ (s.owner m = some c ∧ s.linked m = false) := by
    intro c hc
    cases hcoro : coro c with
    | true =>
      exact (h.held_coro c m hcoro hc).imp_right fun hl =>
        ⟨h.owner_pc c m (Pc.holds_of_leaves hl), h.unlinked c m hl⟩
    | false => exact Or.inr (h.held_plain c m hcoro hc)
  rcases key a ha with ha' | ⟨ha', hna⟩ <;> rcases key b hb with hb' | ⟨hb', hnb⟩
  · exact h.acquired_unique m a b ha' hb'
  · exact absurd ha' (h.notMem_acquired hnb a)
  · exact absurd hb' (h.notMem_acquired hna b)
  · rw [ha'] at hb'
    exact Option.some.inj hb'

/-- An agent that is awake holds the mutexes of its list. -/
theorem Inv.owned (ha : (s.pc a).Awake) : ∀ m ∈ s.acquired a, s.owner m = some a :=
  fun m hm => h.owner_acquired a m hm (ha.keeps m)

/-- An agent that is awake has not locked a mutex whose pthread mutex is free. -/
theorem Inv.notMem_held (ha : (s.pc a).Awake) (hfree : s.owner m = none) : m ∉ s.held a := by
  intro hm
  have hown : s.owner m = some a := by
    cases hcoro : coro a with
    | true =>
      rcases h.held_coro a m hcoro hm with hm | hl
      · exact h.owned ha m hm
      · exact absurd hl (ha.not_leaves m)
    | false => exact (h.held_plain a m hcoro hm).1
  rw [hfree] at hown
  simp at hown

/-! ## The steps -/

variable [DecidableEq M]

/-- A free pthread mutex is locked: nobody relied on it. -/
theorem Inv.take (hfree : s.owner m = none) : Inv coro (s.take a m) :=
  { h with
    held_plain := by grind [Inv]
    owner_pc := by grind [Inv]
    owner_acquired := by grind [Inv] }

/-- An agent unlocks a pthread mutex that it does not have to hold. -/
theorem Inv.drop (hown : s.owner m = some a) (hpc : ¬ (s.pc a).Holds m)
    (hkeep : m ∈ s.acquired a → ¬ (s.pc a).Keeps m) (hheld : coro a = false → m ∉ s.held a) :
    Inv coro (s.drop m) :=
  { h with
    held_plain := by grind [Inv]
    owner_pc := by grind [Inv]
    owner_acquired := by grind [Inv] }

variable [DecidableEq A]

/-- An agent moves on to a place where it relies on no more than it has. -/
theorem Inv.goto {pc : Pc M} (hholds : ∀ m, pc.Holds m → s.owner m = some a)
    (hkeeps : ∀ m ∈ s.acquired a, pc.Keeps m → s.owner m = some a)
    (hleaves : ∀ m, pc.Leaves m → s.linked m = false)
    (hstay : ∀ m ∈ s.held a, (s.pc a).Leaves m → pc.Leaves m)
    (hfresh : ∀ m, pc.Holds m → ¬ pc.Leaves m → m ∉ s.held a)
    (hcheck : ∀ m t, pc = .checking m t → coro a = true)
    (hyield : ∀ todo k, pc = .yielding todo k → todo.Nodup ∧ ∀ m ∈ todo, m ∈ s.acquired a) :
    Inv coro (s.goto a pc) :=
  { h with
    held_coro := by grind [Inv]
    owner_pc := by grind [Inv]
    owner_acquired := by grind [Inv]
    unlinked := by grind [Inv]
    fresh := by grind [Inv]
    checking_coro := by grind [Inv]
    yielding := by grind [Inv] }

/-- A coroutine links a mutex that it holds and that is not linked. -/
theorem Inv.acquire (hcoro : coro a = true) (hown : s.owner m = some a)
    (hlink : s.linked m = false) (hpc : ¬ (s.pc a).Holds m) :
    Inv coro ((s.link a m).enter a m) := by
  have hfree := h.notMem_acquired hlink
  have hholds : ∀ c, ¬ (s.pc c).Holds m := by
    intro c hc
    have := h.owner_pc c m hc
    rw [hown] at this
    exact hpc (Option.some.inj this ▸ hc)
  have hleave : ∀ c, ¬ (s.pc c).Leaves m := fun c hc => hholds c (Pc.holds_of_leaves hc)
  exact
  { h with
    linked_iff := by
      intro n
      by_cases hn : n = m
      · subst hn
        exact ⟨fun _ => ⟨a, by simp⟩, fun _ => by simp⟩
      · simp only [State.enter_linked, State.link_linked, update_apply, if_neg hn,
          h.linked_iff, State.enter_acquired]
        refine exists_congr fun c => ?_
        grind
    acquired_unique := by grind [Inv]
    acquired_nodup := by grind [Inv]
    acquired_plain := by grind [Inv]
    held_of_acquired := by grind [Inv]
    held_coro := by grind [Inv]
    held_plain := by grind [Inv]
    owner_acquired := by grind [Inv]
    unlinked := by grind [Inv]
    fresh := by grind [Inv]
    yielding := by grind [Inv] }

omit [DecidableEq M] in
/-- A plain thread has locked a mutex that is not linked. -/
theorem Inv.enter (hcoro : coro a = false) (hown : s.owner m = some a)
    (hlink : s.linked m = false) (hpc : ¬ (s.pc a).Holds m) : Inv coro (s.enter a m) :=
  { h with
    held_of_acquired := by grind [Inv]
    held_coro := by grind [Inv]
    held_plain := by grind [Inv]
    fresh := by grind [Inv] }

/-- A mutex that is not linked is given up. -/
theorem Inv.leave (hlink : s.linked m = false) : Inv coro (s.leave a m) :=
  { h with
    held_of_acquired := by
      intro c n hn
      have hne : n ≠ m := fun heq => h.notMem_acquired hlink c (heq ▸ hn)
      have := h.held_of_acquired c n hn
      grind
    held_coro := by grind [Inv]
    held_plain := by grind [Inv]
    fresh := by grind [Inv] }

/-- A coroutine takes a mutex out of its list, and is about to unlock it. -/
theorem Inv.release {pc : Pc M} (hcoro : coro a = true) (hheld : m ∈ s.held a)
    (hrun : s.pc a = .run) (hpc : pc = .unlocking m ∨ pc = .condRelease m) :
    Inv coro ((s.unlink a m).goto a pc) := by
  have hm := (h.held_coro a m hcoro hheld).resolve_right (by rw [hrun]; exact id)
  have hother : ∀ c, m ∈ s.acquired c → c = a := fun c hc => h.acquired_unique m c a hc hm
  have hown : ∀ n ∈ s.acquired a, s.owner n = some a := fun n hn =>
    h.owner_acquired a n hn (by rw [hrun]; trivial)
  have hstay : ∀ n, ¬ (s.pc a).Leaves n := by
    rw [hrun]
    exact fun _ => id
  have hholds : ∀ n, pc.Holds n ↔ n = m := by
    rcases hpc with rfl | rfl <;> exact fun n => eq_comm
  have hleaves : ∀ n, pc.Leaves n ↔ n = m := by
    rcases hpc with rfl | rfl <;> exact fun n => eq_comm
  exact
  { h with
    linked_iff := by
      intro n
      by_cases hn : n = m
      · subst hn
        grind
      · simp only [State.goto_linked, State.unlink_linked, update_apply, if_neg hn,
          h.linked_iff, State.goto_acquired]
        refine exists_congr fun c => ?_
        grind
    acquired_unique := by grind [Inv]
    acquired_nodup := by
      intro c
      have := h.acquired_nodup c
      simp only [State.goto_acquired, State.unlink_acquired, update_apply]
      split_ifs with hc
      · exact (hc ▸ this).filter _
      · exact this
    acquired_plain := by grind [Inv]
    held_of_acquired := by grind [Inv]
    held_coro := by grind [Inv]
    held_plain := by grind [Inv]
    owner_pc := by grind [Inv]
    owner_acquired := by grind [Inv]
    unlinked := by grind [Inv]
    fresh := by grind [Inv]
    checking_coro := by grind [Inv]
    yielding := by grind [Inv] }

theorem Inv.goto_quiet {pc : Pc M} (hq : pc.Quiet)
    (hkeeps : ∀ m ∈ s.acquired a, pc.Keeps m → s.owner m = some a)
    (hstay : ∀ m ∈ s.held a, ¬ (s.pc a).Leaves m := by simp [*, Pc.Leaves]) :
    Inv coro (s.goto a pc) := by
  have hnone : (∀ m, ¬ pc.Holds m) ∧ (∀ m, ¬ pc.Leaves m) ∧ (∀ m t, pc ≠ .checking m t) ∧
      ∀ todo k, pc ≠ .yielding todo k := by
    revert hq
    cases pc <;> simp [Pc.Quiet, Pc.Holds, Pc.Leaves]
  obtain ⟨h1, h2, h3, h4⟩ := hnone
  exact h.goto (fun m hm => absurd hm (h1 m)) hkeeps (fun m hm => absurd hm (h2 m))
    (fun m hm hl => absurd hl (hstay m hm)) (fun m hm => absurd hm (h1 m))
    (fun m t he => absurd he (h3 m t)) (fun todo k he => absurd he (h4 todo k))

theorem Inv.goto_awake {pc : Pc M} (hq : pc.Quiet)
    (ha : (s.pc a).Awake := by simp only [*, Pc.Awake]) : Inv coro (s.goto a pc) :=
  h.goto_quiet hq (fun n hn _ => h.owned ha n hn) fun n _ => ha.not_leaves n

/-- An agent that is awake takes a free pthread mutex and looks at it next. -/
theorem Inv.take_goto {pc : Pc M} (hfree : s.owner m = none)
    (hpc : (∃ t, pc = .checking m t ∧ coro a = true) ∨ pc = .condCheck m)
    (ha : (s.pc a).Awake := by simp only [*, Pc.Awake]) :
    Inv coro ((s.take a m).goto a pc) := by
  have hheld := h.notMem_held ha hfree
  have hholds : ∀ n, pc.Holds n → n = m := by
    rcases hpc with ⟨t, rfl, -⟩ | rfl <;> exact fun n hn => hn.symm
  have hleaves : ∀ n, ¬ pc.Leaves n := by
    rcases hpc with ⟨t, rfl, -⟩ | rfl <;> exact fun n => id
  refine (h.take hfree).goto ?_ ?_ (fun n hn => absurd hn (hleaves n))
    (fun n _ hl => absurd hl (ha.not_leaves n)) ?_ ?_ ?_
  · intro n hn
    rw [hholds n hn]
    simp
  · intro n hn _
    have := h.owned ha n hn
    grind
  · intro n hn _
    rw [hholds n hn]
    exact hheld
  · rintro n t rfl
    rcases hpc with ⟨_, -, hcoro⟩ | hpc
    · exact hcoro
    · simp at hpc
  · rintro todo k rfl
    rcases hpc with ⟨_, hpc, -⟩ | hpc <;> simp at hpc

/-- An agent that is awake finds the mutex linked, and still holds its pthread mutex. -/
theorem Inv.goto_linked {pc : Pc M} (hpc : (∃ t, pc = .busy m t) ∨ pc = .condUnlock m)
    (hholds : (s.pc a).Holds m := by simp only [*, Pc.Holds])
    (ha : (s.pc a).Awake := by simp only [*, Pc.Awake]) : Inv coro (s.goto a pc) := by
  have hm : ∀ n, pc.Holds n → m = n := by
    rcases hpc with ⟨t, rfl⟩ | rfl <;> exact fun n => id
  refine h.goto (fun n hn => hm n hn ▸ h.owner_pc a m hholds) (fun n hn _ => h.owned ha n hn) ?_
    (fun n _ hl => absurd hl (ha.not_leaves n))
    (fun n hn _ => hm n hn ▸ h.fresh a m hholds (ha.not_leaves m)) ?_ ?_ <;>
  rcases hpc with ⟨t, rfl⟩ | rfl <;> simp [Pc.Leaves]

/-- A plain thread takes a free pthread mutex that is not linked, and has locked it. -/
theorem Inv.take_enter (hq : (s.pc a).Quiet) (hfree : s.owner m = none)
    (hcoro : coro a = false) (hlink : s.linked m = false) : Inv coro ((s.take a m).enter a m) := by
  refine (h.take hfree).enter hcoro (by simp) hlink ?_
  revert hq
  rw [State.take_pc]
  cases s.pc a <;> simp [Pc.Quiet, Pc.Holds]

/-- An agent unlocks the pthread mutex it holds besides its list, and goes on. -/
theorem Inv.drop_goto {pc : Pc M} (hgoto : Inv coro (s.goto a pc))
    (hpc : ¬ pc.Holds m := by simp [Pc.Holds])
    (hholds : (s.pc a).Holds m := by simp only [*, Pc.Holds])
    (ha : (s.pc a).Awake := by simp only [*, Pc.Awake]) : Inv coro ((s.drop m).goto a pc) := by
  have hheld := h.fresh a m hholds (ha.not_leaves m)
  refine Inv.drop (s := s.goto a pc) (a := a) hgoto (h.owner_pc a m hholds) (by simpa using hpc)
    (fun hm => absurd (h.held_of_acquired a m hm) hheld) fun _ => hheld

/-- A coroutine that is awake starts to yield. -/
theorem Inv.goto_yielding {k : After M} (ha : (s.pc a).Awake := by simp only [*, Pc.Awake]) :
    Inv coro (s.goto a (.yielding (s.acquired a) k)) := by
  refine h.goto (fun n hn => hn.elim) (fun n hn _ => h.owned ha n hn) (fun n hn => hn.elim)
    (fun n _ hl => absurd hl (ha.not_leaves n)) (fun n hn => hn.elim) (by simp) ?_
  rintro todo k' he
  obtain ⟨rfl, -⟩ := Pc.yielding.inj he
  exact ⟨h.acquired_nodup a, fun _ hn => hn⟩

/-- The mutex that is about to be unlocked is. -/
theorem Inv.leave_goto {pc : Pc M} (hpc : s.pc a = .unlocking m ∨ s.pc a = .condRelease m)
    (hquiet : match pc with | .run | .condWaiting _ => True | _ => False) :
    Inv coro (((s.drop m).leave a m).goto a pc) := by
  have hl : ∀ n, (s.pc a).Leaves n ↔ m = n := by
    rcases hpc with hpc | hpc <;> rw [hpc] <;> exact fun n => Iff.rfl
  have hk : ∀ n, (s.pc a).Keeps n := by
    rcases hpc with hpc | hpc <;> rw [hpc] <;> exact fun n => trivial
  have hlink := h.unlinked a m ((hl m).2 rfl)
  have hown := h.owner_pc a m (Pc.holds_of_leaves ((hl m).2 rfl))
  have hq : pc.Quiet ∧ ∀ n, ¬ pc.Holds n := by
    revert hquiet
    cases pc <;> simp [Pc.Quiet, Pc.Holds]
  have hgoto : Inv coro ((s.leave a m).goto a pc) := by
    refine (h.leave hlink).goto_quiet hq.1 (fun n hn _ => h.owner_acquired a n hn (hk n)) ?_
    intro n hn
    rw [State.leave_pc, hl]
    rintro rfl
    simp at hn
  exact hgoto.drop (s := (s.leave a m).goto a pc) (a := a) hown (by simpa using hq.2 m)
    (fun hm => absurd hm (h.notMem_acquired hlink a)) (by simp)

/-- **A step within the condition keeps the invariant.** -/
theorem Inv.step {s' : State A M} {e : A × Op M}
    (hc : PlainTakesUnlinked coro s e) (hs : step coro s e = some s') : Inv coro s' := by
  obtain ⟨a, op⟩ := e
  simp only [CoroMutex.step] at hs
  split at hs
  -- `mysql_coro_mutex_lock`
  · rename_i m hpc
    cases hs
    exact h.goto_awake trivial
  · rename_i m hpc
    split_ifs at hs with hfree hcoro <;> cases hs
    · exact h.take_goto hfree (Or.inl ⟨_, rfl, hcoro⟩)
    · have hlink := hc (by simpa using hcoro) m hfree (Or.inl ⟨hpc, rfl⟩)
      have hrun : Inv coro (s.goto a .run) := h.goto_awake trivial
      exact hrun.take_enter (by simp [Pc.Quiet]) hfree (by simpa using hcoro) hlink
  -- `mysql_coro_mutex_trylock`
  · rename_i m hpc
    split_ifs at hs with hfree hcoro <;> cases hs
    · exact h.take_goto hfree (Or.inl ⟨_, rfl, hcoro⟩)
    · have hlink := hc (by simpa using hcoro) m hfree (Or.inr ⟨hpc, rfl⟩)
      exact h.take_enter (by rw [hpc]; trivial) hfree (by simpa using hcoro) hlink
    · exact h
  -- the link is looked at
  · rename_i m isTry hpc
    have hown := h.owner_pc a m (by rw [hpc]; rfl)
    have hcoro := h.checking_coro a m isTry hpc
    split_ifs at hs with hlink <;> cases hs
    · exact h.goto_linked (Or.inl ⟨_, rfl⟩)
    · have hrun : Inv coro (s.goto a .run) := h.goto_awake trivial
      exact hrun.acquire hcoro hown (by simpa using hlink) (by simp [Pc.Holds])
  · rename_i m isTry hpc
    cases hs
    cases isTry with
    | true => exact h.drop_goto (h.goto_awake trivial)
    | false => exact h.drop_goto h.goto_yielding
  -- `mysql_coro_mutex_unlock`
  · rename_i m hpc
    split_ifs at hs with hheld hcoro <;> cases hs
    · exact h.release hcoro hheld hpc (Or.inl rfl)
    · obtain ⟨hown, hlink⟩ := h.held_plain a m (by simpa using hcoro) hheld
      refine (h.leave hlink).drop (s := s.leave a m) (a := a) hown ?_ ?_ ?_
      · rw [State.leave_pc, hpc]
        exact id
      · intro hm
        rw [State.leave_acquired, h.acquired_plain a (by simpa using hcoro)] at hm
        simp at hm
      · simp
  · rename_i m hpc
    cases hs
    exact h.leave_goto (Or.inl hpc) trivial
  -- `mysql_coro_cond_wait`
  · rename_i m hpc
    split_ifs at hs with hheld hcoro <;> cases hs
    · exact h.release hcoro hheld hpc (Or.inr rfl)
    · obtain ⟨hown, hlink⟩ := h.held_plain a m (by simpa using hcoro) hheld
      have ha : (s.pc a).Awake := hpc ▸ trivial
      refine h.goto ?_ (fun n hn _ => h.owned ha n hn) ?_
        (fun n _ hl => absurd hl (ha.not_leaves n))
        (fun n hn hl => absurd hn hl) (by simp) (by simp)
      · rintro n rfl
        exact hown
      · rintro n rfl
        exact hlink
  · rename_i m hpc
    cases hs
    exact h.leave_goto (Or.inr hpc) trivial
  · rename_i m hpc
    cases hs
    exact h.goto_awake trivial
  · rename_i m hpc
    split_ifs at hs with hfree
    cases hs
    exact h.take_goto hfree (Or.inr rfl)
  · rename_i m hpc
    have hown := h.owner_pc a m (by rw [hpc]; rfl)
    have hrun : Inv coro (s.goto a .run) := h.goto_awake trivial
    split_ifs at hs with hlink hcoro <;> cases hs
    · exact h.goto_linked (Or.inr rfl)
    · exact hrun.acquire hcoro hown (by simpa using hlink) (by simp [Pc.Holds])
    · exact hrun.enter (by simpa using hcoro) hown (by simpa using hlink) (by simp [Pc.Holds])
  · rename_i m hpc
    cases hs
    exact h.drop_goto (h.goto_awake trivial)
  -- `CoroutineYield`
  · rename_i hpc
    split_ifs at hs with hcoro
    cases hs
    exact h.goto_yielding
  · rename_i m todo k hpc
    cases hs
    obtain ⟨hnodup, hsub⟩ := h.yielding a _ k hpc
    rw [nodup_cons] at hnodup
    have hown : ∀ n ∈ m :: todo, s.owner n = some a := fun n hn =>
      h.owner_acquired a n (hsub n hn) (by rw [hpc]; exact hn)
    have hgoto : Inv coro (s.goto a (.yielding todo k)) := by
      refine h.goto (fun n hn => hn.elim) (fun n hn hk => hown n (mem_cons_of_mem _ hk))
        (fun n hn => hn.elim) ?_ (fun n hn => hn.elim) (by simp) ?_
      · intro n _ hl
        rw [hpc] at hl
        exact hl.elim
      · rintro todo' k' he
        obtain ⟨rfl, -⟩ := Pc.yielding.inj he
        exact ⟨hnodup.2, fun n hn => hsub n (mem_cons_of_mem _ hn)⟩
    refine hgoto.drop (s := s.goto a _) (a := a) (hown m mem_cons_self) ?_ ?_ ?_
    · simp [Pc.Holds]
    · simpa [Pc.Keeps] using fun _ => hnodup.1
    · intro hcoro
      have := hsub m mem_cons_self
      rw [h.acquired_plain a hcoro] at this
      simp at this
  · rename_i k hpc
    cases hs
    exact h.goto_quiet trivial fun n _ hk => hk.elim
  -- `ResumeCoroutine`
  · rename_i k hpc
    cases hs
    exact h.goto_quiet trivial fun n hn hk => absurd (mem_reverse.2 hn) hk
  · rename_i m todo k hpc
    split_ifs at hs with hfree
    cases hs
    refine (h.take hfree).goto_quiet trivial fun n hn hk => ?_
    by_cases hnm : n = m
    · simp [hnm]
    · have := h.owner_acquired a n hn (by
        rw [hpc]
        simp only [Pc.Keeps, mem_cons, not_or]
        exact ⟨hnm, hk⟩)
      simpa [hnm] using this
  · rename_i k hpc
    cases hs
    refine h.goto_quiet (by cases k <;> trivial) fun n hn _ => ?_
    exact h.owner_acquired a n hn (by rw [hpc]; simp [Pc.Keeps])
  · simp at hs

/-- **A plain thread that takes a linked mutex is inside with the coroutine that yielded.** -/
theorem Inv.not_exclusive {s' : State A M} {e : A × Op M}
    (hc : ¬ PlainTakesUnlinked coro s e) (hs : CoroMutex.step coro s e = some s') :
    ¬ Exclusive s' := by
  obtain ⟨a, op⟩ := e
  simp only [PlainTakesUnlinked, not_forall, Bool.not_eq_false] at hc
  obtain ⟨hcoro, m, hfree, hwhere, hlink⟩ := hc
  obtain ⟨c, hm⟩ := (h.linked_iff m).1 hlink
  have hne : c ≠ a := by
    rintro rfl
    rw [h.acquired_plain c hcoro] at hm
    simp at hm
  have hheld := h.held_of_acquired c m hm
  have hin : m ∈ s'.held a ∧ m ∈ s'.held c := by
    rcases hwhere with ⟨hpc, hgo⟩ | ⟨hpc, rfl⟩
    · cases op <;> simp only [Bool.false_eq_true] at hgo
      simp only [CoroMutex.step, hpc, if_pos hfree, hcoro, Bool.false_eq_true, if_false] at hs
      cases hs
      simp [hne, hheld]
    · simp only [CoroMutex.step, hpc, if_pos hfree, hcoro, Bool.false_eq_true, if_false] at hs
      cases hs
      simp [hne, hheld]
  exact fun hex => hne (hex m c a hin.2 hin.1)

end

/-! ## The result -/

/-- **Mutex ownership survives a yield along exactly the runs in which no plain thread takes a
mutex that a coroutine is linked to**: for any agents, any mutexes and any interleaving. -/
theorem exclusive_iff [DecidableEq A] [DecidableEq M] (coro : A → Bool)
    (es : List (A × Op M)) :
    Machine.Safe (step coro) Exclusive State.init es ↔
      Machine.Meets (step coro) (PlainTakesUnlinked coro) State.init es :=
  Machine.safe_iff_meets (fun _ h => h.exclusive) (fun _ _ _ h hc hs => h.step hc hs)
    (fun _ _ _ h hc hs => h.not_exclusive hc hs) (inv_init coro)

/-- A coroutine (`false`) locks the mutex and yields; then a plain thread (`true`) locks it. -/
def sampleRun : List (Bool × Op Unit) :=
  [(false, .lock ()), (false, .go), (false, .go), (false, .yield), (false, .go), (false, .go),
    (true, .lock ()), (true, .go)]

/-- **Both are inside.** -/
theorem not_exclusive_sampleRun :
    (Machine.exec (step (· = false)) State.init sampleRun).map
        (fun s => (s.held false, s.held true)) = some ([()], [()]) ∧
      ¬ Machine.Safe (step (· = false)) Exclusive State.init sampleRun := by
  have hend : (Machine.exec (step (· = false)) State.init sampleRun).map
      (fun s => (s.held false, s.held true)) = some ([()], [()]) := by decide
  refine ⟨hend, ?_⟩
  obtain ⟨s, hs, hheld⟩ := Option.map_eq_some_iff.1 hend
  obtain ⟨hfalse, htrue⟩ := Prod.mk.inj hheld
  refine Machine.not_safe_of_exec hs fun hex => ?_
  exact absurd (hex () false true (by simp [hfalse]) (by simp [htrue])) (by simp)

end CoroMutex

end EloqSql
