import EloqSql.TableCache

/-!
# TableCache/Places — where each TABLE is

A TABLE is at one place at a time: not allocated, free, or with a connection at some stage of a
function of the cache. Its place, its share and its instance say in which lists it is to be
(`Slot.Wants`) and whether its instance counts it, and the invariant `Inv` says that the lists and
the counts are those. Each function of the cache takes one TABLE from a place to another, or two,
one after the other; `Inv.move` says what that asks of the lists that the TABLE leaves or comes to.
-/

namespace EloqSql.TableCache

open List

open Function (update update_apply update_of_ne update_self)

/-- What a connection does with a TABLE it has. -/
inductive Stage
  | linking
  | counting
  | opened
  | releasing
  | removing
  | closing
  deriving DecidableEq

/-- The TABLE is in `all_tables`. -/
def Stage.linked : Stage → Bool
  | .linking | .closing => false
  | _ => true

/-- The TABLE is in the count of its instance. -/
def Stage.counted : Stage → Bool
  | .opened | .releasing => true
  | _ => false

/-- **Where a TABLE is.** -/
inductive Place (X : Type*)
  | gone
  | free
  | held (x : X) (stage : Stage)
  deriving DecidableEq

variable {X E T : Type*}

def Place.linked : Place X → Bool
  | .gone => false
  | .free => true
  | .held _ stage => stage.linked

def Place.counted : Place X → Bool
  | .gone => false
  | .free => true
  | .held _ stage => stage.counted

/-- **Who uses a TABLE**, by its place. -/
def Place.Uses : Place X → Option X → Prop
  | .gone, _ | .held _ .closing, _ => True
  | .free, user => user = none
  | .held x _, user => user = some x

/-- The tables that a connection has at a stage, by where it is. -/
def Pc.held : Pc E T → Stage → List T
  | .linking t, .linking | .counting t, .counting | .releasing t _, .releasing
  | .removing t, .removing => [t]
  | .walking _ ts, .closing | .sweeping _ _ ts _, .closing | .closing ts, .closing => ts
  | _, _ => []

theorem Pc.mem_held_linking {pc : Pc E T} {t : T} : t ∈ pc.held .linking ↔ pc = .linking t := by
  cases pc <;> simp [Pc.held, eq_comm]

theorem Pc.mem_held_counting {pc : Pc E T} {t : T} : t ∈ pc.held .counting ↔ pc = .counting t := by
  cases pc <;> simp [Pc.held, eq_comm]

theorem Pc.mem_held_releasing {pc : Pc E T} {t : T} :
    t ∈ pc.held .releasing ↔ ∃ remove, pc = .releasing t remove := by
  cases pc <;> simp [Pc.held, eq_comm]

theorem Pc.mem_held_removing {pc : Pc E T} {t : T} : t ∈ pc.held .removing ↔ pc = .removing t := by
  cases pc <;> simp [Pc.held, eq_comm]

/-! ## Lists and counts of tables with a property -/

/-- **A list enumerates a property**: it has each TABLE with the property once and no other. -/
def Enumerates (l : List T) (P : T → Prop) : Prop := l.Nodup ∧ ∀ t, t ∈ l ↔ P t

/-- **One TABLE of a list may have come or gone**: it is in the new list if and only if `now`. -/
structure Relisted (l l' : List T) (t : T) (now : Prop) : Prop where
  nodup : l'.Nodup
  mem : t ∈ l' ↔ now
  other : ∀ u, u ≠ t → (u ∈ l' ↔ u ∈ l)

/-- **There are `n` tables with a property.** -/
def Tally (P : T → Prop) (n : ℕ) : Prop := {t | P t}.encard = n

section

variable {P Q : T → Prop} {l l' : List T} {now : Prop} {n n' : ℕ} {t : T}

theorem Enumerates.relisted (h : Enumerates l P) (hl : Relisted l l' t now) (ht : Q t ↔ now)
    (hother : ∀ u, u ≠ t → (Q u ↔ P u)) : Enumerates l' Q := by
  refine ⟨hl.nodup, fun u => ?_⟩
  by_cases hu : u = t
  · rw [hu, hl.mem, ht]
  · rw [hl.other u hu, h.2, hother u hu]

theorem Relisted.same (hl : l.Nodup) (h : t ∈ l ↔ now) : Relisted l l t now :=
  ⟨hl, h, fun _ _ => Iff.rfl⟩

theorem Relisted.cons (hl : l.Nodup) (ht : t ∉ l) (hnow : now) : Relisted l (t :: l) t now :=
  ⟨nodup_cons.2 ⟨ht, hl⟩, by simp [hnow], fun u hu => by simp [hu]⟩

theorem Relisted.concat (hl : l.Nodup) (ht : t ∉ l) (hnow : now) : Relisted l (l ++ [t]) t now :=
  ⟨concat_eq_append ▸ hl.concat ht, by simp [hnow], fun u hu => by simp [hu]⟩

theorem Relisted.tail (hl : (t :: l).Nodup) (hnow : ¬now) : Relisted (t :: l) l t now :=
  ⟨(nodup_cons.1 hl).2, iff_of_false (nodup_cons.1 hl).1 hnow, fun u hu => by simp [hu]⟩

theorem Relisted.erase [DecidableEq T] (hl : l.Nodup) (hnow : ¬now) :
    Relisted l (l.erase t) t now :=
  ⟨hl.erase t, iff_of_false hl.not_mem_erase hnow, fun _ hu => mem_erase_of_ne hu⟩

theorem Tally.congr (h : Tally P n) (hQ : ∀ u, Q u ↔ P u) : Tally Q n := by
  rwa [show Q = P from funext fun u => propext (hQ u)]

/-- One TABLE may have come or gone, and the count with it. -/
theorem Tally.moved [Decidable (P t)] [Decidable (Q t)] (h : Tally P n)
    (hother : ∀ u, u ≠ t → (Q u ↔ P u))
    (hn : n' + (if P t then 1 else 0) = n + if Q t then 1 else 0) : Tally Q n' := by
  have hP : {u | P u}.encard = n := h
  by_cases hp : P t <;> by_cases hq : Q t <;> simp only [hp, hq, if_true, if_false] at hn
  · obtain rfl : n' = n := by omega
    exact h.congr fun u => by by_cases hu : u = t <;> simp_all
  · have hset : {u | Q u} = {u | P u} \ {t} := by
      ext u
      by_cases hu : u = t <;> simp_all
    rw [Tally, hset, Set.encard_sdiff_singleton_of_mem (s := {u | P u}) hp, hP,
      show n = n' + 1 by omega]
    rfl
  · have hset : {u | Q u} = Insert.insert t {u | P u} := by
      ext u
      by_cases hu : u = t <;> simp_all
    rw [Tally, hset, Set.encard_insert_of_notMem (s := {u | P u}) hp, hP,
      show n' = n + 1 by omega]
    rfl
  · obtain rfl : n' = n := by omega
    exact h.congr fun u => by by_cases hu : u = t <;> simp_all

end

/-! ## The invariant -/

/-- **The lists of tables.** -/
inductive Slot (X E : Type*)
  | all (e : E)
  | shareFree (e : E) (i : ℕ)
  | free (i : ℕ)
  | held (x : X) (stage : Stage)

/-- The tables of a list. -/
def State.list (s : State X E T) : Slot X E → List T
  | .all e => s.allTables e
  | .shareFree e i => s.shareFreeTables e i
  | .free i => s.freeTables i
  | .held x .opened => s.openTables x
  | .held x stage => (s.pc x).held stage

theorem State.list_held (s : State X E T) (x : X) {stage : Stage} (h : stage ≠ .opened) :
    s.list (.held x stage) = (s.pc x).held stage := by
  cases stage with
  | opened => exact absurd rfl h
  | _ => rfl

/-- Whether a TABLE is to be in a list, by its share, its instance and its place. -/
def Slot.Wants : Slot X E → Option E → ℕ → Place X → Prop
  | .all e, share, _, p => share = some e ∧ p.linked
  | .shareFree e i, share, instanceNo, p => share = some e ∧ instanceNo = i ∧ p = .free
  | .free i, _, instanceNo, p => instanceNo = i ∧ p = .free
  | .held x stage, _, _, p => p = .held x stage

/-- **Every TABLE is where the lists, the counts and the connections say.** -/
structure Inv (c : Config) (s : State X E T) (place : T → Place X) : Prop where
  active_pos : 0 < s.activeInstances
  active_le : s.activeInstances ≤ c.tcInstances
  lists : ∀ slot, Enumerates (s.list slot) fun t =>
    slot.Wants (s.share t) (s.instanceNo t) (place t)
  records : ∀ i, Tally (fun t => s.instanceNo t = i ∧ (place t).counted) (s.records i)
  gone : ∀ t, s.share t = none ↔ place t = .gone
  bound : ∀ t, place t ≠ .gone → s.instanceNo t < c.tcInstances
  uses : ∀ t, (place t).Uses (s.inUse t)

variable {c : Config} {s s' : State X E T} {place : T → Place X} {x : X} {t : T} {e : E} {i : ℕ}

section

variable (h : Inv c s place)

include h

theorem Inv.place_of_mem (slot : Slot X E) (ht : t ∈ s.list slot) :
    slot.Wants (s.share t) (s.instanceNo t) (place t) :=
  ((h.lists slot).2 t).1 ht

theorem Inv.not_mem (slot : Slot X E)
    (ht : ¬slot.Wants (s.share t) (s.instanceNo t) (place t)) : t ∉ s.list slot :=
  fun hmem => ht (h.place_of_mem slot hmem)

theorem Inv.nodup (slot : Slot X E) : (s.list slot).Nodup := (h.lists slot).1

/-- A TABLE that is about to be released is allocated and in hand. -/
theorem Inv.place_releasing {remove : Bool}
    (hpc : s.pc x = .releasing t remove) : place t = .held x .releasing :=
  h.place_of_mem (.held x .releasing) (Pc.mem_held_releasing.2 ⟨_, hpc⟩)

/-- The instance of a counted TABLE counts something. -/
theorem Inv.records_pos (ht : (place t).counted) : 0 < s.records (s.instanceNo t) := by
  have hcard : {u | s.instanceNo u = s.instanceNo t ∧ (place u).counted}.encard =
    s.records (s.instanceNo t) := h.records _
  have hne : {u | s.instanceNo u = s.instanceNo t ∧ (place u).counted}.Nonempty := ⟨t, rfl, ht⟩
  have hpos := Set.encard_pos.2 hne
  rw [hcard] at hpos
  exact_mod_cast hpos

/-- A TABLE leaves the count of its instance. -/
theorem Inv.records_sub_one {p₀ p : Place X} (hplace : place t = p₀)
    (hp₀ : p₀.counted = true) (hp : p.counted = false) (i : ℕ) :
    update s.records (s.instanceNo t) (s.records (s.instanceNo t) - 1) i +
        (if s.instanceNo t = i ∧ p₀.counted then 1 else 0) =
      s.records i + if s.instanceNo t = i ∧ p.counted then 1 else 0 := by
  have hpos := h.records_pos (hplace ▸ hp₀)
  by_cases hi : i = s.instanceNo t
  · subst hi
    simp only [update_self, hp₀, hp, and_self, if_true, Bool.false_eq_true, and_false,
      if_false]
    omega
  · simp [hi, Ne.symm hi]

/-- A list that stays as it is. -/
theorem Inv.relisted_same {slot : Slot X E} {now : Prop} (hl : s'.list slot = s.list slot)
    (hnow : slot.Wants (s.share t) (s.instanceNo t) (place t) ↔ now) :
    Relisted (s.list slot) (s'.list slot) t now := by
  rw [hl]
  exact .same (h.nodup slot) (((h.lists slot).2 t).trans hnow)

/-- What leaves the tables and their lists alone. -/
theorem Inv.congr (hpos : 0 < s'.activeInstances)
    (hle : s'.activeInstances ≤ c.tcInstances) (hlists : ∀ slot, s'.list slot = s.list slot)
    (hrecords : s'.records = s.records) (hshare : s'.share = s.share)
    (hinstance : s'.instanceNo = s.instanceNo) (huse : s'.inUse = s.inUse) : Inv c s' place where
  active_pos := hpos
  active_le := hle
  lists slot := by
    rw [hlists, hshare, hinstance]
    exact h.lists slot
  records i := by
    rw [hrecords, hinstance]
    exact h.records i
  gone t := by rw [hshare, h.gone]
  bound t := by
    rw [hinstance]
    exact h.bound t
  uses t := by
    rw [huse]
    exact h.uses t

/-- The mutex and the marks of a share. -/
theorem Inv.mark (lock : E → Option X) (flushed purged : E → Bool) :
    Inv c { s with lockTableShare := lock, flushed := flushed, purged := purged } place :=
  h.congr h.active_pos h.active_le (fun _ => rfl) rfl rfl rfl rfl

end

/-! ## Lists that a TABLE comes to or leaves -/

section

variable {p : Place X} {l : List T} {sh : Option E}

section

variable (h : Inv c s place)

include h

/-- `all_tables` of its share. -/
theorem Inv.relisted_all [DecidableEq E] (he : s.share t = some e)
    (hl : Relisted (s.allTables e) l t p.linked) (e' : E) :
    Relisted (s.allTables e') (update s.allTables e l e') t
      ((Slot.all e' : Slot X E).Wants (s.share t) i p) := by
  rw [Slot.Wants, he]
  by_cases hee : e' = e
  · subst hee
    rw [update_self]
    exact ⟨hl.nodup, by simp [hl.mem], hl.other⟩
  · rw [update_of_ne hee]
    refine .same (h.nodup (.all e')) (iff_of_false (h.not_mem (.all e') ?_) ?_)
    · rw [Slot.Wants, he]
      exact fun hw => hee (Option.some.inj hw.1).symm
    · exact fun hw => hee (Option.some.inj hw.1).symm

/-- `all_tables`, where it stays or is in none of them. -/
theorem Inv.relisted_all_same (s' : State X E T) {p₀ : Place X}
    (hplace : place t = p₀) (hl : s'.allTables = s.allTables)
    (hnow : ∀ e, s.share t = some e ∧ p₀.linked ↔ sh = some e ∧ p.linked) (e : E) :
    Relisted (s.allTables e) (s'.allTables e) t ((Slot.all e : Slot X E).Wants sh i p) := by
  subst hplace
  rw [hl]
  exact .same (h.nodup (.all e)) (((h.lists (.all e)).2 t).trans (hnow e))

/-- The free tables of its share in its instance. -/
theorem Inv.relisted_shareFree [DecidableEq E] (he : s.share t = some e)
    (hl : Relisted (s.shareFreeTables e (s.instanceNo t)) l t (p = .free)) (e' : E) (j : ℕ) :
    Relisted (s.shareFreeTables e' j)
      (if e' = e ∧ j = s.instanceNo t then l else s.shareFreeTables e' j) t
      ((Slot.shareFree e' j : Slot X E).Wants (s.share t) (s.instanceNo t) p) := by
  rw [Slot.Wants, he]
  by_cases hej : e' = e ∧ j = s.instanceNo t
  · obtain ⟨rfl, rfl⟩ := hej
    rw [if_pos ⟨rfl, rfl⟩]
    exact ⟨hl.nodup, by simp [hl.mem], hl.other⟩
  · rw [if_neg hej]
    refine .same (h.nodup (.shareFree e' j)) (iff_of_false (h.not_mem (.shareFree e' j) ?_) ?_)
    · rw [Slot.Wants, he]
      exact fun hw => hej ⟨(Option.some.inj hw.1).symm, hw.2.1.symm⟩
    · exact fun hw => hej ⟨(Option.some.inj hw.1).symm, hw.2.1.symm⟩

/-- The free tables of its instance. -/
theorem Inv.relisted_free (hl : Relisted (s.freeTables (s.instanceNo t)) l t (p = .free)) (j : ℕ) :
    Relisted (s.freeTables j) (update s.freeTables (s.instanceNo t) l j) t
      ((Slot.free j : Slot X E).Wants sh (s.instanceNo t) p) := by
  rw [Slot.Wants]
  by_cases hj : j = s.instanceNo t
  · subst hj
    rw [update_self]
    exact ⟨hl.nodup, by simp [hl.mem], hl.other⟩
  · rw [update_of_ne hj]
    refine .same (h.nodup (.free j)) (iff_of_false (h.not_mem (.free j) ?_) ?_)
    · exact fun hw => hj hw.1.symm
    · exact fun hw => hj hw.1.symm

/-- The tables of the connections, where one of them gets it or has it. -/
theorem Inv.relisted_held (s' : State X E T) (hfrom : ∀ y stage, place t = .held y stage → y = x)
    (hto : ∀ y stage, p = .held y stage → y = x)
    (hother : ∀ y, y ≠ x → s'.openTables y = s.openTables y ∧ s'.pc y = s.pc y)
    (hopen : Relisted (s.openTables x) (s'.openTables x) t (p = .held x .opened))
    (hpc : ∀ stage, stage ≠ .opened →
      Relisted ((s.pc x).held stage) ((s'.pc x).held stage) t (p = .held x stage))
    (y : X) (stage : Stage) :
    Relisted (s.list (.held y stage)) (s'.list (.held y stage)) t
      ((Slot.held y stage : Slot X E).Wants sh i p) := by
  by_cases hy : y = x
  · subst hy
    by_cases hstage : stage = .opened
    · subst hstage
      exact hopen
    · rw [State.list_held _ _ hstage, State.list_held _ _ hstage]
      exact hpc stage hstage
  · obtain ⟨hopen, hpc⟩ := hother y hy
    refine h.relisted_same ?_ (iff_of_false (fun hw => hy (hfrom y stage hw)) fun hw =>
      hy (hto y stage hw))
    cases stage <;> simp only [State.list, hopen, hpc]

/-- A list of a connection that does not have the TABLE and does not get it. -/
theorem Inv.relisted_held_same (stage : Stage)
    (hplace : place t ≠ .held x stage) (hp : p ≠ .held x stage) :
    Relisted (s.list (.held x stage)) (s.list (.held x stage)) t (p = .held x stage) :=
  .same (h.nodup _) (iff_of_false (h.not_mem _ hplace) hp)

/-- …where no connection opens it or had it open, and only `x` goes on. -/
theorem Inv.relisted_pc [DecidableEq X] (s' : State X E T) (x : X)
    {p₀ : Place X} (hplace : place t = p₀) {pc : Pc E T}
    (hopen : s'.openTables = s.openTables) (hpcs : s'.pc = update s.pc x pc)
    (hfrom : ∀ y stage, p₀ = .held y stage → y = x ∧ stage ≠ .opened)
    (hto : ∀ y stage, p = .held y stage → y = x ∧ stage ≠ .opened)
    (hpc : ∀ stage, stage ≠ .opened →
      Relisted ((s.pc x).held stage) (pc.held stage) t (p = .held x stage))
    (y : X) (stage : Stage) :
    Relisted (s.list (.held y stage)) (s'.list (.held y stage)) t
      ((Slot.held y stage : Slot X E).Wants sh i p) := by
  subst hplace
  refine h.relisted_held s' (fun y stage hy => (hfrom y stage hy).1)
    (fun y stage hy => (hto y stage hy).1) (fun y hy => ?_) ?_ (fun stage hstage => ?_) y stage
  · rw [hopen, hpcs, update_of_ne hy]
    exact ⟨rfl, rfl⟩
  · rw [hopen]
    exact h.relisted_held_same .opened (fun hp => (hfrom _ _ hp).2 rfl) fun hp => (hto _ _ hp).2 rfl
  · rw [hpcs, update_self]
    exact hpc stage hstage

/-- The lists of free tables, where it is not free before and after. -/
theorem Inv.relisted_inHand (s' : State X E T) {p₀ : Place X}
    (hplace : place t = p₀) (hfrom : p₀ ≠ .free) (hto : p ≠ .free)
    (hshareFree : s'.shareFreeTables = s.shareFreeTables) (hfree : s'.freeTables = s.freeTables)
    (hall : ∀ e, Relisted (s.allTables e) (s'.allTables e) t ((Slot.all e : Slot X E).Wants sh i p))
    (hheld : ∀ y stage, Relisted (s.list (.held y stage)) (s'.list (.held y stage)) t
      ((Slot.held y stage : Slot X E).Wants sh i p)) (slot : Slot X E) :
    Relisted (s.list slot) (s'.list slot) t (slot.Wants sh i p) := by
  subst hplace
  obtain e | ⟨e, j⟩ | j | ⟨y, stage⟩ := slot
  · exact hall e
  · exact h.relisted_same (congrFun (congrFun hshareFree e) j)
      (iff_of_false (fun hw => hfrom hw.2.2) fun hw => hto hw.2.2)
  · exact h.relisted_same (congrFun hfree j)
      (iff_of_false (fun hw => hfrom hw.2) fun hw => hto hw.2)
  · exact hheld y stage

end

end

variable {purgeTables : List T} {caller : Sweep E} {pc : Pc E T}

section

variable [DecidableEq X]

@[simp] theorem State.pc_goto {y : X} : (s.goto x pc).pc y = if y = x then pc else s.pc y :=
  update_apply ..

/-- A connection goes on, with the same tables. -/
theorem State.list_goto (hpc : ∀ stage, pc.held stage = (s.pc x).held stage)
    (slot : Slot X E) : (s.goto x pc).list slot = s.list slot := by
  obtain e | ⟨e, i⟩ | i | ⟨y, stage⟩ := slot
  iterate 3 rfl
  by_cases hstage : stage = .opened
  · subst hstage
    rfl
  · rw [State.list_held _ _ hstage, State.list_held _ _ hstage, State.pc_goto]
    split_ifs with hy
    · rw [hy, hpc]
    · rfl

theorem Inv.goto (h : Inv c s place)
    (hpc : ∀ stage, pc.held stage = (s.pc x).held stage := by
      rintro (_ | _) <;> simp only [*] <;> rfl) : Inv c (s.goto x pc) place :=
  h.congr h.active_pos h.active_le (State.list_goto hpc) rfl rfl rfl rfl

end

/-! ## A TABLE goes to another place -/

variable [DecidableEq T]

/-- **A TABLE goes to another place**, and nothing happens to the others. -/
theorem Inv.move (h : Inv c s place) (t : T) (p : Place X)
    (hactive : s'.activeInstances = s.activeInstances)
    (hother : ∀ u, u ≠ t → s'.share u = s.share u ∧ s'.instanceNo u = s.instanceNo u ∧
      s'.inUse u = s.inUse u)
    (hlists : ∀ slot, Relisted (s.list slot) (s'.list slot) t
      (slot.Wants (s'.share t) (s'.instanceNo t) p))
    (hrecords : ∀ i, s'.records i + (if s.instanceNo t = i ∧ (place t).counted then 1 else 0) =
      s.records i + if s'.instanceNo t = i ∧ p.counted then 1 else 0)
    (hgone : s'.share t = none ↔ p = .gone) (hbound : p ≠ .gone → s'.instanceNo t < c.tcInstances)
    (huses : p.Uses (s'.inUse t)) : Inv c s' (update place t p) where
  active_pos := hactive ▸ h.active_pos
  active_le := hactive ▸ h.active_le
  lists slot := by
    refine (h.lists slot).relisted (hlists slot) (by rw [update_self]) fun u hu => ?_
    rw [update_of_ne hu, (hother u hu).1, (hother u hu).2.1]
  records i := by
    refine (h.records i).moved (t := t) (fun u hu => ?_) ?_
    · rw [update_of_ne hu, (hother u hu).2.1]
    · rw [update_self]
      exact hrecords i
  gone u := by
    by_cases hu : u = t
    · rw [hu, update_self, hgone]
    · rw [update_of_ne hu, (hother u hu).1, h.gone]
  bound u := by
    by_cases hu : u = t
    · rw [hu, update_self]
      exact hbound
    · rw [update_of_ne hu, (hother u hu).2.1]
      exact h.bound u
  uses u := by
    by_cases hu : u = t
    · rw [hu, update_self]
      exact huses
    · rw [update_of_ne hu, (hother u hu).2.2]
      exact h.uses u

/-- …where it stays allocated, of the same share and in the same instance. -/
theorem Inv.shift (h : Inv c s place) (t : T) {p₀ : Place X} (hplace : place t = p₀)
    (hp₀ : p₀ ≠ .gone) (p : Place X) (hp : p ≠ .gone)
    (hactive : s'.activeInstances = s.activeInstances) (hshare : s'.share = s.share)
    (hinstance : s'.instanceNo = s.instanceNo) (huse : ∀ u, u ≠ t → s'.inUse u = s.inUse u)
    (huses : p.Uses (s'.inUse t))
    (hlists : ∀ slot, Relisted (s.list slot) (s'.list slot) t
      (slot.Wants (s.share t) (s.instanceNo t) p))
    (hrecords : ∀ i, s'.records i + (if s.instanceNo t = i ∧ p₀.counted then 1 else 0) =
      s.records i + if s.instanceNo t = i ∧ p.counted then 1 else 0) :
    Inv c s' (update place t p) := by
  subst hplace
  refine h.move t p hactive (fun u hu => ⟨by rw [hshare], by rw [hinstance], huse u hu⟩)
    (fun slot => ?_) (fun i => ?_) ?_ (fun _ => ?_) huses
  · rw [hshare, hinstance]
    exact hlists slot
  · rw [hinstance]
    exact hrecords i
  · rw [hshare, h.gone]
    exact iff_of_false hp₀ hp
  · rw [hinstance]
    exact h.bound t hp₀

variable [DecidableEq X] [DecidableEq E]

/-! ## `tc_add_table` -/

omit [DecidableEq E] in
theorem Inv.addTable (h : Inv c s place) (hpc : s.pc x = .idle) (ht : s.share t = none) (e : E)
    (gid : ℕ) : Inv c (s.addTable x t e gid) (update place t (.held x .linking)) := by
  have hplace : place t = .gone := (h.gone t).1 ht
  have hlt : gid % s.activeInstances < c.tcInstances :=
    (Nat.mod_lt _ h.active_pos).trans_le h.active_le
  refine h.move t _ rfl (fun u hu => ?_) ?_ (fun i => ?_) ?_ (fun _ => ?_) ?_
  · simp [State.addTable, State.goto, hu]
  · refine h.relisted_inHand _ hplace nofun nofun rfl rfl (h.relisted_all_same _ hplace rfl ?_)
      (h.relisted_pc _ x hplace rfl rfl (by simp) (by simp) fun stage _ => ?_)
    · simp [Place.linked, Stage.linked]
    · cases stage <;> constructor <;> simp_all [Pc.held]
  · simp [State.addTable, State.goto, hplace, Place.counted, Stage.counted]
  · simp [State.addTable, State.goto]
  · simpa [State.addTable, State.goto] using hlt
  · simp [State.addTable, State.goto, Place.Uses]

theorem Inv.linkTable (h : Inv c s place) (hpc : s.pc x = .linking t) (he : s.share t = some e) :
    Inv c (s.linkTable x t e) (update place t (.held x .counting)) := by
  have hplace : place t = .held x .linking :=
    h.place_of_mem (.held x .linking) (Pc.mem_held_linking.2 hpc)
  have huses : Place.Uses (.held x .linking) (s.inUse t) := hplace ▸ h.uses t
  refine h.shift t hplace nofun _ nofun rfl rfl rfl (fun _ _ => rfl) huses ?_ fun _ => rfl
  refine h.relisted_inHand _ hplace nofun nofun rfl rfl
    (h.relisted_all he (.cons (h.nodup (.all e)) (h.not_mem (.all e) ?_) rfl))
    (h.relisted_pc _ x hplace rfl rfl (by simp) (by simp) fun stage _ => ?_)
  · simp [Slot.Wants, hplace, Place.linked, Stage.linked]
  · cases stage <;> constructor <;> simp_all [Pc.held]

/-- The TABLE is counted and open, and none is evicted. -/
def State.counted (s : State X E T) (x : X) (t : T) : State X E T :=
  { s with
    openTables := update s.openTables x (t :: s.openTables x)
    records := update s.records (s.instanceNo t) (s.records (s.instanceNo t) + 1) }.goto
      x .idle

omit [DecidableEq E] in
theorem Inv.counted (h : Inv c s place) (hpc : s.pc x = .counting t) :
    Inv c (s.counted x t) (update place t (.held x .opened)) := by
  have hplace : place t = .held x .counting :=
    h.place_of_mem (.held x .counting) (Pc.mem_held_counting.2 hpc)
  have huses : Place.Uses (.held x .counting) (s.inUse t) := hplace ▸ h.uses t
  refine h.shift t hplace nofun _ nofun rfl rfl rfl (fun _ _ => rfl) huses ?_ fun i => ?_
  · refine h.relisted_inHand _ hplace nofun nofun rfl rfl
      (h.relisted_all_same _ hplace rfl fun _ => Iff.rfl)
      (h.relisted_held _ (x := x) (by simp [hplace]) (by simp)
        (fun y hy => ⟨update_of_ne hy .., update_of_ne hy ..⟩) ?_
        fun stage hstage => ?_)
    · rw [State.counted, State.goto]
      dsimp only
      rw [update_self]
      exact .cons (h.nodup (.held x .opened))
        (h.not_mem (.held x .opened) (by simp [Slot.Wants, hplace])) rfl
    · cases stage <;> constructor <;> simp_all [State.counted, State.goto, Pc.held]
  · by_cases hi : i = s.instanceNo t
    · subst hi
      simp [State.counted, State.goto, Place.counted, Stage.counted]
    · simp [State.counted, State.goto, hi, Ne.symm hi]

/-- The least recently used TABLE leaves the lists and the count. -/
def State.evicted (s : State X E T) (x : X) (lru : T) (e : E) : State X E T :=
  let i := s.instanceNo lru
  { s.setShareFreeTables e i ((s.shareFreeTables e i).erase lru) with
    freeTables := update s.freeTables i ((s.freeTables i).erase lru)
    inUse := update s.inUse lru (some x)
    records := update s.records i (s.records i - 1) }.goto x (.removing lru)

section

variable (h : Inv c s place)

include h

theorem Inv.evicted (hpc : s.pc x = .idle) (he : s.share t = some e) (hplace : place t = .free) :
    Inv c (s.evicted x t e) (update place t (.held x .removing)) := by
  refine h.shift t hplace nofun _ nofun rfl rfl rfl
    (fun u hu => update_of_ne hu ..) (update_self ..) ?_
    (h.records_sub_one hplace rfl rfl)
  · rintro (e' | ⟨e', i⟩ | i | ⟨y, stage⟩)
    · exact h.relisted_all_same (i := 0) _ hplace rfl (fun _ => Iff.rfl) e'
    · exact h.relisted_shareFree (p := .held x .removing) he
        (.erase (h.nodup (.shareFree e _)) nofun) e' i
    · exact h.relisted_free (p := .held x .removing) (.erase (h.nodup (.free _)) nofun) i
    · refine h.relisted_pc _ x hplace (by rfl) (by rfl) (by simp) (by simp) (fun stage _ => ?_) y
        stage
      cases stage <;> constructor <;> simp_all [Pc.held]

/-! ## `tc_acquire_table` and `tc_release_table` -/

theorem Inv.acquireTable (x : X) {rest : List T} (ht : s.shareFreeTables e i = t :: rest) :
    Inv c (s.acquireTable x e i) (update place t (.held x .opened)) := by
  obtain ⟨he, rfl, hplace⟩ :=
    h.place_of_mem (.shareFree e i) (show t ∈ s.shareFreeTables e i by simp [ht])
  have hnodup : (t :: rest).Nodup := ht ▸ h.nodup (.shareFree e _)
  rw [State.acquireTable, ht]
  refine h.shift t hplace nofun _ nofun rfl rfl rfl
    (fun u hu => update_of_ne hu ..) (update_self ..) ?_ fun _ => rfl
  rintro (e' | ⟨e', i⟩ | i | ⟨y, stage⟩)
  · exact h.relisted_all_same (i := 0) _ hplace rfl (fun _ => Iff.rfl) e'
  · exact h.relisted_shareFree he (ht ▸ .tail hnodup nofun) e' i
  · exact h.relisted_free (p := .held x .opened) (.erase (h.nodup (.free _)) nofun) i
  · refine h.relisted_held (x := x) _ ?_ ?_ (fun y hy => ?_) ?_ (fun stage hstage => ?_) y stage
    · simp [hplace]
    · simp
    · exact ⟨update_of_ne hy .., rfl⟩
    · dsimp only
      rw [update_self]
      exact .cons (h.nodup (.held x .opened))
        (h.not_mem (.held x .opened) (by simp [Slot.Wants, hplace])) rfl
    · have hsame := h.relisted_held_same (x := x) (t := t) (p := .held x .opened) stage
        (by simp [hplace]) (by simpa using hstage.symm)
      rwa [s.list_held x hstage] at hsame

omit [DecidableEq E] in
theorem Inv.releaseTable (hpc : s.pc x = .idle) (ht : t ∈ s.openTables x)
    (e : E) (needsReopen : Bool) : Inv c (s.releaseTable c x t e needsReopen)
      (update place t (.held x .releasing)) := by
  have hplace : place t = .held x .opened := h.place_of_mem (.held x .opened) ht
  have huses : Place.Uses (.held x .opened) (s.inUse t) := hplace ▸ h.uses t
  refine h.shift t hplace nofun _ nofun rfl rfl rfl (fun _ _ => rfl) huses ?_ fun i => rfl
  refine h.relisted_inHand _ hplace nofun nofun rfl rfl
    (h.relisted_all_same _ hplace rfl fun _ => Iff.rfl)
    (h.relisted_held _ (x := x) (by simp [hplace]) (by simp)
      (fun y hy => ⟨update_of_ne hy .., update_of_ne hy ..⟩) ?_
      fun stage hstage => ?_)
  · rw [State.releaseTable, State.goto]
    dsimp only
    rw [update_self]
    exact .erase (h.nodup (.held x .opened)) nofun
  · cases stage <;> constructor <;> simp_all [State.releaseTable, State.goto, Pc.held]

/-- The TABLE goes to the lists of free tables. -/
theorem Inv.finishRelease_false (hpc : s.pc x = .releasing t false) (he : s.share t = some e) :
    Inv c (s.finishRelease x t e false) (update place t .free) := by
  have hplace := h.place_releasing hpc
  refine h.shift t hplace nofun _ nofun rfl rfl rfl
    (fun u hu => update_of_ne hu ..) (update_self ..) ?_ fun _ => rfl
  rintro (e' | ⟨e', i⟩ | i | ⟨y, stage⟩)
  · exact h.relisted_all_same (i := 0) _ hplace rfl (fun _ => Iff.rfl) e'
  · exact h.relisted_shareFree he (.cons (h.nodup (.shareFree e _))
      (h.not_mem (.shareFree e _) (by simp [Slot.Wants, hplace])) rfl) e' i
  · exact h.relisted_free (.concat (h.nodup (.free _))
      (h.not_mem (.free _) (by simp [Slot.Wants, hplace])) rfl) i
  · refine h.relisted_pc _ x hplace (by rfl) (by rfl) (by simp) (by simp) (fun stage _ => ?_) y
        stage
    cases stage <;> constructor <;> simp_all [Pc.held]

/-- The TABLE is to go. -/
theorem Inv.finishRelease_true (hpc : s.pc x = .releasing t true) (e : E) :
    Inv c (s.finishRelease x t e true) (update place t (.held x .removing)) := by
  have hplace := h.place_releasing hpc
  have huses : Place.Uses (.held x .releasing) (s.inUse t) := hplace ▸ h.uses t
  refine h.shift t hplace nofun _ nofun rfl rfl rfl (fun _ _ => rfl) huses ?_
    (h.records_sub_one hplace rfl rfl)
  · refine h.relisted_inHand _ hplace nofun nofun rfl rfl
      (h.relisted_all_same _ hplace rfl fun _ => Iff.rfl)
      (h.relisted_pc _ x hplace rfl rfl (by simp) (by simp) fun stage _ => ?_)
    cases stage <;> constructor <;> simp_all [Pc.held]

/-! ## Tables that go -/

theorem Inv.removeTable (hpc : s.pc x = .removing t) (he : s.share t = some e) :
    Inv c (s.removeTable x t e) (update place t (.held x .closing)) := by
  have hplace : place t = .held x .removing :=
    h.place_of_mem (.held x .removing) (Pc.mem_held_removing.2 hpc)
  refine h.shift t hplace nofun _ nofun rfl rfl rfl (fun _ _ => rfl) trivial ?_ fun _ => rfl
  refine h.relisted_inHand _ hplace nofun nofun rfl rfl
    (h.relisted_all he (.erase (h.nodup (.all e)) nofun))
    (h.relisted_pc _ x hplace rfl rfl (by simp) (by simp) fun stage _ => ?_)
  cases stage <;> constructor <;> simp_all [Pc.held]

/-- A round of the loop of `tc_remove_all_unused_tables`. -/
theorem Inv.removeUnused
    (hpc : s.pc x = .sweeping e i purgeTables caller) (ht : t ∈ s.shareFreeTables e i) :
    Inv c (s.removeUnused x e i caller t) (update place t (.held x .closing)) := by
  obtain ⟨he, rfl, hplace⟩ := h.place_of_mem (.shareFree e i) ht
  have hlist : s.list (.held x .closing) = purgeTables := by
    change (s.pc x).held .closing = purgeTables
    rw [hpc]
    rfl
  have hpurge : purgeTables.Nodup := hlist ▸ h.nodup (.held x .closing)
  have hnot : t ∉ purgeTables :=
    hlist ▸ h.not_mem (.held x .closing) (by simp [Slot.Wants, hplace])
  rw [State.removeUnused, hpc]
  refine h.shift t hplace nofun _ nofun rfl rfl rfl (fun _ _ => rfl) trivial ?_
    (h.records_sub_one hplace rfl rfl)
  · rintro (e' | ⟨e', i⟩ | i | ⟨y, stage⟩)
    · exact h.relisted_all (p := .held x .closing) he (.erase (h.nodup (.all e)) nofun) e'
    · exact h.relisted_shareFree (p := .held x .closing) he
        (.erase (h.nodup (.shareFree e _)) nofun) e' i
    · exact h.relisted_free (p := .held x .closing) (.erase (h.nodup (.free _)) nofun) i
    · refine h.relisted_pc _ x hplace (by rfl) (by rfl) (by simp) (by simp) (fun stage _ => ?_) y
        stage
      cases stage <;> constructor <;> simp_all [Pc.held]

omit [DecidableEq E] in
theorem Inv.closeTable (hpc : s.pc x = .closing (t :: purgeTables)) :
    Inv c (s.closeTable x (t :: purgeTables)) (update place t .gone) := by
  have hplace : place t = .held x .closing :=
    h.place_of_mem (.held x .closing) (by simp [State.list, Pc.held, hpc])
  have hnodup : (t :: purgeTables).Nodup := by
    simpa [State.list, Pc.held, hpc] using h.nodup (.held x .closing)
  refine h.move t _ rfl (fun u hu => ⟨update_of_ne hu .., rfl, rfl⟩) ?_ (fun i => ?_) ?_
    nofun trivial
  · refine h.relisted_inHand _ hplace nofun nofun rfl rfl (h.relisted_all_same _ hplace rfl ?_)
      (h.relisted_pc _ x hplace rfl rfl (by simp) (by simp) fun stage _ => ?_)
    · simp [Place.linked, Stage.linked]
    · cases stage <;> constructor <;> simp_all [Pc.held]
  · simp [State.closeTable, State.goto, hplace, Place.counted, Stage.counted]
  · simp [State.closeTable, State.goto]

end

/-! ## Steps -/

/-- `tc_add_table` counts the TABLE, and may then take the least recently used one out. -/
theorem Inv.countTable_eq (h : Inv c s place) (t : T) (x : X) :
    s.countTable c x t = s.counted x t ∨ ∃ lru e, s.share lru = some e ∧ place lru = .free ∧
      s.countTable c x t = (s.counted x t).evicted x lru e := by
  rw [State.countTable]
  dsimp only
  split_ifs with hsize
  · cases hfree : s.freeTables (s.instanceNo t) with
    | nil => exact .inl rfl
    | cons lru rest =>
      obtain ⟨hi, hplace⟩ := h.place_of_mem (.free (s.instanceNo t))
        (show lru ∈ s.freeTables (s.instanceNo t) by simp [hfree])
      dsimp only
      cases he : s.share lru with
      | none => exact .inl rfl
      | some e =>
        refine .inr ⟨lru, e, he, hplace, ?_⟩
        simp [State.evicted, State.counted, State.setShareFreeTables, State.goto, hi, hfree]
  · exact .inl rfl

theorem Inv.countTable (h : Inv c s place) (hpc : s.pc x = .counting t) :
    ∃ place', Inv c (s.countTable c x t) place' := by
  have hplace : place t = .held x .counting :=
    h.place_of_mem (.held x .counting) (Pc.mem_held_counting.2 hpc)
  have hcounted := h.counted hpc
  obtain heq | ⟨lru, e, he, hlru, heq⟩ := h.countTable_eq t x <;> rw [heq]
  · exact ⟨_, hcounted⟩
  · have hne : lru ≠ t := by
      rintro rfl
      exact nomatch hlru.symm.trans hplace
    have hidle : (s.counted x t).pc x = .idle := by simp [State.counted]
    exact ⟨_, hcounted.evicted hidle he ((update_of_ne hne ..).trans hlru)⟩

theorem State.pc_removeUnused (hpc : s.pc x = .sweeping e i purgeTables caller) (t : T) :
    (s.removeUnused x e i caller t).pc x = .sweeping e i (t :: purgeTables) caller := by
  simp [State.removeUnused, hpc]

theorem State.shareFreeTables_removeUnused {ts : List T}
    (hpc : s.pc x = .sweeping e i purgeTables caller) (hts : s.shareFreeTables e i = t :: ts) :
    (s.removeUnused x e i caller t).shareFreeTables e i = ts := by
  simp [State.removeUnused, State.setShareFreeTables, State.goto, hpc, hts]

/-- The loop of `tc_remove_all_unused_tables` over the free tables of an instance. -/
theorem Inv.foldl_removeUnused : ∀ {ts purgeTables : List T}
    {s : State X E T} {place : T → Place X}, Inv c s place →
    s.pc x = .sweeping e i purgeTables caller → s.shareFreeTables e i = ts →
    ∃ place', Inv c (ts.foldl (State.removeUnused x e i caller) s) place'
  | [], _, _, place, h, _, _ => ⟨place, h⟩
  | t :: ts, purgeTables, s, place, h, hpc, hts => by
      have ht : t ∈ s.shareFreeTables e i := by simp [hts]
      rw [foldl_cons]
      exact foldl_removeUnused (h.removeUnused hpc ht) (State.pc_removeUnused hpc t)
        (State.shareFreeTables_removeUnused hpc hts)

/-- The connection goes on with the next instance. -/
theorem State.pc_foldl_removeUnused : ∀ (ts : List T) {purgeTables : List T}
    {s : State X E T}, s.pc x = .sweeping e i purgeTables caller →
    ∃ purgeTables', (ts.foldl (State.removeUnused x e i caller) s).pc x =
      .sweeping e i purgeTables' caller
  | [], _, _, hpc => ⟨_, hpc⟩
  | t :: ts, _, _, hpc => by
      rw [foldl_cons]
      exact pc_foldl_removeUnused ts (State.pc_removeUnused hpc t)

theorem State.removeAllUnused_eq (hpc : s.pc x = .sweeping e i purgeTables caller) : ∃ purgeTables',
    ((s.shareFreeTables e i).foldl (State.removeUnused x e i caller) s).pc x =
        .sweeping e i purgeTables' caller ∧
      s.removeAllUnused x e i caller =
        ((s.shareFreeTables e i).foldl (State.removeUnused x e i caller) s).goto x
          (.sweeping e (i + 1) purgeTables' caller) := by
  obtain ⟨purgeTables', hpc'⟩ := State.pc_foldl_removeUnused (s.shareFreeTables e i) hpc
  exact ⟨purgeTables', hpc', by rw [State.removeAllUnused, hpc']⟩

theorem Inv.removeAllUnused (h : Inv c s place) (hpc : s.pc x = .sweeping e i purgeTables caller) :
    ∃ place', Inv c (s.removeAllUnused x e i caller) place' := by
  obtain ⟨place', h'⟩ := h.foldl_removeUnused hpc rfl
  obtain ⟨purgeTables', hpc', heq⟩ := State.removeAllUnused_eq hpc
  rw [heq]
  exact ⟨place', h'.goto⟩

end EloqSql.TableCache
