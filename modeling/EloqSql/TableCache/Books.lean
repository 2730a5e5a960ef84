import EloqSql.TableCache.Places

/-!
# TableCache/Books — the books of the table cache are right in every run

Where each TABLE is (`TableCache/Places`) gives the lists and the counts. What remains is a race: a
share is marked as flushed under its own mutex, and `tc_release_table` looks at the mark under the
mutex of an instance. It may see a share that is not marked and put a TABLE into the lists of free
tables after the mark is set — but only where the flush has yet to come to that instance, since the
flush takes the mutex of each instance after it has set the mark. So behind the flush an instance is
`Quiet`: it has no free TABLE of the share, and nobody is about to put one there.
-/

namespace EloqSql.TableCache

open State (init pc_goto)

open Function (update update_of_ne update_self)

variable {X E T : Type*} {c : Config} {s s' : State X E T} {place : T → Place X} {x y : X} {t : T}
  {e : E} {i j : ℕ}

/-! ## The race with a flush -/

/-- Nobody is about to put a TABLE of a share into the lists of an instance. -/
def State.Calm (s : State X E T) (e : E) (i : ℕ) : Prop :=
  ∀ x t, s.pc x = .releasing t false → s.share t = some e → s.instanceNo t ≠ i

/-- **An instance has no free TABLE of a share, and none is to come.** -/
def State.Quiet (s : State X E T) (e : E) (i : ℕ) : Prop :=
  s.shareFreeTables e i = [] ∧ s.Calm e i

/-- **Mutexes are held where they have to be, and a flush leaves quiet instances behind.** -/
structure Flush (c : Config) (s : State X E T) : Prop where
  lockTableCache : ∀ x t remove, s.pc x = .releasing t remove →
    s.lockTableCache (s.instanceNo t) = some x
  lockTableShare : ∀ x e i purgeTables caller, s.pc x = .sweeping e i purgeTables caller →
    s.lockTableShare e = some x
  sweeping : ∀ x e i purgeTables, s.pc x = .sweeping e i purgeTables (.flush true) →
    s.flushed e = true ∧ ∀ j < i, s.Quiet e j
  purged : ∀ e, s.purged e = true → s.flushed e = true ∧ ∀ j < c.tcInstances, s.Quiet e j

/-- **A step of `x`**: the others keep the mutexes they have, no mark goes, and where a share is
marked quiet instances stay quiet; then `x` has to see to itself. -/
theorem Flush.of_others (h : Flush c s) (hpcs : ∀ y, y ≠ x → s'.pc y = s.pc y)
    (hcache : ∀ y u remove, y ≠ x → s.pc y = .releasing u remove →
      s'.lockTableCache (s'.instanceNo u) = some y)
    (hshare : ∀ y e i purgeTables caller, y ≠ x → s.pc y = .sweeping e i purgeTables caller →
      s'.lockTableShare e = some y)
    (hflushed : ∀ e, s.flushed e = true → s'.flushed e = true)
    (hquiet : ∀ e j, s.flushed e = true → s.Quiet e j → s'.Quiet e j)
    (hpurged : ∀ e, s'.purged e = true →
      s.purged e = true ∨ s'.flushed e = true ∧ ∀ j < c.tcInstances, s'.Quiet e j)
    (hreleasing : ∀ u remove, s'.pc x = .releasing u remove →
      s'.lockTableCache (s'.instanceNo u) = some x)
    (hsweeping : ∀ e i purgeTables caller, s'.pc x = .sweeping e i purgeTables caller →
      s'.lockTableShare e = some x ∧
        (caller = .flush true → s'.flushed e = true ∧ ∀ j < i, s'.Quiet e j)) : Flush c s' where
  lockTableCache y u remove hpc := by
    by_cases hy : y = x
    · subst hy
      exact hreleasing u remove hpc
    · exact hcache y u remove hy (hpcs y hy ▸ hpc)
  lockTableShare y e i purgeTables caller hpc := by
    by_cases hy : y = x
    · subst hy
      exact (hsweeping e i purgeTables caller hpc).1
    · exact hshare y e i purgeTables caller hy (hpcs y hy ▸ hpc)
  sweeping y e i purgeTables hpc := by
    by_cases hy : y = x
    · subst hy
      exact (hsweeping e i purgeTables _ hpc).2 rfl
    · obtain ⟨hmark, hq⟩ := h.sweeping y e i purgeTables (hpcs y hy ▸ hpc)
      exact ⟨hflushed e hmark, fun j hj => hquiet e j hmark (hq j hj)⟩
  purged e hp := by
    obtain hp | hp := hpurged e hp
    · obtain ⟨hmark, hq⟩ := h.purged e hp
      exact ⟨hflushed e hmark, fun j hj => hquiet e j hmark (hq j hj)⟩
    · exact hp

/-- **A step of `x` that is no business of a flush**: it takes no mutex, sets no mark and adds no
free TABLE, and leaves alone the tables that others are about to release. -/
structure Aside (x : X) (s s' : State X E T) : Prop where
  pc : ∀ y, y ≠ x → s'.pc y = s.pc y
  lockTableCache : s'.lockTableCache = s.lockTableCache
  lockTableShare : s'.lockTableShare = s.lockTableShare
  flushed : s'.flushed = s.flushed
  purged : s'.purged = s.purged
  free : ∀ e i, s.shareFreeTables e i = [] → s'.shareFreeTables e i = []
  tables : ∀ y t remove, y ≠ x → s.pc y = .releasing t remove →
    s'.share t = s.share t ∧ s'.instanceNo t = s.instanceNo t

theorem Aside.refl (x : X) (s : State X E T) : Aside x s s :=
  ⟨fun _ _ => rfl, rfl, rfl, rfl, rfl, fun _ _ h => h, fun _ _ _ _ _ => ⟨rfl, rfl⟩⟩

theorem Aside.trans {s'' : State X E T} (h : Aside x s s') (h' : Aside x s' s'') :
    Aside x s s'' where
  pc y hy := (h'.pc y hy).trans (h.pc y hy)
  lockTableCache := h'.lockTableCache.trans h.lockTableCache
  lockTableShare := h'.lockTableShare.trans h.lockTableShare
  flushed := h'.flushed.trans h.flushed
  purged := h'.purged.trans h.purged
  free e i hfree := h'.free e i (h.free e i hfree)
  tables y t remove hy hpc := by
    obtain ⟨hshare, hinstance⟩ := h.tables y t remove hy hpc
    obtain ⟨hshare', hinstance'⟩ := h'.tables y t remove hy ((h.pc y hy).trans hpc)
    exact ⟨hshare'.trans hshare, hinstance'.trans hinstance⟩

theorem State.Calm.aside (h : s.Calm e j) (ha : Aside x s s')
    (hpc : ∀ t, s'.pc x ≠ .releasing t false) : s'.Calm e j := by
  intro y t hy ht
  have hne : y ≠ x := by
    rintro rfl
    exact hpc t hy
  rw [ha.pc y hne] at hy
  obtain ⟨hshare, hinstance⟩ := ha.tables y t false hne hy
  rw [hinstance]
  exact h y t hy (hshare ▸ ht)

/-- A quiet instance stays quiet. -/
theorem State.Quiet.aside (h : s.Quiet e j) (ha : Aside x s s')
    (hpc : ∀ t, s'.pc x ≠ .releasing t false) : s'.Quiet e j :=
  ⟨ha.free e j h.1, h.2.aside ha hpc⟩

/-- A step aside, by what `x` does then. -/
theorem Flush.aside (h : Flush c s) (ha : Aside x s s')
    (hreleasing : ∀ t remove, s'.pc x ≠ .releasing t remove := by simp [State.addTable,
      State.linkTable, State.removeTable, State.closeTable])
    (hsweeping : ∀ e i purgeTables caller, s'.pc x = .sweeping e i purgeTables caller →
      s'.lockTableShare e = some x ∧
        (caller = .flush true → s'.flushed e = true ∧ ∀ j < i, s'.Quiet e j) := by
      simp [State.addTable, State.linkTable, State.removeTable, State.closeTable]) :
    Flush c s' := by
  refine h.of_others ha.pc (fun y u remove hy hpc => ?_) (fun y e i purgeTables caller hy hpc => ?_)
    (fun e hmark => ?_) (fun e j _ hq => hq.aside ha (hreleasing · false))
    (fun e hp => .inl (ha.purged ▸ hp)) (fun u remove hpc => absurd hpc (hreleasing u remove))
    hsweeping
  · rw [ha.lockTableCache, (ha.tables y u remove hy hpc).2]
    exact h.lockTableCache y u remove hpc
  · rw [ha.lockTableShare]
    exact h.lockTableShare y e i purgeTables caller hpc
  · rwa [ha.flushed]

/-! ## The books -/

section

variable (h : Inv c s place)

include h

/-- **The holders of a TABLE are those whose place it is.** -/
theorem Inv.holds_iff : s.Holds x t ↔ ∃ stage, place t = .held x stage ∧ stage ≠ .closing := by
  have hmem : ∀ stage, t ∈ s.list (.held x stage) ↔ place t = .held x stage := fun stage =>
    (h.lists (.held x stage)).2 t
  constructor
  · rintro (hopen | hpc | hpc | hpc | hpc)
    · exact ⟨.opened, (hmem .opened).1 hopen, nofun⟩
    · exact ⟨.linking, (hmem .linking).1 (Pc.mem_held_linking.2 hpc), nofun⟩
    · exact ⟨.counting, (hmem .counting).1 (Pc.mem_held_counting.2 hpc), nofun⟩
    · exact ⟨.releasing, (hmem .releasing).1 (Pc.mem_held_releasing.2 hpc), nofun⟩
    · exact ⟨.removing, (hmem .removing).1 (Pc.mem_held_removing.2 hpc), nofun⟩
  · rintro ⟨stage, hplace, hstage⟩
    have hlist := (hmem stage).2 hplace
    cases stage with
    | opened => exact .inl hlist
    | linking => exact .inr (.inl (Pc.mem_held_linking.1 hlist))
    | counting => exact .inr (.inr (.inl (Pc.mem_held_counting.1 hlist)))
    | releasing => exact .inr (.inr (.inr (.inl (Pc.mem_held_releasing.1 hlist))))
    | removing => exact .inr (.inr (.inr (.inr (Pc.mem_held_removing.1 hlist))))
    | closing => exact absurd rfl hstage

theorem Inv.pc_counting_iff : s.pc x = .counting t ↔ place t = .held x .counting :=
  Pc.mem_held_counting.symm.trans ((h.lists (.held x .counting)).2 t)

theorem Inv.pc_removing_iff : s.pc x = .removing t ↔ place t = .held x .removing :=
  Pc.mem_held_removing.symm.trans ((h.lists (.held x .removing)).2 t)

/-- **A TABLE counts if its place does.** -/
theorem Inv.counts_iff : s.Counts i t ↔ s.instanceNo t = i ∧ (place t).counted := by
  constructor
  · rintro ⟨⟨e, ht⟩, hi, hpc⟩
    refine ⟨hi, ?_⟩
    obtain ⟨-, hlinked⟩ := h.place_of_mem (.all e) ht
    cases hplace : place t with
    | gone =>
      rw [hplace] at hlinked
      cases hlinked
    | free => rfl
    | held x stage =>
      cases stage with
      | opened | releasing => rfl
      | counting => exact absurd (h.pc_counting_iff.2 hplace) (hpc x).1
      | removing => exact absurd (h.pc_removing_iff.2 hplace) (hpc x).2
      | linking | closing =>
        rw [hplace] at hlinked
        cases hlinked
  · rintro ⟨hi, hcounted⟩
    have hgone : place t ≠ .gone := by
      intro hplace
      rw [hplace] at hcounted
      cases hcounted
    obtain ⟨e, he⟩ := Option.ne_none_iff_exists'.1 (mt (h.gone t).1 hgone)
    have hlinked : (place t).linked := by
      cases hplace : place t with
      | gone => exact absurd hplace hgone
      | free => rfl
      | held x stage =>
        rw [hplace] at hcounted
        cases stage <;> first | rfl | cases hcounted
    have ht : t ∈ s.allTables e := ((h.lists (.all e)).2 t).2 ⟨he, hlinked⟩
    refine ⟨⟨e, ht⟩, hi, fun x => ⟨fun hpc => ?_, fun hpc => ?_⟩⟩
    · rw [h.pc_counting_iff.1 hpc] at hcounted
      cases hcounted
    · rw [h.pc_removing_iff.1 hpc] at hcounted
      cases hcounted

variable [DecidableEq E] [DecidableEq T]

/-- A cached TABLE is in use by one connection, or free. -/
theorem Inv.placed (ht : t ∈ s.allTables e) :
    (∃ x, s.inUse t = some x ∧ (∀ y, s.Holds y t ↔ y = x) ∧
      (∀ e' i, t ∉ s.shareFreeTables e' i) ∧ ∀ i, t ∉ s.freeTables i) ∨
    (s.inUse t = none ∧ (∀ y, ¬s.Holds y t) ∧
      (∀ e' i, (s.shareFreeTables e' i).count t = if e' = e ∧ i = s.instanceNo t then 1 else 0) ∧
      ∀ i, (s.freeTables i).count t = if i = s.instanceNo t then 1 else 0) := by
  obtain ⟨he, hlinked⟩ := h.place_of_mem (.all e) ht
  have huses := h.uses t
  cases hplace : place t with
  | gone =>
    rw [hplace] at hlinked
    cases hlinked
  | free =>
    rw [hplace] at huses
    refine .inr ⟨huses, fun y hy => ?_, fun e' i => ?_, fun i => ?_⟩
    · obtain ⟨stage, hheld, -⟩ := h.holds_iff.1 hy
      cases hplace.symm.trans hheld
    · have hmem : t ∈ s.shareFreeTables e' i ↔ e' = e ∧ i = s.instanceNo t := by
        refine ((h.lists (.shareFree e' i)).2 t).trans ?_
        simp [Slot.Wants, hplace, he, eq_comm]
      exact (h.nodup (.shareFree e' i)).count.trans (if_congr hmem rfl rfl)
    · have hmem : t ∈ s.freeTables i ↔ i = s.instanceNo t := by
        refine ((h.lists (.free i)).2 t).trans ?_
        simp [Slot.Wants, hplace, eq_comm]
      exact (h.nodup (.free i)).count.trans (if_congr hmem rfl rfl)
  | held x stage =>
    have hstage : stage ≠ .closing := by
      rintro rfl
      rw [hplace] at hlinked
      cases hlinked
    refine .inl ⟨x, ?_, fun y => ?_, fun e' i => ?_, fun i => ?_⟩
    · rw [hplace] at huses
      cases stage with
      | closing => exact absurd rfl hstage
      | _ => exact huses
    · rw [h.holds_iff, hplace]
      refine ⟨?_, fun hy => ⟨stage, by rw [hy], hstage⟩⟩
      rintro ⟨_, hy, _⟩
      exact (Place.held.inj hy).1.symm
    · exact h.not_mem (.shareFree e' i) (by simp [Slot.Wants, hplace])
    · exact h.not_mem (.free i) (by simp [Slot.Wants, hplace])

theorem Inv.kept (hflush : Flush c s) : s.Kept where
  placed e t ht := h.placed ht
  counted i := by
    have hset : {t | s.Counts i t} = {t | s.instanceNo t = i ∧ (place t).counted} :=
      Set.ext fun t => h.counts_iff
    rw [hset]
    exact h.records i
  purged e hp := by
    obtain ⟨-, hquiet⟩ := hflush.purged e hp
    have hempty : ∀ i, s.shareFreeTables e i = [] := by
      intro i
      rw [List.eq_nil_iff_forall_not_mem]
      intro t ht
      obtain ⟨-, rfl, hplace⟩ := h.place_of_mem (.shareFree e i) ht
      have hlt := h.bound t (by simp [hplace])
      rw [(hquiet _ hlt).1] at ht
      cases ht
    refine ⟨hempty, fun t ht hnone => ?_⟩
    obtain ⟨x, huse, -⟩ | ⟨-, -, hcount, -⟩ := h.placed ht
    · cases huse.symm.trans hnone
    · have hone := hcount e (s.instanceNo t)
      rw [hempty, if_pos ⟨rfl, rfl⟩] at hone
      cases hone

end

theorem inv_init (c : Config) : Inv c (init c : State X E T) fun _ => .gone where
  active_pos := c.tcInstances_pos
  active_le := le_rfl
  lists slot := by
    have hnil : (init c : State X E T).list slot = [] := by
      obtain e | ⟨e, i⟩ | i | ⟨x, stage⟩ := slot
      iterate 3 rfl
      cases stage <;> rfl
    have hwants : ¬slot.Wants none 0 .gone := by
      obtain e | ⟨e, i⟩ | i | ⟨x, stage⟩ := slot <;> simp [Slot.Wants]
    rw [hnil]
    exact ⟨List.nodup_nil, fun t => iff_of_false List.not_mem_nil hwants⟩
  records i := by
    have hset : {t : T | 0 = i ∧ (Place.gone : Place X).counted} = ∅ :=
      Set.eq_empty_of_forall_notMem fun _ ht => by cases ht.2
    exact (congrArg Set.encard hset).trans Set.encard_empty
  gone _ := iff_of_true rfl rfl
  bound _ hne := absurd rfl hne
  uses _ := trivial

theorem flush_init (c : Config) : Flush c (init c : State X E T) where
  lockTableCache _ _ _ hpc := nomatch hpc
  lockTableShare _ _ _ _ _ hpc := nomatch hpc
  sweeping _ _ _ _ hpc := nomatch hpc
  purged _ hp := nomatch hp

/-! ## The steps that a flush does not meet -/

/-- **The share is made anew.** -/
theorem Flush.create [DecidableEq E] (h : Flush c s) (hlock : s.lockTableShare e = none) :
    Flush c { s with
      flushed := update s.flushed e false
      purged := update s.purged e false } := by
  refine ⟨h.lockTableCache, h.lockTableShare, fun y e' i purgeTables hu => ?_, fun e' hp => ?_⟩
  · have hne : e' ≠ e := by
      rintro rfl
      cases hlock.symm.trans (h.lockTableShare y e' i purgeTables _ hu)
    obtain ⟨hmark, hq⟩ := h.sweeping y e' i purgeTables hu
    exact ⟨(update_of_ne hne ..).trans hmark, hq⟩
  · have hne : e' ≠ e := by
      rintro rfl
      cases (update_self ..).symm.trans hp
    obtain ⟨hmark, hq⟩ := h.purged e' ((update_of_ne hne ..).symm.trans hp)
    exact ⟨(update_of_ne hne ..).trans hmark, hq⟩

variable [DecidableEq X]

theorem Aside.goto {pc : Pc E T} : Aside x s (s.goto x pc) where
  pc y hy := by rw [pc_goto, if_neg hy]
  lockTableCache := rfl
  lockTableShare := rfl
  flushed := rfl
  purged := rfl
  free _ _ hfree := hfree
  tables _ _ _ _ _ := ⟨rfl, rfl⟩

theorem Aside.counted : Aside x s (s.counted x t) := { __ := Aside.goto }

variable [DecidableEq T]

theorem Aside.addTable (h : Inv c s place) (ht : s.share t = none) (e : E) (gid : ℕ) :
    Aside x s (s.addTable x t e gid) where
  __ := Aside.goto
  tables y u remove _ hpc := by
    have hne : u ≠ t := by
      rintro rfl
      cases ((h.gone u).1 ht).symm.trans (h.place_releasing hpc)
    exact ⟨update_of_ne hne .., update_of_ne hne ..⟩

theorem Aside.closeTable (h : Inv c s place) {purgeTables : List T}
    (hpc : s.pc x = .closing purgeTables) : Aside x s (s.closeTable x purgeTables) := by
  cases purgeTables with
  | nil => exact .goto
  | cons t rest =>
    refine { __ := Aside.goto, tables := fun y u remove _ hy => ⟨update_of_ne ?_ .., rfl⟩ }
    rintro rfl
    have hplace : place u = .held x .closing :=
      h.place_of_mem (.held x .closing) (by simp [State.list, Pc.held, hpc])
    cases hplace.symm.trans (h.place_releasing hy)

variable [DecidableEq E]

theorem Aside.evicted (lru : T) (e : E) : Aside x s (s.evicted x lru e) where
  __ := Aside.goto
  free e' j hfree := by
    simp only [State.evicted, State.setShareFreeTables, State.goto]
    split_ifs with hej
    · rw [← hej.1, ← hej.2, hfree]
      rfl
    · exact hfree

theorem Aside.countTable (h : Inv c s place) (x : X) (t : T) : Aside x s (s.countTable c x t) := by
  obtain heq | ⟨lru, e, -, -, heq⟩ := h.countTable_eq t x <;> rw [heq]
  · exact .counted
  · exact Aside.counted.trans (.evicted lru e)

theorem Aside.acquireTable (x : X) (e : E) (i : ℕ) : Aside x s (s.acquireTable x e i) := by
  rw [State.acquireTable]
  cases ht : s.shareFreeTables e i with
  | nil => exact .refl x s
  | cons t rest =>
    refine ⟨fun _ _ => rfl, rfl, rfl, rfl, rfl, fun e' j hfree => ?_, fun _ _ _ _ _ => ⟨rfl, rfl⟩⟩
    have hej : ¬(e' = e ∧ j = i) := by
      rintro ⟨rfl, rfl⟩
      cases ht.symm.trans hfree
    exact (if_neg hej).trans hfree

theorem Aside.removeUnused {purgeTables : List T} {caller : Sweep E}
    (hpc : s.pc x = .sweeping e i purgeTables caller) (t : T) :
    Aside x s (s.removeUnused x e i caller t) := by
  rw [State.removeUnused, hpc]
  refine { __ := Aside.goto, free := fun e' j hfree => ?_ }
  simp only [State.setShareFreeTables, State.goto]
  split_ifs with hej
  · rw [← hej.1, ← hej.2, hfree]
    rfl
  · exact hfree

/-- The loop over the free tables of an instance leaves none there. -/
theorem foldl_removeUnused_aside {caller : Sweep E} : ∀ {ts purgeTables : List T}
    {s : State X E T}, s.pc x = .sweeping e i purgeTables caller → s.shareFreeTables e i = ts →
    Aside x s (ts.foldl (State.removeUnused x e i caller) s) ∧
      (ts.foldl (State.removeUnused x e i caller) s).shareFreeTables e i = []
  | [], _, s, _, hts => ⟨.refl x s, hts⟩
  | t :: ts, purgeTables, s, hpc, hts => by
      rw [List.foldl_cons]
      obtain ⟨haside, hempty⟩ := foldl_removeUnused_aside (State.pc_removeUnused hpc t)
        (State.shareFreeTables_removeUnused hpc hts)
      exact ⟨(Aside.removeUnused hpc t).trans haside, hempty⟩

/-! ## The steps that it meets -/

omit [DecidableEq E] in
/-- **`tc_release_table` looks at the mark**: a TABLE of a marked share is to go. -/
theorem Flush.releaseTable (h : Flush c s) (he : s.share t = some e)
    (hlock : s.lockTableCache (s.instanceNo t) = none) (needsReopen : Bool) :
    Flush c (s.releaseTable c x t e needsReopen) := by
  have hpcs : ∀ y, y ≠ x → (s.releaseTable c x t e needsReopen).pc y = s.pc y := by
    intro y hy
    rw [State.releaseTable, pc_goto, if_neg hy]
  have hself : (s.releaseTable c x t e needsReopen).pc x = .releasing t
      (needsReopen || s.flushed e || decide (c.tcSize < s.records (s.instanceNo t))) := by
    rw [State.releaseTable, pc_goto, if_pos rfl]
  refine h.of_others hpcs (fun y u remove hy hpc => ?_)
    (fun y e i purgeTables caller _ hpc => h.lockTableShare y e i purgeTables caller hpc)
    (fun _ hmark => hmark) (fun e' j hmark hq => ⟨hq.1, fun y u hpc hu => ?_⟩) (fun _ hp => .inl hp)
    (fun u remove hpc => ?_) (fun _ _ _ _ hpc => by cases hself.symm.trans hpc)
  · have hu := h.lockTableCache y u remove hpc
    refine (update_of_ne (fun hi => ?_) ..).trans hu
    cases (hi ▸ hlock).symm.trans hu
  · by_cases hy : y = x
    · subst hy
      rw [hself] at hpc
      simp only [Pc.releasing.injEq, Bool.or_eq_false_iff] at hpc
      obtain ⟨rfl, ⟨-, hnot⟩, -⟩ := hpc
      rw [Option.some.inj (he.symm.trans hu), hmark] at hnot
      cases hnot
    · exact hq.2 y u (hpcs y hy ▸ hpc) hu
  · obtain ⟨rfl, -⟩ := Pc.releasing.inj (hself.symm.trans hpc)
    exact update_self ..

/-- **`tc_release_table` acts.** Where a flush has been it does not put a TABLE into the lists: it
would have had it in hand when the flush came by. -/
theorem Flush.finishRelease (h : Flush c s) {remove : Bool} (hpc : s.pc x = .releasing t remove)
    (he : s.share t = some e) : Flush c (s.finishRelease x t e remove) := by
  have hx := h.lockTableCache x t remove hpc
  have hpcs : ∀ y, y ≠ x → (s.finishRelease x t e remove).pc y = s.pc y := by
    intro y hy
    cases remove <;> simp [State.finishRelease, hy, State.setShareFreeTables]
  have hself : (s.finishRelease x t e remove).pc x = if remove then .removing t else .idle := by
    cases remove <;> simp [State.finishRelease]
  have hfields : (s.finishRelease x t e remove).instanceNo = s.instanceNo ∧
      (s.finishRelease x t e remove).share = s.share ∧
      (s.finishRelease x t e remove).lockTableCache =
        update s.lockTableCache (s.instanceNo t) none := by
    cases remove <;> exact ⟨rfl, rfl, rfl⟩
  obtain ⟨hinstance, hshare, hcache⟩ := hfields
  refine h.of_others hpcs (fun y u r hy hu => ?_) (fun y e' i purgeTables caller _ hu => ?_)
    (fun e' hmark => ?_) (fun e' j hmark hq => ⟨?_, fun y u hu hue => ?_⟩) (fun e' hp => .inl ?_)
    (fun u r hu => ?_) (fun _ _ _ _ hu => ?_)
  · have hlock := h.lockTableCache y u r hu
    rw [hinstance, hcache, update_of_ne (fun hi => ?_), hlock]
    rw [hi, hx] at hlock
    exact hy (Option.some.inj hlock).symm
  · cases remove <;> exact h.lockTableShare y e' i purgeTables caller hu
  · cases remove <;> exact hmark
  · cases remove with
    | true => exact hq.1
    | false =>
      have hej : ¬(e' = e ∧ j = s.instanceNo t) := by
        rintro ⟨rfl, rfl⟩
        exact hq.2 x t hpc he rfl
      exact (if_neg hej).trans hq.1
  · have hy : y ≠ x := by
      rintro rfl
      rw [hself] at hu
      cases remove <;> cases hu
    rw [hinstance]
    exact hq.2 y u (hpcs y hy ▸ hu) (hshare ▸ hue)
  · cases remove <;> exact hp
  · rw [hself] at hu
    cases remove <;> cases hu
  · rw [hself] at hu
    cases remove <;> cases hu

omit [DecidableEq T] in
/-- **A connection takes the mutex of a share** and may mark it. -/
theorem Flush.enter (h : Flush c s) (hlock : s.lockTableShare e = none) {flushed : E → Bool}
    (hflushed : ∀ e, s.flushed e = true → flushed e = true) {caller : Sweep E}
    (hmark : caller = .flush true → flushed e = true) (purgeTables : List T) :
    Flush c ({ s with
      lockTableShare := update s.lockTableShare e (some x)
      flushed := flushed }.goto x (.sweeping e 0 purgeTables caller)) := by
  refine h.of_others (fun y hy => by rw [pc_goto, if_neg hy])
    (fun y u remove _ hu => h.lockTableCache y u remove hu)
    (fun y e' i purgeTables caller hy hu => ?_) hflushed
    (fun e' j _ hq => ⟨hq.1, fun y u hu hue => ?_⟩) (fun _ hp => .inl hp) (fun u remove hu => ?_)
    (fun e' i ts caller' hu => ?_)
  · have hy' := h.lockTableShare y e' i purgeTables caller hu
    refine (update_of_ne (fun hee => ?_) ..).trans hy'
    cases (hee ▸ hlock).symm.trans hy'
  · rw [pc_goto] at hu
    split_ifs at hu with hy
    exact hq.2 y u hu hue
  · rw [pc_goto, if_pos rfl] at hu
    cases hu
  · rw [pc_goto, if_pos rfl] at hu
    obtain ⟨rfl, rfl, -, rfl⟩ := Pc.sweeping.inj hu
    exact ⟨update_self .., fun hc => ⟨hmark hc, by simp⟩⟩

/-- **The flush comes by an instance.** Its mutex is free, so that nobody is about to put a TABLE
there. -/
theorem Flush.removeAllUnused (h : Flush c s) {purgeTables : List T} {caller : Sweep E}
    (hpc : s.pc x = .sweeping e i purgeTables caller) (hlock : s.lockTableCache i = none) :
    Flush c (s.removeAllUnused x e i caller) := by
  obtain ⟨purgeTables', -, heq⟩ := State.removeAllUnused_eq hpc
  obtain ⟨hloop, hempty⟩ := foldl_removeUnused_aside hpc rfl
  generalize (s.shareFreeTables e i).foldl (State.removeUnused x e i caller) s = s₁ at *
  rw [heq]
  have haside : Aside x s (s₁.goto x (.sweeping e (i + 1) purgeTables' caller)) := hloop.trans .goto
  have hx : ∀ u remove, (s₁.goto x (.sweeping e (i + 1) purgeTables' caller)).pc x ≠
      .releasing u remove := by
    intro u remove hu
    rw [pc_goto, if_pos rfl] at hu
    cases hu
  refine h.aside haside hx (fun e' i' ts caller' hu => ?_)
  rw [pc_goto, if_pos rfl] at hu
  obtain ⟨rfl, rfl, -, rfl⟩ := Pc.sweeping.inj hu
  refine ⟨haside.lockTableShare ▸ h.lockTableShare x e i purgeTables caller hpc, ?_⟩
  rintro rfl
  obtain ⟨hmark, hq⟩ := h.sweeping x e i purgeTables hpc
  refine ⟨haside.flushed ▸ hmark, fun j hj => ?_⟩
  obtain hj | rfl := Nat.lt_succ_iff_lt_or_eq.1 hj
  · exact (hq j hj).aside haside (hx · false)
  · have hcalm : s.Calm e j := by
      rintro y u hy - rfl
      cases hlock.symm.trans (h.lockTableCache y u false hy)
    exact ⟨hempty, hcalm.aside haside (hx · false)⟩

omit [DecidableEq T] in
/-- **The mutex of the share is given up**, and a flush is through. -/
theorem Flush.endSweep (h : Flush c s) {purgeTables : List T} {caller : Sweep E}
    (hpc : s.pc x = .sweeping e i purgeTables caller) (hi : c.tcInstances ≤ i) :
    Flush c (s.endSweep x e purgeTables caller) := by
  have hx := h.lockTableShare x e i purgeTables caller hpc
  have hpcs : ∀ y, y ≠ x → (s.endSweep x e purgeTables caller).pc y = s.pc y := by
    intro y hy
    cases caller <;> simp [State.endSweep, hy]
  have hself : (∀ u remove, (s.endSweep x e purgeTables caller).pc x ≠ .releasing u remove) ∧
      ∀ e' i ts caller', (s.endSweep x e purgeTables caller).pc x ≠ .sweeping e' i ts caller' := by
    cases caller <;> simp [State.endSweep]
  have hquiet : ∀ e' j, s.Quiet e' j → (s.endSweep x e purgeTables caller).Quiet e' j := by
    intro e' j hq
    refine ⟨by cases caller <;> exact hq.1, fun y u hu hue => ?_⟩
    have hy : y ≠ x := by
      rintro rfl
      exact hself.1 u false hu
    rw [hpcs y hy] at hu
    cases caller <;> exact hq.2 y u hu hue
  refine h.of_others hpcs (fun y u remove hy hu => ?_) (fun y e' j ts caller' hy hu => ?_)
    (fun e' hmark => ?_) (fun e' j _ hq => hquiet e' j hq) (fun e' hp => ?_)
    (fun u remove hu => absurd hu (hself.1 u remove))
    (fun e' j ts caller' hu => absurd hu (hself.2 e' j ts caller'))
  · cases caller <;> exact h.lockTableCache y u remove hu
  · have hy' := h.lockTableShare y e' j ts caller' hu
    have hne : e' ≠ e := by
      rintro rfl
      exact hy (Option.some.inj (hx.symm.trans hy')).symm
    cases caller <;> exact (update_of_ne hne ..).trans hy'
  · cases caller <;> exact hmark
  · cases caller with
    | purge next => exact .inl hp
    | flush markFlushed =>
      by_cases hne : e' = e
      · subst hne
        have hp' : (s.purged e' || markFlushed) = true := (update_self ..).symm.trans hp
        obtain hp' | rfl := Bool.or_eq_true_iff.1 hp'
        · exact .inl hp'
        · obtain ⟨hmark, hq⟩ := h.sweeping x e' i purgeTables hpc
          exact .inr ⟨hmark, fun j hj => hquiet e' j (hq j (hj.trans_le hi))⟩
      · exact .inl ((update_of_ne hne ..).symm.trans hp)

/-- **A step moves a TABLE to another place or none, and keeps what a flush relies on.** -/
theorem Inv.step (h : Inv c s place) (hflush : Flush c s) {ev : Event X E T}
    (hs : s.step c ev = some s') : (∃ place', Inv c s' place') ∧ Flush c s' := by
  cases ev with
  | add x t e gid =>
    obtain ⟨⟨hpc, ht⟩, hs⟩ := Option.ite_none_right_eq_some.1 hs
    cases hs
    exact ⟨⟨_, h.addTable hpc ht e gid⟩, hflush.aside (.addTable h ht e gid)⟩
  | link x =>
    simp only [State.step] at hs
    split at hs
    next t hpc =>
      obtain ⟨e, he, hs⟩ := Option.bind_eq_some_iff.1 hs
      obtain ⟨-, hs⟩ := Option.ite_none_right_eq_some.1 hs
      cases hs
      exact ⟨⟨_, h.linkTable hpc he⟩, hflush.aside (x := x) { __ := Aside.goto }⟩
    next => cases hs
  | count x =>
    simp only [State.step] at hs
    split at hs
    next t hpc =>
      obtain ⟨-, hs⟩ := Option.ite_none_right_eq_some.1 hs
      cases hs
      have hx : (s.countTable c x t).pc x = .idle ∨
          ∃ lru, (s.countTable c x t).pc x = .removing lru := by
        obtain heq | ⟨lru, e, -, -, heq⟩ := h.countTable_eq t x <;> rw [heq]
        · simp [State.counted]
        · simp [State.evicted]
      refine ⟨h.countTable hpc, hflush.aside (.countTable h x t) ?_ ?_⟩ <;>
        obtain hx | ⟨lru, hx⟩ := hx <;> simp [hx]
    next => cases hs
  | acquire x e gid =>
    obtain ⟨⟨hpc, -⟩, hs⟩ := Option.ite_none_right_eq_some.1 hs
    cases hs
    have hx : (s.acquireTable x e (gid % s.activeInstances)).pc = s.pc := by
      rw [State.acquireTable]
      split <;> rfl
    refine ⟨?_, hflush.aside (.acquireTable x e _) (by simp [hx, hpc]) (by simp [hx, hpc])⟩
    cases hfree : s.shareFreeTables e (gid % s.activeInstances) with
    | nil => exact ⟨place, by rwa [State.acquireTable, hfree]⟩
    | cons t rest => exact ⟨_, h.acquireTable x hfree⟩
  | release x t needsReopen =>
    obtain ⟨e, he, hs⟩ := Option.bind_eq_some_iff.1 hs
    obtain ⟨⟨hpc, ht, hlock⟩, hs⟩ := Option.ite_none_right_eq_some.1 hs
    cases hs
    exact ⟨⟨_, h.releaseTable hpc ht e needsReopen⟩, hflush.releaseTable he hlock needsReopen⟩
  | finishRelease x =>
    simp only [State.step] at hs
    split at hs
    next t remove hpc =>
      obtain ⟨e, he, hs⟩ := Option.bind_eq_some_iff.1 hs
      cases hs
      refine ⟨?_, hflush.finishRelease hpc he⟩
      cases remove with
      | false => exact ⟨_, h.finishRelease_false hpc he⟩
      | true => exact ⟨_, h.finishRelease_true hpc e⟩
    next => cases hs
  | remove x =>
    simp only [State.step] at hs
    split at hs
    next t hpc =>
      obtain ⟨e, he, hs⟩ := Option.bind_eq_some_iff.1 hs
      obtain ⟨-, hs⟩ := Option.ite_none_right_eq_some.1 hs
      cases hs
      exact ⟨⟨_, h.removeTable hpc he⟩, hflush.aside (x := x) { __ := Aside.goto }⟩
    next => cases hs
  | purge x shares =>
    obtain ⟨hpc, hs⟩ := Option.ite_none_right_eq_some.1 hs
    cases hs
    exact ⟨⟨place, h.goto⟩, hflush.aside (x := x) .goto⟩
  | visit x =>
    simp only [State.step] at hs
    split at hs
    next purgeTables hpc =>
      cases hs
      exact ⟨⟨place, h.goto⟩, hflush.aside (x := x) .goto⟩
    next e next purgeTables hpc =>
      obtain ⟨hlock, hs⟩ := Option.ite_none_right_eq_some.1 hs
      cases hs
      refine ⟨⟨place, (h.mark _ s.flushed s.purged).goto⟩,
        hflush.enter hlock (fun _ hmark => hmark) (fun hcaller => ?_) purgeTables⟩
      cases hcaller
    next => cases hs
  | flushUnused x e markFlushed =>
    obtain ⟨⟨hpc, hlock⟩, hs⟩ := Option.ite_none_right_eq_some.1 hs
    cases hs
    refine ⟨⟨place, (h.mark _ _ s.purged).goto⟩,
      hflush.enter hlock (fun e' hmark => ?_) ?_ []⟩
    · by_cases hne : e' = e
      · subst hne
        simp [hmark]
      · simp [hne, hmark]
    · rintro hcaller
      obtain rfl := Sweep.flush.inj hcaller
      simp
  | sweep x =>
    simp only [State.step] at hs
    split at hs
    next e i purgeTables caller hpc =>
      split_ifs at hs with hi hlock
      · cases hs
        exact ⟨h.removeAllUnused hpc, hflush.removeAllUnused hpc hlock⟩
      · cases hs
        refine ⟨⟨place, ?_⟩, hflush.endSweep hpc (not_lt.1 hi)⟩
        cases caller with
        | purge next =>
          exact (h.mark _ s.flushed s.purged).goto
        | flush markFlushed =>
          exact (h.mark _ s.flushed _).goto
    next => cases hs
  | close x =>
    simp only [State.step] at hs
    split at hs
    next purgeTables hpc =>
      cases hs
      have haside := Aside.closeTable h hpc
      cases purgeTables with
      | nil => exact ⟨⟨place, h.goto⟩, hflush.aside haside⟩
      | cons t rest => exact ⟨⟨_, h.closeTable hpc⟩, hflush.aside haside⟩
    next => cases hs
  | create x e =>
    obtain ⟨⟨-, hlock⟩, hs⟩ := Option.ite_none_right_eq_some.1 hs
    cases hs
    exact ⟨⟨place, h.congr h.active_pos h.active_le (fun _ => rfl) rfl rfl rfl rfl⟩,
      hflush.create hlock⟩
  | activate =>
    obtain ⟨hlt, hs⟩ := Option.ite_none_right_eq_some.1 hs
    cases hs
    exact ⟨⟨place, h.congr (Nat.succ_pos _) hlt (fun _ => rfl) rfl rfl rfl rfl⟩,
      hflush.lockTableCache, hflush.lockTableShare, hflush.sweeping, hflush.purged⟩

/-- **The books of the table cache are right in every state of every run.** -/
theorem safe_kept_init (c : Config) (evs : List (Event X E T)) :
    Machine.Safe (State.step c) State.Kept (init c) evs :=
  Machine.safe_of_step (I := fun s => ∃ place, Inv c s place ∧ Flush c s)
    (fun _ ⟨_, h, hflush⟩ => h.kept hflush)
    (fun _ _ _ ⟨_, h, hflush⟩ hs =>
      have ⟨hstep, hflush'⟩ := h.step hflush hs
      hstep.imp fun _ h' => ⟨h', hflush'⟩) evs
    ⟨_, inv_init c, flush_init c⟩

end EloqSql.TableCache
