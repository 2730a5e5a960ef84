import Mathlib.Data.List.Induction
import Mathlib.Data.List.Nodup
import Mathlib.Logic.Function.Basic

/-!
# Lib/LinkedList — doubly linked lists in a heap

Nodes have a pointer back and a pointer forth. `Chain h a l` says that from the node `a` on the
nodes of `l` follow, linked both ways. A node is put in behind the first one (`Chain.insertAfter`)
and taken out anywhere (`Chain.remove`); both leave chains with other nodes alone. Walking along the
pointers visits the nodes of a chain, forth (`walkNext_eq`) and from its end back (`walkPrev_eq`).
-/

namespace LinkedList

open List

open Function (update update_of_ne)

/-- The two pointers of each node. -/
structure Links (N : Type*) where
  prev : N → Option N
  next : N → Option N

variable {N : Type*} {h h' : Links N} {a b x y : N} {l l' : List N}

/-- **The nodes of `l` follow `a`**, and the last one ends the list. -/
def Chain (h : Links N) : N → List N → Prop
  | a, [] => h.next a = none
  | a, b :: l => h.next a = some b ∧ h.prev b = some a ∧ Chain h b l

/-- A chain only reads the pointers of its own nodes. -/
theorem Chain.congr : ∀ {a : N} {l : List N}, Chain h a l → (∀ y ∈ a :: l, h'.next y = h.next y) →
    (∀ y ∈ l, h'.prev y = h.prev y) → Chain h' a l
  | a, [], hc, hnext, _ => (hnext a (by simp)).trans hc
  | a, b :: l, ⟨hn, hp, hc⟩, hnext, hprev =>
    ⟨(hnext a (by simp)).trans hn, (hprev b (by simp)).trans hp,
      hc.congr (fun y hy => hnext y (mem_cons_of_mem _ hy))
        fun y hy => hprev y (mem_cons_of_mem _ hy)⟩

/-- What a pointer forth points to is behind. -/
theorem Chain.next_mem : ∀ {a : N} {l : List N}, Chain h a l → x ∈ a :: l → h.next x = some y →
    y ∈ l
  | a, [], hc, hx, hy => by
      obtain rfl : x = a := by simpa using hx
      exact nomatch hc.symm.trans hy
  | a, b :: l, ⟨hn, _, hc⟩, hx, hy => by
      obtain rfl | hx := mem_cons.1 hx
      · cases hn.symm.trans hy
        exact mem_cons_self
      · exact mem_cons_of_mem _ (hc.next_mem hx hy)

/-- What a pointer back points to is before. -/
theorem Chain.prev_eq : ∀ {a : N} {l₁ l₂ : List N}, Chain h a (l₁ ++ x :: l₂) →
    h.prev x = (a :: l₁).getLast?
  | _, [], _, hc => hc.2.1
  | a, b :: l₁, l₂, hc => by
      rw [hc.2.2.prev_eq, getLast?_cons_cons]

theorem Chain.prev_mem (hc : Chain h a l) (hx : x ∈ l) : ∃ p ∈ a :: l, h.prev x = some p := by
  obtain ⟨l₁, l₂, rfl⟩ := append_of_mem hx
  have hlast : (a :: l₁).getLast? = some ((a :: l₁).getLast (by simp)) :=
    getLast?_eq_some_getLast _
  refine ⟨_, ?_, hc.prev_eq.trans hlast⟩
  have hmem := getLast_mem (cons_ne_nil a l₁)
  rw [← cons_append]
  exact mem_append_left _ hmem

variable [DecidableEq N]

/-! ## Putting in and taking out -/

/-- A write through a pointer, unless it is null. -/
def writeAt (f : N → Option N) : Option N → Option N → N → Option N
  | none, _ => f
  | some p, v => update f p v

theorem writeAt_of_ne {f : N → Option N} {p v : Option N} (hp : p ≠ some y) :
    writeAt f p v y = f y := by
  cases p with
  | none => rfl
  | some p => exact update_of_ne (fun e => hp (by rw [e])) ..

/-- **`x` is put in behind `a`.** -/
def Links.insertAfter (h : Links N) (a x : N) : Links N where
  next := update (update h.next x (h.next a)) a (some x)
  prev := writeAt (update h.prev x (some a)) (h.next a) (some x)

/-- **`x` is taken out**, and its pointers are cleared. -/
def Links.remove (h : Links N) (x : N) : Links N where
  next := update (writeAt h.next (h.prev x) (h.next x)) x none
  prev := update (writeAt h.prev (h.next x) (h.prev x)) x none

theorem insertAfter_next_of_ne (hx : y ≠ x) (ha : y ≠ a) :
    (h.insertAfter a x).next y = h.next y := by
  simp [Links.insertAfter, ha, hx]

theorem insertAfter_prev_of_ne (hx : y ≠ x) (hnext : h.next a ≠ some y) :
    (h.insertAfter a x).prev y = h.prev y := by
  simp [Links.insertAfter, writeAt_of_ne hnext, hx]

theorem remove_next_of_ne (hx : y ≠ x) (hprev : h.prev x ≠ some y) :
    (h.remove x).next y = h.next y := by
  simp [Links.remove, writeAt_of_ne hprev, hx]

theorem remove_prev_of_ne (hx : y ≠ x) (hnext : h.next x ≠ some y) :
    (h.remove x).prev y = h.prev y := by
  simp [Links.remove, writeAt_of_ne hnext, hx]

@[simp] theorem remove_next_self : (h.remove x).next x = none := by simp [Links.remove]

@[simp] theorem remove_prev_self : (h.remove x).prev x = none := by simp [Links.remove]

/-- **A new node behind the first one.** -/
theorem Chain.insertAfter (hc : Chain h a l) (hnodup : (a :: l).Nodup) (hx : x ∉ a :: l) :
    Chain (h.insertAfter a x) a (x :: l) := by
  obtain ⟨hxa, hxl⟩ := not_or.1 (mt mem_cons.2 hx)
  have hnext : (h.insertAfter a x).next x = h.next a := by
    simp [Links.insertAfter, hxa]
  have hprev : (h.insertAfter a x).prev x = some a := by
    have hxb : h.next a ≠ some x := fun e => hxl (hc.next_mem mem_cons_self e)
    simp [Links.insertAfter, writeAt_of_ne hxb]
  refine ⟨by simp [Links.insertAfter], hprev, ?_⟩
  cases l with
  | nil => exact hnext.trans hc
  | cons b l =>
    obtain ⟨hab, hba, hrest⟩ := hc
    obtain ⟨hxb, hxl⟩ := not_or.1 (mt mem_cons.2 hxl)
    obtain ⟨hal, hbl⟩ := nodup_cons.1 hnodup
    refine ⟨hnext.trans hab, by simp [Links.insertAfter, writeAt, hab], hrest.congr (fun y hy => ?_)
      fun y hy => ?_⟩
    · exact insertAfter_next_of_ne (fun e => hx (e ▸ mem_cons_of_mem _ hy))
        fun e => hal (e ▸ hy)
    · refine insertAfter_prev_of_ne (fun e => hxl (e ▸ hy)) fun e => ?_
      cases hab.symm.trans e
      exact (nodup_cons.1 hbl).1 hy

/-- **A node is taken out.** -/
theorem Chain.remove : ∀ {a : N} {l : List N}, Chain h a l → (a :: l).Nodup → x ∈ l →
    Chain (h.remove x) a (l.erase x)
  | a, b :: l, hc, hnodup, hx => by
      obtain ⟨hab, hba, hrest⟩ := hc
      obtain ⟨hal, hbl⟩ := nodup_cons.1 hnodup
      obtain ⟨hbl', hl⟩ := nodup_cons.1 hbl
      by_cases hxb : b = x
      · -- the first node: `a` gets its pointer forth
        subst hxb
        have hne : a ≠ b := fun e => hal (e ▸ mem_cons_self)
        have hnext : (h.remove b).next a = h.next b := by
          simp [Links.remove, writeAt, hba, hne]
        rw [erase_cons_head]
        cases l with
        | nil => exact hnext.trans hrest
        | cons c l =>
          obtain ⟨hbc, hcb, hrest⟩ := hrest
          have hbc' : b ≠ c := fun e => hbl' (e ▸ mem_cons_self)
          refine ⟨hnext.trans hbc, by simp [Links.remove, writeAt, hbc, hbc'.symm, hba],
            hrest.congr (fun y hy => ?_) fun y hy => ?_⟩
          · refine remove_next_of_ne (fun e => hbl' (e ▸ hy)) fun e => ?_
            cases hba.symm.trans e
            exact hal (mem_cons_of_mem _ hy)
          · refine remove_prev_of_ne (fun e => hbl' (e ▸ mem_cons_of_mem _ hy)) fun e => ?_
            cases hbc.symm.trans e
            exact (nodup_cons.1 hl).1 hy
      · -- a later node: neither pointer between `a` and `b` changes
        have hxl : x ∈ l := (mem_cons.1 hx).resolve_left fun e => hxb e.symm
        have hxa : a ≠ x := fun e => hal (e ▸ hx)
        obtain ⟨p, hp, hxp⟩ := hrest.prev_mem hxl
        rw [erase_cons_tail (by simpa using hxb)]
        refine ⟨(remove_next_of_ne hxa fun e => ?_).trans hab,
          (remove_prev_of_ne hxb fun e => ?_).trans hba, hrest.remove hbl hxl⟩
        · cases hxp.symm.trans e
          exact hal hp
        · exact hbl' (hrest.next_mem (mem_cons_of_mem _ hxl) e)

/-- A new node leaves a chain of other nodes alone. -/
theorem Chain.insertAfter_of_disjoint (hb : Chain h b l') (ha : Chain h a l)
    (hx : x ∉ b :: l') (hdisj : ∀ y ∈ b :: l', y ∉ a :: l) : Chain (h.insertAfter a x) b l' := by
  refine hb.congr (fun y hy => ?_) fun y hy => ?_
  · exact insertAfter_next_of_ne (fun e => hx (e ▸ hy)) fun e => hdisj y hy (e ▸ mem_cons_self)
  · have hy := mem_cons_of_mem b hy
    refine insertAfter_prev_of_ne (fun e => hx (e ▸ hy)) fun e => hdisj y hy ?_
    exact mem_cons_of_mem _ (ha.next_mem mem_cons_self e)

/-- So does a node that is taken out. -/
theorem Chain.remove_of_disjoint (hb : Chain h b l') (ha : Chain h a l) (hx : x ∈ l)
    (hdisj : ∀ y ∈ b :: l', y ∉ a :: l) : Chain (h.remove x) b l' := by
  have hxl : x ∈ a :: l := mem_cons_of_mem _ hx
  refine hb.congr (fun y hy => ?_) fun y hy => ?_
  · refine remove_next_of_ne (fun e => hdisj y hy (e ▸ hxl)) fun e => hdisj y hy ?_
    obtain ⟨p, hp, hxp⟩ := ha.prev_mem hx
    rwa [← Option.some.inj (hxp.symm.trans e)]
  · have hy := mem_cons_of_mem b hy
    exact remove_prev_of_ne (fun e => hdisj y hy (e ▸ hxl))
      fun e => hdisj y hy (mem_cons_of_mem _ (ha.next_mem hxl e))

/-! ## Walking -/

/-- The nodes from here on, along the pointers forth. -/
def walkNext (h : Links N) : ℕ → Option N → List N
  | n + 1, some x => x :: walkNext h n (h.next x)
  | _, _ => []

/-- The last node from here on. -/
def lastNode (h : Links N) : ℕ → N → N
  | 0, x => x
  | n + 1, x =>
    match h.next x with
    | none => x
    | some y => lastNode h n y

/-- The nodes along the pointers back, up to the node `stop`. -/
def walkPrev (h : Links N) (stop : N) : ℕ → Option N → List N
  | n + 1, some x => if x = stop then [] else x :: walkPrev h stop n (h.prev x)
  | _, _ => []

omit [DecidableEq N] in
theorem walkNext_eq : ∀ {l : List N} {a : N} {n : ℕ}, Chain h a l → l.length ≤ n →
    walkNext h n (h.next a) = l
  | [], a, n, hc, _ => by
      rw [show h.next a = none from hc]
      cases n <;> rfl
  | b :: l, a, n + 1, hc, hn => by
      rw [hc.1, walkNext, walkNext_eq hc.2.2 (by simpa using hn)]

omit [DecidableEq N] in
theorem lastNode_eq : ∀ {l : List N} {a : N} {n : ℕ}, Chain h a l → l.length ≤ n →
    some (lastNode h n a) = (a :: l).getLast?
  | [], a, 0, _, _ => rfl
  | [], a, n + 1, hc, _ => by
      rw [lastNode, show h.next a = none from hc]
      rfl
  | b :: l, a, n + 1, hc, hn => by
      simp only [lastNode, hc.1]
      rw [lastNode_eq hc.2.2 (by simpa using hn), getLast?_cons_cons]

/-- Walking back from a node in the middle. -/
theorem walkPrev_append {l₁ l₂ : List N} {n : ℕ} (hc : Chain h a (l₁ ++ l₂))
    (hnodup : (a :: (l₁ ++ l₂)).Nodup) (hn : l₁.length < n) :
    walkPrev h a n (a :: l₁).getLast? = l₁.reverse := by
  induction l₁ using reverseRecOn generalizing n l₂ with
  | nil =>
    obtain ⟨n, rfl⟩ := Nat.exists_eq_succ_of_ne_zero (Nat.ne_of_gt hn)
    simp [walkPrev]
  | append_singleton l₁ x ih =>
    obtain ⟨n, rfl⟩ := Nat.exists_eq_succ_of_ne_zero (Nat.ne_of_gt (Nat.zero_lt_of_lt hn))
    rw [append_assoc, singleton_append] at hc hnodup
    have hxa : x ≠ a := by
      rintro rfl
      exact (nodup_cons.1 hnodup).1 (by simp)
    have hback := ih hc hnodup (n := n) (by simpa using hn)
    rw [← cons_append, getLast?_append, getLast?_singleton, Option.some_or, walkPrev,
      if_neg hxa, hc.prev_eq, hback, reverse_append]
    rfl

/-- **Walking back from the end visits the nodes in reverse.** -/
theorem walkPrev_eq {n : ℕ} (hc : Chain h a l) (hnodup : (a :: l).Nodup) (hn : l.length < n) :
    walkPrev h a n (a :: l).getLast? = l.reverse :=
  walkPrev_append ((append_nil l).symm ▸ hc) ((append_nil l).symm ▸ hnodup) hn

end LinkedList
