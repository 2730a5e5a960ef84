import Mathlib.Data.List.Rotate
import Mathlib.Data.Nat.ModEq
import EloqSql.Lib.Machine

/-!
# CircularQueue — a ring of cells that refines a list

`CircularQueue` keeps its items in an array, from `head` on and around its end, and copies them into
a larger array when that is full. `Refines` relates a queue to the list of its items; every call
keeps it, and so does every run (`exec_contents`).
-/

namespace EloqSql

open List
open Machine (exec)

/-- `CircularQueue`. -/
structure CircularQueue (T : Type) where
  vec : List T
  head : ℕ
  cnt : ℕ
  capacity : ℕ

namespace CircularQueue

variable {T : Type} [Inhabited T]

/-- The constructor. -/
def new (capacity : ℕ) : CircularQueue T := ⟨replicate capacity default, 0, 0, capacity⟩

/-- `Reset`. -/
def reset (q : CircularQueue T) : CircularQueue T :=
  if q.capacity > 8 then new 8 else { q with head := 0, cnt := 0 }

/-- `std::copy` of the cells from `first` to `last`, which the loops that move them do too. -/
def copy (src : List T) (first last : ℕ) (dst : List T) (out : ℕ) : List T :=
  dst.take out ++ (src.take last).drop first ++ dst.drop (out + (last - first))

/-- The array of a full queue in a larger one: from the head to the end, and then up to the head. -/
def grown (q : CircularQueue T) (newCapacity : ℕ) : List T :=
  copy q.vec 0 q.head (copy q.vec q.head q.capacity (replicate newCapacity default) 0)
    (q.capacity - q.head)

/-- Both overloads of `Enqueue`, which grow the array differently. -/
def enqueueTo (newCapacity : ℕ) (q : CircularQueue T) (item : T) : CircularQueue T :=
  if q.cnt = 0 then { q with vec := q.vec.set 0 item, head := 0, cnt := 1 }
  else if q.cnt = q.capacity then
    ⟨(q.grown newCapacity).set q.capacity item, 0, q.capacity + 1, newCapacity⟩
  else { q with vec := q.vec.set ((q.head + q.cnt) % q.capacity) item, cnt := q.cnt + 1 }

/-- `Enqueue(const T &)`. -/
def enqueue (q : CircularQueue T) (item : T) : CircularQueue T :=
  q.enqueueTo (q.capacity <<< 1) item

/-- `Enqueue(T &&)`. The product with 1.5 is exact below `2 ^ 52`. -/
def enqueueMove (q : CircularQueue T) (item : T) : CircularQueue T :=
  q.enqueueTo (q.capacity * 3 / 2) item

/-- `EnqueueAsFirst`. -/
def enqueueAsFirst (q : CircularQueue T) (item : T) : CircularQueue T :=
  if q.cnt = 0 then { q with vec := q.vec.set 0 item, head := 0, cnt := 1 }
  else if q.cnt = q.capacity then
    let newCapacity := q.capacity * 3 / 2
    ⟨(q.grown newCapacity).set (newCapacity - 1) item, newCapacity - 1, q.capacity + 1, newCapacity⟩
  else
    let head := if q.head ≠ 0 then q.head - 1 else q.capacity - 1
    { q with vec := q.vec.set head item, head := head, cnt := q.cnt + 1 }

/-- `Dequeue`. -/
def dequeue (q : CircularQueue T) : CircularQueue T :=
  if q.cnt > 0 then
    { q with head := if q.head + 1 = q.capacity then 0 else q.head + 1, cnt := q.cnt - 1 }
  else q

/-- `Get`. -/
def get (q : CircularQueue T) (index : ℕ) : T := q.vec.getD ((q.head + index) % q.capacity) default

/-- The loop of `Erase`, with `n` turns to go. -/
def eraseLoop (head capacity : ℕ) : ℕ → ℕ → List T → List T
  | 0, _, vec => vec
  | n + 1, index, vec => eraseLoop head capacity n (index + 1)
      (vec.set ((head + index) % capacity) (vec.getD ((head + index + 1) % capacity) default))

/-- `Erase` of an item. -/
def erase (q : CircularQueue T) (index : ℕ) : CircularQueue T :=
  { q with
    vec := eraseLoop q.head q.capacity (q.cnt - 1 - index) index q.vec
    cnt := q.cnt - 1
    head := if q.cnt - 1 = 0 then 0 else q.head }

/-- The calls of a user of the queue. -/
inductive Call (T : Type)
  | enqueue (item : T)
  | enqueueMove (item : T)
  | enqueueAsFirst (item : T)
  | dequeue
  | erase (index : ℕ)
  | reset

/-- A call; only items that there are may be erased. -/
def step (q : CircularQueue T) : Call T → Option (CircularQueue T)
  | .enqueue item => some (q.enqueue item)
  | .enqueueMove item => some (q.enqueueMove item)
  | .enqueueAsFirst item => some (q.enqueueAsFirst item)
  | .dequeue => some q.dequeue
  | .erase index => if index < q.cnt then some (q.erase index) else none
  | .reset => some q.reset

/-- What a call does to a list. -/
def listStep (xs : List T) : Call T → Option (List T)
  | .enqueue item | .enqueueMove item => some (xs ++ [item])
  | .enqueueAsFirst item => some (item :: xs)
  | .dequeue => some xs.tail
  | .erase index => if index < xs.length then some (xs.eraseIdx index) else none
  | .reset => some []

/-- The values of `Get`. -/
def contents (q : CircularQueue T) : List T := (range q.cnt).map q.get

/-- **The cells hold a list**, from the head on and around the end. -/
structure Ring (vec : List T) (head cnt capacity : ℕ) (xs : List T) : Prop where
  length_vec : vec.length = capacity
  two_le : 2 ≤ capacity
  head_lt : head < capacity
  length_eq : xs.length = cnt
  cnt_le : cnt ≤ capacity
  cell : ∀ i < cnt, vec[(head + i) % capacity]? = xs[i]?

/-- **The queue holds a list.** -/
def Refines (q : CircularQueue T) (xs : List T) : Prop := Ring q.vec q.head q.cnt q.capacity xs

/-! ## Rings -/

section Ring

variable {vec xs : List T} {head cnt capacity : ℕ} {item : T}

omit [Inhabited T]

/-- The cells are apart. -/
theorem mod_ne {i j : ℕ} (hi : i < capacity) (hj : j < capacity) (hne : i ≠ j) :
    (head + i) % capacity ≠ (head + j) % capacity := fun h =>
  hne ((Nat.ModEq.add_left_cancel' head h).eq_of_lt_of_lt hi hj)

theorem Ring.single (hvec : vec.length = capacity) (htwo : 2 ≤ capacity) :
    Ring (vec.set 0 item) 0 1 capacity [item] :=
  ⟨by simpa, htwo, by omega, rfl, by omega, fun i hi => by
    obtain rfl : i = 0 := by omega
    simp [hvec, show 0 < capacity by omega]⟩

variable (h : Ring vec head cnt capacity xs)

include h

theorem Ring.mod_lt (n : ℕ) : n % capacity < capacity :=
  Nat.mod_lt n (Nat.zero_lt_of_lt h.head_lt)

theorem Ring.push (hlt : cnt < capacity) (item : T) :
    Ring (vec.set ((head + cnt) % capacity) item) head (cnt + 1) capacity (xs ++ [item]) := by
  refine ⟨by simpa using h.length_vec, h.two_le, h.head_lt, by simp [h.length_eq], hlt,
    fun i hi => ?_⟩
  rw [getElem?_set, h.length_vec, getElem?_append, h.length_eq]
  obtain hi | rfl := Nat.lt_succ_iff_lt_or_eq.1 hi
  · rw [if_neg (mod_ne hlt (by omega) hi.ne'), if_pos hi, h.cell i hi]
  · simp [h.mod_lt]

theorem Ring.pushFront (hlt : cnt < capacity) {head' : ℕ}
    (hhead : head' = if head ≠ 0 then head - 1 else capacity - 1) :
    Ring (vec.set head' item) head' (cnt + 1) capacity (item :: xs) := by
  have hold := h.head_lt
  have hh : head' < capacity := by split_ifs at hhead <;> omega
  have hnext : (head' + 1) % capacity = head := by
    split_ifs at hhead with hz
    · rw [hhead, Nat.sub_add_cancel (by omega), Nat.mod_eq_of_lt hold]
    · rw [hhead, Nat.sub_add_cancel (by omega), Nat.mod_self, not_not.1 hz]
  refine ⟨by simpa using h.length_vec, h.two_le, hh, by simp [h.length_eq], hlt, fun i hi => ?_⟩
  obtain _ | i := i
  · simp [Nat.mod_eq_of_lt hh, h.length_vec, hh]
  · have hne : (head' + 0) % capacity ≠ (head' + (i + 1)) % capacity :=
      mod_ne (by omega) (by omega) nofun
    rw [Nat.add_zero, Nat.mod_eq_of_lt hh] at hne
    rw [getElem?_set_ne hne, getElem?_cons_succ, ← h.cell i (by omega), ← hnext,
      Nat.mod_add_mod, Nat.add_right_comm, Nat.add_assoc]

theorem Ring.pop {head' : ℕ} (hhead : head' = if head + 1 = capacity then 0 else head + 1) :
    Ring vec head' (cnt - 1) capacity xs.tail := by
  have hnext : head' = (head + 1) % capacity := by
    have := h.head_lt
    split_ifs at hhead with he
    · rw [hhead, he, Nat.mod_self]
    · rw [hhead, Nat.mod_eq_of_lt (by omega)]
  refine ⟨h.length_vec, h.two_le, hnext ▸ h.mod_lt _, by simp [h.length_eq],
    (Nat.sub_le _ _).trans h.cnt_le, fun i hi => ?_⟩
  rw [hnext, Nat.mod_add_mod, Nat.add_assoc, Nat.add_comm 1, h.cell _ (by omega), getElem?_tail]

theorem Ring.clear : Ring vec 0 0 capacity ([] : List T) :=
  ⟨h.length_vec, h.two_le, Nat.zero_lt_of_lt h.head_lt, rfl, Nat.zero_le _, nofun⟩

end Ring

/-! ## Loops -/

variable {q : CircularQueue T} {xs : List T} {head capacity : ℕ}

/-- **The larger array holds the same list**, from its first cell on. -/
theorem Refines.grown (h : Refines q xs) {n : ℕ} (hn : q.capacity ≤ n) :
    Ring (q.grown n) 0 q.cnt n xs := by
  obtain ⟨hvec, htwo, hh, hxs, hle, hcell⟩ := h
  have hgrown : q.grown n = q.vec.rotate q.head ++ replicate (n - q.capacity) default := by
    rw [CircularQueue.grown, copy, copy, rotate_eq_drop_append_take (by omega)]
    simp [drop_append, hvec, hh.le, take_of_length_le hvec.le,
      show n - (q.capacity - q.head) - (q.capacity - (q.capacity - q.head)) = n - q.capacity by
        omega]
  rw [hgrown]
  refine ⟨by simp [hvec, hn], by omega, by omega, hxs, by omega, fun i hi => ?_⟩
  rw [← hcell i hi, Nat.zero_add, Nat.mod_eq_of_lt (by omega),
    getElem?_append_left (by simp [hvec]; omega), getElem?_rotate (by omega), hvec,
    Nat.add_comm]

theorem length_eraseLoop : ∀ {n index : ℕ} {vec : List T},
    (eraseLoop head capacity n index vec).length = vec.length
  | 0, _, _ => rfl
  | n + 1, _, _ => by rw [eraseLoop, length_eraseLoop, length_set]

/-- **The loop of `Erase` moves the items behind one to the front**, by induction on the turns. -/
theorem getElem?_eraseLoop :
    ∀ {n index i : ℕ} {vec : List T}, vec.length = capacity → index + n < capacity → i < capacity →
      (eraseLoop head capacity n index vec)[(head + i) % capacity]? =
        vec[(head + if index ≤ i ∧ i < index + n then i + 1 else i) % capacity]?
  | 0, index, i, vec, _, _, _ => by rw [eraseLoop, if_neg (by omega)]
  | n + 1, index, i, vec, hvec, hn, hi => by
      have hmod := fun j => Nat.mod_lt j (Nat.zero_lt_of_lt hi)
      rw [eraseLoop, getElem?_eraseLoop (by rwa [length_set]) (by omega) hi]
      obtain rfl | hne := eq_or_ne i index
      · rw [if_neg (by omega), if_pos (by omega), getElem?_set_self (by rw [hvec]; exact hmod _)]
        simp [getD_eq_getElem?_getD, hvec, hmod, Nat.add_assoc]
      · rw [getElem?_set_ne (mod_ne (by omega) (by split_ifs <;> omega)
            (by split_ifs <;> omega)),
          if_congr (show _ ↔ index ≤ i ∧ i < index + (n + 1) by omega) rfl rfl]

theorem Ring.erase {vec : List T} {cnt index : ℕ} (h : Ring vec head cnt capacity xs)
    (hi : index < cnt) :
    Ring (eraseLoop head capacity (cnt - 1 - index) index vec) (if cnt - 1 = 0 then 0 else head)
      (cnt - 1) capacity (xs.eraseIdx index) := by
  obtain ⟨hvec, htwo, hh, hxs, hle, hcell⟩ := h
  refine ⟨by rwa [length_eraseLoop], htwo, by split_ifs <;> omega,
    by rw [length_eraseIdx_of_lt (by omega), hxs], by omega, fun i hi' => ?_⟩
  rw [if_neg (by omega), getElem?_eraseLoop hvec (by omega) (by omega), getElem?_eraseIdx]
  split_ifs <;> first | omega | exact hcell _ (by omega)

/-! ## Runs -/

theorem Refines.enqueueTo (h : Refines q xs) {n : ℕ} (hn : q.capacity < n) (item : T) :
    Refines (q.enqueueTo n item) (xs ++ [item]) := by
  rw [CircularQueue.enqueueTo]
  split_ifs with hz hfull
  · cases length_eq_zero_iff.1 (h.length_eq.trans hz)
    exact .single h.length_vec h.two_le
  · have hpush := (h.grown hn.le).push (by omega) item
    rwa [Nat.zero_add, hfull, Nat.mod_eq_of_lt hn] at hpush
  · exact h.push (lt_of_le_of_ne h.cnt_le hfull) item

theorem Refines.enqueueAsFirst (h : Refines q xs) (item : T) :
    Refines (q.enqueueAsFirst item) (item :: xs) := by
  have htwo := h.two_le
  rw [CircularQueue.enqueueAsFirst]
  by_cases hz : q.cnt = 0
  · rw [if_pos hz]
    cases length_eq_zero_iff.1 (h.length_eq.trans hz)
    exact .single h.length_vec htwo
  rw [if_neg hz]
  by_cases hfull : q.cnt = q.capacity
  · rw [if_pos hfull, ← hfull]
    exact (h.grown (by omega)).pushFront (by omega) rfl
  · rw [if_neg hfull]
    exact h.pushFront (lt_of_le_of_ne h.cnt_le hfull) rfl

theorem Refines.step (h : Refines q xs) (c : Call T) :
    Option.Rel Refines (q.step c) (listStep xs c) := by
  have htwo := h.two_le
  have hh := h.head_lt
  cases c with
  | enqueue item => exact .some (h.enqueueTo (by rw [Nat.shiftLeft_eq]; omega) item)
  | enqueueMove item => exact .some (h.enqueueTo (by omega) item)
  | enqueueAsFirst item => exact .some (h.enqueueAsFirst item)
  | dequeue =>
    refine .some ?_
    by_cases hpos : q.cnt > 0
    · rw [dequeue, if_pos hpos]
      exact h.pop rfl
    · cases length_eq_zero_iff.1 (h.length_eq.trans (Nat.eq_zero_of_not_pos hpos))
      rwa [dequeue, if_neg hpos]
  | erase index =>
    rw [CircularQueue.step, listStep, h.length_eq]
    split_ifs with hi
    · exact .some (h.erase hi)
    · exact .none
  | reset =>
    refine .some ?_
    rw [reset]
    split_ifs
    · exact ⟨by simp [new], by simp [new], by simp [new], rfl, by simp [new], nofun⟩
    · exact h.clear

theorem Refines.contents (h : Refines q xs) : q.contents = xs := by
  refine ext_getElem? fun i => ?_
  obtain hi | hi := lt_or_ge i q.cnt
  · have hlt : (q.head + i) % q.capacity < q.vec.length := by
      rw [h.length_vec]
      exact h.mod_lt _
    simp [CircularQueue.contents, hi, ← h.cell i hi, get, hlt]
  · rw [getElem?_eq_none (by simpa [CircularQueue.contents]),
      getElem?_eq_none (by rwa [h.length_eq])]

/-- **The queue refines a double-ended list**: after any calls, `Get` gives the items of the list
that the same calls make, and the head and the size are within the capacity. -/
theorem exec_contents {capacity : ℕ} (hcap : 2 ≤ capacity) (calls : List (Call T)) :
    (exec step (new capacity) calls).map CircularQueue.contents
        = exec listStep [] calls ∧
      ∀ q ∈ exec step (new capacity) calls, q.head < q.capacity ∧ q.cnt ≤ q.capacity := by
  have hnew : Refines (new capacity : CircularQueue T) [] :=
    ⟨length_replicate, hcap, by simp only [new]; omega, rfl, Nat.zero_le _, nofun⟩
  have hrel := Machine.exec_rel (fun c h => Refines.step h c) calls hnew
  generalize exec step (new capacity) calls = o, exec listStep [] calls = o' at hrel
  cases hrel with
  | none => simp
  | some h => exact ⟨congrArg some h.contents, by simpa using ⟨h.head_lt, h.cnt_le⟩⟩

/-- A queue of two cells that wraps around and grows, at its end and before its head. -/
theorem exec_contents_two :
    (exec step (new 2) [.enqueue 1, .enqueue 2, .dequeue, .enqueue 3, .enqueueMove 4,
      .enqueueAsFirst 5, .erase 1, .enqueue 6]).map CircularQueue.contents = some [5, 3, 4, 6] :=
  (exec_contents (T := ℕ) (show 2 ≤ 2 by decide) _).1

end CircularQueue

end EloqSql
