import EloqSql.Lib.Machine

/-!
# AutoIncrement — generated values of an `AUTO_INCREMENT` column

`handler::update_auto_increment` keeps a cursor, `next_insert_id`, into an interval it has reserved,
and reserves another one when the cursor has left it. The engine reserves `[start, start + count *
increment)` without regard to the offset, so that the server rounds the start up and shifts the
interval by as much: its last value still is in the reservation (`mem_range`).

Statements of any sessions are interleaved at their calls. A row gets its value before it is
written; afterwards it is written, or `INSERT IGNORE` passes over it, or `ON DUPLICATE KEY UPDATE`
updates another row, and `restore_auto_increment` takes the cursor back. If the row had reserved a
new interval, the cursor then may stand before that interval, at a value that was never reserved.
-/

namespace EloqSql

open List

namespace AutoIncrement

/-! ## `handler::update_auto_increment` -/

/-- `ULONGLONG_MAX`. -/
def ulonglongMax : ℕ := 2 ^ 64 - 1

/-- `auto_increment_increment` and `auto_increment_offset` of a session. -/
structure Variables where
  increment : ℕ
  offset : ℕ
  one_le : 1 ≤ offset
  offset_le : offset ≤ increment
  increment_le : increment ≤ 65535

/-- `compute_next_insert_id`. -/
def computeNextInsertId (vars : Variables) (nr : ℕ) : ℕ :=
  let saveNr := nr
  let nr := if vars.increment = 1 then (nr + 1) % 2 ^ 64
    else ((nr + vars.increment - vars.offset) % 2 ^ 64 / vars.increment
      * vars.increment + vars.offset) % 2 ^ 64
  if nr ≤ saveNr then ulonglongMax else nr

/-- `Discrete_interval`. -/
structure DiscreteInterval where
  minimum : ℕ
  values : ℕ
  maximum : ℕ

/-- `Discrete_interval::replace`. -/
def DiscreteInterval.replace (start val incr : ℕ) : DiscreteInterval :=
  ⟨start, val, if val = ulonglongMax then val else (start + val * incr) % 2 ^ 64⟩

/-- What `ApplyIdOfAutoIncrColumn` returns, numbers of type `int64_t`. -/
structure Answer where
  start : ℕ
  count : ℕ
  one_le : 1 ≤ start := by decide
  start_lt : start < 2 ^ 63 := by decide
  count_lt : count < 2 ^ 63 := by decide

/-- `ha_eloq::get_auto_increment`: the first value, and how many are reserved. -/
def getAutoIncrement (a : Answer) : ℕ × ℕ :=
  if a.count = 0 then (ulonglongMax, 0) else (a.start, a.count)

/-- A call of `ApplyIdOfAutoIncrColumn`, and what it returned. -/
structure Call where
  increment : ℕ
  nbDesiredValues : ℕ
  start : ℕ
  count : ℕ

/-- The end of the range of a call. -/
def Call.stop (c : Call) : ℕ := c.start + c.count * c.increment

/-- The column: its place in its index, and the values it takes. -/
structure Column where
  nextNumberKeypart : ℕ
  maxValue : ℕ
  unsignedFlag : Bool

/-- A statement that inserts rows: its settings, and the members of its handler. A row that has got
a value is `pending` until it is clear what becomes of it, with the cursor before it,
`prev_insert_id` of `write_record`, in `prevInsertId`. -/
structure Statement where
  vars : Variables
  estimationRowsToInsert : ℕ
  manyValues : ℕ
  nextInsertId : ℕ := 0
  insertIdForCurRow : ℕ := 0
  interval : DiscreteInterval := .replace 0 0 0
  intervalsCount : ℕ := 0
  prevInsertId : ℕ := 0
  pending : Option ℕ := none

namespace Statement

variable (st : Statement)

/-- `nb_desired_values`. -/
def nbDesiredValues : ℕ :=
  if st.intervalsCount = 0 ∧ st.estimationRowsToInsert > 0 then st.estimationRowsToInsert
  else if st.intervalsCount = 0 ∧ st.manyValues > 0 then st.manyValues
  else if st.intervalsCount ≤ 16 then min (2 ^ st.intervalsCount) (2 ^ 16 - 1)
  else 2 ^ 16 - 1

/-- The end of `update_auto_increment`, with the value it has found; `write_record` has noted the
cursor before. -/
def generate (nr : ℕ) : Statement :=
  { st with
    prevInsertId := st.nextInsertId
    insertIdForCurRow := nr
    nextInsertId := computeNextInsertId st.vars nr
    pending := some nr }

/-- A new interval, unless the column is not first in its index. -/
def append (keypart nr nbReservedValues : ℕ) : Statement :=
  if keypart = 0 then
    { st with
      interval := .replace nr nbReservedValues st.vars.increment
      intervalsCount := st.intervalsCount + 1 }
  else st

/-- **`handler::update_auto_increment`**: the call it makes, and the statement after it if no error
is returned. -/
def updateAutoIncrement (keypart : ℕ) (a : Answer) : Option Call × Option Statement :=
  if st.nextInsertId ≥ st.interval.maximum then
    let call : Call := ⟨st.vars.increment, st.nbDesiredValues, a.start, a.count⟩
    let (nr, nbReservedValues) := getAutoIncrement a
    if nr = ulonglongMax then (some call, none)
    else
      let nr := computeNextInsertId st.vars (nr - 1)
      if nr = ulonglongMax then (some call, none)
      else (some call, some ((st.append keypart nr nbReservedValues).generate nr))
  else if st.nextInsertId = ulonglongMax then (none, none)
  else (none, some (st.generate st.nextInsertId))

/-- `adjust_next_insert_id_after_explicit_value`. -/
def adjustNextInsertId (nr : ℕ) : Statement :=
  if st.nextInsertId > 0 ∧ nr ≥ st.nextInsertId then
    { st with nextInsertId := computeNextInsertId st.vars nr }
  else st

/-- `restore_auto_increment`. -/
def restoreAutoIncrement (prevInsertId : ℕ) : Statement :=
  { st with nextInsertId := if prevInsertId > 0 then prevInsertId else st.insertIdForCurRow }

end Statement

/-! ## Interleaved statements -/

variable {S : Type} [DecidableEq S]

/-- What becomes of a row: it is written, it is not and the cursor stays (its error ends the
statement, `REPLACE` tries again), `INSERT IGNORE` passes over it, or `ON DUPLICATE KEY UPDATE`
updates another row instead, which it may leave as it is (`different_records`), and which has an
explicit value of the column if the update names the column. -/
inductive Outcome where
  | written | failed | ignored
  | updated (differentRecords : Bool) (explicitValue : Option ℕ)

/-- What a session does next. -/
inductive Event (S : Type) where
  | start (session : S) (vars : Variables) (estimationRowsToInsert manyValues : ℕ)
  | generate (session : S) (a : Answer)
  | finish (session : S) (o : Outcome)
  /-- A row with a value of its own, under `NO_AUTO_VALUE_ON_ZERO`, and what becomes of it. -/
  | explicit (session : S) (nr : ℕ) (o : Outcome)
  /-- `ha_release_auto_increment`. -/
  | release (session : S)

/-- The sessions that insert into the table, the calls they have made, and the generated values of
the rows they have written, with the settings these were generated for. -/
structure State (S : Type) where
  statement : S → Option Statement
  calls : List Call
  rows : List (Variables × ℕ)

/-- A session gets another statement, or none. -/
def State.put (s : State S) (a : S) (st : Option Statement) : State S :=
  { s with statement := Function.update s.statement a st }

/-- No statement, no row. -/
def State.init : State S := ⟨fun _ => none, [], []⟩

/-- The `ON DUPLICATE KEY UPDATE` of `write_record`: the cursor goes back to where it was, and on to
the explicit value; without one, back to the value of the row, unless the update changes nothing. -/
def Statement.update (st : Statement) (differentRecords : Bool) (explicitValue : Option ℕ) :
    Statement :=
  let prevInsertIdForCurRow := if differentRecords then st.insertIdForCurRow else 0
  let st := st.restoreAutoIncrement st.prevInsertId
  let st := if differentRecords then { st with insertIdForCurRow := 0 } else st
  match explicitValue with
  | some nr => st.adjustNextInsertId nr
  | none =>
    if prevInsertIdForCurRow > 0 then st.restoreAutoIncrement prevInsertIdForCurRow else st

/-- The statement after a row. -/
def Statement.finish (st : Statement) : Outcome → Statement
  | .written | .failed => { st with pending := none }
  | .ignored => { st with pending := none }.restoreAutoIncrement st.prevInsertId
  | .updated differentRecords explicitValue =>
    { st with pending := none }.update differentRecords explicitValue

/-- A row with a value of its own: values that are negative do not move the cursor. -/
def Statement.explicit (t : Column) (st : Statement) (nr : ℕ) : Statement :=
  let st := { st with prevInsertId := st.nextInsertId }
  let st := if (0 < nr ∧ nr < 2 ^ 63) ∨ t.unsignedFlag then st.adjustNextInsertId nr else st
  { st with insertIdForCurRow := 0 }

/-- Ranges of calls have no value in common. -/
def Call.Apart (c d : Call) : Prop := min c.stop d.stop ≤ max c.start d.start

instance (c d : Call) : Decidable (c.Apart d) := inferInstanceAs (Decidable (_ ≤ _))

/-- The rows after a row with this outcome. -/
def Outcome.rows (o : Outcome) (vars : Variables) (nr : ℕ) (rows : List (Variables × ℕ)) :
    List (Variables × ℕ) :=
  match o with
  | .written => (vars, nr) :: rows
  | .failed | .ignored | .updated _ _ => rows

/-- **One call of one session.** The ranges that the engine reserves are apart, and no generated
value overflows the column. -/
def step (t : Column) (s : State S) : Event S → Option (State S)
  | .start a vars estimation manyValues =>
    match s.statement a with
    | some _ => none
    | none =>
      let st : Statement :=
        { vars := vars, estimationRowsToInsert := estimation, manyValues := manyValues }
      some (s.put a (some st))
  | .generate a ans =>
    match s.statement a with
    | none => none
    | some st =>
      if st.pending ≠ none then none
      else
        let (call, st') := st.updateAutoIncrement t.nextNumberKeypart ans
        if ∃ c ∈ call, ∃ d ∈ s.calls, ¬c.Apart d then none
        else
          let s := { s with calls := call.toList ++ s.calls }
          match st' with
          | none => some s
          | some st' =>
            if st'.insertIdForCurRow > t.maxValue then none
            else some (s.put a (some st'))
  | .finish a o =>
    match s.statement a with
    | none => none
    | some st =>
      match st.pending with
      | none => none
      | some nr => some { s.put a (some (st.finish o)) with rows := o.rows st.vars nr s.rows }
  | .explicit a nr o =>
    match s.statement a with
    | none => none
    | some st =>
      if st.pending ≠ none then none
      else some (s.put a (some ((st.explicit t nr).finish o)))
  | .release a =>
    match s.statement a with
    | none => none
    | some st =>
      if st.pending ≠ none then none
      else some (s.put a none)

/-- A value of the form `offset + k * increment`. -/
def Variables.Form (vars : Variables) (nr : ℕ) : Prop := ∃ k, nr = vars.offset + k * vars.increment

/-- **No two rows have the same generated value**, and each is of the form that its session asks
for. -/
def Unrepeated (s : State S) : Prop :=
  (s.rows.map Prod.snd).Nodup ∧ ∀ row ∈ s.rows, row.1.Form row.2

/-- With this outcome of a row the cursor is not taken back to before the interval: the row was the
first one, or the cursor was not below the interval that now is the current one, or the update
changes the row, or sets the column to a value that is not below the interval. -/
def Outcome.Inside (st : Statement) : Outcome → Prop
  | .written | .failed => True
  | .ignored => st.prevInsertId = 0 ∨ st.interval.minimum ≤ st.prevInsertId
  | .updated differentRecords none =>
    differentRecords = true ∨ st.prevInsertId = 0 ∨ st.interval.minimum ≤ st.prevInsertId
  | .updated _ (some nr) => st.prevInsertId = 0 ∨ st.interval.minimum ≤ max st.prevInsertId nr

/-- No row takes the cursor back to before the interval. -/
def StaysInside (s : State S) : Event S → Prop
  | .finish a o => ∀ st ∈ s.statement a, o.Inside st
  | _ => True

instance (st : Statement) (o : Outcome) : Decidable (o.Inside st) := by
  rcases o with _ | _ | _ | ⟨_, _ | _⟩ <;> dsimp only [Outcome.Inside] <;> infer_instance

instance (s : State S) : ∀ e : Event S, Decidable (StaysInside s e)
  | .finish a _ => inferInstanceAs (Decidable (∀ st ∈ s.statement a, _))
  | .start _ _ _ _ | .generate _ _ | .explicit _ _ _ | .release _ => isTrue trivial

/-! ## Arithmetic of the values -/

section Arithmetic

variable (vars : Variables)

/-- The next value is one of the form, or there is none. -/
theorem computeNextInsertId_cases (nr : ℕ) : computeNextInsertId vars nr = ulonglongMax ∨
    (nr < computeNextInsertId vars nr ∧ computeNextInsertId vars nr ≤ nr + vars.increment ∧
      vars.Form (computeNextInsertId vars nr)) := by
  have h1 := vars.one_le
  have h2 := vars.offset_le
  have h3 := vars.increment_le
  simp only [computeNextInsertId]
  by_cases h : vars.increment = 1
  · rw [if_pos h]
    split
    · exact Or.inl rfl
    · refine Or.inr ⟨by omega, by omega, (nr + 1) % 2 ^ 64 - 1, ?_⟩
      rw [h]
      omega
  · rw [if_neg h]
    set q := (nr + vars.increment - vars.offset) % 2 ^ 64 / vars.increment
    have hq : q * vars.increment ≤ (nr + vars.increment - vars.offset) % 2 ^ 64 :=
      Nat.div_mul_le_self ..
    split
    · exact Or.inl rfl
    · rename_i hlt
      have hsmall : q * vars.increment + vars.offset < 2 ^ 64 := by
        by_contra hge
        omega
      rw [Nat.mod_eq_of_lt hsmall] at hlt ⊢
      exact Or.inr ⟨by omega, by omega, q, by omega⟩

/-- The values of a shifted interval are in the reservation. -/
theorem mem_range {start count lo x : ℕ} (hlo : vars.Form lo) (hle : lo < start + vars.increment)
    (hx : vars.Form x) (hlt : x < lo + count * vars.increment) :
    x < start + count * vars.increment := by
  obtain ⟨j, rfl⟩ := hlo
  obtain ⟨k, rfl⟩ := hx
  have hk : k * vars.increment < (j + count) * vars.increment := by
    rw [Nat.add_mul]
    omega
  have hk' : (k + 1) * vars.increment ≤ (j + count) * vars.increment :=
    Nat.mul_le_mul_right _ (Nat.lt_of_mul_lt_mul_right hk)
  rw [Nat.add_mul, Nat.add_mul, Nat.one_mul] at hk'
  omega

end Arithmetic

/-! ## One statement -/

/-- A value is in the range of a call. -/
def Call.Covers (c : Call) (x : ℕ) : Prop := c.start ≤ x ∧ x < c.stop

theorem Call.Apart.not_covers {c d : Call} (h : c.Apart d) {x : ℕ} (hc : c.Covers x) :
    ¬d.Covers x := by
  intro hd
  rw [Apart, min_le_iff, le_max_iff, le_max_iff] at h
  obtain ⟨hc, hc'⟩ := hc
  obtain ⟨hd, hd'⟩ := hd
  omega

namespace Statement

variable {st : Statement}

/-- A value of the current interval. -/
def Owns (st : Statement) (x : ℕ) : Prop :=
  st.vars.Form x ∧ st.interval.minimum ≤ x ∧ x < st.interval.maximum

/-- What a cursor can be. -/
def IsCursor (st : Statement) (nr : ℕ) : Prop :=
  nr ≤ ulonglongMax ∧ (nr = 0 ∨ st.vars.Form nr ∨ nr = ulonglongMax)

/-- How far back the cursor can be taken in the interval. -/
def floor (st : Statement) : ℕ :=
  match st.pending with
  | none => st.nextInsertId
  | some nr => if st.prevInsertId = 0 then nr else min st.prevInsertId nr

/-- A value that a statement has left: it is about to use it, or can without a further call. -/
def Gives (st : Statement) (x : ℕ) : Prop := st.pending = some x ∨ st.Owns x ∧ st.floor ≤ x

/-- **The cursor is in the interval, or has left it.** -/
structure Ok (st : Statement) : Prop where
  inside : st.nextInsertId < st.interval.maximum →
    st.interval.minimum ≤ st.nextInsertId ∧ st.vars.Form st.nextInsertId
  maximum_le : st.interval.maximum ≤ ulonglongMax
  cursor : st.IsCursor st.nextInsertId
  prev : st.IsCursor st.prevInsertId
  pending : ∀ nr, st.pending = some nr →
    st.vars.Form nr ∧ st.insertIdForCurRow = nr ∧ nr < st.nextInsertId ∧
      (nr < st.interval.maximum → st.interval.minimum ≤ nr)

theorem Form.pos {vars : Variables} {nr : ℕ} (h : vars.Form nr) : 0 < nr := by
  obtain ⟨k, rfl⟩ := h
  have := vars.one_le
  omega

theorem maximum_replace_le (start val incr : ℕ) :
    (DiscreteInterval.replace start val incr).maximum ≤ ulonglongMax := by
  rw [DiscreteInterval.replace]
  by_cases h : val = ulonglongMax
  · exact (if_pos h).trans_le h.le
  · rw [if_neg h]
    exact Nat.le_sub_one_of_lt (Nat.mod_lt _ (by decide))

theorem computeNext_le (vars : Variables) (nr : ℕ) :
    computeNextInsertId vars nr ≤ ulonglongMax := by
  simp only [computeNextInsertId]
  have hmod : ∀ n, n % 2 ^ 64 ≤ ulonglongMax := fun n => by rw [ulonglongMax]; omega
  split_ifs
  any_goals exact hmod _
  all_goals exact le_rfl

/-- The cursor after a value. -/
theorem isCursor_computeNext (st : Statement) (nr : ℕ) :
    st.IsCursor (computeNextInsertId st.vars nr) := by
  refine ⟨computeNext_le st.vars nr, ?_⟩
  obtain h | ⟨-, -, h⟩ := computeNextInsertId_cases st.vars nr
  · exact Or.inr (Or.inr h)
  · exact Or.inr (Or.inl h)

theorem lt_computeNext (vars : Variables) {nr : ℕ} (h : nr < ulonglongMax) :
    nr < computeNextInsertId vars nr := by
  obtain h' | ⟨h', -⟩ := computeNextInsertId_cases vars nr
  · rwa [h']
  · exact h'

/-- **What `update_auto_increment` does**: it fails, takes the value at the cursor, or the first one
of a new interval. -/
theorem updateAutoIncrement_cases (h : st.Ok) (keypart : ℕ) (a : Answer) :
    (st.updateAutoIncrement keypart a).2 = none ∨
    (st.updateAutoIncrement keypart a = (none, some (st.generate st.nextInsertId)) ∧
      st.nextInsertId < st.interval.maximum) ∨
    ∃ nr, st.updateAutoIncrement keypart a
        = (some ⟨st.vars.increment, st.nbDesiredValues, a.start, a.count⟩,
          some ((st.append keypart nr a.count).generate nr)) ∧
      st.interval.maximum ≤ st.nextInsertId ∧ 0 < a.count ∧ st.vars.Form nr ∧ a.start ≤ nr ∧
      nr < a.start + st.vars.increment ∧ nr < ulonglongMax := by
  have hstart := a.one_le
  simp only [updateAutoIncrement]
  by_cases hge : st.nextInsertId ≥ st.interval.maximum
  · rw [if_pos hge]
    by_cases hcount : a.count = 0
    · exact Or.inl (by simp [getAutoIncrement, hcount])
    · have hmax : ¬a.start = ulonglongMax := by
        have := a.start_lt
        rw [ulonglongMax]
        omega
      simp only [getAutoIncrement, if_neg hcount, if_neg hmax]
      obtain hnr | ⟨hlt, hle, hform⟩ := computeNextInsertId_cases st.vars (a.start - 1)
      · exact Or.inl (by rw [if_pos hnr])
      · have hnext := computeNext_le st.vars (a.start - 1)
        by_cases hnr : computeNextInsertId st.vars (a.start - 1) = ulonglongMax
        · exact Or.inl (by rw [if_pos hnr])
        · rw [if_neg hnr]
          exact Or.inr (Or.inr ⟨_, rfl, hge, by omega, hform, by omega, by omega, by omega⟩)
  · have hlt := Nat.not_le.1 hge
    have hne : st.nextInsertId ≠ ulonglongMax := (hlt.trans_le h.maximum_le).ne
    rw [if_neg hge, if_neg hne]
    exact Or.inr (Or.inl ⟨rfl, hlt⟩)

/-- A new interval: its values are from the given one on. -/
theorem append_spec (st : Statement) (keypart nr : ℕ) {count : ℕ} (hcount : count < 2 ^ 63)
    (hsingle : keypart ≠ 0 → st.interval.maximum = 0) :
    (st.append keypart nr count).vars = st.vars ∧
    (st.append keypart nr count).nextInsertId = st.nextInsertId ∧
    (st.append keypart nr count).interval.maximum ≤ ulonglongMax ∧
    (keypart ≠ 0 → (st.append keypart nr count).interval.maximum = 0) ∧
    ∀ x < (st.append keypart nr count).interval.maximum,
      (st.append keypart nr count).interval.minimum = nr ∧ x < nr + count * st.vars.increment := by
  rw [append]
  by_cases hk : keypart = 0
  · rw [if_pos hk]
    refine ⟨rfl, rfl, maximum_replace_le .., fun h => absurd hk h, fun x hx => ⟨rfl, ?_⟩⟩
    have hne : count ≠ ulonglongMax := by
      rw [ulonglongMax]
      omega
    have hmax : (DiscreteInterval.replace nr count st.vars.increment).maximum
        = (nr + count * st.vars.increment) % 2 ^ 64 := if_neg hne
    exact hx.trans_le (hmax.le.trans (Nat.mod_le ..))
  · rw [if_neg hk]
    refine ⟨rfl, rfl, (hsingle hk).trans_le (Nat.zero_le _), fun _ => hsingle hk, fun x hx => ?_⟩
    rw [hsingle hk] at hx
    exact absurd hx (Nat.not_lt_zero x)

/-- A value is taken. -/
theorem ok_generate {nr : ℕ} (hmax : st.interval.maximum ≤ ulonglongMax)
    (hcursor : st.IsCursor st.nextInsertId) (hform : st.vars.Form nr) (hlt : nr < ulonglongMax)
    (hin : nr < st.interval.maximum → st.interval.minimum ≤ nr) : (st.generate nr).Ok where
  inside hnext := by
    obtain h | ⟨h, -, hform⟩ := computeNextInsertId_cases st.vars nr
    · change computeNextInsertId st.vars nr < st.interval.maximum at hnext
      omega
    · exact ⟨(hin (h.trans hnext)).trans h.le, hform⟩
  maximum_le := hmax
  cursor := isCursor_computeNext st nr
  prev := hcursor
  pending x hx := by
    cases hx
    exact ⟨hform, rfl, lt_computeNext st.vars hlt, hin⟩

/-- The row is over. -/
theorem Ok.settle (h : st.Ok) (nr : ℕ) : { st with insertIdForCurRow := nr, pending := none }.Ok :=
  ⟨h.inside, h.maximum_le, h.cursor, h.prev, fun _ hx => nomatch hx⟩

theorem Ok.le_adjust (h : st.Ok) (nr : ℕ) :
    st.nextInsertId ≤ (st.adjustNextInsertId nr).nextInsertId := by
  rw [adjustNextInsertId]
  split
  · rename_i hadj
    obtain hmax | ⟨hlt, -⟩ := computeNextInsertId_cases st.vars nr
    · exact h.cursor.1.trans hmax.ge
    · exact hadj.2.trans hlt.le
  · exact le_rfl

/-- The cursor is set, or taken back. -/
theorem Ok.restore (h : st.Ok) (hp : st.pending = none) {c : ℕ} (hc : st.IsCursor c) (hpos : c ≠ 0)
    (hin : c < st.interval.maximum → st.interval.minimum ≤ c) :
    { st with nextInsertId := c }.Ok where
  __ := h
  inside hlt := by
    refine ⟨hin hlt, (hc.2.resolve_left hpos).resolve_right fun hmax => ?_⟩
    have := h.maximum_le
    change c < st.interval.maximum at hlt
    omega
  cursor := hc
  pending x hx := nomatch hp.symm.trans hx

/-- The cursor moves on to behind a value that is not below the interval. -/
theorem Ok.advance (h : st.Ok) (hp : st.pending = none) {nr : ℕ}
    (hin : nr < st.interval.maximum → st.interval.minimum ≤ nr) :
    { st with nextInsertId := computeNextInsertId st.vars nr }.Ok := by
  have hcursor := isCursor_computeNext st nr
  obtain hmax | ⟨hlt, -, -⟩ := computeNextInsertId_cases st.vars nr
  · have := h.maximum_le
    exact h.restore hp hcursor (by simp [hmax, ulonglongMax]) (by omega)
  · exact h.restore hp hcursor (by omega) fun hnext => (hin (hlt.trans hnext)).trans hlt.le

/-- The cursor moves on. -/
theorem Ok.adjust (h : st.Ok) (hp : st.pending = none) (nr : ℕ) :
    (st.adjustNextInsertId nr).Ok := by
  rw [adjustNextInsertId]
  split
  · rename_i hadj
    exact h.advance hp fun hlt => (h.inside (hadj.2.trans_lt hlt)).1.trans hadj.2
  · exact h

theorem adjust_eq (st : Statement) (nr : ℕ) : st.adjustNextInsertId nr
    = { st with nextInsertId := (st.adjustNextInsertId nr).nextInsertId } := by
  rw [adjustNextInsertId]
  split <;> rfl

@[simp] theorem adjust_frame (nr : ℕ) : (st.adjustNextInsertId nr).vars = st.vars ∧
    (st.adjustNextInsertId nr).interval = st.interval ∧
    (st.adjustNextInsertId nr).pending = st.pending := by
  rw [adjust_eq]
  exact ⟨rfl, rfl, rfl⟩

theorem update_frame (d : Bool) (e : Option ℕ) : (st.update d e).vars = st.vars ∧
    (st.update d e).interval = st.interval ∧ (st.update d e).pending = st.pending := by
  simp only [update, restoreAutoIncrement]
  cases d <;> cases e <;> simp only [adjust_frame, and_self, if_true, if_false, Bool.false_eq_true]
  all_goals split <;> exact ⟨rfl, rfl, rfl⟩

theorem finish_frame (o : Outcome) : (st.finish o).vars = st.vars ∧
    (st.finish o).interval = st.interval ∧ (st.finish o).pending = none := by
  match o with
  | .written | .failed | .ignored => exact ⟨rfl, rfl, rfl⟩
  | .updated d e => exact update_frame d e

/-- Where the cursor is not below, nothing is left that was not before. -/
theorem Gives.of_frame {st' : Statement} (hframe : st'.vars = st.vars ∧ st'.interval = st.interval ∧
    st'.pending = none) (hle : st.floor ≤ st'.nextInsertId) {x : ℕ} (hx : st'.Gives x) :
    st.Gives x := by
  obtain ⟨hv, hi, hp⟩ := hframe
  rw [Gives, Owns, floor, hp, hv, hi] at hx
  obtain ⟨hown, hx⟩ := hx.resolve_left nofun
  exact Or.inr ⟨hown, hle.trans hx⟩

/-- Where the cursor goes back to. -/
def back (st : Statement) : ℕ := (st.restoreAutoIncrement st.prevInsertId).nextInsertId

theorem floor_le_back (hp : st.pending = some st.insertIdForCurRow) : st.floor ≤ st.back := by
  rw [back, restoreAutoIncrement, floor, hp]
  dsimp only
  by_cases hprev : st.prevInsertId = 0
  · rw [if_pos hprev, if_neg (by omega)]
  · rw [if_neg hprev, if_pos (by omega)]
    exact min_le_left ..

theorem floor_le (hp : st.pending = some st.insertIdForCurRow) :
    st.floor ≤ st.insertIdForCurRow := by
  rw [floor, hp]
  dsimp only
  split
  · exact le_rfl
  · exact min_le_right ..

/-- The cursor is taken back to the value of the row. -/
theorem Ok.reuse (h : st.Ok) (hp : st.pending = some st.insertIdForCurRow) (i : ℕ) :
    { st with nextInsertId := st.insertIdForCurRow, insertIdForCurRow := i
              pending := none }.Ok := by
  obtain ⟨hform, -, hlt, hmin⟩ := h.pending _ hp
  exact (h.settle i).restore rfl ⟨hlt.le.trans h.cursor.1, .inr (.inl hform)⟩
    (Form.pos hform).ne' hmin

/-- The cursor is taken back to where it was. -/
theorem Ok.back (h : st.Ok) (hp : st.pending = some st.insertIdForCurRow)
    (hin : st.prevInsertId = 0 ∨ st.interval.minimum ≤ st.prevInsertId) (i : ℕ) :
    { st with nextInsertId := st.back, insertIdForCurRow := i, pending := none }.Ok := by
  rw [Statement.back, restoreAutoIncrement]
  dsimp only
  by_cases hprev : st.prevInsertId = 0
  · rw [if_neg (by omega)]
    exact h.reuse hp i
  · rw [if_pos (by omega)]
    exact (h.settle i).restore rfl h.prev hprev fun _ => hin.resolve_left hprev

/-- The cursor is taken back, and on to an explicit value. -/
theorem Ok.back_adjust (h : st.Ok) (hp : st.pending = some st.insertIdForCurRow) {nr : ℕ}
    (hin : st.prevInsertId = 0 ∨ st.interval.minimum ≤ max st.prevInsertId nr) (i : ℕ) :
    ({ st with nextInsertId := st.back, insertIdForCurRow := i, pending := none }.adjustNextInsertId
        nr).Ok ∧
      st.back ≤ ({ st with
        nextInsertId := st.back, insertIdForCurRow := i, pending := none }.adjustNextInsertId
        nr).nextInsertId := by
  by_cases hprev : st.prevInsertId = 0 ∨ st.interval.minimum ≤ st.prevInsertId
  · have hok := h.back hp hprev i
    exact ⟨hok.adjust rfl nr, hok.le_adjust nr⟩
  · -- the cursor was below the interval, and the explicit value is not
    obtain ⟨hne, hlow⟩ := not_or.1 hprev
    have hle : st.interval.minimum ≤ nr := (le_max_iff.1 (hin.resolve_left hne)).resolve_left hlow
    have hback : st.back = st.prevInsertId := if_pos (by omega)
    rw [adjustNextInsertId, if_pos ⟨by dsimp only; omega, by dsimp only; omega⟩]
    refine ⟨(h.settle i).advance rfl fun _ => hle, ?_⟩
    change st.back ≤ computeNextInsertId st.vars nr
    obtain hmax | ⟨hlt, -⟩ := computeNextInsertId_cases st.vars nr
    · exact (hback.trans_le h.prev.1).trans hmax.ge
    · omega

/-- **After a row** the cursor is still in the interval or behind it, unless the outcome takes it
back to before the interval. -/
theorem ok_finish (h : st.Ok) {nr : ℕ} (hp : st.pending = some nr) (o : Outcome)
    (hin : o.Inside st) : (st.finish o).Ok ∧ st.floor ≤ (st.finish o).nextInsertId := by
  obtain ⟨hform, rfl, hlt, -⟩ := h.pending nr hp
  match o with
  | .written | .failed => exact ⟨h.settle st.insertIdForCurRow, (floor_le hp).trans hlt.le⟩
  | .ignored => exact ⟨h.back hp hin _, floor_le_back hp⟩
  | .updated false none => exact ⟨h.back hp (hin.resolve_left nofun) _, floor_le_back hp⟩
  | .updated true none =>
    have heq : st.finish (.updated true none) = { st with
        nextInsertId := st.insertIdForCurRow, insertIdForCurRow := 0, pending := none } := by
      simp only [finish, update, restoreAutoIncrement, if_true, if_pos (Form.pos hform)]
    rw [heq]
    exact ⟨h.reuse hp 0, floor_le hp⟩
  | .updated d (some v) =>
    have heq : st.finish (.updated d (some v)) = { st with
        nextInsertId := st.back
        insertIdForCurRow := if d then 0 else st.insertIdForCurRow
        pending := none }.adjustNextInsertId v := by
      cases d <;> rfl
    rw [heq]
    obtain ⟨hok, hle⟩ := h.back_adjust hp hin (if d then 0 else st.insertIdForCurRow)
    exact ⟨hok, (floor_le_back hp).trans hle⟩

/-- An update where no value was generated. -/
theorem update_eq {st₀ : Statement} (h : st.restoreAutoIncrement st.prevInsertId = st₀)
    (hid : st.insertIdForCurRow = 0) (d : Bool) (e : Option ℕ) :
    st.update d e = e.elim st₀ st₀.adjustNextInsertId := by
  have hset : { st₀ with insertIdForCurRow := 0 } = st₀ := by
    rw [← h, restoreAutoIncrement, hid]
  cases e <;> simp [update, h, hid, hset]

/-- **A row with a value of its own**, whatever becomes of it, leaves the cursor where it was or
takes it on. -/
theorem ok_explicit (h : st.Ok) (hp : st.pending = none) (t : Column) (nr : ℕ) (o : Outcome) :
    ((st.explicit t nr).finish o).Ok ∧
      st.nextInsertId ≤ ((st.explicit t nr).finish o).nextInsertId := by
  set st₀ : Statement := { st with
    prevInsertId := st.nextInsertId, insertIdForCurRow := 0, pending := none } with hst₀
  have hok : st₀.Ok := ⟨h.inside, h.maximum_le, h.cursor, h.cursor, fun _ hx => nomatch hx⟩
  -- the cursor after the value, which the outcome keeps or takes back
  obtain ⟨c, heq, hc, hle⟩ : ∃ c, st.explicit t nr = { st₀ with nextInsertId := c } ∧
      { st₀ with nextInsertId := c }.Ok ∧ st.nextInsertId ≤ c := by
    rw [explicit]
    split
    · refine ⟨(st₀.adjustNextInsertId nr).nextInsertId, ?_,
        adjust_eq st₀ nr ▸ hok.adjust rfl nr, hok.le_adjust nr⟩
      rw [adjustNextInsertId, adjustNextInsertId, hst₀, hp]
      split <;> rfl
    · exact ⟨st.nextInsertId, by rw [hst₀, hp], hok, le_rfl⟩
  have hback : { st₀ with nextInsertId := c }.restoreAutoIncrement st.nextInsertId = st₀ := by
    rw [restoreAutoIncrement]
    by_cases hnext : st.nextInsertId = 0
    · simp [hst₀, hnext]
    · rw [if_pos (by omega)]
  have hupdate (d : Bool) (e : Option ℕ) : { st₀ with nextInsertId := c }.finish (.updated d e)
      = e.elim st₀ st₀.adjustNextInsertId := update_eq hback rfl d e
  rw [heq]
  match o with
  | .written | .failed => exact ⟨hc, hle⟩
  | .ignored => exact ⟨hback.symm ▸ hok, (congrArg nextInsertId hback).ge⟩
  | .updated d none =>
    rw [hupdate]
    exact ⟨hok, le_rfl⟩
  | .updated d (some v) =>
    rw [hupdate]
    exact ⟨hok.adjust rfl v, hok.le_adjust v⟩

/-- A row that gets the value at the cursor takes nothing else. -/
theorem Gives.of_generate (hp : st.pending = none) (hown : st.Owns st.nextInsertId) {x : ℕ}
    (hx : (st.generate st.nextInsertId).Gives x) : st.Gives x := by
  have hfloor : st.floor = st.nextInsertId := by rw [floor, hp]
  obtain hx | ⟨hx, hle⟩ := hx
  · cases hx
    exact Or.inr ⟨hown, hfloor.le⟩
  · refine Or.inr ⟨hx, hfloor.trans_le ?_⟩
    simpa [floor, generate] using hle

end Statement

/-! ## All statements -/

/-- The generated values of the rows. -/
def State.values (s : State S) : List ℕ := s.rows.map Prod.snd

/-- What a session has left. -/
def State.Gives (s : State S) (a : S) (x : ℕ) : Prop := ∃ st ∈ s.statement a, st.Gives x

/-- **The invariant**: what a session has left is in the range of a call, no row has it, and no
other session has it left. -/
structure Inv (keypart : ℕ) (s : State S) : Prop where
  ok : ∀ a, ∀ st ∈ s.statement a, st.Ok
  fresh : ∀ a x, s.Gives a x → x ∉ s.values
  apart : ∀ a b x, s.Gives a x → s.Gives b x → a = b
  held : ∀ a x, s.Gives a x → ∃ c ∈ s.calls, c.Covers x
  reserved : ∀ x ∈ s.values, ∃ c ∈ s.calls, c.Covers x
  single : keypart ≠ 0 → ∀ a, ∀ st ∈ s.statement a, st.interval.maximum = 0
  unrepeated : Unrepeated s

omit [DecidableEq S] in
theorem inv_init (keypart : ℕ) : Inv keypart (State.init : State S) := by
  have hnone : ∀ (a : S) x, ¬(State.init : State S).Gives a x := fun a x ⟨st, hst, _⟩ => by
    cases hst
  exact ⟨nofun, fun a x hx => absurd hx (hnone a x), fun a b x hx => absurd hx (hnone a x),
    fun a x hx => absurd hx (hnone a x), nofun, nofun, nodup_nil, nofun⟩

section Step

variable {keypart : ℕ} {s s' : State S} {a : S} {st st' : Statement}

theorem put_cases {b : S} {st₁ : Statement} {o : Option Statement}
    (hb : st₁ ∈ (s.put a o).statement b) :
    (b = a ∧ o = some st₁) ∨ (b ≠ a ∧ st₁ ∈ s.statement b) := by
  dsimp only [State.put] at hb
  by_cases hba : b = a
  · subst hba
    exact Or.inl ⟨rfl, by rwa [Function.update_self] at hb⟩
  · exact Or.inr ⟨hba, by rwa [Function.update_of_ne hba] at hb⟩

omit [DecidableEq S] in
/-- **Statements change**, perhaps with a further call of one session: nothing new is left but
values of that call, to that session. -/
theorem Inv.of_gives (h : Inv keypart s) {call : Option Call}
    (hcall : ∀ c ∈ call, ∀ d ∈ s.calls, c.Apart d) (hcalls : s'.calls = call.toList ++ s.calls)
    (hrows : s'.rows = s.rows) (hok : ∀ b, ∀ st ∈ s'.statement b, st.Ok)
    (hsingle : keypart ≠ 0 → ∀ b, ∀ st ∈ s'.statement b, st.interval.maximum = 0)
    (hgives : ∀ b x, s'.Gives b x → s.Gives b x ∨ b = a ∧ ∃ c ∈ call, c.Covers x) :
    Inv keypart s' := by
  have hold : ∀ {x}, (∃ c ∈ s.calls, c.Covers x) → ∃ c ∈ s'.calls, c.Covers x :=
    fun ⟨c, hc, hx⟩ => ⟨c, hcalls ▸ mem_append_right _ hc, hx⟩
  -- what is in the new call is in no other one
  have hnew : ∀ {x}, (∃ c ∈ call, c.Covers x) → ¬∃ d ∈ s.calls, d.Covers x :=
    fun ⟨c, hc, hx⟩ ⟨d, hd, hx'⟩ => (hcall c hc d hd).not_covers hx hx'
  have hvalues : s'.values = s.values := congrArg (map Prod.snd) hrows
  refine ⟨hok, fun b x hx => ?_, fun b b' x hx hx' => ?_, fun b x hx => ?_, fun x hx => ?_, hsingle,
    ?_⟩
  · rw [hvalues]
    obtain hx | ⟨-, hx⟩ := hgives b x hx
    · exact h.fresh b x hx
    · exact fun hmem => hnew hx (h.reserved x hmem)
  · obtain hx | ⟨rfl, hx⟩ := hgives b x hx <;> obtain hx' | ⟨rfl, hx'⟩ := hgives b' x hx'
    · exact h.apart b b' x hx hx'
    · exact absurd (h.held b x hx) (hnew hx')
    · exact absurd (h.held b' x hx') (hnew hx)
    · rfl
  · obtain hx | ⟨-, c, hc, hx⟩ := hgives b x hx
    · exact hold (h.held b x hx)
    · exact ⟨c, hcalls ▸ mem_append_left _ (Option.mem_toList.2 hc), hx⟩
  · exact hold (h.reserved x (hvalues ▸ hx))
  · rw [Unrepeated, hrows]
    exact h.unrepeated

/-- **One statement changes**, perhaps with a further call. -/
theorem Inv.update (h : Inv keypart s) (call : Option Call)
    (hcall : ∀ c ∈ call, ∀ d ∈ s.calls, c.Apart d) (hok : st'.Ok)
    (hgives : ∀ x, st'.Gives x → s.Gives a x ∨ ∃ c ∈ call, c.Covers x)
    (hsingle : keypart ≠ 0 → st'.interval.maximum = 0) :
    Inv keypart { s.put a (some st') with calls := call.toList ++ s.calls } := by
  refine h.of_gives (a := a) hcall rfl rfl (fun b st₁ hb => ?_) (fun hk b st₁ hb => ?_)
    fun b x ⟨st₁, hb, hx⟩ => ?_
  all_goals obtain ⟨rfl, ⟨⟩⟩ | ⟨-, hb⟩ := put_cases hb
  · exact hok
  · exact h.ok b st₁ hb
  · exact hsingle hk
  · exact h.single hk b st₁ hb
  · exact (hgives x hx).imp_right fun hc => ⟨rfl, hc⟩
  · exact Or.inl ⟨st₁, hb, hx⟩

/-- One statement changes, and has nothing new left. -/
theorem Inv.move (h : Inv keypart s) (ha : s.statement a = some st) (hok : st'.Ok)
    (hframe : st'.vars = st.vars ∧ st'.interval = st.interval ∧ st'.pending = none)
    (hle : st.floor ≤ st'.nextInsertId) :
    Inv keypart (s.put a (some st')) :=
  h.update none nofun hok (fun _ hx => Or.inl ⟨st, ha, hx.of_frame hframe hle⟩)
    fun hk => hframe.2.1 ▸ h.single hk a st ha

omit [DecidableEq S] in
/-- A row is written with a value that nobody has left. -/
theorem Inv.write (h : Inv keypart s) {vars : Variables} {nr : ℕ} (hform : vars.Form nr)
    (hnew : nr ∉ s.values) (hcov : ∃ c ∈ s.calls, c.Covers nr) (hfree : ∀ b, ¬s.Gives b nr) :
    Inv keypart { s with rows := (vars, nr) :: s.rows } := by
  refine ⟨h.ok, fun b x hx => ?_, h.apart, h.held, forall_mem_cons.2 ⟨hcov, h.reserved⟩,
    h.single, nodup_cons.2 ⟨hnew, h.unrepeated.1⟩, forall_mem_cons.2 ⟨hform, h.unrepeated.2⟩⟩
  refine not_mem_cons_of_ne_of_not_mem ?_ (h.fresh b x hx)
  rintro rfl
  exact hfree b hx

/-- **After a row**, whatever becomes of it. -/
theorem Inv.finish (h : Inv keypart s) (ha : s.statement a = some st) {nr : ℕ}
    (hp : st.pending = some nr) {o : Outcome} (hin : o.Inside st) :
    Inv keypart { s.put a (some (st.finish o)) with rows := o.rows st.vars nr s.rows } := by
  obtain ⟨hok, hfloor⟩ := Statement.ok_finish (h.ok a st ha) hp o hin
  have hnorow := h.move ha hok (Statement.finish_frame o) hfloor
  match o with
  | .failed | .ignored | .updated _ _ => exact hnorow
  | .written =>
    obtain ⟨hform, -, hlt, -⟩ := (h.ok a st ha).pending nr hp
    have hgives : s.Gives a nr := ⟨st, ha, Or.inl hp⟩
    refine hnorow.write hform (h.fresh a nr hgives) (h.held a nr hgives) fun b ⟨st₁, hb, hx⟩ => ?_
    obtain ⟨rfl, ⟨⟩⟩ | ⟨hba, hb⟩ := put_cases hb
    · -- the cursor is behind the value
      obtain hc | ⟨-, hle⟩ := hx
      · cases hc
      · exact absurd hlt (Nat.not_lt.2 hle)
    · exact hba (h.apart b a nr ⟨st₁, hb, hx⟩ hgives)

/-- **A row gets a value**: the one at the cursor, or the first of a new interval. -/
theorem Inv.generate (h : Inv keypart s) (ha : s.statement a = some st) (hp : st.pending = none)
    {ans : Answer} {call : Option Call}
    (hup : st.updateAutoIncrement keypart ans = (call, some st'))
    (hcall : ∀ c ∈ call, ∀ d ∈ s.calls, c.Apart d) :
    Inv keypart { s.put a (some st') with calls := call.toList ++ s.calls } := by
  have hok := h.ok a st ha
  obtain hnone | ⟨heq, hlt⟩ | ⟨nr, heq, hge, hcount, hform, hle, hlt, hmax⟩ :=
    Statement.updateAutoIncrement_cases hok keypart ans
  · rw [hup] at hnone
    exact nomatch hnone
  · rw [hup, Prod.mk.injEq] at heq
    obtain ⟨rfl, ⟨⟩⟩ := heq
    obtain ⟨hmin, hform⟩ := hok.inside hlt
    exact h.update _ hcall (Statement.ok_generate hok.maximum_le hok.cursor hform
      (hlt.trans_le hok.maximum_le) fun _ => hmin)
      (fun x hx => Or.inl ⟨st, ha, hx.of_generate hp ⟨hform, hmin, hlt⟩⟩)
      fun hk => h.single hk a st ha
  · rw [hup, Prod.mk.injEq] at heq
    obtain ⟨rfl, ⟨⟩⟩ := heq
    have hcovers : ∀ x, st.vars.Form x → nr ≤ x → x < nr + ans.count * st.vars.increment →
        Call.Covers ⟨st.vars.increment, st.nbDesiredValues, ans.start, ans.count⟩ x :=
      fun x hx hge hx' => ⟨hle.trans hge, mem_range st.vars hform hlt hx hx'⟩
    obtain ⟨hvars, hnext, hmaximum, hsingle, hown⟩ := Statement.append_spec st keypart nr
      ans.count_lt fun hk => h.single hk a st ha
    refine h.update _ hcall (Statement.ok_generate hmaximum ?_ (hvars.symm ▸ hform) hmax
      fun hx => (hown nr hx).1.le) (fun x hx => Or.inr ⟨_, rfl, ?_⟩) hsingle
    · rw [hnext, Statement.IsCursor, hvars]
      exact hok.cursor
    · obtain hx | ⟨⟨hx, hmin, hlt⟩, -⟩ := hx
      · cases hx
        exact hcovers nr hform le_rfl (Nat.lt_add_of_pos_right
          (Nat.mul_pos hcount (st.vars.one_le.trans st.vars.offset_le)))
      · exact hcovers x (hvars ▸ hx) ((hown x hlt).1 ▸ hmin) (hown x hlt).2

/-- A statement starts. -/
theorem Inv.start (h : Inv keypart s) (vars : Variables) (estimation manyValues : ℕ) :
    Inv keypart (s.put a (some
      { vars := vars, estimationRowsToInsert := estimation, manyValues := manyValues })) := by
  refine h.update none nofun ⟨fun hlt => ?_, ?_, ?_, ?_, nofun⟩ (fun x hx => ?_) fun _ => rfl
  · exact absurd hlt (Nat.not_lt_zero 0)
  · exact Nat.zero_le _
  · exact ⟨Nat.zero_le _, Or.inl rfl⟩
  · exact ⟨Nat.zero_le _, Or.inl rfl⟩
  · obtain hx | ⟨⟨-, -, hx⟩, -⟩ := hx
    · exact nomatch hx
    · exact absurd hx (Nat.not_lt_zero x)

/-- A row has a value of its own. -/
theorem Inv.explicit (h : Inv keypart s) (ha : s.statement a = some st) (hp : st.pending = none)
    (t : Column) (nr : ℕ) (o : Outcome) :
    Inv keypart (s.put a (some ((st.explicit t nr).finish o))) := by
  obtain ⟨hok, hle⟩ := Statement.ok_explicit (h.ok a st ha) hp t nr o
  refine h.move ha hok ?_ (by rwa [Statement.floor, hp])
  obtain ⟨hv, hi, hn⟩ := @Statement.finish_frame (st.explicit t nr) o
  rw [hv, hi]
  refine ⟨?_, ?_, hn⟩ <;> simp only [Statement.explicit] <;> split <;> simp

/-- A statement ends. -/
theorem Inv.release (h : Inv keypart s) (a : S) :
    Inv keypart (s.put a none) := by
  have hold : ∀ b, ∀ st ∈ (s.put a none).statement b, st ∈ s.statement b := by
    intro b st hb
    obtain ⟨-, ⟨⟩⟩ | ⟨-, hb⟩ := put_cases hb
    exact hb
  have hnone : ∀ c ∈ (none : Option Call), ∀ d ∈ s.calls, c.Apart d := nofun
  exact h.of_gives (a := a) hnone rfl rfl (fun b st hb => h.ok b st (hold b st hb))
    (fun hk b st hb => h.single hk b st (hold b st hb))
    fun b x ⟨st, hb, hx⟩ => Or.inl ⟨st, hold b st hb, hx⟩

end Step

/-- **Every step keeps the invariant** that does not take the cursor back to before the interval. -/
theorem Inv.step {t : Column} {s s' : State S} {e : Event S} (h : Inv t.nextNumberKeypart s)
    (hin : StaysInside s e) (hs : step t s e = some s') : Inv t.nextNumberKeypart s' := by
  cases e with
  | start a vars estimation manyValues =>
    simp only [AutoIncrement.step] at hs
    split at hs
    · exact nomatch hs
    · exact Option.some.inj hs ▸ h.start vars estimation manyValues
  | generate a ans =>
    simp only [AutoIncrement.step] at hs
    split at hs
    · cases hs
    · rename_i st ha
      rcases hup : st.updateAutoIncrement t.nextNumberKeypart ans with ⟨call, res⟩
      simp only [hup] at hs
      split_ifs at hs with hp hcall
      push Not at hp hcall
      cases res with
      | none =>
        cases hs
        exact h.of_gives (a := a) hcall rfl rfl h.ok h.single fun b x hx => Or.inl hx
      | some st' =>
        simp only at hs
        split_ifs at hs
        exact Option.some.inj hs ▸ h.generate ha hp hup hcall
  | finish a o =>
    simp only [AutoIncrement.step] at hs
    split at hs
    · cases hs
    · rename_i st ha
      split at hs
      · cases hs
      · rename_i nr hp
        exact Option.some.inj hs ▸ h.finish ha hp (hin st ha)
  | explicit a nr o =>
    simp only [AutoIncrement.step] at hs
    split at hs
    · cases hs
    · rename_i st ha
      split_ifs at hs with hp
      exact Option.some.inj hs ▸ h.explicit ha (not_not.1 hp) t nr o
  | release a =>
    simp only [AutoIncrement.step] at hs
    split at hs
    · cases hs
    · split_ifs at hs
      exact Option.some.inj hs ▸ h.release a

/-- **Generated values do not repeat** in any run that never takes the cursor of a statement back to
before its interval. -/
theorem unrepeated_of_staysInside (t : Column) (es : List (Event S))
    (hes : Machine.Meets (step t) StaysInside State.init es) :
    Machine.Safe (step t) Unrepeated State.init es :=
  Machine.safe_of_meets (fun _ h => h.unrepeated) (fun _ _ _ h hin hs => h.step hin hs)
    (inv_init t.nextNumberKeypart) hes

/-- **Only reserved values are given**: those of the rows and those that a statement has left are in
the ranges of the calls, and no row and no other statement has what a statement has left. -/
def Reserved (s : State S) : Prop :=
  (∀ x ∈ s.values, ∃ c ∈ s.calls, c.Covers x) ∧
    ∀ a x, s.Gives a x → (∃ c ∈ s.calls, c.Covers x) ∧ x ∉ s.values ∧ ∀ b, s.Gives b x → b = a

theorem reserved_of_staysInside (t : Column) (es : List (Event S))
    (hes : Machine.Meets (step t) StaysInside State.init es) :
    Machine.Safe (step t) Reserved State.init es :=
  Machine.safe_of_meets (fun _ h => ⟨h.reserved, fun a x hx =>
      ⟨h.held a x hx, h.fresh a x hx, fun b hb => h.apart b a x hb hx⟩⟩)
    (fun _ _ _ h hin hs => h.step hin hs) (inv_init t.nextNumberKeypart) hes

/-- The default settings. -/
def defaultVariables : Variables := ⟨1, 1, by decide, by decide, by decide⟩

/-- A `BIGINT` column, first in its index. -/
def bigintColumn : Column := ⟨0, 2 ^ 63 - 1, false⟩

/-- Two sessions: `INSERT ... SELECT` of three rows, the second of which has this outcome, while
another row is inserted. -/
def backRun (o : Outcome) : List (Event Bool) :=
  [.start false defaultVariables 0 0,
    .generate false (.mk 1 1), .finish false .written,
    .start true defaultVariables 0 1,
    .generate true (.mk 2 1), .finish true .written, .release true,
    .generate false (.mk 3 2), .finish false o,
    .generate false (.mk 5 2), .finish false .written,
    .release false]

/-- **A value is given twice** if the row is ignored, or becomes an update that changes nothing: the
cursor of the first session goes back to 2, below the interval it has reserved in the meantime. -/
theorem backRun_repeats : [Outcome.ignored, .updated false none].Forall fun o =>
    (Machine.exec (step bigintColumn) State.init (backRun o)).map State.values = some [2, 2, 1] ∧
      ¬Machine.Safe (step bigintColumn) Unrepeated State.init (backRun o) := by
  refine forall_iff_forall_mem.2 fun o ho => ?_
  have hend : (Machine.exec (step bigintColumn) State.init (backRun o)).map State.values
      = some [2, 2, 1] := by
    rcases mem_cons.1 ho with rfl | ho
    · decide +kernel
    · rw [mem_singleton.1 ho]
      decide +kernel
  refine ⟨hend, ?_⟩
  obtain ⟨s, hs, hvalues⟩ := Option.map_eq_some_iff.1 hend
  refine Machine.not_safe_of_exec hs fun hu => ?_
  have hnodup : s.values.Nodup := hu.1
  rw [hvalues] at hnodup
  exact absurd hnodup (by decide)

/-- Every third value from the second one on. -/
def thirdVariables : Variables := ⟨3, 2, by decide, by decide, by decide⟩

/-- Two sessions with different settings; the first one passes over rows within its interval. -/
def interleavedRun : List (Event Bool) :=
  [.start false thirdVariables 3 3, .start true defaultVariables 0 0,
    .generate false (.mk 1 3), .finish false .ignored,
    .generate true (.mk 10 1), .finish true .written,
    .generate false (.mk 20 1), .finish false .written,
    .generate false (.mk 20 1),
    .finish false (.updated false none), .explicit true 3 .written,
    .generate false (.mk 20 1), .finish false .written,
    .generate true (.mk 11 2), .finish true .written,
    .release false, .release true]

theorem unrepeated_interleavedRun :
    (Machine.exec (step bigintColumn) State.init interleavedRun).map State.values
        = some [11, 5, 2, 10] ∧
      Machine.Safe (step bigintColumn) Unrepeated State.init interleavedRun :=
  ⟨by decide +kernel, unrepeated_of_staysInside bigintColumn interleavedRun (by decide +kernel)⟩

theorem reserved_interleavedRun :
    Machine.Safe (step bigintColumn) Reserved State.init interleavedRun :=
  reserved_of_staysInside bigintColumn interleavedRun (by decide +kernel)

end AutoIncrement

end EloqSql
