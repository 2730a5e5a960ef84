import EloqSql.Lib.Machine

/-!
# Session — the transactions of a session

The SQL layer keeps two lists of engines that take part in something: in the current statement and
in the current transaction. It calls the hooks of the engine, `eloq_commit` and `eloq_rollback`, at
the end of a statement or of a transaction for the engines of the list. The engine keeps one handle
of the transaction service, which is made on demand and is gone after a commit or an abort.

`Ledger` says what a client may expect of all this: the writes of the statements that succeeded
become durable together, or not at all. The two are kept side by side in `step`.
-/

namespace EloqSql

variable {W : Type}

/-! ## The engine -/

/-- A session: its options, the two lists as far as the engine is in them, and the engine's
`MyEloqTx`. -/
structure Session (W : Type) where
  /-- `OPTION_NOT_AUTOCOMMIT`. -/
  notAutocommit : Bool
  /-- `OPTION_BEGIN`. -/
  optionBegin : Bool
  /-- The engine is in `transaction->stmt.ha_list`. -/
  stmtList : Bool
  /-- The engine is in `transaction->all.ha_list`. -/
  allList : Bool
  /-- `MyEloqTx`, once it is made, and its `Txm()` with the writes of that handle. -/
  myTx : Option (Option (List W))
  /-- What has been committed. -/
  durable : List W

namespace Session

/-- A new session, with autocommit on or off. -/
def start (autocommit : Bool) : Session W := ⟨!autocommit, false, false, false, none, []⟩

variable (s : Session W)

/-- `thd_test_options(thd, OPTION_NOT_AUTOCOMMIT | OPTION_BEGIN)`. -/
def testOptions : Bool := s.notAutocommit || s.optionBegin

/-- `eloq_register_tx`. -/
def registerTx : Session W := { s with stmtList := true, allList := s.allList || s.testOptions }

/-- `get_or_create_myeloq_tx`. -/
def getOrCreateMyeloqTx : Session W :=
  match s.myTx with
  | some (some _) => s
  | _ => registerTx { s with myTx := some (some []) }

/-- `ha_eloq::external_lock` at the start of a statement. -/
def externalLock : Session W := s.getOrCreateMyeloqTx.registerTx

/-- The writes of a statement go to the handle. -/
def write (ws : List W) : Session W := { s with myTx := s.myTx.map (·.map (· ++ ws)) }

/-- `MyEloqTx::Commit`; `commits` says whether `CommitTx` succeeds. -/
def txCommit (commits : Bool) : Session W × Bool :=
  match s.myTx with
  | none => (s, true)
  | some txm =>
    ({ s with
        myTx := some none
        durable := if commits then s.durable ++ txm.getD [] else s.durable }, commits)

/-- `eloq_commit`. -/
def eloqCommit (commits commitTx : Bool) : Session W × Bool :=
  if commitTx || !s.testOptions then s.txCommit commits else (s, true)

/-- `eloq_rollback`, which aborts the handle whether a statement or the transaction is to be rolled
back. -/
def eloqRollback : Session W :=
  match s.myTx with
  | some (some _) => { s with myTx := some none }
  | _ => s

/-- `eloq_close_connection`. -/
def eloqCloseConnection (commits : Bool) : Session W :=
  { (s.txCommit commits).1 with myTx := none }

/-! ## The SQL layer -/

/-- `trans_commit_stmt`: the hook with `all = false`, if the engine is in the list. -/
def transCommitStmt (commits : Bool) : Session W × Bool :=
  let r := if s.stmtList then s.eloqCommit commits false else (s, true)
  ({ r.1 with stmtList := false }, r.2)

/-- `trans_rollback_stmt`. -/
def transRollbackStmt : Session W :=
  { (if s.stmtList then s.eloqRollback else s) with stmtList := false }

/-- `ha_commit_trans(thd, TRUE)`. -/
def haCommitTrans (commits : Bool) : Session W × Bool :=
  let r := if s.allList then s.eloqCommit commits true else (s, true)
  ({ r.1 with allList := false }, r.2)

/-- `trans_commit`. -/
def transCommit (commits : Bool) : Session W × Bool :=
  let r := s.haCommitTrans commits
  ({ r.1 with optionBegin := false }, r.2)

/-- `trans_rollback`. -/
def transRollback : Session W :=
  { (if s.allList then s.eloqRollback else s) with allList := false, optionBegin := false }

/-- `trans_begin`, which commits a transaction that is open. -/
def transBegin (commits : Bool) : Session W × Bool :=
  let r := if s.testOptions then s.haCommitTrans commits else (s, true)
  ({ r.1 with allList := false, optionBegin := r.2 }, r.2)

/-- `trans_commit_implicit`. -/
def transCommitImplicit (commits : Bool) : Session W × Bool :=
  let r := if s.testOptions then s.haCommitTrans commits else (s, true)
  ({ r.1 with allList := false, optionBegin := false }, r.2)

/-- `fix_autocommit`: to activate autocommit is to commit. -/
def fixAutocommit (autocommit commits : Bool) : Session W × Bool :=
  if autocommit then
    if s.notAutocommit then
      let r := s.transCommitStmt commits
      let r' := if r.2 then r.1.transCommit commits else r
      (if r'.2 then { r'.1 with optionBegin := false, notAutocommit := false } else r'.1, r'.2)
    else (s, true)
  else ({ s with notAutocommit := true }, true)

/-- `SET autocommit`, which commits first. -/
def setAutocommit (autocommit commits : Bool) : Session W × Bool :=
  let r := s.transCommitImplicit commits
  if r.2 then r.1.fixAutocommit autocommit commits else r

/-- What happens in a session. Where a commit may follow, `commits` says whether `CommitTx`
succeeds. -/
inductive Event (W : Type) where
  /-- A statement, which may fail before it locks a table, or after some writes. -/
  | statement (locks : Bool) (writes : List W) (succeeds commits : Bool)
  | begin (commits : Bool)
  | commit (commits : Bool)
  | rollback
  | setAutocommit (autocommit commits : Bool)
  | disconnect (commits : Bool)

/-- The end of a statement. -/
def endStatement (succeeds commits : Bool) : Session W × Bool :=
  if succeeds then s.transCommitStmt commits else (s.transRollbackStmt, false)

/-- **An event**, and whether success is reported. -/
def handle : Event W → Session W × Bool
  | .statement locks writes succeeds commits =>
    (if locks then s.externalLock.write writes else s).endStatement succeeds commits
  | .begin commits => s.transBegin commits
  | .commit commits => s.transCommit commits
  | .rollback => (s.transRollback, true)
  | .setAutocommit autocommit commits => s.setAutocommit autocommit commits
  | .disconnect commits => (s.transRollback.eloqCloseConnection commits, true)

end Session

/-! ## What a client may expect -/

/-- **The writes of the statements of the open transaction that have reported success, and those
that are to be durable.** -/
structure Ledger (W : Type) where
  pending : List W
  durable : List W

namespace Ledger

variable (l : Ledger W)

/-- The transaction ends. -/
def finish (success : Bool) : Ledger W :=
  ⟨[], if success then l.durable ++ l.pending else l.durable⟩

/-- A statement ends: outside of a transaction its writes are durable at once. -/
def statement (inTransaction : Bool) (writes : List W) (success : Bool) : Ledger W :=
  if success then
    if inTransaction then { l with pending := l.pending ++ writes }
    else { l with durable := l.durable ++ writes }
  else l

/-- An event, with the success that was reported. -/
def handle (inTransaction : Bool) (success : Bool) : Session.Event W → Ledger W
  | .statement locks writes _ _ =>
    l.statement inTransaction (if locks then writes else []) success
  | .begin _ | .commit _ | .setAutocommit _ _ => l.finish success
  | .rollback | .disconnect _ => l.finish false

end Ledger

namespace Session

/-- An event in a session, with the ledger. -/
def step (c : Session W × Ledger W) (e : Event W) : Session W × Ledger W :=
  ((c.1.handle e).1, c.2.handle c.1.testOptions (c.1.handle e).2 e)

/-- The writes of the current handle. -/
def current (s : Session W) : Option (List W) := s.myTx.join

/-! ## The hooks -/

section Hooks

variable {s : Session W}

theorem eloqRollback_eq (s : Session W) :
    s.eloqRollback = { s with myTx := s.myTx.map fun _ => none } := by
  obtain ⟨_, _, _, _, myTx, _⟩ := s
  cases myTx with
  | none => rfl
  | some txm => cases txm <;> rfl

/-- **A commit that succeeds makes the writes of the handle durable**, and there is no handle
then. -/
structure Committed (s : Session W) (r : Session W × Bool) : Prop where
  durable : r.1.durable = if r.2 then s.durable ++ s.current.getD [] else s.durable
  current : r.1.current = none
  notAutocommit : r.1.notAutocommit = s.notAutocommit
  stmtList : r.1.stmtList = s.stmtList

theorem committed_txCommit (s : Session W) (commits : Bool) : Committed s (s.txCommit commits) := by
  obtain ⟨_, _, _, _, myTx, durable⟩ := s
  cases myTx with
  | none => constructor <;> simp [txCommit, current]
  | some txm => cases txm <;> cases commits <;> constructor <;> simp [txCommit, current]

/-- A handle that is registered is committed at the end of the transaction. -/
theorem committed_haCommitTrans (hreg : s.current ≠ none → s.allList = true) (commits : Bool) :
    Committed s (s.haCommitTrans commits) := by
  have htx := committed_txCommit s commits
  rw [haCommitTrans]
  by_cases hall : s.allList = true
  · rw [if_pos hall, eloqCommit, Bool.true_or, if_pos rfl]
    exact ⟨htx.durable, htx.current, htx.notAutocommit, htx.stmtList⟩
  · have hnone : s.current = none := by_contra fun hne => hall (hreg hne)
    rw [if_neg hall]
    exact ⟨by simp [hnone], hnone, rfl, rfl⟩

end Hooks

/-! ## Runs -/

/-- **The session does what the ledger says**: the writes of the handle are those pending. -/
structure Agrees (c : Session W × Ledger W) : Prop where
  durable : c.1.durable = c.2.durable
  pending : c.1.current.getD [] = c.2.pending
  /-- Outside of a transaction there is no handle between statements. -/
  outside : c.1.testOptions = false → c.1.current = none
  /-- A handle is registered with the transaction. -/
  registered : c.1.current ≠ none → c.1.allList = true
  stmtList : c.1.stmtList = false

theorem agrees_start (autocommit : Bool) :
    Agrees ((start autocommit, ⟨[], []⟩) : Session W × Ledger W) :=
  ⟨rfl, rfl, fun _ => rfl, fun h => absurd rfl h, rfl⟩

/-- **A statement that fails inside a transaction, after it has locked a table, takes all of the
transaction with it**, so no statement before may have written. -/
def Harmless (c : Session W × Ledger W) : Event W → Prop
  | .statement true _ false _ => c.1.testOptions = true → c.2.pending = []
  | _ => True

section Step

variable {s : Session W} {l : Ledger W}

/-- The transaction has ended, and no other has begun. -/
theorem Agrees.of_committed (h : Agrees (s, l)) {r : Session W × Bool} (hc : Committed s r)
    {s' : Session W} (hd : s'.durable = r.1.durable) (hcur : s'.current = r.1.current)
    (hs : s'.stmtList = r.1.stmtList) : Agrees (s', l.finish r.2) := by
  have hnone := hcur.trans hc.current
  refine ⟨?_, by rw [hnone]; rfl, fun _ => hnone, fun hne => absurd hnone hne,
    hs.trans (hc.stmtList.trans h.stmtList)⟩
  show s'.durable = if r.2 then l.durable ++ l.pending else l.durable
  rw [hd, hc.durable, h.durable, h.pending]

/-- The transaction has been dropped. -/
theorem Agrees.of_rollback (h : Agrees (s, l)) {s' : Session W} (hd : s'.durable = s.durable)
    (hcur : s'.current = none) (hs : s'.stmtList = false) : Agrees (s', l.finish false) :=
  ⟨hd.trans h.durable, by rw [hcur]; rfl, fun _ => hcur, fun hne => absurd hcur hne, hs⟩

/-- The handle of the transaction that is open, or none. -/
theorem Agrees.committed_if (h : Agrees (s, l)) (commits : Bool) :
    Committed s (if s.testOptions then s.haCommitTrans commits else (s, true)) := by
  by_cases ht : s.testOptions = true
  · rw [if_pos ht]
    exact committed_haCommitTrans h.registered commits
  · have hnone := h.outside (Bool.eq_false_iff.mpr ht)
    rw [if_neg ht]
    exact ⟨by simp [hnone], hnone, rfl, rfl⟩

/-- A statement that locks a table has a handle, which keeps the writes of those before. -/
theorem externalLock_write (s : Session W) (ws : List W) : s.externalLock.write ws
    = { s with
        stmtList := true
        allList := s.allList || s.testOptions
        myTx := some (some (s.current.getD [] ++ ws)) } := by
  obtain ⟨n, b, st, al, myTx, durable⟩ := s
  have hor : (al || (n || b) || (n || b)) = (al || (n || b)) := by
    rw [Bool.or_assoc, Bool.or_self]
  cases myTx with
  | none => simp [externalLock, getOrCreateMyeloqTx, registerTx, write, current, testOptions, hor]
  | some txm =>
    cases txm <;>
      simp [externalLock, getOrCreateMyeloqTx, registerTx, write, current, testOptions, hor]

/-- **A statement that succeeds.** -/
theorem Agrees.statement_ok (h : Agrees (s, l)) (ws : List W) (commits : Bool) :
    Agrees ((s.externalLock.write ws).transCommitStmt commits |>.1,
      l.statement s.testOptions ws ((s.externalLock.write ws).transCommitStmt commits).2) := by
  have hpending : s.current.getD [] = l.pending := h.pending
  have hdurable : s.durable = l.durable := h.durable
  rw [externalLock_write, transCommitStmt, if_pos rfl, eloqCommit, Bool.false_or]
  cases ht : s.testOptions with
  | true =>
    -- in a transaction the hook does nothing
    rw [if_neg (by simp only [testOptions] at ht ⊢; simp [ht]), Ledger.statement, if_pos rfl,
      if_pos rfl]
    refine ⟨hdurable, ?_, fun hf => ?_, fun _ => by simp, rfl⟩
    · simp [current, ← hpending]
    · exact absurd (ht.symm.trans hf) (by simp)
  | false =>
    have hnone : s.current = none := h.outside ht
    rw [hnone, Option.getD_none] at hpending
    rw [if_pos (by simp only [testOptions] at ht ⊢; simp [ht])]
    simp only [txCommit, hnone, Ledger.statement]
    cases commits with
    | false => exact ⟨hdurable, hpending, fun _ => rfl, fun hne => absurd rfl hne, rfl⟩
    | true =>
      refine ⟨?_, hpending, fun _ => rfl, fun hne => absurd rfl hne, rfl⟩
      simp [hdurable]

/-- **A statement that fails** takes the transaction with it. -/
theorem Agrees.statement_error (h : Agrees (s, l)) (ws : List W)
    (hp : s.testOptions = true → l.pending = []) :
    Agrees ((s.externalLock.write ws).transRollbackStmt, l) := by
  have hempty : l.pending = [] := by
    cases ht : s.testOptions with
    | true => exact hp ht
    | false => rw [← h.pending, h.outside ht]; rfl
  rw [externalLock_write, transRollbackStmt, if_pos rfl]
  exact ⟨h.durable, hempty.symm, fun _ => rfl, fun hne => absurd rfl hne, rfl⟩

/-- A statement that locks no table. -/
theorem Agrees.statement_none (h : Agrees (s, l)) (succeeds commits : Bool) :
    Agrees ((s.endStatement succeeds commits).1,
      l.statement s.testOptions [] (s.endStatement succeeds commits).2) := by
  obtain ⟨hdurable, hpending, houtside, hregistered, hstmt⟩ := h
  have hstmt' : s.stmtList = false := hstmt
  have hs : { s with stmtList := false } = s := by rw [← hstmt']
  cases succeeds with
  | true =>
    have hend : s.endStatement true commits = (s, true) := by
      simp [endStatement, transCommitStmt, hstmt', hs]
    rw [hend, Ledger.statement, if_pos rfl]
    simp only [List.append_nil, ite_self]
    exact ⟨hdurable, hpending, houtside, hregistered, hstmt⟩
  | false =>
    have hend : s.endStatement false commits = (s, false) := by
      simp [endStatement, transRollbackStmt, hstmt', hs]
    rw [hend]
    exact ⟨hdurable, hpending, houtside, hregistered, hstmt⟩

theorem durable_transRollback (s : Session W) : s.transRollback.durable = s.durable := by
  rw [transRollback, eloqRollback_eq]
  split_ifs <;> rfl

theorem Agrees.stmtList_transRollback (h : Agrees (s, l)) : s.transRollback.stmtList = false := by
  refine Eq.trans ?_ h.stmtList
  rw [transRollback, eloqRollback_eq]
  split_ifs <;> rfl

/-- There is no handle after a rollback. -/
theorem Agrees.current_transRollback (h : Agrees (s, l)) : s.transRollback.current = none := by
  rw [transRollback, eloqRollback_eq]
  split_ifs with hall
  · simp only [current]
    cases s.myTx <;> rfl
  · exact by_contra fun hne => hall (h.registered hne)

/-- With nothing to commit, the options are set. -/
theorem fixAutocommit_of_empty (hs : s.stmtList = false) (ha : s.allList = false)
    (autocommit commits : Bool) : s.fixAutocommit autocommit commits
      = ({ s with
            notAutocommit := !autocommit
            optionBegin := if autocommit && s.notAutocommit then false else s.optionBegin },
          true) := by
  obtain ⟨n, b, st, al, myTx, durable⟩ := s
  obtain rfl : st = false := hs
  obtain rfl : al = false := ha
  cases autocommit <;> cases n <;> rfl

/-- A transaction is committed before autocommit is set. -/
theorem Agrees.setAutocommit (h : Agrees (s, l)) (autocommit commits : Bool) :
    Agrees ((s.setAutocommit autocommit commits).1,
      l.finish (s.setAutocommit autocommit commits).2) := by
  have hc := h.committed_if commits
  have himplicit : Agrees ((s.transCommitImplicit commits).1,
      l.finish (s.transCommitImplicit commits).2) := h.of_committed hc rfl rfl rfl
  rw [Session.setAutocommit]
  by_cases hok : (s.transCommitImplicit commits).2 = true
  · rw [if_pos hok, fixAutocommit_of_empty himplicit.stmtList rfl]
    have hfin : l.finish (s.transCommitImplicit commits).2 = l.finish true := by rw [hok]
    exact ⟨hfin ▸ himplicit.durable, hfin ▸ himplicit.pending,
      fun _ => hc.current, fun hne => absurd hc.current hne, himplicit.stmtList⟩
  · rw [if_neg hok]
    exact himplicit

/-- **Every harmless event keeps the session and the ledger together.** -/
theorem agrees_step {c : Session W × Ledger W} {e : Event W} (h : Agrees c) (he : Harmless c e) :
    Agrees (step c e) := by
  obtain ⟨s, l⟩ := c
  cases e with
  | statement locks ws succeeds commits =>
    cases locks with
    | false => exact h.statement_none succeeds commits
    | true =>
      cases succeeds with
      | true => exact h.statement_ok ws commits
      | false => exact h.statement_error ws he
  | «begin» commits => exact h.of_committed (h.committed_if commits) rfl rfl rfl
  | commit commits =>
    exact h.of_committed (committed_haCommitTrans h.registered commits) rfl rfl rfl
  | rollback =>
    exact h.of_rollback (durable_transRollback s) (h.current_transRollback) h.stmtList_transRollback
  | setAutocommit autocommit commits => exact h.setAutocommit autocommit commits
  | disconnect commits =>
    have hc := committed_txCommit s.transRollback commits
    refine h.of_rollback ?_ rfl (hc.stmtList.trans h.stmtList_transRollback)
    refine hc.durable.trans ?_
    rw [h.current_transRollback, Option.getD_none, List.append_nil, ite_self, durable_transRollback]

end Step

/-- **Transactions are all or nothing in every run of harmless events**: a `COMMIT` that reports
success makes durable what the statements of the transaction that succeeded have written, and
`ROLLBACK` and the end of the session make nothing durable. A statement that fails after others have
written is not harmless: the next `COMMIT` loses their writes and reports success. -/
theorem durable_of_run (autocommit : Bool) (es : List (Event W))
    (hes : Machine.Meets (fun c e => some (step c e)) Harmless (start autocommit, ⟨[], []⟩) es) :
    let c := es.foldl step (start autocommit, ⟨[], []⟩)
    c.1.durable = c.2.durable ∧
    (∀ commits, (c.1.handle (.commit commits)).2 = true →
      (c.1.handle (.commit commits)).1.durable = c.2.durable ++ c.2.pending) ∧
    (c.1.handle .rollback).1.durable = c.2.durable ∧
    (∀ commits, (c.1.handle (.disconnect commits)).1.durable = c.2.durable) ∧
    ∀ ws cm commits, c.1.testOptions = true →
      let c' := step c (.statement true ws false cm)
      (c'.1.handle (.commit commits)).2 = true →
        ((c'.1.handle (.commit commits)).1.durable = c'.2.durable ++ c'.2.pending
          ↔ c.2.pending = []) := by
  intro c
  have h : Agrees c := Machine.foldl_of_meets (fun _ _ => agrees_step) (agrees_start autocommit) hes
  refine ⟨h.durable, fun commits hok => ?_, ?_, fun commits => ?_, ?_⟩
  · have hcommit : Agrees (step c (.commit commits)) := agrees_step h trivial
    refine hcommit.durable.trans ?_
    show (if (c.1.handle (.commit commits)).2 then _ else _) = _
    rw [hok, if_pos rfl]
  · have hrollback : Agrees (step c .rollback) := agrees_step h trivial
    exact hrollback.durable
  · have hdisconnect : Agrees (step c (.disconnect commits)) := agrees_step h trivial
    exact hdisconnect.durable
  · intro ws cm commits ht c' hok
    obtain ⟨s, l⟩ := c
    -- the abort has left no handle to commit
    have habort : c'.1 = { s with
        stmtList := false
        allList := true
        myTx := some none } := by
      show (s.externalLock.write ws).transRollbackStmt = _
      rw [externalLock_write, transRollbackStmt, if_pos rfl, show s.testOptions = true from ht,
        Bool.or_true]
      rfl
    have hdurable : (c'.1.handle (.commit commits)).1.durable = s.durable := by
      rw [habort]
      show (if commits then s.durable ++ [] else s.durable) = _
      rw [List.append_nil, ite_self]
    rw [hdurable, show s.durable = l.durable from h.durable]
    show l.durable = l.durable ++ l.pending ↔ l.pending = []
    exact List.self_eq_append_right

/-- Two statements in a transaction. -/
theorem durable_sample :
    let es : List (Event ℕ) := [.begin true, .statement true [1] true true,
      .statement true [2, 3] true true]
    let c := es.foldl step (start true, ⟨[], []⟩)
    (c.1.handle (.commit true)).1.durable = [1, 2, 3] :=
  (durable_of_run true [.begin true, .statement true [1] true true,
    .statement true [2, 3] true true] (by simp [Machine.Meets, Harmless])).2.1 true rfl

/-- **A statement that fails in a transaction loses the writes of those before**, and `COMMIT`
reports success. -/
theorem durable_lost :
    let es : List (Event ℕ) := [.begin true, .statement true [1] true true,
      .statement true [2] false true]
    let c := es.foldl step (start true, ⟨[], []⟩)
    (c.1.handle (.commit true)).2 = true ∧ (c.1.handle (.commit true)).1.durable = [] ∧
      c.2.durable ++ c.2.pending = [1] := by
  decide

end Session

end EloqSql
