import EloqSql.Handler.Consistency

/-!
# Handler/Undo — what a duplicate leaves in the write set

A call that finds a duplicate has already written to the indexes before that one. `Insert` then
removes an entry of each of them: whatever was there before it is gone, and in an index that is not
unique the key it builds is not the one it has written. `Update` removes nothing. `writeSet_eq_iff`
says exactly when the write set is what it was.
-/

namespace EloqSql

open List

open Function (update)
open EStateM.Result (error.inj)

/-! ## Write sets by table -/

namespace TxExecution

variable (tx : TxExecution)

/-- The entries of a table in the write set. -/
def entries (n : TableName) (k : Bytes) : Option WriteSetEntry := tx.writeSet (n, k)

theorem writeSet_eq_iff_entries {tx tx' : TxExecution} :
    tx.writeSet = tx'.writeSet ↔ ∀ n, tx.entries n = tx'.entries n :=
  ⟨fun h n => funext fun k => congrFun h (n, k), fun h => funext fun k => congrFun (h k.1) k.2⟩

theorem entries_upsert (n : TableName) (k : Bytes) (e : WriteSetEntry) :
    (tx.upsert (n, k) e).entries n = update (tx.entries n) k (some e) := by
  funext k'
  simp [entries, upsert, Function.update_apply]

theorem entries_revert (n : TableName) (k : Bytes) :
    (tx.revert (n, k)).entries n = update (tx.entries n) k none := by
  funext k'
  simp [entries, revert, Function.update_apply]

theorem entries_revert_of_ne {n m : TableName} (h : m ≠ n) (k : Bytes) :
    (tx.revert (n, k)).entries m = tx.entries m := by
  funext k'
  simp [entries, revert, h]

theorem entries_of_view {tx tx' : TxExecution} {n : TableName} (h : n.view tx = n.view tx') :
    tx.entries n = tx'.entries n :=
  funext fun k => congrArg Prod.fst (congrFun h k)

end TxExecution

/-- Two writes leave a map as it was if it had both values already, where the second may cover the
first. -/
theorem update_update_eq_self_iff {α β : Type*} [DecidableEq α] {f : α → β} {a a' : α} {b b' : β} :
    update (update f a b) a' b' = f ↔ f a' = b' ∧ (a = a' ∨ f a = b) := by
  rw [Function.update_eq_iff, eq_comm (a := b')]
  refine and_congr_right fun _ => ?_
  constructor
  · intro h
    by_cases haa : a = a'
    · exact Or.inl haa
    · exact Or.inr ((h a haa).symm.trans (Function.update_self _ _ _))
  · rintro h x hx
    by_cases hxa : x = a
    · subst hxa
      rw [Function.update_self, h.resolve_left hx]
    · rw [Function.update_of_ne hxa]

namespace Handler

variable (h : Handler)

/-! ## The first duplicate -/

/-- The first index for which a test holds. -/
def FirstDup (dup : IndexRef → Prop) (kid : ℕ) : Prop :=
  kid ∈ h.secondaryKids h.table.keyInfo.length ∧ dup (h.index kid) ∧
    ∀ j ∈ h.secondaryKids kid, ¬ dup (h.index j)

variable {h}

theorem mem_secondaryKids {n kid : ℕ} :
    kid ∈ h.secondaryKids n ↔ kid < n ∧ h.table.primaryKey ≠ some kid := by
  rw [secondaryKids, mem_filter, mem_range, decide_eq_true_eq]

theorem FirstDup.unique {dup : IndexRef → Prop} {kid kid' : ℕ} (hk : h.FirstDup dup kid)
    (hk' : h.FirstDup dup kid') : kid = kid' := by
  rcases Nat.lt_trichotomy kid kid' with hlt | heq | hlt
  · exact absurd hk.2.1 (hk'.2.2 kid (mem_secondaryKids.mpr ⟨hlt, (mem_secondaryKids.mp hk.1).2⟩))
  · exact heq
  · exact absurd hk'.2.1 (hk.2.2 kid' (mem_secondaryKids.mpr ⟨hlt, (mem_secondaryKids.mp hk'.1).2⟩))

/-- The keys before one, that one, and those after it. -/
theorem secondaryKids_split {n kid : ℕ} (hk : kid ∈ h.secondaryKids n) :
    ∃ rest, h.secondaryKids n = h.secondaryKids kid ++ kid :: rest := by
  obtain ⟨hlt, hne⟩ := mem_secondaryKids.mp hk
  obtain ⟨m, rfl⟩ := Nat.exists_eq_add_of_lt hlt
  rw [secondaryKids, Nat.add_assoc, range_add, range_succ_eq_map, filter_append,
    map_cons, Nat.add_zero, filter_cons_of_pos (by simpa using hne)]
  exact ⟨_, rfl⟩

/-- An index that is unique comes after those of the keys before it. -/
theorem indexes_split {done rest : List IndexRef} {ix : IndexRef}
    (hs : h.indexes = done ++ ix :: rest) (hu : ix.isUniqueSk = true) :
    ∃ kid ∈ h.secondaryKids h.table.keyInfo.length,
      ix = h.index kid ∧ done = (h.secondaryKids kid).map h.index := by
  have hix : ix ∈ h.indexes := by rw [hs]; simp
  rcases mem_append.mp hix with hix | hix
  · obtain ⟨kid, hkid, rfl⟩ := mem_map.mp hix
    refine ⟨kid, hkid, rfl, ?_⟩
    obtain ⟨kids, hkids⟩ := h.secondaryKids_split hkid
    have hs' := hs
    rw [indexes, hkids, map_append, map_cons, append_assoc, cons_append] at hs'
    have hpair := h.pairwise_indexes
    rw [hs, pairwise_append, pairwise_cons] at hpair
    have hdone : h.index kid ∉ done := fun hmem => hpair.2.2 _ hmem _ mem_cons_self rfl
    have hrest : h.index kid ∉ rest := fun hmem => hpair.2.1.1 _ hmem rfl
    exact ((append_cons_inj_of_notMem hdone hrest).mp hs'.symm).1
  · obtain ⟨i, hi, rfl⟩ := mem_mapIdx.mp hix
    cases hu

/-! ## The loop up to a duplicate -/

section Before

variable {step : IndexRef → HandlerM Unit} {kid : ℕ} {s s₁ s' : HandlerState}

/-- **A loop that finds a duplicate stops at a unique index**, and has done those before it. -/
theorem indexes_dup
    (hu : ∀ ix s s', (step ix).run s = .error .foundDuppKey s' → ix.isUniqueSk = true)
    (hr : (h.indexes.forM step).run s = .error .foundDuppKey s') :
    ∃ kid ∈ h.secondaryKids h.table.keyInfo.length, ∃ s₁,
      (((h.secondaryKids kid).map h.index).forM step).run s = .ok () s₁ ∧
        (step (h.index kid)).run s₁ = .error .foundDuppKey s' := by
  obtain ⟨done, ix, rest, s₁, hs, hdone, hix⟩ := Loop.error_split hr
  obtain ⟨kid, hkid, rfl, rfl⟩ := indexes_split hs (hu _ _ _ hix)
  exact ⟨kid, hkid, s₁, hdone, hix⟩

variable (hstep : WritesOwn step)
  (hr : (((h.secondaryKids kid).map h.index).forM step).run s = .ok () s₁)

include hstep hr

/-- The loop has done to an index before what its step does. -/
theorem before_step {j : ℕ} (hj : j ∈ h.secondaryKids kid) :
    ∃ s₂ s₃, (TableName.index j).view s₂.tx = (TableName.index j).view s.tx ∧
      (step (h.index j)).run s₂ = .ok () s₃ ∧
      (TableName.index j).view s₁.tx = (TableName.index j).view s₃.tx := by
  have hpair : ((h.secondaryKids kid).map h.index).Pairwise fun ix ix' => ix.name ≠ ix'.name := by
    rw [pairwise_map]
    exact (h.nodup_secondaryKids kid).imp fun hne heq => hne (TableName.index.inj heq)
  exact Loop.step_of_mem (fun ix s => ix.name.view s.tx)
    (fun a b s s' hne => hstep a b.name s s' hne) (fun _ _ => Ne.symm) hpair
    (mem_map_of_mem hj) hr

/-- It has done nothing to the others. -/
theorem before_other {m : TableName} (hm : ∀ j ∈ h.secondaryKids kid, m ≠ .index j) :
    m.view s₁.tx = m.view s.tx := by
  refine Loop.view_eq (fun s => m.view s.tx) (fun ix hix t t' => hstep ix m t t' ?_) hr
  obtain ⟨j, hj, rfl⟩ := mem_map.mp hix
  exact Ne.symm (hm j hj)

/-- The index of the duplicate is one of those. -/
theorem before_self : (TableName.index kid).view s₁.tx = (TableName.index kid).view s.tx :=
  before_other hstep hr fun _ hj heq =>
    (mem_secondaryKids.mp hj).1.ne (TableName.index.inj heq).symm

/-- **The write set is what it was if that of each index before is.** -/
theorem writeSet_eq_iff_before {tx' : TxExecution}
    (hother : ∀ m, (∀ j ∈ h.secondaryKids kid, m ≠ .index j) → tx'.entries m = s₁.tx.entries m) :
    tx'.writeSet = s.tx.writeSet ↔
      ∀ j ∈ h.secondaryKids kid, tx'.entries (.index j) = s.tx.entries (.index j) := by
  rw [TxExecution.writeSet_eq_iff_entries]
  refine ⟨fun heq j _ => heq (.index j), fun heq m => ?_⟩
  by_cases hm : ∀ j ∈ h.secondaryKids kid, m ≠ .index j
  · rw [hother m hm, TxExecution.entries_of_view (before_other hstep hr hm)]
  · push Not at hm
    obtain ⟨j, hj, rfl⟩ := hm
    exact heq j hj

end Before

theorem convertTxError_ne (err : TxErrorCode) : convertTxError err ≠ .foundDuppKey := by
  cases err <;> exact HaError.noConfusion

theorem TxService.txUpsert_ne {svc : TxService} {k : TableName × Bytes} {e : WriteSetEntry}
    {s s' : HandlerState} : (svc.txUpsert k e).run s ≠ .error .foundDuppKey s' := by
  rw [TxService.txUpsert_run]
  cases svc.upsertError k e.op <;> simp

/-- A duplicate is found in the loop. -/
theorem loop_upsert_dup {svc : TxService} {key : Bytes} {step : IndexRef → HandlerM Unit}
    {e : WriteSetEntry} {s s' : HandlerState}
    (hr : (do h.indexes.forM step; svc.txUpsert (.base, key) e : HandlerM Unit).run s
      = .error .foundDuppKey s') :
    (h.indexes.forM step).run s = .error .foundDuppKey s' := by
  rw [EStateM.run_bind] at hr
  split at hr
  · exact absurd hr TxService.txUpsert_ne
  next hloop =>
    obtain ⟨rfl, rfl⟩ := error.inj hr
    exact hloop

/-! ## `Insert` -/

section Insert

variable {svc : TxService} {buf : Record} {hiddenPk : Option Bytes} {s s' : HandlerState}

variable (h buf hiddenPk) in
/-- A unique index that has the new key already. -/
def HasNewKey (tx : TxExecution) (ix : IndexRef) : Prop :=
  ix.isUniqueSk = true ∧ (tx.live (ix.name, h.newKey buf hiddenPk ix)).isSome = true

variable (h buf hiddenPk) in
/-- The key that the undo of `Insert` builds for an index. -/
def undoKey (j : ℕ) : Bytes := skKey true (h.packSk (h.index j) buf hiddenPk)

theorem insertIndex_dup {ix : IndexRef}
    (hr : (h.insertIndex svc buf hiddenPk ix).run s = .error .foundDuppKey s') :
    h.HasNewKey buf hiddenPk s.tx ix ∧
      s'.tx = h.reverted buf hiddenPk ix.kid ix.isUniqueSk s.tx := by
  rw [insertIndex_run] at hr
  split at hr
  · exact absurd (error.inj hr).1 (convertTxError_ne _)
  · split_ifs at hr with hd
    · obtain ⟨-, rfl⟩ := error.inj hr
      exact ⟨hd, rfl⟩
    · exact absurd hr TxService.txUpsert_ne

variable (h buf hiddenPk) in
/-- The undo removes the entry under that key. -/
theorem entries_reverted (tx : TxExecution) (kid : ℕ) :
    (∀ j ∈ h.secondaryKids kid, (h.reverted buf hiddenPk kid true tx).entries (.index j)
      = Function.update (tx.entries (.index j)) (h.undoKey buf hiddenPk j) none) ∧
    ∀ m, (∀ j ∈ h.secondaryKids kid, m ≠ .index j) →
      (h.reverted buf hiddenPk kid true tx).entries m = tx.entries m := by
  have hnodup := h.nodup_secondaryKids kid
  rw [reverted]
  generalize h.secondaryKids kid = kids at hnodup ⊢
  induction kids generalizing tx with
  | nil => exact ⟨by simp, fun _ _ => rfl⟩
  | cons i is ih =>
    rw [nodup_cons] at hnodup
    obtain ⟨hin, hout⟩ := ih (tx.revert (.index i, h.undoKey buf hiddenPk i)) hnodup.2
    have hne : ∀ j ∈ is, TableName.index i ≠ .index j :=
      fun j hj heq => hnodup.1 (TableName.index.inj heq ▸ hj)
    refine ⟨fun j hj => ?_, fun m hm => ?_⟩
    · rcases mem_cons.mp hj with rfl | hj
      · exact (hout _ hne).trans (tx.entries_revert _ _)
      · refine (hin j hj).trans ?_
        rw [tx.entries_revert_of_ne (hne j hj).symm]
    · rw [forall_mem_cons] at hm
      exact (hout m hm.2).trans (tx.entries_revert_of_ne hm.1 _)

variable (h buf hiddenPk) in
/-- The undo of an index leaves its entries as they were before `Insert`. -/
def Undone (tx : TxExecution) (j : ℕ) : Prop :=
  tx.writeSet (.index j, h.undoKey buf hiddenPk j) = none ∧
    (h.newKey buf hiddenPk (h.index j) = h.undoKey buf hiddenPk j ∨
      tx.writeSet (.index j, h.newKey buf hiddenPk (h.index j))
        = some (h.newEntry buf hiddenPk (h.index j)))

/-- The loop of `Insert` with its undo. -/
theorem insertIndexes_dup
    (hr : (h.indexes.forM (h.insertIndex svc buf hiddenPk)).run s = .error .foundDuppKey s') :
    ∃ kid, h.FirstDup (h.HasNewKey buf hiddenPk s.tx) kid ∧
      (s'.tx.writeSet = s.tx.writeSet ↔
        ∀ j ∈ h.secondaryKids kid, h.Undone buf hiddenPk s.tx j) := by
  have hown := h.writesOwn_insertIndex svc buf hiddenPk
  obtain ⟨kid, hkid, s₁, hbefore, hdup⟩ :=
    indexes_dup (fun ix s s' hr => (insertIndex_dup hr).1.1) hr
  obtain ⟨⟨hu, hlive⟩, htx⟩ := insertIndex_dup hdup
  obtain ⟨hin, hout⟩ := h.entries_reverted buf hiddenPk s₁.tx kid
  have htx' : s'.tx = h.reverted buf hiddenPk kid true s₁.tx := by rw [htx, hu]; rfl
  refine ⟨kid, ⟨hkid, ⟨hu, ?_⟩, fun j hj => ?_⟩, ?_⟩
  · rwa [live_of_view (n := (h.index kid).name) (before_self hown hbefore)] at hlive
  · rintro ⟨hju, hjlive⟩
    obtain ⟨s₂, s₃, hv, hok, -⟩ := before_step hown hbefore hj
    have hnone := (insertIndex_ok hok).2 hju
    rw [live_of_view (n := (h.index j).name) hv] at hnone
    exact absurd hjlive (by simpa using hnone)
  · rw [htx', writeSet_eq_iff_before hown hbefore hout]
    refine forall₂_congr fun j hj => ?_
    obtain ⟨s₂, s₃, hv, hok, hv'⟩ := before_step hown hbefore hj
    rw [hin j hj, TxExecution.entries_of_view hv', (insertIndex_ok hok).1]
    have hwrite := s₂.tx.entries_upsert (.index j) (h.newKey buf hiddenPk (h.index j))
      (h.newEntry buf hiddenPk (h.index j))
    rw [TxExecution.entries_of_view hv] at hwrite
    rw [show (h.index j).name = .index j from rfl, hwrite]
    exact update_update_eq_self_iff

theorem insert_dup {key : Bytes} {record : EloqRecord}
    (hr : (h.insert svc buf key record).run s = .error .foundDuppKey s') :
    s'.tx.writeSet = s.tx.writeSet ↔
      (h.skipsPkCheck s.insertIdForCurRow = false ∧ (s.tx.live (.base, key)).isSome) ∨
      ∃ kid, h.FirstDup (h.HasNewKey buf (h.table.hiddenPk key) s.tx) kid ∧
        ∀ j ∈ h.secondaryKids kid, h.Undone buf (h.table.hiddenPk key) s.tx j := by
  rw [insert_run] at hr
  split at hr
  · exact absurd (error.inj hr).1 (convertTxError_ne _)
  · split_ifs at hr with hpk
    · obtain ⟨-, rfl⟩ := error.inj hr
      exact iff_of_true rfl (Or.inl hpk)
    · rw [or_iff_right hpk]
      obtain ⟨kid, hfirst, hiff⟩ := insertIndexes_dup (loop_upsert_dup hr)
      rw [hiff]
      exact ⟨fun hall => ⟨kid, hfirst, hall⟩,
        fun ⟨kid', hfirst', hall⟩ => hfirst.unique hfirst' ▸ hall⟩

end Insert

/-! ## `Update` -/

section Update

variable {svc : TxService} {newData oldData : Record} {hiddenPk : Option Bytes}
  {s s' : HandlerState}

variable (h newData oldData hiddenPk) in
/-- A unique index whose key changes, and that has the new key already. -/
def HasChangedKey (tx : TxExecution) (ix : IndexRef) : Prop :=
  h.newKey newData hiddenPk ix ≠ h.newKey oldData hiddenPk ix ∧ h.HasNewKey newData hiddenPk tx ix

theorem updateIndex_dup {ix : IndexRef}
    (hr : (h.updateIndex svc newData oldData hiddenPk ix).run s = .error .foundDuppKey s') :
    h.HasChangedKey newData oldData hiddenPk s.tx ix ∧ s'.tx = s.tx := by
  rw [updateIndex_run] at hr
  by_cases heq : h.newKey newData hiddenPk ix = h.newKey oldData hiddenPk ix
  · rw [if_pos heq] at hr
    exact nomatch hr
  rw [if_neg heq] at hr
  split at hr
  · exact absurd (error.inj hr).1 (convertTxError_ne _)
  · split_ifs at hr with hd
    · obtain ⟨-, rfl⟩ := error.inj hr
      exact ⟨⟨heq, hd⟩, rfl⟩
    · rw [EStateM.run_bind] at hr
      split at hr
      · exact absurd hr TxService.txUpsert_ne
      next hup =>
        obtain ⟨rfl, rfl⟩ := error.inj hr
        exact absurd hup TxService.txUpsert_ne

variable (h newData oldData hiddenPk) in
/-- `Update` writes to an index what it holds already. -/
def Rewritten (tx : TxExecution) (j : ℕ) : Prop :=
  h.newKey newData hiddenPk (h.index j) ≠ h.newKey oldData hiddenPk (h.index j) →
    tx.writeSet (.index j, h.newKey oldData hiddenPk (h.index j)) = some ⟨.delete, none⟩ ∧
    tx.writeSet (.index j, h.newKey newData hiddenPk (h.index j))
      = some (h.newEntry newData hiddenPk (h.index j))

theorem update_dup {key : Bytes} {record : EloqRecord}
    (hr : (h.update svc newData oldData key record).run s = .error .foundDuppKey s') :
    s'.tx.writeSet = s.tx.writeSet ↔
      ∃ kid, h.FirstDup (h.HasChangedKey newData oldData (h.table.hiddenPk key) s.tx) kid ∧
        ∀ j ∈ h.secondaryKids kid, h.Rewritten newData oldData (h.table.hiddenPk key) s.tx j := by
  have hown := h.writesOwn_updateIndex svc newData oldData (h.table.hiddenPk key)
  obtain ⟨kid, hkid, s₁, hbefore, hdup⟩ :=
    indexes_dup (fun ix s s' hr => (updateIndex_dup hr).1.2.1) (loop_upsert_dup hr)
  obtain ⟨⟨hne, hu, hlive⟩, htx⟩ := updateIndex_dup hdup
  have hfirst : h.FirstDup (h.HasChangedKey newData oldData (h.table.hiddenPk key) s.tx) kid := by
    refine ⟨hkid, ⟨hne, hu, ?_⟩, fun j hj => ?_⟩
    · rwa [live_of_view (n := (h.index kid).name) (before_self hown hbefore)] at hlive
    · rintro ⟨hjne, hju, hjlive⟩
      obtain ⟨s₂, s₃, hv, hok, -⟩ := before_step hown hbefore hj
      have hstep := updateIndex_ok hok
      simp only [if_neg hjne] at hstep
      have hnone := hstep.2 hju
      rw [live_of_view (n := (h.index j).name) hv] at hnone
      exact absurd hjlive (by simpa using hnone)
  have hiff : s'.tx.writeSet = s.tx.writeSet ↔
      ∀ j ∈ h.secondaryKids kid, h.Rewritten newData oldData (h.table.hiddenPk key) s.tx j := by
    rw [htx, writeSet_eq_iff_before hown hbefore fun _ _ => rfl]
    refine forall₂_congr fun j hj => ?_
    obtain ⟨s₂, s₃, hv, hok, hv'⟩ := before_step hown hbefore hj
    have hstep := updateIndex_ok hok
    rw [TxExecution.entries_of_view hv', Rewritten]
    simp only at hstep
    split_ifs at hstep with heq
    · rw [hstep, TxExecution.entries_of_view hv]
      exact iff_of_true rfl (absurd heq)
    · have hname : (h.index j).name = .index j := rfl
      rw [hstep.1, imp_iff_right heq, hname, TxExecution.entries_upsert, TxExecution.entries_upsert,
        TxExecution.entries_of_view hv]
      exact update_update_eq_self_iff.trans (and_congr_right fun _ => or_iff_right heq)
  rw [hiff]
  exact ⟨fun hall => ⟨kid, hfirst, hall⟩, fun ⟨kid', hfirst', hall⟩ => hfirst.unique hfirst' ▸ hall⟩

end Update

/-- **When a duplicate leaves the write set as it was.** -/
theorem writeSet_eq_iff (svc : TxService) (s s' : HandlerState) (new old : Record) (key : Bytes)
    (record : EloqRecord) :
    ((h.insert svc new key record).run s = .error .foundDuppKey s' →
      (s'.tx.writeSet = s.tx.writeSet ↔
        (h.skipsPkCheck s.insertIdForCurRow = false ∧ (s.tx.live (.base, key)).isSome) ∨
        ∃ kid, h.FirstDup (h.HasNewKey new (h.table.hiddenPk key) s.tx) kid ∧
          ∀ j ∈ h.secondaryKids kid, h.Undone new (h.table.hiddenPk key) s.tx j)) ∧
    ((h.update svc new old key record).run s = .error .foundDuppKey s' →
      (s'.tx.writeSet = s.tx.writeSet ↔
        ∃ kid, h.FirstDup (h.HasChangedKey new old (h.table.hiddenPk key) s.tx) kid ∧
          ∀ j ∈ h.secondaryKids kid, h.Rewritten new old (h.table.hiddenPk key) s.tx j)) :=
  ⟨insert_dup, update_dup⟩

/-! ### A table to try this on -/

/-- What a call that finds a duplicate leaves in the write set under a key. -/
def entryAfterDup (r : EStateM.Result HaError HandlerState Unit) (k : TableName × Bytes) :
    Option (Option WriteSetEntry) :=
  match r with
  | .error .foundDuppKey s' => some (s'.tx.writeSet k)
  | _ => none

theorem of_entryAfterDup {r : EStateM.Result HaError HandlerState Unit} {k : TableName × Bytes}
    {e : Option WriteSetEntry} (hr : entryAfterDup r k = some e) :
    ∃ s', r = .error .foundDuppKey s' ∧ s'.tx.writeSet k = e := by
  unfold entryAfterDup at hr
  split at hr
  · exact ⟨_, rfl, Option.some.inj hr⟩
  · exact nomatch hr

/-- A new transaction on the rows `(1, 10, 11)` and `(2, 20, 21)`. -/
def sampleCommitted : HandlerState :=
  { emptyState with tx := ⟨Call.sampleTwoRows.1.tx.live, fun _ => none⟩ }

/-- The key of a row of the sample table. -/
def samplePk (a : UInt8) : Bytes := (sample.packPk (sampleRow a none 0).record).tuple

/-- A primary key that is there, and a duplicate in the first index, leave no trace. -/
theorem writeSet_eq_sample :
    (∃ s', (sample.insert .reliable (sampleRow 1 (some 40) 41).record (samplePk 1) ⟨[], []⟩).run
        sampleCommitted = .error .foundDuppKey s' ∧
      s'.tx.writeSet = sampleCommitted.tx.writeSet) ∧
    ∃ s', (sample.update .reliable (sampleRow 1 (some 20) 11).record
        (sampleRow 1 (some 10) 11).record (samplePk 1) ⟨[], []⟩).run sampleCommitted
        = .error .foundDuppKey s' ∧
      s'.tx.writeSet = sampleCommitted.tx.writeSet := by
  constructor
  · obtain ⟨s', hr, -⟩ := of_entryAfterDup (k := (.base, [])) (e := none)
      (r := (sample.insert .reliable (sampleRow 1 (some 40) 41).record (samplePk 1) ⟨[], []⟩).run
        sampleCommitted) (by decide +kernel)
    refine ⟨s', hr,
      ((writeSet_eq_iff .reliable _ s' _ (sampleRow 1 none 0).record _ _).1 hr).mpr ?_⟩
    exact Or.inl (by decide +kernel)
  · obtain ⟨s', hr, -⟩ := of_entryAfterDup (k := (.base, [])) (e := none)
      (r := (sample.update .reliable (sampleRow 1 (some 20) 11).record
        (sampleRow 1 (some 10) 11).record (samplePk 1) ⟨[], []⟩).run sampleCommitted)
      (by decide +kernel)
    refine ⟨s', hr, ((writeSet_eq_iff .reliable _ s' _ _ _ _).2 hr).mpr ⟨1, ?_, nofun⟩⟩
    exact ⟨by decide, ⟨by decide +kernel, by decide, by decide +kernel⟩, nofun⟩

/-- **A duplicate leaves its trace**: an `UPDATE` of `(1, 10, 11)` to `(1, 30, 21)` leaves the entry
of 30, and after the first row has been deleted, an `INSERT` of `(3, 10, 21)` leaves the index of
`b` without the deletion of 10. -/
theorem writeSet_ne_sample :
    (∃ s', (sample.update .reliable (sampleRow 1 (some 30) 21).record
        (sampleRow 1 (some 10) 11).record (samplePk 1) ⟨[], []⟩).run sampleCommitted
        = .error .foundDuppKey s' ∧
      s'.tx.writeSet ≠ sampleCommitted.tx.writeSet) ∧
    let s := (Call.deleteRow .reliable (fun _ => 0) [] (sampleRow 1 (some 10) 11)).after
      sampleCommitted
    ∃ s', (sample.insert .reliable (sampleRow 3 (some 10) 21).record (samplePk 3) ⟨[], []⟩).run s
        = .error .foundDuppKey s' ∧
      s'.tx.writeSet ≠ s.tx.writeSet := by
  constructor
  · obtain ⟨s', hr, he⟩ := of_entryAfterDup
      (k := (.index 1, sample.newKey (sampleRow 1 (some 30) 21).record none (sample.index 1)))
      (e := some (sample.newEntry (sampleRow 1 (some 30) 21).record none (sample.index 1)))
      (r := (sample.update .reliable (sampleRow 1 (some 30) 21).record
        (sampleRow 1 (some 10) 11).record (samplePk 1) ⟨[], []⟩).run sampleCommitted)
      (by decide +kernel)
    exact ⟨s', hr, fun heq => nomatch he.symm.trans (congrFun heq _)⟩
  · intro s
    obtain ⟨s', hr, he⟩ := of_entryAfterDup
      (k := (.index 1, sample.newKey (sampleRow 1 (some 10) 11).record none (sample.index 1)))
      (e := none)
      (r := (sample.insert .reliable (sampleRow 3 (some 10) 21).record (samplePk 3) ⟨[], []⟩).run s)
      (by decide +kernel)
    refine ⟨s', hr, fun heq => ?_⟩
    have hs : (s.tx.writeSet (.index 1, sample.newKey (sampleRow 1 (some 10) 11).record none
        (sample.index 1))).isSome = true := by decide +kernel
    rw [← heq, he] at hs
    exact nomatch hs

end Handler

end EloqSql
