import Mathlib.Data.List.Basic

/-!
# Lib/Deferred — checking keys at once or one after the other

A store has live keys, and some of them are its own: those it holds in its pending writes. Writing a
row makes the keys of the row live, and its own. A row is `Fresh` if none of its keys is live.

Rows that are written one after the other can be checked each before it is written (`SeqFresh`). It
comes to the same to look at the own keys only before each write, and to check all rows against the
store before the first of them (`seqFresh_iff`): a key that an earlier row has made live is an own
key.
-/

namespace Deferred

variable {σ ρ κ : Type*} (live own : σ → κ → Prop) (keys writes : ρ → κ → Prop)
  (write : σ → ρ → σ)

/-- No key of the row is live. -/
def Fresh (s : σ) (r : ρ) : Prop := ∀ k, keys r k → ¬ live s k

/-- The rows are written one after the other. -/
def writeAll (s : σ) (rows : List ρ) : σ := rows.foldl write s

/-- **Each row is fresh when its turn comes.** -/
def SeqFresh : σ → List ρ → Prop
  | _, [] => True
  | s, r :: rows => Fresh live keys s r ∧ SeqFresh (write s r) rows

/-- **What writing a row does to the keys.** -/
structure Grows : Prop where
  live_of_own : ∀ s k, own s k → live s k
  live_write : ∀ s r k, live (write s r) k ↔ live s k ∨ writes r k
  own_write : ∀ s r k, own (write s r) k ↔ own s k ∨ writes r k

variable {live own keys writes write}

theorem writeAll_append (s : σ) (rows rows' : List ρ) :
    writeAll write s (rows ++ rows') = writeAll write (writeAll write s rows) rows' :=
  List.foldl_append

theorem seqFresh_append : ∀ {rows rows' : List ρ} {s : σ},
    SeqFresh live keys write s (rows ++ rows') ↔
      SeqFresh live keys write s rows ∧ SeqFresh live keys write (writeAll write s rows) rows'
  | [], _, _ => by simp [SeqFresh, writeAll]
  | r :: rows, rows', s => by
      rw [List.cons_append, SeqFresh, seqFresh_append, SeqFresh, and_assoc]
      rfl

/-- A key of a row that comes later is not an own key before. -/
theorem not_own_of_seq (h : Grows live own writes write) : ∀ {rows : List ρ} {s : σ},
    SeqFresh own keys write s rows → ∀ r ∈ rows, Fresh own keys s r
  | r' :: rows, s, hseq, r, hr => by
      rcases List.mem_cons.1 hr with rfl | hr
      · exact hseq.1
      · intro k hk hown
        exact not_own_of_seq h hseq.2 r hr k hk ((h.own_write s r' k).2 (.inl hown))

/-- **Checking each row in its turn is checking the own keys in turn, and all rows before the
first.** -/
theorem seqFresh_iff (h : Grows live own writes write) : ∀ {rows : List ρ} {s : σ},
    SeqFresh live keys write s rows ↔
      SeqFresh own keys write s rows ∧ ∀ r ∈ rows, Fresh live keys s r
  | [], s => by simp [SeqFresh]
  | r :: rows, s => by
      rw [SeqFresh, SeqFresh, seqFresh_iff h, List.forall_mem_cons]
      constructor
      · rintro ⟨hr, hown, hrows⟩
        refine ⟨⟨fun k hk hc => hr k hk (h.live_of_own s k hc), hown⟩, hr, fun r' hr' k hk hc => ?_⟩
        exact hrows r' hr' k hk ((h.live_write s r k).2 (.inl hc))
      · rintro ⟨⟨-, hown⟩, hr, hrows⟩
        refine ⟨hr, hown, fun r' hr' k hk hc => ?_⟩
        -- a key that `r` has made live is an own key when the turn of `r'` comes
        rcases (h.live_write s r k).1 hc with hc | hc
        · exact hrows r' hr' k hk hc
        · exact not_own_of_seq h hown r' hr' k hk ((h.own_write s r k).2 (.inr hc))

end Deferred
