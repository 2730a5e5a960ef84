import EloqSql.Lib.Window

/-!
# Lib/Odometer — the next string of a length

`incr` steps a string as an odometer: the greatest symbols at its end turn over to least ones, and
the symbol before them goes one up. Unless all symbols turn over, the result is above everything
that starts with the string (`lt_incr`), and nothing of at least its length that differs from the
string upwards is below it (`start_or_lt_of_gt`). Strings that are put together of parts keep this
as long as no part is shorter than one that turns over (`Steady.flatMap`).
-/

namespace MemCompare

open List

/-- **The symbols of an odometer**: a least and a greatest one, and for each other the next one. -/
structure Wheel (β : Type*) [Ord β] where
  bot : β
  top : β
  next : β → β
  bot_le : ∀ b, compare bot b ≠ .gt
  le_top : ∀ b, compare b top ≠ .gt
  lt_next : ∀ b, b ≠ top → compare b (next b) = .lt
  next_le : ∀ b c, compare b c = .lt → compare (next b) c ≠ .gt

namespace Wheel

variable {β ι : Type*} [Ord β] (w : Wheel β) {u v s t : List β}

/-- All symbols turn over. -/
def Full (s : List β) : Prop := ∀ b ∈ s, b = w.top

theorem full_append : w.Full (u ++ v) ↔ w.Full u ∧ w.Full v := forall_mem_append

theorem full_reverse : w.Full s.reverse ↔ w.Full s := by simp [Full]

/-- What is above a string, whatever follows it, does not turn over. -/
theorem not_full_of_gt (h : ComparesAs v u .gt) : ¬ w.Full u := fun hu => by
  have hle : compare v (replicate (u.length + v.length) w.top) ≠ .gt :=
    compare_replicate_ne_gt w.le_top (Nat.le_add_left ..)
  rw [replicate_add, ← eq_replicate_of_mem hu] at hle
  refine hle ?_
  simpa using h [] (replicate v.length w.top)

variable [DecidableEq β]

instance (s : List β) : Decidable (w.Full s) := inferInstanceAs (Decidable (∀ b ∈ s, b = w.top))

/-- The next string, its last symbol first. -/
def incrLow : List β → List β
  | [] => []
  | b :: s => if b ≠ w.top then w.next b :: s else w.bot :: incrLow s

/-- **The next string.** -/
def incr (s : List β) : List β := (w.incrLow s.reverse).reverse

theorem incrLow_append : ∀ u v : List β, w.incrLow (u ++ v)
    = if w.Full u then replicate u.length w.bot ++ w.incrLow v else w.incrLow u ++ v
  | [], v => by simp [Full]
  | b :: u, v => by
      rw [cons_append, incrLow, incrLow, incrLow_append u v]
      by_cases hb : b = w.top
      · by_cases hu : w.Full u
        · have hbu : w.Full (b :: u) := forall_mem_cons.2 ⟨hb, hu⟩
          rw [if_pos hu, if_pos hbu, if_neg (by simp [hb]), length_cons, replicate_succ,
            cons_append]
        · have hbu : ¬ w.Full (b :: u) := fun h => hu (forall_mem_cons.1 h).2
          rw [if_neg hu, if_neg hbu, if_neg (by simp [hb]), if_neg (by simp [hb]), cons_append]
      · have hbu : ¬ w.Full (b :: u) := fun h => hb (forall_mem_cons.1 h).1
        rw [if_neg hbu, if_pos hb, if_pos hb, cons_append]

/-- **Symbols that turn over carry to what is before them.** -/
theorem incr_append_of_full (h : w.Full v) :
    w.incr (u ++ v) = w.incr u ++ replicate v.length w.bot := by
  rw [incr, reverse_append, incrLow_append, if_pos (w.full_reverse.2 h), reverse_append,
    reverse_replicate, length_reverse, incr]

theorem incr_append (h : ¬ w.Full v) : w.incr (u ++ v) = u ++ w.incr v := by
  rw [incr, reverse_append, incrLow_append, if_neg (mt w.full_reverse.1 h),
    reverse_append, reverse_reverse, incr]

theorem incr_cons_of_full {b : β} (hb : b ≠ w.top) (h : w.Full u) :
    w.incr (b :: u) = w.next b :: replicate u.length w.bot := by
  have happend := w.incr_append_of_full (u := [b]) h
  simpa [incr, incrLow, hb] using happend

theorem incr_cons {b : β} (h : ¬ w.Full u) : w.incr (b :: u) = b :: w.incr u :=
  w.incr_append (u := [b]) h

/-! ## Above the string -/

variable [Std.LawfulEqOrd β]

/-- **The next string is above everything that starts with the string**, whatever follows it. -/
theorem lt_incr : ∀ {u : List β}, ¬ w.Full u → ComparesAs u (w.incr u) .lt
  | [], h => absurd (fun _ hb => nomatch hb) h
  | b :: u, h => by
      by_cases hu : w.Full u
      · have hb : b ≠ w.top := fun hb => h (forall_mem_cons.2 ⟨hb, hu⟩)
        have hlt := w.lt_next b hb
        rw [w.incr_cons_of_full hb hu]
        have hhead := ComparesAs.of_head_ne (u := u) (v := replicate u.length w.bot)
          (a := b) (b := w.next b) (by simp [hlt])
        rwa [hlt] at hhead
      · rw [w.incr_cons hu]
        exact (ComparesAs.refl [b]).append (lt_incr hu)

variable [Std.OrientedOrd β]

omit [DecidableEq β] in
/-- A string that is long enough starts with least symbols, or is above these. -/
theorem bots_start_or_lt : ∀ {n : ℕ} {s : List β}, n ≤ s.length →
    replicate n w.bot <+: s ∨ ComparesAs s (replicate n w.bot) .gt
  | 0, s, _ => .inl ⟨s, rfl⟩
  | n + 1, b :: s, h => by
      rw [replicate_succ]
      cases hb : compare b w.bot with
      | lt =>
        rw [Std.OrientedOrd.eq_swap] at hb
        exact absurd (Ordering.swap_eq_lt.1 hb) (w.bot_le b)
      | gt =>
        have hhead := ComparesAs.of_head_ne (u := s) (v := replicate n w.bot) (a := b)
          (b := w.bot) (by simp [hb])
        rw [hb] at hhead
        exact .inr hhead
      | eq =>
        obtain rfl := Std.LawfulEqOrd.compare_eq_iff_eq.mp hb
        refine (bots_start_or_lt (n := n) (s := s) (by simpa using h)).imp (fun hs => ?_)
          fun hs => ?_
        · exact cons_prefix_cons.2 ⟨rfl, hs⟩
        · exact (ComparesAs.refl [w.bot]).append hs

omit [DecidableEq β] [Std.OrientedOrd β] in
/-- What starts with a string, or is above it, is not below it. -/
theorem not_lt_of_start_or_lt (h : u <+: v ∨ ComparesAs v u .gt) (r : List β) :
    compare (v ++ r) u ≠ .lt := by
  rcases h with ⟨x, rfl⟩ | hgt
  · have hself := ComparesAs.refl u (x ++ r) []
    rw [append_nil, ← append_assoc] at hself
    rw [hself]
    cases x ++ r <;> simp
  · have hgt := hgt r []
    rw [append_nil] at hgt
    simp [hgt]

/-! ## Nothing in between -/

/-- **Whatever differs from `u` upwards in `v` is not below the next string of `u`**, and `v` is not
shorter than `u` if this turns over. -/
structure Steady (u v : List β) : Prop where
  full : w.Full u → u.length ≤ v.length
  next : ComparesAs v u .gt → w.incr u <+: v ∨ ComparesAs v (w.incr u) .gt

variable {w}

/-- The recursion is on both strings, up to where they differ. -/
theorem start_or_lt_of_gt : ∀ {u v : List β}, u.length ≤ v.length ∨ u.getLast? ≠ some w.top →
    ComparesAs v u .gt → w.incr u <+: v ∨ ComparesAs v (w.incr u) .gt
  | [], v, _, h => absurd (fun _ hb => nomatch hb) (w.not_full_of_gt h)
  | b :: u, [], _, h => by
      have hself := h (b :: u) []
      simp [Std.ReflCmp.compare_self] at hself
  | b :: u, c :: v, hend, h => by
      by_cases hu : w.Full u
      · -- the first symbol goes up, and all that follow turn over
        have hb : b ≠ w.top := fun hb => w.not_full_of_gt h (forall_mem_cons.2 ⟨hb, hu⟩)
        have hlen : u.length ≤ v.length := by
          rcases hend with hend | hend
          · simpa using hend
          · rcases eq_nil_or_concat u with rfl | ⟨u, d, rfl⟩
            · exact Nat.zero_le _
            · exact absurd (by simp [List.getLast?_cons, hu d (by simp)]) hend
        have hlt : compare b c = .lt := by
          rcases h.of_cons with hcb | ⟨-, hvu⟩
          · rw [Std.OrientedOrd.eq_swap, hcb]
            rfl
          · exact absurd hu (w.not_full_of_gt hvu)
        rw [w.incr_cons_of_full hb hu]
        cases hn : compare (w.next b) c with
        | lt => exact .inr (ComparesAs.of_head_gt (by rw [Std.OrientedOrd.eq_swap, hn]; rfl))
        | eq =>
          obtain rfl := Std.LawfulEqOrd.compare_eq_iff_eq.mp hn
          exact (w.bots_start_or_lt hlen).imp (fun hs => cons_prefix_cons.2 ⟨rfl, hs⟩)
            (ComparesAs.refl [w.next b]).append
        | gt => exact absurd hn (w.next_le b c hlt)
      · rw [w.incr_cons hu]
        rcases h.of_cons with hcb | ⟨rfl, hvu⟩
        · exact .inr (ComparesAs.of_head_gt hcb)
        · have hend' : u.length ≤ v.length ∨ u.getLast? ≠ some w.top := by
            refine hend.imp (by simp) fun hlast => ?_
            rcases eq_nil_or_concat u with rfl | ⟨u, d, rfl⟩
            · simp
            · simpa [List.getLast?_cons] using hlast
          exact (start_or_lt_of_gt hend' hvu).imp (fun hs => cons_prefix_cons.2 ⟨rfl, hs⟩)
            (ComparesAs.refl [c]).append

namespace Steady

variable {u' v' : List β} {o o' : Ordering}

theorem of_length_le (h : u.length ≤ v.length) : w.Steady u v :=
  ⟨fun _ => h, start_or_lt_of_gt (.inl h)⟩

theorem of_getLast {b : β} (h : u.getLast? = some b) (hb : b ≠ w.top) : w.Steady u v where
  full hu := absurd (hu b (mem_of_getLast? h)) hb
  next := start_or_lt_of_gt (.inr (by simpa [h] using hb))

omit [Std.LawfulEqOrd β] [Std.OrientedOrd β] in
/-- A string that is below at its first symbol. -/
theorem of_head_lt {a b : β} (h : compare a b = .lt) (hb : b ≠ w.top) :
    w.Steady (b :: u) (a :: v) where
  full hu := absurd (hu b (by simp)) hb
  next hgt := by
    have := hgt.compare_eq
    simp [List.compare_cons_cons, h] at this

/-- **Strings that are put together of parts are steady if the parts are.** The first part that
differs decides: it is stepped itself only if all that follows it turns over. -/
theorem append (h : ComparesAs v u o) (h' : ComparesAs v' u' o') (hs : w.Steady u v)
    (hs' : w.Steady u' v') : w.Steady (u ++ u') (v ++ v') where
  full hfull := by
    obtain ⟨hu, hu'⟩ := w.full_append.1 hfull
    have := hs.full hu
    have := hs'.full hu'
    simp only [length_append]
    omega
  next hgt := by
    have ho : o.then o' = .gt := (h.append h').compare_eq.symm.trans hgt.compare_eq
    cases o with
    | lt => cases ho
    | eq =>
      obtain rfl : o' = .gt := ho
      obtain rfl := h.eq_iff.2 rfl
      rw [w.incr_append (w.not_full_of_gt h')]
      exact (hs'.next h').imp (fun hs => (prefix_append_right_inj v).2 hs) h.append
    | gt =>
      by_cases hu' : w.Full u'
      · rw [w.incr_append_of_full hu']
        rcases hs.next h with ⟨r, rfl⟩ | hlt
        · have hlen : u'.length ≤ (r ++ v').length := by
            have := hs'.full hu'
            rw [length_append]
            omega
          rw [append_assoc]
          exact (w.bots_start_or_lt hlen).imp
            (fun hs => (prefix_append_right_inj _).2 hs) (ComparesAs.refl _).append
        · exact .inr fun s t => by rw [append_assoc, append_assoc, hlt]; rfl
      · rw [w.incr_append hu']
        exact .inr fun s t => by rw [append_assoc, append_assoc, h]; rfl

theorem flatMap {f g : ι → List β} {o : ι → Ordering} : ∀ {ps : List ι},
    (∀ p ∈ ps, ComparesAs (g p) (f p) (o p)) → (∀ p ∈ ps, w.Steady (f p) (g p)) →
      w.Steady (ps.flatMap f) (ps.flatMap g)
  | [], _, _ => of_length_le (Nat.le_refl 0)
  | p :: ps, h, hs => by
      rw [flatMap_cons, flatMap_cons]
      exact append (h p (by simp)) (ComparesAs.flatMap fun q hq => h q (mem_cons_of_mem _ hq))
        (hs p (by simp)) (flatMap (fun q hq => h q (mem_cons_of_mem _ hq))
          fun q hq => hs q (mem_cons_of_mem _ hq))

omit [Std.OrientedOrd β] in
/-- **What is above the string is not below the next one.** -/
theorem not_lt_incr (hs : w.Steady u v) (h : ComparesAs v u .gt) (r : List β) :
    compare (v ++ r) (w.incr u) ≠ .lt :=
  not_lt_of_start_or_lt (hs.next h) r

end Steady

end Wheel

end MemCompare
