import EloqSql.Charset
import Mathlib.Data.List.Forall2

/-!
# Like — the range of a pattern

For a `LIKE` the optimizer reads an index range. `my_like_range_simple` makes its two ends from the
pattern: up to the first many-wildcard both follow the pattern, with the smallest and the largest
character for a one-wildcard. What `my_wildcmp` accepts begins between them (`between_of_match`).

Behind that the lower end is filled with zeros, or, in collations with `MY_CS_BINSORT` or
`MY_CS_NOPAD`, ends there. A binary collation that pads with spaces is of the first sort but not of
the second: its comparison goes on with spaces, and a string that goes on with a character below the
space is smaller than the lower end.
-/

namespace EloqSql

open List

namespace Like

/-- **The characters of a `LIKE`**, which are different ASCII characters. -/
structure Wildcards where
  escape : UInt8
  wOne : UInt8
  wMany : UInt8
  ascii : escape < 0x80 ∧ wOne < 0x80 ∧ wMany < 0x80
  distinct : escape ≠ wOne ∧ escape ≠ wMany ∧ wOne ≠ wMany

/-- **A single-byte collation**: its flags `MY_CS_BINSORT` and `MY_CS_NOPAD`, by which its handler
is chosen, and its weights. -/
structure Collation8bit where
  binsort : Bool
  nopad : Bool
  sortOrder : UInt8 → UInt8
  maxSortChar : UInt8
  /-- Functions of binary collations take the characters themselves. -/
  sortOrder_of_binsort : binsort → sortOrder = id
  sortOrder_zero_le : ∀ b, sortOrder 0 ≤ sortOrder b
  sortOrder_le_max : ∀ b, sortOrder b ≤ sortOrder maxSortChar

/-! ## `my_wildcmp` -/

/-- **Where the matcher is** in the pattern: at a character, with what it returns if the string ends
at a one-wildcard; behind an escape; behind a many-wildcard; or behind both. -/
inductive Mode where
  | plain (result : ℤ)
  | escaped
  | many
  | manyEscaped

/-- The next character equal to `cmp`, behind which the rest of the pattern matches. -/
def search (likeconv : UInt8 → UInt8) (cmp : UInt8) (rest : Bytes → ℤ) : Bytes → ℤ
  | [] => -1
  | b :: str =>
    if likeconv b ≠ cmp then search likeconv cmp rest str
    else
      let tmp := rest str
      if tmp ≤ 0 then tmp else search likeconv cmp rest str

/-- `my_wildcmp_8bit_impl`, and `my_wildcmp_bin_impl` with the identity for `likeconv`; the stack
guard ends a recursion that is too deep. -/
def wildcmpImpl (w : Wildcards) (stackGuard : ℕ → Bool) (likeconv : UInt8 → UInt8) :
    Bytes → Mode → ℕ → Bytes → ℤ
  | [], .many, _, _ => 0
  | [], _, _, str => if str ≠ [] then 1 else 0
  | c :: wildstr, mode, level, str =>
    -- a character that is compared
    let anchor :=
      match str with
      | [] => 1
      | b :: str =>
        if likeconv c ≠ likeconv b then 1
        else wildcmpImpl w stackGuard likeconv wildstr (.plain 1) level str
    -- the first character behind a many-wildcard
    let find := search likeconv (likeconv c)
      (fun str =>
        if stackGuard (level + 1) then 1
        else wildcmpImpl w stackGuard likeconv wildstr (.plain (-1)) (level + 1) str) str
    match mode with
    | .plain result =>
      if c = w.wMany then wildcmpImpl w stackGuard likeconv wildstr .many level str
      else if c = w.wOne then
        match str with
        | [] => result
        | _ :: str => wildcmpImpl w stackGuard likeconv wildstr (.plain result) level str
      else if c = w.escape ∧ wildstr ≠ [] then
        wildcmpImpl w stackGuard likeconv wildstr .escaped level str
      else anchor
    | .escaped => anchor
    | .many =>
      if c = w.wMany then wildcmpImpl w stackGuard likeconv wildstr .many level str
      else if c = w.wOne then
        match str with
        | [] => -1
        | _ :: str => wildcmpImpl w stackGuard likeconv wildstr .many level str
      else if str = [] then -1
      else if c = w.escape ∧ wildstr ≠ [] then
        wildcmpImpl w stackGuard likeconv wildstr .manyEscaped level str
      else find
    | .manyEscaped => find

/-- **`my_wildcmp`**: 0 for a match. -/
def myWildcmp (w : Wildcards) (stackGuard : ℕ → Bool) (cs : Collation8bit) (str wildstr : Bytes) :
    ℤ :=
  if stackGuard 1 then 1
  else wildcmpImpl w stackGuard cs.sortOrder wildstr (.plain (-1)) 1 str

/-! ## `my_like_range_simple` -/

/-- The loop, with so many characters to go: the two strings, and whether it has come to a
many-wildcard. -/
def likeRangeLoop (w : Wildcards) (maxSortChar : UInt8) :
    Bytes → Bool → ℕ → Bytes × Bytes × Bool
  | [], _, _ | _, _, 0 => ([], [], false)
  | c :: ptr, escaped, n + 1 =>
    if escaped = false ∧ c = w.escape ∧ ptr ≠ [] then
      likeRangeLoop w maxSortChar ptr true (n + 1)
    else if escaped = false ∧ c = w.wOne then
      let (minStr, maxStr, many) := likeRangeLoop w maxSortChar ptr false n
      (0 :: minStr, maxSortChar :: maxStr, many)
    else if escaped = false ∧ c = w.wMany then ([], [], true)
    else
      let (minStr, maxStr, many) := likeRangeLoop w maxSortChar ptr false n
      (c :: minStr, c :: maxStr, many)

/-- The two strings of a range and their lengths. -/
structure Range where
  minStr : Bytes
  maxStr : Bytes
  minLength : ℕ
  maxLength : ℕ
  deriving DecidableEq

/-- **`my_like_range_simple`.** -/
def myLikeRangeSimple (w : Wildcards) (cs : Collation8bit) (ptr : Bytes) (resLength : ℕ) : Range :=
  let (minStr, maxStr, many) := likeRangeLoop w cs.maxSortChar ptr false resLength
  let fill := resLength - minStr.length
  if many then
    { minStr := minStr ++ replicate fill 0
      maxStr := maxStr ++ replicate fill cs.maxSortChar
      minLength := if cs.binsort || cs.nopad then minStr.length else resLength
      maxLength := resLength }
  else
    { minStr := minStr ++ replicate fill 0x20
      maxStr := maxStr ++ replicate fill 0x20
      minLength := minStr.length
      maxLength := minStr.length }

/-! ## The comparisons -/

/-- `my_strnncoll_simple` and `my_strnncoll_8bit_bin`, with `t_is_prefix` off. They return the
difference of the lengths as an `int`: lengths are below `2 ^ 31` here. -/
def strnncoll8bit (sortOrder : UInt8 → UInt8) : Bytes → Bytes → Ordering
  | a :: s, b :: t =>
    if sortOrder a = sortOrder b then strnncoll8bit sortOrder s t
    else compare (sortOrder a) (sortOrder b)
  | s, t => compare s.length t.length

/-- **`strnncollsp`** of the collation. -/
def Collation8bit.strnncollsp (cs : Collation8bit) (a b : Bytes) : Ordering :=
  if cs.nopad then strnncoll8bit cs.sortOrder a b else strnncollsp8bit cs.sortOrder a b

/-- **A string is in the range of a pattern.** -/
def InRange (w : Wildcards) (cs : Collation8bit) (ptr : Bytes) (resLength : ℕ) (s : Bytes) : Prop :=
  let r := myLikeRangeSimple w cs ptr resLength
  cs.strnncollsp (r.minStr.take r.minLength) s ≠ .gt ∧
    cs.strnncollsp (r.maxStr.take r.maxLength) s ≠ .lt

/-- **A string that falls below the pattern**: there is a many-wildcard among the first characters
of the pattern, before it the string has a zero at each one-wildcard, and what it has from there on
is below spaces. -/
def FallsBelow (w : Wildcards) : Bytes → Bool → ℕ → Bytes → Prop
  | [], _, _, _ | _, _, 0, _ => False
  | c :: ptr, escaped, n + 1, s =>
    if escaped = false ∧ c = w.escape ∧ ptr ≠ [] then FallsBelow w ptr true (n + 1) s
    else if escaped = false ∧ c = w.wOne then s.head? = some 0 ∧ FallsBelow w ptr false n s.tail
    else if escaped = false ∧ c = w.wMany then ∃ b ∈ (s.dropWhile (· = 0x20)).head?, b < 0x20
    else FallsBelow w ptr false n s.tail

/-! ## What is accepted -/

section

variable {w : Wildcards} {stackGuard : ℕ → Bool} {cs : Collation8bit}

variable {below : Prop} {r : Bytes × Bytes × Bool} {u v ptr : Bytes} {a b : UInt8} {resLength : ℕ}

/-- Weights that are nowhere larger. -/
def LeWeights (cs : Collation8bit) : Bytes → Bytes → Prop :=
  List.Forall₂ fun a b => cs.sortOrder a ≤ cs.sortOrder b

/-- **A string against the two strings of a loop**: its first characters are between them, it ends
there unless the loop has come to a many-wildcard, and in a binary collation it falls below the
pattern if its first characters are the lower string and the rest is below spaces. -/
structure Between (cs : Collation8bit) (r : Bytes × Bytes × Bool) (below : Prop)
    (u v : Bytes) : Prop where
  min : LeWeights cs r.1 u
  max : LeWeights cs u r.2.1
  all : r.2.2 = false → v = []
  below_iff : cs.binsort → (below ↔ r.2.2 = true ∧ r.1 = u ∧ strnncollspPadspace id v = .lt)

theorem likeRangeLoop_zero (m : UInt8) (ptr : Bytes) (escaped : Bool) :
    likeRangeLoop w m ptr escaped 0 = ([], [], false) := by
  cases ptr <;> rfl

theorem fallsBelow_zero (ptr : Bytes) (escaped : Bool) (s : Bytes) :
    FallsBelow w ptr escaped 0 s = False := by
  cases ptr <;> rfl

theorem compare_eq_lt_iff (a b : UInt8) : compare a b = .lt ↔ a < b := compareOfLessAndEq_eq_lt

/-- The rest of a string is below spaces. -/
theorem strnncollspPadspace_eq_lt_iff (s : Bytes) : strnncollspPadspace id s = .lt ↔
    ∃ b ∈ (s.dropWhile (· = 0x20)).head?, b < 0x20 := by
  induction s with
  | nil => simp [strnncollspPadspace]
  | cons b s ih =>
    by_cases hb : b = 0x20
    · simpa [strnncollspPadspace, hb] using ih
    · simp [strnncollspPadspace, hb, compare_eq_lt_iff]

/-- Nothing is left of the pattern, or of the room. -/
theorem between_nil (hbelow : ¬below) : Between cs ([], [], false) below [] [] :=
  ⟨.nil, .nil, fun _ => rfl, fun _ => iff_of_false hbelow (by simp)⟩

/-- One more character on each side. -/
theorem Between.cons {below' : Prop}
    (h : Between cs r below u v) {c : UInt8} (hab : cs.sortOrder a ≤ cs.sortOrder b)
    (hbc : cs.sortOrder b ≤ cs.sortOrder c) (hbelow : cs.binsort → (below' ↔ b = a ∧ below)) :
    Between cs (a :: r.1, c :: r.2.1, r.2.2) below' (b :: u) v where
  min := .cons hab h.min
  max := .cons hbc h.max
  all := h.all
  below_iff hbin := by
    rw [hbelow hbin, h.below_iff hbin]
    constructor
    · rintro ⟨rfl, hm, hu, hv⟩
      exact ⟨hm, congrArg _ hu, hv⟩
    · rintro ⟨hm, hu, hv⟩
      obtain ⟨rfl, hu'⟩ := List.cons.inj hu
      exact ⟨rfl, hm, hu', hv⟩

/-- What is accepted from here on is between the strings of the loop. -/
def Accepts (w : Wildcards) (stackGuard : ℕ → Bool) (cs : Collation8bit) (ptr : Bytes)
    (escaped : Bool) : Prop :=
  ∀ (result : ℤ) (level n : ℕ) (str : Bytes), result ≠ 0 →
    wildcmpImpl w stackGuard cs.sortOrder ptr (if escaped then .escaped else .plain result) level
      str = 0 → str.length ≤ n →
    ∃ u v, str = u ++ v ∧
      Between cs (likeRangeLoop w cs.maxSortChar ptr escaped n) (FallsBelow w ptr escaped n str) u v

/-- **A character that is compared.** -/
theorem accepts_anchor {c : UInt8} (ih : Accepts w stackGuard cs ptr false) {escaped : Bool}
    (hc : escaped = false → c ≠ w.wOne ∧ c ≠ w.wMany ∧ ¬(c = w.escape ∧ ptr ≠ [])) :
    Accepts w stackGuard cs (c :: ptr) escaped := by
  intro result level n str hresult hmatch hlen
  match n, str, hlen with
  | 0, [], _ =>
    rw [likeRangeLoop_zero, fallsBelow_zero]
    exact ⟨[], [], rfl, between_nil id⟩
  | n + 1, [], _ => cases escaped <;> simp_all [wildcmpImpl]
  | n + 1, b :: str, hlen =>
    have hstep : wildcmpImpl w stackGuard cs.sortOrder (c :: ptr)
        (if escaped then .escaped else .plain result) level (b :: str) =
          if cs.sortOrder c ≠ cs.sortOrder b then 1
          else wildcmpImpl w stackGuard cs.sortOrder ptr (.plain 1) level str := by
      cases escaped with
      | true => simp [wildcmpImpl]
      | false =>
        obtain ⟨hone, hmany, hescape⟩ := hc rfl
        simp [wildcmpImpl, if_neg hone, if_neg hmany, if_neg hescape]
    have hnext : cs.sortOrder c = cs.sortOrder b ∧
        wildcmpImpl w stackGuard cs.sortOrder ptr (.plain 1) level str = 0 := by
      rw [hstep] at hmatch
      by_cases hcb : cs.sortOrder c = cs.sortOrder b
      · exact ⟨hcb, by simpa [hcb] using hmatch⟩
      · simp [hcb] at hmatch
    have hloop : likeRangeLoop w cs.maxSortChar (c :: ptr) escaped (n + 1) =
        (c :: (likeRangeLoop w cs.maxSortChar ptr false n).1,
          c :: (likeRangeLoop w cs.maxSortChar ptr false n).2.1,
          (likeRangeLoop w cs.maxSortChar ptr false n).2.2) := by
      cases escaped <;> simp_all [likeRangeLoop]
    have hbelow : FallsBelow w (c :: ptr) escaped (n + 1) (b :: str) =
        FallsBelow w ptr false n str := by
      cases escaped <;> simp_all [FallsBelow]
    obtain ⟨hcb, hnext⟩ := hnext
    obtain ⟨u, v, hstr, hbetween⟩ := ih 1 level n str (by simp) hnext (by simpa using hlen)
    refine ⟨b :: u, v, by rw [hstr]; rfl, ?_⟩
    rw [hloop, hbelow]
    refine hbetween.cons (UInt8.le_of_eq hcb) (UInt8.le_of_eq hcb.symm) fun hbin => ?_
    have hbc : b = c := by simpa [cs.sortOrder_of_binsort hbin, eq_comm] using hcb
    simp [hbc]

/-- **A one-wildcard.** -/
theorem accepts_wOne (ih : Accepts w stackGuard cs ptr false) :
    Accepts w stackGuard cs (w.wOne :: ptr) false := by
  intro result level n str hresult hmatch hlen
  have hmany : w.wOne ≠ w.wMany := w.distinct.2.2
  have hescape : w.wOne ≠ w.escape := w.distinct.1.symm
  match n, str, hlen with
  | 0, [], _ =>
    rw [likeRangeLoop_zero, fallsBelow_zero]
    exact ⟨[], [], rfl, between_nil id⟩
  | n + 1, [], _ => simp_all [wildcmpImpl]
  | n + 1, b :: str, hlen =>
    have hnext : wildcmpImpl w stackGuard cs.sortOrder ptr (.plain result) level str = 0 := by
      simpa [wildcmpImpl, hmany] using hmatch
    obtain ⟨u, v, hstr, hbetween⟩ := ih result level n str hresult hnext (by simpa using hlen)
    refine ⟨b :: u, v, by rw [hstr]; rfl, ?_⟩
    simp only [likeRangeLoop, FallsBelow, hescape, false_and, and_false, if_false, if_true,
      and_self]
    exact hbetween.cons (cs.sortOrder_zero_le b) (cs.sortOrder_le_max b) fun _ => by simp

/-- **A many-wildcard**, behind which everything may follow. -/
theorem accepts_wMany (ptr : Bytes) : Accepts w stackGuard cs (w.wMany :: ptr) false := by
  intro result level n str hresult hmatch hlen
  match n, str, hlen with
  | 0, [], _ =>
    rw [likeRangeLoop_zero, fallsBelow_zero]
    exact ⟨[], [], rfl, between_nil id⟩
  | n + 1, str, _ =>
    refine ⟨[], str, rfl, ?_⟩
    simp only [likeRangeLoop, FallsBelow, w.distinct.2.1.symm, w.distinct.2.2.symm, false_and,
      and_false, if_false, if_true, and_self]
    exact ⟨.nil, .nil, by simp, fun _ => by simp [strnncollspPadspace_eq_lt_iff]⟩

/-- **An escape** before another character. -/
theorem accepts_escape (hptr : ptr ≠ []) (ih : Accepts w stackGuard cs ptr true) :
    Accepts w stackGuard cs (w.escape :: ptr) false := by
  intro result level n str hresult hmatch hlen
  match n, str, hlen with
  | 0, [], _ =>
    rw [likeRangeLoop_zero, fallsBelow_zero]
    exact ⟨[], [], rfl, between_nil id⟩
  | n + 1, str, hlen =>
    have hnext : wildcmpImpl w stackGuard cs.sortOrder ptr .escaped level str = 0 := by
      simpa [wildcmpImpl, hptr, w.distinct.1, w.distinct.2.1] using hmatch
    simpa [likeRangeLoop, FallsBelow, hptr] using ih result level (n + 1) str hresult hnext hlen

/-- **What the matcher accepts is between the two strings of the loop.** -/
theorem accepts : ∀ (ptr : Bytes) (escaped : Bool), Accepts w stackGuard cs ptr escaped
  | [], escaped => by
      intro result level n str hresult hmatch hlen
      have hstr : str = [] := by
        cases escaped <;> simpa [wildcmpImpl] using hmatch
      exact ⟨[], [], hstr, between_nil id⟩
  | c :: ptr, true => accepts_anchor (accepts ptr false) (by simp)
  | c :: ptr, false => by
      by_cases hone : c = w.wOne
      · exact hone ▸ accepts_wOne (accepts ptr false)
      by_cases hmany : c = w.wMany
      · exact hmany ▸ accepts_wMany ptr
      by_cases hescape : c = w.escape ∧ ptr ≠ []
      · exact hescape.1 ▸ accepts_escape hescape.2 (accepts ptr true)
      · exact accepts_anchor (accepts ptr false) fun _ => ⟨hone, hmany, hescape⟩

/-! ## What is in the range -/

variable (cs)

/-- Both comparisons go on as long as the weights are equal. -/
theorem strnncollsp_cons (a b : UInt8) (s t : Bytes) : cs.strnncollsp (a :: s) (b :: t) =
    if cs.sortOrder a = cs.sortOrder b then cs.strnncollsp s t
    else compare (cs.sortOrder a) (cs.sortOrder b) := by
  simp only [Collation8bit.strnncollsp]
  split <;> rfl

variable {cs}

theorem compare_ne_gt (h : a ≤ b) : compare a b ≠ .gt := fun hgt =>
  UInt8.not_le.2 (Std.compare_eq_gt.1 hgt) h

theorem compare_ne_lt (h : a ≤ b) : compare b a ≠ .lt := fun hlt =>
  UInt8.not_le.2 (Std.compare_eq_lt.1 hlt) h

theorem strnncollsp_append_ne_gt {p : Bytes} (h : LeWeights cs p u) {s t : Bytes}
    (ht : cs.strnncollsp s t ≠ .gt) : cs.strnncollsp (p ++ s) (u ++ t) ≠ .gt := by
  induction h with
  | nil => exact ht
  | cons hab _ ih =>
    rw [cons_append, cons_append, strnncollsp_cons]
    split
    · exact ih
    · exact compare_ne_gt hab

theorem strnncollsp_append_ne_lt {q : Bytes} (h : LeWeights cs u q) {s t : Bytes}
    (ht : cs.strnncollsp s t ≠ .lt) : cs.strnncollsp (q ++ s) (u ++ t) ≠ .lt := by
  induction h with
  | nil => exact ht
  | cons hab _ ih =>
    rw [cons_append, cons_append, strnncollsp_cons]
    split
    · exact ih
    · exact compare_ne_lt hab

/-- In a binary collation a difference in the first characters decides. -/
theorem strnncollsp_append_of_ne (hbin : cs.binsort) {p : Bytes} (h : LeWeights cs p u)
    (hne : p ≠ u) (s t : Bytes) : cs.strnncollsp (p ++ s) (u ++ t) ≠ .gt := by
  induction h with
  | nil => exact absurd rfl hne
  | @cons a b p u hab _ ih =>
    rw [cons_append, cons_append, strnncollsp_cons]
    split
    · next heq =>
      rw [cs.sortOrder_of_binsort hbin, id, id] at heq
      exact ih fun hpu => hne (by rw [heq, hpu])
    · exact compare_ne_gt hab

theorem strnncollsp_append_self (cs : Collation8bit) (p s t : Bytes) :
    cs.strnncollsp (p ++ s) (p ++ t) = cs.strnncollsp s t := by
  induction p with
  | nil => rfl
  | cons a p ih => rw [cons_append, cons_append, strnncollsp_cons, if_pos rfl, ih]

/-- Nothing before a string: without padding it is smaller, and else spaces are compared. -/
theorem strnncollsp_nil (v : Bytes) : cs.strnncollsp [] v =
    if cs.nopad then compare 0 v.length else (strnncollspPadspace cs.sortOrder v).swap := by
  simp only [Collation8bit.strnncollsp]
  split
  · simp [strnncoll8bit]
  · simp [strnncollsp8bit]

theorem padspace_replicate_zero (cs : Collation8bit) (k : ℕ) :
    strnncollspPadspace cs.sortOrder (replicate k 0) ≠ .gt := by
  induction k with
  | zero => simp [strnncollspPadspace]
  | succ k ih =>
    rw [replicate_succ, strnncollspPadspace]
    split
    · exact ih
    · exact compare_ne_gt (cs.sortOrder_zero_le _)

theorem padspace_replicate_max (cs : Collation8bit) (k : ℕ) :
    strnncollspPadspace cs.sortOrder (replicate k cs.maxSortChar) ≠ .lt := by
  induction k with
  | zero => simp [strnncollspPadspace]
  | succ k ih =>
    rw [replicate_succ, strnncollspPadspace]
    split
    · exact ih
    · exact compare_ne_lt (cs.sortOrder_le_max _)

/-- **Zeros are below every string** that is not longer, if the comparison pads. -/
theorem strnncollsp_replicate_zero (hpad : cs.nopad = false) : ∀ (k : ℕ) (v : Bytes), v.length ≤ k →
    cs.strnncollsp (replicate k 0) v ≠ .gt
  | 0, [], _ => by simp [strnncollsp_nil, hpad, strnncollspPadspace]
  | k + 1, [], _ => by
      have h := padspace_replicate_zero cs (k + 1)
      rw [replicate_succ] at h ⊢
      simpa [Collation8bit.strnncollsp, hpad, strnncollsp8bit] using h
  | k + 1, b :: v, h => by
      rw [replicate_succ, strnncollsp_cons]
      split
      · exact strnncollsp_replicate_zero hpad k v (by simpa using h)
      · exact compare_ne_gt (cs.sortOrder_zero_le b)

/-- **The largest characters are above every string** that is not longer. -/
theorem strnncollsp_replicate_max : ∀ (k : ℕ) (v : Bytes), v.length ≤ k →
    cs.strnncollsp (replicate k cs.maxSortChar) v ≠ .lt
  | 0, [], _ => by
      rw [replicate_zero, strnncollsp_nil]
      split <;> simp [strnncollspPadspace]
  | k + 1, [], _ => by
      have h := padspace_replicate_max cs (k + 1)
      rw [replicate_succ] at h ⊢
      cases hpad : cs.nopad
      · simpa [Collation8bit.strnncollsp, hpad, strnncollsp8bit] using h
      · simp [Collation8bit.strnncollsp, hpad, strnncoll8bit, Nat.compare_eq_lt]
  | k + 1, b :: v, h => by
      rw [replicate_succ, strnncollsp_cons]
      split
      · exact strnncollsp_replicate_max k v (by simpa using h)
      · exact compare_ne_lt (cs.sortOrder_le_max b)

/-- The lower end: below the string, unless a padded binary collation goes on with spaces. -/
theorem min_ne_gt_iff (h : Between cs r below u v) (hlen : (u ++ v).length ≤ resLength) :
    cs.strnncollsp
        (r.1 ++ if r.2.2 = true ∧ cs.binsort = false ∧ cs.nopad = false then
          replicate (resLength - r.1.length) 0 else []) (u ++ v) ≠ .gt ↔
      ¬(cs.binsort = true ∧ cs.nopad = false ∧ below) := by
  have hfirst : r.1.length = u.length := h.min.length_eq
  have hv : v.length ≤ resLength - r.1.length := by
    rw [length_append] at hlen
    omega
  by_cases hpad : cs.nopad = true
  · -- without padding the shorter string is smaller
    simp only [hpad, Bool.true_eq_false, and_false, false_and, if_false, not_false_eq_true,
      iff_true]
    refine strnncollsp_append_ne_gt h.min ?_
    rw [strnncollsp_nil, if_pos hpad]
    simp [Nat.compare_eq_gt]
  rw [Bool.not_eq_true] at hpad
  by_cases hbin : cs.binsort = true
  · simp only [hbin, Bool.true_eq_false, false_and, and_false, if_false, hpad, true_and,
      append_nil, h.below_iff hbin]
    by_cases hu : r.1 = u
    · rw [hu]
      have hself := strnncollsp_append_self cs u [] v
      rw [append_nil] at hself
      rw [hself, strnncollsp_nil, hpad, cs.sortOrder_of_binsort hbin]
      by_cases hmany : r.2.2 = true
      · simp [hmany, Ordering.swap_eq_gt]
      · simp [h.all (by simpa using hmany), strnncollspPadspace, hmany]
    · have hne := strnncollsp_append_of_ne hbin h.min hu [] v
      rw [append_nil] at hne
      simp [hne, hu]
  · rw [Bool.not_eq_true] at hbin
    simp only [hbin, hpad, Bool.false_eq_true, false_and, not_false_eq_true, iff_true, and_true]
    refine strnncollsp_append_ne_gt h.min ?_
    split
    · exact strnncollsp_replicate_zero hpad _ v hv
    · next hmany =>
      rw [h.all (by simpa using hmany), strnncollsp_nil, if_neg (by simp [hpad])]
      simp [strnncollspPadspace]

/-- The upper end is never below the string. -/
theorem max_ne_lt (h : Between cs r below u v) (hlen : (u ++ v).length ≤ resLength) : cs.strnncollsp
        (r.2.1 ++ if r.2.2 = true then replicate (resLength - r.1.length) cs.maxSortChar
          else []) (u ++ v) ≠ .lt := by
  have hfirst : r.1.length = u.length := h.min.length_eq
  refine strnncollsp_append_ne_lt h.max ?_
  split
  · refine strnncollsp_replicate_max _ v ?_
    rw [length_append] at hlen
    omega
  · next hmany =>
    rw [h.all (by simpa using hmany), strnncollsp_nil]
    split <;> simp [strnncollspPadspace]

/-- The two ends of the range, as they are compared. -/
theorem myLikeRangeSimple_take
    (h : Between cs (likeRangeLoop w cs.maxSortChar ptr false resLength) below u v)
    (hlen : (u ++ v).length ≤ resLength) :
    let r := likeRangeLoop w cs.maxSortChar ptr false resLength
    let range := myLikeRangeSimple w cs ptr resLength
    range.minStr.take range.minLength =
        (r.1 ++ if r.2.2 = true ∧ cs.binsort = false ∧ cs.nopad = false then
          replicate (resLength - r.1.length) 0 else []) ∧
      range.maxStr.take range.maxLength =
        (r.2.1 ++ if r.2.2 = true then replicate (resLength - r.1.length) cs.maxSortChar
          else []) := by
  intro r range
  have hmin : r.1.length = u.length := h.min.length_eq
  have hmax : u.length = r.2.1.length := h.max.length_eq
  rw [length_append] at hlen
  have hfull : ∀ (s : Bytes) (b : UInt8), s.length = r.1.length →
      (s ++ replicate (resLength - r.1.length) b).take resLength =
        s ++ replicate (resLength - r.1.length) b := by
    intro s b hs
    refine take_of_length_le ?_
    rw [length_append, length_replicate]
    omega
  have hshort : ∀ (s t : Bytes), s.length = r.1.length → (s ++ t).take r.1.length = s := by
    intro s t hs
    rw [← hs, take_left]
  by_cases hmany : r.2.2 = true
  · have hrange : range = ⟨r.1 ++ replicate (resLength - r.1.length) 0,
        r.2.1 ++ replicate (resLength - r.1.length) cs.maxSortChar,
        if cs.binsort || cs.nopad then r.1.length else resLength, resLength⟩ := by
      simp only [range, myLikeRangeSimple]
      exact if_pos hmany
    rw [hrange]
    refine ⟨?_, by simpa [hmany] using hfull r.2.1 cs.maxSortChar (by omega)⟩
    cases hbin : cs.binsort <;> cases hpad : cs.nopad
    · simpa [hmany] using hfull r.1 0 rfl
    all_goals simp [hmany]
  · have hrange : range = ⟨r.1 ++ replicate (resLength - r.1.length) 0x20,
        r.2.1 ++ replicate (resLength - r.1.length) 0x20, r.1.length, r.1.length⟩ := by
      simp only [range, myLikeRangeSimple]
      exact if_neg hmany
    rw [hrange]
    refine ⟨by simp [hmany], ?_⟩
    simpa [hmany] using hshort r.2.1 (replicate _ 0x20) (by omega)

end

/-- **A string that a `LIKE` accepts is in its range**, except in a padded binary collation if it
falls below the pattern. -/
theorem inRange_iff (w : Wildcards) (stackGuard : ℕ → Bool) (cs : Collation8bit) (ptr : Bytes)
    (resLength : ℕ) (s : Bytes) (hlen : s.length ≤ resLength)
    (hmatch : myWildcmp w stackGuard cs s ptr = 0) :
    InRange w cs ptr resLength s ↔
      ¬(cs.binsort = true ∧ cs.nopad = false ∧ FallsBelow w ptr false resLength s) := by
  have himpl : wildcmpImpl w stackGuard cs.sortOrder ptr (.plain (-1)) 1 s = 0 := by
    rw [myWildcmp] at hmatch
    split at hmatch
    · simp at hmatch
    · exact hmatch
  obtain ⟨u, v, rfl, h⟩ := accepts ptr false (-1) 1 resLength s (by simp) himpl hlen
  obtain ⟨hmin, hmax⟩ := myLikeRangeSimple_take h hlen
  rw [InRange, hmin, hmax, min_ne_gt_iff h hlen, and_iff_left (max_ne_lt h hlen)]

/-! ## A tab behind the prefix of a pattern -/

/-- `\\`, `_` and `%`. -/
def defaultWildcards : Wildcards := ⟨0x5c, 0x5f, 0x25, by decide, by decide⟩

/-- `latin1_bin`. -/
def latin1Bin : Collation8bit where
  binsort := true
  nopad := false
  sortOrder := id
  maxSortChar := 255
  sortOrder_of_binsort _ := rfl
  sortOrder_zero_le _ := UInt8.zero_le
  sortOrder_le_max b := UInt8.le_iff_toNat_le.2 (Nat.le_of_lt_succ b.toNat_lt)

/-- In `latin1_bin` the range of `a_c%` has `abcd`. -/
theorem inRange_latin1Bin :
    InRange defaultWildcards latin1Bin [0x61, 0x5f, 0x63, 0x25] 10 [0x61, 0x62, 0x63, 0x64] :=
  (inRange_iff defaultWildcards (fun _ => false) latin1Bin _ 10 _ (by decide) (by decide)).2
    fun h => by simp [FallsBelow, defaultWildcards] at h

/-- **In `latin1_bin` a tab behind `a` is lost**: `a%` accepts the string, but the lower end of its
range, `a`, is above it. -/
theorem not_inRange_latin1Bin :
    myWildcmp defaultWildcards (fun _ => false) latin1Bin [0x61, 0x09] [0x61, 0x25] = 0 ∧
      ¬InRange defaultWildcards latin1Bin [0x61, 0x25] 10 [0x61, 0x09] := by
  refine ⟨by decide, fun h => h.1 ?_⟩
  decide

end Like

end EloqSql
