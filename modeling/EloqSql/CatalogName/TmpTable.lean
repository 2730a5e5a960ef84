import EloqSql.FileName
import EloqSql.Lib.Pattern

/-!
# CatalogName/TmpTable — whose temporary table a name is

`build_tmptable_filename` prints the node id as the last of four hexadecimal numbers of the name of
a temporary table; `is_tmp_table_of` finds it with a regular expression and reads it with
`strtoul`, in radix ten. The two agree on the one-digit numbers below ten (`strtoul_lt`), so a table
is attributed to its creator exactly then, provided that the path has the shape the expression asks
for (`isTmpTableOf_iff`).
-/

namespace EloqSql

open List

/-! ## Numbers printed and read -/

/-- `ll2str` in radix sixteen, for a number of at most `fuel` digits. -/
def hexString : ℕ → ℕ → Bytes
  | 0, _ => []
  | fuel + 1, n =>
      if n < 16 then [hexDigit n] else hexString fuel (n / 16) ++ [hexDigit (n % 16)]

/-- The value `strtoul` reads in radix ten: it stops at the first byte that is not a digit. -/
def decimalValue : ℕ → Bytes → ℕ
  | acc, [] => acc
  | acc, c :: s =>
      if 0x30 ≤ c ∧ c ≤ 0x39 then decimalValue (10 * acc + (c.toNat - 0x30)) s else acc

/-- `strtoul(s, nullptr, 10)`, which stops at `ULONG_MAX`. -/
def strtoul (s : Bytes) : ℕ := min (decimalValue 0 s) (2 ^ 64 - 1)

/-- `[[:xdigit:]]`. -/
def isXdigit (b : UInt8) : Bool :=
  (0x30 ≤ b && b ≤ 0x39) || (0x41 ≤ b && b ≤ 0x46) || (0x61 ≤ b && b ≤ 0x66)

/-- `[[:print:]]`. -/
def isPrint (b : UInt8) : Bool := 0x20 ≤ b && b ≤ 0x7e

theorem hexString_ne_nil {fuel : ℕ} (n : ℕ) (h : 0 < fuel) : hexString fuel n ≠ [] := by
  obtain ⟨fuel, rfl⟩ := Nat.exists_eq_succ_of_ne_zero (Nat.pos_iff_ne_zero.1 h)
  rw [hexString]
  split_ifs <;> simp

theorem exists_of_mem_hexString : ∀ {fuel n : ℕ} {b : UInt8}, b ∈ hexString fuel n →
    ∃ d < 16, b = hexDigit d
  | 0, _, _, h => by simp [hexString] at h
  | fuel + 1, n, b, h => by
      rw [hexString] at h
      split_ifs at h with hn
      · exact ⟨n, hn, mem_singleton.1 h⟩
      · rw [mem_append, mem_singleton] at h
        rcases h with h | h
        · exact exists_of_mem_hexString h
        · exact ⟨n % 16, by omega, h⟩

/-- The digits are hexadecimal, and in lower case. -/
theorem xdigit_of_mem_hexString {fuel n : ℕ} {b : UInt8} (h : b ∈ hexString fuel n) :
    isXdigit b = true ∧ b ≠ fnLibchar ∧ ¬ (0x41 ≤ b ∧ b ≤ 0x5a) := by
  have hd : ∀ d < 16, isXdigit (hexDigit d) = true ∧ hexDigit d ≠ fnLibchar ∧
      ¬ (0x41 ≤ hexDigit d ∧ hexDigit d ≤ 0x5a) := by decide
  obtain ⟨d, hlt, rfl⟩ := exists_of_mem_hexString h
  exact hd d hlt

/-- One more byte is one more digit, or nothing once the reading has stopped. -/
theorem decimalValue_concat (s : Bytes) (c : UInt8) (acc : ℕ) :
    decimalValue acc (s ++ [c]) = decimalValue acc s ∨
      decimalValue acc (s ++ [c]) = decimalValue (decimalValue acc s) [c] := by
  induction s generalizing acc with
  | nil => exact Or.inr rfl
  | cons b s ih =>
    have hcons : ∀ t, decimalValue acc (b :: t) =
        if 0x30 ≤ b ∧ b ≤ 0x39 then decimalValue (10 * acc + (b.toNat - 0x30)) t else acc :=
      fun _ => rfl
    rw [cons_append, hcons, hcons]
    split_ifs
    · exact ih _
    · exact Or.inl rfl

/-- Reading a hexadecimal digit in radix ten. -/
theorem decimalValue_hexDigit {d : ℕ} (h : d < 16) (acc : ℕ) :
    decimalValue acc [hexDigit d] = if d < 10 then 10 * acc + d else acc := by
  have hd : ∀ d < 16, (0x30 ≤ hexDigit d ∧ hexDigit d ≤ 0x39 ↔ d < 10) ∧
      (d < 10 → (hexDigit d).toNat - 0x30 = d) := by decide
  simp only [decimalValue, (hd d h).1]
  split_ifs with hlt
  · rw [(hd d h).2 hlt]
  · rfl

/-- **A number read in the wrong radix comes out smaller**, whatever is cut off its end, unless it
is below ten. -/
theorem decimalValue_le : ∀ {fuel n : ℕ} {g : Bytes}, g <+: hexString fuel n →
    decimalValue 0 g ≤ n ∧ (10 ≤ n → decimalValue 0 g < n)
  | 0, n, g, h => by
      rw [hexString, prefix_nil] at h
      subst h
      simp only [decimalValue]
      omega
  | fuel + 1, n, g, h => by
      rw [hexString] at h
      split_ifs at h with hn
      · rcases prefix_cons_iff.1 h with rfl | ⟨t, rfl, ht⟩
        · simp only [decimalValue]
          omega
        · rw [prefix_nil.1 ht, decimalValue_hexDigit hn]
          split_ifs <;> omega
      · rcases prefix_concat_iff.1 h with rfl | h
        · have ih := (decimalValue_le (prefix_refl (hexString fuel (n / 16)))).1
          rcases decimalValue_concat (hexString fuel (n / 16)) (hexDigit (n % 16)) 0 with he | he
          · omega
          · rw [he, decimalValue_hexDigit (by omega)]
            split_ifs <;> omega
        · have ih := (decimalValue_le h).1
          omega

/-- Below ten a number is one digit, the same in both radices. -/
theorem hexString_of_lt {fuel n : ℕ} (h : n < 10) : hexString (fuel + 1) n = [hexDigit n] := by
  rw [hexString, if_pos (by omega)]

/-! ## `my_snprintf` -/

/-- **What a format prints**: a byte of its text, or a number. -/
inductive Printed
  | text (c : UInt8)
  | number (digits : Bytes)

/-- `my_snprintf` with `room` bytes before the terminator: it stops at a byte of text that does not
fit, and leaves out a number that does not fit. -/
def snprintf : ℕ → List Printed → Bytes
  | _, [] => []
  | room, .text c :: ps => if room = 0 then [] else c :: snprintf (room - 1) ps
  | room, .number d :: ps =>
      if room < d.length then snprintf room ps else d ++ snprintf (room - d.length) ps

theorem snprintf_texts (s : Bytes) (ps : List Printed) (room : ℕ) (h : s.length ≤ room) :
    snprintf room (s.map .text ++ ps) = s ++ snprintf (room - s.length) ps := by
  induction s generalizing room with
  | nil => rfl
  | cons c s ih =>
    rw [length_cons] at h
    rw [map_cons, cons_append, snprintf, if_neg (by omega), ih _ (by omega),
      cons_append, length_cons, Nat.sub_sub, Nat.add_comm 1]

/-- What was printed comes from the format or from a number. -/
theorem mem_snprintf {b : UInt8} : ∀ {room : ℕ} {ps : List Printed}, b ∈ snprintf room ps →
    .text b ∈ ps ∨ ∃ d, .number d ∈ ps ∧ b ∈ d
  | _, [], h => by simp [snprintf] at h
  | room, .text c :: ps, h => by
      rw [snprintf] at h
      split_ifs at h with h0
      · simp at h
      · rcases mem_cons.1 h with rfl | h
        · exact Or.inl mem_cons_self
        · exact (mem_snprintf h).imp (mem_cons_of_mem _)
            fun ⟨d, hd, hb⟩ => ⟨d, mem_cons_of_mem _ hd, hb⟩
  | room, .number d :: ps, h => by
      have hrest : ∀ {r}, b ∈ snprintf r ps → .text b ∈ .number d :: ps ∨
          ∃ d', .number d' ∈ .number d :: ps ∧ b ∈ d' := fun h =>
        (mem_snprintf h).imp (mem_cons_of_mem _)
          fun ⟨d, hd, hb⟩ => ⟨d, mem_cons_of_mem _ hd, hb⟩
      rw [snprintf] at h
      split_ifs at h
      · exact hrest h
      · rcases mem_append.1 h with h | h
        · exact Or.inr ⟨d, mem_cons_self, h⟩
        · exact hrest h

/-- A text that starts what was printed leaves room for the rest. -/
theorem prefix_snprintf_texts (s t : Bytes) (ps : List Printed) (room : ℕ)
    (h : s ++ t <+: snprintf room (s.map .text ++ ps)) :
    s.length ≤ room ∧ t <+: snprintf (room - s.length) ps := by
  induction s generalizing room with
  | nil => exact ⟨Nat.zero_le _, h⟩
  | cons c s ih =>
    rw [map_cons, cons_append, cons_append, snprintf] at h
    split_ifs at h with h0
    · simp at h
    · obtain ⟨h1, h2⟩ := ih _ (cons_prefix_cons.1 h).2
      rw [length_cons]
      exact ⟨by omega, by rwa [Nat.sub_sub, Nat.add_comm 1] at h2⟩

/-- A number and the separator after it, both printed. -/
theorem prefix_snprintf_number {sep : UInt8} {w t d : Bytes} {ps : List Printed} {room : ℕ}
    (hw : w ≠ []) (hsw : sep ∉ w) (hsd : sep ∉ d)
    (h : w ++ sep :: t <+: snprintf room (.number d :: .text sep :: ps)) :
    d.length + 1 ≤ room ∧ w = d ∧ t <+: snprintf (room - d.length - 1) ps := by
  obtain ⟨r, hr⟩ := h
  rw [append_assoc, cons_append, snprintf, snprintf, snprintf] at hr
  split_ifs at hr with hd h0 h0
  · simp at hr
  · -- the number was left out: what was printed starts with the separator
    obtain ⟨x, w, rfl⟩ := exists_cons_of_ne_nil hw
    rw [cons_append] at hr
    exact absurd ((List.cons.inj hr).1 ▸ mem_cons_self) hsw
  · rw [append_nil] at hr
    exact absurd (hr ▸ mem_append_right _ mem_cons_self) hsd
  · obtain ⟨rfl, h2⟩ := Pattern.split_first hsw hsd hr
    exact ⟨by omega, rfl, ⟨r, h2⟩⟩

/-- The last number. -/
theorem prefix_snprintf_last {w d : Bytes} {room : ℕ} (hw : w ≠ [])
    (h : w <+: snprintf room [.number d]) : d.length ≤ room ∧ w <+: d := by
  rw [snprintf] at h
  split_ifs at h with hd
  · rw [snprintf, prefix_nil] at h
    exact absurd h hw
  · rw [snprintf, append_nil] at h
    exact ⟨by omega, h⟩

/-! ## The name of a temporary table -/

/-- The separator of the numbers. -/
def dash : UInt8 := 0x2d

/-- The text before the numbers. -/
def tmptableText : Bytes := tmpFilePrefix ++ ascii "-temptable-"

/-- The last component of the path of a temporary table. -/
def tmptableTail (g₁ g₂ g₃ g₄ : Bytes) : Bytes :=
  tmptableText ++ (g₁ ++ dash :: (g₂ ++ dash :: (g₃ ++ dash :: g₄)))

/-- **A number of the name**: one or more hexadecimal digits. -/
structure IsNumber (g : Bytes) : Prop where
  ne_nil : g ≠ []
  xdigit : ∀ b ∈ g, isXdigit b = true

theorem IsNumber.dash_notMem {g : Bytes} (h : IsNumber g) : dash ∉ g :=
  fun hm => absurd (h.xdigit _ hm) (by decide)

theorem isNumber_hexString {fuel : ℕ} (h : 0 < fuel) (n : ℕ) : IsNumber (hexString fuel n) :=
  ⟨hexString_ne_nil n h, fun _ hb => (xdigit_of_mem_hexString hb).1⟩

theorem libchar_notMem_tmptableTail {g₁ g₂ g₃ g₄ : Bytes} (h₁ : IsNumber g₁) (h₂ : IsNumber g₂)
    (h₃ : IsNumber g₃) (h₄ : IsNumber g₄) : fnLibchar ∉ tmptableTail g₁ g₂ g₃ g₄ := by
  have hnum : ∀ {g}, IsNumber g → fnLibchar ∉ g :=
    fun h hm => absurd (h.xdigit _ hm) (by decide)
  have htext : fnLibchar ∉ tmptableText := by decide
  have hdash : fnLibchar ≠ dash := by decide
  simp only [tmptableTail, mem_append, mem_cons, not_or]
  exact ⟨htext, hnum h₁, hdash, hnum h₂, hdash, hnum h₃, hdash, hnum h₄⟩

/-- The tail determines its numbers. -/
theorem tmptableTail_inj {g₁ g₂ g₃ g₄ k₁ k₂ k₃ k₄ : Bytes} (h₁ : IsNumber g₁) (h₂ : IsNumber g₂)
    (h₃ : IsNumber g₃) (i₁ : IsNumber k₁) (i₂ : IsNumber k₂) (i₃ : IsNumber k₃)
    (h : tmptableTail g₁ g₂ g₃ g₄ = tmptableTail k₁ k₂ k₃ k₄) : g₄ = k₄ := by
  have h := append_cancel_left h
  have h := (Pattern.split_first h₁.dash_notMem i₁.dash_notMem h).2
  have h := (Pattern.split_first h₂.dash_notMem i₂.dash_notMem h).2
  exact (Pattern.split_first h₃.dash_notMem i₃.dash_notMem h).2

/-- **What identifies a temporary table**: the process, the thread, the thread's table counter and
the node. -/
structure TmptableId where
  pid : UInt64
  threadId : UInt64
  tmpTable : UInt32
  node : UInt32

namespace TmptableId

variable (i : TmptableId)

/-- The last component of the path, when it is printed in full. -/
def tail : Bytes :=
  tmptableTail (hexString 16 i.pid.toNat) (hexString 16 i.threadId.toNat)
    (hexString 8 i.tmpTable.toNat) (hexString 8 i.node.toNat)

/-- What the format `"/%s-temptable-%lx-%llx-%x-%x"` prints after its first byte. -/
def printed : List Printed :=
  tmptableText.map .text ++
    [.number (hexString 16 i.pid.toNat), .text dash, .number (hexString 16 i.threadId.toNat),
      .text dash, .number (hexString 8 i.tmpTable.toNat), .text dash,
      .number (hexString 8 i.node.toNat)]

theorem length_tail : i.tail.length = tmptableText.length + ((hexString 16 i.pid.toNat).length + 1 +
    ((hexString 16 i.threadId.toNat).length + 1 + ((hexString 8 i.tmpTable.toNat).length + 1 +
      (hexString 8 i.node.toNat).length))) := by
  simp only [tail, tmptableTail, length_append, length_cons]
  omega

/-- With enough room the tail is printed in full. -/
theorem snprintf_printed {room : ℕ} (h : i.tail.length ≤ room) :
    snprintf room i.printed = i.tail := by
  rw [length_tail] at h
  rw [printed, snprintf_texts _ _ _ (by omega)]
  simp only [snprintf]
  repeat rw [if_neg (by omega)]
  simp [tail, tmptableTail]

/-- **A name that looks complete was printed in full**, but for digits lost at its end. -/
theorem prefix_printed {room : ℕ} {g₁ g₂ g₃ g₄ : Bytes} (h₁ : IsNumber g₁) (h₂ : IsNumber g₂)
    (h₃ : IsNumber g₃) (h₄ : IsNumber g₄)
    (h : tmptableTail g₁ g₂ g₃ g₄ <+: snprintf room i.printed) :
    i.tail.length ≤ room ∧ g₁ = hexString 16 i.pid.toNat ∧ g₂ = hexString 16 i.threadId.toNat ∧
      g₃ = hexString 8 i.tmpTable.toNat ∧ g₄ <+: hexString 8 i.node.toNat := by
  have hd := fun (f n : ℕ) (hf : 0 < f) => (isNumber_hexString hf n).dash_notMem
  obtain ⟨r0, h⟩ := prefix_snprintf_texts _ _ _ _ h
  obtain ⟨r1, e1, h⟩ :=
    prefix_snprintf_number h₁.ne_nil h₁.dash_notMem (hd 16 _ (by decide)) h
  obtain ⟨r2, e2, h⟩ :=
    prefix_snprintf_number h₂.ne_nil h₂.dash_notMem (hd 16 _ (by decide)) h
  obtain ⟨r3, e3, h⟩ :=
    prefix_snprintf_number h₃.ne_nil h₃.dash_notMem (hd 8 _ (by decide)) h
  obtain ⟨r4, e4⟩ := prefix_snprintf_last h₄.ne_nil h
  refine ⟨?_, e1, e2, e3, e4⟩
  rw [length_tail]
  omega

/-- What is printed is in lower case and holds no directory separator. -/
theorem mem_snprintf_printed {room : ℕ} {b : UInt8} (h : b ∈ snprintf room i.printed) :
    b ≠ fnLibchar ∧ ¬ (0x41 ≤ b ∧ b ≤ 0x5a) := by
  have htext : ∀ b ∈ tmptableText, b ≠ fnLibchar ∧ ¬ (0x41 ≤ b ∧ b ≤ 0x5a) := by
    decide +kernel
  rcases mem_snprintf h with h | ⟨d, h, hb⟩
  · simp only [printed, mem_append, mem_map, Printed.text.injEq, exists_eq_right,
      mem_cons, reduceCtorEq, not_mem_nil, or_false, false_or, or_self] at h
    rcases h with h | rfl
    · exact htext b h
    · decide
  · simp only [printed, mem_append, mem_map, reduceCtorEq, and_false, exists_false,
      mem_cons, Printed.number.injEq, not_mem_nil, or_false, false_or] at h
    rcases h with rfl | rfl | rfl | rfl <;> exact (xdigit_of_mem_hexString hb).2

end TmptableId

/-! ## Paths -/

/-- `dirname_length`: up to the last directory separator. -/
def dirnameLength (name : Bytes) : ℕ :=
  name.length - (name.reverse.takeWhile (· ≠ fnLibchar)).length

/-- `convert_dirname`. -/
def convertDirname (dir : Bytes) : Bytes :=
  let dir := dir.take (fnReflen - 2)
  if dir = [] ∨ dir.getLast? = some fnLibchar then dir else dir ++ [fnLibchar]

/-- **Where the server keeps temporary tables.** -/
structure TmpFiles where
  mysqlTmpdir : Bytes
  /-- A file name fits after the directory. -/
  length_tmpdir : mysqlTmpdir.length < fnReflen - 1
  lowerCaseTableNames : Bool
  /-- `unpack_dirname`, which resolves a directory name: it depends on the home directory, on the
  current directory and on the accounts of the system. -/
  unpackDirname : Bytes → Bytes
  /-- A resolved name that was not cut ends with a separator. -/
  unpackDirname_libchar : ∀ d, (unpackDirname d).length < fnReflen - 1 →
    unpackDirname d = [] ∨ ∃ e, unpackDirname d = e ++ [fnLibchar]

/-- `my_casedn_str`, on the ASCII bytes a format prints. -/
def lowerByte (b : UInt8) : UInt8 := if 0x41 ≤ b ∧ b ≤ 0x5a then b + 0x20 else b

namespace TmpFiles

variable (F : TmpFiles) (i : TmptableId)

/-- `unpack_filename`. -/
def unpackFilename (path : Bytes) : Bytes :=
  let length := dirnameLength path
  let dir := F.unpackDirname (convertDirname (path.take length))
  let base := path.drop length
  (if dir.length + base.length < fnReflen then dir ++ base else path).take (fnReflen - 1)

/-- `build_tmptable_filename`, into a buffer of `FN_REFLEN + 1` bytes. -/
def buildTmptableFilename : Bytes :=
  let p := snprintf (fnReflen - F.mysqlTmpdir.length) (.text fnLibchar :: i.printed)
  let p := if F.lowerCaseTableNames then p.map lowerByte else p
  F.unpackFilename (F.mysqlTmpdir ++ p)

/-- The directory as it is resolved. -/
def resolvedDir : Bytes := F.unpackDirname (convertDirname (F.mysqlTmpdir ++ [fnLibchar]))

/-- The last component as it is printed. -/
def printedTail : Bytes := snprintf (fnReflen - F.mysqlTmpdir.length - 1) i.printed

theorem dirnameLength_append {u v : Bytes} (h : fnLibchar ∉ v) :
    dirnameLength (u ++ fnLibchar :: v) = u.length + 1 := by
  have htake : (v.reverse ++ fnLibchar :: u.reverse).takeWhile (· ≠ fnLibchar) = v.reverse := by
    rw [takeWhile_append_of_pos, takeWhile_cons_of_neg (by simp), append_nil]
    intro b hb
    rw [decide_eq_true_eq]
    rintro rfl
    exact h (mem_reverse.1 hb)
  rw [dirnameLength, reverse_append, reverse_cons, append_assoc,
    singleton_append, htake, length_append, length_cons, length_reverse]
  omega

theorem map_lowerByte {s : Bytes} (h : ∀ b ∈ s, ¬ (0x41 ≤ b ∧ b ≤ 0x5a)) :
    s.map lowerByte = s :=
  (map_congr_left (g := id) fun b hb => if_neg (h b hb)).trans (map_id s)

/-- **The path of a temporary table**: the resolved directory and the last component, or the path as
it was printed where that does not fit. -/
theorem buildTmptableFilename_eq :
    F.buildTmptableFilename i =
      if F.resolvedDir.length + (F.printedTail i).length < fnReflen then
        F.resolvedDir ++ F.printedTail i
      else F.mysqlTmpdir ++ fnLibchar ::
        (F.printedTail i).take (fnReflen - 2 - F.mysqlTmpdir.length) := by
  have hlen := F.length_tmpdir
  simp only [fnReflen] at hlen
  have hp : snprintf (fnReflen - F.mysqlTmpdir.length) (.text fnLibchar :: i.printed) =
      fnLibchar :: F.printedTail i := by
    rw [snprintf, if_neg (by simp only [fnReflen]; omega)]
    rfl
  have hlow : (fnLibchar :: F.printedTail i).map lowerByte = fnLibchar :: F.printedTail i := by
    refine map_lowerByte fun b hb => ?_
    rcases mem_cons.1 hb with rfl | hb
    · decide
    · exact (i.mem_snprintf_printed hb).2
  have hsep : fnLibchar ∉ F.printedTail i := fun hm => (i.mem_snprintf_printed hm).1 rfl
  simp only [buildTmptableFilename, hp, hlow, ite_self, unpackFilename, dirnameLength_append hsep]
  have hdir : (F.mysqlTmpdir ++ fnLibchar :: F.printedTail i).take (F.mysqlTmpdir.length + 1) =
      F.mysqlTmpdir ++ [fnLibchar] := by
    rw [take_append, take_of_length_le (by omega), Nat.add_sub_cancel_left]
    rfl
  have hbase : (F.mysqlTmpdir ++ fnLibchar :: F.printedTail i).drop (F.mysqlTmpdir.length + 1) =
      F.printedTail i := by
    rw [drop_append, drop_of_length_le (by omega), Nat.add_sub_cancel_left]
    rfl
  rw [hdir, hbase]
  change take _ (if F.resolvedDir.length + _ < _ then F.resolvedDir ++ _ else _) = _
  split_ifs with hfit
  · rw [take_of_length_le]
    rw [length_append]
    omega
  · rw [take_append, take_of_length_le (by simp only [fnReflen]; omega)]
    congr 1
    rw [show fnReflen - 1 - F.mysqlTmpdir.length = fnReflen - 2 - F.mysqlTmpdir.length + 1 by
      simp only [fnReflen]; omega, take_succ_cons]

end TmpFiles

/-! ## `is_tmp_table_of` -/

/-- `re_tmp_tablename`. -/
def reTmpTablename : List (Pattern.Piece UInt8) :=
  [.lit (ascii "/"), .many isPrint, .lit (ascii "/#sql-temptable-"), .group isXdigit,
    .lit (ascii "-"), .group isXdigit, .lit (ascii "-"), .group isXdigit, .lit (ascii "-"),
    .group isXdigit]

/-- `is_tmp_table_of`. -/
def isTmpTableOf (tablename : Bytes) (nodeId : UInt32) : Bool :=
  match Pattern.exec reTmpTablename tablename with
  | some m => UInt32.ofNat (strtoul (m.getD 3 [])) == nodeId
  | none => false

/-- **A directory the expression accepts**: absolute, not the root, and printable. -/
def PrintableDir (dir : Bytes) : Prop :=
  ∃ d : Bytes, d ≠ [] ∧ (∀ b ∈ d, isPrint b = true) ∧ dir = fnLibchar :: (d ++ [fnLibchar])

/-- A path splits in one way into a directory and a tail. -/
theorem PrintableDir.tail_unique {dir dir' g₁ g₂ g₃ g₄ k₁ k₂ k₃ k₄ : Bytes} (hd : PrintableDir dir)
    (hd' : PrintableDir dir') (h₁ : IsNumber g₁) (h₂ : IsNumber g₂) (h₃ : IsNumber g₃)
    (h₄ : IsNumber g₄) (i₁ : IsNumber k₁) (i₂ : IsNumber k₂) (i₃ : IsNumber k₃) (i₄ : IsNumber k₄)
    (h : dir ++ tmptableTail g₁ g₂ g₃ g₄ = dir' ++ tmptableTail k₁ k₂ k₃ k₄) : g₄ = k₄ := by
  obtain ⟨d, -, -, rfl⟩ := hd
  obtain ⟨d', -, -, rfl⟩ := hd'
  simp only [cons_append, append_assoc, nil_append, List.cons.injEq, true_and] at h
  exact tmptableTail_inj h₁ h₂ h₃ i₁ i₂ i₃ (Pattern.split_last
    (libchar_notMem_tmptableTail h₁ h₂ h₃ h₄) (libchar_notMem_tmptableTail i₁ i₂ i₃ i₄) h).2

/-- What the expression matches, with the number it finds last. -/
theorem matches_reTmpTablename {s : Bytes} {cs : List Bytes} :
    Pattern.Matches reTmpTablename s cs ↔
      ∃ dir g₁ g₂ g₃ g₄, PrintableDir dir ∧ IsNumber g₁ ∧ IsNumber g₂ ∧ IsNumber g₃ ∧
        IsNumber g₄ ∧ s = dir ++ tmptableTail g₁ g₂ g₃ g₄ ∧ cs = [g₁, g₂, g₃, g₄] := by
  have htext : ascii "/#sql-temptable-" = fnLibchar :: tmptableText := by decide
  have hdash : ascii "-" = [dash] := by decide
  have hsep : ascii "/" = [fnLibchar] := by decide
  rw [reTmpTablename, htext, hdash, hsep]
  constructor
  · intro h
    rcases h with _ | ⟨_, h⟩
    rcases h with _ | _ | ⟨d, hd, hdp, h⟩
    rcases h with _ | ⟨_, h⟩
    rcases h with _ | _ | _ | ⟨g₁, n₁, x₁, h⟩
    rcases h with _ | ⟨_, h⟩
    rcases h with _ | _ | _ | ⟨g₂, n₂, x₂, h⟩
    rcases h with _ | ⟨_, h⟩
    rcases h with _ | _ | _ | ⟨g₃, n₃, x₃, h⟩
    rcases h with _ | ⟨_, h⟩
    rcases h with _ | _ | _ | ⟨g₄, n₄, x₄, h⟩
    cases h
    refine ⟨_, g₁, g₂, g₃, g₄, ⟨d, hd, hdp, rfl⟩, ⟨n₁, x₁⟩, ⟨n₂, x₂⟩, ⟨n₃, x₃⟩, ⟨n₄, x₄⟩, ?_, rfl⟩
    simp [tmptableTail]
  · rintro ⟨_, g₁, g₂, g₃, g₄, ⟨d, hd, hdp, rfl⟩, h₁, h₂, h₃, h₄, rfl, rfl⟩
    have := Pattern.Matches.lit [fnLibchar] <| .many d hd hdp <|
      .lit (fnLibchar :: tmptableText) <| .group g₁ h₁.ne_nil h₁.xdigit <| .lit [dash] <|
      .group g₂ h₂.ne_nil h₂.xdigit <| .lit [dash] <| .group g₃ h₃.ne_nil h₃.xdigit <|
      .lit [dash] <| .group g₄ h₄.ne_nil h₄.xdigit .nil
    simpa [tmptableTail] using this

/-- **A name is attributed by the last number of its tail.** -/
theorem isTmpTableOf_eq_true_iff {s : Bytes} {m : UInt32} :
    isTmpTableOf s m = true ↔
      ∃ dir g₁ g₂ g₃ g₄, PrintableDir dir ∧ IsNumber g₁ ∧ IsNumber g₂ ∧ IsNumber g₃ ∧
        IsNumber g₄ ∧ s = dir ++ tmptableTail g₁ g₂ g₃ g₄ ∧ UInt32.ofNat (strtoul g₄) = m := by
  rw [isTmpTableOf]
  constructor
  · intro h
    cases he : Pattern.exec reTmpTablename s with
    | none => simp [he] at h
    | some cs =>
      obtain ⟨dir, g₁, g₂, g₃, g₄, hd, h₁, h₂, h₃, h₄, hs, rfl⟩ :=
        matches_reTmpTablename.1 (Pattern.matches_of_exec he)
      rw [he] at h
      exact ⟨dir, g₁, g₂, g₃, g₄, hd, h₁, h₂, h₃, h₄, hs, by simpa using h⟩
  · rintro ⟨dir, g₁, g₂, g₃, g₄, hd, h₁, h₂, h₃, h₄, hs, rfl⟩
    obtain ⟨cs, he⟩ := Option.isSome_iff_exists.1 <| Pattern.exec_isSome_of_matches <|
      matches_reTmpTablename.2 ⟨dir, g₁, g₂, g₃, g₄, hd, h₁, h₂, h₃, h₄, hs, rfl⟩
    -- the matcher may find its own match, but the last number is the same
    obtain ⟨dir', k₁, k₂, k₃, k₄, hd', i₁, i₂, i₃, i₄, hs', rfl⟩ :=
      matches_reTmpTablename.1 (Pattern.matches_of_exec he)
    rw [he, hd.tail_unique hd' h₁ h₂ h₃ h₄ i₁ i₂ i₃ i₄ (hs ▸ hs')]
    simp

/-! ## The creator of a temporary table -/

theorem strtoul_of_isPrefixOf {n : UInt32} {g : Bytes} (h : g <+: hexString 8 n.toNat) :
    strtoul g = decimalValue 0 g ∧ strtoul g ≤ n.toNat ∧ (10 ≤ n.toNat → strtoul g < n.toNat) := by
  obtain ⟨h1, h2⟩ := decimalValue_le h
  have hn := n.toNat_lt
  have heq : strtoul g = decimalValue 0 g := Nat.min_eq_left (by omega)
  rw [heq]
  exact ⟨rfl, h1, h2⟩

/-- The number read is the node only if the node is below ten. -/
theorem node_lt_of_strtoul {n : UInt32} {g : Bytes} (h : g <+: hexString 8 n.toNat)
    (he : UInt32.ofNat (strtoul g) = n) : n.toNat < 10 := by
  obtain ⟨-, hle, hlt⟩ := strtoul_of_isPrefixOf h
  have hn := n.toNat_lt
  have := congrArg UInt32.toNat he
  rw [UInt32.toNat_ofNat_of_lt' (Nat.lt_of_le_of_lt hle hn)] at this
  by_contra h10
  have := hlt (by omega)
  omega

namespace TmpFiles

variable (F : TmpFiles) (i : TmptableId)

/-- The directory of the path, for a last component of `length` bytes. -/
def pathDir (length : ℕ) : Bytes :=
  if F.resolvedDir.length + length < fnReflen then F.resolvedDir else F.mysqlTmpdir ++ [fnLibchar]

/-- **The path has the shape the expression asks for**: it is printed in full, and its directory is
absolute, not the root, and printable. -/
structure HoldsName : Prop where
  fits_printed : F.mysqlTmpdir.length + 1 + i.tail.length ≤ fnReflen
  fits_path : (F.pathDir i.tail.length).length + i.tail.length < fnReflen
  printable : PrintableDir (F.pathDir i.tail.length)

theorem printedTail_ne_nil : F.printedTail i ≠ [] := by
  have hlen := F.length_tmpdir
  have htext : tmptableText = 0x23 :: tmptableText.tail := by decide
  simp only [fnReflen] at hlen
  rw [printedTail, TmptableId.printed, htext, map_cons, cons_append, snprintf,
    if_neg (by simp only [fnReflen]; omega)]
  simp

/-- A path of the right shape is the directory and the full tail. -/
theorem buildTmptableFilename_of_holds (h : F.HoldsName i) :
    F.buildTmptableFilename i = F.pathDir i.tail.length ++ i.tail := by
  have hprinted := h.fits_printed
  have hpath := h.fits_path
  have htail : F.printedTail i = i.tail := i.snprintf_printed (by omega)
  rw [buildTmptableFilename_eq, htail]
  unfold pathDir at hpath ⊢
  split_ifs at hpath ⊢ with hfit
  · rfl
  · rw [length_append, length_singleton] at hpath
    rw [take_of_length_le (by omega), append_assoc, singleton_append]

/-- **A path that is attributed at all to its creator has the right shape**, and the creator is
below ten. -/
theorem holds_of_isTmpTableOf (h : isTmpTableOf (F.buildTmptableFilename i) i.node = true) :
    i.node.toNat < 10 ∧ F.HoldsName i := by
  obtain ⟨dir, g₁, g₂, g₃, g₄, hd, h₁, h₂, h₃, h₄, hs, hnode⟩ := isTmpTableOf_eq_true_iff.1 h
  have hlen := F.length_tmpdir
  simp only [fnReflen] at hlen
  have hsep := libchar_notMem_tmptableTail h₁ h₂ h₃ h₄
  have hpsep : fnLibchar ∉ F.printedTail i := fun hm => (i.mem_snprintf_printed hm).1 rfl
  -- the tail that was matched is what was printed, but for bytes lost at the end
  have key : tmptableTail g₁ g₂ g₃ g₄ <+: F.printedTail i → i.node.toNat < 10 ∧
      F.mysqlTmpdir.length + 1 + i.tail.length ≤ fnReflen ∧ F.printedTail i = i.tail ∧
      tmptableTail g₁ g₂ g₃ g₄ = i.tail := by
    intro hpre
    obtain ⟨hroom, e₁, e₂, e₃, e₄⟩ := i.prefix_printed h₁ h₂ h₃ h₄ hpre
    have hlt := node_lt_of_strtoul e₄ hnode
    refine ⟨hlt, by simp only [fnReflen] at hroom ⊢; omega, i.snprintf_printed hroom, ?_⟩
    rw [hexString_of_lt hlt] at e₄
    have e₄' : g₄ = hexString 8 i.node.toNat := by
      rw [hexString_of_lt hlt]
      rcases prefix_cons_iff.1 e₄ with rfl | ⟨t, rfl, ht⟩
      · exact absurd rfl h₄.ne_nil
      · rw [prefix_nil.1 ht]
    rw [TmptableId.tail, ← e₁, ← e₂, ← e₃, ← e₄']
  obtain ⟨d, hdne, hdp, rfl⟩ := hd
  rw [← cons_append, append_assoc, singleton_append,
    F.buildTmptableFilename_eq i] at hs
  split_ifs at hs with hfit
  · have hDlen : F.resolvedDir.length < fnReflen - 1 := by
      have := length_pos_iff.2 (F.printedTail_ne_nil i)
      simp only [fnReflen] at hfit ⊢
      omega
    rcases F.unpackDirname_libchar _ hDlen with hD | ⟨e, hD⟩
    · -- a bare file name has no directory
      change F.resolvedDir = [] at hD
      rw [hD, nil_append] at hs
      exact absurd (hs ▸ mem_append_left _ mem_cons_self) hpsep
    · change F.resolvedDir = e ++ [fnLibchar] at hD
      rw [hD, append_assoc, singleton_append] at hs
      obtain ⟨rfl, htl⟩ := Pattern.split_last hpsep hsep hs
      obtain ⟨hlt, hroom, hprinted, -⟩ := key (htl ▸ prefix_refl _)
      rw [hprinted] at hfit
      refine ⟨hlt, hroom, ?_, ?_⟩ <;> rw [pathDir, if_pos hfit]
      · exact hfit
      · exact ⟨d, hdne, hdp, by rw [hD]; rfl⟩
  · have htsep : fnLibchar ∉ (F.printedTail i).take (fnReflen - 2 - F.mysqlTmpdir.length) :=
      fun hm => hpsep (mem_of_mem_take hm)
    obtain ⟨hdir, htl⟩ := Pattern.split_last htsep hsep hs
    obtain ⟨hlt, hroom, hprinted, htail⟩ := key (htl ▸ take_prefix _ _)
    rw [hprinted, htail] at htl
    rw [hprinted] at hfit
    have hle := congrArg length htl
    rw [length_take] at hle
    refine ⟨hlt, hroom, ?_, ?_⟩ <;> rw [pathDir, if_neg hfit]
    · rw [length_append, length_singleton]
      simp only [fnReflen] at hle ⊢
      omega
    · exact ⟨d, hdne, hdp, by rw [hdir]; rfl⟩

/-- **A temporary table is attributed to its creator, and to no other node, exactly when** the node
id is below ten and the path has the shape the expression asks for. -/
theorem isTmpTableOf_iff :
    (∀ m : UInt32, isTmpTableOf (F.buildTmptableFilename i) m = true ↔ i.node = m) ↔
      i.node < 10 ∧ F.HoldsName i := by
  rw [UInt32.lt_iff_toNat_lt, show UInt32.toNat 10 = 10 from rfl]
  constructor
  · intro h
    exact F.holds_of_isTmpTableOf i ((h i.node).2 rfl)
  · rintro ⟨hlt, hholds⟩ m
    have hread : UInt32.ofNat (strtoul (hexString 8 i.node.toNat)) = i.node := by
      have hdig : strtoul (hexString 8 i.node.toNat) = i.node.toNat := by
        rw [(strtoul_of_isPrefixOf (prefix_refl _)).1, hexString_of_lt hlt,
          decimalValue_hexDigit (Nat.lt_trans hlt (by decide)), if_pos hlt, Nat.mul_zero,
          Nat.zero_add]
      rw [hdig, UInt32.ofNat_toNat]
    have hnum := fun (f n : ℕ) (hf : 0 < f) => isNumber_hexString hf n
    rw [F.buildTmptableFilename_of_holds i hholds]
    constructor
    · intro h
      obtain ⟨dir, g₁, g₂, g₃, g₄, hd, h₁, h₂, h₃, h₄, hs, rfl⟩ := isTmpTableOf_eq_true_iff.1 h
      rw [← hread, hholds.printable.tail_unique hd (hnum 16 _ (by decide)) (hnum 16 _ (by decide))
        (hnum 8 _ (by decide)) (hnum 8 _ (by decide)) h₁ h₂ h₃ h₄ hs]
    · rintro rfl
      exact isTmpTableOf_eq_true_iff.2 ⟨_, _, _, _, _, hholds.printable, hnum 16 _ (by decide),
        hnum 16 _ (by decide), hnum 8 _ (by decide), hnum 8 _ (by decide), rfl, hread⟩

/-- A server whose temporary directory is `/tmp`. -/
def sampleTmpFiles : TmpFiles where
  mysqlTmpdir := ascii "/tmp"
  length_tmpdir := by decide
  lowerCaseTableNames := false
  unpackDirname _ := ascii "/tmp/"
  unpackDirname_libchar _ _ := Or.inr ⟨ascii "/tmp", by decide⟩

/-- **Node sixteen's table belongs to node ten**: it is printed as `10`, and read as ten. -/
theorem isTmpTableOf_node_sixteen :
    let name := sampleTmpFiles.buildTmptableFilename ⟨0xdc88, 3, 3, 16⟩
    name = ascii "/tmp/#sql-temptable-dc88-3-3-10" ∧
      isTmpTableOf name 16 = false ∧ isTmpTableOf name 10 = true := by
  decide +kernel

end TmpFiles

end EloqSql
