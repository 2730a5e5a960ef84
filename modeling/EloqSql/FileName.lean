import EloqSql.Utf8

/-!
# FileName — table names as file names, and back to bytes

`tablename_to_filename` and `build_table_filename` of `sql_table.cc`. A name is a string of the
system character set; its file name is the string converted to `my_charset_filename`, in which a
character that is not a letter, a digit or an underscore is escaped after an `@`. An escaped name is
never the name itself: `tablenameToFilename_eq_self_iff` says which names are left as they are.
-/

namespace EloqSql

open List

/-- The bytes of an ASCII text. -/
def ascii (s : String) : Bytes := s.toList.map fun c => UInt8.ofNat c.toNat

/-- `FN_REFLEN`. -/
def fnReflen : ℕ := 512

/-- `FN_LIBCHAR`. -/
def fnLibchar : UInt8 := 0x2f

/-- `NAME_CHAR_LEN`. -/
def nameCharLen : ℕ := 64

/-- `NAME_LEN`. -/
def nameLen : ℕ := 192

/-- `reg_ext`. -/
def regExt : Bytes := ascii ".frm"

/-- `tmp_file_prefix`. -/
def tmpFilePrefix : Bytes := ascii "#sql"

/-- `MYSQL50_TABLE_NAME_PREFIX`. -/
def mysql50TableNamePrefix : Bytes := ascii "#mysql50#"

/-! ## `my_charset_filename` -/

/-- **The letter codes of `my_charset_filename`**, as the tables `uni_0C00_05FF`, `uni_1E00_1FFF`,
`uni_2160_217F`, `uni_24B0_24EF` and `uni_FF20_FF5F` give them; zero where there is none. -/
structure LetterCodes where
  code : ℕ → ℕ
  /-- A code is an index into `touni`. -/
  code_lt : ∀ wc, code wc < 5994

/-- `filename_safe_char`. -/
def filenameSafeChar (wc : ℕ) : Bool :=
  wc == 0 || (0x30 ≤ wc && wc ≤ 0x39) || (0x41 ≤ wc && wc ≤ 0x5a) || wc == 0x5f ||
    (0x61 ≤ wc && wc ≤ 0x7a)

/-- `hex[d]`, the digits of the escapes and of `ll2str`. -/
def hexDigit (d : ℕ) : UInt8 := UInt8.ofNat (if d < 10 then 0x30 + d else 0x57 + d)

/-- `my_wc_mb_filename`: the bytes of one character, or none if they do not fit. -/
def wcMbFilename (L : LetterCodes) (wc room : ℕ) : Option Bytes :=
  if room < 1 then none
  else if filenameSafeChar wc then some [UInt8.ofNat wc]
  else if room < 3 then none
  else if L.code wc ≠ 0 then
    some [0x40, UInt8.ofNat (L.code wc / 80 + 0x30), UInt8.ofNat (L.code wc % 80 + 0x30)]
  else if room < 5 then none
  else some [0x40, hexDigit ((wc >>> 12) % 16), hexDigit ((wc >>> 8) % 16),
    hexDigit ((wc >>> 4) % 16), hexDigit (wc % 16)]

/-- The characters of a string with their code points, as the loops over a name read them; a byte
that starts no character stands alone and is converted as a question mark. -/
def mbChars : ℕ → Bytes → List (Bytes × ℕ)
  | fuel + 1, b :: s =>
      let (wc, n) := (mbWcUtf8mb3 (b :: s)).getD (0x3f, 1)
      ((b :: s).take n, wc) :: mbChars fuel ((b :: s).drop n)
  | _, _ => []

/-- The loop of `strconvert`, from the system character set to `my_charset_filename`. -/
def strconvertLoop (L : LetterCodes) : List (Bytes × ℕ) → ℕ → Bytes
  | [], _ => []
  | (_, wc) :: cs, room =>
      match wcMbFilename L wc room with
      | some out => out ++ strconvertLoop L cs (room - out.length)
      | none => []

/-- `strconvert` into a buffer of `toLength` bytes. -/
def strconvert (L : LetterCodes) (s : Bytes) (toLength : ℕ) : Bytes :=
  strconvertLoop L (mbChars s.length s) (toLength - 1)

/-! ## Names -/

/-- `check_mysql50_prefix`. -/
def checkMysql50Prefix (name : Bytes) : Bool := mysql50TableNamePrefix.isPrefixOf name

/-- `my_isspace` of the system character set. -/
def isSpaceByte (b : UInt8) : Bool := (0x09 ≤ b && b ≤ 0x0d) || b == 0x20

/-- The loop of `check_table_name` over the characters, with the number of characters seen. -/
def checkTableNameLoop (checkForPathChars : Bool) :
    List (Bytes × ℕ) → ℕ → (lastCharIsSpace : Bool) → Bool
  | [], nameLength, lastCharIsSpace => lastCharIsSpace || nameCharLen < nameLength
  | (c, _) :: cs, nameLength, _ =>
      let b := c.headD 0
      if 1 < c.length then checkTableNameLoop checkForPathChars cs (nameLength + 1) (isSpaceByte b)
      else if checkForPathChars && (b == 0x2f || b == 0x5c || b == 0x7e || b == 0x2e) then true
      else if b == 0 then true
      else checkTableNameLoop checkForPathChars cs (nameLength + 1) (isSpaceByte b)

/-- `check_table_name`: the name is wrong. -/
def checkTableName (name : Bytes) (checkForPathChars : Bool) : Bool :=
  let mysql50 := !checkForPathChars && checkMysql50Prefix name
  let rest := if mysql50 then name.drop mysql50TableNamePrefix.length else name
  if rest.length = 0 || nameLen < rest.length then true
  else checkTableNameLoop (checkForPathChars || mysql50) (mbChars rest.length rest) 0 false

/-- `my_toupper` on the letters of the reserved names. -/
def upperByte (b : UInt8) : UInt8 := if 0x61 ≤ b && b ≤ 0x7a then b - 0x20 else b

/-- `reserved_names`, from the second on. -/
def reservedNames : List Bytes :=
  ["CON", "PRN", "AUX", "NUL", "COM1", "COM2", "COM3", "COM4", "COM5", "COM6", "COM7", "COM8",
    "COM9", "LPT1", "LPT2", "LPT3", "LPT4", "LPT5", "LPT6", "LPT7", "LPT8", "LPT9"].map ascii

/-- `reserved_map`: 1, 2 and 4 if the letter can be the first, the second or the third of a
reserved name. -/
def reservedMap (b : UInt8) : ℕ :=
  match (upperByte b).toNat with
  | 0x41 | 0x43 => 1
  | 0x4c => 7
  | 0x4d | 0x54 | 0x58 => 4
  | 0x4e => 5
  | 0x4f | 0x52 | 0x55 => 2
  | 0x50 => 3
  | _ => 0

/-- `check_if_legal_tablename`: the file name is reserved. -/
def checkIfLegalTablename (name : Bytes) : Bool :=
  (reservedMap (name.getD 0 0)).testBit 0 && (reservedMap (name.getD 1 0)).testBit 1 &&
    (reservedMap (name.getD 2 0)).testBit 2 && reservedNames.contains (name.map upperByte)

/-- `tablename_to_filename`. -/
def tablenameToFilename (L : LetterCodes) (name : Bytes) (toLength : ℕ) : Bytes :=
  let cut := (name.drop mysql50TableNamePrefix.length).take (toLength - 1)
  if checkMysql50Prefix name && cut.length ≠ 0 then
    if checkTableName cut true then [] else cut
  else
    let file := strconvert L name toLength
    if checkIfLegalTablename file && file.length + 4 < toLength then file ++ ascii "@@@" else file

/-! ## Paths -/

/-- **What a path is built from** besides the names. -/
structure NameEnv where
  letters : LetterCodes
  /-- `check_if_frm_exists`, of the database directory and the table name. -/
  frmExists : Bytes → Bytes → Bool

/-- `mysql_data_home`. -/
def mysqlDataHome : Bytes := ascii "."

/-- The table keeps its name: it is named as a temporary file and has a definition file. -/
def NameEnv.keepsTmpName (E : NameEnv) (dbbuff table : Bytes) : Bool :=
  tmpFilePrefix.isPrefixOf table && decide (table.length < nameCharLen) &&
    E.frmExists dbbuff table

/-- `build_table_filename`, with `flags` zero. -/
def NameEnv.buildTableFilename (E : NameEnv) (bufflen : ℕ) (db table ext : Bytes) : Bytes :=
  let dbbuff := tablenameToFilename E.letters db fnReflen
  let tbbuff := if E.keepsTmpName dbbuff table then table.take (fnReflen - 1)
    else tablenameToFilename E.letters table fnReflen
  let home := mysqlDataHome.take (bufflen - 3)
  let home := if home.getLast? = some fnLibchar then home else home ++ [fnLibchar]
  let dir := home ++ dbbuff.take (bufflen - 2 - home.length) ++ [fnLibchar]
  dir ++ (tbbuff ++ ext).take (bufflen - dir.length)

/-! ## The characters of a name -/

/-- **What the loops over a name read as one character**: an ASCII byte, or bytes beyond ASCII that
the file name has to escape. -/
def IsNameChar (c : Bytes) (wc : ℕ) : Prop :=
  (∃ b : UInt8, c = [b] ∧ b.toNat < 0x80 ∧ wc = b.toNat) ∨
    (c ≠ [] ∧ c.length ≤ 3 ∧ (∀ b ∈ c, 0x80 ≤ b.toNat) ∧ filenameSafeChar wc = false)

theorem filenameSafeChar_eq_false_of_le {wc : ℕ} (h : 0x80 ≤ wc) : filenameSafeChar wc = false := by
  simp only [filenameSafeChar, Bool.or_eq_false_iff, beq_eq_false_iff_ne, Bool.and_eq_false_iff,
    decide_eq_false_iff_not]
  omega

theorem isNameChar_of_le {c : Bytes} {wc : ℕ} (hne : c ≠ []) (hlen : c.length ≤ 3)
    (hc : ∀ b ∈ c, 0x80 ≤ b.toNat) (hwc : 0x80 ≤ wc) : IsNameChar c wc :=
  Or.inr ⟨hne, hlen, hc, filenameSafeChar_eq_false_of_le hwc⟩

/-- The first character of a string: the rest is what follows it. -/
theorem isNameChar_mbWc (b : UInt8) (s : Bytes) :
    let r := (mbWcUtf8mb3 (b :: s)).getD (0x3f, 1)
    0 < r.2 ∧ IsNameChar ((b :: s).take r.2) r.1 := by
  cases h : mbWcUtf8mb3 (b :: s) with
  | none =>
    refine ⟨Nat.one_pos, Or.inr ⟨by simp, by simp, ?_, by decide⟩⟩
    -- a byte below 0x80 is always a character
    have hb : ¬ b < 0x80 := fun hlt => by simp [mbWcUtf8mb3, hlt] at h
    simpa [UInt8.lt_iff_toNat_lt] using hb
  | some r =>
    obtain ⟨wc, n⟩ := r
    have hcont := fun c => (isContinuationByte_iff c).1
    rcases mbWcUtf8mb3_cases h with ⟨c, r, hs, hc, rfl, rfl⟩ |
      ⟨c, c1, r, hs, hc, hc', h1, rfl, rfl⟩ | ⟨c, c1, c2, r, hs, hc, hc', h1, h2, ho, rfl, rfl⟩
    · exact ⟨Nat.one_pos, Or.inl ⟨c, by rw [hs]; rfl, hc, rfl⟩⟩
    · have hb1 := hcont c1 h1
      rw [hs]
      refine ⟨Nat.two_pos, isNameChar_of_le (c := [c, c1]) (by simp) (by simp) (by simp; omega) ?_⟩
      rw [Option.getD_some, utf8mb2Code_eq h1]
      omega
    · have hb1 := hcont c1 h1
      have hb2 := hcont c2 h2
      rw [hs]
      refine ⟨Nat.succ_pos 2,
        isNameChar_of_le (c := [c, c1, c2]) (by simp) (by simp) (by simp; omega) ?_⟩
      rw [Option.getD_some, utf8mb3Code_eq h1 h2]
      omega

/-- **A string is its characters in order.** -/
theorem flatMap_mbChars : ∀ {fuel : ℕ} {s : Bytes}, s.length ≤ fuel →
    (mbChars fuel s).flatMap Prod.fst = s
  | 0, [], _ => rfl
  | 0, b :: s, h => by simp at h
  | fuel + 1, [], _ => rfl
  | fuel + 1, b :: s, h => by
      have hn := (isNameChar_mbWc b s).1
      rw [mbChars, flatMap_cons, flatMap_mbChars, take_append_drop]
      simp only [length_drop, length_cons] at h ⊢
      omega

theorem isNameChar_of_mem_mbChars :
    ∀ {fuel : ℕ} {s : Bytes}, ∀ p ∈ mbChars fuel s, IsNameChar p.1 p.2
  | 0, _, p, h => by simp [mbChars] at h
  | fuel + 1, [], p, h => by simp [mbChars] at h
  | fuel + 1, b :: s, p, h => by
      rw [mbChars, mem_cons] at h
      rcases h with rfl | h
      · exact (isNameChar_mbWc b s).2
      · exact isNameChar_of_mem_mbChars p h

/-! ## A converted name -/

/-- A byte of a name that the file name keeps. -/
def SafeByte (b : UInt8) : Prop := filenameSafeChar b.toNat = true

theorem fnLibchar_not_safe : filenameSafeChar fnLibchar.toNat = false := by decide

theorem hexDigit_ne_libchar {d : ℕ} (h : d < 16) : hexDigit d ≠ fnLibchar := by
  revert d
  decide

/-- **One character of a file name**: the byte itself, or an escape that is at least as long as
the character. An escape starts with an at sign, and the at sign itself gets longer. -/
theorem wcMbFilename_spec (L : LetterCodes) {c : Bytes} {wc room : ℕ} (hc : IsNameChar c wc)
    (hroom : 5 ≤ room) :
    ∃ out, wcMbFilename L wc room = some out ∧ out.length ≤ 5 ∧ fnLibchar ∉ out ∧
      (out = c ∧ (∀ b ∈ c, SafeByte b) ∨
        (∃ t, out = 0x40 :: t) ∧ c.length ≤ out.length ∧
          (∀ t, c = 0x40 :: t → c.length < out.length) ∧ ¬ ∀ b ∈ c, SafeByte b) := by
  have hne : c ≠ [] := by
    rcases hc with ⟨b, rfl, -⟩ | ⟨hne, -⟩
    · simp
    · exact hne
  unfold wcMbFilename
  rw [if_neg (by omega)]
  by_cases hsafe : filenameSafeChar wc
  · rw [if_pos hsafe]
    rcases hc with ⟨b, rfl, hb, rfl⟩ | ⟨-, -, -, hns⟩
    · refine ⟨_, rfl, by simp, ?_, Or.inl ⟨by rw [UInt8.ofNat_toNat], by simpa [SafeByte]⟩⟩
      rw [UInt8.ofNat_toNat, mem_singleton]
      rintro rfl
      rw [fnLibchar_not_safe] at hsafe
      simp at hsafe
    · rw [hns] at hsafe
      simp at hsafe
  · rw [if_neg hsafe, if_neg (by omega)]
    -- what is escaped has a byte that is not safe
    have hbad : ¬ ∀ b ∈ c, SafeByte b := by
      rcases hc with ⟨b, rfl, hb, rfl⟩ | ⟨hne, -, hhigh, -⟩
      · simpa [SafeByte] using hsafe
      · intro hall
        obtain ⟨b, t, rfl⟩ := exists_cons_of_ne_nil hne
        have h1 := hall b mem_cons_self
        rw [SafeByte, filenameSafeChar_eq_false_of_le (hhigh b mem_cons_self)] at h1
        simp at h1
    have hlen : c.length ≤ 3 := by
      rcases hc with ⟨b, rfl, -⟩ | ⟨-, hl, -⟩
      · simp
      · exact hl
    by_cases hcode : L.code wc ≠ 0
    · rw [if_pos hcode]
      have hlt := L.code_lt wc
      refine ⟨_, rfl, by simp, ?_, Or.inr ⟨⟨_, rfl⟩, hlen, ?_, hbad⟩⟩
      · have hbyte : ∀ n < 80, UInt8.ofNat (n + 0x30) ≠ fnLibchar := by decide
        simp only [mem_cons, not_mem_nil, or_false, not_or]
        exact ⟨by decide, (hbyte _ (by omega)).symm, (hbyte _ (by omega)).symm⟩
      · rintro t rfl
        rcases hc with ⟨b, hb, -⟩ | ⟨-, -, hhigh, -⟩
        · rw [hb]
          simp
        · exact absurd (hhigh 0x40 mem_cons_self) (by decide)
    · rw [if_neg hcode, if_neg (by omega)]
      refine ⟨_, rfl, by simp, ?_, Or.inr ⟨⟨_, rfl⟩, ?_, ?_, hbad⟩⟩
      · simp only [mem_cons, not_mem_nil, or_false, not_or]
        exact ⟨by decide, (hexDigit_ne_libchar (by omega)).symm,
          (hexDigit_ne_libchar (by omega)).symm, (hexDigit_ne_libchar (by omega)).symm,
          (hexDigit_ne_libchar (by omega)).symm⟩
      · simp only [length_cons, length_nil]
        omega
      · intro t ht
        simp only [length_cons, length_nil]
        omega

/-- **A converted string** holds no directory separator, is at least as long as the string, and is
the string itself only if every byte is safe. -/
theorem strconvertLoop_spec (L : LetterCodes) : ∀ {cs : List (Bytes × ℕ)} {room : ℕ},
    (∀ p ∈ cs, IsNameChar p.1 p.2) → 5 * cs.length ≤ room →
    let out := strconvertLoop L cs room
    fnLibchar ∉ out ∧ (cs.flatMap Prod.fst).length ≤ out.length ∧ out.length ≤ 5 * cs.length ∧
      (out = cs.flatMap Prod.fst ↔ ∀ b ∈ cs.flatMap Prod.fst, SafeByte b)
  | [], room, _, _ => by simp [strconvertLoop]
  | (c, wc) :: cs, room, hcs, hroom => by
      rw [length_cons] at hroom
      obtain ⟨o, ho, hol, hsep, hcase⟩ :=
        wcMbFilename_spec L (hcs _ mem_cons_self) (show 5 ≤ room by omega)
      obtain ⟨ih1, ih2, ih3, ih4⟩ := strconvertLoop_spec L
        (fun p hp => hcs p (mem_cons_of_mem _ hp))
        (show 5 * cs.length ≤ room - o.length by omega)
      rw [strconvertLoop, ho]
      simp only [flatMap_cons, mem_append, length_append, length_cons,
        or_imp, forall_and, not_or]
      have hle : c.length ≤ o.length := by
        rcases hcase with ⟨rfl, -⟩ | ⟨-, hl, -⟩
        · exact Nat.le_refl _
        · exact hl
      refine ⟨⟨hsep, ih1⟩, by omega, by omega, ?_⟩
      rcases hcase with ⟨rfl, hsafe⟩ | ⟨⟨t, rfl⟩, -, hat, hbad⟩
      · rw [append_cancel_left_eq, ih4]
        exact ⟨fun h => ⟨hsafe, h⟩, And.right⟩
      · -- an escape starts with an at sign; a string that agrees so far is shorter
        refine ⟨fun h => ?_, fun h => absurd h.1 hbad⟩
        have hlen := congrArg length h
        simp only [length_append] at hlen
        rcases c with _ | ⟨b, c⟩
        · exact absurd (by simp) hbad
        · obtain ⟨rfl, -⟩ := List.cons.inj h
          have : (0x40 :: c).length < _ := hat c rfl
          omega

/-! ## Names the server accepts -/

/-- A loop that accepts has seen at most `NAME_CHAR_LEN` characters. -/
theorem length_le_of_checkTableNameLoop {path : Bool} :
    ∀ {cs : List (Bytes × ℕ)} {n : ℕ} {space : Bool},
      checkTableNameLoop path cs n space = false → n + cs.length ≤ nameCharLen
  | [], n, space, h => by
      simp only [checkTableNameLoop, Bool.or_eq_false_iff, decide_eq_false_iff_not] at h
      rw [length_nil]
      omega
  | (c, wc) :: cs, n, space, h => by
      rw [checkTableNameLoop] at h
      rw [length_cons]
      split_ifs at h <;> exact (by have := length_le_of_checkTableNameLoop h; omega)

/-- A loop that looks for path characters and accepts has met no directory separator. -/
theorem libchar_notMem_of_checkTableNameLoop :
    ∀ {cs : List (Bytes × ℕ)} {n : ℕ} {space : Bool}, (∀ p ∈ cs, IsNameChar p.1 p.2) →
      checkTableNameLoop true cs n space = false → fnLibchar ∉ cs.flatMap Prod.fst
  | [], _, _, _, _ => by simp
  | (c, wc) :: cs, n, space, hcs, h => by
      have hrest := fun p hp => hcs p (mem_cons_of_mem (c, wc) hp)
      have hc : fnLibchar ∉ c := by
        rcases hcs _ mem_cons_self with ⟨b, rfl, -⟩ | ⟨-, -, hhigh, -⟩
        · rw [checkTableNameLoop] at h
          rintro hmem
          rw [mem_singleton] at hmem
          subst hmem
          simp [fnLibchar] at h
        · exact fun hmem => absurd (hhigh _ hmem) (by decide)
      rw [checkTableNameLoop] at h
      rw [flatMap_cons, mem_append, not_or]
      refine ⟨hc, ?_⟩
      split_ifs at h <;> exact libchar_notMem_of_checkTableNameLoop hrest h

/-- **A table or database name**: one that `check_table_name` accepts. -/
structure Identifier where
  name : Bytes
  legal : checkTableName name false = false

/-- **A name the file name keeps**: letters, digits and underscores, and not a reserved file name.
-/
def PlainName (name : Bytes) : Prop :=
  (∀ b ∈ name, SafeByte b) ∧ checkIfLegalTablename name = false

instance (b : UInt8) : Decidable (SafeByte b) := inferInstanceAs (Decidable (_ = true))

instance (name : Bytes) : Decidable (PlainName name) := inferInstanceAs (Decidable (_ ∧ _))

namespace Identifier

variable (I : Identifier) (L : LetterCodes)

theorem mysql50_eq (h : checkMysql50Prefix I.name = true) :
    I.name = mysql50TableNamePrefix ++ I.name.drop mysql50TableNamePrefix.length := by
  obtain ⟨t, ht⟩ := isPrefixOf_iff_prefix.1 h
  rw [← ht, drop_left]

/-- A name with the old prefix: what follows the prefix is not empty, holds no path character and
fits the buffer. -/
theorem legal_mysql50 (h : checkMysql50Prefix I.name = true) :
    let cut := I.name.drop mysql50TableNamePrefix.length
    cut ≠ [] ∧ cut.length ≤ nameLen ∧ fnLibchar ∉ cut := by
  have hl := I.legal
  simp only [checkTableName, h, Bool.not_false, Bool.and_self, if_true] at hl
  split_ifs at hl with h0
  simp only [Bool.or_eq_true, decide_eq_true_eq, not_or, Nat.not_lt] at h0
  refine ⟨fun he => h0.1 (by rw [he]; rfl), h0.2, ?_⟩
  have := libchar_notMem_of_checkTableNameLoop isNameChar_of_mem_mbChars hl
  rwa [flatMap_mbChars (Nat.le_refl _)] at this

/-- A name without the old prefix has at most `NAME_CHAR_LEN` characters. -/
theorem legal_chars (h : checkMysql50Prefix I.name = false) :
    (mbChars I.name.length I.name).length ≤ nameCharLen := by
  have hl := I.legal
  simp only [checkTableName, h, Bool.and_false, Bool.false_eq_true, if_false, Bool.or_false] at hl
  split_ifs at hl
  have := length_le_of_checkTableNameLoop hl
  omega

/-- **The converted name**, when there is no old prefix. -/
theorem strconvert_spec (h : checkMysql50Prefix I.name = false) :
    let out := strconvert L I.name fnReflen
    fnLibchar ∉ out ∧ I.name.length ≤ out.length ∧ out.length ≤ 320 ∧
      (out = I.name ↔ ∀ b ∈ I.name, SafeByte b) := by
  have hchars := I.legal_chars h
  simp only [nameCharLen] at hchars
  have hroom : 5 * (mbChars I.name.length I.name).length ≤ fnReflen - 1 := by
    simp only [fnReflen]
    omega
  obtain ⟨h1, h2, h3, h4⟩ := strconvertLoop_spec L isNameChar_of_mem_mbChars hroom
  rw [flatMap_mbChars (Nat.le_refl _)] at h2 h4
  exact ⟨h1, h2, Nat.le_trans h3 (by omega), h4⟩

/-- The file name of a name with the old prefix. -/
theorem tablenameToFilename_mysql50 (h : checkMysql50Prefix I.name = true) :
    let cut := I.name.drop mysql50TableNamePrefix.length
    tablenameToFilename L I.name fnReflen = if checkTableName cut true then [] else cut := by
  obtain ⟨hne, hlen, -⟩ := I.legal_mysql50 h
  simp only [nameLen] at hlen
  have hcut : (I.name.drop mysql50TableNamePrefix.length).take (fnReflen - 1) =
      I.name.drop mysql50TableNamePrefix.length :=
    take_of_length_le (by simp only [fnReflen]; omega)
  simp only [tablenameToFilename, hcut, h, Bool.true_and, decide_eq_true_eq]
  exact if_pos fun h0 => hne (eq_nil_of_length_eq_zero h0)

/-- **The file name of a name** holds no directory separator and fits half a path. -/
theorem tablenameToFilename_spec :
    let out := tablenameToFilename L I.name fnReflen
    fnLibchar ∉ out ∧ out.length ≤ 323 := by
  cases h : checkMysql50Prefix I.name with
  | true =>
    obtain ⟨-, hlen, hsep⟩ := I.legal_mysql50 h
    simp only [nameLen] at hlen
    rw [I.tablenameToFilename_mysql50 L h]
    split_ifs
    · simp
    · exact ⟨hsep, by omega⟩
  | false =>
    obtain ⟨h1, h2, h3, -⟩ := I.strconvert_spec L h
    simp only [tablenameToFilename, h, Bool.false_and, Bool.false_eq_true, if_false]
    split_ifs
    · refine ⟨?_, ?_⟩
      · rw [mem_append, not_or]
        exact ⟨h1, by decide⟩
      · rw [length_append]
        have : (ascii "@@@").length = 3 := rfl
        omega
    · exact ⟨h1, by omega⟩

/-- A name with a directory separator in it does not get shorter. -/
theorem length_le_of_libchar (h : fnLibchar ∈ I.name) :
    I.name.length ≤ (tablenameToFilename L I.name fnReflen).length := by
  cases hp : checkMysql50Prefix I.name with
  | true =>
    rw [I.mysql50_eq hp, mem_append] at h
    rcases h with h | h
    · exact absurd h (by decide)
    · exact absurd h (I.legal_mysql50 hp).2.2
  | false =>
    obtain ⟨-, h2, -⟩ := I.strconvert_spec L hp
    simp only [tablenameToFilename, hp, Bool.false_and, Bool.false_eq_true, if_false]
    split_ifs
    · rw [length_append]
      omega
    · exact h2

/-- **The names that are their own file names.** -/
theorem tablenameToFilename_eq_self_iff :
    tablenameToFilename L I.name fnReflen = I.name ↔ PlainName I.name := by
  cases h : checkMysql50Prefix I.name with
  | true =>
    -- the old prefix is cut off, and starts with a number sign
    have hname := I.mysql50_eq h
    refine iff_of_false (fun he => ?_) (fun hp => ?_)
    · have hle : (tablenameToFilename L I.name fnReflen).length ≤
          (I.name.drop mysql50TableNamePrefix.length).length := by
        rw [I.tablenameToFilename_mysql50 L h]
        split_ifs <;> simp
      have hpos : 0 < mysql50TableNamePrefix.length := by decide
      have := congrArg length hname
      rw [length_append] at this
      rw [he] at hle
      omega
    · have : SafeByte 0x23 := hp.1 _ (by rw [hname]; exact mem_append_left _ (by decide))
      exact absurd this (by decide)
  | false =>
    obtain ⟨-, h2, h3, h4⟩ := I.strconvert_spec L h
    simp only [tablenameToFilename, h, Bool.false_and, Bool.false_eq_true, if_false]
    have hfits : (strconvert L I.name fnReflen).length + 4 < fnReflen := by
      simp only [fnReflen] at h3 ⊢
      omega
    by_cases hl : checkIfLegalTablename (strconvert L I.name fnReflen) = true
    · rw [if_pos (by simp [hl, hfits])]
      refine iff_of_false (fun he => ?_) (fun hp => ?_)
      · have := congrArg length he
        rw [length_append] at this
        have h3 : (ascii "@@@").length = 3 := rfl
        omega
      · rw [h4.2 hp.1, hp.2] at hl
        simp at hl
    · rw [if_neg (by simp [hl])]
      refine ⟨fun he => ⟨h4.1 he, ?_⟩, fun hp => h4.2 hp.1⟩
      rw [he] at hl
      simpa using hl

end Identifier

end EloqSql
