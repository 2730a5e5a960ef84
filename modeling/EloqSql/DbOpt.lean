import EloqSql.Charset
import EloqSql.FileName

/-!
# DbOpt — the options of a database

`build_db_opt_binary` writes the default collation and the comment of a database as lines
`key=value`, without escapes. `parse_opt_binary` takes the lines apart again: it cuts what is not
graphic off the end of a line, and a key need only begin like the one it is compared with. A comment
therefore comes back if it is one line with a graphic end (`parseOptBinary_image`), and only then.

The room for the comment is computed with the size of a pointer in place of the size of the buffer.
It comes out beyond all bounds, so that a long comment is written over the end of the buffer.
-/

namespace EloqSql

open List

namespace DbOpt

variable {s : Bytes} {comment : Option Bytes}

/-! ## `build_db_opt_binary` -/

/-- **The character sets of the server**: the names of collations, which are short graphic words,
and how they are looked up. -/
structure Charsets where
  Coll : Type
  csName : Coll → Bytes
  collName : Coll → Bytes
  /-- `get_charset_by_csname`, for `MY_CS_PRIMARY`. -/
  byCsname : Bytes → Option Coll
  /-- `get_charset_by_name`. -/
  byName : Bytes → Option Coll
  /-- `default_charset_info`. -/
  default : Coll
  byName_collName : ∀ c, byName (collName c) = some c
  csName_word : ∀ c, ∀ b ∈ csName c, 0x20 < b ∧ b < 0x7f
  collName_word : ∀ c, ∀ b ∈ collName c, 0x20 < b ∧ b < 0x7f
  length_csName : ∀ c, (csName c).length ≤ 64
  length_collName : ∀ c, (collName c).length ≤ 64

/-- `Schema_specification_st`. -/
structure SchemaSpecification (C : Type) where
  defaultTableCharset : Option C
  schemaComment : Option Bytes
  deriving DecidableEq

/-- `DATABASE_COMMENT_MAXLEN`. -/
def databaseCommentMaxlen : ℕ := 1024

/-- `size_buf`. -/
def sizeBuf : ℕ := 256 + databaseCommentMaxlen

/-- `sizeof(buf)`, where `buf` is a pointer. -/
def sizeofBuf : ℕ := 8

/-- A string as C functions see it. -/
def cString (s : Bytes) : Bytes := s.takeWhile (· ≠ 0)

/-- `strxnmov`: the first `len` bytes of some strings. -/
def strxnmov (len : ℕ) (srcs : List Bytes) : Bytes := (srcs.flatMap cString).take len

/-- The length of a prefix of at most `n` well-formed characters of the system character set. -/
def wellFormedLength : ℕ → Bytes → ℕ
  | 0, _ => 0
  | n + 1, s =>
    match mbWcUtf8mb3 s with
    | none => 0
    | some (_, len) => len + wellFormedLength n (s.drop len)

/-- `validate_comment_length`, of the length of a database comment: whether it is an error. Without
strict mode the comment only gets another length. -/
def validateCommentLength (isStrictMode : Bool) (comment : Bytes) : Bool :=
  comment.length ≠ 0 && wellFormedLength databaseCommentMaxlen comment < comment.length
    && isStrictMode

/-- What `build_db_opt_binary` comes to: an error, a text that is too long for the buffer, or the
image. -/
inductive Built where
  | tooLong
  | overrun
  | image (optBinary : Bytes)
  deriving DecidableEq

variable (cs : Charsets)

/-- The room that is left for the comment: `sizeof(buf) - 1 - length`, of type `size_t`. -/
def commentRoom (length : ℕ) : ℕ := (2 ^ 64 + sizeofBuf - 1 - length) % 2 ^ 64

/-- The lines of the options. -/
def optLines (c : cs.Coll) (comment : Option Bytes) : Bytes :=
  let buf := strxnmov (sizeBuf - 1) [ascii "default-character-set=", cs.csName c,
    ascii "\ndefault-collation=", cs.collName c, ascii "\n"]
  match comment with
  | none => buf
  | some comment => buf ++ strxnmov (commentRoom buf.length) [ascii "comment=", comment, ascii "\n"]

/-- **`build_db_opt_binary`.** -/
def buildDbOptBinary (isStrictMode : Bool) (collationServer : cs.Coll)
    (create : SchemaSpecification cs.Coll) : Built :=
  if create.schemaComment.any (validateCommentLength isStrictMode) then .tooLong
  else
    let optBinary := optLines cs (create.defaultTableCharset.getD collationServer)
      create.schemaComment
    -- the closing NUL character has to fit too
    if optBinary.length + 1 > sizeBuf then .overrun else .image optBinary

/-! ## `parse_opt_binary` -/

/-- `ctype_latin1`, from its second element on. -/
def ctypeLatin1 : List ℕ :=
  [32, 32, 32, 32, 32, 32, 32, 32, 32, 40, 40, 40, 40, 40, 32, 32,
   32, 32, 32, 32, 32, 32, 32, 32, 32, 32, 32, 32, 32, 32, 32, 32,
   72, 16, 16, 16, 16, 16, 16, 16, 16, 16, 16, 16, 16, 16, 16, 16,
   132, 132, 132, 132, 132, 132, 132, 132, 132, 132, 16, 16, 16, 16, 16, 16,
   16, 129, 129, 129, 129, 129, 129, 1, 1, 1, 1, 1, 1, 1, 1, 1,
   1, 1, 1, 1, 1, 1, 1, 1, 1, 1, 1, 16, 16, 16, 16, 16,
   16, 130, 130, 130, 130, 130, 130, 2, 2, 2, 2, 2, 2, 2, 2, 2,
   2, 2, 2, 2, 2, 2, 2, 2, 2, 2, 2, 16, 16, 16, 16, 32,
   16, 0, 16, 2, 16, 16, 16, 16, 16, 16, 1, 16, 1, 0, 1, 0,
   0, 16, 16, 16, 16, 16, 16, 16, 16, 16, 2, 16, 2, 0, 2, 1,
   72, 16, 16, 16, 16, 16, 16, 16, 16, 16, 16, 16, 16, 16, 16, 16,
   16, 16, 16, 16, 16, 16, 16, 16, 16, 16, 16, 16, 16, 16, 16, 16,
   1, 1, 1, 1, 1, 1, 1, 1, 1, 1, 1, 1, 1, 1, 1, 1,
   1, 1, 1, 1, 1, 1, 1, 16, 1, 1, 1, 1, 1, 1, 1, 2,
   2, 2, 2, 2, 2, 2, 2, 2, 2, 2, 2, 2, 2, 2, 2, 2,
   2, 2, 2, 2, 2, 2, 2, 16, 2, 2, 2, 2, 2, 2, 2, 2]

/-- `my_isgraph(&my_charset_latin1, c)`: a punctuation mark, a letter or a digit. -/
def isGraph (c : UInt8) : Bool := (ctypeLatin1.getD c.toNat 0 &&& (16 ||| 1 ||| 2 ||| 4)) ≠ 0

/-- The lines that `getline` returns, with what has been read of the current one. -/
def getlines : Bytes → Bytes → List Bytes
  | [], str => if str = [] then [] else [str]
  | b :: s, str => if b = 0x0a then str :: getlines s [] else getlines s (str ++ [b])

/-- Remove end space and control characters. -/
def trimEnd (buf : Bytes) : Bytes := (buf.reverse.dropWhile fun c => !isGraph c).reverse

/-- `!strncmp(buf, name, pos - buf)`, for what is before the `=`. -/
def isKey (key : Bytes) (name : String) : Bool := (ascii name).take key.length = key

/-- A line of the options. -/
def parseLine (create : SchemaSpecification cs.Coll) (line : Bytes) :
    SchemaSpecification cs.Coll :=
  let buf := cString (trimEnd line)
  if 0x3d ∈ buf then
    let key := buf.takeWhile (· ≠ 0x3d)
    let value := buf.drop (key.length + 1)
    if isKey key "default-character-set" then
      { create with
        defaultTableCharset := some (((cs.byCsname value).or (cs.byName value)).getD cs.default) }
    else if isKey key "default-collation" then
      { create with defaultTableCharset := some ((cs.byName value).getD cs.default) }
    else if isKey key "comment" then { create with schemaComment := some value }
    else create
  else create

/-- **`parse_opt_binary`**, of options that `init` has cleared. -/
def parseOptBinary (optBinary : Bytes) : SchemaSpecification cs.Coll :=
  (getlines optBinary []).foldl (parseLine cs) ⟨none, none⟩

/-! ## `eloq_update_database` -/

/-- **`ALTER DATABASE` without a comment clause**: the options that are stored after it; nothing if
the buffer is overrun. -/
def eloqUpdateDatabase (collationServer : cs.Coll) (stored : Bytes)
    (alter : Bool × Option cs.Coll) : Option Bytes :=
  let tmp := parseOptBinary cs stored
  match buildDbOptBinary cs alter.1 collationServer
      ⟨alter.2.or tmp.defaultTableCharset, tmp.schemaComment⟩ with
  | .tooLong => some stored
  | .overrun => none
  | .image optBinary => some optBinary

/-- One after another. -/
def eloqUpdateDatabases (collationServer : cs.Coll) :
    Bytes → List (Bool × Option cs.Coll) → Option Bytes
  | stored, [] => some stored
  | stored, alter :: alters =>
    (eloqUpdateDatabase cs collationServer stored alter).bind
      (eloqUpdateDatabases collationServer · alters)

/-! ## Lines -/

/-- A line that is printed whole: without an end of line or a NUL character, and with a graphic
end. -/
structure IsLine (s : Bytes) : Prop where
  newline : (0x0a : UInt8) ∉ s
  nul : (0 : UInt8) ∉ s
  graph : ∀ b ∈ s.getLast?, isGraph b

theorem cString_of_not_mem (h : (0 : UInt8) ∉ s) : cString s = s :=
  takeWhile_eq_self_iff.2 fun b hb => by
    simpa using fun h0 : b = 0 => h (h0 ▸ hb)

theorem not_mem_cString (s : Bytes) : (0 : UInt8) ∉ cString s := fun h => by
  simpa using mem_takeWhile_imp h

theorem isGraph_of_word {b : UInt8} (h : 0x20 < b ∧ b < 0x7f) : isGraph b := by
  have hword : ∀ n < 127, 32 < n → (ctypeLatin1.getD n 0 &&& (16 ||| 1 ||| 2 ||| 4)) ≠ 0 := by
    decide
  have h1 : 32 < b.toNat := by simpa using UInt8.lt_iff_toNat_lt.1 h.1
  have h2 : b.toNat < 127 := by simpa using UInt8.lt_iff_toNat_lt.1 h.2
  simpa [isGraph] using hword b.toNat h2 h1

theorem isLine_of_word (h : ∀ b ∈ s, 0x20 < b ∧ b < 0x7f) : IsLine s where
  newline hb := absurd (h _ hb).1 (by decide)
  nul hb := absurd (h _ hb).1 (by decide)
  graph b hb := isGraph_of_word (h b (mem_of_getLast? hb))

theorem IsLine.append {t : Bytes} (hs : IsLine s) (ht : IsLine t) : IsLine (s ++ t) where
  newline h := (mem_append.1 h).elim hs.newline ht.newline
  nul h := (mem_append.1 h).elim hs.nul ht.nul
  graph b hb := by
    rw [getLast?_append] at hb
    cases hlast : t.getLast? with
    | none => exact hs.graph b (by simpa [hlast] using hb)
    | some c => exact ht.graph b (by simpa [hlast] using hb)

theorem trimEnd_of_isLine (h : IsLine s) : trimEnd s = s := by
  rcases s.eq_nil_or_concat with rfl | ⟨t, b, rfl⟩
  · rfl
  · have hb : isGraph b := h.graph b (by simp)
    simp [trimEnd, hb]

/-- What is left of a line has a graphic end. -/
theorem graph_trimEnd (s : Bytes) : ∀ b ∈ (trimEnd s).getLast?, isGraph b := by
  intro b hb
  rw [trimEnd, getLast?_reverse] at hb
  have h := head?_dropWhile_not (fun c => !isGraph c) s.reverse
  rw [Option.mem_def.1 hb] at h
  simpa using h

theorem getlines_append (h : (0x0a : UInt8) ∉ s) (t str : Bytes) :
    getlines (s ++ 0x0a :: t) str = (str ++ s) :: getlines t [] := by
  induction s generalizing str with
  | nil => simp [getlines]
  | cons b s ih =>
    have hb : b ≠ 0x0a := fun e => h (e ▸ mem_cons_self)
    have hs : (0x0a : UInt8) ∉ s := fun m => h (mem_cons_of_mem _ m)
    simp [getlines, hb, ih hs]

/-- The lines of a text have no end of line, and no byte that the text does not have. -/
theorem mem_getlines (s : Bytes) {str : Bytes} (hstr : (0x0a : UInt8) ∉ str) :
    ∀ line ∈ getlines s str, ∀ b ∈ line, b ≠ 0x0a ∧ (b ∈ str ∨ b ∈ s) := by
  induction s generalizing str with
  | nil =>
    intro line hline b hb
    rw [getlines] at hline
    split at hline
    · simp at hline
    · rw [mem_singleton.1 hline] at hb
      exact ⟨fun e => hstr (e ▸ hb), .inl hb⟩
  | cons a s ih =>
    intro line hline b hb
    rw [getlines] at hline
    split at hline
    · obtain rfl | hline := mem_cons.1 hline
      · exact ⟨fun e => hstr (e ▸ hb), .inl hb⟩
      · obtain ⟨hne, h | h⟩ := ih (by simp) line hline b hb
        · simp at h
        · exact ⟨hne, .inr (mem_cons_of_mem _ h)⟩
    · rename_i ha
      obtain ⟨hne, h⟩ := ih (by simpa [hstr] using fun e => ha e.symm) line hline b hb
      refine ⟨hne, ?_⟩
      simpa [or_assoc] using h

/-! ## What is read -/

theorem parseLine_schemaComment {create : SchemaSpecification cs.Coll} {line : Bytes}
    (hcreate : ∀ s ∈ create.schemaComment, IsLine s) (hnewline : (0x0a : UInt8) ∉ line)
    (hnul : (0 : UInt8) ∉ line) : ∀ s ∈ (parseLine cs create line).schemaComment, IsLine s := by
  have hsub : ∀ b ∈ trimEnd line, b ∈ line := fun b hb => by
    simpa using (dropWhile_suffix _).mem (mem_reverse.1 hb)
  have hbuf : cString (trimEnd line) = trimEnd line := cString_of_not_mem fun h => hnul (hsub _ h)
  simp only [parseLine, hbuf]
  split_ifs
  · exact hcreate
  · exact hcreate
  · -- what is behind the `=` is an end of the line
    intro s hs
    cases hs
    refine ⟨fun h => hnewline (hsub _ (mem_of_mem_drop h)),
      fun h => hnul (hsub _ (mem_of_mem_drop h)), fun b hb => graph_trimEnd line b ?_⟩
    rw [getLast?_drop] at hb
    split_ifs at hb
    · simp at hb
    · exact hb
  · exact hcreate
  · exact hcreate

/-- **A comment that is read from a text without a NUL character is a line.** -/
theorem isLine_parseOptBinary {optBinary : Bytes} (h : (0 : UInt8) ∉ optBinary) :
    ∀ s ∈ (parseOptBinary cs optBinary).schemaComment, IsLine s := by
  rw [parseOptBinary]
  refine foldlRecOn _
    (motive := fun create : SchemaSpecification cs.Coll => ∀ s ∈ create.schemaComment, IsLine s) _
    (by simp) fun create hcreate line hline => ?_
  have hmem := mem_getlines optBinary (by simp) line hline
  refine parseLine_schemaComment cs hcreate (fun hb => (hmem _ hb).1 rfl) fun hb => ?_
  exact h (by simpa using (hmem _ hb).2)

/-- A line whose key and value are known. -/
theorem parseLine_eq {key : Bytes} (hkey : (0x3d : UInt8) ∉ key) {value : Bytes}
    (hline : IsLine (key ++ 0x3d :: value)) (create : SchemaSpecification cs.Coll) :
    parseLine cs create (key ++ 0x3d :: value) =
      if isKey key "default-character-set" then
        { create with
          defaultTableCharset := some (((cs.byCsname value).or (cs.byName value)).getD cs.default) }
      else if isKey key "default-collation" then
        { create with defaultTableCharset := some ((cs.byName value).getD cs.default) }
      else if isKey key "comment" then { create with schemaComment := some value }
      else create := by
  have hbuf : cString (trimEnd (key ++ 0x3d :: value)) = key ++ 0x3d :: value := by
    rw [trimEnd_of_isLine hline, cString_of_not_mem hline.nul]
  have htake : (key ++ 0x3d :: value).takeWhile (· ≠ 0x3d) = key := by
    rw [takeWhile_append_of_pos fun b hb => by simpa using fun e : b = 0x3d => hkey (e ▸ hb)]
    simp
  have hdrop : (key ++ 0x3d :: value).drop (key.length + 1) = value := by simp
  simp only [parseLine, hbuf, htake, hdrop]
  rw [if_pos (by simp)]

/-! ## What is written -/

/-- The key of a line and what it is set to. -/
def optLine (key : String) (value : Bytes) : Bytes := ascii key ++ 0x3d :: value

theorem isLine_optLine {key : String} (hkey : ∀ b ∈ ascii key, 0x20 < b ∧ b < 0x7f) {value : Bytes}
    (hvalue : IsLine value) : IsLine (optLine key value) := by
  rw [optLine, append_cons]
  refine (isLine_of_word fun b hb => ?_).append hvalue
  obtain hb | hb := mem_append.1 hb
  · exact hkey b hb
  · rw [mem_singleton.1 hb]
    decide

/-- The two lines of the collation. -/
theorem optLines_none (c : cs.Coll) : optLines cs c none =
    optLine "default-character-set" (cs.csName c) ++
      0x0a :: (optLine "default-collation" (cs.collName c) ++ [0x0a]) := by
  have hcs := cString_of_not_mem (isLine_of_word (cs.csName_word c)).nul
  have hcoll := cString_of_not_mem (isLine_of_word (cs.collName_word c)).nul
  have h1 := cs.length_csName c
  have h2 := cs.length_collName c
  have hset : cString (ascii "default-character-set=") =
      ascii "default-character-set" ++ [0x3d] := by decide
  have hcollation : cString (ascii "\ndefault-collation=") =
      0x0a :: (ascii "default-collation" ++ [0x3d]) := by decide
  have hend : cString (ascii "\n") = [0x0a] := by decide
  have l1 : (ascii "default-character-set").length = 21 := by decide
  have l2 : (ascii "default-collation").length = 17 := by decide
  simp only [optLines, strxnmov, flatMap_cons, flatMap_nil, hcs, hcoll, hset, hcollation,
    hend]
  rw [take_of_length_le]
  · simp [optLine]
  · simp only [length_append, length_cons, length_nil, l1, l2, sizeBuf,
      databaseCommentMaxlen]
    omega

theorem length_optLines_none (c : cs.Coll) :
    (optLines cs c none).length = (cs.csName c).length + (cs.collName c).length + 42 := by
  have l1 : (ascii "default-character-set").length = 21 := by decide
  have l2 : (ascii "default-collation").length = 17 := by decide
  simp only [optLines_none, optLine, length_append, length_cons, length_nil, l1, l2]
  omega

theorem optLines_some (c : cs.Coll) (s : Bytes) : optLines cs c (some s) =
    optLines cs c none ++ strxnmov (commentRoom (optLines cs c none).length)
      [ascii "comment=", s, ascii "\n"] := rfl

/-- There is always room for the comment. -/
theorem le_commentRoom (c : cs.Coll) : 2 ^ 63 ≤ commentRoom (optLines cs c none).length := by
  have h1 := cs.length_csName c
  have h2 := cs.length_collName c
  rw [length_optLines_none, commentRoom, sizeofBuf, Nat.mod_eq_of_lt] <;> omega

theorem strxnmov_comment (h : (0 : UInt8) ∉ s) (len : ℕ) :
    strxnmov len [ascii "comment=", s, ascii "\n"] = (optLine "comment" s ++ [0x0a]).take len := by
  have hkey : cString (ascii "comment=") = ascii "comment" ++ [0x3d] := by decide
  have hend : cString (ascii "\n") = [0x0a] := by decide
  simp [strxnmov, cString_of_not_mem h, hkey, hend, optLine]

theorem length_optLine_comment (s : Bytes) : (optLine "comment" s).length = s.length + 8 := by
  have l : (ascii "comment").length = 7 := by decide
  simp only [optLine, length_append, length_cons, l]
  omega

/-- **The options fit into the buffer** just if the names and the comment are short enough. -/
theorem length_optLines_some_le_iff (c : cs.Coll) (h : (0 : UInt8) ∉ s) :
    (optLines cs c (some s)).length + 1 ≤ sizeBuf ↔
      (cs.csName c).length + (cs.collName c).length + s.length + 52 ≤ sizeBuf := by
  have hroom := le_commentRoom cs c
  rw [optLines_some, strxnmov_comment h, length_append, length_take, length_append,
    length_optLine_comment, length_optLines_none, sizeBuf, databaseCommentMaxlen,
    length_singleton]
  rw [length_optLines_none] at hroom
  omega

/-- The three lines of the options. -/
theorem optLines_some_eq (c : cs.Coll) (h : (0 : UInt8) ∉ s)
    (hlen : (cs.csName c).length + (cs.collName c).length + s.length + 52 ≤ sizeBuf) :
    optLines cs c (some s) = optLines cs c none ++ (optLine "comment" s ++ [0x0a]) := by
  have hroom := le_commentRoom cs c
  rw [sizeBuf, databaseCommentMaxlen] at hlen
  rw [optLines_some, strxnmov_comment h, take_of_length_le]
  rw [length_append, length_optLine_comment, length_singleton]
  omega

theorem zero_not_mem_optLines (c : cs.Coll) (comment : Option Bytes) :
    (0 : UInt8) ∉ optLines cs c comment := by
  have hmov : ∀ len srcs, (0 : UInt8) ∉ strxnmov len srcs := fun len srcs h => by
    obtain ⟨src, -, hsrc⟩ := mem_flatMap.1 (mem_of_mem_take h)
    exact not_mem_cString src hsrc
  cases comment with
  | none => exact hmov _ _
  | some s =>
    intro h
    exact (mem_append.1 h).elim (hmov _ _) (hmov _ _)

/-! ## Back and forth -/

/-- Options that are kept: without a comment, or with one that is a line and fits into the buffer
whatever the collation. -/
def Kept (comment : Option Bytes) : Prop :=
  ∀ s ∈ comment, IsLine s ∧
    ∀ c, (cs.csName c).length + (cs.collName c).length + s.length + 52 ≤ sizeBuf

/-- The lines of the collation, before others. -/
theorem foldl_getlines_collation (c : cs.Coll) (rest : Bytes) :
    (getlines (optLines cs c none ++ rest) []).foldl (parseLine cs) ⟨none, none⟩ =
      (getlines rest []).foldl (parseLine cs) ⟨some c, none⟩ := by
  have hset : IsLine (optLine "default-character-set" (cs.csName c)) :=
    isLine_optLine (by decide +kernel) (isLine_of_word (cs.csName_word c))
  have hcollation : IsLine (optLine "default-collation" (cs.collName c)) :=
    isLine_optLine (by decide +kernel) (isLine_of_word (cs.collName_word c))
  have hkeys : isKey (ascii "default-character-set") "default-character-set" = true ∧
      isKey (ascii "default-collation") "default-character-set" = false ∧
      isKey (ascii "default-collation") "default-collation" = true := by decide
  rw [optLines_none, append_assoc, cons_append, append_assoc, singleton_append,
    getlines_append hset.newline, getlines_append hcollation.newline]
  simp only [nil_append, foldl_cons]
  rw [optLine, optLine, parseLine_eq cs (by decide) hset,
    parseLine_eq cs (by decide) hcollation]
  simp [hkeys, cs.byName_collName]

/-- **The options that are written are read.** -/
theorem parseOptBinary_optLines (c : cs.Coll) (h : Kept cs comment) :
    parseOptBinary cs (optLines cs c comment) = ⟨some c, comment⟩ := by
  cases comment with
  | none => simpa [parseOptBinary, getlines] using foldl_getlines_collation cs c []
  | some s =>
    obtain ⟨hs, hlen⟩ := h s rfl
    have hline : IsLine (optLine "comment" s) := isLine_optLine (by decide +kernel) hs
    have hkeys : isKey (ascii "comment") "default-character-set" = false ∧
        isKey (ascii "comment") "default-collation" = false ∧
        isKey (ascii "comment") "comment" = true := by decide
    rw [optLines_some_eq cs c hs.nul (hlen c), parseOptBinary, foldl_getlines_collation,
      getlines_append hline.newline]
    simp only [nil_append, foldl_cons]
    rw [optLine, parseLine_eq cs (by decide) hline]
    simp [hkeys, getlines]

theorem length_optLines_le (c : cs.Coll) (h : Kept cs comment) :
    (optLines cs c comment).length + 1 ≤ sizeBuf := by
  cases comment with
  | none =>
    have h1 := cs.length_csName c
    have h2 := cs.length_collName c
    rw [length_optLines_none, sizeBuf, databaseCommentMaxlen]
    omega
  | some s =>
    obtain ⟨hs, hlen⟩ := h s rfl
    exact (length_optLines_some_le_iff cs c hs.nul).2 (hlen c)

/-- What is built is an image, unless the comment is refused. -/
theorem buildDbOptBinary_eq (isStrictMode : Bool) (collationServer : cs.Coll)
    (create : SchemaSpecification cs.Coll) (h : Kept cs create.schemaComment) :
    buildDbOptBinary cs isStrictMode collationServer create = .tooLong ∨
      buildDbOptBinary cs isStrictMode collationServer create =
        .image (optLines cs (create.defaultTableCharset.getD collationServer)
          create.schemaComment) := by
  rw [buildDbOptBinary]
  split
  · exact .inl rfl
  · exact .inr (if_neg (Nat.not_lt.2 (length_optLines_le cs _ h)))

/-- One `ALTER DATABASE` keeps the comment. -/
theorem eloqUpdateDatabase_optLines (collationServer c : cs.Coll)
    (h : Kept cs comment) (alter : Bool × Option cs.Coll) :
    ∃ c', eloqUpdateDatabase cs collationServer (optLines cs c comment) alter =
      some (optLines cs c' comment) := by
  simp only [eloqUpdateDatabase, parseOptBinary_optLines cs c h]
  obtain hb | hb := buildDbOptBinary_eq cs alter.1 collationServer
    ⟨alter.2.or (some c), comment⟩ h
  · exact ⟨c, by rw [hb]⟩
  · exact ⟨_, by rw [hb]⟩

/-- **So do any number of them.** -/
theorem eloqUpdateDatabases_optLines (collationServer c : cs.Coll)
    (h : Kept cs comment) (alters : List (Bool × Option cs.Coll)) :
    ∃ c', eloqUpdateDatabases cs collationServer (optLines cs c comment) alters =
      some (optLines cs c' comment) := by
  induction alters generalizing c with
  | nil => exact ⟨c, rfl⟩
  | cons alter alters ih =>
    obtain ⟨c', hc'⟩ := eloqUpdateDatabase_optLines cs collationServer c h alter
    rw [eloqUpdateDatabases, hc', Option.bind_some]
    exact ih c'

/-- **The options come back**: what is built is read as the same collation and the same comment, and
the comment is still there after any number of `ALTER DATABASE`. -/
def Restores (isStrictMode : Bool) (collationServer : cs.Coll)
    (create : SchemaSpecification cs.Coll) : Prop :=
  ∃ optBinary, buildDbOptBinary cs isStrictMode collationServer create = .image optBinary ∧
    parseOptBinary cs optBinary =
      ⟨some (create.defaultTableCharset.getD collationServer), create.schemaComment⟩ ∧
    ∀ alters, ∃ stored, eloqUpdateDatabases cs collationServer optBinary alters = some stored ∧
      (parseOptBinary cs stored).schemaComment = create.schemaComment

/-- An image is the lines of the options. -/
theorem eq_optLines_of_image {isStrictMode : Bool} {collationServer : cs.Coll}
    {create : SchemaSpecification cs.Coll} {optBinary : Bytes}
    (h : buildDbOptBinary cs isStrictMode collationServer create = .image optBinary) :
    optBinary = optLines cs (create.defaultTableCharset.getD collationServer)
      create.schemaComment := by
  simp only [buildDbOptBinary] at h
  split_ifs at h
  exact (Built.image.inj h).symm

/-- Without strict mode no comment is refused: an `ALTER DATABASE` to any collation has to fit. -/
theorem length_le_of_eloqUpdateDatabase {collationServer c : cs.Coll} {stored stored' : Bytes}
    (h : eloqUpdateDatabase cs collationServer stored (false, some c) = some stored') :
    (optLines cs c (parseOptBinary cs stored).schemaComment).length + 1 ≤ sizeBuf := by
  have hstrict : (parseOptBinary cs stored).schemaComment.any (validateCommentLength false) =
      false := by
    cases (parseOptBinary cs stored).schemaComment <;> simp [validateCommentLength]
  by_contra hlen
  simp only [eloqUpdateDatabase, buildDbOptBinary, hstrict, Option.some_or, Option.getD_some,
    Bool.false_eq_true, if_false, gt_iff_lt, if_pos (Nat.not_le.1 hlen), reduceCtorEq] at h

/-- **Which options come back**: those without a comment and those whose comment is one line with a
graphic end, without NUL characters, that fits into the buffer with the names of each collation. -/
theorem restores_iff_kept (isStrictMode : Bool) (collationServer : cs.Coll)
    (create : SchemaSpecification cs.Coll)
    (haccepted : buildDbOptBinary cs isStrictMode collationServer create ≠ .tooLong) :
    Restores cs isStrictMode collationServer create ↔ Kept cs create.schemaComment := by
  constructor
  · rintro ⟨optBinary, himage, hparse, halters⟩ s hs
    have hcomment : (parseOptBinary cs optBinary).schemaComment = some s := by
      rw [hparse]
      exact hs
    have hline : IsLine s := by
      refine isLine_parseOptBinary cs ?_ s hcomment
      rw [eq_optLines_of_image cs himage]
      exact zero_not_mem_optLines cs _ _
    refine ⟨hline, fun c => ?_⟩
    obtain ⟨stored, hstored, -⟩ := halters [(false, some c)]
    obtain ⟨stored', hupdate, -⟩ := Option.bind_eq_some_iff.1 hstored
    have hlen := length_le_of_eloqUpdateDatabase cs hupdate
    rw [hcomment] at hlen
    exact (length_optLines_some_le_iff cs c hline.nul).1 hlen
  · intro h
    have himage := (buildDbOptBinary_eq cs isStrictMode collationServer create h).resolve_left
      haccepted
    refine ⟨_, himage, parseOptBinary_optLines cs _ h, fun alters => ?_⟩
    obtain ⟨c', hc'⟩ := eloqUpdateDatabases_optLines cs collationServer _ h alters
    exact ⟨_, hc', by rw [parseOptBinary_optLines cs c' h]⟩

/-! ## A server with two collations -/

/-- The collations `latin1_swedish_ci` and, for `true`, `utf8mb4_general_ci`. -/
def twoCharsets : Charsets where
  Coll := Bool
  csName c := if c then ascii "utf8mb4" else ascii "latin1"
  collName c := if c then ascii "utf8mb4_general_ci" else ascii "latin1_swedish_ci"
  byCsname s :=
    if s = ascii "utf8mb4" then some true else if s = ascii "latin1" then some false else none
  byName s :=
    if s = ascii "utf8mb4_general_ci" then some true
    else if s = ascii "latin1_swedish_ci" then some false else none
  default := false
  byName_collName := by decide
  csName_word := by decide +kernel
  collName_word := by decide +kernel
  length_csName := by decide
  length_collName := by decide

instance : DecidableEq twoCharsets.Coll := inferInstanceAs (DecidableEq Bool)

/-- `CREATE DATABASE … CHARACTER SET utf8mb4 COMMENT 'a=b'`. -/
def plainComment : SchemaSpecification Bool := ⟨some true, some (ascii "a=b")⟩

/-- The comment `a=b` is kept. -/
theorem restores_plainComment : Restores twoCharsets true false plainComment := by
  refine (restores_iff_kept twoCharsets true false plainComment (by decide +kernel)).2 ?_
  rintro s ⟨⟩
  exact ⟨⟨by decide, by decide +kernel, by decide +kernel⟩,
    fun c => by cases c <;> decide⟩

/-- **A trailing space is lost**, and a second line of a comment is read as the collation of the
database. -/
theorem not_restores_spaceComment :
    buildDbOptBinary twoCharsets true false ⟨some true, some (ascii "x ")⟩ ≠ .tooLong ∧
      ¬Restores twoCharsets true false ⟨some true, some (ascii "x ")⟩ ∧
      parseOptBinary twoCharsets
          (optLines twoCharsets true (some (ascii "x\ndefault-collation=latin1_swedish_ci"))) =
        ⟨some false, some (ascii "x")⟩ := by
  refine ⟨by decide +kernel, ?_, ?_⟩
  · rintro ⟨optBinary, himage, hparse, -⟩
    have hread : (parseOptBinary twoCharsets (optLines twoCharsets true
        (some (ascii "x ")))).schemaComment = some (ascii "x") := by decide
    rw [eq_optLines_of_image _ himage] at hparse
    have hcomment := hread.symm.trans (congrArg SchemaSpecification.schemaComment hparse)
    exact absurd hcomment (by decide)
  · decide

end DbOpt

end EloqSql
