import EloqSql.ParseFile.Number

/-!
# ParseFile — the definition of a view as a text

`build_view_frm_binary` writes the parameters of a view as lines `name=value`, with a header that
names the type of the file. `sql_parse_prepare` checks the header and `File_parser::parse` reads the
lines. It looks for the name of a line from the first parameter on that it has not found yet, so
that lines in the order of the parameters are found at once.

A pointer into the text is what is left of it. Behind its end there is a NUL character, at which
`strchr` gives up. It also gives up at a NUL character before: strings that are written as they are
may hold neither that nor an end of line. All other values come back (`parse_buildViewFrmBinary`).
-/

namespace EloqSql

open List

open Function (update)

namespace ParseFile

/-- `file_opt_type`. -/
inductive FileOptType where
  | string
  | estring
  | ulonglong
  | viewAlgo
  | timestamp
  | strlist
  | ulllist
  deriving DecidableEq

/-- `File_option`. -/
structure FileOption where
  name : Bytes
  offset : ℕ
  type : FileOptType
  deriving DecidableEq

/-- **What the parameters are in**, by their offsets: strings, numbers and lists of both. -/
structure Base where
  strings : ℕ → Bytes
  numbers : ℕ → UInt64
  strlists : ℕ → List Bytes
  ulllists : ℕ → List UInt64

namespace Base

variable (base : Base)

def setString (offset : ℕ) (s : Bytes) : Base :=
  { base with strings := update base.strings offset s }

def setNumber (offset : ℕ) (val : UInt64) : Base :=
  { base with numbers := update base.numbers offset val }

def setStrlist (offset : ℕ) (l : List Bytes) : Base :=
  { base with strlists := update base.strlists offset l }

def setUlllist (offset : ℕ) (l : List UInt64) : Base :=
  { base with ulllists := update base.ulllists offset l }

end Base

/-! ## Writing -/

/-- `write_escaped_string`, one character. -/
def escapeChar (c : UInt8) : Bytes :=
  if c = 0x5c then [0x5c, 0x5c]
  else if c = 0x0a then [0x5c, 0x6e]
  else if c = 0 then [0x5c, 0x30]
  else if c = 26 then [0x5c, 0x7a]
  else if c = 0x27 then [0x5c, 0x27]
  else [c]

/-- `write_escaped_string`. -/
def writeEscapedString (s : Bytes) : Bytes := s.flatMap escapeChar

/-- `DTYPE_VIEW | DTYPE_MERGE`. -/
def viewAlgorithmMerge : UInt64 := 5

/-- `DTYPE_VIEW | DTYPE_MATERIALIZE`. -/
def viewAlgorithmTmptable : UInt64 := 9

/-- `view_algo_to_frm`; other values than the three are not expected. -/
def viewAlgoToFrm (val : UInt64) : UInt64 :=
  if val = viewAlgorithmMerge then 1 else if val = viewAlgorithmTmptable then 2 else 0

/-- `view_algo_from_frm`. -/
def viewAlgoFromFrm (val : UInt64) : UInt64 :=
  if val = 1 then viewAlgorithmMerge else if val = 2 then viewAlgorithmTmptable else val

/-- The elements of a list, with a space between them. -/
def writeList {α : Type} (write : α → Bytes) : List α → Bytes
  | [] => []
  | [a] => write a
  | a :: l => write a ++ 0x20 :: writeList write l

/-- A quoted string of a list. -/
def writeQuoted (s : Bytes) : Bytes := 0x27 :: (writeEscapedString s ++ [0x27])

/-- `PARSE_FILE_TIMESTAMPLENGTH`. -/
def parseFileTimestamplength : ℕ := 19

/-- The text of a time, of digits, spaces and punctuation marks. -/
structure Timestamp where
  str : Bytes
  length_str : str.length = parseFileTimestamplength
  mem_str : ∀ c ∈ str, 0x20 ≤ c ∧ c ≤ 0x3a

/-- A timestamp gets the present time before it is written. -/
def setTimestamp (now : Timestamp) (base : Base) (parameter : FileOption) : Base :=
  if parameter.type = .timestamp then base.setString parameter.offset now.str else base

/-- `write_parameter`, after the time is set. -/
def writeParameter (base : Base) (parameter : FileOption) : Bytes :=
  match parameter.type with
  | .string => base.strings parameter.offset
  | .estring => writeEscapedString (base.strings parameter.offset)
  | .ulonglong => longlong10ToStr (base.numbers parameter.offset)
  | .viewAlgo => longlong10ToStr (viewAlgoToFrm (base.numbers parameter.offset))
  | .timestamp => base.strings parameter.offset
  | .strlist => writeList writeQuoted (base.strlists parameter.offset)
  | .ulllist => writeList longlong10ToStr (base.ulllists parameter.offset)

/-- The lines of some parameters, and what the parameters are then. -/
def writeParameters (now : Timestamp) : Base → List FileOption → Bytes × Base
  | base, [] => ([], base)
  | base, parameter :: parameters =>
    let base := setTimestamp now base parameter
    let (ss, base') := writeParameters now base parameters
    (parameter.name ++ 0x3d :: (writeParameter base parameter ++ 0x0a :: ss), base')

/-- **`build_view_frm_binary`**: the text, and what the parameters are then. -/
def buildViewFrmBinary (now : Timestamp) (type : Bytes) (base : Base)
    (parameters : List FileOption) : Bytes × Base :=
  let (ss, base) := writeParameters now base parameters
  (ascii "TYPE=" ++ type ++ 0x0a :: ss, base)

/-! ## Reading -/

/-- `strchr`, where the text ends with a NUL character: what is before the character and what is
after it. -/
def strchr (c : UInt8) : Bytes → Option (Bytes × Bytes)
  | [] => none
  | b :: s =>
    if b = c then some ([], s)
    else if b = 0 then none
    else (strchr c s).map fun (l, r) => (b :: l, r)

/-- `parse_string`. Without an end of line the length is so large that it cannot be allocated. -/
def parseString (ptr : Bytes) : Option (Bytes × Bytes) := strchr 0x0a ptr

/-- The character that an escape stands for. -/
def unescapeChar (c : UInt8) : Option UInt8 :=
  if c = 0x5c then some 0x5c
  else if c = 0x6e then some 0x0a
  else if c = 0x30 then some 0
  else if c = 0x7a then some 26
  else if c = 0x27 then some 0x27
  else none

/-- `read_escaped_string`. -/
def readEscapedString : Bytes → Option Bytes
  | [] => some []
  | c :: s =>
    if c = 0x5c then
      match s with
      | [] => none
      | c' :: s => (unescapeChar c').bind fun b => (readEscapedString s).map (b :: ·)
    else (readEscapedString s).map (c :: ·)

/-- `parse_escaped_string`. -/
def parseEscapedString (ptr : Bytes) : Option (Bytes × Bytes) :=
  (strchr 0x0a ptr).bind fun (l, r) => (readEscapedString l).map (·, r)

/-- The closing quote: what is before it and what is after it. -/
def findQuote : Bool → Bytes → Option (Bytes × Bytes)
  | _, [] => none
  | escaped, c :: s =>
    if c = 0x27 ∧ !escaped then some ([], s)
    else (findQuote (c = 0x5c ∧ !escaped) s).map fun (l, r) => (c :: l, r)

/-- `parse_quoted_escaped_string`. -/
def parseQuotedEscapedString : Bytes → Option (Bytes × Bytes)
  | [] => none
  | c :: ptr =>
    if c ≠ 0x27 then none
    else (findQuote false ptr).bind fun (l, r) => (readEscapedString l).map (·, r)

/-- An error in a list: a message is given unless the text has ended. -/
inductive ListError where
  | listErr
  | listErrWMessage
  deriving DecidableEq

/-- A list, where `parse` reads one element. -/
def parseList {α : Type} (parse : Bytes → Option (α × Bytes)) :
    ℕ → Bytes → Except ListError (List α × Bytes)
  | 0, _ => .error .listErr
  | fuel + 1, ptr =>
    if ptr = [] then .error .listErr
    else
      match parse ptr with
      | none => .error .listErrWMessage
      | some (a, ptr) =>
        if ptr.head? = some 0x0a then .ok ([a], ptr.tail)
        else if ptr.head? = some 0x20 then
          (parseList parse fuel ptr.tail).map fun (l, ptr) => (a :: l, ptr)
        else .error .listErrWMessage

/-- `*num= my_strtoll10(ptr, &num_end, &not_used)`. -/
def parseUlonglong (ptr : Bytes) : Option (UInt64 × Bytes) :=
  let num := myStrtoll10 true ptr
  some (num.value, num.endptr)

/-- The errors of `sql_parse_prepare` and `File_parser::parse`, with what they name. -/
inductive FparserError where
  | tooBigFile (key : Bytes)
  | badHeader (key : Bytes)
  | eofInComment (line : Bytes)
  | eofInUnknownParameter (line : Bytes)
  | errorInParameter (name line : Bytes)
  /-- Without a message of its own. -/
  | silent
  /-- Behind the end of the text. -/
  | outside
  deriving DecidableEq

/-- The value of a parameter: what is left of the text, and the parameters. -/
def parseValue (line : Bytes) (base : Base) (parameter : FileOption) (ptr : Bytes) :
    Except FparserError (Bytes × Base) :=
  let error : FparserError := .errorInParameter parameter.name (DbOpt.cString line)
  let listError : ListError → FparserError
    | .listErr => .silent
    | .listErrWMessage => error
  match parameter.type with
  | .string =>
    match parseString ptr with
    | none => .error error
    | some (s, ptr) => .ok (ptr, base.setString parameter.offset s)
  | .estring =>
    match parseEscapedString ptr with
    | none => .error error
    | some (s, ptr) => .ok (ptr, base.setString parameter.offset s)
  | .ulonglong =>
    match strchr 0x0a ptr with
    | none => .error error
    | some (_, eol) => .ok (eol, base.setNumber parameter.offset (myStrtoll10 false ptr).value)
  | .viewAlgo =>
    match strchr 0x0a ptr with
    | none => .error error
    | some (_, eol) =>
      .ok (eol, base.setNumber parameter.offset (viewAlgoFromFrm (myStrtoll10 false ptr).value))
  | .timestamp =>
    if ptr.length < parseFileTimestamplength then .error .outside
    else if ptr.getD parseFileTimestamplength 0 ≠ 0x0a then .error error
    else .ok (ptr.drop (parseFileTimestamplength + 1),
      base.setString parameter.offset (ptr.take parseFileTimestamplength))
  | .strlist =>
    match parseList parseQuotedEscapedString (ptr.length + 1) ptr with
    | .error e => .error (listError e)
    | .ok (l, ptr) => .ok (ptr, base.setStrlist parameter.offset l)
  | .ulllist =>
    match parseList parseUlonglong (ptr.length + 1) ptr with
    | .error e => .error (listError e)
    | .ok (l, ptr) => .ok (ptr, base.setUlllist parameter.offset l)

/-- Whether the line of `ptr` is one of this parameter. The length is only checked where the text is
longer than the name. -/
def isParameter (ptr : Bytes) (parameter : FileOption) : Bool :=
  let len := parameter.name.length
  if len < ptr.length ∧ ptr.getD len 0 ≠ 0x3d then false else ptr.take len = parameter.name

/-- `File_parser::parse`: the lines, with the parameters before `firstParam` found already. -/
def parseLines (hook : Bytes → Base → Option (Bytes × Base)) (parameters : List FileOption)
    (required : ℕ) : ℕ → Bytes → (firstParam found : ℕ) → Base → Except FparserError Base
  | 0, _, _, _, _ => .error .outside
  | fuel + 1, ptr, firstParam, found, base =>
    if ptr = [] ∨ required ≤ found then .ok base
    else if ptr.head? = some 0x23 then
      -- it is a comment
      match strchr 0x0a ptr with
      | none => .error (.eofInComment (DbOpt.cString ptr))
      | some (_, ptr) => parseLines hook parameters required fuel ptr firstParam found base
    else
      match ((parameters.take required).drop firstParam).findIdx? (isParameter ptr) with
      | some n =>
        match (parameters.drop firstParam)[n]? with
        | none => .error .outside
        | some parameter =>
          if ptr.length < parameter.name.length + 1 then .error .outside
          else
            match parseValue ptr base parameter (ptr.drop (parameter.name.length + 1)) with
            | .error e => .error e
            | .ok (ptr, base) =>
              parseLines hook parameters required fuel ptr
                (if n = 0 then firstParam + 1 else firstParam) (found + 1) base
      | none =>
        -- the hook may move the pointer
        match hook ptr base with
        | none => .error .silent
        | some (ptr', base) =>
          match strchr 0x0a ptr' with
          | none => .error (.eofInUnknownParameter (DbOpt.cString ptr))
          | some (_, ptr) => parseLines hook parameters required fuel ptr firstParam found base

/-- `INT_MAX - 1`. -/
def maxLength : ℕ := 2147483646

/-- **`sql_parse_prepare`**, of data that are fetched: the type of the file, and the text after the
header; nothing if the header is bad and this is not an error. -/
def sqlParsePrepare (key data : Bytes) (badFormatErrors : Bool) :
    Except FparserError (Option (Bytes × Bytes)) :=
  let frmError := if badFormatErrors then .error (.badHeader key) else .ok none
  if data.length > maxLength then .error (.tooBigFile key)
  else if data.length < 7 ∨ data.take 5 ≠ ascii "TYPE=" then frmError
  else
    let sign := data.drop 5
    let fileType := sign.takeWhile fun c => 0x41 ≤ c ∧ c ≤ 0x5a
    match sign.drop fileType.length with
    | 0x0a :: start => .ok (some (fileType, start))
    | _ => frmError

/-- **`File_parser::parse`.** -/
def parse (hook : Bytes → Base → Option (Bytes × Base)) (start : Bytes) (base : Base)
    (parameters : List FileOption) (required : ℕ) : Except FparserError Base :=
  parseLines hook parameters required (start.length + 1) start 0 0 base

/-! ## Values -/

/-- Where the value of a parameter is. -/
inductive Slot where
  | string (offset : ℕ)
  | number (offset : ℕ)
  | strlist (offset : ℕ)
  | ulllist (offset : ℕ)
  deriving DecidableEq

def FileOption.slot (parameter : FileOption) : Slot :=
  match parameter.type with
  | .string | .estring | .timestamp => .string parameter.offset
  | .ulonglong | .viewAlgo => .number parameter.offset
  | .strlist => .strlist parameter.offset
  | .ulllist => .ulllist parameter.offset

/-- A value of a parameter. -/
inductive Value where
  | string (s : Bytes)
  | number (val : UInt64)
  | strlist (l : List Bytes)
  | ulllist (l : List UInt64)
  deriving DecidableEq

namespace Base

def get (base : Base) : Slot → Value
  | .string offset => .string (base.strings offset)
  | .number offset => .number (base.numbers offset)
  | .strlist offset => .strlist (base.strlists offset)
  | .ulllist offset => .ulllist (base.ulllists offset)

/-- The value of `base` at one place. -/
def copy (b base : Base) : Slot → Base
  | .string offset => b.setString offset (base.strings offset)
  | .number offset => b.setNumber offset (base.numbers offset)
  | .strlist offset => b.setStrlist offset (base.strlists offset)
  | .ulllist offset => b.setUlllist offset (base.ulllists offset)

theorem get_copy_self (b base : Base) (slot : Slot) :
    (b.copy base slot).get slot = base.get slot := by
  cases slot <;> simp [copy, get, setString, setNumber, setStrlist, setUlllist]

theorem get_copy_of_ne (b base : Base) {slot slot' : Slot} (h : slot' ≠ slot) :
    (b.copy base slot).get slot' = b.get slot' := by
  cases slot <;> cases slot' <;>
    simp_all [copy, get, setString, setNumber, setStrlist, setUlllist]

end Base

variable {parameter : FileOption} {c : UInt8} {base : Base}

/-- Setting the time changes nothing but the timestamp. -/
theorem get_setTimestamp_of_ne (now : Timestamp) (base : Base)
    {slot : Slot} (h : slot ≠ parameter.slot) :
    (setTimestamp now base parameter).get slot = base.get slot := by
  rw [setTimestamp]
  split
  · next htype =>
    have hslot : parameter.slot = .string parameter.offset := by rw [FileOption.slot, htype]
    cases slot <;> simp_all [Base.get, Base.setString]
  · rfl

/-! ## Escapes -/

theorem strchr_append {l : Bytes} (hc : c ∉ l) (hnul : (0 : UInt8) ∉ l) (r : Bytes) :
    strchr c (l ++ c :: r) = some (l, r) := by
  induction l with
  | nil => simp [strchr]
  | cons b l ih =>
    obtain ⟨hb, hl⟩ := not_or.1 (mt mem_cons.2 hc)
    obtain ⟨hb0, hl0⟩ := not_or.1 (mt mem_cons.2 hnul)
    rw [cons_append, strchr, if_neg (Ne.symm hb), if_neg (Ne.symm hb0), ih hl hl0]
    rfl

/-- No end of line and no NUL character is left. -/
theorem not_mem_writeEscapedString (s : Bytes) :
    (0x0a : UInt8) ∉ writeEscapedString s ∧ (0 : UInt8) ∉ writeEscapedString s := by
  have hchar : ∀ c, (0x0a : UInt8) ∉ escapeChar c ∧ (0 : UInt8) ∉ escapeChar c := by
    intro c
    rw [escapeChar]
    split_ifs with h1 h2 h3 <;> simp_all [eq_comm]
  refine ⟨fun h => ?_, fun h => ?_⟩
  · obtain ⟨c, -, hc⟩ := mem_flatMap.1 h
    exact (hchar c).1 hc
  · obtain ⟨c, -, hc⟩ := mem_flatMap.1 h
    exact (hchar c).2 hc

theorem readEscapedString_cons (h : c ≠ 0x5c) (s : Bytes) :
    readEscapedString (c :: s) = (readEscapedString s).map (c :: ·) := by
  conv_lhs => unfold readEscapedString
  exact if_neg h

theorem readEscapedString_escapeChar (c : UInt8) (s : Bytes) :
    readEscapedString (escapeChar c ++ s) = (readEscapedString s).map (c :: ·) := by
  rw [escapeChar]
  split_ifs with h
  all_goals first
    | exact readEscapedString_cons h s
    | simp_all [readEscapedString, unescapeChar]

theorem readEscapedString_writeEscapedString (s : Bytes) :
    readEscapedString (writeEscapedString s) = some s := by
  induction s with
  | nil => rfl
  | cons c s ih =>
    rw [writeEscapedString, flatMap_cons, readEscapedString_escapeChar, ← writeEscapedString,
      ih]
    rfl

theorem findQuote_escapeChar (c : UInt8) (s : Bytes) :
    findQuote false (escapeChar c ++ s) =
      (findQuote false s).map fun (l, r) => (escapeChar c ++ l, r) := by
  rw [escapeChar]
  split_ifs <;> simp_all [findQuote, Function.comp_def]

/-- The quote that is found is the closing one. -/
theorem findQuote_writeEscapedString (s r : Bytes) :
    findQuote false (writeEscapedString s ++ 0x27 :: r) = some (writeEscapedString s, r) := by
  induction s with
  | nil => simp [writeEscapedString, findQuote]
  | cons c s ih =>
    rw [writeEscapedString, flatMap_cons, append_assoc, findQuote_escapeChar,
      ← writeEscapedString, ih]
    rfl

theorem writeQuoted_ne_nil (s : Bytes) : writeQuoted s ≠ [] := cons_ne_nil _ _

theorem parseQuotedEscapedString_writeQuoted (s r : Bytes) :
    parseQuotedEscapedString (writeQuoted s ++ r) = some (s, r) := by
  rw [writeQuoted, cons_append, append_assoc, singleton_append,
    parseQuotedEscapedString, if_neg (by simp), findQuote_writeEscapedString]
  simp [readEscapedString_writeEscapedString]

theorem parseEscapedString_writeEscapedString (s r : Bytes) :
    parseEscapedString (writeEscapedString s ++ 0x0a :: r) = some (s, r) := by
  obtain ⟨hline, hnul⟩ := not_mem_writeEscapedString s
  rw [parseEscapedString, strchr_append hline hnul]
  simp [readEscapedString_writeEscapedString]

/-! ## Lists and numbers -/

/-- **A list that is written is read**, if each element is, before a space or an end of line. -/
theorem parseList_writeList {α : Type} {write : α → Bytes} {parse : Bytes → Option (α × Bytes)}
    (h : ∀ a c r, c = 0x0a ∨ c = 0x20 → parse (write a ++ c :: r) = some (a, c :: r))
    (rest : Bytes) : ∀ (fuel : ℕ) (l : List α), l ≠ [] → l.length ≤ fuel →
      parseList parse fuel (writeList write l ++ 0x0a :: rest) = .ok (l, rest)
  | 0, _ :: _, _, hfuel => nomatch hfuel
  | fuel + 1, [a], _, _ => by
      rw [writeList, parseList, if_neg (by simp), h a _ _ (.inl rfl)]
      simp
  | fuel + 1, a :: b :: l, _, hfuel => by
      have ih := parseList_writeList h rest fuel (b :: l) (by simp) (by simpa using hfuel)
      rw [writeList, append_assoc, cons_append, parseList, if_neg (by simp),
        h a _ _ (.inr rfl)]
      · simp [ih, Except.map]
      · simp

theorem length_writeList_le {α : Type} {write : α → Bytes} (h : ∀ a, write a ≠ []) :
    ∀ l : List α, l.length ≤ (writeList write l).length
  | [] => by simp
  | [a] => length_pos_iff.2 (h a)
  | a :: b :: l => by
      have ih := length_writeList_le h (b :: l)
      have heq : writeList write (a :: b :: l) = write a ++ 0x20 :: writeList write (b :: l) := rfl
      simp only [heq, length_append, length_cons] at ih ⊢
      omega

theorem stopsNumber_cons (h : c = 0x0a ∨ c = 0x20) (r : Bytes) : StopsNumber (c :: r) := by
  rintro b ⟨⟩
  obtain rfl | rfl := h <;> decide

theorem parseUlonglong_longlong10ToStr (val : UInt64) (c : UInt8) (r : Bytes)
    (h : c = 0x0a ∨ c = 0x20) :
    parseUlonglong (longlong10ToStr val ++ c :: r) = some (val, c :: r) := by
  rw [parseUlonglong, (myStrtoll10_longlong10ToStr (stopsNumber_cons h r) val).1]

/-- A number has no end of line and no NUL character. -/
theorem not_mem_longlong10ToStr (val : UInt64) :
    (0x0a : UInt8) ∉ longlong10ToStr val ∧ (0 : UInt8) ∉ longlong10ToStr val := by
  obtain ⟨d, ds, htext, hmem, -⟩ := longlong10ToStr_eq val
  have hchar : ∀ d < 10, digitChar d ≠ 0x0a ∧ digitChar d ≠ 0 := by decide
  rw [htext]
  refine ⟨fun h => ?_, fun h => ?_⟩
  · obtain ⟨e, he, heq⟩ := mem_map.1 h
    exact (hchar e (hmem e he)).1 heq
  · obtain ⟨e, he, heq⟩ := mem_map.1 h
    exact (hchar e (hmem e he)).2 heq

theorem longlong10ToStr_ne_nil (val : UInt64) : longlong10ToStr val ≠ [] := by
  obtain ⟨d, ds, htext, -⟩ := longlong10ToStr_eq val
  simp [htext, digitChars]

/-- The line of a number. -/
theorem strchr_longlong10ToStr (val : UInt64) (r : Bytes) :
    strchr 0x0a (longlong10ToStr val ++ 0x0a :: r) = some (longlong10ToStr val, r) :=
  strchr_append (not_mem_longlong10ToStr val).1 (not_mem_longlong10ToStr val).2 r

/-! ## Back and forth -/

/-- What a value may be: a string that is written as it is has no end of line and no NUL character,
an algorithm is one of the three, and a list is not empty. -/
def Writable (base : Base) (parameter : FileOption) : Prop :=
  match parameter.type with
  | .string => (0x0a : UInt8) ∉ base.strings parameter.offset ∧
      (0 : UInt8) ∉ base.strings parameter.offset
  | .viewAlgo => base.numbers parameter.offset = 0 ∨
      base.numbers parameter.offset = viewAlgorithmMerge ∨
      base.numbers parameter.offset = viewAlgorithmTmptable
  | .strlist => base.strlists parameter.offset ≠ []
  | .ulllist => base.ulllists parameter.offset ≠ []
  | .estring | .ulonglong | .timestamp => True

instance (base : Base) (parameter : FileOption) : Decidable (Writable base parameter) := by
  unfold Writable
  split <;> infer_instance

/-- Setting the time of another parameter leaves a value one that may be written. -/
theorem Writable.setTimestamp (h : Writable base parameter)
    (now : Timestamp) (parameter' : FileOption) :
    Writable (setTimestamp now base parameter') parameter := by
  have hnow : (0x0a : UInt8) ∉ now.str ∧ (0 : UInt8) ∉ now.str :=
    ⟨fun hc => absurd (now.mem_str _ hc).1 (by decide),
      fun hc => absurd (now.mem_str _ hc).1 (by decide)⟩
  rw [ParseFile.setTimestamp]
  split
  · cases htype : parameter.type <;> simp only [Writable, htype] at h ⊢
    case string =>
      by_cases hoff : parameter.offset = parameter'.offset
      · simpa [Base.setString, hoff] using hnow
      · simpa [Base.setString, hoff] using h
    all_goals exact h
  · exact h

/-- The strings of timestamps are the present time. -/
def Stamped (now : Timestamp) (base : Base) (parameter : FileOption) : Prop :=
  parameter.type = .timestamp → base.strings parameter.offset = now.str

theorem viewAlgoFromFrm_viewAlgoToFrm {val : UInt64}
    (h : val = 0 ∨ val = viewAlgorithmMerge ∨ val = viewAlgorithmTmptable) :
    viewAlgoFromFrm (viewAlgoToFrm val) = val := by
  obtain rfl | rfl | rfl := h <;> decide

/-- **A value that is written is read.** -/
theorem parseValue_writeParameter {now : Timestamp}
    (h : Writable base parameter) (hstamp : Stamped now base parameter) (line : Bytes) (b : Base)
    (rest : Bytes) :
    parseValue line b parameter (writeParameter base parameter ++ 0x0a :: rest) =
      .ok (rest, b.copy base parameter.slot) := by
  have hnumber (val : UInt64) :=
    (myStrtoll10_longlong10ToStr (stopsNumber_cons (.inl rfl) rest) val).2
  cases htype : parameter.type <;>
    simp only [parseValue, writeParameter, FileOption.slot, htype, Base.copy]
  case string =>
    simp only [Writable, htype] at h
    rw [parseString, strchr_append h.1 h.2]
  case estring => rw [parseEscapedString_writeEscapedString]
  case ulonglong => rw [strchr_longlong10ToStr, hnumber]
  case viewAlgo =>
    simp only [Writable, htype] at h
    rw [strchr_longlong10ToStr, hnumber, viewAlgoFromFrm_viewAlgoToFrm h]
  case timestamp =>
    have hlen : (base.strings parameter.offset).length = parseFileTimestamplength := by
      rw [hstamp htype]
      exact now.length_str
    rw [if_neg (by simp [hlen]), if_neg (by simp [← hlen]), ← hlen]
    simp
  case strlist =>
    simp only [Writable, htype] at h
    have hlen := length_writeList_le writeQuoted_ne_nil (base.strlists parameter.offset)
    rw [parseList_writeList (fun s c r _ => parseQuotedEscapedString_writeQuoted s _) rest _ _ h
      (by rw [length_append]; omega)]
  case ulllist =>
    simp only [Writable, htype] at h
    have hlen := length_writeList_le longlong10ToStr_ne_nil (base.ulllists parameter.offset)
    rw [parseList_writeList parseUlonglong_longlong10ToStr rest _ _ h
      (by rw [length_append]; omega)]

theorem stamped_setTimestamp (now : Timestamp) (base : Base) (parameter : FileOption) :
    Stamped now (setTimestamp now base parameter) parameter := by
  intro htype
  simp [setTimestamp, htype, Base.setString]

/-- The line of a parameter is found as one of it. -/
theorem isParameter_line (parameter : FileOption) (rest : Bytes) :
    isParameter (parameter.name ++ 0x3d :: rest) parameter = true := by
  simp [isParameter]

/-- **One line**, of the first parameter that has not been found. -/
theorem parseLines_line (hook : Bytes → Base → Option (Bytes × Base)) {now : Timestamp}
    {parameters rest : List FileOption} {k : ℕ} {p : FileOption}
    (hk : parameters.drop k = p :: rest) (hp : Writable base p)
    (hstamp : Stamped now base p) (hname : p.name.head? ≠ some 0x23) (fuel : ℕ) (ptr : Bytes)
    (b : Base) : parseLines hook parameters parameters.length (fuel + 1)
        (p.name ++ 0x3d :: (writeParameter base p ++ 0x0a :: ptr)) k k b =
      parseLines hook parameters parameters.length fuel ptr (k + 1) (k + 1)
        (b.copy base p.slot) := by
  have hlt : k < parameters.length := by
    by_contra hge
    simp [drop_eq_nil_of_le (Nat.not_lt.1 hge)] at hk
  have hcomment : (p.name ++ 0x3d :: (writeParameter base p ++ 0x0a :: ptr)).head? ≠ some 0x23 := by
    cases hn : p.name with
    | nil => simp
    | cons c name => simpa [hn] using hname
  have hdrop : (p.name ++ 0x3d :: (writeParameter base p ++ 0x0a :: ptr)).drop (p.name.length + 1) =
      writeParameter base p ++ 0x0a :: ptr := by simp
  conv_lhs => unfold parseLines
  rw [if_neg (by simp; omega), if_neg hcomment, take_length, hk, findIdx?_cons,
    isParameter_line, if_pos rfl]
  simp only [getElem?_cons_zero]
  rw [if_neg (by simp), hdrop, parseValue_writeParameter hp hstamp]
  rfl

/-- **A run over the lines that are left.** What the parameters before them are is known already; at
the end it is known of all. -/
theorem parseLines_writeParameters (hook : Bytes → Base → Option (Bytes × Base)) (now : Timestamp)
    {parameters : List FileOption} :
    ∀ (rest : List FileOption) (fuel k : ℕ) (base b : Base),
      parameters.drop k = rest → (∀ p ∈ rest, Writable base p ∧ p.name.head? ≠ some 0x23) →
      (∀ p ∈ parameters.take k, b.get p.slot = base.get p.slot) → rest.length < fuel →
      ∃ b', parseLines hook parameters parameters.length fuel (writeParameters now base rest).1 k k
          b = .ok b' ∧
        ∀ p ∈ parameters, b'.get p.slot = (writeParameters now base rest).2.get p.slot
  | [], fuel + 1, k, base, b, hrest, _, hdone, _ => by
      refine ⟨b, by simp [parseLines, writeParameters], fun p hp => hdone p ?_⟩
      rwa [take_of_length_le (drop_eq_nil_iff.1 hrest)]
  | p :: rest, fuel + 1, k, base, b, hrest, hwrite, hdone, hfuel => by
      obtain ⟨⟨hp, hname⟩, hwrite⟩ := forall_mem_cons.1 hwrite
      have hpk : parameters[k]? = some p := by rw [← head?_drop, hrest]; rfl
      have hdone' : ∀ q ∈ parameters.take (k + 1),
          (b.copy (setTimestamp now base p) p.slot).get q.slot =
            (setTimestamp now base p).get q.slot := by
        intro q hq
        by_cases hslot : q.slot = p.slot
        · rw [hslot, Base.get_copy_self]
        · rw [Base.get_copy_of_ne _ _ hslot, get_setTimestamp_of_ne now base hslot]
          rw [take_add_one, hpk, Option.toList_some, mem_append, mem_singleton] at hq
          exact hdone q (hq.resolve_right fun h => hslot (congrArg _ h))
      obtain ⟨b', hb', hall⟩ := parseLines_writeParameters hook now rest fuel (k + 1)
        (setTimestamp now base p) (b.copy (setTimestamp now base p) p.slot)
        (by rw [← drop_drop, hrest]; rfl)
        (fun q hq => ⟨(hwrite q hq).1.setTimestamp now p, (hwrite q hq).2⟩) hdone'
        (by simpa using hfuel)
      refine ⟨b', ?_, hall⟩
      rw [← hb']
      exact parseLines_line hook hrest (hp.setTimestamp now p) (stamped_setTimestamp now base p)
        hname fuel _ b

theorem length_le_writeParameters (now : Timestamp) :
    ∀ (base : Base) (parameters : List FileOption),
      parameters.length ≤ (writeParameters now base parameters).1.length
  | _, [] => by simp
  | base, p :: parameters => by
      have ih := length_le_writeParameters now (setTimestamp now base p) parameters
      simp only [writeParameters, length_append, length_cons]
      omega

/-- The header is found again. -/
theorem sqlParsePrepare_buildViewFrmBinary (key : Bytes) (badFormatErrors : Bool) (now : Timestamp)
    {type : Bytes} (htype : type ≠ []) (hletter : ∀ c ∈ type, 0x41 ≤ c ∧ c ≤ 0x5a) (base : Base)
    (parameters : List FileOption)
    (hlen : (buildViewFrmBinary now type base parameters).1.length ≤ maxLength) :
    sqlParsePrepare key (buildViewFrmBinary now type base parameters).1 badFormatErrors =
      .ok (some (type, (writeParameters now base parameters).1)) := by
  have hsign : (ascii "TYPE=").length = 5 := by decide
  have hpos := length_pos_iff.2 htype
  have htext : (buildViewFrmBinary now type base parameters).1 =
      ascii "TYPE=" ++ (type ++ 0x0a :: (writeParameters now base parameters).1) := by
    simp [buildViewFrmBinary]
  rw [htext] at hlen ⊢
  have hshort : ¬(
      (ascii "TYPE=" ++ (type ++ 0x0a :: (writeParameters now base parameters).1)).length < 7 ∨
      (ascii "TYPE=" ++ (type ++ 0x0a :: (writeParameters now base parameters).1)).take 5 ≠
        ascii "TYPE=") := by
    rw [take_left' hsign, length_append, length_append, hsign, length_cons]
    simp only [ne_eq, not_true_eq_false, or_false]
    omega
  have hword : (type ++ 0x0a :: (writeParameters now base parameters).1).takeWhile
      (fun c => 0x41 ≤ c ∧ c ≤ 0x5a) = type := by
    rw [takeWhile_append_of_pos (by simpa using hletter)]
    simp
  simp only [sqlParsePrepare]
  rw [if_neg (Nat.not_lt.2 hlen), if_neg hshort, drop_left' hsign]
  simp only [hword, drop_left]

/-- **The definition of a view comes back**: the header is accepted, and each parameter is read as
the value that it had when the text was written. -/
theorem parse_buildViewFrmBinary (key : Bytes) (badFormatErrors : Bool)
    (hook : Bytes → Base → Option (Bytes × Base)) (now : Timestamp) (type : Bytes) (base b : Base)
    (parameters : List FileOption) (htype : type ≠ []) (hletter : ∀ c ∈ type, 0x41 ≤ c ∧ c ≤ 0x5a)
    (hname : ∀ p ∈ parameters, p.name.head? ≠ some 0x23)
    (hwritable : ∀ p ∈ parameters, Writable base p)
    (hlen : (buildViewFrmBinary now type base parameters).1.length ≤ maxLength) :
    ∃ start b', sqlParsePrepare key (buildViewFrmBinary now type base parameters).1 badFormatErrors
        = .ok (some (type, start)) ∧
      parse hook start b parameters parameters.length = .ok b' ∧
      ∀ p ∈ parameters,
        b'.get p.slot = (buildViewFrmBinary now type base parameters).2.get p.slot := by
  obtain ⟨b', hb', hall⟩ := parseLines_writeParameters hook now parameters
    ((writeParameters now base parameters).1.length + 1) 0 base b rfl
    (fun p hp => ⟨hwritable p hp, hname p hp⟩) (by simp)
    (Nat.lt_succ_of_le (length_le_writeParameters now base parameters))
  exact ⟨_, b', sqlParsePrepare_buildViewFrmBinary key badFormatErrors now htype hletter base
    parameters hlen, hb', hall⟩

/-! ## A view -/

/-- The parameters of a view, one of each type. -/
def sampleParameters : List FileOption :=
  [⟨ascii "query", 0, .estring⟩, ⟨ascii "md5", 1, .string⟩, ⟨ascii "updatable", 0, .ulonglong⟩,
    ⟨ascii "algorithm", 1, .viewAlgo⟩, ⟨ascii "timestamp", 2, .timestamp⟩,
    ⟨ascii "modes", 0, .ulllist⟩, ⟨ascii "events", 0, .strlist⟩]

/-- A query of several lines with quotes, and the largest number. -/
def sampleBase : Base where
  strings offset :=
    if offset = 0 then ascii "select 'a\\b'\nfrom t" else if offset = 1 then ascii "0cc1" else []
  numbers offset := if offset = 0 then 0xffffffffffffffff else viewAlgorithmTmptable
  strlists _ := [ascii "it's", [], [0, 26]]
  ulllists _ := [0, 9223372036854775807]

def sampleTime : Timestamp := ⟨ascii "2024-02-29 23:59:59", by decide +kernel, by decide +kernel⟩

/-- `file_parser_dummy_hook`. -/
def dummyHook (ptr : Bytes) (base : Base) : Option (Bytes × Base) := some (ptr, base)

/-- An empty record of parameters. -/
def emptyBase : Base := ⟨fun _ => [], fun _ => 0, fun _ => [], fun _ => []⟩

/-- The sample view comes back. -/
theorem parse_buildViewFrmBinary_sample : ∃ start b',
    sqlParsePrepare (ascii "./test/v")
        (buildViewFrmBinary sampleTime (ascii "VIEW") sampleBase sampleParameters).1 true =
      .ok (some (ascii "VIEW", start)) ∧
    parse dummyHook start emptyBase sampleParameters sampleParameters.length = .ok b' ∧
    ∀ p ∈ sampleParameters, b'.get p.slot =
      (buildViewFrmBinary sampleTime (ascii "VIEW") sampleBase sampleParameters).2.get p.slot :=
  parse_buildViewFrmBinary (ascii "./test/v") true dummyHook sampleTime (ascii "VIEW") sampleBase
    emptyBase sampleParameters (by decide +kernel) (by decide +kernel) (by decide +kernel)
    (by decide +kernel) (by decide +kernel)

/-- A raw string with a NUL character in it. -/
def nulBase : Base := { emptyBase with strings := fun _ => [0x61, 0, 0x62] }

/-- **A raw string with a NUL character is an error in its parameter**, though it has no end of
line. -/
theorem parse_nulBase : (0x0a : UInt8) ∉ nulBase.strings 0 ∧
    ∃ start, sqlParsePrepare (ascii "./test/v")
        (buildViewFrmBinary sampleTime (ascii "VIEW") nulBase [⟨ascii "md5", 0, .string⟩]).1 true =
      .ok (some (ascii "VIEW", start)) ∧
    ∀ b', parse dummyHook start emptyBase [⟨ascii "md5", 0, .string⟩] 1 ≠ .ok b' := by
  refine ⟨by decide, ascii "md5=a" ++ [0, 0x62, 0x0a], by decide +kernel, fun b' h => ?_⟩
  have herror : (parse dummyHook (ascii "md5=a" ++ [0, 0x62, 0x0a]) emptyBase
      [⟨ascii "md5", 0, .string⟩] 1).toOption.isNone := by decide +kernel
  rw [h] at herror
  exact absurd herror (by simp [Except.toOption])

end ParseFile

end EloqSql
