import EloqSql.Buff
import Mathlib.Tactic.ByContra
import Mathlib.Tactic.SplitIfs

/-!
# Json/Escape — characters that a JSON string has no place for

`json_escape` writes a control character, a quote, a backslash, and what the character set of the
JSON lacks as an escape, and `json_unescape` reads it back. They agree but for one case: of a
character behind the BMP that the character set lacks, the writer puts both halves of the surrogate
pair behind one `\u`, and the reader wants a `\u` before each (`jsonEscape_restored_iff`).

A `Writer` gets the room that is left in a buffer, and fails if it is too small.
-/

namespace EloqSql

open List
open UInt8 (ofNat toNat_ofNat')

namespace Json

/-! ## Writers -/

/-- **A writer**: what it writes, given the room for it. -/
abbrev Writer := ℕ → Option Bytes

def write (bytes : Bytes) : Writer := fun room => if bytes.length ≤ room then some bytes else none

def fail : Writer := fun _ => none

def Writer.andThen (w next : Writer) : Writer := fun room =>
  (w room).bind fun bytes => (next (room - bytes.length)).map (bytes ++ ·)

theorem write_andThen (u v : Bytes) : (write u).andThen (write v) = write (u ++ v) := by
  funext room
  simp only [Writer.andThen, write, length_append]
  split_ifs <;> simp <;> omega

theorem write_andThen_fail (u : Bytes) : (write u).andThen fail = fail := by
  funext room
  simp only [Writer.andThen, write, fail]
  split_ifs <;> rfl

/-- **A character set**: the bytes of a character, unless it lacks it, and the first character of a
text, with what is behind it. -/
structure CharsetInfo where
  wcMb : ℕ → Option Bytes
  mbWc : Bytes → Option (ℕ × Bytes)
  mbWc_nil : mbWc [] = none

namespace CharsetInfo

/-- `my_ci_wc_mb`, where all failures count as one. -/
def put (cs : CharsetInfo) (wc : ℕ) : Writer :=
  match cs.wcMb wc with
  | none => fail
  | some bytes => write bytes

/-- **A character that is written is read back.** This is not so for every character of every
character set: `cp932` reads U+6661 as U+6659. -/
def Reads (cs : CharsetInfo) (wc : ℕ) : Prop :=
  ∀ {bytes}, cs.wcMb wc = some bytes → ∀ rest, cs.mbWc (bytes ++ rest) = some (wc, rest)

def AsciiCompatible (cs : CharsetInfo) : Prop :=
  ∀ b : UInt8, b < 0x80 → cs.wcMb b.toNat = some [b] ∧ cs.Reads b.toNat

/-- A text in the character set, if it has all of its characters. -/
def encode (cs : CharsetInfo) : List Char → Option Bytes
  | [] => some []
  | c :: str => (cs.wcMb c.toNat).bind fun bytes => (encode cs str).map (bytes ++ ·)

theorem exists_of_encode_cons {cs : CharsetInfo} {c : Char} {str : List Char} {s : Bytes}
    (h : cs.encode (c :: str) = some s) :
    ∃ bytes t, cs.wcMb c.toNat = some bytes ∧ cs.encode str = some t ∧ s = bytes ++ t := by
  obtain ⟨bytes, hbytes, h⟩ := Option.bind_eq_some_iff.1 h
  obtain ⟨t, ht, rfl⟩ := Option.map_eq_some_iff.1 h
  exact ⟨bytes, t, hbytes, ht, rfl⟩

theorem Reads.ne_nil {cs : CharsetInfo} {wc : ℕ} (hcs : cs.Reads wc) {bytes : Bytes}
    (h : cs.wcMb wc = some bytes) : bytes ≠ [] := by
  rintro rfl
  exact nomatch cs.mbWc_nil.symm.trans (hcs h [])

end CharsetInfo

/-! ## `json_escape` -/

/-- `json_esc_char_classes`. -/
inductive EscClass where
  | esc
  | u
  | b
  | f
  | n
  | r
  | t
  | bs
  deriving DecidableEq

/-- The character of a class. -/
def EscClass.chr : EscClass → UInt8
  | .esc => 0
  | .u => 0x75
  | .b => 0x62
  | .f => 0x66
  | .n => 0x6e
  | .r => 0x72
  | .t => 0x74
  | .bs => 0x5c

/-- `json_escape_chr_map`. -/
def jsonEscapeChrMap : ℕ → EscClass
  | 8 => .b
  | 9 => .t
  | 10 => .n
  | 12 => .f
  | 13 => .r
  | 0x22 | 0x5c => .bs
  | c => if c < 0x20 then .u else .esc

def hexconv (d : ℕ) : UInt8 := ofNat (if d < 10 then 0x30 + d else 0x37 + d)

/-- The two digits of a byte. -/
def hexBytes (b : UInt8) : Bytes := [hexconv (b.toNat / 16), hexconv (b.toNat % 16)]

/-- `my_uni_utf16`, which writes nothing for half of a surrogate pair. -/
def myUniUtf16 (wc : ℕ) : Bytes :=
  if wc ≤ 0xffff then
    if 0xd800 ≤ wc ∧ wc ≤ 0xdfff then [] else [ofNat (wc / 256), ofNat wc]
  else if wc ≤ 0x10ffff then
    let wc := wc - 0x10000
    [ofNat (wc / 2 ^ 18) ||| 0xd8, ofNat (wc / 2 ^ 10),
      ofNat (wc / 2 ^ 8 % 4) ||| 0xdc, ofNat wc]
  else []

/-- `json_append_ascii`. -/
def jsonAppendAscii (cs : CharsetInfo) : Bytes → Writer
  | [] => write []
  | b :: ascii => (cs.put b.toNat).andThen (jsonAppendAscii cs ascii)

/-- The escape of a character of some class: a backslash, the character of the class, and the
digits of its code. -/
def escapedAs (cChr : ℕ) (cClass : EscClass) : Bytes :=
  0x5c :: (if cClass = .bs then ofNat cChr else cClass.chr) ::
    if cClass = .u then (myUniUtf16 cChr).flatMap hexBytes else []

/-- The escape is written, unless it needs a code and there is none. -/
def escapeAs (cs : CharsetInfo) (cChr : ℕ) (cClass : EscClass) : Writer :=
  if cClass = .u ∧ myUniUtf16 cChr = [] then fail else jsonAppendAscii cs (escapedAs cChr cClass)

/-- A character, escaped or not. -/
def escapeChr (cs : CharsetInfo) (cChr : ℕ) : Writer :=
  if 0x60 ≤ cChr ∨ jsonEscapeChrMap cChr = .esc then
    if (cs.wcMb cChr).isNone then escapeAs cs cChr .u else cs.put cChr
  else escapeAs cs cChr (jsonEscapeChrMap cChr)

def jsonEscapeLoop (strCs jsonCs : CharsetInfo) : ℕ → Bytes → Writer
  | _, [] => write []
  | 0, _ :: _ => fail
  | fuel + 1, b :: str =>
    match strCs.mbWc (b :: str) with
    | none => fail
    | some (cChr, str) => (escapeChr jsonCs cChr).andThen (jsonEscapeLoop strCs jsonCs fuel str)

/-- **`json_escape`.** -/
def jsonEscape (strCs : CharsetInfo) (str : Bytes) (jsonCs : CharsetInfo) : Writer :=
  jsonEscapeLoop strCs jsonCs str.length str

/-! ## `json_unescape` -/

/-- `json_errors`. -/
inductive JsonError where
  | eos
  | badChr
  | syn
  | escaping
  deriving DecidableEq

/-- `json_next_char`, and the error if there is none. -/
def jsonNextChar (cs : CharsetInfo) (s : Bytes) : Except JsonError (ℕ × Bytes) :=
  match cs.mbWc s with
  | some p => .ok p
  | none => .error (if s = [] then .eos else .badChr)

/-- `json_instr_chr_map`, with the numbers of `json_string_char_classes`. -/
def jsonInstrChrMap (c : ℕ) : ℕ :=
  if c < 0x20 then 100
  else if 0x30 ≤ c ∧ c ≤ 0x39 then c - 0x30
  else if 0x41 ≤ c ∧ c ≤ 0x46 then c - 0x37
  else if 0x61 ≤ c ∧ c ≤ 0x66 then c - 0x57
  else if c = 0x22 then 37
  else if c = 0x5c then 38
  else 36

def readHexdigit (cs : CharsetInfo) (s : Bytes) : Except JsonError (ℕ × Bytes) := do
  let (c, s) ← jsonNextChar cs s
  if 128 ≤ c ∨ 15 < jsonInstrChrMap c then .error .syn else .ok (jsonInstrChrMap c, s)

/-- `read_4_hexdigits`: two bytes. -/
def read4Hexdigits (cs : CharsetInfo) (s : Bytes) : Except JsonError (ℕ × ℕ × Bytes) := do
  let (t0, s) ← readHexdigit cs s
  let (t1, s) ← readHexdigit cs s
  let (t2, s) ← readHexdigit cs s
  let (t3, s) ← readHexdigit cs s
  .ok (t0 * 16 + t1, t2 * 16 + t3, s)

/-- The code of a character behind `\u`, in `json_handle_esc`. -/
def readCode (cs : CharsetInfo) (s : Bytes) : Except JsonError (ℕ × Bytes) := do
  let (b0, b1, s) ← read4Hexdigits cs s
  if b0 / 4 = 0x36 then
    -- the first half of a surrogate pair
    let (c, s) ← jsonNextChar cs s
    if c ≠ 0x5c then .error .syn
    else
      let (c, s) ← jsonNextChar cs s
      if c ≠ 0x75 then .error .syn
      else
        let (b2, b3, s) ← read4Hexdigits cs s
        if b2 / 4 = 0x37 then
          .ok (b0 % 4 * 2 ^ 18 + b1 * 2 ^ 10 + b2 % 4 * 2 ^ 8 + b3 + 0x10000, s)
        else .error .badChr
  else if b0 / 4 = 0x37 then .error .badChr
  else .ok (b0 * 256 + b1, s)

/-- `json_handle_esc`, behind the backslash. -/
def jsonHandleEsc (cs : CharsetInfo) (s : Bytes) : Except JsonError (ℕ × Bytes) := do
  let (c, s) ← jsonNextChar cs s
  if c = 0x62 then .ok (8, s)
  else if c = 0x66 then .ok (12, s)
  else if c = 0x6e then .ok (10, s)
  else if c = 0x72 then .ok (13, s)
  else if c = 0x74 then .ok (9, s)
  else if c < 128 ∧ jsonInstrChrMap c = 100 then .error .escaping
  else if c ≠ 0x75 then .ok (c, s)
  else readCode cs s

/-- `json_read_string_const_chr`. -/
def jsonReadStringConstChr (cs : CharsetInfo) (s : Bytes) : Except JsonError (ℕ × Bytes) := do
  let (c, s) ← jsonNextChar cs s
  if c = 0x5c then jsonHandleEsc cs s else .ok (c, s)

def jsonUnescapeLoop (jsonCs resCs : CharsetInfo) : ℕ → Bytes → Writer
  | 0, _ => fail
  | fuel + 1, json =>
    match jsonReadStringConstChr jsonCs json with
    | .error e => if e = .eos then write [] else fail
    | .ok (c, json) =>
      -- a character that the result cannot have becomes a question mark
      (resCs.put (if (resCs.wcMb c).isNone then 0x3f else c)).andThen
        (jsonUnescapeLoop jsonCs resCs fuel json)

/-- **`json_unescape`.** -/
def jsonUnescape (jsonCs : CharsetInfo) (json : Bytes) (resCs : CharsetInfo) : Writer :=
  jsonUnescapeLoop jsonCs resCs (json.length + 1) json

/-! ## What is written -/

/-- **What `json_escape` writes for a character.** -/
def escaped (cs : CharsetInfo) (c : ℕ) : Bytes :=
  if 0x60 ≤ c ∨ jsonEscapeChrMap c = .esc then (cs.wcMb c).getD (escapedAs c .u)
  else escapedAs c (jsonEscapeChrMap c)

theorem hexconv_spec : ∀ d < 16, hexconv d < 0x80 ∧ (hexconv d).toNat ≠ 0x5c ∧
    ¬(128 ≤ (hexconv d).toNat ∨ 15 < jsonInstrChrMap (hexconv d).toNat) ∧
    jsonInstrChrMap (hexconv d).toNat = d := by decide

variable {cs : CharsetInfo} {c : ℕ}

/-- An escape is ASCII. -/
theorem lt_of_mem_escapedAs {cClass : EscClass} (hbs : cClass = .bs → c < 0x80) {b : UInt8}
    (h : b ∈ escapedAs c cClass) : b < 0x80 := by
  obtain _ | ⟨_, _ | ⟨_, h⟩⟩ := h
  · decide
  · split_ifs with hclass
    · have hlt := hbs hclass
      refine UInt8.lt_iff_toNat_lt.2 ?_
      rw [toNat_ofNat']
      change c % 256 < 128
      omega
    · cases cClass <;> decide
  · split_ifs at h
    · obtain ⟨x, -, hx⟩ := mem_flatMap.1 h
      have hlt := x.toNat_lt
      obtain _ | ⟨_, _ | ⟨_, hx⟩⟩ := hx
      · exact (hexconv_spec _ (by omega)).1
      · exact (hexconv_spec _ (by omega)).1
      · exact nomatch hx
    · exact nomatch h

theorem put_eq {bytes : Bytes} (h : cs.wcMb c = some bytes) : cs.put c = write bytes := by
  rw [CharsetInfo.put, h]

section

variable (hcs : cs.AsciiCompatible)

include hcs

theorem jsonAppendAscii_eq : ∀ {ascii : Bytes}, (∀ b ∈ ascii, b < 0x80) →
    jsonAppendAscii cs ascii = write ascii
  | [], _ => rfl
  | b :: ascii, h => by
    obtain ⟨hb, h⟩ := forall_mem_cons.1 h
    rw [jsonAppendAscii, put_eq (hcs b hb).1, jsonAppendAscii_eq h, write_andThen]
    rfl

theorem escapeAs_eq (hc : c.isValidChar) (cClass : EscClass) (hbs : cClass = .bs → c < 0x80) :
    escapeAs cs c cClass = write (escapedAs c cClass) := by
  have hcode : myUniUtf16 c ≠ [] := by
    unfold myUniUtf16
    unfold Nat.isValidChar at hc
    split_ifs <;> first | omega | simp
  rw [escapeAs, if_neg fun h => hcode h.2]
  exact jsonAppendAscii_eq hcs fun _ hb => lt_of_mem_escapedAs hbs hb

theorem escapeChr_eq (hc : c.isValidChar) : escapeChr cs c = write (escaped cs c) := by
  unfold escapeChr escaped
  split_ifs with hclass hnone
  · rw [escapeAs_eq hcs hc .u nofun, Option.isNone_iff_eq_none.1 hnone, Option.getD_none]
  · obtain ⟨bytes, hbytes⟩ := Option.ne_none_iff_exists'.1 (mt Option.isNone_iff_eq_none.2 hnone)
    rw [put_eq hbytes, hbytes, Option.getD_some]
  · exact escapeAs_eq hcs hc _ fun _ => by omega

/-- **The whole string.** -/
theorem jsonEscapeLoop_eq {strCs : CharsetInfo} : ∀ {str : List Char} {fuel : ℕ} {s : Bytes},
    (∀ c ∈ str, strCs.Reads c.toNat) → strCs.encode str = some s → s.length ≤ fuel →
      jsonEscapeLoop strCs cs fuel s = write (str.flatMap fun c => escaped cs c.toNat)
  | [], fuel, s, _, hs, _ => by
    cases hs
    cases fuel <;> rfl
  | c :: str, fuel, s, hreads, hs, hfuel => by
    obtain ⟨hread, hreads⟩ := forall_mem_cons.1 hreads
    obtain ⟨bytes, t, hbytes, ht, rfl⟩ := CharsetInfo.exists_of_encode_cons hs
    have hmb := hread hbytes t
    obtain ⟨b, bytes, rfl⟩ := exists_cons_of_ne_nil (hread.ne_nil hbytes)
    rw [cons_append] at hmb hfuel ⊢
    rw [length_cons, length_append] at hfuel
    obtain ⟨fuel, rfl⟩ := Nat.exists_eq_add_one.2 (Nat.zero_lt_of_lt hfuel)
    have hc : c.toNat.isValidChar := c.valid
    rw [jsonEscapeLoop, hmb]
    dsimp only
    rw [escapeChr_eq hcs hc, jsonEscapeLoop_eq hreads ht (by omega), write_andThen, flatMap_cons]

/-! ## What is read -/

omit hcs in
theorem jsonNextChar_append (hread : cs.Reads c) {bytes : Bytes} (h : cs.wcMb c = some bytes)
    (rest : Bytes) : jsonNextChar cs (bytes ++ rest) = .ok (c, rest) := by
  rw [jsonNextChar, hread h]

theorem jsonNextChar_ascii {b : UInt8} (hb : b < 0x80) (rest : Bytes) :
    jsonNextChar cs (b :: rest) = .ok (b.toNat, rest) :=
  jsonNextChar_append (hcs b hb).2 (hcs b hb).1 rest

theorem readHexdigit_hexconv {d : ℕ} (hd : d < 16) (rest : Bytes) :
    readHexdigit cs (hexconv d :: rest) = .ok (d, rest) := by
  obtain ⟨hlt, -, hok, hmap⟩ := hexconv_spec d hd
  rw [readHexdigit, jsonNextChar_ascii hcs hlt]
  refine (if_neg hok).trans ?_
  rw [hmap]

theorem read4Hexdigits_hexBytes (b0 b1 : UInt8) (rest : Bytes) :
    read4Hexdigits cs (hexBytes b0 ++ (hexBytes b1 ++ rest)) = .ok (b0.toNat, b1.toNat, rest) := by
  have h0 := b0.toNat_lt
  have h1 := b1.toNat_lt
  simp (disch := omega) only [read4Hexdigits, hexBytes, cons_append, nil_append, bind,
    Except.bind, readHexdigit_hexconv hcs, Nat.div_add_mod']

/-- The reader understands the escape of a character: not of one behind the BMP that the character
set lacks. -/
def Understood (cs : CharsetInfo) (c : ℕ) : Prop := 0x10000 ≤ c → (cs.wcMb c).isSome

instance : DecidablePred (Understood cs) := fun _ => inferInstanceAs (Decidable (_ → _))

/-- The code of a character of the BMP. -/
theorem readCode_of_lt (hc : c.isValidChar) (hlt : c < 0x10000)
    (rest : Bytes) : readCode cs ((myUniUtf16 c).flatMap hexBytes ++ rest) = .ok (c, rest) := by
  unfold Nat.isValidChar at hc
  have hcode : myUniUtf16 c = [ofNat (c / 256), ofNat c] := by
    rw [myUniUtf16, if_pos (by omega), if_neg (by omega)]
  simp only [hcode, flatMap_cons, flatMap_nil, append_nil, append_assoc,
    readCode]
  rw [read4Hexdigits_hexBytes hcs]
  simp only [bind, Except.bind, toNat_ofNat']
  have hhigh : c / 256 % 2 ^ 8 / 4 ≠ 0x36 := by omega
  have hlow : c / 256 % 2 ^ 8 / 4 ≠ 0x37 := by omega
  have hwc : c / 256 % 2 ^ 8 * 256 + c % 2 ^ 8 = c := by omega
  rw [if_neg hhigh, if_neg hlow, hwc]

/-- Behind half of a surrogate pair the reader finds a digit where it wants a backslash. -/
theorem readCode_of_le (hc : c.isValidChar) (hle : 0x10000 ≤ c)
    (rest : Bytes) : readCode cs ((myUniUtf16 c).flatMap hexBytes ++ rest) = .error .syn := by
  unfold Nat.isValidChar at hc
  obtain ⟨k, b1, b2, b3, hk, hcode⟩ : ∃ k b1 b2 b3, k < 4 ∧
      myUniUtf16 c = [ofNat k ||| 0xd8, b1, b2, b3] := by
    rw [myUniUtf16, if_neg (by omega), if_pos (by omega)]
    exact ⟨_, _, _, _, by omega, rfl⟩
  have hhigh : ∀ k < 4, (ofNat k ||| 0xd8).toNat / 4 = 0x36 := by decide
  have hb := b2.toNat_lt
  obtain ⟨hlt, hne, -⟩ := hexconv_spec (b2.toNat / 16) (by omega)
  simp only [hcode, flatMap_cons, append_assoc, readCode]
  rw [read4Hexdigits_hexBytes hcs]
  simp only [bind, Except.bind]
  rw [if_pos (hhigh k hk), hexBytes, cons_append, jsonNextChar_ascii hcs hlt]
  exact if_pos hne

omit hcs in
/-- The characters with an escape of their own. -/
theorem jsonEscapeChrMap_cases : ∀ c < 0x60, jsonEscapeChrMap c = .esc ∨ jsonEscapeChrMap c = .u ∨
    (c, jsonEscapeChrMap c) ∈ [(8, .b), (9, .t), (10, .n), (12, .f), (13, .r), (0x22, .bs),
      (0x5c, .bs)] := by decide

theorem jsonReadStringConstChr_u (rest : Bytes) :
    jsonReadStringConstChr cs (escapedAs c .u ++ rest) =
      readCode cs ((myUniUtf16 c).flatMap hexBytes ++ rest) := by
  simp [escapedAs, EscClass.chr, jsonReadStringConstChr, jsonHandleEsc, jsonNextChar_ascii hcs,
    bind, Except.bind, jsonInstrChrMap]

/-- **The escape of a character is read**, or not understood. -/
theorem jsonReadStringConstChr_escaped (hc : c.isValidChar) (hread : cs.Reads c)
    (rest : Bytes) : jsonReadStringConstChr cs (escaped cs c ++ rest) =
      if Understood cs c then .ok (c, rest) else .error .syn := by
  have hbmp : c < 0x10000 → Understood cs c := fun h hle => absurd hle (Nat.not_le.2 h)
  unfold escaped
  by_cases hclass : 0x60 ≤ c ∨ jsonEscapeChrMap c = .esc
  · rw [if_pos hclass]
    cases hmb : cs.wcMb c with
    | none =>
      rw [Option.getD_none, jsonReadStringConstChr_u hcs]
      by_cases hlt : c < 0x10000
      · rw [if_pos (hbmp hlt), readCode_of_lt hcs hc hlt]
      · have hle := Nat.not_lt.1 hlt
        have hunder : ¬Understood cs c := fun h => by simpa [hmb] using h hle
        rw [if_neg hunder, readCode_of_le hcs hc hle]
    | some bytes =>
      have hunder : Understood cs c := fun _ => by rw [hmb]; rfl
      have hne : c ≠ 0x5c := by
        rintro rfl
        exact absurd hclass (by decide)
      rw [if_pos hunder, Option.getD_some, jsonReadStringConstChr, jsonNextChar_append hread hmb]
      exact if_neg hne
  · obtain ⟨hlt, hesc⟩ := not_or.1 hclass
    rw [if_neg hclass, if_pos (hbmp (by omega))]
    obtain h | h | h := jsonEscapeChrMap_cases c (Nat.not_le.1 hlt)
    · exact absurd h hesc
    · rw [h, jsonReadStringConstChr_u hcs, readCode_of_lt hcs hc (by omega)]
    · simp only [mem_cons, Prod.mk.injEq, not_mem_nil, or_false] at h
      obtain ⟨rfl, h⟩ | ⟨rfl, h⟩ | ⟨rfl, h⟩ | ⟨rfl, h⟩ | ⟨rfl, h⟩ | ⟨rfl, h⟩ | ⟨rfl, h⟩ := h <;>
        simp [h, escapedAs, EscClass.chr, jsonReadStringConstChr, jsonHandleEsc,
          jsonNextChar_ascii hcs, bind, Except.bind, jsonInstrChrMap]

omit hcs in
theorem escaped_ne_nil (hread : cs.Reads c) : escaped cs c ≠ [] := by
  unfold escaped
  split_ifs
  · cases h : cs.wcMb c with
    | none => exact cons_ne_nil _ _
    | some bytes => exact hread.ne_nil h
  · exact cons_ne_nil _ _

/-- **The whole string**, unless a character in it is not understood. -/
theorem jsonUnescapeLoop_eq {resCs : CharsetInfo} :
    ∀ {str : List Char} {fuel : ℕ} {r : Bytes}, (∀ c ∈ str, cs.Reads c.toNat) →
      resCs.encode str = some r → (str.flatMap fun c => escaped cs c.toNat).length < fuel →
      jsonUnescapeLoop cs resCs fuel (str.flatMap fun c => escaped cs c.toNat) =
        if str.all (Understood cs ·.toNat) then write r else fail
  | _, 0, _, _, _, hfuel => absurd hfuel (Nat.not_lt_zero _)
  | [], fuel + 1, r, _, hr, _ => by
    cases hr
    have hread : jsonReadStringConstChr cs [] = .error .eos := by
      rw [jsonReadStringConstChr, jsonNextChar, cs.mbWc_nil]
      rfl
    rw [flatMap_nil, jsonUnescapeLoop, hread]
    rfl
  | c :: str, fuel + 1, r, hreads, hr, hfuel => by
    obtain ⟨hread, hreads⟩ := forall_mem_cons.1 hreads
    obtain ⟨bytes, t, hbytes, ht, rfl⟩ := CharsetInfo.exists_of_encode_cons hr
    have hpos := length_pos_iff.2 (escaped_ne_nil hread)
    rw [flatMap_cons] at hfuel ⊢
    rw [length_append] at hfuel
    rw [jsonUnescapeLoop,
      jsonReadStringConstChr_escaped hcs (show c.toNat.isValidChar from c.valid) hread]
    by_cases hunder : Understood cs c.toNat
    · rw [if_pos hunder]
      dsimp only
      rw [jsonUnescapeLoop_eq hreads ht (by omega), hbytes, if_neg (by simp), put_eq hbytes]
      simp only [all_cons, hunder, decide_true, Bool.true_and]
      split_ifs
      · exact write_andThen bytes t
      · exact write_andThen_fail bytes
    · rw [if_neg hunder, if_neg (by simp [hunder])]
      rfl

end

/-- **An escaped string is restored exactly if the reader understands all of it**: the character set
of the JSON has every character of it that is behind the BMP. -/
theorem jsonEscape_restored_iff {strCs jsonCs resCs : CharsetInfo} {str : List Char} {s r : Bytes}
    (hcs : jsonCs.AsciiCompatible)
    (hreads : ∀ c ∈ str, strCs.Reads c.toNat ∧ jsonCs.Reads c.toNat)
    (hs : strCs.encode str = some s) (hr : resCs.encode str = some r) :
    (∀ room json, jsonEscape strCs s jsonCs room = some json →
      ∀ resRoom, r.length ≤ resRoom → jsonUnescape jsonCs json resCs resRoom = some r) ↔
    ∀ c ∈ str, Understood jsonCs c.toNat := by
  have hread := jsonUnescapeLoop_eq hcs (fun c hc => (hreads c hc).2) hr (Nat.lt_succ_self _)
  have hall : str.all (Understood jsonCs ·.toNat) = true
      ↔ ∀ c ∈ str, Understood jsonCs c.toNat := by
    simp
  rw [← hall]
  unfold jsonEscape jsonUnescape
  rw [jsonEscapeLoop_eq hcs (fun c hc => (hreads c hc).1) hs (Nat.le_refl _)]
  constructor
  · intro h
    by_contra hbad
    have := h _ _ (if_pos (Nat.le_refl _)) _ (Nat.le_refl _)
    rw [hread, if_neg hbad] at this
    exact nomatch this
  · intro hgood room json hjson resRoom hroom
    obtain rfl : _ = json := by
      unfold write at hjson
      split_ifs at hjson
      exact Option.some.inj hjson
    rw [hread, if_pos hgood]
    exact if_pos hroom

/-- `ascii`. -/
def ascii : CharsetInfo where
  wcMb wc := if wc < 0x80 then some [ofNat wc] else none
  mbWc
    | [] => none
    | b :: rest => some (b.toNat, rest)
  mbWc_nil := rfl

theorem reads_ascii (wc : ℕ) : ascii.Reads wc := by
  intro bytes h rest
  simp only [ascii] at h ⊢
  split_ifs at h
  cases h
  simp only [cons_append, nil_append, toNat_ofNat']
  rw [Nat.mod_eq_of_lt (by omega)]

/-- `utf32`. -/
def utf32 : CharsetInfo where
  wcMb wc := if wc < 256 ^ 4 then
    some [.ofNat (wc / 256 ^ 3), .ofNat (wc / 256 ^ 2), .ofNat (wc / 256), .ofNat wc] else none
  mbWc
    | a :: b :: c :: d :: rest =>
      some (a.toNat * 256 ^ 3 + b.toNat * 256 ^ 2 + c.toNat * 256 + d.toNat, rest)
    | _ => none
  mbWc_nil := rfl

theorem reads_utf32 (wc : ℕ) : utf32.Reads wc := by
  intro bytes h rest
  simp only [utf32] at h ⊢
  split_ifs at h
  cases h
  simp only [cons_append, nil_append, toNat_ofNat', Option.some.injEq, Prod.mk.injEq,
    and_true]
  omega

theorem asciiCompatible_ascii : ascii.AsciiCompatible := by
  intro b hb
  have hlt : b.toNat < 0x80 := hb
  exact ⟨by simp [ascii, hlt], reads_ascii _⟩

/-- `\uD83DDE00`. -/
def emojiJson : Bytes := [0x5c, 0x75, 0x44, 0x38, 0x33, 0x44, 0x44, 0x45, 0x30, 0x30]

/-- **U+1F600 does not come back from ASCII**: the reader stops at the `D` behind the first four
digits. -/
theorem jsonUnescape_emoji : jsonEscape utf32 [0, 1, 0xf6, 0] ascii 10 = some emojiJson ∧
    jsonUnescape ascii emojiJson utf32 4 = none := by
  decide +kernel

/-- A quote, and a character that ASCII lacks, come back. -/
theorem jsonEscape_restored_sample : ascii.AsciiCompatible ∧ ascii.wcMb 0xe9 = none ∧
    utf32.encode ['"', 'é'] = some [0, 0, 0, 0x22, 0, 0, 0, 0xe9] ∧ ∀ room json,
      jsonEscape utf32 [0, 0, 0, 0x22, 0, 0, 0, 0xe9] ascii room = some json →
        ∀ resRoom, 8 ≤ resRoom →
          jsonUnescape ascii json utf32 resRoom = some [0, 0, 0, 0x22, 0, 0, 0, 0xe9] := by
  have hs : utf32.encode ['"', 'é'] = some [0, 0, 0, 0x22, 0, 0, 0, 0xe9] := by decide +kernel
  exact ⟨asciiCompatible_ascii, rfl, hs, (jsonEscape_restored_iff asciiCompatible_ascii
    (fun _ _ => ⟨reads_utf32 _, reads_ascii _⟩) hs hs).2
      (forall_mem_cons.2 ⟨by decide, forall_mem_singleton.2 (by decide)⟩)⟩

end Json

end EloqSql
