import Mathlib.Algebra.Group.Nat.Defs
import Mathlib.Data.List.Basic

/-!
# Buff — the string and bit readers and writers of `eloq_buff.h`

A `mono_string_reader` is the string still to be read; reading returns what was read and the reader
after it, or fails and the caller gives up. A `mono_string_writer` is the string written so far.
The bit writer and the bit reader put a value of `size` bits into the unpack info: from its high
bits down, as many at a time as the current byte still has room for.
-/

namespace EloqSql

/-- A string of `uchar`. -/
abbrev Bytes := List UInt8

/-! ## `mono_string_reader` -/

namespace StringReader

/-- `read`: the next `size` bytes, if there are that many. -/
def read (size : ℕ) (r : Bytes) : Option (Bytes × Bytes) :=
  if r.length < size then none else some (r.take size, r.drop size)

/-- `read_uint8`. -/
def readUint8 : Bytes → Option (ℕ × Bytes)
  | [] => none
  | b :: r => some (b.toNat, r)

/-- `read_uint16`, in network byte order. -/
def readUint16 : Bytes → Option (ℕ × Bytes)
  | hi :: lo :: r => some (hi.toNat * 256 + lo.toNat, r)
  | _ => none

@[simp] theorem read_append {n : ℕ} {u : Bytes} (h : u.length = n) (r : Bytes) :
    read n (u ++ r) = some (u, r) := by
  subst h
  simp [read]

end StringReader

/-! ## `mono_string_writer` -/

/-- `write_uint8`: the byte appended for `val`. -/
def writeUint8 (val : ℕ) : Bytes := [UInt8.ofNat val]

/-- `write_uint16`: the two bytes appended for `val`, in network byte order. -/
def writeUint16 (val : ℕ) : Bytes := [UInt8.ofNat (val / 256), UInt8.ofNat val]

@[simp] theorem readUint8_writeUint8 {val : ℕ} (h : val < 256) (r : Bytes) :
    StringReader.readUint8 (writeUint8 val ++ r) = some (val, r) := by
  simp [writeUint8, StringReader.readUint8, UInt8.toNat_ofNat', Nat.mod_eq_of_lt h]

@[simp] theorem readUint16_writeUint16 {val : ℕ} (h : val < 65536) (r : Bytes) :
    StringReader.readUint16 (writeUint16 val ++ r) = some (val, r) := by
  simp only [writeUint16, List.cons_append, List.nil_append, StringReader.readUint16,
    UInt8.toNat_ofNat', Option.some.injEq, Prod.mk.injEq, and_true]
  omega

/-! ## `mono_bit_writer` and `mono_bit_reader` -/

/-- A `mono_bit_writer`: the writer it appends to, and the bits in use in the last byte. -/
structure BitWriter where
  /-- `m_writer`. -/
  data : Bytes
  /-- `m_offset`. -/
  offset : ℕ

/-- A fresh bit writer starts a new byte. -/
def BitWriter.ofWriter (data : Bytes) : BitWriter := ⟨data, 0⟩

/-- `*last_byte |= v`. -/
def orLast : Bytes → UInt8 → Bytes
  | [], _ => []
  | [b], v => [b ||| v]
  | b :: c :: u, v => b :: orLast (c :: u) v

/-- One turn of the loop of `mono_bit_writer::write`: the bits that fit into the current byte. -/
def BitWriter.writeChunk (w : BitWriter) (bits chunk : ℕ) : BitWriter :=
  let data := if w.offset = 0 then w.data ++ [0] else w.data
  ⟨orLast data (UInt8.ofNat (chunk <<< w.offset)), (w.offset + bits) % 8⟩

/-- `mono_bit_writer::write`; every turn writes at least one bit. -/
def BitWriter.writeLoop (value : ℕ) : ℕ → ℕ → BitWriter → BitWriter
  | 0, _, w => w
  | _ + 1, 0, w => w
  | fuel + 1, size + 1, w =>
    let bits := min (size + 1) (8 - w.offset)
    let chunk := (value >>> (size + 1 - bits)) % 2 ^ bits
    writeLoop value fuel (size + 1 - bits) (w.writeChunk bits chunk)

@[inherit_doc BitWriter.writeLoop]
def BitWriter.write (w : BitWriter) (size value : ℕ) : BitWriter := writeLoop value size size w

/-- A `mono_bit_reader`: the current byte, the bits already read of it, and the string reader. -/
structure BitReader where
  /-- `*m_cur`. -/
  cur : UInt8
  /-- `m_offset`. -/
  offset : ℕ
  /-- `m_reader`. -/
  reader : Bytes

/-- A fresh bit reader fetches a new byte first. -/
def BitReader.ofReader (r : Bytes) : BitReader := ⟨0, 0, r⟩

/-- Fetch a byte if the current one is used up. -/
def BitReader.fetch (r : BitReader) : Option BitReader :=
  if r.offset = 0 then
    match r.reader with
    | [] => none
    | b :: rest => some { r with cur := b, reader := rest }
  else some r

/-- `mono_bit_reader::read`; `ret` is `m_ret` so far. -/
def BitReader.readLoop : ℕ → ℕ → ℕ → BitReader → Option (ℕ × BitReader)
  | 0, _, ret, r => some (ret, r)
  | _ + 1, 0, ret, r => some (ret, r)
  | fuel + 1, size + 1, ret, r =>
    match r.fetch with
    | none => none
    | some r =>
      let bits := min (8 - r.offset) (size + 1)
      let ret := (ret <<< bits) ||| (r.cur.toNat >>> r.offset) % 2 ^ bits
      readLoop fuel (size + 1 - bits) ret { r with offset := (r.offset + bits) % 8 }

@[inherit_doc BitReader.readLoop]
def BitReader.read (r : BitReader) (size : ℕ) : Option (ℕ × BitReader) := readLoop size size 0 r

end EloqSql
