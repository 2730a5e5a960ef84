import EloqSql.Buff
import EloqSql.Lib.BitStream

/-!
# Image/Bits — what the bit writer writes the bit reader reads

The bit writer emits the chunks of the numbers it is given (`BitWriter.data_writeAll`). A bit reader
that stands before some chunks (`BitReader.At`) reads the first number and stands before the others
(`BitReader.At.read`), so it may stop after any of them; `BitReader.At.reader_eq` says how many
bytes it has not fetched then.
-/

namespace EloqSql

open BitStream List
open Nat (mod_eq_of_lt mod_lt)

theorem ofNat_or {cur v off b : ℕ} (hc : cur < 2 ^ off) (hv : v < 2 ^ b) (h : off + b ≤ 8) :
    UInt8.ofNat cur ||| UInt8.ofNat (v <<< off) = UInt8.ofNat (cur + v * 2 ^ off) := by
  have hlt : cur + v * 2 ^ off < 256 :=
    (add_mul_lt hc hv).trans_le (Nat.pow_le_pow_right (by decide) h)
  have hor : cur + v * 2 ^ off = cur ||| v <<< off := by
    rw [Nat.add_comm, Nat.mul_comm, Nat.two_pow_add_eq_or_of_lt hc, Nat.shiftLeft_eq, Nat.mul_comm,
      Nat.or_comm]
  refine UInt8.toNat_inj.mp ?_
  rw [UInt8.toNat_or, UInt8.toNat_ofNat', UInt8.toNat_ofNat', UInt8.toNat_ofNat', Nat.shiftLeft_eq,
    mod_eq_of_lt (show cur < 256 by omega), mod_eq_of_lt (show v * 2 ^ off < 256 by omega),
    mod_eq_of_lt hlt, hor, Nat.shiftLeft_eq]

/-! ## Writing -/

namespace BitWriter

theorem orLast_append (pre : Bytes) (a v : UInt8) : orLast (pre ++ [a]) v = pre ++ [a ||| v] := by
  induction pre with
  | nil => rfl
  | cons b pre ih =>
    cases pre with
    | nil => rfl
    | cons c pre =>
      rw [cons_append, cons_append, orLast, ← cons_append, ih]
      rfl

/-- **A writer has finished some bytes and has a number in the last one.** -/
def Holds (w : BitWriter) (pre : Bytes) (cur : ℕ) : Prop :=
  cur < 2 ^ w.offset ∧ w.data = pre ++ if w.offset = 0 then [] else [UInt8.ofNat cur]

theorem data_writeChunk {w : BitWriter} {pre : Bytes} {cur b v : ℕ} (hw : w.Holds pre cur)
    (hv : v < 2 ^ b) (hle : w.offset + b ≤ 8) :
    (w.writeChunk b v).data = pre ++ [UInt8.ofNat (cur + v * 2 ^ w.offset)] := by
  obtain ⟨hc, hd⟩ := hw
  rw [← ofNat_or hc hv hle, writeChunk]
  simp only
  by_cases ho : w.offset = 0
  · obtain rfl : cur = 0 := by simpa [ho] using hc
    rw [if_pos ho, append_nil] at hd
    rw [if_pos ho, hd, orLast_append]
    rfl
  · rw [if_neg ho] at hd ⊢
    rw [hd, orLast_append]

/-- **The writer emits the chunks.** -/
theorem data_writeChunks : ∀ {cs : List (ℕ × ℕ)} {w : BitWriter} {pre : Bytes} {cur : ℕ},
    w.Holds pre cur → Fits 8 w.offset cs →
      (cs.foldl (fun w c => w.writeChunk c.1 c.2) w).data
        = pre ++ (emit 8 w.offset cur cs).map UInt8.ofNat
  | [], w, pre, cur, hw, _ => by
      rw [foldl_nil, hw.2, emit]
      split_ifs <;> rfl
  | (b, v) :: cs, w, pre, cur, hw, ⟨hb, hle, hv, hf⟩ => by
      have hdata := data_writeChunk hw hv hle
      have hoff : (w.writeChunk b v).offset = (w.offset + b) % 8 := rfl
      rw [foldl_cons, emit]
      split_ifs with h8
      · rw [h8, Nat.mod_self] at hoff hf
        have hnext : (w.writeChunk b v).Holds (pre ++ [UInt8.ofNat (cur + v * 2 ^ w.offset)]) 0 :=
          ⟨by rw [hoff]; decide, by rw [hdata, hoff, if_pos rfl, append_nil]⟩
        rw [data_writeChunks hnext (hoff ▸ hf), hoff, append_assoc]
        rfl
      · rw [mod_eq_of_lt (by omega)] at hoff hf
        have hnext : (w.writeChunk b v).Holds pre (cur + v * 2 ^ w.offset) :=
          ⟨by rw [hoff]; exact add_mul_lt hw.1 hv, by rw [hdata, hoff, if_neg (by omega)]⟩
        rw [data_writeChunks hnext (hoff ▸ hf), hoff]

theorem writeLoop_eq (value : ℕ) : ∀ (fuel n : ℕ) (w : BitWriter),
    writeLoop value fuel n w
      = (chunks 8 value fuel w.offset n).foldl (fun w c => w.writeChunk c.1 c.2) w
  | 0, _, _ => rfl
  | _ + 1, 0, _ => rfl
  | fuel + 1, n + 1, w => by
      rw [writeLoop, writeLoop_eq value fuel, chunks, foldl_cons, Nat.shiftRight_eq_div_pow]
      rfl

theorem offset_writeLoop (value : ℕ) : ∀ {fuel n : ℕ} {w : BitWriter}, n ≤ fuel → w.offset < 8 →
    (writeLoop value fuel n w).offset = (w.offset + n) % 8
  | 0, n, w, hn, ho => by
      obtain rfl : n = 0 := by omega
      rw [writeLoop, Nat.add_zero, mod_eq_of_lt ho]
  | _ + 1, 0, w, _, ho => by rw [writeLoop, Nat.add_zero, mod_eq_of_lt ho]
  | fuel + 1, n + 1, w, hn, ho => by
      rw [writeLoop, offset_writeLoop value (by omega) (mod_lt _ (by decide))]
      simp only [writeChunk]
      omega

end BitWriter

/-- The chunks of numbers, given with their sizes, from an offset on. -/
def numberChunks : ℕ → List (ℕ × ℕ) → List (ℕ × ℕ)
  | _, [] => []
  | off, (n, value) :: xs => chunks 8 value n off n ++ numberChunks ((off + n) % 8) xs

theorem fits_numberChunks : ∀ {xs : List (ℕ × ℕ)} {off : ℕ}, off < 8 →
    Fits 8 off (numberChunks off xs)
  | [], _, ho => ho
  | (_, _) :: _, _, ho =>
    fits_chunks le_rfl ho (fits_numberChunks (mod_lt _ (by decide)))

theorem size_numberChunks : ∀ {xs : List (ℕ × ℕ)} {off : ℕ}, off < 8 →
    size (numberChunks off xs) = size xs
  | [], _, _ => rfl
  | (n, value) :: xs, off, ho => by
      rw [numberChunks, size_append, size_chunks value le_rfl ho,
        size_numberChunks (mod_lt _ (by decide)), size_cons]

theorem foldl_write : ∀ {xs : List (ℕ × ℕ)} {w : BitWriter}, w.offset < 8 →
    xs.foldl (fun w x => w.write x.1 x.2) w
      = (numberChunks w.offset xs).foldl (fun w c => w.writeChunk c.1 c.2) w
  | [], _, _ => rfl
  | (n, value) :: xs, w, ho => by
      have hoff := BitWriter.offset_writeLoop value (le_refl n) ho
      rw [foldl_cons, numberChunks, foldl_append, ← BitWriter.writeLoop_eq]
      rw [← hoff, ← foldl_write (by rw [hoff]; exact mod_lt _ (by decide))]
      rfl

/-- **The bytes of some numbers.** -/
theorem data_writeAll (pre : Bytes) (xs : List (ℕ × ℕ)) :
    (xs.foldl (fun w x => w.write x.1 x.2) (BitWriter.ofWriter pre)).data
      = pre ++ (emit 8 0 0 (numberChunks 0 xs)).map UInt8.ofNat := by
  have hw : (BitWriter.ofWriter pre).Holds pre 0 := ⟨Nat.one_pos, (append_nil pre).symm⟩
  rw [foldl_write (Nat.zero_lt_succ 7)]
  exact BitWriter.data_writeChunks hw (fits_numberChunks (Nat.zero_lt_succ 7))

/-! ## Reading -/

namespace BitReader

variable {r : BitReader} {cs : List (ℕ × ℕ)} {rest : Bytes}

/-- The bytes that are still to be used: the current one, if some of its bits are, and those not
fetched. -/
def pending (r : BitReader) : Bytes := if r.offset = 0 then r.reader else r.cur :: r.reader

/-- **A reader stands before some chunks**, with other bytes after them. -/
def At (r : BitReader) (cs : List (ℕ × ℕ)) (rest : Bytes) : Prop :=
  Fits 8 r.offset cs ∧ ∃ cur, cur < 2 ^ r.offset ∧
    r.pending = (emit 8 r.offset cur cs).map UInt8.ofNat ++ rest

theorem fetch_eq {b : UInt8} {tail : Bytes} (h : r.pending = b :: tail) :
    r.fetch = some ⟨b, r.offset, tail⟩ := by
  obtain ⟨cur, off, reader⟩ := r
  rw [pending] at h
  rw [fetch]
  split_ifs at h ⊢ with ho
  · rw [h]
  · obtain ⟨rfl, rfl⟩ := List.cons.inj h
    rfl

/-- One turn of the reader's loop takes one chunk. -/
theorem At.chunk {b v : ℕ}
    (h : r.At ((b, v) :: cs) rest) : ∃ r', r.fetch = some r' ∧ r'.offset = r.offset ∧
      (r'.cur.toNat >>> r'.offset) % 2 ^ b = v ∧
      At { r' with offset := (r'.offset + b) % 8 } cs rest := by
  obtain ⟨hf, cur, hc, hp⟩ := h
  obtain ⟨c, tail, he, hv, hlt, hnext⟩ := emit_cons hf hc
  rw [he, map_cons, cons_append] at hp
  refine ⟨_, fetch_eq hp, rfl, ?_, hf.2.2.2, ?_⟩
  · rw [UInt8.toNat_ofNat', mod_eq_of_lt hlt, Nat.shiftRight_eq_div_pow, hv]
  · simp only
    split_ifs at hnext with h8
    · refine ⟨0, Nat.two_pow_pos _, ?_⟩
      simp [pending, h8, hnext]
    · have hle := hf.2.1
      have hpos : r.offset + b ≠ 0 := by have := hf.1; omega
      rw [mod_eq_of_lt (show r.offset + b < 8 by omega), pending, if_neg hpos]
      refine ⟨cur + v * 2 ^ r.offset, add_mul_lt hc hf.2.2.1, ?_⟩
      rw [hnext]
      rfl

theorem shift_or {ret b v : ℕ} (hv : v < 2 ^ b) : ret <<< b ||| v = ret * 2 ^ b + v := by
  rw [Nat.mul_comm, Nat.two_pow_add_eq_or_of_lt hv, Nat.shiftLeft_eq, Nat.mul_comm]

/-- The loop takes the chunks of a number, by induction on its fuel. -/
theorem At.readLoop {value : ℕ} : ∀ {fuel n ret : ℕ} {r : BitReader}, n ≤ fuel →
      r.At (chunks 8 value fuel r.offset n ++ cs) rest →
      ∃ r', BitReader.readLoop fuel n ret r
          = some (joinChunks ret (chunks 8 value fuel r.offset n), r') ∧
        r'.offset = (r.offset + n) % 8 ∧ r'.At cs rest
  | 0, n, ret, r, hn, h => by
      obtain rfl : n = 0 := by omega
      exact ⟨r, rfl, (mod_eq_of_lt h.1.lt).symm, h⟩
  | _ + 1, 0, ret, r, _, h => ⟨r, rfl, (mod_eq_of_lt h.1.lt).symm, h⟩
  | fuel + 1, n + 1, ret, r, hn, h => by
      have ho := h.1.lt
      rw [chunks, cons_append] at h
      obtain ⟨r₁, hfetch, ho₁, hv, hnext⟩ := h.chunk
      rw [← ho₁] at hv hnext ho ⊢
      obtain ⟨r', hr, hoff, hat⟩ := hnext.readLoop (by omega)
      refine ⟨r', ?_, ?_, hat⟩
      · rw [BitReader.readLoop, hfetch]
        simp only
        rw [Nat.min_comm, hv, shift_or (mod_lt _ (Nat.two_pow_pos _)), hr, chunks, joinChunks,
          joinChunks, foldl_cons]
      · rw [hoff]
        simp only
        omega

/-- **A number is read back**, and the reader stands before what was written after it. -/
theorem At.read {n value : ℕ}
    (h : r.At (chunks 8 value n r.offset n ++ cs) rest) (hv : value < 2 ^ n) :
    ∃ r', BitReader.read r n = some (value, r') ∧ r'.offset = (r.offset + n) % 8 ∧
      r'.At cs rest := by
  obtain ⟨r', hr, hoff, hat⟩ := h.readLoop le_rfl
  rw [joinChunks_chunks value le_rfl h.1.lt, Nat.zero_mul, Nat.zero_add, mod_eq_of_lt hv] at hr
  exact ⟨r', hr, hoff, hat⟩

/-- A fresh reader stands before all that was written. -/
theorem at_ofReader (xs : List (ℕ × ℕ)) (rest : Bytes) :
    (ofReader ((xs.foldl (fun w x => w.write x.1 x.2) (BitWriter.ofWriter [])).data ++ rest)).At
      (numberChunks 0 xs) rest :=
  ⟨fits_numberChunks (Nat.zero_lt_succ 7), 0, Nat.one_pos, by rw [data_writeAll]; rfl⟩

/-- **Where a reader has stopped**: the bytes it has not fetched. -/
theorem At.reader_eq (h : r.At cs rest) : ∃ tail, r.reader = tail ++ rest ∧
      tail.length + (if r.offset = 0 then 0 else 1) = (r.offset + size cs + 7) / 8 := by
  obtain ⟨hf, cur, hc, hp⟩ := h
  rw [pending] at hp
  have hlen : (emit 8 r.offset cur cs).length = _ := length_emit hf
  split_ifs at hp ⊢ with ho
  · exact ⟨_, hp, by rw [length_map, hlen]; rfl⟩
  · obtain ⟨c, tail, he, -, -⟩ := emit_head hf ho hc
    rw [he, map_cons, cons_append] at hp
    rw [he, length_cons] at hlen
    exact ⟨_, (List.cons.inj hp).2, by rw [length_map]; exact hlen⟩

/-- After `n` bits the reader has fetched all bytes that were written if the numbers that are left
fill no other byte. -/
theorem At.reader_eq_iff {n : ℕ} {xs : List (ℕ × ℕ)}
    (h : r.At (numberChunks r.offset xs) rest) (hn : r.offset = n % 8) :
    r.reader = rest ↔ (n + 7) / 8 = (n + size xs + 7) / 8 := by
  obtain ⟨tail, hr, hlen⟩ := h.reader_eq
  rw [size_numberChunks h.1.lt, hn] at hlen
  rw [hr, append_left_eq_self, ← length_eq_zero_iff]
  split_ifs at hlen <;> omega

/-- Numbers of some sizes, read one after the other. -/
def readAll : BitReader → List ℕ → Option (List ℕ × BitReader)
  | r, [] => some ([], r)
  | r, n :: ns => do
    let (value, r) ← r.read n
    let (values, r) ← readAll r ns
    some (value :: values, r)

theorem At.readAll : ∀ {xs : List (ℕ × ℕ)} {r : BitReader}, r.At (numberChunks r.offset xs) rest →
    (∀ x ∈ xs, x.2 < 2 ^ x.1) →
      ∃ r', r.readAll (xs.map Prod.fst) = some (xs.map Prod.snd, r') ∧ r'.reader = rest
  | [], r, h, _ => ⟨r, rfl, (h.reader_eq_iff (mod_eq_of_lt h.1.lt).symm).mpr rfl⟩
  | (n, value) :: xs, r, h, hx => by
      obtain ⟨r₁, hread, hoff, hat⟩ := h.read (hx _ mem_cons_self)
      rw [← hoff] at hat
      obtain ⟨r', hall, hrest⟩ := hat.readAll fun x hmem => hx x (mem_cons_of_mem _ hmem)
      exact ⟨r', by simp [BitReader.readAll, hread, hall], hrest⟩

/-- **The numbers of a bit stream are read back**, and the reader is left where what was written
after the stream begins. -/
theorem readAll_writeAll (pre rest : Bytes) (xs : List (ℕ × ℕ))
    (hxs : ∀ x ∈ xs, x.1 ≤ 8 ∧ x.2 < 2 ^ x.1) :
    ∃ bytes r,
      (xs.foldl (fun w x => w.write x.1 x.2) (BitWriter.ofWriter pre)).data = pre ++ bytes ∧
      (ofReader (bytes ++ rest)).readAll (xs.map Prod.fst) = some (xs.map Prod.snd, r) ∧
      r.reader = rest := by
  have hat := at_ofReader xs rest
  rw [data_writeAll, nil_append] at hat
  obtain ⟨r, hr⟩ := At.readAll hat fun x hx => (hxs x hx).2
  exact ⟨_, r, data_writeAll pre xs, hr⟩

theorem readAll_writeAll_straddle :
    let xs := [(3, 5), (0, 0), (8, 200), (6, 33)]
    (∀ x ∈ xs, x.1 ≤ 8 ∧ x.2 < 2 ^ x.1) ∧ ∃ bytes r,
      (xs.foldl (fun w x => w.write x.1 x.2) (BitWriter.ofWriter [7])).data = [7] ++ bytes ∧
      (ofReader (bytes ++ [9])).readAll (xs.map Prod.fst) = some (xs.map Prod.snd, r) ∧
      r.reader = [9] :=
  ⟨by decide, readAll_writeAll [7] [9] _ (by decide)⟩

end BitReader

end EloqSql
