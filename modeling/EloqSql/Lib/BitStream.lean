import Mathlib.Data.Nat.ModEq
import Mathlib.Algebra.BigOperators.Group.List.Basic

/-!
# Lib/BitStream — numbers of different sizes packed into words

A stream of words of `W` bits is written in **chunks** `(b, v)`: the value `v` goes into the next
`b` bits of the current word, which no chunk may overrun (`Fits`). `emit` is the words that come
out, the last one unfinished. A reader that knows the sizes finds each chunk where it was put
(`emit_cons`), whatever is written after it.

A number of `size` bits is cut into `chunks` from its high bits down, and put together again by
`joinChunks`.
-/

namespace BitStream

open List
open Nat (mod_eq_of_lt mod_lt two_pow_pos)

variable {W : ℕ}

/-- **The chunks fit into words** when the first one comes at an offset. -/
def Fits (W : ℕ) : ℕ → List (ℕ × ℕ) → Prop
  | off, [] => off < W
  | off, (b, v) :: cs => 0 < b ∧ off + b ≤ W ∧ v < 2 ^ b ∧ Fits W ((off + b) % W) cs

/-- The words of some chunks; `cur` is in the first `off` bits of the current word. -/
def emit (W : ℕ) : ℕ → ℕ → List (ℕ × ℕ) → List ℕ
  | off, cur, [] => if off = 0 then [] else [cur]
  | off, cur, (b, v) :: cs =>
    if off + b = W then (cur + v * 2 ^ off) :: emit W 0 0 cs
    else emit W (off + b) (cur + v * 2 ^ off) cs

/-- The bits of some chunks. -/
def size (cs : List (ℕ × ℕ)) : ℕ := (cs.map Prod.fst).sum

@[simp] theorem size_cons (c : ℕ × ℕ) (cs : List (ℕ × ℕ)) : size (c :: cs) = c.1 + size cs := rfl

theorem size_append (cs cs' : List (ℕ × ℕ)) : size (cs ++ cs') = size cs + size cs' := by
  rw [size, map_append, sum_append]
  rfl

theorem Fits.lt : ∀ {off : ℕ} {cs : List (ℕ × ℕ)}, Fits W off cs → off < W
  | _, [], h => h
  | _, (_, _) :: _, h => by
      have := h.1
      have := h.2.1
      omega

theorem add_mul_lt {cur v off b : ℕ} (hc : cur < 2 ^ off) (hv : v < 2 ^ b) :
    cur + v * 2 ^ off < 2 ^ (off + b) := by
  calc cur + v * 2 ^ off < 2 ^ off + v * 2 ^ off := Nat.add_lt_add_right hc _
    _ = (v + 1) * 2 ^ off := by rw [Nat.add_mul, Nat.one_mul, Nat.add_comm]
    _ ≤ 2 ^ b * 2 ^ off := Nat.mul_le_mul_right _ hv
    _ = 2 ^ (off + b) := by rw [Nat.add_comm off, Nat.pow_add]

/-- An unfinished word keeps what is in it. The induction is on the chunks, of which only the first
few go into this word. -/
theorem emit_head : ∀ {off cur : ℕ} {cs : List (ℕ × ℕ)}, Fits W off cs → off ≠ 0 →
    cur < 2 ^ off → ∃ c tail, emit W off cur cs = c :: tail ∧ c % 2 ^ off = cur ∧ c < 2 ^ W
  | off, cur, [], hf, ho, hc => by
      refine ⟨cur, [], if_neg ho, mod_eq_of_lt hc, hc.trans_le ?_⟩
      exact Nat.pow_le_pow_right (by decide) (Nat.le_of_lt hf)
  | off, cur, (b, v) :: cs, ⟨hb, hle, hv, hf⟩, ho, hc => by
      have hlt := add_mul_lt hc hv
      have hmod : (cur + v * 2 ^ off) % 2 ^ off = cur := by
        rw [Nat.add_mul_mod_self_right, mod_eq_of_lt hc]
      rw [emit]
      split_ifs with hw
      · exact ⟨_, _, rfl, hmod, hw ▸ hlt⟩
      · rw [mod_eq_of_lt (by omega)] at hf
        obtain ⟨c, tail, he, hcur, hcw⟩ := emit_head hf (by omega) hlt
        refine ⟨c, tail, he, ?_, hcw⟩
        rw [← hmod, ← hcur, Nat.mod_mod_of_dvd _ (Nat.pow_dvd_pow 2 (Nat.le_add_right off b))]

/-- **A chunk is found where it was put**: the current word holds it at its offset, and the rest of
the stream is that of the other chunks. -/
theorem emit_cons {off cur b v : ℕ} {cs : List (ℕ × ℕ)} (hf : Fits W off ((b, v) :: cs))
    (hc : cur < 2 ^ off) : ∃ c tail, emit W off cur ((b, v) :: cs) = c :: tail ∧
      c / 2 ^ off % 2 ^ b = v ∧ c < 2 ^ W ∧
      if off + b = W then tail = emit W 0 0 cs
      else emit W (off + b) (cur + v * 2 ^ off) cs = c :: tail := by
  obtain ⟨hb, hle, hv, hf⟩ := hf
  have hlt := add_mul_lt hc hv
  have hdiv : (cur + v * 2 ^ off) / 2 ^ off = v := by
    rw [Nat.add_mul_div_right _ _ (two_pow_pos off), Nat.div_eq_of_lt hc, Nat.zero_add]
  rw [emit]
  split_ifs with hw
  · exact ⟨_, _, rfl, by rw [hdiv, mod_eq_of_lt hv], hw ▸ hlt, rfl⟩
  · rw [mod_eq_of_lt (by omega)] at hf
    obtain ⟨c, tail, he, hcur, hcw⟩ := emit_head hf (by omega) hlt
    refine ⟨c, tail, he, ?_, hcw, he⟩
    rw [Nat.pow_add, Nat.mod_mul] at hcur
    rw [← hdiv, ← hcur, Nat.add_mul_div_left _ _ (two_pow_pos off),
      Nat.div_eq_of_lt (mod_lt _ (two_pow_pos off)), Nat.zero_add]

/-- As many words come out as the bits fill. -/
theorem length_emit : ∀ {off cur : ℕ} {cs : List (ℕ × ℕ)}, Fits W off cs →
    (emit W off cur cs).length = (off + size cs + W - 1) / W
  | off, cur, [], hf => by
      have hW : off < W := hf
      rw [emit]
      split_ifs with ho
      · rw [ho, length_nil, eq_comm]
        exact Nat.div_eq_of_lt (by simp [size]; omega)
      · rw [length_singleton, eq_comm]
        refine Nat.div_eq_of_lt_le ?_ ?_ <;> simp [size] <;> omega
  | off, cur, (b, v) :: cs, ⟨hb, hle, hv, hf⟩ => by
      rw [emit, size_cons]
      split_ifs with hw
      · rw [hw, Nat.mod_self] at hf
        rw [length_cons, length_emit hf, ← Nat.add_div_right _ (by omega)]
        congr 1
        omega
      · rw [mod_eq_of_lt (by omega)] at hf
        rw [length_emit hf, ← Nat.add_assoc]

/-! ## Numbers -/

/-- A number of `size` bits, cut from its high bits down into chunks that fit from an offset on. -/
def chunks (W : ℕ) (value : ℕ) : ℕ → ℕ → ℕ → List (ℕ × ℕ)
  | 0, _, _ => []
  | _ + 1, _, 0 => []
  | fuel + 1, off, size + 1 =>
    let bits := min (size + 1) (W - off)
    (bits, value / 2 ^ (size + 1 - bits) % 2 ^ bits)
      :: chunks W value fuel ((off + bits) % W) (size + 1 - bits)

/-- Chunks put together after what there is. -/
def joinChunks (ret : ℕ) (cs : List (ℕ × ℕ)) : ℕ := cs.foldl (fun ret c => ret * 2 ^ c.1 + c.2) ret

theorem fits_chunks {value : ℕ} {cs : List (ℕ × ℕ)} : ∀ {fuel off n : ℕ}, n ≤ fuel → off < W →
    Fits W ((off + n) % W) cs → Fits W off (chunks W value fuel off n ++ cs)
  | 0, off, n, hn, ho, hf => by
      obtain rfl : n = 0 := by omega
      rwa [Nat.add_zero, mod_eq_of_lt ho] at hf
  | fuel + 1, off, 0, _, ho, hf => by rwa [Nat.add_zero, mod_eq_of_lt ho] at hf
  | fuel + 1, off, n + 1, hn, ho, hf => by
      rw [chunks, cons_append]
      refine ⟨by omega, by omega, mod_lt _ (two_pow_pos _),
        fits_chunks (by omega) (mod_lt _ (by omega)) ?_⟩
      rw [Nat.mod_add_mod]
      rwa [show off + min (n + 1) (W - off) + (n + 1 - min (n + 1) (W - off)) = off + (n + 1) by
        omega]

theorem size_chunks (value : ℕ) : ∀ {fuel off n : ℕ}, n ≤ fuel → off < W →
    size (chunks W value fuel off n) = n
  | 0, _, n, hn, _ => by
      obtain rfl : n = 0 := by omega
      rfl
  | _ + 1, _, 0, _, _ => rfl
  | fuel + 1, off, n + 1, hn, ho => by
      rw [chunks, size_cons, size_chunks value (by omega) (mod_lt _ (by omega))]
      simp only
      omega

/-- **The chunks of a number make the number.** -/
theorem joinChunks_chunks (value : ℕ) : ∀ {fuel off n ret : ℕ}, n ≤ fuel → off < W →
    joinChunks ret (chunks W value fuel off n) = ret * 2 ^ n + value % 2 ^ n
  | 0, _, n, _, hn, _ => by
      obtain rfl : n = 0 := by omega
      simp [joinChunks, chunks, Nat.mod_one]
  | _ + 1, _, 0, _, _, _ => by simp [joinChunks, chunks, Nat.mod_one]
  | fuel + 1, off, n + 1, ret, hn, ho => by
      rw [chunks, joinChunks, foldl_cons, ← joinChunks,
        joinChunks_chunks value (by omega) (mod_lt _ (by omega))]
      simp only
      generalize hk : n + 1 - min (n + 1) (W - off) = k
      generalize hb : min (n + 1) (W - off) = b
      have hn' : n + 1 = k + b := by omega
      rw [hn', Nat.pow_add, Nat.mod_mul, Nat.add_mul, Nat.mul_comm (2 ^ k) (2 ^ b),
        ← Nat.mul_assoc, Nat.mul_comm (value / 2 ^ k % 2 ^ b) (2 ^ k),
        Nat.add_assoc, Nat.add_comm (2 ^ k * _) (value % 2 ^ k)]

end BitStream
