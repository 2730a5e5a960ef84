import Mathlib.Data.Nat.Notation
import Mathlib.Data.List.GetD

/-!
# Lib/Bitmap — the bits of bytes

`withBit` sets or clears one bit of a byte and leaves the others (`testBit_withBit`); a list of
bytes is a bitmap of eight times as many bits (`get_set`).
-/

namespace Bitmap

/-- Bit `k` of a byte. -/
def testBit (b : UInt8) (k : ℕ) : Bool := b.toBitVec.getLsbD k

/-- Set bit `k` of a byte, or clear it. -/
def withBit (v : Bool) (k : ℕ) (b : UInt8) : UInt8 :=
  if v then b ||| ⟨BitVec.twoPow 8 k⟩ else b &&& ~~~⟨BitVec.twoPow 8 k⟩

theorem testBit_withBit (v : Bool) {k : ℕ} (hk : k < 8) (b : UInt8) (j : ℕ) :
    testBit (withBit v k b) j = if j = k then v else testBit b j := by
  have hne : j ≠ k → (BitVec.twoPow 8 k).getLsbD j = false := fun h => by
    rw [BitVec.getLsbD_twoPow]
    simp [Ne.symm h]
  have heq : (BitVec.twoPow 8 k).getLsbD k = true := by
    rw [BitVec.getLsbD_twoPow]
    simp [hk]
  by_cases h : j = k
  · subst h
    cases v <;> simp [testBit, withBit, heq]
  · cases v <;> by_cases hj : j < 8 <;> simp_all [testBit, withBit]

theorem eq_of_testBit {b c : UInt8} (h : ∀ k < 8, testBit b k = testBit c k) : b = c := by
  refine UInt8.toBitVec_inj.mp (BitVec.eq_of_getLsbD_eq fun k hk => ?_)
  exact h k hk

/-! ## Bits in a list of bytes -/

/-- Bit `n` of a list of bytes. -/
def get (bytes : List UInt8) (n : ℕ) : Bool := testBit (bytes.getD (n / 8) 0) (n % 8)

/-- Set bit `n` in a list of bytes. -/
def set (bytes : List UInt8) (n : ℕ) : List UInt8 := bytes.modify (n / 8) (withBit true (n % 8))

@[simp]
theorem length_set (bytes : List UInt8) (n : ℕ) : (set bytes n).length = bytes.length := by
  simp [set]

theorem get_set {bytes : List UInt8} {n : ℕ} (h : n / 8 < bytes.length) (m : ℕ) :
    get (set bytes n) m = if m = n then true else get bytes m := by
  have hbyte : (set bytes n).getD (m / 8) 0
      = if m / 8 = n / 8 then withBit true (n % 8) (bytes.getD (n / 8) 0)
        else bytes.getD (m / 8) 0 := by
    by_cases hm : m / 8 = n / 8
    · simp [set, hm, List.getD_eq_getElem?_getD, h]
    · simp [set, hm, List.getD_eq_getElem?_getD, Ne.symm hm]
  rw [get, get, hbyte]
  by_cases hm : m / 8 = n / 8
  · rw [if_pos hm, testBit_withBit true (Nat.mod_lt _ (by decide)), hm]
    exact if_congr (by omega) rfl rfl
  · rw [if_neg hm, if_neg (fun hmn => hm (congrArg (· / 8) hmn))]

theorem get_append {bytes : List UInt8} {n : ℕ} (h : n / 8 < bytes.length) (rest : List UInt8) :
    get (bytes ++ rest) n = get bytes n := by
  rw [get, get, List.getD_append _ _ _ _ h]

theorem set_append {bytes : List UInt8} {n : ℕ} (h : n / 8 < bytes.length) (rest : List UInt8) :
    set (bytes ++ rest) n = set bytes n ++ rest := by
  refine List.ext_getElem? fun k => ?_
  by_cases hk : k < bytes.length
  · rw [set, set, List.getElem?_modify, List.getElem?_append_left hk,
      List.getElem?_append_left (by simpa using hk), List.getElem?_modify]
  · have hne : n / 8 ≠ k := by omega
    simp [set, List.getElem?_append, hk, hne]

theorem get_replicate_zero (k n : ℕ) : get (List.replicate k 0) n = false := by
  have : (List.replicate k (0 : UInt8)).getD (n / 8) 0 = 0 := by
    by_cases h : n / 8 < k <;> simp [List.getD_eq_getElem?_getD, h]
  rw [get, this]
  simp [testBit]

end Bitmap
