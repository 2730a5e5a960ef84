import EloqSql.Image.RoundTrip

/-!
# Image/Length — no image is longer than its packing says

`m_max_image_len` bounds the image of every valid value (`length_pack_le`): exactly for columns of
fixed size, and for a `VARCHAR` because it has no more segments than the longest value. The sum over
a key is `m_maxlength`, which ceilings of keys are filled up to.
-/

namespace EloqSql

open Segment FieldPacking

section Varchar

variable {f : Field} {len i : ℕ} {v : Bytes} {xs : List ℕ}

theorem length_packVariableFormat_le {src : Bytes} {m : ℕ} (hm : 0 < m) (h : src.length ≤ 8 * m) :
    (packVariableFormat src).length ≤ 9 * m := by
  obtain ⟨m, rfl⟩ := Nat.exists_eq_succ_of_ne_zero hm.ne'
  rw [packVariableFormat_eq, Nat.mul_comm 9]
  exact length_countEncode_le (by rw [Nat.mul_comm]; exact h)

theorem length_pack_varchar_binary_le (hf : f.realType = .varchar) (hc : f.charset = .binary)
    (hw : f.wfPart len = true) :
    ((setup i f len).pack (partField f len) v).1.length ≤ (setup i f len).maxImageLen := by
  obtain ⟨hpos, hle, -, -⟩ := wfPart_string (Or.inl hf) hw
  have hmax : (setup i f len).maxImageLen = 9 * ((f.fieldLength + 7) / 8) := by
    simp only [setup, hf, setupVarchar, hc, checkPrefix]
    split <;> simp [monoEncodedSize, monoEscapeLength, Collation.strnxfrmlen, Nat.mul_comm]
  have htake := List.length_take_le len v
  rw [pack_varchar_binary_eq hf hc hw, hmax]
  exact length_packVariableFormat_le (by omega) (by omega)

theorem length_pack_varchar_padSpace_le (hf : f.realType = .varchar) (hp : f.charset.PadSpace)
    (hw : f.wfPart len = true) (hx : f.charset.chars v = some xs) :
    ((setup i f len).pack (partField f len) v).1.length ≤ (setup i f len).maxImageLen := by
  obtain ⟨-, hle, -, -⟩ := wfPart_string (Or.inl hf) hw
  obtain ⟨hN, -, -⟩ := Collation.segment_dvd hp
  have hweights : (varcharWeights f.charset (len / f.charset.mbmaxlen) xs).length
      ≤ f.charset.strnxfrmlen f.fieldLength := by
    rw [varcharWeights, Collation.length_weights, List.length_take]
    exact weights_le_strnxfrmlen f.charset (Nat.min_le_left _ _) hle
  have hsize : getSegmentSizeFromCollation f.charset
      = getSegmentSizeFromCollation f.charset - 1 + 1 := by omega
  rw [pack_varchar_padSpace hf hp hw hx, (setup_varchar_padSpace i len hf hp).2.2.2]
  conv_rhs => rw [hsize, Nat.add_sub_cancel]
  refine length_padEncode_le varcharFlags (hweights.trans_lt ?_)
  rw [Nat.mul_comm]
  exact Nat.lt_mul_div_succ _ hN

end Varchar

variable {f : Field} {len i : ℕ} {v : Bytes}

/-- **No image is longer than `m_max_image_len`.** -/
theorem length_pack_le (cloned : Bool) (hw : f.wfPart len = true) (hv : f.validValue v = true) :
    ((setup i (keyField cloned f len) len).pack (partField f len) v).1.length
      ≤ (setup i (keyField cloned f len) len).maxImageLen := by
  refine setup_keyField_cases (P := fun fpi => (fpi.pack (partField f len) v).1.length
    ≤ fpi.maxImageLen) cloned hw hv ?_ ?_ ?_
  · intro g xs hg hw hx hpart
    rw [← hpart]
    by_cases hc : g.charset = .binary
    · exact length_pack_varchar_binary_le hg hc hw
    · exact length_pack_varchar_padSpace_le hg (Collation.padSpace_of_ne_binary hc) hw hx
  · intro g xs hg hw hx hn hpart
    rw [← hpart, (setup_string i len hg).2]
    exact (length_pack_string hg hw hx hn).le
  · intro hf hf'
    exact (length_pack_fixed i hf hf' hw hv).2.le

/-- The image of a column that is no `VARCHAR` always has this length. -/
theorem length_pack_eq (cloned : Bool) (hf : f.realType ≠ .varchar) (hw : f.wfPart len = true)
    (hv : f.validValue v = true) :
    ((setup i (keyField cloned f len) len).pack (partField f len) v).1.length
      = (setup i (keyField cloned f len) len).maxImageLen := by
  refine setup_keyField_cases (P := fun fpi => (fpi.pack (partField f len) v).1.length
    = fpi.maxImageLen) cloned hw hv ?_ ?_ ?_
  · intro g xs hg hw hx hpart
    exact absurd ((congrArg Field.realType hpart).symm.trans hg) hf
  · intro g xs hg hw hx hn hpart
    rw [← hpart, (setup_string i len hg).2]
    exact length_pack_string hg hw hx hn
  · intro hf hf'
    exact (length_pack_fixed i hf hf' hw hv).2

/-- **The image of a `VARCHAR` ends with the mark of a segment**, which is never `0xFF`. -/
theorem getLast_pack_varchar (cloned : Bool) (hf : f.realType = .varchar) (hw : f.wfPart len = true)
    (hv : f.validValue v = true) :
    ∃ b, ((setup i (keyField cloned f len) len).pack (partField f len) v).1.getLast? = some b ∧
      b ≠ 0xFF := by
  refine setup_keyField_cases (P := fun fpi =>
    ∃ b, (fpi.pack (partField f len) v).1.getLast? = some b ∧ b ≠ 0xFF) cloned hw hv ?_ ?_ ?_
  · intro g xs hg hw hx hpart
    rw [← hpart]
    by_cases hc : g.charset = .binary
    · obtain ⟨n, hn, hlast⟩ := getLast_countEncode (z := 0) (N := 8)
        (v.take len).length (v.take len)
      refine ⟨_, by rw [pack_varchar_binary_eq hg hc hw, packVariableFormat_eq, hlast], ?_⟩
      have hmark : ∀ n ≤ 9, UInt8.ofNat n ≠ 0xFF := by decide
      exact hmark n hn
    · have hp := Collation.padSpace_of_ne_binary hc
      obtain ⟨o, hlast⟩ := getLast_padEncode (p := g.charset.spaceCycle)
        (N := getSegmentSizeFromCollation g.charset - 1) varcharFlags
        (varcharWeights g.charset (len / g.charset.mbmaxlen) xs).length
        (varcharWeights g.charset (len / g.charset.mbmaxlen) xs)
      refine ⟨_, by rw [pack_varchar_padSpace hg hp hw hx, hlast], ?_⟩
      cases o <;> decide
  · intro g xs hg hw hx hn hpart
    cases ((congrArg Field.realType hpart).symm.trans hg).symm.trans hf
  · exact fun hf' _ => absurd hf hf'

end EloqSql
