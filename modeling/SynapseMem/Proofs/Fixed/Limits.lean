import SynapseMem.Proofs.Fixed.Quantization

/-!
# Which values a format accepts

A value is accepted when it rounds into the format, so the limits lie half of a least significant
bit outside the scaled integers. On a limit the even neighbour decides. From two bits on the least
scaled integer is even and the greatest is odd, so the lower limit is accepted and the upper one is
not (`inRange_roundHalfEven_iff`). The one format of a single bit has the scaled integers -1 and 0,
and there it is the other way round (`inRange_roundHalfEven_iff_of_one`).
-/

namespace SynapseMem.QFormat

variable {q : QFormat}

theorem exists_quantize_iff {v : Binary64} (hv : v.isFinite = true) :
    (∃ w, q.quantize v = .ok w) ↔ q.InRange (q.nearest v) := by
  simp only [quantize_eq_ok_iff, hv, true_and, exists_and_left, exists_eq, and_true]

/-- The values that round into a format of two bits or more. -/
theorem inRange_roundHalfEven_iff (hwidth : 2 ≤ q.totalBits) (x : ℚ) :
    q.InRange (roundHalfEven x) ↔
      -2 ^ (q.totalBits - 1) - 1 / 2 ≤ x ∧ x < 2 ^ (q.totalBits - 1) - 1 / 2 := by
  have heven : Even ((2 : ℤ) ^ (q.totalBits - 1)) := even_two.pow_of_ne_zero (by omega)
  have hodd : ¬ Even ((2 : ℤ) ^ (q.totalBits - 1) - 1) := by
    rw [Int.even_iff] at heven ⊢
    omega
  rw [InRange, le_roundHalfEven_iff, roundHalfEven_le_iff]
  simp only [even_neg, heven, hodd, and_true, and_false, or_false]
  push_cast
  have hupper : (2 : ℚ) ^ (q.totalBits - 1) - 1 + 1 / 2 = 2 ^ (q.totalBits - 1) - 1 / 2 := by ring
  rw [le_iff_lt_or_eq, eq_comm (a := x), hupper]

/-- The values that round into the format of one bit. -/
theorem inRange_roundHalfEven_iff_of_one (hwidth : q.totalBits = 1) (x : ℚ) :
    q.InRange (roundHalfEven x) ↔ -(3 / 2) < x ∧ x ≤ 1 / 2 := by
  rw [InRange, hwidth, le_roundHalfEven_iff, roundHalfEven_le_iff, le_iff_lt_or_eq]
  norm_num

/-- A finite double is accepted up to half of a least significant bit outside the scaled integers.
From two bits on the limit below is accepted and the limit above is refused, and for `Q1.0` it is
the other way round. -/
theorem exists_quantize_iff_between (q : QFormat) {v : Binary64} (hv : v.isFinite = true) :
    (2 ≤ q.totalBits →
      ((∃ w, q.quantize v = .ok w) ↔
        -2 ^ (q.intBits - 1) - 1 / 2 ^ (q.fracBits + 1) ≤ v.toRat ∧
          v.toRat < 2 ^ (q.intBits - 1) - 1 / 2 ^ (q.fracBits + 1))) ∧
    (q.intBits = 1 → q.fracBits = 0 →
      ((∃ w, q.quantize v = .ok w) ↔ -(3 / 2) < v.toRat ∧ v.toRat ≤ 1 / 2)) := by
  rw [exists_quantize_iff hv, nearest]
  constructor
  · intro hwidth
    have hscale : (0 : ℚ) < 2 ^ q.fracBits := by positivity
    have hlimit : (2 : ℚ) ^ (q.totalBits - 1) = 2 ^ (q.intBits - 1) * 2 ^ q.fracBits := by
      rw [q.totalBits_pred, pow_add]
    have hhalf : (1 : ℚ) / 2 = 1 / 2 ^ (q.fracBits + 1) * 2 ^ q.fracBits := by
      rw [pow_succ', ← div_div, div_mul_cancel₀ _ hscale.ne']
    rw [inRange_roundHalfEven_iff hwidth, hlimit, hhalf, ← neg_mul, ← sub_mul, ← sub_mul,
      mul_le_mul_iff_left₀ hscale, mul_lt_mul_iff_left₀ hscale]
  · intro hint hfrac
    have hwidth : q.totalBits = 1 := by rw [totalBits, hint, hfrac]
    rw [inRange_roundHalfEven_iff_of_one hwidth, hfrac, pow_zero, mul_one]

/-- The tie below Q2.14 is accepted, and the tie below Q1.0 is not. -/
theorem exists_quantize_iff_between_ties :
    (⟨0xC000001000000000⟩ : Binary64).isFinite = true ∧
    (⟨0xBFF8000000000000⟩ : Binary64).isFinite = true ∧
    (∃ w, q2_14.quantize ⟨0xC000001000000000⟩ = .ok w) ∧
    ¬ ∃ w, (QFormat.mk 1 0 (by decide) (by decide)).quantize ⟨0xBFF8000000000000⟩ = .ok w := by
  have hfinite : (⟨0xC000001000000000⟩ : Binary64).isFinite = true := by decide
  have hfinite' : (⟨0xBFF8000000000000⟩ : Binary64).isFinite = true := by decide
  have hvalue : (⟨0xC000001000000000⟩ : Binary64).toRat = -2 - 1 / 2 ^ 15 := by decide +kernel
  have hvalue' : (⟨0xBFF8000000000000⟩ : Binary64).toRat = -(3 / 2) := by decide +kernel
  refine ⟨hfinite, hfinite', ?_, ?_⟩
  · rw [(exists_quantize_iff_between q2_14 hfinite).1 (by decide), hvalue]
    norm_num [q2_14]
  · rw [(exists_quantize_iff_between _ hfinite').2 rfl rfl, hvalue']
    norm_num

end SynapseMem.QFormat
