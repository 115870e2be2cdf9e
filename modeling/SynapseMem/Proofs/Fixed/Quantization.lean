import SynapseMem.Fixed.Quantize
import SynapseMem.Proofs.Binary64.Exactness
import SynapseMem.Proofs.Fixed.HalfEven
import SynapseMem.Proofs.Fixed.Words

/-!
# Quantization is exact rounding

`QFormat.quantize` works on doubles: a product, a rounding, a cut to a wide integer and a
comparison. `QFormat.nearest` is what it should find, the exact value times `2 ^ fracBits` rounded
half to even on rationals. `quantize_eq` says that no step of the computation loses anything: the
two agree for every double and every format.
-/

namespace SynapseMem

namespace Binary64

/-- Stopping at the ends of 128 bits does not matter for a range of 64 bits. -/
theorem toInt128_mem_iff (x : Binary64) (lo hi : ℤ) (hlo : -2 ^ 63 ≤ lo) (hhi : hi ≤ 2 ^ 63) :
    lo ≤ x.toInt128 ∧ x.toInt128 ≤ hi ↔ lo ≤ x.truncate ∧ x.truncate ≤ hi := by
  simp only [toInt128]
  split_ifs <;> omega

theorem toInt128_of_mem {x : Binary64} (h : -2 ^ 63 ≤ x.truncate ∧ x.truncate < 2 ^ 63) :
    x.toInt128 = x.truncate := by
  simp only [toInt128]
  split_ifs <;> omega

end Binary64

namespace QFormat

open Binary64

variable (q : QFormat)

/-- The scaled integer nearest to the exact value of a double, a half going to the even
neighbour. -/
def nearest (v : Binary64) : ℤ := roundHalfEven (v.toRat * 2 ^ q.fracBits)

theorem fracBits_lt : q.fracBits < 1024 := by
  have := q.int_pos
  have hle : q.intBits + q.fracBits ≤ 64 := q.width_le
  omega

theorem scale_eq : q.scale = ofNat (2 ^ q.fracBits) := rfl

/-- Rounding the exact product is division of the units, with the sign put back. -/
theorem nearest_eq (v : Binary64) :
    q.nearest v = if v.negative then -(roundDiv (v.units * 2 ^ q.fracBits) unitsPerOne : ℤ)
      else roundDiv (v.units * 2 ^ q.fracBits) unitsPerOne := by
  have hround : roundHalfEven ((v.units : ℚ) / unitsPerOne * 2 ^ q.fracBits) =
      roundDiv (v.units * 2 ^ q.fracBits) unitsPerOne := by
    rw [← roundHalfEven_natCast_div _ unitsPerOne_pos, div_mul_eq_mul_div]
    push_cast
    rfl
  rw [nearest, toRat, signedUnits, ← hround]
  split_ifs
  · push_cast
    rw [neg_div, neg_mul, roundHalfEven_neg]
  · push_cast
    rfl

/-- The computed product, rounded, is the nearest scaled integer, unless it is infinite. -/
theorem truncate_rounded {v : Binary64} (hv : v.isFinite = true)
    (hlt : v.units * 2 ^ q.fracBits < 2 ^ 2098) :
    (v.mul q.scale).roundTiesEven.truncate = q.nearest v := by
  have hfin : (v.mul q.scale).isFinite = true := by
    rw [scale_eq, isFinite_mul_ofNat_two_pow hv q.fracBits_lt]
    exact decide_eq_true hlt
  have hunits := units_roundTiesEven hfin
  rw [truncate_of_whole (by rw [isFinite_roundTiesEven, hfin]) hunits,
    negative_roundTiesEven hfin, nearest_eq, scale_eq, negative_mul_ofNat_two_pow hv q.fracBits_lt,
    units_mul_ofNat_two_pow hv q.fracBits_lt hlt]

/-- A product that overflows lies far outside the format. -/
theorem not_inRange_of_overflow {v : Binary64} (h : 2 ^ 2098 ≤ v.units * 2 ^ q.fracBits) :
    ¬ q.InRange (q.nearest v) := by
  have hbig : 2 ^ 1024 ≤ roundDiv (v.units * 2 ^ q.fracBits) unitsPerOne := by
    refine le_trans ?_ (div_le_roundDiv _ _)
    rw [Nat.le_div_iff_mul_le unitsPerOne_pos, unitsPerOne_eq, ← pow_add]
    exact h
  have hhuge : 2 ^ 64 ≤ roundDiv (v.units * 2 ^ q.fracBits) unitsPerOne :=
    (pow_le_pow_right₀ (by norm_num) (by norm_num)).trans hbig
  intro hrange
  have hint := hrange.int64
  rw [nearest_eq] at hint
  split_ifs at hint <;> omega

/-- **Quantization is exact rounding.** -/
theorem quantize_eq (v : Binary64) :
    q.quantize v =
      if v.isFinite = true ∧ q.InRange (q.nearest v) then
        .ok ⟨q.encode (Int64.ofInt (q.nearest v)), q⟩
      else .error ⟨v, q⟩ := by
  have hle : (2 : ℤ) ^ (q.totalBits - 1) ≤ 2 ^ 63 := by exact_mod_cast q.two_pow_pred_le
  have hfinite : (v.mul q.scale).roundTiesEven.isFinite = true ↔
      v.isFinite = true ∧ v.units * 2 ^ q.fracBits < 2 ^ 2098 := by
    rw [isFinite_roundTiesEven, scale_eq]
    cases hv : v.isFinite with
    | false => simp [isFinite_mul_of_not_isFinite hv q.fracBits_lt]
    | true => simp [isFinite_mul_ofNat_two_pow hv q.fracBits_lt]
  simp only [quantize]
  by_cases hfin : v.isFinite = true ∧ v.units * 2 ^ q.fracBits < 2 ^ 2098
  · have hn := q.truncate_rounded hfin.1 hfin.2
    have hmem := toInt128_mem_iff (v.mul q.scale).roundTiesEven (-2 ^ (q.totalBits - 1))
      (2 ^ (q.totalBits - 1) - 1) (by linarith) (by linarith)
    rw [hn] at hmem
    rw [if_pos (hfinite.2 hfin), toInt_maxValue, toInt_minValue]
    by_cases hrange : q.InRange (q.nearest v)
    · have hn128 := toInt128_of_mem (x := (v.mul q.scale).roundTiesEven) (hn ▸ hrange.int64)
      have hin : ¬(decide (2 ^ (q.totalBits - 1) - 1 < q.nearest v) ||
          decide (q.nearest v < -2 ^ (q.totalBits - 1))) = true := by
        simp only [Bool.or_eq_true, decide_eq_true_eq, not_or, not_lt]
        exact ⟨hrange.2, hrange.1⟩
      rw [hn128, hn, if_neg hin, if_pos ⟨hfin.1, hrange⟩]
    · have hout := mt hmem.1 hrange
      have hrefused :
          (decide (2 ^ (q.totalBits - 1) - 1 < (v.mul q.scale).roundTiesEven.toInt128) ||
          decide ((v.mul q.scale).roundTiesEven.toInt128 < -2 ^ (q.totalBits - 1))) = true := by
        simp only [Bool.or_eq_true, decide_eq_true_eq]
        omega
      rw [if_pos hrefused, if_neg fun h => hrange h.2]
  · rw [if_neg (mt hfinite.1 hfin), if_neg]
    rintro ⟨hv, hrange⟩
    exact q.not_inRange_of_overflow (not_lt.1 fun h => hfin ⟨hv, h⟩) hrange

theorem quantize_eq_ok_iff {v : Binary64} {w : Word} :
    q.quantize v = .ok w ↔
      (v.isFinite = true ∧ q.InRange (q.nearest v)) ∧
        w = ⟨q.encode (Int64.ofInt (q.nearest v)), q⟩ := by
  rw [quantize_eq]
  split_ifs with h
  · exact ⟨fun he => ⟨h, (Except.ok.inj he).symm⟩, fun he => congrArg Except.ok he.2.symm⟩
  · exact ⟨fun he => (nomatch he), fun he => absurd he.1 h⟩

/-- A word that comes from quantizing has the format, and no bits above its width. -/
theorem word_of_quantize {q : QFormat} {v : Binary64} {w : Word} (h : q.quantize v = .ok w) :
    w.format = q ∧ w.raw.toNat < 2 ^ q.totalBits := by
  obtain ⟨⟨-, hrange⟩, rfl⟩ := q.quantize_eq_ok_iff.1 h
  exact ⟨rfl, toNat_encode_lt hrange⟩

theorem signed_of_quantize {q : QFormat} {v : Binary64} {w : Word} (h : q.quantize v = .ok w) :
    w.signed.toInt = q.nearest v := by
  obtain ⟨⟨-, hrange⟩, rfl⟩ := q.quantize_eq_ok_iff.1 h
  exact Word.signed_encode hrange

/-- A product that is not finite is refused, whatever made it so. -/
theorem quantize_of_product {v : Binary64} (h : (v.mul q.scale).isFinite = false) :
    q.quantize v = .error ⟨v, q⟩ := by
  simp only [quantize, isFinite_roundTiesEven, h]
  rfl

theorem quantize_of_not_isFinite {v : Binary64} (h : v.isFinite = false) :
    q.quantize v = .error ⟨v, q⟩ := by
  rw [quantize_eq, if_neg (by simp [h])]

/-- A double is accepted exactly when it is finite and its nearest scaled integer is one of the
format. The word then stands for that integer, and every refusal names the value and the format. -/
theorem quantize_nearest (v : Binary64) :
    ((∃ w, q.quantize v = .ok w) ↔
      v.isFinite = true ∧ -2 ^ (q.totalBits - 1) ≤ q.nearest v ∧
        q.nearest v ≤ 2 ^ (q.totalBits - 1) - 1) ∧
    (∀ w, q.quantize v = .ok w →
      w.signed.toInt = q.nearest v ∧ (w.raw.toNat : ℤ) = q.nearest v % 2 ^ q.totalBits ∧
        w.format = q) ∧
    (∀ e, q.quantize v = .error e → e = ⟨v, q⟩) ∧
    (v.isNaN = true ∨ v.isInfinite = true ∨ (v.mul q.scale).isFinite = false →
      q.quantize v = .error ⟨v, q⟩) := by
  refine ⟨⟨?_, ?_⟩, ?_, ?_, ?_⟩
  · rintro ⟨w, hw⟩
    exact (q.quantize_eq_ok_iff.1 hw).1
  · intro h
    exact ⟨_, q.quantize_eq_ok_iff.2 ⟨h, rfl⟩⟩
  · intro w hw
    obtain ⟨⟨-, hrange⟩, rfl⟩ := q.quantize_eq_ok_iff.1 hw
    exact ⟨Word.signed_encode hrange, toNat_encode hrange, rfl⟩
  · intro e he
    rw [quantize_eq] at he
    split_ifs at he
    exact (Except.error.inj he).symm
  · rintro (hnan | hinf | hprod)
    · refine q.quantize_of_not_isFinite (Bool.eq_false_iff.2 fun hfin => ?_)
      rw [isNaN_of_isFinite hfin] at hnan
      contradiction
    · refine q.quantize_of_not_isFinite (Bool.eq_false_iff.2 fun hfin => ?_)
      rw [isInfinite_of_isFinite hfin] at hinf
      contradiction
    · exact q.quantize_of_product hprod

/-- The word `8000000000000000` of `Q1.63` stands for `-1`, where the scaled integer fills 64
bits. -/
theorem quantize_nearest_full_width :
    ((QFormat.mk 1 63 (by decide) (by decide)).quantize ⟨0xBFF0000000000000⟩ =
      .ok ⟨0x8000000000000000, QFormat.mk 1 63 (by decide) (by decide)⟩) ∧
    (QFormat.mk 1 63 (by decide) (by decide)).nearest ⟨0xBFF0000000000000⟩ = -2 ^ 63 := by
  have hok : (QFormat.mk 1 63 (by decide) (by decide)).quantize ⟨0xBFF0000000000000⟩ =
      .ok ⟨0x8000000000000000, QFormat.mk 1 63 (by decide) (by decide)⟩ := by decide +kernel
  refine ⟨hok, ?_⟩
  rw [← ((quantize_nearest _ _).2.1 _ hok).1]
  decide +kernel

end QFormat

end SynapseMem
