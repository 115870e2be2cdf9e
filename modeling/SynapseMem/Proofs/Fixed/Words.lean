import Mathlib.Tactic
import Mathlib.Data.Nat.Bitwise
import SynapseMem.Fixed.Token

/-!
# Words and scaled integers

A word of a format of width `W` is a natural number below `2 ^ W`, and stands for an integer from
`-2 ^ (W - 1)` to `2 ^ (W - 1) - 1`. The statements here carry the 64-bit operations of the library
over to natural numbers and integers, for every width from 1 to 64:

* `toInt_maxValue`, `toInt_minValue`, `toNat_mask`: the limits;
* `toNat_encode`: encoding is reduction modulo `2 ^ W`;
* `toInt_signed`, `signed_encode`, `encode_signed`: the signed reading, and that it and encoding
  undo each other;
* `ofRaw_eq_ok_iff`: the words of a format.
-/

namespace SynapseMem

/-- A single bit of a 64-bit word. -/
theorem toNat_one_shiftLeft {k : ℕ} (hk : k < 64) :
    ((1 : UInt64) <<< UInt64.ofNat k).toNat = 2 ^ k := by
  have hlt : 2 ^ k < 2 ^ 64 := Nat.pow_lt_pow_right (by norm_num) hk
  have hamount : (UInt64.ofNat k).toNat % 64 = k := by
    rw [UInt64.toNat_ofNat']
    omega
  rw [UInt64.toNat_shiftLeft, hamount]
  change 1 <<< k % 2 ^ 64 = 2 ^ k
  rw [Nat.one_shiftLeft, Nat.mod_eq_of_lt hlt]

namespace QFormat

variable (q : QFormat)

theorem totalBits_pos : 0 < q.totalBits := by
  have := q.int_pos
  unfold totalBits
  omega

theorem totalBits_le : q.totalBits ≤ 64 := q.width_le

/-- The bits below the sign bit. -/
theorem totalBits_pred : q.totalBits - 1 = q.intBits - 1 + q.fracBits := by
  have := q.int_pos
  unfold totalBits
  omega

/-- The number of words is twice the number of words without the sign bit. -/
theorem two_pow_totalBits : 2 ^ q.totalBits = 2 * 2 ^ (q.totalBits - 1) := by
  rw [← pow_succ', Nat.sub_add_cancel q.totalBits_pos]

theorem two_pow_totalBits_le : 2 ^ q.totalBits ≤ 2 ^ 64 :=
  Nat.pow_le_pow_right (by norm_num) q.totalBits_le

theorem two_pow_pred_le : 2 ^ (q.totalBits - 1) ≤ 2 ^ 63 :=
  Nat.pow_le_pow_right (by norm_num) (by have := q.totalBits_le; omega)

/-- The scaled integers of a format. -/
def InRange (n : ℤ) : Prop := -2 ^ (q.totalBits - 1) ≤ n ∧ n ≤ 2 ^ (q.totalBits - 1) - 1

instance (n : ℤ) : Decidable (q.InRange n) := by unfold InRange; infer_instance

theorem InRange.int64 {q : QFormat} {n : ℤ} (h : q.InRange n) : -2 ^ 63 ≤ n ∧ n < 2 ^ 63 := by
  have hle : (2 : ℤ) ^ (q.totalBits - 1) ≤ 2 ^ 63 := by exact_mod_cast q.two_pow_pred_le
  obtain ⟨hlow, hhigh⟩ := h
  constructor <;> linarith

theorem toInt_maxValue : q.maxValue.toInt = 2 ^ (q.totalBits - 1) - 1 := by
  have hle : (2 : ℤ) ^ (q.totalBits - 1) ≤ 2 ^ 63 := by exact_mod_cast q.two_pow_pred_le
  have hpos : (0 : ℤ) < 2 ^ (q.totalBits - 1) := by positivity
  rw [maxValue, Nat.pow_eq, Nat.cast_pow, Nat.cast_ofNat]
  exact Int64.toInt_ofInt_of_le (by linarith) (by linarith)

theorem toInt_minValue : q.minValue.toInt = -2 ^ (q.totalBits - 1) := by
  have hle : (2 : ℤ) ^ (q.totalBits - 1) ≤ 2 ^ 63 := by exact_mod_cast q.two_pow_pred_le
  have hpos : (0 : ℤ) < 2 ^ (q.totalBits - 1) := by positivity
  rw [minValue, Nat.pow_eq, Nat.cast_pow, Nat.cast_ofNat]
  exact Int64.toInt_ofInt_of_le (by linarith) (by linarith)

theorem inRange_maxValue : q.InRange q.maxValue.toInt := by
  have hpos : (0 : ℤ) < 2 ^ (q.totalBits - 1) := by positivity
  rw [InRange, toInt_maxValue]
  constructor <;> linarith

theorem inRange_minValue : q.InRange q.minValue.toInt := by
  have hpos : (0 : ℤ) < 2 ^ (q.totalBits - 1) := by positivity
  rw [InRange, toInt_minValue]
  constructor <;> linarith

theorem toNat_mask : q.mask.toNat = 2 ^ q.totalBits - 1 := by
  unfold mask
  split_ifs with hw
  · rw [hw]
    rfl
  · have hshift := toNat_one_shiftLeft (lt_of_le_of_ne q.totalBits_le hw)
    rw [UInt64.toNat_sub_of_le, hshift]
    · rfl
    · rw [UInt64.le_iff_toNat_le, hshift]
      exact Nat.one_le_two_pow

/-- The words up to the mask are those below `2 ^ W`. -/
theorem le_mask_iff {q : QFormat} {raw : UInt64} : raw ≤ q.mask ↔ raw.toNat < 2 ^ q.totalBits := by
  have hpos : 0 < 2 ^ q.totalBits := by positivity
  rw [UInt64.le_iff_toNat_le, q.toNat_mask]
  omega

/-- Encoding a scaled integer in range is reduction modulo `2 ^ W`. -/
theorem toNat_encode {q : QFormat} {n : ℤ} (h : q.InRange n) :
    ((q.encode (Int64.ofInt n)).toNat : ℤ) = n % 2 ^ q.totalBits := by
  have hint : (Int64.ofInt n).toInt = n := Int64.toInt_ofInt_of_le h.int64.1 h.int64.2
  have hle : (2 : ℤ) ^ q.totalBits ≤ 2 ^ 64 := pow_le_pow_right₀ (by norm_num) q.totalBits_le
  have hhalf : (2 : ℤ) ^ q.totalBits = 2 * 2 ^ (q.totalBits - 1) := by
    exact_mod_cast q.two_pow_totalBits
  -- a 64-bit word holds every integer from 0 up to `2 ^ W`
  have hofInt : ∀ z : ℤ, 0 ≤ z → z < 2 ^ q.totalBits → ((UInt64.ofInt z).toNat : ℤ) = z := by
    intro z hz hlt
    have hlt64 : z < 2 ^ 64 := hlt.trans_le hle
    rw [UInt64.ofInt, UInt64.toNat_ofNat', Int.emod_eq_of_lt hz hlt64, Nat.mod_eq_of_lt (by omega)]
    exact Int.toNat_of_nonneg hz
  obtain ⟨hlow, hhigh⟩ := h
  have hpos : (0 : ℤ) < 2 ^ (q.totalBits - 1) := by positivity
  have hsign : Int64.ofInt n < 0 ↔ n < 0 := by
    rw [Int64.lt_iff_toInt_lt, hint]
    rfl
  rw [encode, hint, Nat.pow_eq, Nat.cast_pow, Nat.cast_ofNat]
  simp only [hsign]
  split_ifs with hneg
  · rw [hofInt _ (by linarith) (by linarith), add_comm, ← Int.add_emod_right n,
      Int.emod_eq_of_lt (by linarith) (by linarith)]
  · rw [hofInt _ (by linarith) (by linarith), Int.emod_eq_of_lt (by linarith) (by linarith)]

theorem toNat_encode_lt {q : QFormat} {n : ℤ} (h : q.InRange n) :
    (q.encode (Int64.ofInt n)).toNat < 2 ^ q.totalBits := by
  zify
  rw [toNat_encode h]
  exact Int.emod_lt_of_pos n (by positivity)

end QFormat

namespace Word

/-- The test of the sign bit, on natural numbers. -/
theorem and_signBit_eq_zero_iff {raw : UInt64} {k : ℕ} (hk : k < 64)
    (hraw : raw.toNat < 2 * 2 ^ k) :
    raw &&& ((1 : UInt64) <<< UInt64.ofNat k) = 0 ↔ raw.toNat < 2 ^ k := by
  rw [← UInt64.toNat_inj, UInt64.toNat_and, toNat_one_shiftLeft hk]
  change raw.toNat &&& 2 ^ k = 0 ↔ _
  rw [Nat.and_two_pow]
  by_cases hle : 2 ^ k ≤ raw.toNat
  · have hbit := Nat.testBit_of_two_pow_le_and_two_pow_add_one_gt hle (by rwa [pow_succ'])
    simp [hbit, hle]
  · simp [Nat.testBit_lt_two_pow (not_le.1 hle), not_le.1 hle]

/-- The signed reading: the upper half of the words stands for the negative integers. -/
theorem toInt_signed {w : Word} (h : w.raw.toNat < 2 ^ w.format.totalBits) :
    w.signed.toInt =
      if w.raw.toNat < 2 ^ (w.format.totalBits - 1) then (w.raw.toNat : ℤ)
      else w.raw.toNat - 2 ^ w.format.totalBits := by
  have hle := w.format.two_pow_pred_le
  have hhalf := w.format.two_pow_totalBits
  have hbits := w.format.totalBits_le
  have hpos := w.format.totalBits_pos
  have htest := and_signBit_eq_zero_iff (k := w.format.totalBits - 1) (by omega) (by rwa [← hhalf])
  have hcast : (2 : ℤ) ^ w.format.totalBits = 2 * 2 ^ (w.format.totalBits - 1) := by
    exact_mod_cast hhalf
  simp only [signed, htest]
  split_ifs with hlt
  · exact Int64.toInt_ofInt_of_le (by omega) (by omega)
  · rw [Nat.pow_eq, Nat.cast_pow, Nat.cast_ofNat]
    apply Int64.toInt_ofInt_of_le <;> zify at h hlt hle hhalf <;> linarith

/-- Reading undoes encoding. -/
theorem signed_encode {q : QFormat} {n : ℤ} (h : q.InRange n) :
    (Word.mk (q.encode (Int64.ofInt n)) q).signed.toInt = n := by
  have henc := QFormat.toNat_encode h
  have hhalf : (2 : ℤ) ^ q.totalBits = 2 * 2 ^ (q.totalBits - 1) := by
    exact_mod_cast q.two_pow_totalBits
  rw [toInt_signed (QFormat.toNat_encode_lt h)]
  obtain ⟨hlow, hhigh⟩ := h
  zify
  simp only [henc]
  by_cases hneg : n < 0
  · rw [← Int.add_emod_right, Int.emod_eq_of_lt (by linarith) (by linarith), if_neg (by linarith)]
    ring
  · rw [Int.emod_eq_of_lt (by linarith) (by linarith), if_pos (by linarith)]

theorem inRange_signed {w : Word} (h : w.raw.toNat < 2 ^ w.format.totalBits) :
    w.format.InRange w.signed.toInt := by
  have hhalf := w.format.two_pow_totalBits
  rw [toInt_signed h, QFormat.InRange]
  zify at h hhalf
  split_ifs with hlt <;> zify at hlt <;> constructor <;> linarith

/-- Encoding undoes reading. -/
theorem encode_signed {w : Word} (h : w.raw.toNat < 2 ^ w.format.totalBits) :
    w.format.encode (Int64.ofInt w.signed.toInt) = w.raw := by
  rw [← UInt64.toNat_inj, ← Nat.cast_inj (R := ℤ), QFormat.toNat_encode (inRange_signed h),
    toInt_signed h]
  have hraw : (w.raw.toNat : ℤ) % 2 ^ w.format.totalBits = w.raw.toNat :=
    Int.emod_eq_of_lt (Nat.cast_nonneg _) (by exact_mod_cast h)
  split_ifs
  · exact hraw
  · rw [Int.sub_emod_right, hraw]

/-- The words of a format are the numbers below `2 ^ W`. -/
theorem ofRaw_eq_ok_iff {raw : UInt64} {q : QFormat} {w : Word} :
    ofRaw raw q = .ok w ↔ raw.toNat < 2 ^ q.totalBits ∧ w = ⟨raw, q⟩ := by
  have hmask : raw &&& ~~~q.mask = 0 ↔ raw.toNat < 2 ^ q.totalBits := by
    have hand : (raw &&& q.mask).toNat = raw.toNat % 2 ^ q.totalBits := by
      rw [UInt64.toNat_and, q.toNat_mask, Nat.and_two_pow_sub_one_eq_mod]
    constructor
    · intro h
      have hself : raw &&& q.mask = raw := by
        have hsplit : raw &&& q.mask ||| raw &&& ~~~q.mask = raw := by
          rw [← UInt64.toBitVec_inj, UInt64.toBitVec_or, UInt64.toBitVec_and, UInt64.toBitVec_and,
            UInt64.toBitVec_not, ← BitVec.and_or_distrib_left, BitVec.or_not_self,
            BitVec.and_allOnes]
        rwa [h, UInt64.or_zero] at hsplit
      rw [← hself, hand]
      exact Nat.mod_lt _ (by positivity)
    · intro h
      have hself : raw &&& q.mask = raw := by
        rw [← UInt64.toNat_inj, hand, Nat.mod_eq_of_lt h]
      rw [← hself, UInt64.and_assoc, UInt64.and_not_self, UInt64.and_zero]
  unfold ofRaw
  split_ifs with h
  · simp [hmask.1 h, eq_comm]
  · simp [mt hmask.2 h]

/-- A number with more bits is refused. -/
theorem ofRaw_of_le {raw : UInt64} {q : QFormat} (h : 2 ^ q.totalBits ≤ raw.toNat) :
    ofRaw raw q = .error (.tooWide (HexStyle.prefixedText raw) q) := by
  cases hword : ofRaw raw q with
  | ok w => exact absurd (ofRaw_eq_ok_iff.1 hword).1 (not_lt.2 h)
  | error e =>
    unfold ofRaw at hword
    split_ifs at hword
    exact hword.symm

end Word

end SynapseMem
