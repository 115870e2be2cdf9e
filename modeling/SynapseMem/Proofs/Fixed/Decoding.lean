import SynapseMem.Proofs.Fixed.Quantization

/-!
# The value of a word

`Word.toBinary64` converts the scaled integer of a word to a double and divides it by
`2 ^ fracBits`. The division only takes zeros away, so a word is decoded without rounding when its
scaled integer is a double (`Word.toRat_toBinary64`), and is then what its value is quantized to
(`Word.quantize_toBinary64`).

The integers that quantization finds are always doubles (`QFormat.representable_nearest`). Of all
words those of formats up to 54 bits are (`Word.representable_signed`). In a wider format the
greatest word rounds up when it is decoded, to a value that the format does not reach.
-/

namespace SynapseMem

open Binary64

namespace Word

variable {w : Word}

theorem natAbs_signed_lt (w : Word) : w.signed.toInt.natAbs < 2 ^ 1024 := by
  have hlt' := w.signed.toInt_lt
  have hge := w.signed.le_toInt
  have hlt : w.signed.toInt.natAbs < 2 ^ 64 := by omega
  exact hlt.trans (pow_lt_pow_right₀ (by norm_num) (by norm_num))

/-- A scaled integer that is a double is decoded without rounding. -/
theorem toRat_toBinary64 (h : Representable (w.signed.toInt.natAbs * unitsPerOne)) :
    w.toBinary64.isFinite = true ∧
      w.toBinary64.toRat = (w.signed.toInt : ℚ) / 2 ^ w.format.fracBits := by
  have hk := w.format.fracBits_lt
  have hwhole := exact_whole (decide (w.signed.toInt < 0)) h (whole_units_lt w.natAbs_signed_lt)
  have hfinite : (ofInt w.signed.toInt).isFinite = true := hwhole.1
  have hdvd : 2 ^ w.format.fracBits ∣ (ofInt w.signed.toInt).units := by
    rw [ofInt, hwhole.2, unitsPerOne_eq]
    exact (pow_dvd_pow 2 (by omega)).mul_left _
  obtain ⟨hquotient, hvalue⟩ := exact_div_ofNat_two_pow hfinite hk hdvd
  exact ⟨hquotient, hvalue.trans (by rw [toRat_ofInt h w.natAbs_signed_lt])⟩

/-- A scaled integer that is a double is found again from its value. -/
theorem quantize_toBinary64 (hraw : w.raw.toNat < 2 ^ w.format.totalBits)
    (h : Representable (w.signed.toInt.natAbs * unitsPerOne)) :
    w.format.quantize w.toBinary64 = .ok w := by
  obtain ⟨hfinite, hvalue⟩ := toRat_toBinary64 h
  have hnearest : w.format.nearest w.toBinary64 = w.signed.toInt := by
    rw [QFormat.nearest, hvalue, div_mul_cancel₀ _ (by positivity), roundHalfEven_intCast]
  rw [QFormat.quantize_eq_ok_iff, hnearest, encode_signed hraw]
  exact ⟨⟨hfinite, inRange_signed hraw⟩, rfl⟩

/-- The scaled integers of formats up to 54 bits are doubles. -/
theorem representable_signed (hraw : w.raw.toNat < 2 ^ w.format.totalBits)
    (hwidth : w.format.totalBits ≤ 54) : Representable (w.signed.toInt.natAbs * unitsPerOne) := by
  have hle : (2 : ℤ) ^ (w.format.totalBits - 1) ≤ 2 ^ 53 :=
    pow_le_pow_right₀ (by norm_num) (by omega)
  obtain ⟨hlow, hhigh⟩ := inRange_signed hraw
  exact representable_whole (by omega)

end Word

namespace QFormat

variable {q : QFormat}

/-- The scaled integer nearest to a double is a double. -/
theorem representable_nearest (q : QFormat) (v : Binary64) :
    Representable ((q.nearest v).natAbs * unitsPerOne) := by
  have hscaled := (representable_units v).mul_two_pow q.fracBits
  have habs : (q.nearest v).natAbs = roundDiv (v.units * 2 ^ q.fracBits) unitsPerOne := by
    rw [nearest_eq]
    split_ifs <;> omega
  rw [habs]
  rcases hscaled.roundDiv with he | hlt
  · rwa [he]
  · exact representable_whole hlt.le

/-- An accepted double is within half of a least significant bit of the value of its word. That
value is exact, and it has the same word. -/
theorem toBinary64_of_quantize {v : Binary64} {w : Word} (h : q.quantize v = .ok w) :
    w.toBinary64.isFinite = true ∧
    w.toBinary64.toRat = (w.signed.toInt : ℚ) / 2 ^ q.fracBits ∧
    |w.toBinary64.toRat - v.toRat| ≤ 1 / 2 ^ (q.fracBits + 1) ∧
    q.quantize w.toBinary64 = .ok w := by
  obtain ⟨rfl, hraw⟩ := word_of_quantize h
  have hsigned := signed_of_quantize h
  have hrep := hsigned ▸ representable_nearest w.format v
  obtain ⟨hfinite, hvalue⟩ := Word.toRat_toBinary64 hrep
  refine ⟨hfinite, hvalue, ?_, Word.quantize_toBinary64 hraw hrep⟩
  have hpos : (0 : ℚ) < 2 ^ w.format.fracBits := by positivity
  have hdist := (isNearestEven_roundHalfEven (v.toRat * 2 ^ w.format.fracBits)).1
  rw [← nearest, ← hsigned, abs_sub_comm] at hdist
  calc |w.toBinary64.toRat - v.toRat|
      = |(w.signed.toInt - v.toRat * 2 ^ w.format.fracBits) / 2 ^ w.format.fracBits| := by
        rw [hvalue, sub_div, mul_div_cancel_right₀ _ hpos.ne']
    _ = |w.signed.toInt - v.toRat * 2 ^ w.format.fracBits| / 2 ^ w.format.fracBits := by
        rw [abs_div, abs_of_pos hpos]
    _ ≤ 1 / 2 / 2 ^ w.format.fracBits := by gcongr
    _ = 1 / 2 ^ (w.format.fracBits + 1) := by rw [div_div, pow_succ']

/-- `Q1.63` has the word `0CCCCCCCCCCCCD00` for the double nearest to a tenth, and the word stands
for just that double. -/
theorem toBinary64_of_quantize_tenth :
    (QFormat.mk 1 63 (by decide) (by decide)).quantize ⟨0x3FB999999999999A⟩ =
      .ok ⟨0x0CCCCCCCCCCCCD00, QFormat.mk 1 63 (by decide) (by decide)⟩ ∧
    (Word.mk 0x0CCCCCCCCCCCCD00 (QFormat.mk 1 63 (by decide) (by decide))).toBinary64.toRat =
      922337203685477632 / 2 ^ 63 := by
  have hok : (QFormat.mk 1 63 (by decide) (by decide)).quantize ⟨0x3FB999999999999A⟩ =
      .ok ⟨0x0CCCCCCCCCCCCD00, QFormat.mk 1 63 (by decide) (by decide)⟩ := by decide +kernel
  have hsigned :
      (Word.mk 0x0CCCCCCCCCCCCD00 (QFormat.mk 1 63 (by decide) (by decide))).signed.toInt =
      922337203685477632 := by decide +kernel
  refine ⟨hok, ?_⟩
  rw [(toBinary64_of_quantize hok).2.1, hsigned]
  norm_num

/-! ### Limits of the words -/

/-- The word of a scaled integer in range. -/
theorem word_encode {n : Int64} (h : q.InRange n.toInt) :
    Word.ofRaw (q.encode n) q = .ok ⟨q.encode n, q⟩ ∧ (Word.mk (q.encode n) q).signed = n := by
  have hraw := toNat_encode_lt h
  have hsigned := Word.signed_encode h
  rw [Int64.ofInt_toInt] at hraw hsigned
  exact ⟨Word.ofRaw_eq_ok_iff.2 ⟨hraw, rfl⟩, Int64.toInt_inj.1 hsigned⟩

/-- Up to 54 bits every word is what its value is quantized to. -/
theorem quantize_ofRaw (hwidth : q.totalBits ≤ 54) {raw : UInt64} {w : Word}
    (h : Word.ofRaw raw q = .ok w) : q.quantize w.toBinary64 = .ok w := by
  obtain ⟨hraw, rfl⟩ := Word.ofRaw_eq_ok_iff.1 h
  exact Word.quantize_toBinary64 (w := ⟨raw, q⟩) hraw (Word.representable_signed hraw hwidth)

/-- Up to 54 bits every scaled integer in range is accepted, converted to a double and divided. -/
theorem quantize_scaled (hwidth : q.totalBits ≤ 54) {n : Int64} (h : q.InRange n.toInt) :
    ∃ w, q.quantize ((ofInt n.toInt).div q.scale) = .ok w ∧ w.signed = n := by
  obtain ⟨hraw, hsigned⟩ := word_encode h
  have hquantize := quantize_ofRaw hwidth hraw
  rw [Word.toBinary64, hsigned] at hquantize
  exact ⟨_, hquantize, hsigned⟩

/-- Beyond 54 bits the greatest word is decoded to the power of two above it. -/
theorem toRat_toBinary64_maxValue (hwidth : 55 ≤ q.totalBits) :
    (Word.mk (q.encode q.maxValue) q).toBinary64.isFinite = true ∧
      (Word.mk (q.encode q.maxValue) q).toBinary64.toRat = 2 ^ (q.intBits - 1) := by
  have hle := q.totalBits_le
  have hbits := q.totalBits_pred
  have hdouble : ofInt q.maxValue.toInt = ofNat (2 ^ (q.totalBits - 1)) := by
    have hcast : q.maxValue.toInt = ((2 ^ (q.totalBits - 1) - 1 : ℕ) : ℤ) := by
      rw [toInt_maxValue, Nat.cast_sub Nat.one_le_two_pow]
      push_cast
      rfl
    rw [hcast, ofInt_natCast, ofNat_two_pow_pred (by omega)]
  have hk : q.totalBits - 1 < 1024 := by omega
  have hdvd : 2 ^ q.fracBits ∣ (ofNat (2 ^ (q.totalBits - 1))).units := by
    rw [units_ofNat_two_pow hk]
    exact (pow_dvd_pow 2 (by omega)).mul_right _
  obtain ⟨hfinite, hvalue⟩ := exact_div_ofNat_two_pow (isFinite_ofNat_two_pow hk) q.fracBits_lt hdvd
  rw [Word.toBinary64, (word_encode q.inRange_maxValue).2, hdouble]
  refine ⟨hfinite, hvalue.trans ?_⟩
  rw [toRat_ofNat_two_pow hk, hbits, pow_add, mul_div_cancel_right₀ _ (by positivity)]

/-- Words of up to 54 bits are what their values are quantized to, the greatest and the least among
them. In every wider format the greatest word has the value `2 ^ (intBits - 1)`, which is
refused. -/
theorem requantize_by_width (q : QFormat) :
    (q.totalBits ≤ 54 →
      (∀ raw ≤ q.mask, ∃ w, Word.ofRaw raw q = .ok w ∧ w.raw = raw ∧ w.format = q ∧
        q.quantize w.toBinary64 = .ok w) ∧
      (∃ w, q.quantize ((ofInt q.maxValue.toInt).div q.scale) = .ok w ∧ w.signed = q.maxValue) ∧
      ∃ w, q.quantize ((ofInt q.minValue.toInt).div q.scale) = .ok w ∧ w.signed = q.minValue) ∧
    (55 ≤ q.totalBits →
      ∃ w, Word.ofRaw (q.encode q.maxValue) q = .ok w ∧ w.raw = q.encode q.maxValue ∧
        w.format = q ∧ w.signed = q.maxValue ∧ w.toBinary64.isFinite = true ∧
        w.toBinary64.toRat = 2 ^ (q.intBits - 1) ∧
        q.quantize w.toBinary64 = .error ⟨w.toBinary64, q⟩) := by
  constructor
  · intro hwidth
    refine ⟨fun raw hraw => ?_, quantize_scaled hwidth q.inRange_maxValue,
      quantize_scaled hwidth q.inRange_minValue⟩
    have hok : Word.ofRaw raw q = .ok ⟨raw, q⟩ := Word.ofRaw_eq_ok_iff.2 ⟨le_mask_iff.1 hraw, rfl⟩
    exact ⟨_, hok, rfl, rfl, quantize_ofRaw hwidth hok⟩
  · intro hwidth
    obtain ⟨hraw, hsigned⟩ := word_encode q.inRange_maxValue
    obtain ⟨hfinite, hvalue⟩ := toRat_toBinary64_maxValue hwidth
    refine ⟨_, hraw, rfl, rfl, hsigned, hfinite, hvalue, ?_⟩
    have hnearest : q.nearest (Word.mk (q.encode q.maxValue) q).toBinary64 =
        2 ^ (q.totalBits - 1) := by
      rw [nearest, hvalue, ← pow_add, ← q.totalBits_pred]
      exact_mod_cast roundHalfEven_intCast (2 ^ (q.totalBits - 1))
    rw [quantize_eq, if_neg]
    rintro ⟨-, -, hle⟩
    rw [hnearest] at hle
    linarith

/-- Q1.53 keeps its least word, and Q1.54 refuses the value of its greatest. -/
theorem requantize_by_width_boundary :
    (∃ w, Word.ofRaw 0x20000000000000 (QFormat.mk 1 53 (by decide) (by decide)) = .ok w ∧
      w.raw = 0x20000000000000 ∧ w.format = QFormat.mk 1 53 (by decide) (by decide) ∧
      (QFormat.mk 1 53 (by decide) (by decide)).quantize w.toBinary64 = .ok w) ∧
    ∃ w, Word.ofRaw 0x3FFFFFFFFFFFFF (QFormat.mk 1 54 (by decide) (by decide)) = .ok w ∧
      w.toBinary64.toRat = 1 ∧
      (QFormat.mk 1 54 (by decide) (by decide)).quantize w.toBinary64 =
        .error ⟨w.toBinary64, QFormat.mk 1 54 (by decide) (by decide)⟩ := by
  refine ⟨((requantize_by_width _).1 (by decide)).1 _ (by decide +kernel), ?_⟩
  obtain ⟨w, hraw, -, -, -, -, hvalue, herror⟩ :=
    (requantize_by_width (QFormat.mk 1 54 (by decide) (by decide))).2 (by decide)
  have hmax : (QFormat.mk 1 54 (by decide) (by decide)).encode
      (QFormat.mk 1 54 (by decide) (by decide)).maxValue = 0x3FFFFFFFFFFFFF := by decide +kernel
  exact ⟨w, hmax ▸ hraw, hvalue.trans (pow_zero 2), herror⟩

end QFormat

end SynapseMem
