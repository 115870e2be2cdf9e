import SynapseMem.Proofs.Fixed.Decoding

/-!
# Quantization across values and formats

Two statements that compare one quantization with another. In one format the order of two values is
the order of their scaled integers and of the values of their words; it is not the order of the
words, among which the negative ones come last (`QFormat.quantize_monotone`). In two formats with
the same fractional bits one value has the same scaled integer, so the wider word is the narrow one
with its sign extended (`QFormat.quantize_widen`).

The second goes through `QFormat.bits`, the word as a bit vector of the format's width: it is read
as a signed number just as `Word.signed` reads the word (`QFormat.toInt_bits`).
-/

namespace SynapseMem.QFormat

open Binary64

/-! ### Two values in one format -/

section Order

variable {q : QFormat} {a b : Binary64} {v w : Word}

theorem nearest_mono (q : QFormat) (hab : a.toRat ≤ b.toRat) : q.nearest a ≤ q.nearest b := by
  refine roundHalfEven_mono ?_
  gcongr

/-- Values more than a least significant bit apart have different scaled integers. -/
theorem nearest_lt (q : QFormat) (hab : 1 / 2 ^ q.fracBits < b.toRat - a.toRat) :
    q.nearest a < q.nearest b := by
  refine roundHalfEven_lt ?_
  rwa [← sub_mul, ← div_lt_iff₀ (by positivity)]

/-- The value of a word that comes from quantizing is that of its scaled integer. -/
theorem toRat_of_quantize (h : q.quantize a = .ok v) :
    v.toBinary64.isFinite = true ∧ v.toBinary64.toRat = (v.signed.toInt : ℚ) / 2 ^ q.fracBits := by
  obtain ⟨rfl, -⟩ := word_of_quantize h
  exact Word.toRat_toBinary64 (signed_of_quantize h ▸ representable_nearest v.format a)

/-- Of two accepted doubles the lesser has the lesser scaled integer, strictly so when they are more
than a least significant bit apart, and the word of the lesser value. -/
theorem quantize_monotone (hab : a.toRat ≤ b.toRat) (ha : q.quantize a = .ok v)
    (hb : q.quantize b = .ok w) :
    v.signed ≤ w.signed ∧
    (v.toBinary64.isFinite = true ∧ w.toBinary64.isFinite = true ∧
      v.toBinary64.toRat ≤ w.toBinary64.toRat) ∧
    (1 / 2 ^ q.fracBits < b.toRat - a.toRat → v.signed < w.signed) := by
  have hle : v.signed.toInt ≤ w.signed.toInt := by
    rw [signed_of_quantize ha, signed_of_quantize hb]
    exact q.nearest_mono hab
  obtain ⟨hfinite, hvalue⟩ := toRat_of_quantize ha
  obtain ⟨hfinite', hvalue'⟩ := toRat_of_quantize hb
  refine ⟨Int64.le_iff_toInt_le.2 hle, ⟨hfinite, hfinite', ?_⟩, fun hapart => ?_⟩
  · rw [hvalue, hvalue']
    gcongr
  · rw [Int64.lt_iff_toInt_lt, signed_of_quantize ha, signed_of_quantize hb]
    exact q.nearest_lt hapart

/-- One and a half units below zero and half a unit above it, both ties: the greater value has the
lesser word. -/
theorem quantize_monotone_across_zero :
    (⟨0xBF18000000000000⟩ : Binary64).toRat ≤ (⟨0x3F00000000000000⟩ : Binary64).toRat ∧
    q2_14.quantize ⟨0xBF18000000000000⟩ = .ok ⟨0xFFFE, q2_14⟩ ∧
    q2_14.quantize ⟨0x3F00000000000000⟩ = .ok ⟨0, q2_14⟩ ∧
    (Word.mk 0xFFFE q2_14).signed < (Word.mk 0 q2_14).signed ∧
    (Word.mk 0xFFFE q2_14).toBinary64.toRat ≤ (Word.mk 0 q2_14).toBinary64.toRat := by
  have hlow : (⟨0xBF18000000000000⟩ : Binary64).toRat = -3 / 2 ^ 15 := by decide +kernel
  have hhigh : (⟨0x3F00000000000000⟩ : Binary64).toRat = 1 / 2 ^ 15 := by decide +kernel
  have hok : q2_14.quantize ⟨0xBF18000000000000⟩ = .ok ⟨0xFFFE, q2_14⟩ := by decide +kernel
  have hok' : q2_14.quantize ⟨0x3F00000000000000⟩ = .ok ⟨0, q2_14⟩ := by decide +kernel
  have hle : (⟨0xBF18000000000000⟩ : Binary64).toRat ≤ (⟨0x3F00000000000000⟩ : Binary64).toRat := by
    rw [hlow, hhigh]
    norm_num
  obtain ⟨-, ⟨-, -, hvalues⟩, hstrict⟩ := quantize_monotone hle hok hok'
  refine ⟨hle, hok, hok', hstrict ?_, hvalues⟩
  rw [hlow, hhigh]
  norm_num [q2_14]

end Order

/-! ### One value in two formats -/

/-- A word as a bit vector of the format's width. -/
def bits (q : QFormat) (raw : UInt64) : BitVec q.totalBits := raw.toBitVec.setWidth q.totalBits

theorem toNat_bits {q : QFormat} {raw : UInt64} (h : raw.toNat < 2 ^ q.totalBits) :
    (q.bits raw).toNat = raw.toNat := by
  rw [bits, BitVec.toNat_setWidth, UInt64.toNat_toBitVec, Nat.mod_eq_of_lt h]

/-- The signed reading of a word is that of its bits. -/
theorem toInt_bits {q : QFormat} {raw : UInt64} (h : raw.toNat < 2 ^ q.totalBits) :
    (q.bits raw).toInt = (Word.mk raw q).signed.toInt := by
  have hhalf : 2 * raw.toNat < 2 ^ q.totalBits ↔ raw.toNat < 2 ^ (q.totalBits - 1) := by
    rw [q.two_pow_totalBits]
    omega
  rw [BitVec.toInt_eq_toNat_cond, toNat_bits h, Word.toInt_signed h]
  simp only [hhalf]
  push_cast
  rfl

section Widening

variable {p q : QFormat} {v : Binary64} {w : Word}

theorem totalBits_le_of_widen (hfrac : q.fracBits = p.fracBits) (hint : p.intBits ≤ q.intBits) :
    p.totalBits ≤ q.totalBits := by
  unfold totalBits
  omega

/-- A wider format has every scaled integer of a narrower one. -/
theorem InRange.widen {n : ℤ} (h : p.InRange n) (hwidth : p.totalBits ≤ q.totalBits) :
    q.InRange n := by
  have hle : (2 : ℤ) ^ (p.totalBits - 1) ≤ 2 ^ (q.totalBits - 1) :=
    pow_le_pow_right₀ (by norm_num) (Nat.sub_le_sub_right hwidth 1)
  obtain ⟨hlow, hhigh⟩ := h
  exact ⟨by linarith, by linarith⟩

/-- What a format accepts, a wider one accepts with the same scaled integer. -/
theorem exists_quantize_of_widen (hfrac : q.fracBits = p.fracBits) (hint : p.intBits ≤ q.intBits)
    (h : p.quantize v = .ok w) : ∃ wide, q.quantize v = .ok wide ∧ wide.signed = w.signed := by
  obtain ⟨⟨hfinite, hrange⟩, -⟩ := p.quantize_eq_ok_iff.1 h
  have hnearest : q.nearest v = p.nearest v := by rw [nearest, nearest, hfrac]
  have hwide := q.quantize_eq_ok_iff.2
    ⟨⟨hfinite, hnearest ▸ hrange.widen (totalBits_le_of_widen hfrac hint)⟩, rfl⟩
  refine ⟨_, hwide, Int64.toInt_inj.1 ?_⟩
  rw [signed_of_quantize hwide, signed_of_quantize h, hnearest]

/-- Words of equal scaled integers are sign extensions of one another. -/
theorem bits_eq_signExtend (hwidth : p.totalBits ≤ q.totalBits) {raw raw' : UInt64}
    (hraw : raw.toNat < 2 ^ p.totalBits) (hraw' : raw'.toNat < 2 ^ q.totalBits)
    (hsigned : (Word.mk raw' q).signed = (Word.mk raw p).signed) :
    q.bits raw' = (p.bits raw).signExtend q.totalBits := by
  apply BitVec.eq_of_toInt_eq
  rw [BitVec.toInt_signExtend_of_le hwidth, toInt_bits hraw, toInt_bits hraw', hsigned]

/-- Extending the sign adds the powers of two between the widths, and only to negative words. -/
theorem toNat_signExtend_bits (hwidth : p.totalBits ≤ q.totalBits) {raw : UInt64}
    (hraw : raw.toNat < 2 ^ p.totalBits) :
    (((p.bits raw).signExtend q.totalBits).toNat : ℤ) =
      raw.toNat + if (Word.mk raw p).signed < 0 then 2 ^ q.totalBits - 2 ^ p.totalBits else 0 := by
  have hle : 2 ^ p.totalBits ≤ 2 ^ q.totalBits := pow_le_pow_right₀ (by norm_num) hwidth
  have hsign : (p.bits raw).msb = true ↔ (Word.mk raw p).signed < 0 := by
    rw [BitVec.msb_eq_toInt, decide_eq_true_iff, toInt_bits hraw, Int64.lt_iff_toInt_lt]
    rfl
  rw [BitVec.toNat_signExtend, BitVec.toNat_setWidth, toNat_bits hraw,
    Nat.mod_eq_of_lt (hraw.trans_le hle)]
  simp only [hsign]
  split_ifs
  · rw [Nat.cast_add, Nat.cast_sub hle]
    push_cast
    rfl
  · rfl

/-- A value is quantized in a wider format too: to the same scaled integer, which decodes to the
same double, and to the word with its sign extended. -/
theorem quantize_widen (hfrac : q.fracBits = p.fracBits) (hint : p.intBits ≤ q.intBits)
    (h : p.quantize v = .ok w) :
    ∃ wide, q.quantize v = .ok wide ∧ wide.signed = w.signed ∧ wide.toBinary64 = w.toBinary64 ∧
      q.bits wide.raw = (p.bits w.raw).signExtend q.totalBits ∧
      (0 ≤ w.signed → wide.raw = w.raw) ∧
      (w.signed < 0 → (wide.raw.toNat : ℤ) = w.raw.toNat + 2 ^ q.totalBits - 2 ^ p.totalBits) := by
  have hwidth := totalBits_le_of_widen hfrac hint
  obtain ⟨wide, hwide, hsigned⟩ := exists_quantize_of_widen hfrac hint h
  obtain ⟨rfl, hraw⟩ := word_of_quantize h
  obtain ⟨rfl, hraw'⟩ := word_of_quantize hwide
  have hbits := bits_eq_signExtend hwidth hraw hraw' hsigned
  have hnat := toNat_signExtend_bits hwidth hraw
  rw [← hbits, toNat_bits hraw'] at hnat
  refine ⟨wide, hwide, hsigned, ?_, hbits, fun hsign => ?_, fun hsign => ?_⟩
  · rw [Word.toBinary64, Word.toBinary64, hsigned, scale_eq, scale_eq, hfrac]
  · rw [if_neg (Int64.not_lt.2 hsign), add_zero] at hnat
    exact UInt64.toNat_inj.1 (by exact_mod_cast hnat)
  · rw [if_pos hsign] at hnat
    rw [hnat, add_sub_assoc]

/-- Minus one in a format of 16 bits and in the format of 64 bits with the same unit. -/
theorem quantize_widen_minus_one :
    q2_14.quantize ⟨0xBFF0000000000000⟩ = .ok ⟨0xC000, q2_14⟩ ∧
    ∃ wide, (QFormat.mk 50 14 (by decide) (by decide)).quantize ⟨0xBFF0000000000000⟩ = .ok wide ∧
      wide.signed = (Word.mk 0xC000 q2_14).signed ∧
      (wide.raw.toNat : ℤ) = 0xC000 + 2 ^ 64 - 2 ^ 16 := by
  have hok : q2_14.quantize ⟨0xBFF0000000000000⟩ = .ok ⟨0xC000, q2_14⟩ := by decide +kernel
  obtain ⟨wide, hwide, hsigned, -, -, -, hnegative⟩ :=
    quantize_widen (p := q2_14) (q := QFormat.mk 50 14 (by decide) (by decide)) rfl (by decide) hok
  exact ⟨hok, wide, hwide, hsigned, hnegative (by decide)⟩

end Widening

end SynapseMem.QFormat
