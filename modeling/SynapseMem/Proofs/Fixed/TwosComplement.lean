import Mathlib.Data.Int.ModEq
import Mathlib.Data.Set.Function
import SynapseMem.Proofs.Fixed.Decoding
import SynapseMem.Proofs.Fixed.Grammar

/-!
# Two's complement

The words of a format are the 64-bit words up to its mask (`QFormat.IsWord`), and whatever gives a
word of the format gives one of them (`QFormat.Obtained.isWord`). On these words the signed reading
and `QFormat.encode` undo each other, so they pair the words with the integers from
`QFormat.minValue` to `QFormat.maxValue`.

The limits, the encoding and the signed reading are computed with 128-bit numbers that are cut to 64
bits in the end. `CutsTo` and `CutsToWord` say that such a cut keeps the value, as it does for every
number that comes up (`cutsTo_ofInt`, `cutsToWord_ofInt`).
-/

namespace SynapseMem

/-! ### Cutting 128 bits to 64 -/

section Cuts

/-- The 128-bit number is cut to the signed number, and the value stays. -/
def CutsTo (wide : BitVec 128) (n : Int64) : Prop :=
  wide.setWidth 64 = n.toBitVec ∧ wide.toInt = n.toInt

/-- The 128-bit number is cut to the unsigned number, and the value stays. -/
def CutsToWord (wide : BitVec 128) (raw : UInt64) : Prop :=
  wide.setWidth 64 = raw.toBitVec ∧ wide.toInt = raw.toNat

/-- Cutting goes on with the integer modulo a lesser power of two. -/
theorem setWidth_ofInt (z : ℤ) : (BitVec.ofInt 128 z).setWidth 64 = BitVec.ofInt 64 z := by
  apply BitVec.eq_of_toNat_eq
  rw [BitVec.toNat_setWidth, BitVec.toNat_ofInt, BitVec.toNat_ofInt]
  omega

theorem ofInt_sub (w : ℕ) (x y : ℤ) :
    BitVec.ofInt w (x - y) = BitVec.ofInt w x - BitVec.ofInt w y := by
  rw [sub_eq_add_neg, BitVec.ofInt_add, BitVec.ofInt_neg, ← BitVec.sub_eq_add_neg]

theorem toInt_ofInt_of_lt {z : ℤ} (hlow : -2 ^ 127 ≤ z) (hhigh : z < 2 ^ 127) :
    (BitVec.ofInt 128 z).toInt = z :=
  BitVec.toInt_ofInt_eq_self (by norm_num) hlow hhigh

/-- An integer of 64 bits with a sign survives the cut. -/
theorem cutsTo_ofInt {z : ℤ} (hlow : -2 ^ 63 ≤ z) (hhigh : z < 2 ^ 63) :
    CutsTo (BitVec.ofInt 128 z) (Int64.ofInt z) := by
  refine ⟨?_, ?_⟩
  · rw [setWidth_ofInt, Int64.toBitVec_ofInt]
  · rw [toInt_ofInt_of_lt (by omega) (by omega), Int64.toInt_ofInt_of_le hlow hhigh]

/-- An integer of 64 bits without a sign survives the cut. -/
theorem cutsToWord_ofInt {z : ℤ} (hlow : 0 ≤ z) (hhigh : z < 2 ^ 64) :
    CutsToWord (BitVec.ofInt 128 z) (UInt64.ofInt z) := by
  have hnat : (UInt64.ofInt z).toNat = z.toNat := by
    rw [UInt64.ofInt, UInt64.toNat_ofNat', Int.emod_eq_of_lt hlow hhigh]
    omega
  refine ⟨?_, ?_⟩
  · apply BitVec.eq_of_toNat_eq
    rw [setWidth_ofInt, BitVec.toNat_ofInt, UInt64.toNat_toBitVec, hnat]
    omega
  · rw [toInt_ofInt_of_lt (by omega) (by omega), hnat, Int.toNat_of_nonneg hlow]

theorem twoPow_eq_ofInt {k : ℕ} (hk : k < 127) :
    BitVec.twoPow 128 k = BitVec.ofInt 128 (2 ^ k) := by
  have hlt : (2 : ℤ) ^ k < 2 ^ 127 := pow_lt_pow_right₀ (by norm_num) hk
  have hpos : (0 : ℤ) < 2 ^ k := by positivity
  apply BitVec.eq_of_toInt_eq
  rw [BitVec.toInt_twoPow, if_neg (by omega), if_neg (by omega),
    toInt_ofInt_of_lt (by linarith) hlt]

/-- A signed number is widened by its sign. -/
theorem signExtend_eq_ofInt (n : Int64) : n.toBitVec.signExtend 128 = BitVec.ofInt 128 n.toInt := by
  have hlow := n.le_toInt
  have hhigh := n.toInt_lt
  apply BitVec.eq_of_toInt_eq
  rw [BitVec.toInt_signExtend_of_le (by norm_num), toInt_ofInt_of_lt (by omega) (by omega)]
  rfl

/-- An unsigned number is widened by zeros. -/
theorem setWidth_eq_ofInt (raw : UInt64) :
    raw.toBitVec.setWidth 128 = BitVec.ofInt 128 raw.toNat := by
  have hlt := raw.toNat_lt
  apply BitVec.eq_of_toNat_eq
  rw [BitVec.toNat_setWidth, BitVec.toNat_ofInt, UInt64.toNat_toBitVec]
  omega

end Cuts

namespace QFormat

/-! ### The words of a format -/

section Words

/-- A word of the format, with no bit set above its width. -/
def IsWord (q : QFormat) (w : Word) : Prop := w.format = q ∧ w.raw ≤ q.mask

instance (q : QFormat) : DecidablePred q.IsWord :=
  fun w => inferInstanceAs (Decidable (w.format = q ∧ w.raw ≤ q.mask))

/-- The ways to a word: a number is quantized, a 64-bit word is taken over, or a token is read. -/
inductive Obtained (q : QFormat) (w : Word) : Prop
  | quantize {v : Binary64} (h : q.quantize v = .ok w)
  | ofRaw {raw : UInt64} (h : Word.ofRaw raw q = .ok w)
  | decode {token : String} (h : q.decode token = .ok w)

variable {q : QFormat} {w : Word}

theorem isWord_iff : q.IsWord w ↔ w.format = q ∧ w.raw.toNat < 2 ^ q.totalBits := by
  rw [IsWord, le_mask_iff]

theorem IsWord.toNat_lt (h : q.IsWord w) : w.raw.toNat < 2 ^ w.format.totalBits := by
  obtain ⟨rfl, hraw⟩ := isWord_iff.1 h
  exact hraw

theorem isWord_of_decode {token : String} (h : q.decode token = .ok w) : q.IsWord w := by
  have hread := reading_decode q token
  rw [h] at hread
  cases hread with
  | @word n hn hfits =>
    refine isWord_iff.2 ⟨rfl, ?_⟩
    rwa [UInt64.toNat_ofNat_of_lt' (hfits.trans_le q.two_pow_totalBits_le)]

theorem Obtained.isWord (h : q.Obtained w) : q.IsWord w := by
  cases h with
  | quantize h => exact isWord_iff.2 (word_of_quantize h)
  | ofRaw h =>
    obtain ⟨hraw, rfl⟩ := Word.ofRaw_eq_ok_iff.1 h
    exact isWord_iff.2 ⟨rfl, hraw⟩
  | decode h => exact isWord_of_decode h

end Words

/-! ### The signed reading -/

section Signed

variable (q : QFormat)

theorem inRange_toInt_iff (n : Int64) : q.InRange n.toInt ↔ q.minValue ≤ n ∧ n ≤ q.maxValue := by
  rw [InRange, Int64.le_iff_toInt_le, Int64.le_iff_toInt_le, toInt_minValue, toInt_maxValue]

/-- Words are read as integers between the limits. -/
theorem mapsTo_signed :
    Set.MapsTo (fun raw => (Word.mk raw q).signed) {raw | raw ≤ q.mask}
      {n | q.minValue ≤ n ∧ n ≤ q.maxValue} := by
  intro raw hraw
  exact (q.inRange_toInt_iff _).1 (Word.inRange_signed (w := ⟨raw, q⟩) (le_mask_iff.1 hraw))

/-- Integers between the limits are encoded as words. -/
theorem mapsTo_encode :
    Set.MapsTo q.encode {n | q.minValue ≤ n ∧ n ≤ q.maxValue} {raw | raw ≤ q.mask} := by
  intro n hn
  have hok := (word_encode ((q.inRange_toInt_iff n).2 hn)).1
  exact le_mask_iff.2 (Word.ofRaw_eq_ok_iff.1 hok).1

/-- Reading and encoding undo each other. -/
theorem invOn_encode_signed :
    Set.InvOn q.encode (fun raw => (Word.mk raw q).signed) {raw | raw ≤ q.mask}
      {n | q.minValue ≤ n ∧ n ≤ q.maxValue} := by
  constructor
  · intro raw hraw
    have hencode := Word.encode_signed (w := ⟨raw, q⟩) (le_mask_iff.1 hraw)
    rwa [Int64.ofInt_toInt] at hencode
  · intro n hn
    exact (word_encode ((q.inRange_toInt_iff n).2 hn)).2

/-- The signed reading differs from the word by nothing or by the number of words. -/
theorem signed_modEq {raw : UInt64} (hraw : raw ≤ q.mask) :
    (Word.mk raw q).signed.toInt ≡ raw.toNat [ZMOD 2 ^ q.totalBits] := by
  rw [Word.toInt_signed (w := ⟨raw, q⟩) (le_mask_iff.1 hraw)]
  split_ifs
  · rfl
  · exact Int.modEq_iff_dvd.2 ⟨1, by ring⟩

end Signed

/-! ### The computations with 128 bits -/

section Wide

variable (q : QFormat)

/-- The bit above the word, as a 128-bit number. -/
theorem twoPow_totalBits : BitVec.twoPow 128 q.totalBits = BitVec.ofInt 128 (2 ^ q.totalBits) :=
  twoPow_eq_ofInt (by have := q.totalBits_le; omega)

/-- The sign bit, as a 128-bit number. -/
theorem twoPow_pred :
    BitVec.twoPow 128 (q.totalBits - 1) = BitVec.ofInt 128 (2 ^ (q.totalBits - 1)) :=
  twoPow_eq_ofInt (by have := q.totalBits_le; omega)

theorem cutsTo_maxValue : CutsTo (BitVec.twoPow 128 (q.totalBits - 1) - 1) q.maxValue := by
  have hrange := q.inRange_maxValue.int64
  rw [toInt_maxValue] at hrange
  have hcut := cutsTo_ofInt hrange.1 hrange.2
  rw [ofInt_sub, ← twoPow_pred, BitVec.ofInt_ofNat] at hcut
  rwa [maxValue, Nat.pow_eq, Nat.cast_pow, Nat.cast_ofNat]

theorem cutsTo_minValue : CutsTo (-BitVec.twoPow 128 (q.totalBits - 1)) q.minValue := by
  have hrange := q.inRange_minValue.int64
  rw [toInt_minValue] at hrange
  have hcut := cutsTo_ofInt hrange.1 hrange.2
  rw [BitVec.ofInt_neg, ← twoPow_pred] at hcut
  rwa [minValue, Nat.pow_eq, Nat.cast_pow, Nat.cast_ofNat]

variable {q}

/-- A negative integer is encoded by the number of words added to it. -/
theorem cutsToWord_encode {n : Int64} (hn : q.minValue ≤ n) (hneg : n < 0) :
    CutsToWord (BitVec.twoPow 128 q.totalBits + n.toBitVec.signExtend 128) (q.encode n) := by
  have hle : (2 : ℤ) ^ q.totalBits ≤ 2 ^ 64 := by exact_mod_cast q.two_pow_totalBits_le
  have hhalf : (2 : ℤ) ^ q.totalBits = 2 * 2 ^ (q.totalBits - 1) := by
    exact_mod_cast q.two_pow_totalBits
  have hnegative : n.toInt < 0 := Int64.lt_iff_toInt_lt.1 hneg
  have hlow := Int64.le_iff_toInt_le.1 hn
  rw [toInt_minValue] at hlow
  have hpos : (0 : ℤ) < 2 ^ (q.totalBits - 1) := by positivity
  have hcut := cutsToWord_ofInt (z := 2 ^ q.totalBits + n.toInt) (by linarith) (by linarith)
  rw [BitVec.ofInt_add, ← twoPow_totalBits, ← signExtend_eq_ofInt] at hcut
  rwa [encode, if_pos hneg, Nat.pow_eq, Nat.cast_pow, Nat.cast_ofNat]

/-- An integer that is not negative is encoded as it is. -/
theorem encode_of_nonneg {n : Int64} (hn : 0 ≤ n) :
    (q.encode n).toBitVec = n.toBitVec ∧ ((q.encode n).toNat : ℤ) = n.toInt := by
  have hnonneg : 0 ≤ n.toInt := Int64.le_iff_toInt_le.1 hn
  have hlt := n.toInt_lt
  obtain ⟨hbits, hvalue⟩ := cutsToWord_ofInt hnonneg (by omega)
  rw [encode, if_neg (Int64.not_lt.2 hn)]
  refine ⟨?_, ?_⟩
  · rw [← hbits, setWidth_ofInt]
    exact BitVec.ofInt_toInt
  · rw [← hvalue, toInt_ofInt_of_lt (by omega) (by omega)]

/-- The test for the sign bit tells the halves of the words apart. -/
theorem and_signBit_iff {raw : UInt64} (hraw : raw ≤ q.mask) :
    raw &&& ((1 : UInt64) <<< UInt64.ofNat (q.totalBits - 1)) = 0 ↔
      raw.toNat < 2 ^ (q.totalBits - 1) := by
  have hle := q.totalBits_le
  have hpos := q.totalBits_pos
  refine Word.and_signBit_eq_zero_iff (by omega) ?_
  rw [← two_pow_totalBits]
  exact le_mask_iff.1 hraw

/-- A word with its sign bit set is read with the number of words taken away. -/
theorem cutsTo_signed {raw : UInt64} (hraw : raw ≤ q.mask)
    (hsign : raw &&& ((1 : UInt64) <<< UInt64.ofNat (q.totalBits - 1)) ≠ 0) :
    CutsTo (raw.toBitVec.setWidth 128 - BitVec.twoPow 128 q.totalBits) (Word.mk raw q).signed := by
  have hlt := le_mask_iff.1 hraw
  have hvalue := Word.toInt_signed (w := ⟨raw, q⟩) hlt
  rw [if_neg (mt (and_signBit_iff hraw).2 hsign)] at hvalue
  have hrange := (Word.inRange_signed (w := ⟨raw, q⟩) hlt).int64
  have hcut := cutsTo_ofInt hrange.1 hrange.2
  rwa [Int64.ofInt_toInt, hvalue, ofInt_sub, ← twoPow_totalBits, ← setWidth_eq_ofInt] at hcut

/-- A word without its sign bit is read as it is. -/
theorem signed_of_signBit {raw : UInt64} (hraw : raw ≤ q.mask)
    (hsign : raw &&& ((1 : UInt64) <<< UInt64.ofNat (q.totalBits - 1)) = 0) :
    (Word.mk raw q).signed.toBitVec = raw.toBitVec ∧ (Word.mk raw q).signed.toInt = raw.toNat := by
  have hvalue := Word.toInt_signed (w := ⟨raw, q⟩) (le_mask_iff.1 hraw)
  rw [if_pos ((and_signBit_iff hraw).1 hsign)] at hvalue
  refine ⟨?_, hvalue⟩
  calc (Word.mk raw q).signed.toBitVec = BitVec.ofInt 64 (Word.mk raw q).signed.toInt :=
        BitVec.ofInt_toInt.symm
    _ = BitVec.ofInt 64 raw.toNat := by rw [hvalue]
    _ = raw.toBitVec := by
      rw [BitVec.ofInt_natCast]
      exact BitVec.ofNat_toNat 64 raw.toBitVec

/-- The limits, the encoding and the signed reading, each computed with 128 bits or with none but
the 64 bits of its argument. No cut changes a value. -/
structure ExactCuts (q : QFormat) : Prop where
  maxValue : CutsTo (BitVec.twoPow 128 (q.totalBits - 1) - 1) q.maxValue
  minValue : CutsTo (-BitVec.twoPow 128 (q.totalBits - 1)) q.minValue
  encode_neg : ∀ n, q.minValue ≤ n → n < 0 →
    CutsToWord (BitVec.twoPow 128 q.totalBits + n.toBitVec.signExtend 128) (q.encode n)
  encode_nonneg : ∀ n, 0 ≤ n → (q.encode n).toBitVec = n.toBitVec ∧
    ((q.encode n).toNat : ℤ) = n.toInt
  signed_neg : ∀ raw ≤ q.mask, raw &&& ((1 : UInt64) <<< UInt64.ofNat (q.totalBits - 1)) ≠ 0 →
    CutsTo (raw.toBitVec.setWidth 128 - BitVec.twoPow 128 q.totalBits) (Word.mk raw q).signed
  signed_nonneg : ∀ raw ≤ q.mask, raw &&& ((1 : UInt64) <<< UInt64.ofNat (q.totalBits - 1)) = 0 →
    (Word.mk raw q).signed.toBitVec = raw.toBitVec ∧ (Word.mk raw q).signed.toInt = raw.toNat

theorem exactCuts (q : QFormat) : q.ExactCuts where
  maxValue := q.cutsTo_maxValue
  minValue := q.cutsTo_minValue
  encode_neg _ := cutsToWord_encode
  encode_nonneg _ := encode_of_nonneg
  signed_neg _ := cutsTo_signed
  signed_nonneg _ := signed_of_signBit

end Wide

/-- The signed reading pairs the words up to the mask with the integers between the limits, and
encoding is its inverse. It is congruent to the word modulo the number of words. A 64-bit word is
taken over exactly when it is up to the mask, as is every word however it was obtained, and no cut
to 64 bits in the computations changes a value. -/
theorem signed_twosComplement (q : QFormat) :
    (q.minValue.toInt = -2 ^ (q.totalBits - 1) ∧ q.maxValue.toInt = 2 ^ (q.totalBits - 1) - 1 ∧
      q.mask.toNat = 2 ^ q.totalBits - 1) ∧
    Set.BijOn (fun raw => (Word.mk raw q).signed) {raw | raw ≤ q.mask}
      {n | q.minValue ≤ n ∧ n ≤ q.maxValue} ∧
    Set.InvOn q.encode (fun raw => (Word.mk raw q).signed) {raw | raw ≤ q.mask}
      {n | q.minValue ≤ n ∧ n ≤ q.maxValue} ∧
    (∀ raw ≤ q.mask, (Word.mk raw q).signed.toInt ≡ raw.toNat [ZMOD 2 ^ q.totalBits]) ∧
    (∀ raw, (∃ w, Word.ofRaw raw q = .ok w) ↔ raw ≤ q.mask) ∧
    (∀ w, q.Obtained w → w.format = q ∧ w.raw ≤ q.mask) ∧
    q.ExactCuts := by
  refine ⟨⟨q.toInt_minValue, q.toInt_maxValue, q.toNat_mask⟩,
    q.invOn_encode_signed.bijOn q.mapsTo_signed q.mapsTo_encode, q.invOn_encode_signed,
    fun raw => q.signed_modEq, fun raw => ?_, fun w hw => hw.isWord, q.exactCuts⟩
  simp only [Word.ofRaw_eq_ok_iff, le_mask_iff, exists_and_left, exists_eq, and_true]

/-- The least word of a format of full width is read as `-2 ^ 63` by taking `2 ^ 64` away, and the
one word of `Q1.0` that is not zero as `-1`. -/
theorem signed_twosComplement_extremes :
    (0x8000000000000000 ≤ (QFormat.mk 1 63 (by decide) (by decide)).mask ∧
      CutsTo (BitVec.ofNat 128 (2 ^ 63) - BitVec.twoPow 128 64)
        (Word.mk 0x8000000000000000 (QFormat.mk 1 63 (by decide) (by decide))).signed) ∧
    (1 ≤ (QFormat.mk 1 0 (by decide) (by decide)).mask ∧
      (QFormat.mk 1 0 (by decide) (by decide)).minValue ≤
        (Word.mk 1 (QFormat.mk 1 0 (by decide) (by decide))).signed ∧
      (QFormat.mk 1 0 (by decide) (by decide)).encode
        (Word.mk 1 (QFormat.mk 1 0 (by decide) (by decide))).signed = 1 ∧
      (Word.mk 1 (QFormat.mk 1 0 (by decide) (by decide))).signed.toInt ≡ 1 [ZMOD 2 ^ 1]) := by
  have hfull : 0x8000000000000000 ≤ (QFormat.mk 1 63 (by decide) (by decide)).mask := by decide
  have hsingle : 1 ≤ (QFormat.mk 1 0 (by decide) (by decide)).mask := by decide
  obtain ⟨-, -, -, -, -, -, hcuts⟩ :=
    signed_twosComplement (QFormat.mk 1 63 (by decide) (by decide))
  obtain ⟨-, hbij, hinv, hmod, -⟩ := signed_twosComplement (QFormat.mk 1 0 (by decide) (by decide))
  exact ⟨⟨hfull, hcuts.signed_neg _ hfull (by decide)⟩, hsingle, (hbij.mapsTo hsingle).1,
    hinv.1 hsingle, hmod 1 hsingle⟩

end QFormat

end SynapseMem
