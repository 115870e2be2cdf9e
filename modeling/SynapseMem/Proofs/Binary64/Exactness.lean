import Mathlib.Tactic
import SynapseMem.Binary64.Arithmetic

/-!
# Exact results of the arithmetic of doubles

A count of units is *representable* when it is a count of at most 53 binary digits, shifted.
Rounding leaves a representable count alone, or sends it to infinity when it reaches `2 ^ 2098`
units, that is `2 ^ 1024`. From this:

* `isFinite_ofQuotient`, `units_ofQuotient`: an exact quotient is its own rounding;
* `isFinite_mul_ofNat_two_pow`, `units_mul_ofNat_two_pow`: multiplying by a power of two only
  shifts;
* `exact_div_ofNat_two_pow`: so does dividing, unless digits fall off below;
* `units_roundTiesEven`, `units_roundTiesAway`: rounding to a whole number loses nothing afterwards;
* `toRat_ofInt`: an integer with the units of a double is that double, and `ofNat_two_pow_pred` is
  the first kind of integer that is not.
-/

namespace SynapseMem

/-! ### Division to the nearest whole number -/

theorem roundDiv_mul_self {d : ℕ} (hd : 0 < d) (c : ℕ) : roundDiv (c * d) d = c := by
  simp [roundDiv, Nat.mul_div_cancel c hd, hd]

theorem div_le_roundDiv (n d : ℕ) : n / d ≤ roundDiv n d := by
  unfold roundDiv
  dsimp only
  split_ifs <;> omega

theorem roundDiv_le (n d : ℕ) : roundDiv n d ≤ n / d + 1 := by
  unfold roundDiv
  dsimp only
  split_ifs <;> omega

theorem roundDiv_mul_mul_right (n d : ℕ) {k : ℕ} (hk : 0 < k) :
    roundDiv (n * k) (d * k) = roundDiv n d := by
  have hbelow : 2 * (n % d * k) < d * k ↔ 2 * (n % d) < d := by
    rw [← mul_assoc]
    exact Nat.mul_lt_mul_right hk
  have habove : d * k < 2 * (n % d * k) ↔ d < 2 * (n % d) := by
    rw [← mul_assoc]
    exact Nat.mul_lt_mul_right hk
  simp only [roundDiv, Nat.mul_div_mul_right _ _ hk, Nat.mul_mod_mul_right, hbelow, habove]

/-- One less than an even multiple of `d` is at least half way up to it from the multiple before. -/
theorem roundDiv_pred {c d : ℕ} (hc : 0 < c) (heven : Even c) (hd : 2 ≤ d) :
    roundDiv (c * d - 1) d = c := by
  have hsplit : c * d - 1 = d - 1 + (c - 1) * d := by
    rw [Nat.sub_one_mul]
    have := Nat.le_mul_of_pos_left d hc
    omega
  have hquotient : (c * d - 1) / d = c - 1 := by
    rw [hsplit, Nat.add_mul_div_right _ _ (by omega), Nat.div_eq_of_lt (by omega), Nat.zero_add]
  have hremainder : (c * d - 1) % d = d - 1 := by
    rw [hsplit, Nat.add_mul_mod_self_right, Nat.mod_eq_of_lt (by omega)]
  rw [Nat.even_iff] at heven
  simp only [roundDiv, hquotient, hremainder]
  split_ifs <;> omega

namespace Binary64

/-! ### The fields of a word -/

theorem fractionCount_eq : fractionCount = 2 ^ 52 := by norm_num [fractionCount]

theorem infinityMagnitude_eq : infinityMagnitude = 2047 * 2 ^ 52 := by norm_num [infinityMagnitude]

theorem unitsPerOne_eq : unitsPerOne = 2 ^ 1074 := by
  unfold unitsPerOne
  exact Nat.pow_eq

theorem unitsPerOne_pos : 0 < unitsPerOne := by rw [unitsPerOne_eq]; positivity

/-- A power of two in two parts. Its exponent is kept apart, so that no large power is evaluated. -/
theorem two_pow_eq_mul {a b n : ℕ} (h : a + b = n) : 2 ^ n = 2 ^ a * 2 ^ b := by
  rw [← h, pow_add]

section OfMagnitude

variable {m : ℕ}

theorem bits_ofMagnitude (s : Bool) (hm : m ≤ infinityMagnitude) :
    (ofMagnitude s m).bits.toNat = (if s then signWeight else 0) + m := by
  rw [ofMagnitude, UInt64.toNat_ofNat']
  apply Nat.mod_eq_of_lt
  rw [infinityMagnitude] at hm
  cases s <;> simp [signWeight] <;> omega

@[simp] theorem magnitude_ofMagnitude (s : Bool) (hm : m ≤ infinityMagnitude) :
    (ofMagnitude s m).magnitude = m := by
  rw [magnitude, bits_ofMagnitude s hm]
  rw [infinityMagnitude] at hm
  cases s <;> simp [signWeight] <;> omega

@[simp] theorem negative_ofMagnitude (s : Bool) (hm : m ≤ infinityMagnitude) :
    (ofMagnitude s m).negative = s := by
  rw [negative, bits_ofMagnitude s hm]
  rw [infinityMagnitude] at hm
  cases s with
  | false => simp [signWeight]; omega
  | true => simp

theorem isFinite_ofMagnitude (s : Bool) (hm : m ≤ infinityMagnitude) :
    (ofMagnitude s m).isFinite = decide (m < infinityMagnitude) := by
  rw [isFinite, magnitude_ofMagnitude s hm]

theorem units_ofMagnitude (s : Bool) (hm : m ≤ infinityMagnitude) :
    (ofMagnitude s m).units = unitsOfMagnitude m := by
  rw [units, magnitude_ofMagnitude s hm]

end OfMagnitude

theorem isNaN_of_isFinite {x : Binary64} (h : x.isFinite = true) : x.isNaN = false := by
  simp only [isFinite, isNaN, decide_eq_true_eq, decide_eq_false_iff_not] at *
  omega

theorem isInfinite_of_isFinite {x : Binary64} (h : x.isFinite = true) : x.isInfinite = false := by
  simp only [isFinite, isInfinite, decide_eq_true_eq, beq_eq_false_iff_ne] at *
  omega

theorem lt_iff {x y : Binary64} (hx : x.isNaN = false) (hy : y.isNaN = false) :
    x.lt y = true ↔ x.signedUnits < y.signedUnits := by
  simp [lt, hx, hy]

/-! ### Counts of spacings -/

/-- A count of spacings `2 ^ s` in the form of a double: the count has 53 binary digits, or the
spacing is the least one. -/
structure Normal (c s : ℕ) : Prop where
  lt : c < 2 ^ 53
  full : 2 ^ 52 ≤ c ∨ s = 0

/-- The units of a double: at most 53 binary digits, shifted. -/
def Representable (u : ℕ) : Prop := ∃ c s, c < 2 ^ 53 ∧ u = c * 2 ^ s

theorem Normal.representable {c s : ℕ} (h : Normal c s) : Representable (c * 2 ^ s) :=
  ⟨c, s, h.lt, rfl⟩

/-- A short count is doubled until it is full or the spacing is the least one. -/
theorem exists_normal {c : ℕ} (hc : c < 2 ^ 53) (s : ℕ) :
    ∃ c' s', Normal c' s' ∧ c * 2 ^ s = c' * 2 ^ s' := by
  induction s generalizing c with
  | zero => exact ⟨c, 0, ⟨hc, .inr rfl⟩, rfl⟩
  | succ s ih =>
    by_cases hfull : 2 ^ 52 ≤ c
    · exact ⟨c, s + 1, ⟨hc, .inl hfull⟩, rfl⟩
    · obtain ⟨c', s', hn, he⟩ := ih (c := c * 2) (by omega)
      exact ⟨c', s', hn, by rw [← he, pow_succ']; ring⟩

theorem Representable.exists_normal {u : ℕ} (h : Representable u) :
    ∃ c s, Normal c s ∧ u = c * 2 ^ s := by
  obtain ⟨c, s, hc, rfl⟩ := h
  exact Binary64.exists_normal hc s

theorem Representable.mul_two_pow {u : ℕ} (h : Representable u) (k : ℕ) :
    Representable (u * 2 ^ k) := by
  obtain ⟨c, s, hc, rfl⟩ := h
  exact ⟨c, s + k, hc, by rw [pow_add, mul_assoc]⟩

/-- Digits that a shift has brought in can be taken away again. -/
theorem Representable.of_mul_two_pow {u k : ℕ} (h : Representable (u * 2 ^ k)) :
    Representable u := by
  obtain ⟨c, s, hc, he⟩ := h
  rcases le_total k s with hks | hsk
  · refine ⟨c, s - k, hc, Nat.eq_of_mul_eq_mul_right (Nat.two_pow_pos k) ?_⟩
    rw [he, mul_assoc, ← pow_add, Nat.sub_add_cancel hks]
  · have hcount : u * 2 ^ (k - s) = c := by
      refine Nat.eq_of_mul_eq_mul_right (Nat.two_pow_pos s) ?_
      rw [mul_assoc, ← pow_add, Nat.sub_add_cancel hsk, he]
    refine ⟨u, 0, lt_of_le_of_lt ?_ hc, by rw [pow_zero, mul_one]⟩
    rw [← hcount]
    exact Nat.le_mul_of_pos_right u (Nat.two_pow_pos (k - s))

theorem log2_mul_two_pow {n k : ℕ} (hlow : 2 ^ k ≤ n) (hhigh : n < 2 ^ (k + 1)) (s : ℕ) :
    Nat.log2 (n * 2 ^ s) = k + s := by
  have hpos : 0 < n := (Nat.two_pow_pos k).trans_le hlow
  rw [Nat.log2_eq_iff (Nat.mul_pos hpos (Nat.two_pow_pos s)).ne', pow_add, add_right_comm, pow_add]
  exact ⟨Nat.mul_le_mul_right _ hlow, Nat.mul_lt_mul_of_pos_right hhigh (Nat.two_pow_pos s)⟩

/-- The spacing is read off the length of the units. -/
theorem Normal.log2_sub {c s : ℕ} (h : Normal c s) : Nat.log2 (c * 2 ^ s) - 52 = s := by
  rcases h.full with hfull | rfl
  · have hlog := log2_mul_two_pow hfull h.lt s
    omega
  · by_cases hc : c = 0
    · simp [hc]
    · have := (Nat.log2_lt hc).2 h.lt
      simp only [pow_zero, mul_one]
      omega

/-- The bound of the finite doubles, seen on the spacing. -/
theorem Normal.lt_two_pow_iff {c s : ℕ} (h : Normal c s) : c * 2 ^ s < 2 ^ 2098 ↔ s ≤ 2045 := by
  constructor
  · intro hlt
    by_contra hs
    rcases h.full with hfull | rfl
    · have : 2 ^ 2098 ≤ c * 2 ^ s := by
        rw [two_pow_eq_mul (show 52 + 2046 = 2098 by norm_num)]
        exact Nat.mul_le_mul hfull (pow_le_pow_right₀ (by norm_num) (by omega))
      omega
    · omega
  · intro hs
    rw [two_pow_eq_mul (show 53 + 2045 = 2098 by norm_num)]
    exact Nat.mul_lt_mul_of_lt_of_le h.lt (pow_le_pow_right₀ (by norm_num) hs) (by positivity)

/-- The magnitude made of a spacing and a count of spacings. -/
theorem Normal.unitsOfMagnitude {c s : ℕ} (h : Normal c s) :
    unitsOfMagnitude (s * 2 ^ 52 + c) = c * 2 ^ s := by
  have hlt := h.lt
  rw [Binary64.unitsOfMagnitude, fractionCount_eq]
  by_cases hfull : 2 ^ 52 ≤ c
  · have hdiv : (s * 2 ^ 52 + c) / 2 ^ 52 = s + 1 := by omega
    have hmod : (s * 2 ^ 52 + c) % 2 ^ 52 = c - 2 ^ 52 := by omega
    rw [hdiv, hmod, if_neg (by omega), Nat.add_sub_cancel' hfull, Nat.add_sub_cancel]
    rfl
  · obtain rfl : s = 0 := h.full.resolve_left hfull
    rw [if_pos (by omega), zero_mul, zero_add, pow_zero, mul_one]

/-- Every magnitude is a spacing and a count of spacings. -/
theorem exists_normal_magnitude (m : ℕ) : ∃ c s, Normal c s ∧ m = s * 2 ^ 52 + c := by
  by_cases hm : m < 2 ^ 52
  · exact ⟨m, 0, ⟨by omega, .inr rfl⟩, by omega⟩
  · exact ⟨2 ^ 52 + m % 2 ^ 52, m / 2 ^ 52 - 1, ⟨by omega, .inl (by omega)⟩, by omega⟩

theorem representable_units (x : Binary64) : Representable x.units := by
  obtain ⟨c, s, hn, hm⟩ := exists_normal_magnitude x.magnitude
  rw [units, hm, hn.unitsOfMagnitude]
  exact hn.representable

/-- The finite numbers are those below `2 ^ 1024`. -/
theorem units_lt_iff {x : Binary64} : x.units < 2 ^ 2098 ↔ x.isFinite = true := by
  obtain ⟨c, s, hn, hm⟩ := exists_normal_magnitude x.magnitude
  have hlt := hn.lt
  rw [units, isFinite, decide_eq_true_eq, infinityMagnitude_eq, hm, hn.unitsOfMagnitude,
    hn.lt_two_pow_iff]
  rcases hn.full with hfull | rfl <;> omega

/-! ### Exact quotients -/

section Exact

variable {num den u : ℕ}

/-- Rounding finds the spacing and the count of a quotient that has them. -/
theorem nearestMagnitude_of_normal {c s : ℕ} (hn : Normal c s) (hden : 0 < den)
    (he : num * unitsPerOne = den * (c * 2 ^ s)) :
    nearestMagnitude num den = if s ≤ 2045 then s * 2 ^ 52 + c else infinityMagnitude := by
  have hspacing : Nat.log2 (num * unitsPerOne / den) - 52 = s := by
    rw [he, Nat.mul_div_cancel_left _ hden, hn.log2_sub]
  have hround : roundDiv (num * unitsPerOne) (den * Nat.pow 2 s) = c := by
    rw [he, show den * (c * 2 ^ s) = c * (den * Nat.pow 2 s) by rw [Nat.pow_eq]; ring]
    exact roundDiv_mul_self (Nat.mul_pos hden (Nat.two_pow_pos s)) c
  have hlt := hn.lt
  simp only [nearestMagnitude, hspacing, hround, fractionCount_eq, infinityMagnitude_eq]
  split_ifs with hs
  · exact Nat.min_eq_left (by omega)
  · exact Nat.min_eq_right (by rcases hn.full with hfull | rfl <;> omega)

theorem nearestMagnitude_le (num den : ℕ) : nearestMagnitude num den ≤ infinityMagnitude :=
  Nat.min_le_right _ _

@[simp] theorem negative_ofQuotient (s : Bool) (num den : ℕ) :
    (ofQuotient s num den).negative = s :=
  negative_ofMagnitude s (nearestMagnitude_le num den)

/-- An exact quotient overflows only when it reaches `2 ^ 1024`. -/
theorem isFinite_ofQuotient (s : Bool) (hu : Representable u) (hden : 0 < den)
    (he : num * unitsPerOne = den * u) :
    (ofQuotient s num den).isFinite = decide (u < 2 ^ 2098) := by
  obtain ⟨c, k, hn, rfl⟩ := hu.exists_normal
  rw [ofQuotient, isFinite_ofMagnitude s (nearestMagnitude_le num den),
    nearestMagnitude_of_normal hn hden he, decide_eq_decide, hn.lt_two_pow_iff,
    infinityMagnitude_eq]
  have hlt := hn.lt
  split_ifs <;> omega

/-- A representable quotient below `2 ^ 1024` is its own rounding. -/
theorem units_ofQuotient (s : Bool) (hu : Representable u) (hden : 0 < den)
    (he : num * unitsPerOne = den * u) (hlt : u < 2 ^ 2098) :
    (ofQuotient s num den).units = u := by
  obtain ⟨c, k, hn, rfl⟩ := hu.exists_normal
  rw [ofQuotient, units_ofMagnitude s (nearestMagnitude_le num den),
    nearestMagnitude_of_normal hn hden he, if_pos (hn.lt_two_pow_iff.1 hlt), hn.unitsOfMagnitude]

end Exact

/-! ### Powers of two -/

section PowersOfTwo

variable {k : ℕ}

theorem representable_two_pow (k : ℕ) : Representable (2 ^ k * unitsPerOne) :=
  ⟨1, k + 1074, by norm_num, by rw [unitsPerOne_eq, pow_add, one_mul]⟩

theorem two_pow_units_lt (hk : k < 1024) : 2 ^ k * unitsPerOne < 2 ^ 2098 := by
  rw [unitsPerOne_eq, ← pow_add]
  exact pow_lt_pow_right₀ (by norm_num) (by omega)

theorem isFinite_ofNat_two_pow (hk : k < 1024) : (ofNat (2 ^ k)).isFinite = true := by
  rw [ofNat, isFinite_ofQuotient false (representable_two_pow k) one_pos (one_mul _).symm]
  exact decide_eq_true (two_pow_units_lt hk)

theorem units_ofNat_two_pow (hk : k < 1024) : (ofNat (2 ^ k)).units = 2 ^ k * unitsPerOne :=
  units_ofQuotient false (representable_two_pow k) one_pos (one_mul _).symm (two_pow_units_lt hk)

@[simp] theorem negative_ofNat (n : ℕ) : (ofNat n).negative = false := negative_ofQuotient false n 1

theorem toRat_ofNat_two_pow (hk : k < 1024) : (ofNat (2 ^ k)).toRat = 2 ^ k := by
  have hpos : (unitsPerOne : ℚ) ≠ 0 := by exact_mod_cast unitsPerOne_pos.ne'
  rw [toRat, signedUnits, negative_ofNat, if_neg Bool.false_ne_true, units_ofNat_two_pow hk]
  push_cast
  exact mul_div_cancel_right₀ _ hpos

theorem isZero_ofNat_two_pow (hk : k < 1024) : (ofNat (2 ^ k)).isZero = false := by
  have hpos : 0 < (ofNat (2 ^ k)).units := by
    rw [units_ofNat_two_pow hk]
    exact Nat.mul_pos (by positivity) unitsPerOne_pos
  rw [isZero, beq_eq_false_iff_ne]
  intro hz
  rw [units, hz] at hpos
  exact absurd hpos (by decide)

/-- The exact product with a power of two, in units. -/
theorem two_pow_product (u k : ℕ) :
    u * (2 ^ k * unitsPerOne) * unitsPerOne = unitsPerOne * unitsPerOne * (u * 2 ^ k) := by ring

variable {x : Binary64}

theorem mul_ofNat_two_pow (hx : x.isFinite = true) (hk : k < 1024) :
    x.mul (ofNat (2 ^ k)) =
      ofQuotient x.negative (x.units * (2 ^ k * unitsPerOne)) (unitsPerOne * unitsPerOne) := by
  have hp := isFinite_ofNat_two_pow hk
  simp [mul, isNaN_of_isFinite hx, isNaN_of_isFinite hp, isInfinite_of_isFinite hx,
    isInfinite_of_isFinite hp, units_ofNat_two_pow hk]

/-- A product with a power of two is finite below `2 ^ 1024`. -/
theorem isFinite_mul_ofNat_two_pow (hx : x.isFinite = true) (hk : k < 1024) :
    (x.mul (ofNat (2 ^ k))).isFinite = decide (x.units * 2 ^ k < 2 ^ 2098) := by
  rw [mul_ofNat_two_pow hx hk]
  exact isFinite_ofQuotient _ ((representable_units x).mul_two_pow k)
    (Nat.mul_pos unitsPerOne_pos unitsPerOne_pos) (two_pow_product _ _)

/-- A finite product with a power of two is exact. -/
theorem units_mul_ofNat_two_pow (hx : x.isFinite = true) (hk : k < 1024)
    (hlt : x.units * 2 ^ k < 2 ^ 2098) :
    (x.mul (ofNat (2 ^ k))).units = x.units * 2 ^ k := by
  rw [mul_ofNat_two_pow hx hk]
  exact units_ofQuotient _ ((representable_units x).mul_two_pow k)
    (Nat.mul_pos unitsPerOne_pos unitsPerOne_pos) (two_pow_product _ _) hlt

theorem negative_mul_ofNat_two_pow (hx : x.isFinite = true) (hk : k < 1024) :
    (x.mul (ofNat (2 ^ k))).negative = x.negative := by
  rw [mul_ofNat_two_pow hx hk, negative_ofQuotient]

theorem div_ofNat_two_pow (hx : x.isFinite = true) (hk : k < 1024) :
    x.div (ofNat (2 ^ k)) = ofQuotient x.negative x.units (2 ^ k * unitsPerOne) := by
  have hp := isFinite_ofNat_two_pow hk
  simp [div, isNaN_of_isFinite hx, isNaN_of_isFinite hp, isInfinite_of_isFinite hx,
    isInfinite_of_isFinite hp, isZero_ofNat_two_pow hk, units_ofNat_two_pow hk]

/-- Dividing by a power of two takes away digits, which is exact when they are zeros. -/
theorem exact_div_ofNat_two_pow (hx : x.isFinite = true) (hk : k < 1024) (hdvd : 2 ^ k ∣ x.units) :
    (x.div (ofNat (2 ^ k))).isFinite = true ∧ (x.div (ofNat (2 ^ k))).toRat = x.toRat / 2 ^ k := by
  obtain ⟨u, hu⟩ := hdvd
  rw [mul_comm] at hu
  have hrep : Representable u := (hu ▸ representable_units x).of_mul_two_pow
  have hlt : u < 2 ^ 2098 :=
    lt_of_le_of_lt (hu ▸ Nat.le_mul_of_pos_right u (Nat.two_pow_pos k)) (units_lt_iff.2 hx)
  have hden : 0 < 2 ^ k * unitsPerOne := Nat.mul_pos (Nat.two_pow_pos k) unitsPerOne_pos
  have he : x.units * unitsPerOne = 2 ^ k * unitsPerOne * u := by
    rw [hu]
    ring
  rw [div_ofNat_two_pow hx hk]
  refine ⟨(isFinite_ofQuotient _ hrep hden he).trans (decide_eq_true hlt), ?_⟩
  have hsigned : x.signedUnits =
      (ofQuotient x.negative x.units (2 ^ k * unitsPerOne)).signedUnits * 2 ^ k := by
    rw [signedUnits, signedUnits, units_ofQuotient _ hrep hden he hlt, negative_ofQuotient, hu]
    push_cast
    split_ifs
    · rw [neg_mul]
    · rfl
  rw [toRat, toRat, hsigned]
  push_cast
  rw [mul_div_right_comm, mul_div_cancel_right₀ _ (by positivity)]

/-- What is not finite stays so under multiplication by a power of two. -/
theorem isFinite_mul_of_not_isFinite (hx : x.isFinite = false) (hk : k < 1024) :
    (x.mul (ofNat (2 ^ k))).isFinite = false := by
  have hp := isFinite_ofNat_two_pow hk
  have hzero := isZero_ofNat_two_pow hk
  have hxz : x.isZero = false := by
    rw [isFinite, infinityMagnitude] at hx
    rw [isZero, beq_eq_false_iff_ne]
    rintro hz
    simp [hz] at hx
  by_cases hnan : x.isNaN = true
  · rw [mul, hnan]
    rfl
  · have hinf : x.isInfinite = true := by
      simp only [isFinite, isNaN, isInfinite, decide_eq_false_iff_not, decide_eq_true_eq,
        beq_iff_eq] at *
      omega
    simp [mul, hnan, isNaN_of_isFinite hp, hinf, hzero, hxz, infinity, isFinite_ofMagnitude]

end PowersOfTwo

/-! ### Whole numbers -/

/-- From `2 ^ 52` spacings on, doubles are multiples of the spacing. -/
theorem Representable.dvd_or_lt_two_pow {u : ℕ} (h : Representable u) (k : ℕ) :
    2 ^ k ∣ u ∨ u < 2 ^ 52 * 2 ^ k := by
  obtain ⟨c, s, hc, rfl⟩ := h
  by_cases hs : k ≤ s
  · exact .inl ((pow_dvd_pow 2 hs).mul_left c)
  · right
    calc c * 2 ^ s < 2 ^ 53 * 2 ^ (k - 1) :=
          Nat.mul_lt_mul_of_lt_of_le hc (pow_le_pow_right₀ (by norm_num) (by omega)) (by positivity)
      _ = 2 ^ 52 * 2 ^ k := by
          rw [two_pow_eq_mul (show 52 + 1 = 53 by norm_num),
            two_pow_eq_mul (show 1 + (k - 1) = k by omega), mul_assoc]

/-- Doubles from `2 ^ 52` on are whole numbers. -/
theorem Representable.dvd_or_lt {u : ℕ} (h : Representable u) :
    unitsPerOne ∣ u ∨ u < 2 ^ 52 * unitsPerOne := by
  rw [unitsPerOne_eq]
  exact h.dvd_or_lt_two_pow 1074

/-- A count of `2 ^ 53` spacings has a digit too many, but the digit is zero. -/
theorem representable_of_le {c : ℕ} (hc : c ≤ 2 ^ 53) (s : ℕ) : Representable (c * 2 ^ s) := by
  rcases hc.lt_or_eq with hlt | rfl
  · exact ⟨c, s, hlt, rfl⟩
  · exact ⟨1, 53 + s, by norm_num, by rw [one_mul, pow_add]⟩

/-- A whole number up to `2 ^ 53` is representable. -/
theorem representable_whole {n : ℕ} (hn : n ≤ 2 ^ 53) : Representable (n * unitsPerOne) := by
  rw [unitsPerOne_eq]
  exact representable_of_le hn 1074

theorem whole_units_lt {n : ℕ} (hn : n < 2 ^ 1024) : n * unitsPerOne < 2 ^ 2098 := by
  rw [unitsPerOne_eq, two_pow_eq_mul (show 1024 + 1074 = 2098 by norm_num)]
  exact Nat.mul_lt_mul_of_pos_right hn (by positivity)

/-- A whole number with the units of a double is its own rounding. -/
theorem exact_whole (s : Bool) {n : ℕ} (hrep : Representable (n * unitsPerOne))
    (hlt : n * unitsPerOne < 2 ^ 2098) :
    (ofQuotient s n 1).isFinite = true ∧ (ofQuotient s n 1).units = n * unitsPerOne := by
  refine ⟨?_, units_ofQuotient s hrep one_pos (one_mul _).symm hlt⟩
  rw [isFinite_ofQuotient s hrep one_pos (one_mul _).symm]
  exact decide_eq_true hlt

/-- Rounding the units of a double to a whole number leaves them alone or gives a number of 53
digits. -/
theorem Representable.roundDiv {u : ℕ} (h : Representable u) :
    roundDiv u unitsPerOne * unitsPerOne = u ∨ roundDiv u unitsPerOne < 2 ^ 53 := by
  rcases h.dvd_or_lt with ⟨n, hn⟩ | hlt
  · left
    rw [hn, mul_comm unitsPerOne n, roundDiv_mul_self unitsPerOne_pos]
  · right
    have := roundDiv_le u unitsPerOne
    have := (Nat.div_lt_iff_lt_mul unitsPerOne_pos).2 hlt
    omega

section Integers

variable {z : ℤ}

theorem ofInt_natCast (n : ℕ) : ofInt n = ofNat n := by
  rw [ofInt, ofNat, Int.natAbs_natCast, decide_eq_false (by omega)]

@[simp] theorem negative_ofInt (z : ℤ) : (ofInt z).negative = decide (z < 0) :=
  negative_ofQuotient _ _ _

/-- An integer with the units of a double is that double. -/
theorem toRat_ofInt (hrep : Representable (z.natAbs * unitsPerOne)) (hlt : z.natAbs < 2 ^ 1024) :
    (ofInt z).toRat = z := by
  have hpos : (unitsPerOne : ℚ) ≠ 0 := by exact_mod_cast unitsPerOne_pos.ne'
  have hsigned : (ofInt z).signedUnits = z * unitsPerOne := by
    rw [signedUnits, negative_ofInt, ofInt, (exact_whole _ hrep (whole_units_lt hlt)).2]
    push_cast
    by_cases hz : z < 0
    · rw [decide_eq_true hz, if_pos rfl, abs_of_neg hz, neg_mul, neg_neg]
    · rw [decide_eq_false hz, if_neg Bool.false_ne_true, abs_of_nonneg (not_lt.1 hz)]
  rw [toRat, hsigned]
  push_cast
  exact mul_div_cancel_right₀ _ hpos

/-- A power of two less one rounds up to the power, once it has more than 53 binary digits. -/
theorem ofNat_two_pow_pred {k : ℕ} (hk : 54 ≤ k) : ofNat (2 ^ k - 1) = ofNat (2 ^ k) := by
  have hpower : nearestMagnitude (2 ^ k) 1 =
      if k + 1022 ≤ 2045 then (k + 1022) * 2 ^ 52 + 2 ^ 52 else infinityMagnitude := by
    refine nearestMagnitude_of_normal ⟨by norm_num, .inl le_rfl⟩ one_pos ?_
    rw [unitsPerOne_eq, one_mul, ← pow_add, ← pow_add, show k + 1074 = 52 + (k + 1022) by omega]
  have hspacing : Nat.log2 ((2 ^ k - 1) * unitsPerOne / 1) - 52 = k + 1021 := by
    have hhalf : 2 ^ k = 2 ^ (k - 1) * 2 := by rw [← pow_succ, Nat.sub_add_cancel (by omega)]
    have hpos : 0 < 2 ^ (k - 1) := Nat.two_pow_pos _
    have hlog := log2_mul_two_pow (n := 2 ^ k - 1) (k := k - 1) (by omega)
      (by rw [Nat.sub_add_cancel (by omega)]; omega) 1074
    rw [Nat.div_one, unitsPerOne_eq, hlog]
    omega
  have hround : SynapseMem.roundDiv ((2 ^ k - 1) * unitsPerOne) (1 * Nat.pow 2 (k + 1021)) =
      2 ^ 53 := by
    rw [one_mul, Nat.pow_eq, two_pow_eq_mul (show k - 53 + 1074 = k + 1021 by omega),
      unitsPerOne_eq, roundDiv_mul_mul_right _ _ (Nat.two_pow_pos _),
      two_pow_eq_mul (show 53 + (k - 53) = k by omega)]
    refine roundDiv_pred (by norm_num) (by norm_num) ?_
    exact le_self_pow₀ (by norm_num) (by omega)
  -- the count of spacings is one too many, which carries into the exponent
  rw [ofNat, ofNat, ofQuotient, ofQuotient, hpower]
  simp only [nearestMagnitude, hspacing, hround, fractionCount_eq, infinityMagnitude_eq]
  refine congrArg (ofMagnitude false) ?_
  split_ifs
  · exact (Nat.min_eq_left (by omega)).trans (by omega)
  · exact Nat.min_eq_right (by omega)

end Integers

section Rounding

variable {x : Binary64}

/-- The whole number nearest to the units, a half going up. -/
theorem roundHalfUp_units (x : Binary64) :
    (2 * x.units + unitsPerOne) / (2 * unitsPerOne) * unitsPerOne = x.units ∨
      (2 * x.units + unitsPerOne) / (2 * unitsPerOne) < 2 ^ 53 := by
  have hpos := unitsPerOne_pos
  rcases (representable_units x).dvd_or_lt with ⟨n, hn⟩ | hlt
  · left
    have : (2 * x.units + unitsPerOne) / (2 * unitsPerOne) = n := by
      rw [hn,
        show 2 * (unitsPerOne * n) + unitsPerOne = unitsPerOne + n * (2 * unitsPerOne) by ring,
        Nat.add_mul_div_right _ _ (by omega), Nat.div_eq_of_lt (by omega), zero_add]
    rw [this, hn, mul_comm]
  · right
    rw [Nat.div_lt_iff_lt_mul (by omega)]
    omega

/-- A whole number from either rounding is a finite double. -/
theorem whole_exact (hx : x.isFinite = true) {n : ℕ}
    (h : n * unitsPerOne = x.units ∨ n < 2 ^ 53) :
    (ofQuotient x.negative n 1).isFinite = true ∧
      (ofQuotient x.negative n 1).units = n * unitsPerOne := by
  have hrep : Representable (n * unitsPerOne) := by
    rcases h with he | hlt
    · exact he ▸ representable_units x
    · exact representable_whole hlt.le
  refine exact_whole x.negative hrep ?_
  rcases h with he | hlt
  · exact he ▸ units_lt_iff.2 hx
  · exact whole_units_lt (hlt.trans (pow_lt_pow_right₀ (by norm_num) (by norm_num)))

theorem isFinite_roundTiesEven (x : Binary64) : x.roundTiesEven.isFinite = x.isFinite := by
  unfold roundTiesEven
  split_ifs with hx
  · rw [(whole_exact hx (representable_units x).roundDiv).1, hx]
  · rfl

theorem units_roundTiesEven (hx : x.isFinite = true) :
    x.roundTiesEven.units = roundDiv x.units unitsPerOne * unitsPerOne := by
  rw [roundTiesEven, if_pos hx, (whole_exact hx (representable_units x).roundDiv).2]

theorem negative_roundTiesEven (hx : x.isFinite = true) :
    x.roundTiesEven.negative = x.negative := by
  rw [roundTiesEven, if_pos hx, negative_ofQuotient]

theorem isFinite_roundTiesAway (x : Binary64) : x.roundTiesAway.isFinite = x.isFinite := by
  unfold roundTiesAway
  split_ifs with hx
  · rw [(whole_exact hx (roundHalfUp_units x)).1, hx]
  · rfl

theorem units_roundTiesAway (hx : x.isFinite = true) :
    x.roundTiesAway.units =
      (2 * x.units + unitsPerOne) / (2 * unitsPerOne) * unitsPerOne := by
  rw [roundTiesAway, if_pos hx, (whole_exact hx (roundHalfUp_units x)).2]

theorem negative_roundTiesAway (hx : x.isFinite = true) :
    x.roundTiesAway.negative = x.negative := by
  rw [roundTiesAway, if_pos hx, negative_ofQuotient]

/-- Cutting a whole number gives it back with its sign. -/
theorem truncate_of_whole (hx : x.isFinite = true) {n : ℕ} (hn : x.units = n * unitsPerOne) :
    x.truncate = if x.negative then -(n : ℤ) else n := by
  have hpos : (unitsPerOne : ℤ) ≠ 0 := by exact_mod_cast unitsPerOne_pos.ne'
  rw [truncate, isNaN_of_isFinite hx, signedUnits, hn]
  push_cast
  split_ifs
  · rw [← neg_mul, Int.mul_tdiv_cancel _ hpos]
  · exact Int.mul_tdiv_cancel _ hpos

end Rounding

end Binary64

end SynapseMem
