import Mathlib.Tactic
import Mathlib.Data.Rat.Floor
import SynapseMem.Binary64.Rounding

/-!
# Rounding rationals, a half to the even neighbour

`roundHalfEven` is the rounding that quantization is measured by. It is stated on rationals and does
not refer to doubles. `roundHalfEven_eq_iff` fixes it by its two properties, `le_roundHalfEven_iff`
and `roundHalfEven_le_iff` say which values round up to an integer and beyond it, and
`roundHalfEven_natCast_div` joins it to the division `roundDiv` of natural numbers.
-/

namespace SynapseMem

/-- The integer nearest to a rational, a half going to the even neighbour. -/
def roundHalfEven (x : ℚ) : ℤ :=
  if Int.fract x < 1 / 2 then ⌊x⌋
  else if 1 / 2 < Int.fract x then ⌊x⌋ + 1
  else ⌊x⌋ + ⌊x⌋ % 2

/-- `n` is within a half of `x`, and even when it is a half away. -/
def IsNearestEven (x : ℚ) (n : ℤ) : Prop := |x - n| ≤ 1 / 2 ∧ (|x - n| = 1 / 2 → Even n)

theorem isNearestEven_roundHalfEven (x : ℚ) : IsNearestEven x (roundHalfEven x) := by
  have hfloor := Int.floor_add_fract x
  have hnonneg := Int.fract_nonneg x
  have hlt := Int.fract_lt_one x
  unfold roundHalfEven IsNearestEven
  split_ifs with h₁ h₂
  · rw [show x - ⌊x⌋ = Int.fract x by linarith, abs_of_nonneg hnonneg]
    exact ⟨h₁.le, fun h => absurd h h₁.ne⟩
  · have habs : |x - ((⌊x⌋ + 1 : ℤ) : ℚ)| = 1 - Int.fract x := by
      rw [abs_of_nonpos (by push_cast; linarith)]
      push_cast
      linarith
    rw [habs]
    exact ⟨by linarith, fun h => by linarith⟩
  · -- a tie: whichever neighbour is even, it is a half away
    have hhalf : Int.fract x = 1 / 2 := le_antisymm (not_lt.1 h₂) (not_lt.1 h₁)
    have heven : Even (⌊x⌋ + ⌊x⌋ % 2) := by
      rw [Int.even_iff]
      omega
    refine ⟨?_, fun _ => heven⟩
    rcases Int.emod_two_eq_zero_or_one ⌊x⌋ with h | h <;> rw [h] <;> push_cast <;>
      rw [abs_le] <;> constructor <;> linarith

/-- No nearest integer lies above another: both would be a half away, and both even. -/
theorem IsNearestEven.le {x : ℚ} {m n : ℤ} (hm : IsNearestEven x m) (hn : IsNearestEven x n) :
    n ≤ m := by
  by_contra hlt
  rw [not_le] at hlt
  have hmle := (abs_le.1 hm.1).2
  have hnle := (abs_le.1 hn.1).1
  have hstep : (m : ℚ) + 1 ≤ n := by exact_mod_cast hlt
  have hx : x = m + 1 / 2 := by linarith
  have hnext : n = m + 1 := by
    have : (n : ℚ) ≤ m + 1 := by linarith
    have : n ≤ m + 1 := by exact_mod_cast this
    omega
  have hmeven := Int.even_iff.1 (hm.2 (by rw [hx, add_sub_cancel_left, abs_of_pos one_half_pos]))
  have hneven := Int.even_iff.1 (hn.2 (by
    rw [hx, hnext, abs_of_nonpos (by push_cast; linarith)]
    push_cast
    ring))
  omega

/-- At most one integer is nearest. -/
theorem IsNearestEven.unique {x : ℚ} {m n : ℤ} (hm : IsNearestEven x m) (hn : IsNearestEven x n) :
    m = n := le_antisymm (hn.le hm) (hm.le hn)

/-- The rounding is the only nearest integer that is even in a tie. -/
theorem roundHalfEven_eq_iff {x : ℚ} {n : ℤ} : roundHalfEven x = n ↔ IsNearestEven x n :=
  ⟨fun h => h ▸ isNearestEven_roundHalfEven x, fun h => (isNearestEven_roundHalfEven x).unique h⟩

theorem roundHalfEven_neg (x : ℚ) : roundHalfEven (-x) = -roundHalfEven x := by
  rw [roundHalfEven_eq_iff]
  have h := isNearestEven_roundHalfEven x
  have habs : |-x - ((-roundHalfEven x : ℤ) : ℚ)| = |x - roundHalfEven x| := by
    rw [← abs_neg]
    push_cast
    ring_nf
  rw [IsNearestEven, habs]
  exact ⟨h.1, fun he => (h.2 he).neg⟩

theorem roundHalfEven_intCast (n : ℤ) : roundHalfEven n = n := by
  rw [roundHalfEven_eq_iff]
  simp [IsNearestEven]

/-! ### Order -/

theorem roundHalfEven_mono {x y : ℚ} (h : x ≤ y) : roundHalfEven x ≤ roundHalfEven y := by
  by_contra hlt
  have hstep : (roundHalfEven y : ℚ) + 1 ≤ roundHalfEven x := by exact_mod_cast not_le.1 hlt
  obtain ⟨hx, -⟩ := abs_le.1 (isNearestEven_roundHalfEven x).1
  obtain ⟨-, hy⟩ := abs_le.1 (isNearestEven_roundHalfEven y).1
  -- both are a half away from the same value, which has one rounding only
  have heq : x = y := by linarith
  exact hlt (heq ▸ le_rfl)

/-- Values more than one apart do not round to one integer. -/
theorem roundHalfEven_lt {x y : ℚ} (h : 1 < y - x) : roundHalfEven x < roundHalfEven y := by
  obtain ⟨hx, -⟩ := abs_le.1 (isNearestEven_roundHalfEven x).1
  obtain ⟨-, hy⟩ := abs_le.1 (isNearestEven_roundHalfEven y).1
  have hlt : (roundHalfEven x : ℚ) < roundHalfEven y := by linarith
  exact_mod_cast hlt

/-! ### Where the rounding passes an integer -/

/-- The rounding reaches `n` above the half below it, and on that half when `n` is even. -/
theorem le_roundHalfEven_iff {x : ℚ} {n : ℤ} :
    n ≤ roundHalfEven x ↔ (n : ℚ) - 1 / 2 < x ∨ x = n - 1 / 2 ∧ Even n := by
  obtain ⟨hdist, htie⟩ := isNearestEven_roundHalfEven x
  obtain ⟨hlow, hhigh⟩ := abs_le.1 hdist
  constructor
  · intro hle
    have hcast : (n : ℚ) ≤ roundHalfEven x := by exact_mod_cast hle
    by_cases hx : (n : ℚ) - 1 / 2 < x
    · exact .inl hx
    · -- on the half the rounding cannot go past `n`
      have hhalf : x = n - 1 / 2 := by linarith
      have hround : roundHalfEven x = n := by
        have : (roundHalfEven x : ℚ) = n := by linarith
        exact_mod_cast this
      refine .inr ⟨hhalf, hround ▸ htie ?_⟩
      rw [hround, hhalf, sub_sub_cancel_left, abs_neg, abs_of_pos one_half_pos]
  · intro hx
    by_contra hlt
    have hcast : (roundHalfEven x : ℚ) + 1 ≤ n := by exact_mod_cast not_le.1 hlt
    rcases hx with hx | ⟨hhalf, heven⟩
    · linarith
    · -- the rounding would be the odd neighbour
      have hround : roundHalfEven x = n - 1 := by
        have : (roundHalfEven x : ℚ) = n - 1 := by linarith
        exact_mod_cast this
      have hodd : Even (n - 1) := by
        refine hround ▸ htie ?_
        rw [hround, hhalf]
        push_cast
        rw [sub_sub_sub_cancel_left, abs_of_pos (by norm_num)]
        norm_num
      rw [Int.even_iff] at heven hodd
      omega

/-- The rounding stays up to `n` below the half above it, and on that half when `n` is even. -/
theorem roundHalfEven_le_iff {x : ℚ} {n : ℤ} :
    roundHalfEven x ≤ n ↔ x < n + 1 / 2 ∨ x = n + 1 / 2 ∧ Even n := by
  have hneg : -n ≤ roundHalfEven (-x) ↔ roundHalfEven x ≤ n := by
    rw [roundHalfEven_neg, neg_le_neg_iff]
  rw [← hneg, le_roundHalfEven_iff, even_neg]
  push_cast
  rw [show -(n : ℚ) - 1 / 2 = -(n + 1 / 2) by ring, neg_lt_neg_iff, neg_inj]

/-- On quotients of natural numbers the rounding is `roundDiv`. -/
theorem roundHalfEven_natCast_div (n : ℕ) {d : ℕ} (hd : 0 < d) :
    roundHalfEven ((n : ℚ) / d) = roundDiv n d := by
  have hdpos : (0 : ℚ) < d := by exact_mod_cast hd
  have hbelow : ((n % d : ℕ) : ℚ) / d < 1 / 2 ↔ 2 * (n % d) < d := by
    rw [div_lt_div_iff₀ hdpos two_pos, mul_comm, one_mul]
    exact_mod_cast Iff.rfl
  have habove : 1 / 2 < ((n % d : ℕ) : ℚ) / d ↔ d < 2 * (n % d) := by
    rw [div_lt_div_iff₀ two_pos hdpos, one_mul, mul_comm]
    exact_mod_cast Iff.rfl
  simp only [roundHalfEven, roundDiv, Int.fract_div_natCast_eq_div_natCast_mod,
    Rat.floor_natCast_div_natCast, hbelow, habove]
  split_ifs <;> push_cast <;> rfl

end SynapseMem
