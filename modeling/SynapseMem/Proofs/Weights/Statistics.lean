import SynapseMem.Proofs.Binary64.Fractions
import SynapseMem.Proofs.Fixed.TwosComplement
import SynapseMem.Weights.ImageSummary

/-!
# The summary of a memory image

The value of a word is the double nearest to its scaled integer over `2 ^ fracBits`
(`Word.toBinary64_eq`), so what is said about the values of an image is said about scaled integers.
The least and the greatest value are those of the least and the greatest scaled integer. As long as
the sum of the scaled integers cannot pass `2 ^ 53`, no sum of values is rounded (`total_eq`), and
the mean is rounded once, whatever the order of the words.
-/

namespace SynapseMem

/-! ### Words that are read -/

namespace Image

variable {q : QFormat}

theorem isWord_of_readLines {number : ℕ} {lines : List (List UInt8)} {ws : List Word}
    (h : readLines q number lines = .ok ws) : ∀ w ∈ ws, q.IsWord w := by
  induction lines generalizing number ws with
  | nil =>
    cases h
    simp
  | cons bytes lines ih =>
    rw [readLines] at h
    split at h
    · cases h
    · dsimp only at h
      split_ifs at h
      · exact ih h
      · split at h
        · cases h
        · rename_i w hw
          split at h
          · cases h
          · rename_i words hwords
            cases h
            exact List.forall_mem_cons.2 ⟨QFormat.isWord_of_decode hw, ih hwords⟩

/-- An image is read as words of the format. -/
theorem isWord_of_read {bs : List UInt8} {ws : List Word} (h : read q bs = .ok ws) :
    ∀ w ∈ ws, q.IsWord w :=
  isWord_of_readLines h

end Image

/-! ### Values of words -/

/-- A word stands for the double nearest to its value. -/
theorem Word.toBinary64_eq (w : Word) :
    w.toBinary64 = .ofRatio w.signed.toInt (2 ^ w.format.fracBits) := by
  have hlt := w.signed.toInt_lt
  have hge := w.signed.le_toInt
  have hwidth : w.format.intBits + w.format.fracBits ≤ 64 := w.format.width_le
  exact Binary64.div_ofInt_two_pow (by omega) (by omega)

namespace ImageSummary

open Binary64 (ofRatio IsNearest)

/-- The scaled integers of words. -/
def scaledIntegers (ws : List Word) : List ℤ := ws.map fun w => w.signed.toInt

theorem scaledIntegers_cons (w : Word) (ws : List Word) :
    scaledIntegers (w :: ws) = w.signed.toInt :: scaledIntegers ws := rfl

theorem length_scaledIntegers (ws : List Word) : (scaledIntegers ws).length = ws.length :=
  List.length_map ..

/-- The values of words, added one after the other. -/
def total (ws : List Word) : Binary64 := (ws.map Word.toBinary64).foldl Binary64.add Binary64.zero

section Values

variable {q : QFormat} {ws : List Word}

theorem fracBits_le (q : QFormat) : q.fracBits ≤ 1074 := q.fracBits_lt.le.trans (by norm_num)

theorem map_toBinary64 (hws : ∀ w ∈ ws, q.IsWord w) :
    ws.map Word.toBinary64 = (scaledIntegers ws).map fun z => ofRatio z (2 ^ q.fracBits) := by
  rw [scaledIntegers, List.map_map]
  refine List.map_congr_left fun w hw => ?_
  rw [w.toBinary64_eq, (hws w hw).1]
  rfl

theorem natAbs_le_of_mem (hws : ∀ w ∈ ws, q.IsWord w) :
    ∀ z ∈ scaledIntegers ws, z.natAbs ≤ 2 ^ (q.totalBits - 1) := by
  intro z hz
  obtain ⟨w, hw, rfl⟩ := List.mem_map.1 hz
  obtain ⟨hlow, hhigh⟩ := Word.inRange_signed (hws w hw).toNat_lt
  rw [(hws w hw).1] at hlow hhigh
  have hcast : ((2 ^ (q.totalBits - 1) : ℕ) : ℤ) = 2 ^ (q.totalBits - 1) := by push_cast; rfl
  omega

theorem isFinite_of_mem (hws : ∀ w ∈ ws, q.IsWord w) {z : ℤ} (hz : z ∈ scaledIntegers ws) :
    (ofRatio z (2 ^ q.fracBits)).isFinite = true :=
  Binary64.isFinite_ofRatio_of_le (k := 63) (by positivity) (by norm_num)
    ((natAbs_le_of_mem hws z hz).trans
      (q.two_pow_pred_le.trans (Nat.le_mul_of_pos_right _ (Nat.two_pow_pos _))))

/-- The sum of the values is exact while that of the scaled integers has no more than 53 binary
digits. -/
theorem total_eq (hws : ∀ w ∈ ws, q.IsWord w)
    (hbound : ws.length * 2 ^ (q.totalBits - 1) ≤ 2 ^ 53) :
    total ws = ofRatio (scaledIntegers ws).sum (2 ^ q.fracBits) ∧
      (scaledIntegers ws).sum.natAbs ≤ 2 ^ 53 := by
  have hsum := Binary64.natAbs_sum_le (natAbs_le_of_mem hws)
  rw [length_scaledIntegers] at hsum
  refine ⟨?_, hsum.trans hbound⟩
  rw [total, map_toBinary64 hws, ← Binary64.ofRatio_zero (Nat.two_pow_pos q.fracBits),
    Binary64.foldl_add_ofRatio (fracBits_le q) (natAbs_le_of_mem hws)
      (by rw [length_scaledIntegers]; omega),
    zero_add]

end Values

/-! ### Summaries -/

section Summaries

variable {q : QFormat} {ws : List Word} {least greatest : ℤ}

/-- The summary of words, from their scaled integers. -/
theorem ofWords?_eq (hws : ∀ w ∈ ws, q.IsWord w) (hleast : (scaledIntegers ws).min? = some least)
    (hgreatest : (scaledIntegers ws).max? = some greatest) :
    ofWords? ws = some {
      format := q.name
      count := ws.length
      min := ofRatio least (2 ^ q.fracBits)
      max := ofRatio greatest (2 ^ q.fracBits)
      mean := (total ws).div (.ofNat ws.length) } := by
  cases ws with
  | nil => simp [scaledIntegers] at hleast
  | cons w ws =>
    have hvalues := map_toBinary64 hws
    have hfinite := isFinite_of_mem hws (z := w.signed.toInt) List.mem_cons_self
    rw [scaledIntegers_cons] at hvalues hleast hgreatest
    rw [List.min?_cons', Option.some.injEq] at hleast
    rw [List.max?_cons', Option.some.injEq] at hgreatest
    have hmin := Binary64.foldl_ofRatio (Binary64.min_ofRatio (fracBits_le q))
      (Binary64.min_infinity hfinite) (scaledIntegers ws)
    have hmax := Binary64.foldl_ofRatio (Binary64.max_ofRatio (fracBits_le q))
      (Binary64.max_infinity hfinite) (scaledIntegers ws)
    rw [ofWords?, total, hvalues, hmin, hmax, hleast, hgreatest, (hws w List.mem_cons_self).1,
      List.length_map, List.length_cons, length_scaledIntegers, List.length_cons]

/-- The least and the greatest scaled integer are those of words. -/
theorem exists_extremes (hne : ws ≠ []) :
    ∃ least ∈ ws, ∃ greatest ∈ ws, (scaledIntegers ws).min? = some least.signed.toInt ∧
      (scaledIntegers ws).max? = some greatest.signed.toInt := by
  have hne' : scaledIntegers ws ≠ [] := fun hnil => hne (List.map_eq_nil_iff.1 hnil)
  obtain ⟨m, hmin⟩ := Option.isSome_iff_exists.1 (List.isSome_min?_of_ne_nil hne')
  obtain ⟨n, hmax⟩ := Option.isSome_iff_exists.1 (List.isSome_max?_of_ne_nil hne')
  obtain ⟨least, hleast, rfl⟩ := List.mem_map.1 (List.min?_eq_some_iff.1 hmin).1
  obtain ⟨greatest, hgreatest, rfl⟩ := List.mem_map.1 (List.max?_eq_some_iff.1 hmax).1
  exact ⟨least, hleast, greatest, hgreatest, hmin, hmax⟩

section Mean

variable (hne : ws ≠ []) (hws : ∀ w ∈ ws, q.IsWord w)
  (hbound : ws.length * 2 ^ (q.totalBits - 1) ≤ 2 ^ 53)

include hne hws hbound

/-- The mean is rounded once. -/
theorem mean_eq :
    (total ws).div (.ofNat ws.length) =
      ofRatio (scaledIntegers ws).sum (ws.length * 2 ^ q.fracBits) := by
  obtain ⟨htotal, hsum⟩ := total_eq hws hbound
  have hlength : ws.length ≤ 2 ^ 53 := (Nat.le_mul_of_pos_right _ (Nat.two_pow_pos _)).trans hbound
  rw [htotal, Binary64.div_ofRatio hsum (fracBits_le q) hlength (List.length_pos_iff.2 hne)]

theorem isNearest_mean :
    IsNearest (ofRatio (scaledIntegers ws).sum (ws.length * 2 ^ q.fracBits))
      ((scaledIntegers ws).sum / (ws.length * 2 ^ q.fracBits)) := by
  have hden : 0 < ws.length * 2 ^ q.fracBits :=
    Nat.mul_pos (List.length_pos_iff.2 hne) (Nat.two_pow_pos _)
  have hfinite : (ofRatio (scaledIntegers ws).sum (ws.length * 2 ^ q.fracBits)).isFinite = true :=
    Binary64.isFinite_ofRatio_of_le (k := 53) hden (by norm_num)
      ((total_eq hws hbound).2.trans (Nat.le_mul_of_pos_right _ hden))
  exact_mod_cast Binary64.isNearest_ofRatio hden hfinite

/-- The order of the words does not matter. -/
theorem ofWords?_perm {ws' : List Word} (hperm : ws.Perm ws') : ofWords? ws' = ofWords? ws := by
  obtain ⟨least, -, greatest, -, hmin, hmax⟩ := exists_extremes hne
  have hints : (scaledIntegers ws').Perm (scaledIntegers ws) := hperm.symm.map _
  have hws' : ∀ w ∈ ws', q.IsWord w := fun w hw => hws w (hperm.mem_iff.2 hw)
  have hne' : ws' ≠ [] := fun hnil => hne (hnil ▸ hperm).eq_nil
  have hmin' : (scaledIntegers ws').min? = some least.signed.toInt := by
    rw [List.min?_eq_some_iff] at hmin ⊢
    simpa only [hints.mem_iff] using hmin
  have hmax' : (scaledIntegers ws').max? = some greatest.signed.toInt := by
    rw [List.max?_eq_some_iff] at hmax ⊢
    simpa only [hints.mem_iff] using hmax
  rw [ofWords?_eq hws hmin hmax, ofWords?_eq hws' hmin' hmax', mean_eq hne hws hbound,
    mean_eq hne' hws' (hperm.length_eq ▸ hbound), hints.sum_eq, hperm.length_eq]

end Mean

/-- The mean of the scaled integers is between the least and the greatest of them. -/
theorem quotient_between (hne : ws ≠ []) (hleast : ∀ z ∈ scaledIntegers ws, least ≤ z)
    (hgreatest : ∀ z ∈ scaledIntegers ws, z ≤ greatest) :
    (least / 2 ^ q.fracBits : ℚ) ≤ (scaledIntegers ws).sum / (ws.length * 2 ^ q.fracBits) ∧
      ((scaledIntegers ws).sum / (ws.length * 2 ^ q.fracBits) : ℚ) ≤ greatest / 2 ^ q.fracBits := by
  have hlength : (0 : ℚ) < ws.length := by exact_mod_cast List.length_pos_iff.2 hne
  have hpower : (0 : ℚ) < 2 ^ q.fracBits := by positivity
  have hlow := List.card_nsmul_le_sum _ _ hleast
  have hhigh := List.sum_le_card_nsmul _ _ hgreatest
  rw [length_scaledIntegers, nsmul_eq_mul] at hlow hhigh
  rw [← div_div, div_le_div_iff_of_pos_right hpower, div_le_div_iff_of_pos_right hpower,
    le_div_iff₀' hlength, div_le_iff₀' hlength]
  exact ⟨by exact_mod_cast hlow, by exact_mod_cast hhigh⟩

/-- The summary of an image: the count, the least and the greatest value, and the mean, which is the
double nearest to the mean of the values if the scaled integers are few or short enough. -/
theorem ofWords?_statistics (q : QFormat) (hne : ws ≠ []) (hws : ∀ w ∈ ws, q.IsWord w) :
    ∃ s, ofWords? ws = some s ∧ s.format = q.name ∧ s.count = ws.length ∧
      (∃ least ∈ ws, (∀ w ∈ ws, least.signed ≤ w.signed) ∧ s.min = least.toBinary64) ∧
      (∃ greatest ∈ ws, (∀ w ∈ ws, w.signed ≤ greatest.signed) ∧ s.max = greatest.toBinary64) ∧
      s.mean = (total ws).div (.ofNat ws.length) ∧
      (ws.length * 2 ^ (q.totalBits - 1) ≤ 2 ^ 53 →
        (∀ k, (total (ws.take k)).isFinite = true ∧
          (total (ws.take k)).toRat = (scaledIntegers (ws.take k)).sum / 2 ^ q.fracBits) ∧
        IsNearest s.mean ((scaledIntegers ws).sum / (ws.length * 2 ^ q.fracBits)) ∧
        s.mean.negative = decide ((scaledIntegers ws).sum < 0) ∧
        (s.min.isFinite = true ∧ s.min.toRat ≤ s.mean.toRat) ∧
        (s.max.isFinite = true ∧ s.mean.toRat ≤ s.max.toRat) ∧
        ∀ ws', ws.Perm ws' → ofWords? ws' = some s) := by
  obtain ⟨least, hleast, greatest, hgreatest, hmin, hmax⟩ := exists_extremes hne
  have hsummary := ofWords?_eq hws hmin hmax
  obtain ⟨hminmem, hminle⟩ := List.min?_eq_some_iff.1 hmin
  obtain ⟨hmaxmem, hmaxle⟩ := List.max?_eq_some_iff.1 hmax
  refine ⟨_, hsummary, rfl, rfl, ⟨least, hleast, fun w hw => ?_, ?_⟩,
    ⟨greatest, hgreatest, fun w hw => ?_, ?_⟩, rfl, fun hbound => ?_⟩
  · exact Int64.le_iff_toInt_le.2 (hminle _ (List.mem_map_of_mem hw))
  · rw [least.toBinary64_eq, (hws least hleast).1]
  · exact Int64.le_iff_toInt_le.2 (hmaxle _ (List.mem_map_of_mem hw))
  · rw [greatest.toBinary64_eq, (hws greatest hgreatest).1]
  · have hwidth : 2 ^ (q.totalBits - 1) ≤ 2 ^ 53 :=
      (Nat.le_mul_of_pos_left _ (List.length_pos_iff.2 hne)).trans hbound
    have hexact : ∀ z ∈ scaledIntegers ws,
        (ofRatio z (2 ^ q.fracBits)).toRat = z / 2 ^ q.fracBits := fun z hz =>
      Binary64.toRat_ofRatio ((natAbs_le_of_mem hws z hz).trans hwidth) (fracBits_le q)
    have hnearest := isNearest_mean hne hws hbound
    obtain ⟨hlow, hhigh⟩ := quotient_between (q := q) hne hminle hmaxle
    refine ⟨fun k => ?_, ?_, ?_, ⟨isFinite_of_mem hws hminmem, ?_⟩,
      ⟨isFinite_of_mem hws hmaxmem, ?_⟩, ?_⟩
    · have hwords : ∀ w ∈ ws.take k, q.IsWord w := fun w hw => hws w (List.mem_of_mem_take hw)
      obtain ⟨htotal, hsum⟩ :=
        total_eq hwords ((Nat.mul_le_mul_right _ (List.length_take_le' k ws)).trans hbound)
      rw [htotal]
      exact ⟨Binary64.isFinite_ofRatio hsum (fracBits_le q),
        Binary64.toRat_ofRatio hsum (fracBits_le q)⟩
    · rwa [mean_eq hne hws hbound]
    · rw [mean_eq hne hws hbound, Binary64.negative_ofRatio]
    · rw [mean_eq hne hws hbound]
      exact hnearest.le (isFinite_of_mem hws hminmem) ((hexact _ hminmem).trans_le hlow)
    · rw [mean_eq hne hws hbound]
      exact hnearest.ge (isFinite_of_mem hws hmaxmem) (hhigh.trans_eq (hexact _ hmaxmem).symm)
    · intro ws' hperm
      rw [ofWords?_perm hne hws hbound hperm, hsummary]

/-- The words for 0.5, -1 and 1.5. -/
def threeWords : List Word := [⟨0x2000, .q2_14⟩, ⟨0xC000, .q2_14⟩, ⟨0x6000, .q2_14⟩]

/-- Three lines of an image. Their sum is 1, and their mean is the double nearest to a third. -/
theorem ofWords?_statistics_third :
    Image.read .q2_14 [50, 48, 48, 48, 10, 67, 48, 48, 48, 10, 54, 48, 48, 48, 10] =
      .ok threeWords ∧
      threeWords ≠ [] ∧ (∀ w ∈ threeWords, QFormat.q2_14.IsWord w) ∧
      threeWords.length * 2 ^ (QFormat.q2_14.totalBits - 1) ≤ 2 ^ 53 ∧
      ∃ s, ofWords? threeWords = some s ∧ s.count = 3 ∧ IsNearest s.mean (1 / 3) ∧
        ofWords? threeWords.reverse = some s := by
  have hread : Image.read .q2_14 [50, 48, 48, 48, 10, 67, 48, 48, 48, 10, 54, 48, 48, 48, 10] =
      .ok threeWords := by
    decide +kernel
  have hne : threeWords ≠ [] := List.cons_ne_nil _ _
  have hws := Image.isWord_of_read hread
  have hbound : threeWords.length * 2 ^ (QFormat.q2_14.totalBits - 1) ≤ 2 ^ 53 := by decide
  obtain ⟨s, hs, -, hcount, -, -, -, hexact⟩ := ofWords?_statistics .q2_14 hne hws
  obtain ⟨-, hmean, -, -, -, hperm⟩ := hexact hbound
  refine ⟨hread, hne, hws, hbound, s, hs, hcount, ?_, hperm _ threeWords.reverse_perm.symm⟩
  have hsum : (scaledIntegers threeWords).sum = 2 ^ 14 := by decide
  have hlength : (threeWords.length : ℚ) = 3 := by norm_num [threeWords]
  rw [hsum, hlength] at hmean
  norm_num [QFormat.q2_14] at hmean
  exact hmean

end Summaries

end ImageSummary

end SynapseMem
