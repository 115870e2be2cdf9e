import SynapseMem.Proofs.Viewer.Grids

/-!
# The shades of rates

A rate is drawn in the shade whose level is the number of thresholds 1/8, 3/8, 5/8 and 7/8 that it
reaches (`getElem?_shadeLevel`). Between 0 and 1 that number is four times the rate rounded to a
whole number, a half going up (`countP_eighths`), and no rounded quotient of counts is on another
side of a threshold than the quotient itself (`shadeLevel_rate`). So the shades of a dump are those
of its counts of spikes (`shaded_of_inside`).
-/

namespace SynapseMem

/-! ### Numbers between 0 and 1 -/

namespace Binary64

/-- The value of a number, with the infinities at the ends. -/
def toExtended (x : Binary64) : WithBot (WithTop ℚ) :=
  if x.isInfinite then if x.negative then ⊥ else (⊤ : WithTop ℚ) else (x.toRat : WithTop ℚ)

variable {x : Binary64}

/-- A number reaches `k` eighths when its units do. -/
theorem eighths_le_toExtended_iff (x : Binary64) {k : ℕ} (hpos : 0 < k) (hk : k ≤ 8) :
    ((((k : ℚ) / 8 : ℚ) : WithTop ℚ) : WithBot (WithTop ℚ)) ≤ x.toExtended ↔
      (k * unitsPerOne : ℤ) ≤ 8 * x.signedUnits := by
  have hone := unitsPerOne_pos
  cases hx : x.isInfinite with
  | false =>
    have hcast : (0 : ℚ) < unitsPerOne := by exact_mod_cast hone
    rw [toExtended, hx, if_neg Bool.false_ne_true, WithBot.coe_le_coe, WithTop.coe_le_coe, toRat,
      div_le_div_iff₀ (by norm_num) hcast, mul_comm (x.signedUnits : ℚ)]
    exact_mod_cast Iff.rfl
  | true =>
    -- an infinity is more than one away from zero
    have hfinite : x.isFinite = false := by
      cases hfinite : x.isFinite with
      | false => rfl
      | true => simp [isInfinite_of_isFinite hfinite] at hx
    have hlt := unitsPerOne_lt_units hfinite
    have hle : (k * unitsPerOne : ℤ) ≤ 8 * unitsPerOne := by
      exact_mod_cast Nat.mul_le_mul_right unitsPerOne hk
    have hkpos : (0 : ℤ) < k * unitsPerOne := by exact_mod_cast Nat.mul_pos hpos hone
    rw [toExtended, hx, if_pos rfl, signedUnits]
    split_ifs with hsign
    · simp only [le_bot_iff, WithBot.coe_ne_bot, false_iff, not_le]
      omega
    · simp only [WithBot.coe_le_coe, le_top, true_iff]
      omega

theorem units_of_nonneg (h : 0 ≤ x.signedUnits) : (x.units : ℤ) = x.signedUnits := by
  rw [signedUnits] at h ⊢
  split_ifs at h ⊢ <;> omega

/-- A number that is moved between 0 and 1 is finite, and its units are moved between those of 0 and
1. -/
theorem clamp_zero_one (hnan : x.isNaN = false) :
    (x.clamp zero one).isFinite = true ∧
      (x.clamp zero one).signedUnits = Max.max 0 (Min.min x.signedUnits unitsPerOne) := by
  have hzero : zero.signedUnits = 0 := rfl
  have hone := isNaN_of_isFinite isFinite_one
  have hlow := lt_iff hnan (show zero.isNaN = false from rfl)
  have hhigh := lt_iff hone hnan
  have hends := lt_iff hone (show zero.isNaN = false from rfl)
  rw [hzero] at hlow
  rw [signedUnits_one] at hhigh
  rw [signedUnits_one, hzero] at hends
  unfold clamp
  dsimp only
  by_cases hneg : x.signedUnits < 0
  · rw [if_pos (hlow.2 hneg), if_neg (mt hends.1 (by omega)), hzero]
    exact ⟨rfl, by omega⟩
  · rw [if_neg (mt hlow.1 hneg)]
    by_cases hlt : (unitsPerOne : ℤ) < x.signedUnits
    · rw [if_pos (hhigh.2 hlt), signedUnits_one]
      exact ⟨isFinite_one, by omega⟩
    · rw [if_neg (mt hhigh.1 hlt)]
      refine ⟨?_, by omega⟩
      by_contra hx
      have hunits := unitsPerOne_lt_units (Bool.eq_false_of_not_eq_true hx)
      have hsigned := units_of_nonneg (not_lt.1 hneg)
      omega

/-- Four times a number between 0 and 1 is rounded to a whole number, a half going up. -/
theorem truncate_mul_four {y : Binary64} (hy : y.isFinite = true) (hnonneg : 0 ≤ y.signedUnits)
    (hle : y.units ≤ unitsPerOne) :
    (y.mul (ofNat (2 ^ 2))).roundTiesAway.truncate.toNat =
      (8 * y.units + unitsPerOne) / (2 * unitsPerOne) := by
  have hone := unitsPerOne_pos
  have hlt : y.units * 2 ^ 2 < 2 ^ 2098 := by
    calc y.units * 2 ^ 2 ≤ unitsPerOne * 2 ^ 2 := Nat.mul_le_mul_right _ hle
      _ = 2 ^ 1076 := by rw [unitsPerOne_eq, ← pow_add]
      _ < 2 ^ 2098 := pow_lt_pow_right₀ (by norm_num) (by norm_num)
  have hmul : (y.mul (ofNat (2 ^ 2))).isFinite = true := by
    rw [isFinite_mul_ofNat_two_pow hy (by norm_num), decide_eq_true_eq]
    exact hlt
  have hround : (y.mul (ofNat (2 ^ 2))).roundTiesAway.units =
      (8 * y.units + unitsPerOne) / (2 * unitsPerOne) * unitsPerOne := by
    rw [units_roundTiesAway hmul, units_mul_ofNat_two_pow hy (by norm_num) hlt,
      show 2 * (y.units * 2 ^ 2) = 8 * y.units by ring]
  rw [truncate_of_whole (by rw [isFinite_roundTiesAway, hmul]) hround, negative_roundTiesAway hmul,
    negative_mul_ofNat_two_pow hy (by norm_num)]
  split_ifs with hsign
  · -- only the zero is left among the negative numbers
    have hunits : y.units = 0 := by
      rw [signedUnits, if_pos hsign] at hnonneg
      omega
    rw [hunits, Nat.mul_zero, Nat.zero_add, Nat.div_eq_of_lt (by omega)]
    rfl
  · exact Int.toNat_natCast _

end Binary64

/-! ### Levels -/

/-- Where the next shade begins. -/
def shadeThresholds : List ℚ := [1 / 8, 3 / 8, 5 / 8, 7 / 8]

/-- The number of thresholds that a rate reaches. -/
def shadeLevel (rate : Binary64) : ℕ :=
  shadeThresholds.countP fun t : ℚ => ((t : WithTop ℚ) : WithBot (WithTop ℚ)) ≤ rate.toExtended

/-- Of a whole of `n` parts, `c` parts reach as many odd eighths as four times their share,
rounded. -/
theorem countP_eighths {c n : ℕ} (hn : 0 < n) (hc : c ≤ n) :
    [1, 3, 5, 7].countP (fun k => k * n ≤ 8 * c) = (8 * c + n) / (2 * n) := by
  have hlevel : ∀ j, j ≤ (8 * c + n) / (2 * n) ↔ j * (2 * n) ≤ 8 * c + n :=
    fun j => Nat.le_div_iff_mul_le (by omega)
  generalize (8 * c + n) / (2 * n) = level at hlevel ⊢
  have h1 := hlevel 1
  have h2 := hlevel 2
  have h3 := hlevel 3
  have h4 := hlevel 4
  have h5 := hlevel 5
  simp only [List.countP_cons, List.countP_nil, decide_eq_true_eq]
  split_ifs <;> omega

theorem shadeLevel_eq (rate : Binary64) :
    shadeLevel rate =
      [1, 3, 5, 7].countP fun k : ℕ => (k * Binary64.unitsPerOne : ℤ) ≤ 8 * rate.signedUnits := by
  have hthresholds : shadeThresholds = [1, 3, 5, 7].map fun k : ℕ => (k : ℚ) / 8 := by
    norm_num [shadeThresholds]
  rw [shadeLevel, hthresholds, List.countP_map]
  refine List.countP_congr fun k hk => ?_
  simp only [List.mem_cons, List.not_mem_nil, or_false] at hk
  rw [Function.comp_apply, decide_eq_true_eq, decide_eq_true_eq,
    rate.eighths_le_toExtended_iff (by omega) (by omega)]

theorem shadeLevel_lt (rate : Binary64) : shadeLevel rate < shades.length :=
  Nat.lt_succ_of_le (List.countP_le_length (l := shadeThresholds))

/-- The thresholds are as many as four times the rate, moved between 0 and 1, comes to when it is
rounded. -/
theorem shadeLevel_eq_truncate {rate : Binary64} (hnan : rate.isNaN = false) :
    shadeLevel rate =
      ((rate.clamp .zero .one).mul (.ofNat (2 ^ 2))).roundTiesAway.truncate.toNat := by
  obtain ⟨hfinite, hsigned⟩ := Binary64.clamp_zero_one hnan
  have hpos := Binary64.unitsPerOne_pos
  have hunits := Binary64.units_of_nonneg (x := rate.clamp .zero .one) (by omega)
  have hle : (rate.clamp .zero .one).units ≤ Binary64.unitsPerOne := by omega
  have hcases : rate.signedUnits ≤ 0 ∧ (rate.clamp .zero .one).units = 0 ∨
      Binary64.unitsPerOne ≤ rate.signedUnits ∧
        (rate.clamp .zero .one).units = Binary64.unitsPerOne ∨
      (rate.clamp .zero .one).units = rate.signedUnits := by
    omega
  rw [Binary64.truncate_mul_four hfinite (by omega) hle, shadeLevel_eq, ← countP_eighths hpos hle]
  refine List.countP_congr fun k hk => ?_
  simp only [List.mem_cons, List.not_mem_nil, or_false] at hk
  rw [decide_eq_true_eq, decide_eq_true_eq]
  rcases hk with rfl | rfl | rfl | rfl <;> omega

/-- A rate is drawn in the shade of the thresholds that it reaches. -/
theorem getElem?_shadeLevel {rate : Binary64} (hnan : rate.isNaN = false) :
    shades[shadeLevel rate]? = some (shade rate) := by
  have hlt := shadeLevel_lt rate
  have hshade : shade rate = shades.getD (Nat.min
      ((rate.clamp .zero .one).mul (.ofNat (2 ^ 2))).roundTiesAway.truncate.toNat 4) ' ' := rfl
  have hmin : Nat.min (shadeLevel rate) 4 = shadeLevel rate :=
    Nat.min_eq_left (Nat.le_of_lt_succ hlt)
  rw [hshade, ← shadeLevel_eq_truncate hnan, hmin, List.getD_eq_getElem?_getD,
    List.getElem?_eq_getElem hlt, Option.getD_some]

/-- What is not a number is drawn blank. -/
theorem shade_of_isNaN {rate : Binary64} (h : rate.isNaN = true) : shade rate = ' ' := by
  have hmul : (rate.clamp .zero .one).mul (.ofNat 4) = .nan := by
    simp [Binary64.clamp, Binary64.lt, Binary64.mul, h]
  unfold shade
  dsimp only
  rw [hmul]
  rfl

/-- The place of the shade of a rate among the shades. -/
theorem idxOf_shade {rate : Binary64} (hnan : rate.isNaN = false) :
    shades.idxOf (shade rate) = shadeLevel rate := by
  have hnodup : shades.Nodup := by decide
  obtain ⟨hlt, hshade⟩ := List.getElem?_eq_some_iff.1 (getElem?_shadeLevel hnan)
  rw [← hshade, hnodup.idxOf_getElem]

theorem shadeLevel_mono {rate rate' : Binary64} (h : rate.toExtended ≤ rate'.toExtended) :
    shadeLevel rate ≤ shadeLevel rate' := by
  refine List.countP_mono_left fun t _ ht => ?_
  simp only [decide_eq_true_eq] at ht ⊢
  exact ht.trans h

/-! ### Rates of counts -/

theorem rate_eq {c n : ℕ} (hpos : 0 < n) (hn : n < 2 ^ 32) (hc : c ≤ n) :
    rate c n = .ofQuotient false c n := by
  have hmax : Nat.max n 1 = n := Nat.max_eq_left hpos
  rw [rate, hmax, Binary64.div_ofNat (by omega) (by omega) hpos]

/-- The rounded quotient of the counts reaches the same thresholds as the quotient itself. -/
theorem shadeLevel_rate {c n : ℕ} (hpos : 0 < n) (hn : n < 2 ^ 32) (hc : c ≤ n) :
    shadeLevel (rate c n) = (8 * c + n) / (2 * n) := by
  have hsigned : (rate c n).signedUnits = (Binary64.ofQuotient false c n).units := by
    rw [rate_eq hpos hn hc, Binary64.signedUnits, Binary64.negative_ofQuotient,
      if_neg Bool.false_ne_true]
  rw [shadeLevel_eq, ← countP_eighths hpos hc]
  refine List.countP_congr fun k hk => ?_
  simp only [List.mem_cons, List.not_mem_nil, or_false] at hk
  have hside := Binary64.le_units_ofQuotient_iff false (c := c) (j := 3) hpos hn.le
    (by omega : k * 2 ^ 32 < 2 ^ 53) (by norm_num)
  rw [show (2 : ℕ) ^ 3 = 8 from rfl] at hside
  rw [decide_eq_true_eq, decide_eq_true_eq, hsigned, mul_comm 8 c, ← hside]
  omega

theorem getElem?_shade_rate {c n : ℕ} (hpos : 0 < n) (hn : n < 2 ^ 32) (hc : c ≤ n) :
    shades[(8 * c + n) / (2 * n)]? = some (shade (rate c n)) := by
  have hnan : (rate c n).isNaN = false := by
    rw [rate_eq hpos hn hc, Binary64.isNaN_ofQuotient]
  rw [← shadeLevel_rate hpos hn hc, getElem?_shadeLevel hnan]

/-! ### Dumps -/

namespace Viewer

variable {dump : SpikeDump} {v : Viewer}

/-- The viewer draws each cell of its sample and channel in the shade of its number of spikes. -/
def Shaded (dump : SpikeDump) (v : Viewer) : Prop :=
  ∃ rows, v.averageRows = .ok rows ∧ IsGrid dump.height dump.width rows ∧
    ∀ y < dump.height, ∀ x < dump.width,
      glyphAt rows y x =
        shades[(8 * dump.spikesAt v.sample v.channel y x + dump.steps) / (2 * dump.steps)]?

/-- Rates in range are drawn in the shades of their counts. -/
theorem shaded_of_inside (h : dump.Sound) (hv : v.source = .ofDump dump)
    (hsample : v.sample < dump.samples) (hchannel : v.channel < dump.channels)
    (hwidth : 0 < dump.width) (hpos : 0 < dump.steps) (hsteps : dump.steps < 2 ^ 32) :
    Shaded dump v := by
  have hcells := h.cells_lt hpos (Nat.zero_lt_of_lt hsample) (Nat.zero_lt_of_lt hchannel)
  have hcounts : ∀ y x, dump.spikesAt v.sample v.channel y x < 2 ^ 32 :=
    fun y x => (dump.spikesAt_le _ _ y x).trans_lt hsteps
  have hrows := averageRows_of_inside h hv hsample hchannel hcells
  rw [if_pos fun y _ x _ => hcounts y x] at hrows
  have hgrid := length_rates (dump.frame · v.sample v.channel) (dump.height * dump.width) dump.steps
  refine ⟨_, hrows, isGrid_cellRows hwidth hgrid, ?_⟩
  intro y hy x hx
  rw [glyphAt_cellRows hgrid hy hx, getElem?_rates _ (SpikeDump.cell_lt hy hx), Option.map_some,
    SpikeDump.spikeSteps_eq h hsample hchannel hy hx,
    getElem?_shade_rate hpos hsteps (dump.spikesAt_le _ _ y x)]

/-- Of a dump with steps and an empty dimension no rates are drawn. -/
theorem averageRows_of_zero (h : dump.Sound) (hv : v.source = .ofDump dump) (hpos : 0 < dump.steps)
    (hzero : 0 ∈ dump.shape) : v.averageRows = .ok [] := by
  have haverage : SpikeSource.orEmpty (dump.average v.sample v.channel) = .ok [] := by
    by_cases hinside : v.sample < dump.samples ∧ v.channel < dump.channels
    · have hcells := SpikeDump.cells_eq_zero hzero hpos (Nat.zero_lt_of_lt hinside.1)
        (Nat.zero_lt_of_lt hinside.2)
      rw [SpikeDump.average_eq h hinside.1 hinside.2 (by omega), hcells,
        if_pos fun i hi => absurd hi (Nat.not_lt_zero i)]
      rfl
    · obtain ⟨e, he⟩ := SpikeDump.average_of_outside hinside
      rw [he]
      rfl
  rw [averageRows_of_source hv, haverage]
  exact congrArg Except.ok (cellRows_of_empty (.inr rfl))

end Viewer

/-- The shade of a number is that of the thresholds which it reaches, and blank for what is not a
number. So shades are in the order of the numbers. After any events on a dump of at least one and
fewer than `2 ^ 32` steps, each cell is drawn in the shade of its count of spikes. No events end the
process when there are cells. -/
theorem shade_by_thresholds (x y : Binary64) (tensor : Tensor) (labels : List ℤ)
    (dump : SpikeDump) :
    (x.isNaN = false → shades[shadeLevel x]? = some (shade x)) ∧
    (x.isNaN = true → shade x = ' ') ∧
    (x.isNaN = false → y.isNaN = false → x.toExtended ≤ y.toExtended →
      shades.idxOf (shade x) ≤ shades.idxOf (shade y)) ∧
    (tensor.Built → SpikeDump.ofTensor tensor labels = .ok dump → 0 < dump.steps →
      dump.steps < 2 ^ 32 →
      (∀ sample events v, (Viewer.start (.ofDump dump) sample).run events = .ok v →
        (0 ∉ dump.shape → Viewer.Shaded dump v) ∧ (0 ∈ dump.shape → v.averageRows = .ok [])) ∧
      (0 ∉ dump.shape → ∀ sample events,
        ∃ v, (Viewer.start (.ofDump dump) sample).run events = .ok v)) := by
  refine ⟨getElem?_shadeLevel, shade_of_isNaN, fun hx hy hle => ?_,
    fun h hdump hpos hsteps => ?_⟩
  · rw [idxOf_shade hx, idxOf_shade hy]
    exact shadeLevel_mono hle
  · have hsound := SpikeDump.sound_of_ofTensor h hdump
    refine ⟨fun sample events v hv => ⟨fun hne => ?_, fun hzero => ?_⟩, fun hne sample events =>
      ⟨_, Viewer.run_eq_reached hsound hne sample events⟩⟩
    · obtain ⟨-, -, -, -, hwidth⟩ := dump.dims_pos hne
      obtain ⟨hsource, -, hsample, hchannel⟩ := Viewer.inside_of_run hsound hne hv
      exact Viewer.shaded_of_inside hsound hsource hsample hchannel hwidth hpos hsteps
    · exact Viewer.averageRows_of_zero hsound (Viewer.source_run hv) hpos hzero

/-- An infinity has a shade. Of three steps, two spikes are drawn at level 3 and one at level 1. -/
theorem shade_by_thresholds_threeTicks :
    shades[shadeLevel (.infinity false)]? = some (shade (.infinity false)) ∧
      ∃ dump, SpikeDump.ofTensor SpikeDump.threeTicks [] = .ok dump ∧
        dump.spikesAt 0 0 0 0 = 2 ∧ dump.spikesAt 0 0 0 1 = 1 ∧
        ∃ rows, (Viewer.start (.ofDump dump) 0).averageRows = .ok rows ∧
          glyphAt rows 0 0 = some '▓' ∧ glyphAt rows 0 1 = some '░' := by
  obtain ⟨hshade, -, -, hdumps⟩ := shade_by_thresholds (.infinity false) .one SpikeDump.threeTicks
    [] ⟨3, 1, 1, 1, 2, [true, false, false, true, true, false], []⟩
  obtain ⟨hstates, -⟩ := hdumps SpikeDump.built_threeTicks SpikeDump.ofTensor_threeTicks (by decide)
    (by decide)
  obtain ⟨rows, hrows, -, hcells⟩ := (hstates 0 [] _ rfl).1 (by decide)
  exact ⟨hshade rfl, _, SpikeDump.ofTensor_threeTicks, by decide, by decide, rows, hrows,
    hcells 0 (by decide) 0 (by decide), hcells 0 (by decide) 1 (by decide)⟩

end SynapseMem
