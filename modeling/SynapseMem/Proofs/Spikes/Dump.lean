import SynapseMem.Proofs.Binary64.Exactness
import SynapseMem.Proofs.Steps
import SynapseMem.Proofs.Tensor.Nested
import SynapseMem.Spikes.Dump

/-!
# What a spike dump holds

A number is a spike when its value is at least a half, and no spike when it is less; numbers from
`3 / 2` on or down from `-1 / 2` are refused (`spike?_eq_some_iff`). A dump that is read holds the
spikes of nested arrays in row-major order (`SpikeDump.exists_of_read`).

A dump is sound when it has as many spikes as its dimensions say and these fit. A sample in range is
then the block of spikes that its step and sample count out, unless the cells of a frame leave 64
bits (`SpikeDump.sampleAt_eq`), and a frame is the part of the block that its channel counts out
(`SpikeDump.frame_eq`). Where there is a frame, its cells are among the spikes, so that they are
never too many.
-/

namespace SynapseMem

/-! ### Spikes -/

namespace Binary64

variable {x : Binary64}

theorem half_le_toRat_iff : 1 / 2 ≤ x.toRat ↔ (unitsPerOne : ℤ) ≤ 2 * x.signedUnits := by
  have hpos : (0 : ℚ) < unitsPerOne := by exact_mod_cast unitsPerOne_pos
  rw [toRat, div_le_div_iff₀ (by norm_num) hpos, one_mul, mul_comm]
  exact_mod_cast Iff.rfl

theorem neg_half_lt_toRat_iff : -1 / 2 < x.toRat ↔ -(unitsPerOne : ℤ) < 2 * x.signedUnits := by
  have hpos : (0 : ℚ) < unitsPerOne := by exact_mod_cast unitsPerOne_pos
  rw [toRat, div_lt_div_iff₀ (by norm_num) hpos, neg_one_mul, mul_comm]
  exact_mod_cast Iff.rfl

theorem toRat_lt_iff : x.toRat < 3 / 2 ↔ 2 * x.signedUnits < 3 * (unitsPerOne : ℤ) := by
  have hpos : (0 : ℚ) < unitsPerOne := by exact_mod_cast unitsPerOne_pos
  rw [toRat, div_lt_div_iff₀ hpos (by norm_num), mul_comm]
  exact_mod_cast Iff.rfl

theorem isFinite_one : one.isFinite = true := isFinite_ofNat_two_pow (k := 0) (by norm_num)

theorem signedUnits_one : one.signedUnits = unitsPerOne := by
  have hunits : one.units = unitsPerOne := by
    simpa [one] using units_ofNat_two_pow (k := 0) (by norm_num)
  have hsign : one.negative = false := negative_ofNat 1
  rw [signedUnits, hsign, hunits]
  rfl

theorem eq_iff {y : Binary64} (hx : x.isFinite = true) (hy : y.isFinite = true) :
    x.eq y = true ↔ x.signedUnits = y.signedUnits := by
  simp [eq, isNaN_of_isFinite hx, isNaN_of_isFinite hy]

/-- What is not finite counts for more than one. -/
theorem unitsPerOne_lt_units (h : x.isFinite = false) : unitsPerOne < x.units := by
  have hle : 2 ^ 2098 ≤ x.units := not_lt.1 fun hlt => by simp [units_lt_iff.1 hlt] at h
  rw [unitsPerOne_eq]
  exact lt_of_lt_of_le (pow_lt_pow_right₀ (by norm_num) (by norm_num)) hle

theorem signedUnits_roundTiesAway (hx : x.isFinite = true) :
    x.roundTiesAway.signedUnits =
      if x.negative then -(((2 * x.units + unitsPerOne) / (2 * unitsPerOne) : ℕ) * unitsPerOne : ℤ)
      else ((2 * x.units + unitsPerOne) / (2 * unitsPerOne) : ℕ) * unitsPerOne := by
  rw [signedUnits, negative_roundTiesAway hx, units_roundTiesAway hx]
  push_cast
  rfl

/-- The numbers that round to zero. -/
theorem roundTiesAway_eq_zero_iff (hx : x.isFinite = true) :
    x.roundTiesAway.eq zero = true ↔
      -(unitsPerOne : ℤ) < 2 * x.signedUnits ∧ 2 * x.signedUnits < unitsPerOne := by
  have hpos := unitsPerOne_pos
  have hcount : (2 * x.units + unitsPerOne) / (2 * unitsPerOne) = 0 ↔
      2 * x.units < unitsPerOne := by
    rw [Nat.div_eq_zero_iff_lt (by omega)]
    omega
  have hzero : zero.signedUnits = 0 := rfl
  rw [eq_iff (by rw [isFinite_roundTiesAway, hx]) rfl, signedUnits_roundTiesAway hx, hzero,
    signedUnits]
  split_ifs
  · rw [neg_eq_zero, mul_eq_zero, or_iff_left (by omega), Nat.cast_eq_zero, hcount]
    omega
  · rw [mul_eq_zero, or_iff_left (by omega), Nat.cast_eq_zero, hcount]
    omega

/-- The numbers that round to one. -/
theorem roundTiesAway_eq_one_iff (hx : x.isFinite = true) :
    x.roundTiesAway.eq one = true ↔
      unitsPerOne ≤ 2 * x.signedUnits ∧ 2 * x.signedUnits < 3 * (unitsPerOne : ℤ) := by
  have hpos := unitsPerOne_pos
  have hcount : (2 * x.units + unitsPerOne) / (2 * unitsPerOne) = 1 ↔
      unitsPerOne ≤ 2 * x.units ∧ 2 * x.units < 3 * unitsPerOne := by
    rw [Nat.div_eq_iff (by omega)]
    omega
  rw [eq_iff (by rw [isFinite_roundTiesAway, hx]) isFinite_one, signedUnits_roundTiesAway hx,
    signedUnits_one, signedUnits]
  split_ifs
  · -- a negative number rounds to zero or less
    have hle : 0 ≤ (((2 * x.units + unitsPerOne) / (2 * unitsPerOne) : ℕ) * unitsPerOne : ℤ) :=
      mul_nonneg (Int.natCast_nonneg _) (Int.natCast_nonneg _)
    omega
  · rw [mul_eq_right₀ (by omega), Nat.cast_eq_one, hcount]
    omega

end Binary64

open Binary64

/-- What is not finite is refused. -/
theorem spike?_of_not_isFinite {x : Binary64} (h : x.isFinite = false) : spike? x = none := by
  have hround : x.roundTiesAway = x := by simp [roundTiesAway, h]
  have hlt := unitsPerOne_lt_units h
  have hne {y : Binary64} (hy : y.signedUnits = 0 ∨ y.signedUnits = unitsPerOne) :
      x.eq y = false := by
    have hsigned : x.signedUnits ≠ y.signedUnits := by
      rw [signedUnits]
      split_ifs <;> omega
    simp [Binary64.eq, hsigned]
  rw [spike?, hround, hne (.inl rfl), hne (.inr signedUnits_one)]
  rfl

/-- A number is a spike from a half on, and refused outside the numbers that round to 0 or 1. -/
theorem spike?_eq_some_iff {x : Binary64} {b : Bool} :
    spike? x = some b ↔
      x.isFinite = true ∧ -1 / 2 < x.toRat ∧ x.toRat < 3 / 2 ∧ b = decide (1 / 2 ≤ x.toRat) := by
  cases hx : x.isFinite with
  | false => simp [spike?_of_not_isFinite hx]
  | true =>
    have hpos : 0 < (unitsPerOne : ℤ) := by exact_mod_cast unitsPerOne_pos
    simp only [spike?, half_le_toRat_iff, neg_half_lt_toRat_iff, toRat_lt_iff,
      roundTiesAway_eq_zero_iff hx, roundTiesAway_eq_one_iff hx, true_and]
    generalize (unitsPerOne : ℤ) = one at hpos ⊢
    split_ifs with hzero hone
    · have hnot : ¬ one ≤ 2 * x.signedUnits := not_le.2 hzero.2
      simp only [hnot, decide_false, Option.some.injEq]
      refine ⟨fun hb => ⟨hzero.1, by omega, hb.symm⟩, fun hb => hb.2.2.symm⟩
    · simp only [hone.1, decide_true, Option.some.injEq]
      refine ⟨fun hb => ⟨by omega, hone.2, hb.symm⟩, fun hb => hb.2.2.symm⟩
    · simp only [false_iff]
      rintro ⟨hlow, hhigh, -⟩
      omega

/-- Numbers are read as spikes when each of them is one or none. -/
theorem spikesFrom_eq_ok_iff (index : ℕ) {xs : List Binary64} {bits : List Bool} :
    spikesFrom index xs = .ok bits ↔ List.Forall₂ (fun x bit => spike? x = some bit) xs bits := by
  refine forall₂_of_reader spikesFrom (fun _ => rfl) (fun i x xs bits => ?_) index
  rw [spikesFrom]
  cases spike? x with
  | none => simp
  | some bit =>
    cases spikesFrom (i + 1) xs with
    | error e => simp
    | ok rest => simp [eq_comm]

namespace SpikeDump

/-! ### Reading a dump -/

/-- The dimensions of a dump. -/
def shape (dump : SpikeDump) : List ℕ :=
  [dump.steps, dump.samples, dump.channels, dump.height, dump.width]

/-- A dump with as many spikes as its dimensions say, and dimensions that fit. -/
structure Sound (dump : SpikeDump) : Prop where
  length_spikes : dump.spikes.length = dump.shape.prod
  fits : Tensor.Fits dump.shape

/-- A dump of nested arrays: its spikes are those of their elements, in row-major order. -/
structure Of (v : Json.Value) (values : List Binary64) (dump : SpikeDump) : Prop where
  nested : Tensor.Nested dump.shape v values
  spikes : List.Forall₂ (fun x bit => spike? x = some bit) values dump.spikes
  fits : Tensor.Fits dump.shape
  zero_notMem : 0 ∉ dump.shape.dropLast

variable {dump : SpikeDump} {v : Json.Value} {values : List Binary64}

theorem of_ofTensor {tensor : Tensor} {labels : List ℤ} (h : ofTensor tensor labels = .ok dump) :
    tensor.shape = dump.shape ∧
      List.Forall₂ (fun x bit => spike? x = some bit) tensor.data dump.spikes := by
  unfold ofTensor at h
  split at h
  · rename_i hshape
    split at h
    · cases h
    · rename_i spikes hspikes
      cases h
      exact ⟨hshape, (spikesFrom_eq_ok_iff 0).1 hspikes⟩
  · cases h

/-- A tensor that was read makes a dump of the nested arrays that it was read from. -/
theorem of_tensor {tensor : Tensor} {labels : List ℤ} {name : String}
    (htensor : Tensor.ofJson name v = .ok tensor) (hdump : ofTensor tensor labels = .ok dump) :
    dump.Of v tensor.data := by
  obtain ⟨hshape, hspikes⟩ := of_ofTensor hdump
  obtain ⟨hfits, hspine, hnested⟩ := Tensor.ofJson_eq_ok_iff.1 htensor
  refine ⟨hshape ▸ hnested, hspikes, hshape ▸ hfits, ?_⟩
  rw [← hshape, hspine]
  exact Tensor.zero_notMem_dropLast_spine v

/-- The number of spikes of a sample at a step. -/
def blockLength (dump : SpikeDump) : ℕ := dump.channels * (dump.height * dump.width)

/-- The spikes of a sample at a step, by the place that step and sample count out. -/
def block (dump : SpikeDump) (step sample : ℕ) : List Bool :=
  (dump.spikes.drop ((step * dump.samples + sample) * dump.blockLength)).take dump.blockLength

/-- The cells of a channel of a sample at a step. -/
def plane (dump : SpikeDump) (step sample channel : ℕ) : List Bool :=
  ((dump.block step sample).drop (channel * (dump.height * dump.width))).take
    (dump.height * dump.width)

theorem check_eq_ok_iff {axis : Axis} {index len : ℕ} :
    check axis index len = .ok () ↔ index < len := by
  unfold check
  split_ifs with h <;> simp [fail, h]

theorem part_ne_fail (items : List Bool) (index len : ℕ) (e : Error) :
    part items index len ≠ fail e := by
  refine bind_ne_fail (checked_ne_fail _) (fun start => ?_) e
  refine bind_ne_fail (checked_ne_fail _) fun stop e => ?_
  unfold slice
  split_ifs <;> simp [fail]

/-- A sample in range is taken, or the process ends. -/
theorem sampleAt_ne_fail {step sample : ℕ} (hstep : step < dump.steps)
    (hsample : sample < dump.samples) (e : Error) : dump.sampleAt step sample ≠ fail e := by
  rw [sampleAt, check_eq_ok_iff.2 hstep, check_eq_ok_iff.2 hsample, ok_bind, ok_bind]
  refine bind_ne_fail (checked_ne_fail _) (fun cells => ?_) e
  refine bind_ne_fail (checked_ne_fail _) fun len => ?_
  exact bind_ne_fail (checked_ne_fail _) fun place => part_ne_fail _ _ _

/-- A part that lies within items that can be counted is taken. -/
theorem part_eq {items : List Bool} {index len : ℕ} (hsize : items.length < 2 ^ 64)
    (hle : index * len + len ≤ items.length) :
    part items index len = .ok ((items.drop (index * len)).take len) := by
  rw [part, checked_of_lt (by omega), ok_bind, checked_of_lt (by omega), ok_bind, slice,
    if_pos ⟨Nat.le_add_right _ _, hle⟩, Nat.add_sub_cancel_left]

theorem frameLength_of_lt (h : dump.height * dump.width < 2 ^ 64) :
    dump.frameLength = .ok (dump.height * dump.width) :=
  checked_of_lt h

theorem frameLength_of_le (h : 2 ^ 64 ≤ dump.height * dump.width) :
    dump.frameLength = .error .crash :=
  checked_of_le h

/-- Cells of a frame that leave 64 bits end the process at every sample in range. -/
theorem sampleAt_of_le {step sample : ℕ} (hstep : step < dump.steps)
    (hsample : sample < dump.samples) (hcells : 2 ^ 64 ≤ dump.height * dump.width) :
    dump.sampleAt step sample = .error .crash := by
  rw [sampleAt, check_eq_ok_iff.2 hstep, check_eq_ok_iff.2 hsample, ok_bind, ok_bind,
    frameLength_of_le hcells, error_bind]

/-- The channels in range lie within their block. -/
theorem plane_le {channel : ℕ} (hchannel : channel < dump.channels) :
    channel * (dump.height * dump.width) + dump.height * dump.width ≤ dump.blockLength :=
  calc channel * (dump.height * dump.width) + dump.height * dump.width
      = (channel + 1) * (dump.height * dump.width) := by ring
    _ ≤ dump.blockLength := Nat.mul_le_mul_right _ hchannel

theorem prod_shape (dump : SpikeDump) :
    dump.shape.prod =
      dump.steps * dump.samples * dump.channels * (dump.height * dump.width) := by
  simp only [shape, List.prod_cons, List.prod_nil]
  ring

theorem index_lt {step sample : ℕ} (hstep : step < dump.steps) (hsample : sample < dump.samples) :
    step * dump.samples + sample < dump.steps * dump.samples :=
  calc step * dump.samples + sample < step * dump.samples + dump.samples := by omega
    _ = (step + 1) * dump.samples := by ring
    _ ≤ dump.steps * dump.samples := Nat.mul_le_mul_right _ hstep

namespace Sound

theorem length_lt (h : dump.Sound) : dump.spikes.length < 2 ^ 60 :=
  h.length_spikes ▸ h.fits.addressable

/-- The places of all blocks are counted in 64 bits, whether the blocks have spikes or not. -/
theorem steps_mul_samples_lt (h : dump.Sound) : dump.steps * dump.samples < 2 ^ 64 := by
  have hfront : [dump.steps, dump.samples] <+: dump.shape :=
    ⟨[dump.channels, dump.height, dump.width], rfl⟩
  simpa using h.fits.counted _ hfront

/-- Where there is a frame, its cells are among the spikes. -/
theorem cells_lt (h : dump.Sound) (hsteps : 0 < dump.steps) (hsamples : 0 < dump.samples)
    (hchannels : 0 < dump.channels) : dump.height * dump.width < 2 ^ 60 := by
  have hpos : 0 < dump.steps * dump.samples * dump.channels := by positivity
  calc dump.height * dump.width
      ≤ dump.steps * dump.samples * dump.channels * (dump.height * dump.width) :=
        Nat.le_mul_of_pos_left _ hpos
    _ < 2 ^ 60 := dump.prod_shape ▸ h.fits.addressable

section Inside

variable (h : dump.Sound) {step sample channel : ℕ} (hstep : step < dump.steps)
  (hsample : sample < dump.samples)

include h hstep hsample

/-- Blocks of steps and samples in range lie within the spikes. -/
theorem block_le :
    (step * dump.samples + sample) * dump.blockLength + dump.blockLength ≤ dump.spikes.length :=
  calc (step * dump.samples + sample) * dump.blockLength + dump.blockLength
      = (step * dump.samples + sample + 1) * dump.blockLength := by ring
    _ ≤ dump.steps * dump.samples * dump.blockLength :=
        Nat.mul_le_mul_right _ (index_lt hstep hsample)
    _ = dump.spikes.length := by
        rw [h.length_spikes, prod_shape, blockLength]
        ring

theorem length_block : (dump.block step sample).length = dump.blockLength := by
  have hle := h.block_le hstep hsample
  rw [block, List.length_take, List.length_drop]
  omega

theorem length_plane (hchannel : channel < dump.channels) :
    (dump.plane step sample channel).length = dump.height * dump.width := by
  have hle := plane_le hchannel
  rw [plane, List.length_take, List.length_drop, h.length_block hstep hsample]
  omega

end Inside

end Sound

/-- A sample in range is its block, as far as the cells of a frame are counted in 64 bits. -/
theorem sampleAt_eq {step sample : ℕ} (h : dump.Sound) (hstep : step < dump.steps)
    (hsample : sample < dump.samples) (hcells : dump.height * dump.width < 2 ^ 64) :
    dump.sampleAt step sample = .ok (dump.block step sample) := by
  have hle := h.block_le hstep hsample
  have hlength := h.length_lt
  have hblock : dump.channels * (dump.height * dump.width) < 2 ^ 64 := by
    rw [← blockLength]
    omega
  have hplace := (index_lt hstep hsample).trans h.steps_mul_samples_lt
  rw [sampleAt, check_eq_ok_iff.2 hstep, check_eq_ok_iff.2 hsample, ok_bind, ok_bind,
    frameLength_of_lt hcells, ok_bind, checked_of_lt hblock, ok_bind, checked_of_lt hplace, ok_bind,
    ← blockLength, part_eq (by omega) hle, ← block]

/-- The only thing that can keep a sample in range from being its block is the count of the cells
of a frame. -/
theorem sampleAt_eq_map {step sample : ℕ} (h : dump.Sound) (hstep : step < dump.steps)
    (hsample : sample < dump.samples) :
    dump.sampleAt step sample = dump.frameLength.map fun _ => dump.block step sample := by
  by_cases hcells : dump.height * dump.width < 2 ^ 64
  · rw [sampleAt_eq h hstep hsample hcells, frameLength_of_lt hcells]
    rfl
  · rw [sampleAt_of_le hstep hsample (not_lt.1 hcells), frameLength_of_le (not_lt.1 hcells)]
    rfl

/-- A frame in range is the part of its block at its channel. -/
theorem frame_eq {step sample channel : ℕ} (h : dump.Sound) (hstep : step < dump.steps)
    (hsample : sample < dump.samples) (hchannel : channel < dump.channels) :
    dump.frame step sample channel = .ok (dump.plane step sample channel) := by
  have hcells := h.cells_lt (Nat.zero_lt_of_lt hstep) (Nat.zero_lt_of_lt hsample)
    (Nat.zero_lt_of_lt hchannel)
  have hblock := h.block_le hstep hsample
  have hlength := h.length_lt
  have hsize := h.length_block hstep hsample
  have hplane := plane_le hchannel
  rw [frame, check_eq_ok_iff.2 hchannel, ok_bind, sampleAt_eq h hstep hsample (by omega), ok_bind,
    frameLength_of_lt (by omega), ok_bind, part_eq (by omega) (by omega), ← plane]

namespace Of

theorem sound (h : dump.Of v values) : dump.Sound where
  length_spikes := by rw [← h.nested.length, h.spikes.length_eq]
  fits := h.fits

/-- Of nested arrays only the width can be zero, so that a dump of them has frames. -/
theorem cells_lt (h : dump.Of v values) : dump.height * dump.width < 2 ^ 60 := by
  have hzero := h.zero_notMem
  simp only [shape, List.dropLast_cons_cons, List.mem_cons, not_or] at hzero
  obtain ⟨hsteps, hsamples, hchannels, -⟩ := hzero
  exact h.sound.cells_lt (by omega) (by omega) (by omega)

end Of

end SpikeDump

end SynapseMem
