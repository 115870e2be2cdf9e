import SynapseMem.Proofs.Spikes.Validation

/-!
# Slices tile the spikes

What the slices of a dump should be is collected in `SpikeDump.Tiled`: they are there for all
indices in range and no others, a frame has the cells that its indices count out, the frames of a
sample at a step make up its block, and the blocks of all steps and samples make up the spikes.

A sound dump is tiled when the cells of a frame are counted in 64 bits
(`SpikeDump.tiled_of_framesCounted`). They can only fail to be in a dump without channels, whose
blocks are empty, and whose samples end the process all the same. An index out of range is reported
whatever the dump holds (`SpikeDump.sampleAt_of_outside`, `SpikeDump.frame_of_outside`).
-/

namespace SynapseMem.SpikeDump

/-- The slices of a dump tile its spikes. -/
structure Tiled (dump : SpikeDump) : Prop where
  sampleAt_iff : ∀ step sample, (∃ cells, dump.sampleAt step sample = .ok cells) ↔
    step < dump.steps ∧ sample < dump.samples
  frame_iff : ∀ step sample channel, (∃ cells, dump.frame step sample channel = .ok cells) ↔
    step < dump.steps ∧ sample < dump.samples ∧ channel < dump.channels
  length_frame : ∀ step sample channel cells, dump.frame step sample channel = .ok cells →
    cells.length = dump.height * dump.width
  cell_frame : ∀ step sample channel cells, dump.frame step sample channel = .ok cells →
    ∀ y < dump.height, ∀ x < dump.width, cells[y * dump.width + x]? =
      dump.spikes[(((step * dump.samples + sample) * dump.channels + channel) * dump.height + y) *
        dump.width + x]?
  frames : ∀ step sample cells, dump.sampleAt step sample = .ok cells →
    ∃ frames, (List.range dump.channels).mapM (dump.frame step sample) = .ok frames ∧
      frames.flatten = cells
  blocks : ∃ blocks, (List.range dump.steps).mapM
      (fun step => (List.range dump.samples).mapM (dump.sampleAt step)) = .ok blocks ∧
    blocks.flatten.flatten = dump.spikes

/-- The cells of a frame are counted in 64 bits, unless there is no sample at any step. -/
def FramesCounted (dump : SpikeDump) : Prop :=
  0 < dump.steps → 0 < dump.samples → dump.height * dump.width < 2 ^ 64

variable {dump : SpikeDump} {step sample channel : ℕ}

/-! ### Indices out of range -/

theorem check_of_le {axis : Axis} {index len : ℕ} (h : len ≤ index) :
    check axis index len = fail (.outOfBounds axis index len) := by
  rw [check, if_neg (not_lt.2 h)]

/-- A sample out of range is refused, for its step first. -/
theorem sampleAt_of_outside (h : ¬ (step < dump.steps ∧ sample < dump.samples)) :
    dump.sampleAt step sample =
      fail (if dump.steps ≤ step then .outOfBounds .step step dump.steps
        else .outOfBounds .sample sample dump.samples) := by
  by_cases hstep : dump.steps ≤ step
  · rw [sampleAt, check_of_le hstep, if_pos hstep]
    rfl
  · have hsample : dump.samples ≤ sample := by omega
    rw [sampleAt, check_eq_ok_iff.2 (not_le.1 hstep), check_of_le hsample, if_neg hstep]
    rfl

/-- A frame out of range is refused, for its channel first and then as its sample is. -/
theorem frame_of_outside
    (h : ¬ (step < dump.steps ∧ sample < dump.samples ∧ channel < dump.channels)) :
    dump.frame step sample channel =
      fail (if dump.channels ≤ channel then .outOfBounds .channel channel dump.channels
        else if dump.steps ≤ step then .outOfBounds .step step dump.steps
        else .outOfBounds .sample sample dump.samples) := by
  by_cases hchannel : dump.channels ≤ channel
  · rw [frame, check_of_le hchannel, if_pos hchannel]
    rfl
  · have houtside : ¬ (step < dump.steps ∧ sample < dump.samples) := by omega
    rw [frame, check_eq_ok_iff.2 (not_le.1 hchannel), ok_bind, sampleAt_of_outside houtside,
      if_neg hchannel]
    rfl

theorem inside_of_sampleAt {cells : List Bool} (h : dump.sampleAt step sample = .ok cells) :
    step < dump.steps ∧ sample < dump.samples := by
  by_contra houtside
  rw [sampleAt_of_outside houtside] at h
  cases h

theorem inside_of_frame {cells : List Bool} (h : dump.frame step sample channel = .ok cells) :
    step < dump.steps ∧ sample < dump.samples ∧ channel < dump.channels := by
  by_contra houtside
  rw [frame_of_outside houtside] at h
  cases h

/-! ### Blocks and frames -/

theorem cell_lt {y x : ℕ} (hy : y < dump.height) (hx : x < dump.width) :
    y * dump.width + x < dump.height * dump.width :=
  calc y * dump.width + x < y * dump.width + dump.width := by omega
    _ = (y + 1) * dump.width := by ring
    _ ≤ dump.height * dump.width := Nat.mul_le_mul_right _ hy

/-- The cell of a frame is the spike that its indices count out. -/
theorem getElem?_plane {y x : ℕ} (hchannel : channel < dump.channels) (hy : y < dump.height)
    (hx : x < dump.width) :
    (dump.plane step sample channel)[y * dump.width + x]? =
      dump.spikes[(((step * dump.samples + sample) * dump.channels + channel) * dump.height + y) *
        dump.width + x]? := by
  have hcell := cell_lt hy hx
  have hle := plane_le hchannel
  have hplace : channel * (dump.height * dump.width) + (y * dump.width + x) < dump.blockLength := by
    omega
  rw [plane, List.getElem?_take_of_lt hcell, List.getElem?_drop, block,
    List.getElem?_take_of_lt hplace, List.getElem?_drop, blockLength]
  congr 1
  ring

/-- The frames of a sample at a step make up its block. -/
theorem flatten_planes (dump : SpikeDump) (step sample : ℕ) :
    ((List.range dump.channels).map (dump.plane step sample)).flatten = dump.block step sample := by
  have hparts := flatten_parts (dump.block step sample) 0 (dump.height * dump.width) dump.channels
  simp only [Nat.zero_add, List.drop_zero] at hparts
  rw [show dump.plane step sample = fun channel =>
    ((dump.block step sample).drop (channel * (dump.height * dump.width))).take
      (dump.height * dump.width) from rfl,
    hparts, ← blockLength, block, List.take_take, Nat.min_self]

/-- The blocks of all steps and samples make up the spikes. -/
theorem flatten_blocks (h : dump.Sound) :
    ((List.range dump.steps).map fun step =>
      (List.range dump.samples).map (dump.block step)).flatten.flatten = dump.spikes := by
  -- the blocks of a step are the parts of one long block, and these are the parts of the spikes
  have hrow : ∀ step, ((List.range dump.samples).map (dump.block step)).flatten =
      (dump.spikes.drop (0 + step * (dump.samples * dump.blockLength))).take
        (dump.samples * dump.blockLength) := by
    intro step
    rw [← flatten_parts]
    congr 2
    funext sample
    rw [block]
    congr 2
    ring
  rw [List.flatten_flatten, List.map_map]
  simp only [Function.comp_def, hrow]
  rw [flatten_parts, List.drop_zero]
  refine List.take_of_length_le (le_of_eq ?_)
  rw [h.length_spikes, prod_shape, blockLength]
  ring

/-! ### Tiles -/

/-- A frame that is found has indices in range. -/
theorem eq_plane_of_frame (h : dump.Sound) {cells : List Bool}
    (hframe : dump.frame step sample channel = .ok cells) :
    (step < dump.steps ∧ sample < dump.samples ∧ channel < dump.channels) ∧
      cells = dump.plane step sample channel := by
  obtain ⟨hstep, hsample, hchannel⟩ := inside_of_frame hframe
  rw [frame_eq h hstep hsample hchannel, Except.ok.injEq] at hframe
  exact ⟨⟨hstep, hsample, hchannel⟩, hframe.symm⟩

/-- A sample in range is its block where the cells of a frame are counted. -/
theorem sampleAt_of_framesCounted (h : dump.Sound) (hcounted : dump.FramesCounted)
    (hstep : step < dump.steps) (hsample : sample < dump.samples) :
    dump.sampleAt step sample = .ok (dump.block step sample) :=
  sampleAt_eq h hstep hsample (hcounted (Nat.zero_lt_of_lt hstep) (Nat.zero_lt_of_lt hsample))

/-- Elsewhere every sample in range ends the process. -/
theorem sampleAt_of_not_framesCounted (hcounted : ¬ dump.FramesCounted) (hstep : step < dump.steps)
    (hsample : sample < dump.samples) : dump.sampleAt step sample = .error .crash :=
  sampleAt_of_le hstep hsample (not_lt.1 fun hlt => hcounted fun _ _ => hlt)

/-- The cells of nested arrays are counted. -/
theorem framesCounted_of_ofJson {name : String} {v : Json.Value} {tensor : Tensor}
    {labels : List ℤ} (hv : Tensor.ofJson name v = .ok tensor)
    (hdump : ofTensor tensor labels = .ok dump) : dump.FramesCounted := by
  intro _ _
  have hcells := (of_tensor hv hdump).cells_lt
  omega

/-- Frames whose cells are not counted belong to no channel. -/
theorem Sound.channels_eq_zero (h : dump.Sound) (hcounted : ¬ dump.FramesCounted) :
    dump.channels = 0 := by
  simp only [FramesCounted, Classical.not_imp, not_lt] at hcounted
  obtain ⟨hsteps, hsamples, hcells⟩ := hcounted
  by_contra hne
  have hlt := h.cells_lt hsteps hsamples (Nat.pos_of_ne_zero hne)
  omega

/-- A sound dump is tiled by its slices where the cells of a frame are counted. -/
theorem tiled_of_framesCounted (h : dump.Sound) (hcounted : dump.FramesCounted) : dump.Tiled where
  sampleAt_iff step sample := by
    constructor
    · rintro ⟨cells, hcells⟩
      exact inside_of_sampleAt hcells
    · rintro ⟨hstep, hsample⟩
      exact ⟨_, sampleAt_of_framesCounted h hcounted hstep hsample⟩
  frame_iff step sample channel := by
    constructor
    · rintro ⟨cells, hcells⟩
      exact inside_of_frame hcells
    · rintro ⟨hstep, hsample, hchannel⟩
      exact ⟨_, frame_eq h hstep hsample hchannel⟩
  length_frame step sample channel cells hcells := by
    obtain ⟨⟨hstep, hsample, hchannel⟩, rfl⟩ := eq_plane_of_frame h hcells
    exact h.length_plane hstep hsample hchannel
  cell_frame step sample channel cells hcells y hy x hx := by
    obtain ⟨⟨-, -, hchannel⟩, rfl⟩ := eq_plane_of_frame h hcells
    exact getElem?_plane hchannel hy hx
  frames step sample cells hcells := by
    obtain ⟨hstep, hsample⟩ := inside_of_sampleAt hcells
    rw [sampleAt_of_framesCounted h hcounted hstep hsample] at hcells
    cases hcells
    refine ⟨_, mapM_of_forall_eq_ok ?_, dump.flatten_planes step sample⟩
    intro channel hchannel
    exact frame_eq h hstep hsample (List.mem_range.1 hchannel)
  blocks := by
    refine ⟨_, mapM_of_forall_eq_ok ?_, flatten_blocks h⟩
    intro step hstep
    refine mapM_of_forall_eq_ok ?_
    intro sample hsample
    exact sampleAt_of_framesCounted h hcounted (List.mem_range.1 hstep) (List.mem_range.1 hsample)

/-- Tiles are found at the first step and sample already only where the cells are counted. -/
theorem Tiled.framesCounted (h : dump.Tiled) : dump.FramesCounted := by
  intro hsteps hsamples
  by_contra hle
  obtain ⟨cells, hcells⟩ := (h.sampleAt_iff 0 0).2 ⟨hsteps, hsamples⟩
  cases (sampleAt_of_le hsteps hsamples (not_lt.1 hle)).symm.trans hcells

/-- The slices of a dump tile its spikes just when the cells of a frame are counted in 64 bits, as
they always are for nested arrays. Elsewhere there is no channel and every sample in range ends the
process. An index out of range is reported with its dimension, for a frame the channel before the
step and the step before the sample, whether the slices tile the spikes or not. -/
theorem slices_tile_spikes {tensor : Tensor} {labels : List ℤ} {dump : SpikeDump}
    (h : tensor.Built) (hdump : ofTensor tensor labels = .ok dump) :
    dump.shape = tensor.shape ∧
    (dump.Tiled ↔ dump.FramesCounted) ∧
    (¬ dump.FramesCounted → dump.channels = 0 ∧ ∀ step < dump.steps, ∀ sample < dump.samples,
      dump.sampleAt step sample = .error .crash) ∧
    ((∃ name v, Tensor.ofJson name v = .ok tensor) → dump.Tiled) ∧
    (∀ step sample, ¬ (step < dump.steps ∧ sample < dump.samples) →
      dump.sampleAt step sample =
        fail (if dump.steps ≤ step then .outOfBounds .step step dump.steps
          else .outOfBounds .sample sample dump.samples)) ∧
    ∀ step sample channel,
      ¬ (step < dump.steps ∧ sample < dump.samples ∧ channel < dump.channels) →
      dump.frame step sample channel =
        fail (if dump.channels ≤ channel then .outOfBounds .channel channel dump.channels
          else if dump.steps ≤ step then .outOfBounds .step step dump.steps
          else .outOfBounds .sample sample dump.samples) := by
  have hsound := sound_of_ofTensor h hdump
  refine ⟨(of_ofTensor hdump).1.symm, ⟨Tiled.framesCounted, tiled_of_framesCounted hsound⟩,
    fun hcounted => ?_, ?_, fun _ _ => sampleAt_of_outside, fun _ _ _ => frame_of_outside⟩
  · exact ⟨hsound.channels_eq_zero hcounted,
      fun step hstep sample => sampleAt_of_not_framesCounted hcounted hstep⟩
  · rintro ⟨name, v, hv⟩
    exact tiled_of_framesCounted hsound (framesCounted_of_ofJson hv hdump)

/-- Two steps of one sample with two channels, whose frames have one row of two cells. -/
def twoChannels : Tensor :=
  ⟨[2, 1, 2, 1, 2], [.one, .zero, .zero, .one, .one, .one, .zero, .zero]⟩

/-- The second channel at the second step of two holds the last two spikes. -/
theorem slices_tile_twoChannels :
    twoChannels.Built ∧ ∃ dump, ofTensor twoChannels [] = .ok dump ∧ dump.Tiled ∧
      dump.frame 1 0 1 = .ok (dump.spikes.drop 6) ∧
      dump.frame 2 1 2 = fail (.outOfBounds .channel 2 2) ∧
      dump.sampleAt 2 1 = fail (.outOfBounds .step 2 2) := by
  have hbuilt : twoChannels.Built :=
    .ofData (Tensor.ofData_eq_ok_iff.2 ⟨by decide, by decide, rfl⟩)
  have hdump : ofTensor twoChannels [] =
      .ok ⟨2, 1, 2, 1, 2, [true, false, false, true, true, true, false, false], []⟩ := by
    decide +kernel
  obtain ⟨-, htiled, -, -, hsample, hframe⟩ := slices_tile_spikes hbuilt hdump
  refine ⟨hbuilt, _, hdump, htiled.2 fun _ _ => by decide, by decide, ?_, ?_⟩
  · exact hframe 2 1 2 (by decide)
  · exact hsample 2 1 (by decide)

/-- One sample at one step, without channels, and frames whose cells leave 64 bits. -/
def wideFrames : SpikeDump := ⟨1, 1, 0, 8589934592, 8589934592, [], []⟩

theorem ofData_wideFrames :
    Tensor.ofData wideFrames.shape [] = .ok ⟨wideFrames.shape, []⟩ :=
  Tensor.ofData_eq_ok_iff.2 ⟨by decide, by decide, rfl⟩

theorem ofTensor_wideFrames : ofTensor ⟨wideFrames.shape, []⟩ [] = .ok wideFrames := by decide

/-- The sample is in range and its block is empty, but taking it ends the process. -/
theorem sampleAt_wideFrames :
    Tensor.ofData wideFrames.shape [] = .ok ⟨wideFrames.shape, []⟩ ∧
      ofTensor ⟨wideFrames.shape, []⟩ [] = .ok wideFrames ∧
      0 < wideFrames.steps ∧ 0 < wideFrames.samples ∧
      wideFrames.sampleAt 0 0 = .error .crash ∧ ¬ wideFrames.Tiled := by
  refine ⟨ofData_wideFrames, ofTensor_wideFrames, by decide, by decide, by decide, fun htiled => ?_⟩
  exact absurd (htiled.framesCounted (by decide) (by decide)) (by decide)

end SynapseMem.SpikeDump
