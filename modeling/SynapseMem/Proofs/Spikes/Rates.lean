import SynapseMem.Proofs.Binary64.Quotients
import SynapseMem.Proofs.Spikes.Tiling
import SynapseMem.Viewer.Source

/-!
# The rates of cells

The rate of a cell is the number of steps at which it has a spike, divided by the number of steps. A
dump counts spikes in 32-bit words, and a source without rates of its own sums up doubles. As far as
they go, words and doubles are both exact for the counts of spikes so far (`countSpikes_eq`,
`sumFrames_eq`), so the rates are the same (`SpikeDump.average_eq`, `SpikeSource.meanRate_eq`).

Out of range a dump has no rates, but a plain source sums up empty frames to a grid of zeros, so the
two differ unless a frame has no cells. And without steps there is no frame to bound the cells, so
that there can be too many of them for either way to its rates.
-/

namespace SynapseMem

/-! ### Counting spikes -/

theorem getElem?_accumulate {α β : Type} (add : α → β → α) (as : List α) (bs : List β) (i : ℕ) :
    (accumulate add as bs)[i]? = as[i]?.map fun a => bs[i]?.elim a (add a) := by
  induction as generalizing bs i with
  | nil => simp [accumulate]
  | cons a as ih =>
    cases bs with
    | nil => simp [accumulate]
    | cons b bs =>
      cases i with
      | zero => simp [accumulate]
      | succ i => simp [accumulate, ih]

/-- Every cell is added to, by what the frame has of it or else by no spike. -/
theorem accumulate_map {γ : Type} {add : γ → Bool → γ} {cells : ℕ} {values : ℕ → γ}
    (hkeep : ∀ i, add (values i) false = values i) (spikes : List Bool) :
    accumulate add ((List.range cells).map values) spikes =
      (List.range cells).map fun i => add (values i) (spikes.getD i false) := by
  refine List.ext_getElem? fun i => ?_
  rw [getElem?_accumulate, List.getElem?_map, List.getElem?_map]
  by_cases hi : i < cells
  · rw [List.getElem?_range hi]
    simp only [Option.map_some, List.getD_eq_getElem?_getD]
    cases spikes[i]? with
    | none => simp [hkeep]
    | some b => rfl
  · have hnone : (List.range cells)[i]? = none := List.getElem?_eq_none (by simpa using hi)
    rw [hnone]
    rfl

/-- Whether a frame is found and has a spike at a cell. -/
def hasSpike (cell : ℕ) : Outcome (List Bool) → Bool
  | .ok cells => cells.getD cell false
  | .error _ => false

/-- The number of steps, of the first `steps`, whose frame has a spike at a cell. -/
def spikeSteps (frame : ℕ → Outcome (List Bool)) (cell steps : ℕ) : ℕ :=
  (List.range steps).countP fun step => hasSpike cell (frame step)

theorem spikeSteps_le (frame : ℕ → Outcome (List Bool)) (cell steps : ℕ) :
    spikeSteps frame cell steps ≤ steps :=
  List.countP_le_length.trans List.length_range.le

theorem spikeSteps_succ (frame : ℕ → Outcome (List Bool)) (cell steps : ℕ) :
    spikeSteps frame cell (steps + 1) =
      spikeSteps frame cell steps + (hasSpike cell (frame steps)).toNat := by
  rw [spikeSteps, List.range_succ, List.countP_append, List.countP_singleton, ← spikeSteps]
  cases hasSpike cell (frame steps) <;> rfl

theorem spikeSteps_congr {frame frame' : ℕ → Outcome (List Bool)} {steps : ℕ}
    (h : ∀ step < steps, frame step = frame' step) (cell : ℕ) :
    spikeSteps frame cell steps = spikeSteps frame' cell steps := by
  refine List.countP_congr fun step hstep => ?_
  rw [h step (List.mem_range.1 hstep)]

/-- The rate of a cell with spikes at `count` of `steps` steps. -/
def rate (count steps : ℕ) : Binary64 :=
  (Binary64.ofNat count).div (Binary64.ofNat (Nat.max steps 1))

/-- The rates of the cells of frames. -/
def rates (frame : ℕ → Outcome (List Bool)) (cells steps : ℕ) : List Binary64 :=
  (List.range cells).map fun i => rate (spikeSteps frame i steps) steps

theorem length_rates (frame : ℕ → Outcome (List Bool)) (cells steps : ℕ) :
    (rates frame cells steps).length = cells := by
  simp [rates]

theorem getElem?_rates (frame : ℕ → Outcome (List Bool)) {cells i : ℕ} (hi : i < cells)
    (steps : ℕ) :
    (rates frame cells steps)[i]? = some (rate (spikeSteps frame i steps) steps) := by
  rw [rates, List.getElem?_map, List.getElem?_range hi, Option.map_some]

/-! ### Rates of a source -/

namespace SpikeSource

theorem average_ofDump (dump : SpikeDump) (sample channel : ℕ) :
    (ofDump dump).average sample channel = orEmpty (dump.average sample channel) := rfl

theorem average_plain_ofDump (dump : SpikeDump) (sample channel : ℕ) :
    (ofDump dump).plain.average sample channel =
      meanRate dump.steps dump.height dump.width
        fun step => orEmpty (dump.frame step sample channel) := rfl

variable {frame : ℕ → Outcome (List Bool)} {steps height width : ℕ}

/-- Sums of doubles count spikes exactly below `2 ^ 53`. -/
theorem add_spike {k : ℕ} (hk : k < 2 ^ 53 - 1) (b : Bool) :
    (Binary64.ofNat k).add (if b then Binary64.one else Binary64.zero) =
      Binary64.ofNat (k + b.toNat) := by
  cases b with
  | false =>
    rw [if_neg Bool.false_ne_true, ← Binary64.ofNat_zero]
    exact Binary64.add_ofNat (by omega)
  | true => exact Binary64.add_ofNat (by omega)

/-- The sums over frames that are found are the numbers of spikes so far. -/
theorem sumFrames_eq {cells n : ℕ} (hn : n < 2 ^ 53)
    (hframes : ∀ step < n, ∃ spikes, frame step = .ok spikes) :
    sumFrames frame cells n =
      .ok ((List.range cells).map fun i => Binary64.ofNat (spikeSteps frame i n)) := by
  induction n with
  | zero => simp [sumFrames, spikeSteps, Binary64.ofNat_zero]
  | succ n ih =>
    obtain ⟨spikes, hspikes⟩ := hframes n (by omega)
    have hadd : ∀ i (b : Bool), (Binary64.ofNat (spikeSteps frame i n)).add
        (if b then Binary64.one else Binary64.zero) =
          Binary64.ofNat (spikeSteps frame i n + b.toNat) :=
      fun i b => add_spike ((spikeSteps_le frame i n).trans_lt (by omega)) b
    rw [sumFrames, ih (by omega) fun step hstep => hframes step (by omega), ok_bind, hspikes,
      ok_bind, accumulate_map]
    · simp only [hadd, spikeSteps_succ, hspikes, hasSpike]
      rfl
    · exact fun i => (hadd i false).trans (by rw [Bool.toNat_false, Nat.add_zero])

/-- The rates that are summed up from frames are those of the counts. -/
theorem meanRate_eq (hsteps : steps < 2 ^ 32) (hcells : height * width < 2 ^ 60)
    (hframes : ∀ step < steps, ∃ spikes, frame step = .ok spikes) :
    meanRate steps height width frame = .ok (rates frame (height * width) steps) := by
  rw [meanRate, checked_of_lt (by omega), ok_bind, reserve_of_lt (by omega), ok_bind,
    sumFrames_eq (by omega) hframes, ok_bind, List.map_map]
  simp only [rates, rate, Function.comp_def]
  rfl

/-- Frames of more cells than memory can address end the process before one of them is taken. -/
theorem meanRate_of_le (hcells : 2 ^ 60 ≤ height * width) :
    meanRate steps height width frame = .error .crash := by
  rw [meanRate]
  by_cases hcounted : height * width < 2 ^ 64
  · rw [checked_of_lt hcounted, ok_bind, reserve_of_le (by omega), error_bind]
  · rw [checked_of_le (not_lt.1 hcounted), error_bind]

end SpikeSource

/-! ### Rates of a dump -/

namespace SpikeDump

variable {dump : SpikeDump} {sample channel : ℕ}

/-- The counters over frames that are found are the numbers of spikes so far, and one that leaves 32
bits ends the process. -/
theorem countSpikes_eq {cells n : ℕ}
    (hframes : ∀ step < n, ∃ spikes, dump.frame step sample channel = .ok spikes) :
    dump.countSpikes sample channel cells n =
      if ∀ i < cells, spikeSteps (dump.frame · sample channel) i n < 2 ^ 32 then
        .ok ((List.range cells).map fun i => spikeSteps (dump.frame · sample channel) i n)
      else .error .crash := by
  induction n with
  | zero => simp [countSpikes, spikeSteps]
  | succ n ih =>
    obtain ⟨spikes, hspikes⟩ := hframes n (by omega)
    have hsucc : ∀ i, spikeSteps (dump.frame · sample channel) i (n + 1) =
        spikeSteps (dump.frame · sample channel) i n + (spikes.getD i false).toNat := by
      intro i
      rw [spikeSteps_succ, hspikes, hasSpike]
    rw [countSpikes, ih fun step hstep => hframes step (by omega)]
    by_cases hbefore : ∀ i < cells, spikeSteps (dump.frame · sample channel) i n < 2 ^ 32
    · rw [if_pos hbefore, ok_bind, hspikes, ok_bind, accumulate_map fun i => rfl]
      simp only [← hsucc, List.all_map, Function.comp_def, List.all_eq_true, List.mem_range,
        decide_eq_true_eq]
      rfl
    · -- a counter that has left 32 bits stays beyond them
      rw [if_neg hbefore, error_bind, if_neg]
      intro hall
      exact hbefore fun i hi => (Nat.le_add_right _ _).trans_lt (hsucc i ▸ hall i hi)

/-- The rates of a dump in range are those of the counts, unless a counter leaves 32 bits. -/
theorem average_eq (h : dump.Sound) (hsample : sample < dump.samples)
    (hchannel : channel < dump.channels) (hcells : dump.height * dump.width < 2 ^ 60) :
    dump.average sample channel =
      if ∀ i < dump.height * dump.width,
          spikeSteps (dump.frame · sample channel) i dump.steps < 2 ^ 32 then
        .ok (rates (dump.frame · sample channel) (dump.height * dump.width) dump.steps)
      else .error .crash := by
  rw [average, check_eq_ok_iff.2 hsample, check_eq_ok_iff.2 hchannel, ok_bind, ok_bind,
    frameLength_of_lt (by omega), ok_bind, reserve_of_lt (by omega), ok_bind,
    countSpikes_eq fun step hstep => ⟨_, frame_eq h hstep hsample hchannel⟩]
  split_ifs
  · rw [ok_bind, reserve_of_lt (by omega), ok_bind]
    simp only [List.map_map, rates, rate, Function.comp_def]
    rfl
  · rw [error_bind]

/-- Only without steps can a frame in range have more cells than memory can address. -/
theorem Sound.steps_eq_zero (h : dump.Sound) (hsample : sample < dump.samples)
    (hchannel : channel < dump.channels) (hcells : 2 ^ 60 ≤ dump.height * dump.width) :
    dump.steps = 0 := by
  by_contra hne
  have hlt := h.cells_lt (Nat.pos_of_ne_zero hne) (Nat.zero_lt_of_lt hsample)
    (Nat.zero_lt_of_lt hchannel)
  omega

/-- Then the rates of the dump end the process, be it for their counters or for themselves. -/
theorem average_of_le (h : dump.Sound) (hsample : sample < dump.samples)
    (hchannel : channel < dump.channels) (hcells : 2 ^ 60 ≤ dump.height * dump.width) :
    dump.average sample channel = .error .crash := by
  rw [average, check_eq_ok_iff.2 hsample, check_eq_ok_iff.2 hchannel, ok_bind, ok_bind]
  by_cases hcounted : dump.height * dump.width < 2 ^ 64
  · rw [frameLength_of_lt hcounted, ok_bind]
    by_cases hcounters : dump.height * dump.width * 4 < 2 ^ 63
    · rw [reserve_of_lt hcounters, ok_bind, h.steps_eq_zero hsample hchannel hcells, countSpikes,
        ok_bind, reserve_of_le (by omega), error_bind]
    · rw [reserve_of_le (not_lt.1 hcounters), error_bind]
  · rw [frameLength_of_le (not_lt.1 hcounted), error_bind]

theorem average_of_outside (h : ¬ (sample < dump.samples ∧ channel < dump.channels)) :
    ∃ e, dump.average sample channel = fail e := by
  by_cases hsample : sample < dump.samples
  · have hchannel : dump.channels ≤ channel := by omega
    rw [average, check_eq_ok_iff.2 hsample, ok_bind, check_of_le hchannel]
    exact ⟨_, rfl⟩
  · rw [average, check_of_le (not_lt.1 hsample)]
    exact ⟨_, rfl⟩

/-- The rates that a dump gives and those that are summed up from its frames are one list. -/
def Agree (dump : SpikeDump) (sample channel : ℕ) (list : List Binary64) : Prop :=
  (SpikeSource.ofDump dump).average sample channel = .ok list ∧
    (SpikeSource.ofDump dump).plain.average sample channel = .ok list

/-- Words and doubles count the same spikes. -/
theorem agree_rates (h : dump.Sound) (hsteps : dump.steps < 2 ^ 32)
    (hsample : sample < dump.samples) (hchannel : channel < dump.channels)
    (hcells : dump.height * dump.width < 2 ^ 60) :
    dump.Agree sample channel
      (rates (dump.frame · sample channel) (dump.height * dump.width) dump.steps) := by
  have hself : ∀ step < dump.steps,
      SpikeSource.orEmpty (dump.frame step sample channel) = dump.frame step sample channel := by
    intro step hstep
    rw [frame_eq h hstep hsample hchannel]
    rfl
  constructor
  · rw [SpikeSource.average_ofDump, average_eq h hsample hchannel hcells,
      if_pos fun i _ => (spikeSteps_le _ i _).trans_lt hsteps]
    rfl
  · have hfound : ∀ step < dump.steps,
        ∃ cells, SpikeSource.orEmpty (dump.frame step sample channel) = .ok cells := by
      intro step hstep
      rw [hself step hstep]
      exact ⟨_, frame_eq h hstep hsample hchannel⟩
    rw [SpikeSource.average_plain_ofDump, SpikeSource.meanRate_eq hsteps hcells hfound]
    simp only [rates, spikeSteps_congr hself]

/-- Cells that memory cannot address keep any rates from being summed up. -/
theorem cells_lt_of_agree {list : List Binary64} (h : dump.Agree sample channel list) :
    dump.height * dump.width < 2 ^ 60 := by
  by_contra hle
  have hplain := h.2
  rw [SpikeSource.average_plain_ofDump, SpikeSource.meanRate_of_le (not_lt.1 hle)] at hplain
  cases hplain

/-- Out of range the rates agree just when a frame has no cells: a grid of zeros is not the empty
list. -/
theorem exists_agree_iff_of_outside (hsteps : dump.steps < 2 ^ 32)
    (h : ¬ (sample < dump.samples ∧ channel < dump.channels)) :
    (∃ list, dump.Agree sample channel list) ↔ dump.height * dump.width = 0 := by
  obtain ⟨e, haverage⟩ := average_of_outside h
  have hdump : (SpikeSource.ofDump dump).average sample channel = .ok [] := by
    rw [SpikeSource.average_ofDump, haverage]
    rfl
  have hfound : ∀ step < dump.steps,
      ∃ cells, SpikeSource.orEmpty (dump.frame step sample channel) = .ok cells := by
    intro step _
    rw [frame_of_outside fun hinside => h hinside.2]
    exact ⟨[], rfl⟩
  constructor
  · rintro ⟨list, hagree⟩
    have hcells := cells_lt_of_agree hagree
    obtain ⟨hlist, hplain⟩ := hagree
    cases hdump.symm.trans hlist
    rw [SpikeSource.average_plain_ofDump, SpikeSource.meanRate_eq hsteps hcells hfound,
      Except.ok.injEq] at hplain
    simpa [length_rates] using congrArg List.length hplain
  · intro hzero
    refine ⟨[], hdump, ?_⟩
    rw [SpikeSource.average_plain_ofDump, SpikeSource.meanRate_eq hsteps (by omega) hfound, hzero]
    rfl

/-- The rates that a dump gives and those summed up from its frames agree in range and for frames
without cells, and nowhere else, as far as memory can address the cells of a frame. In range each
is the quotient of the number of steps with a spike by the number of steps. More cells end the
process either way. They are only had without steps, and never from nested arrays. -/
theorem average_agrees_with_frames {tensor : Tensor} {labels : List ℤ} {dump : SpikeDump}
    (h : tensor.Built) (hdump : ofTensor tensor labels = .ok dump) (hsteps : dump.steps < 2 ^ 32) :
    (∀ sample channel, (∃ list, dump.Agree sample channel list) ↔
      (sample < dump.samples ∧ channel < dump.channels ∨ dump.height * dump.width = 0) ∧
        dump.height * dump.width < 2 ^ 60) ∧
    (∀ sample < dump.samples, ∀ channel < dump.channels, dump.height * dump.width < 2 ^ 60 →
      ∃ list, dump.Agree sample channel list ∧ list.length = dump.height * dump.width ∧
        ∀ y < dump.height, ∀ x < dump.width, list[y * dump.width + x]? =
          some (rate (spikeSteps (dump.frame · sample channel) (y * dump.width + x) dump.steps)
            dump.steps)) ∧
    (∀ sample < dump.samples, ∀ channel < dump.channels, 2 ^ 60 ≤ dump.height * dump.width →
      dump.steps = 0 ∧ (SpikeSource.ofDump dump).average sample channel = .error .crash ∧
        (SpikeSource.ofDump dump).plain.average sample channel = .error .crash) ∧
    ((∃ name v, Tensor.ofJson name v = .ok tensor) → dump.height * dump.width < 2 ^ 60) := by
  have hsound := sound_of_ofTensor h hdump
  refine ⟨fun sample channel => ?_, fun sample hsample channel hchannel hcells => ?_,
    fun sample hsample channel hchannel hcells => ?_, ?_⟩
  · by_cases hinside : sample < dump.samples ∧ channel < dump.channels
    · rw [and_iff_right (.inl hinside)]
      constructor
      · rintro ⟨list, hagree⟩
        exact cells_lt_of_agree hagree
      · exact fun hcells => ⟨_, agree_rates hsound hsteps hinside.1 hinside.2 hcells⟩
    · rw [exists_agree_iff_of_outside hsteps hinside, or_iff_right hinside]
      exact ⟨fun hzero => ⟨hzero, by omega⟩, fun hboth => hboth.1⟩
  · refine ⟨_, agree_rates hsound hsteps hsample hchannel hcells, length_rates _ _ _, ?_⟩
    intro y hy x hx
    exact getElem?_rates _ (cell_lt hy hx) _
  · refine ⟨hsound.steps_eq_zero hsample hchannel hcells, ?_, ?_⟩
    · rw [SpikeSource.average_ofDump, average_of_le hsound hsample hchannel hcells]
      rfl
    · rw [SpikeSource.average_plain_ofDump, SpikeSource.meanRate_of_le hcells]
  · rintro ⟨name, v, hv⟩
    exact (of_tensor hv hdump).cells_lt

/-- Two cells over three steps, with two spikes and one. -/
def threeTicks : Tensor := ⟨[3, 1, 1, 1, 2], [.one, .zero, .zero, .one, .one, .zero]⟩

theorem built_threeTicks : threeTicks.Built :=
  .ofData (Tensor.ofData_eq_ok_iff.2 ⟨by decide, by decide, rfl⟩)

theorem ofTensor_threeTicks :
    ofTensor threeTicks [] = .ok ⟨3, 1, 1, 1, 2, [true, false, false, true, true, false], []⟩ := by
  decide +kernel

/-- Two spikes in three steps give the quotient of two by three, and a sample out of range gives two
lists. -/
theorem average_agrees_with_frames_threeTicks :
    threeTicks.Built ∧ ∃ dump, ofTensor threeTicks [] = .ok dump ∧ dump.steps < 2 ^ 32 ∧
      (∃ list, dump.Agree 0 0 list ∧ list.length = 2 ∧
        list[0]? = some ((Binary64.ofNat 2).div (Binary64.ofNat 3))) ∧
      ¬ ∃ list, dump.Agree 1 0 list := by
  obtain ⟨hagree, hcells, -⟩ :=
    average_agrees_with_frames built_threeTicks ofTensor_threeTicks (by decide)
  obtain ⟨list, hlist, hlength, hcell⟩ := hcells 0 (by decide) 0 (by decide) (by decide)
  refine ⟨built_threeTicks, _, ofTensor_threeTicks, by decide,
    ⟨list, hlist, hlength, hcell 0 (by decide) 0 (by decide)⟩, ?_⟩
  rw [hagree]
  decide

/-- One sample and one channel without steps, and frames whose cells leave 64 bits. -/
def noTicks : SpikeDump := ⟨0, 1, 1, 8589934592, 8589934592, [], []⟩

/-- The first sample and channel are in range, and without steps every rate is zero, but both ways
to the rates end the process. -/
theorem average_noTicks :
    Tensor.ofData noTicks.shape [] = .ok ⟨noTicks.shape, []⟩ ∧
      ofTensor ⟨noTicks.shape, []⟩ [] = .ok noTicks ∧ noTicks.steps < 2 ^ 32 ∧
      0 < noTicks.samples ∧ 0 < noTicks.channels ∧
      (SpikeSource.ofDump noTicks).average 0 0 = .error .crash ∧
      (SpikeSource.ofDump noTicks).plain.average 0 0 = .error .crash ∧
      ¬ ∃ list, noTicks.Agree 0 0 list := by
  have hcrash : (SpikeSource.ofDump noTicks).average 0 0 = .error .crash := by decide
  refine ⟨Tensor.ofData_eq_ok_iff.2 ⟨by decide, by decide, rfl⟩, by decide, by decide, by decide,
    by decide, hcrash, by decide, ?_⟩
  rintro ⟨list, hlist, -⟩
  cases hcrash.symm.trans hlist

/-! ### Spikes of a cell -/

/-- The number of steps with a spike at a cell. -/
def spikesAt (dump : SpikeDump) (sample channel y x : ℕ) : ℕ :=
  (List.range dump.steps).countP fun step =>
    dump.spikes[(((step * dump.samples + sample) * dump.channels + channel) * dump.height + y) *
      dump.width + x]? = some true

theorem spikesAt_le (dump : SpikeDump) (sample channel y x : ℕ) :
    dump.spikesAt sample channel y x ≤ dump.steps :=
  List.countP_le_length.trans List.length_range.le

/-- The frames show the spikes of the dump. -/
theorem spikeSteps_eq (h : dump.Sound) (hsample : sample < dump.samples)
    (hchannel : channel < dump.channels) {y x : ℕ} (hy : y < dump.height) (hx : x < dump.width) :
    spikeSteps (dump.frame · sample channel) (y * dump.width + x) dump.steps =
      dump.spikesAt sample channel y x := by
  refine List.countP_congr fun step hstep => ?_
  have hframe := frame_eq h (List.mem_range.1 hstep) hsample hchannel
  simp only [hframe, hasSpike, List.getD_eq_getElem?_getD, getElem?_plane hchannel hy hx,
    decide_eq_true_eq]
  rw [Option.getD_eq_iff]
  simp

end SpikeDump

end SynapseMem
