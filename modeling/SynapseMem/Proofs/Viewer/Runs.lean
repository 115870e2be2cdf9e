import Mathlib.Tactic
import Mathlib.Algebra.BigOperators.Intervals
import Mathlib.Data.List.DropRight
import SynapseMem.Proofs.Steps
import SynapseMem.Viewer.State

/-!
# Where the viewer is after any events

The tick, the sample and the channel each go around a circle, and the place on a circle is the
number of steps taken modulo its size (`around`). So the viewer after any events is known from
counts of them (`reached`): one event more takes the viewer of the counts to the viewer of the new
counts (`apply_reached`), and by induction every run ends where its counts say (`run_start`).
Circles of up to `2 ^ 63` places leave room for the sums on the way, so no run ends the process.

Samples and channels are counted from the start. Ticks are counted from the last change of sample on
(`tickOrigin`), and the timer counts where an odd number of switches came before it (`TimerRuns`),
some of them perhaps before that change.
-/

namespace SynapseMem

/-- Whether the event goes to another sample. -/
def ViewerEvent.changesSample : ViewerEvent → Bool
  | .nextSample => true
  | .prevSample => true
  | _ => false

namespace Viewer

/-! ### Positions around a circle -/

/-- The position `n` steps on from the first one around a circle of `size` positions: `n` modulo
`size`, and 0 where there are no positions. -/
def around (size : ℕ) (n : ℤ) : ℕ := if size = 0 then 0 else (n % size).toNat

@[simp] theorem around_zero (size : ℕ) : around size 0 = 0 := by
  unfold around
  split_ifs <;> simp

theorem around_of_empty (n : ℤ) : around 0 n = 0 := rfl

theorem cast_around {size : ℕ} (h : 0 < size) (n : ℤ) : (around size n : ℤ) = n % size := by
  rw [around, if_neg h.ne', Int.toNat_of_nonneg (Int.emod_nonneg n (by omega))]

theorem around_lt (size : ℕ) (n : ℤ) : around size n < max size 1 := by
  rcases Nat.eq_zero_or_pos size with rfl | h
  · simp [around_of_empty]
  · have hlt := Int.emod_lt_of_pos n (by exact_mod_cast h : (0 : ℤ) < size)
    have hcast := cast_around h n
    omega

/-- A position is its own number of steps. -/
theorem around_natCast {size k : ℕ} (h : k < max size 1) : around size k = k := by
  rcases Nat.eq_zero_or_pos size with rfl | hpos
  · rw [around_of_empty]
    omega
  · zify
    rw [cast_around hpos, Int.emod_eq_of_lt (by omega) (by omega)]

section Steps

variable {size : ℕ} (hsize : size ≤ 2 ^ 63) (n : ℤ)

include hsize

/-- One step on leaves 64 bits nowhere, and is not taken on an empty circle. -/
theorem forward_around :
    (if 0 < size then forward (around size n) size else .ok (around size n)) =
      .ok (around size (n + 1)) := by
  split_ifs with hpos
  · have hlt := around_lt size n
    rw [forward, checked_of_lt (by omega), ok_bind]
    refine congrArg Except.ok ?_
    zify
    rw [cast_around hpos, cast_around hpos, Int.emod_add_emod]
  · rw [Nat.eq_zero_of_not_pos hpos, around_of_empty, around_of_empty]

/-- One step back adds the size first, and that leaves 64 bits nowhere either. -/
theorem backward_around :
    (if 0 < size then backward (around size n) size else .ok (around size n)) =
      .ok (around size (n - 1)) := by
  split_ifs with hpos
  · have hlt := around_lt size n
    rw [backward, checked_of_lt (by omega), ok_bind]
    refine congrArg Except.ok ?_
    zify
    push_cast [show 1 ≤ around size n + size by omega]
    rw [cast_around hpos, cast_around hpos, add_sub_right_comm, Int.add_emod_right,
      Int.emod_sub_emod]
  · rw [Nat.eq_zero_of_not_pos hpos, around_of_empty, around_of_empty]

end Steps

/-! ### Counting events -/

/-- How many events there are up to the last change of sample. Without samples there is no
change. -/
def tickOrigin (samples : ℕ) (events : List ViewerEvent) : ℕ :=
  if samples = 0 then 0 else (events.rdropWhile fun e => !e.changesSample).length

/-- The event at place `i` is the timer, after an odd number of switches between running and
pausing. -/
def TimerRuns (events : List ViewerEvent) (i : ℕ) : Prop :=
  events[i]? = some .timer ∧ Odd ((events.take i).count .toggleRunning)

instance (events : List ViewerEvent) : DecidablePred (TimerRuns events) := fun i =>
  inferInstanceAs
    (Decidable (events[i]? = some .timer ∧ Odd ((events.take i).count .toggleRunning)))

/-- The ticks gone on less those gone back by the events from place `origin` on. -/
def netTicks (events : List ViewerEvent) (origin : ℕ) : ℤ :=
  (events.drop origin).count .nextTick +
    ((Finset.Ico origin events.length).filter (TimerRuns events)).card -
    (events.drop origin).count .prevTick

/-- The ticks that one event goes on. -/
def tickGain (running : Bool) : ViewerEvent → ℤ
  | .nextTick => 1
  | .prevTick => -1
  | .timer => if running then 1 else 0
  | _ => 0

section Counts

variable {origin : ℕ} {events : List ViewerEvent} {e : ViewerEvent}

theorem tickOrigin_le (samples : ℕ) (events : List ViewerEvent) :
    tickOrigin samples events ≤ events.length := by
  unfold tickOrigin
  split_ifs
  · exact Nat.zero_le _
  · exact (List.rdropWhile_prefix _ _).length_le

theorem tickOrigin_concat (samples : ℕ) (events : List ViewerEvent) (e : ViewerEvent) :
    tickOrigin samples (events ++ [e]) =
      if 0 < samples ∧ e.changesSample then (events ++ [e]).length
      else tickOrigin samples events := by
  unfold tickOrigin
  rw [List.rdropWhile_concat]
  cases e.changesSample <;> by_cases hsamples : samples = 0 <;> simp [hsamples, Nat.pos_iff_ne_zero]

theorem netTicks_length (events : List ViewerEvent) : netTicks events events.length = 0 := by
  simp [netTicks]

/-- The events before the last one are counted as without it. -/
theorem timerRuns_concat_of_lt {i : ℕ} (h : i < events.length) :
    TimerRuns (events ++ [e]) i ↔ TimerRuns events i := by
  rw [TimerRuns, TimerRuns, List.getElem?_append_left h, List.take_append_of_le_length h.le]

theorem timerRuns_concat_length :
    TimerRuns (events ++ [e]) events.length ↔ e = .timer ∧ Odd (events.count .toggleRunning) := by
  simp [TimerRuns]

theorem card_timerRuns_concat (h : origin ≤ events.length) :
    ((Finset.Ico origin (events ++ [e]).length).filter (TimerRuns (events ++ [e]))).card =
      ((Finset.Ico origin events.length).filter (TimerRuns events)).card +
        if e = .timer ∧ Odd (events.count .toggleRunning) then 1 else 0 := by
  have hbefore : ∀ i ∈ Finset.Ico origin events.length,
      (if TimerRuns (events ++ [e]) i then 1 else 0) = if TimerRuns events i then 1 else 0 := by
    intro i hi
    simp only [timerRuns_concat_of_lt (Finset.mem_Ico.1 hi).2]
  rw [List.length_append, List.length_singleton, Finset.card_filter, Finset.card_filter,
    Finset.sum_Ico_succ_top h, Finset.sum_congr rfl hbefore]
  simp only [timerRuns_concat_length]

/-- One more event adds its own ticks. -/
theorem netTicks_concat (h : origin ≤ events.length) :
    netTicks (events ++ [e]) origin =
      netTicks events origin + tickGain (decide (Odd (events.count .toggleRunning))) e := by
  rw [netTicks, card_timerRuns_concat h, List.drop_append_of_le_length h, netTicks]
  cases e <;> simp [tickGain] <;> ring

end Counts

/-! ### Single events -/

section Single

variable (v : Viewer)

theorem nextTick_eq : v.nextTick =
    (if 0 < v.source.steps then forward v.tick v.source.steps else .ok v.tick).map
      fun tick => { v with tick } := by
  unfold nextTick
  split_ifs
  · exact bind_pure_comp _ _
  · rfl

theorem prevTick_eq : v.prevTick =
    (if 0 < v.source.steps then backward v.tick v.source.steps else .ok v.tick).map
      fun tick => { v with tick } := by
  unfold prevTick
  split_ifs
  · exact bind_pure_comp _ _
  · rfl

theorem nextSample_eq : v.nextSample =
    (if 0 < v.source.samples then forward v.sample v.source.samples else .ok v.sample).map
      fun sample => { v with sample, tick := if 0 < v.source.samples then 0 else v.tick } := by
  unfold nextSample
  split_ifs
  · exact bind_pure_comp _ _
  · rfl

theorem prevSample_eq : v.prevSample =
    (if 0 < v.source.samples then backward v.sample v.source.samples else .ok v.sample).map
      fun sample => { v with sample, tick := if 0 < v.source.samples then 0 else v.tick } := by
  unfold prevSample
  split_ifs
  · exact bind_pure_comp _ _
  · rfl

theorem nextChannel_eq : v.nextChannel =
    (if 0 < v.source.channels then forward v.channel v.source.channels else .ok v.channel).map
      fun channel => { v with channel } := by
  unfold nextChannel
  split_ifs
  · exact bind_pure_comp _ _
  · rfl

end Single

/-! ### Runs -/

/-- The viewer that events lead to from the start. -/
def reached (source : SpikeSource) (sample : ℕ) (events : List ViewerEvent) : Viewer where
  source := source
  sample := around source.samples
    ((min sample (source.samples - 1) : ℕ) + events.count .nextSample - events.count .prevSample)
  channel := around source.channels (events.count .nextChannel)
  tick := around source.steps (netTicks events (tickOrigin source.samples events))
  running := decide (Odd (events.count .toggleRunning))

theorem reached_nil (source : SpikeSource) (sample : ℕ) :
    reached source sample [] = start source sample := by
  have hsample : around source.samples (min sample (source.samples - 1) : ℕ) =
      min sample (source.samples - 1) := around_natCast (by omega)
  simp only [reached, start, netTicks, List.count_nil, List.drop_nil, Nat.cast_zero,
    add_zero, sub_zero, hsample]
  simp

section Events

variable {source : SpikeSource} {sample : ℕ}

/-- An event that keeps the sample adds its ticks to those counted from the same origin. -/
theorem netTicks_concat_of_keeps (events : List ViewerEvent) (e : ViewerEvent)
    (h : e.changesSample = false) (samples : ℕ) :
    netTicks (events ++ [e]) (tickOrigin samples (events ++ [e])) =
      netTicks events (tickOrigin samples events) +
        tickGain (decide (Odd (events.count .toggleRunning))) e := by
  rw [tickOrigin_concat, h, if_neg (by simp), netTicks_concat (tickOrigin_le _ _)]

/-- A change of sample goes back to the first tick, unless there is no sample to go to. -/
theorem around_netTicks_of_changes (events : List ViewerEvent) (e : ViewerEvent)
    (h : e.changesSample = true) (size samples : ℕ) :
    around size (netTicks (events ++ [e]) (tickOrigin samples (events ++ [e]))) =
      if 0 < samples then 0 else around size (netTicks events (tickOrigin samples events)) := by
  have hgain : ∀ running, tickGain running e = 0 := by
    intro running
    cases e <;> first | rfl | cases h
  simp only [tickOrigin_concat, h, and_true]
  split_ifs with hsamples
  · rw [netTicks_length, around_zero]
  · rw [netTicks_concat (tickOrigin_le _ _), hgain, add_zero]

/-- One event leads on to the viewer of one event more. -/
theorem apply_reached (hsteps : source.steps ≤ 2 ^ 63) (hsamples : source.samples ≤ 2 ^ 63)
    (hchannels : source.channels ≤ 2 ^ 63) (events : List ViewerEvent) (e : ViewerEvent) :
    (reached source sample events).apply e = .ok (reached source sample (events ++ [e])) := by
  have hkeeps := fun e h => netTicks_concat_of_keeps events e h source.samples
  have hchanges := fun e h => around_netTicks_of_changes events e h source.steps source.samples
  cases e with
  | nextTick =>
    rw [apply, nextTick_eq]
    simp [reached, hkeeps .nextTick rfl, tickGain, forward_around hsteps, Except.map]
  | prevTick =>
    rw [apply, prevTick_eq]
    simp [reached, hkeeps .prevTick rfl, tickGain, backward_around hsteps, Except.map,
      ← sub_eq_add_neg]
  | nextSample =>
    rw [apply, nextSample_eq]
    simp [reached, hchanges .nextSample rfl, forward_around hsamples, Except.map, ← add_assoc,
      sub_add_eq_add_sub]
  | prevSample =>
    rw [apply, prevSample_eq]
    simp [reached, hchanges .prevSample rfl, backward_around hsamples, Except.map, sub_sub]
  | nextChannel =>
    rw [apply, nextChannel_eq]
    simp [reached, hkeeps .nextChannel rfl, tickGain, forward_around hchannels, Except.map]
  | toggleRunning =>
    have hodd : decide (Odd (events.count .toggleRunning + 1)) =
        !decide (Odd (events.count .toggleRunning)) := by
      rw [← decide_not]
      exact decide_eq_decide.2 Nat.odd_add_one
    rw [apply]
    simp [reached, hkeeps .toggleRunning rfl, tickGain, hodd]
  | timer =>
    rw [apply, nextTick_eq]
    by_cases hrunning : Odd (events.count .toggleRunning)
    · simp [reached, hkeeps .timer rfl, tickGain, forward_around hsteps, hrunning, Except.map]
    · simp [reached, hkeeps .timer rfl, tickGain, hrunning]

/-- A step that only moves a position keeps the source. -/
theorem source_of_map {v v' : Viewer} {position : Outcome ℕ} {move : ℕ → Viewer}
    (h : position.map move = .ok v') (hmove : ∀ n, (move n).source = v.source) :
    v'.source = v.source := by
  obtain ⟨n, -, rfl⟩ := map_eq_ok_iff.1 h
  exact hmove n

theorem source_apply {v v' : Viewer} {e : ViewerEvent} (h : v.apply e = .ok v') :
    v'.source = v.source := by
  have hnext : v.nextTick = .ok v' → v'.source = v.source := fun h =>
    source_of_map ((nextTick_eq v).symm.trans h) fun _ => rfl
  cases e with
  | nextTick => exact hnext h
  | prevTick => exact source_of_map ((prevTick_eq v).symm.trans h) fun _ => rfl
  | nextSample => exact source_of_map ((nextSample_eq v).symm.trans h) fun _ => rfl
  | prevSample => exact source_of_map ((prevSample_eq v).symm.trans h) fun _ => rfl
  | nextChannel => exact source_of_map ((nextChannel_eq v).symm.trans h) fun _ => rfl
  | toggleRunning =>
    cases h
    rfl
  | timer =>
    rw [apply] at h
    split_ifs at h
    · exact hnext h
    · cases h
      rfl

theorem run_concat (v : Viewer) (events : List ViewerEvent) (e : ViewerEvent) :
    v.run (events ++ [e]) = v.run events >>= fun v' => v'.apply e := by
  simp [run]

theorem source_run {v v' : Viewer} {events : List ViewerEvent} (h : v.run events = .ok v') :
    v'.source = v.source := by
  induction events using List.reverseRecOn generalizing v' with
  | nil =>
    cases h
    rfl
  | append_singleton events e ih =>
    rw [run_concat, bind_eq_ok_iff] at h
    obtain ⟨w, hw, happly⟩ := h
    exact (source_apply happly).trans (ih hw)

/-- Any events lead to the viewer of their counts. -/
theorem run_start (hsteps : source.steps ≤ 2 ^ 63) (hsamples : source.samples ≤ 2 ^ 63)
    (hchannels : source.channels ≤ 2 ^ 63) (sample : ℕ) (events : List ViewerEvent) :
    (start source sample).run events = .ok (reached source sample events) := by
  -- the counts grow at the end of the events, so the induction goes backwards
  induction events using List.reverseRecOn with
  | nil => exact congrArg Except.ok (reached_nil source sample).symm
  | append_singleton events e ih =>
    rw [run_concat, ih, ok_bind, apply_reached hsteps hsamples hchannels]

end Events

/-- No events end the process. After them sample, channel and tick are the numbers of steps gone on
less those gone back, modulo their sizes, the ticks since the last change of sample, and the viewer
runs after an odd number of switches. Every state that can be reached is within the sizes of the
source. -/
theorem run_start_counts {source : SpikeSource} (hsteps : source.steps ≤ 2 ^ 63)
    (hsamples : source.samples ≤ 2 ^ 63) (hchannels : source.channels ≤ 2 ^ 63) (sample : ℕ)
    (events : List ViewerEvent) :
    ∃ v, (start source sample).run events = .ok v ∧ v.source = source ∧
      v.sample = around source.samples
        ((min sample (source.samples - 1) : ℕ) + events.count .nextSample -
          events.count .prevSample) ∧
      v.channel = around source.channels (events.count .nextChannel) ∧
      (v.running = true ↔ Odd (events.count .toggleRunning)) ∧
      v.tick = around source.steps (netTicks events (tickOrigin source.samples events)) ∧
      v.tick < max source.steps 1 ∧ v.sample < max source.samples 1 ∧
      v.channel < max source.channels 1 := by
  refine ⟨_, run_start hsteps hsamples hchannels sample events, rfl, rfl, rfl, ?_, rfl,
    around_lt _ _, around_lt _ _, around_lt _ _⟩
  simp [reached]

/-- As many steps as can be, three samples and no channel. -/
def longSource : SpikeSource :=
  ⟨2 ^ 63, 3, 0, 1, 1, fun _ _ _ => .ok [], fun _ => none, fun _ _ => .ok []⟩

/-- From the last sample on to the first one while the viewer runs, then two ticks back and one by
the timer. -/
theorem run_start_counts_longSource :
    ∃ v, (start longSource 9).run [.timer, .toggleRunning, .timer, .nextChannel, .nextSample,
        .prevTick, .timer, .prevTick] = .ok v ∧
      v.sample = 0 ∧ v.channel = 0 ∧ v.running = true ∧ v.tick = 2 ^ 63 - 1 := by
  obtain ⟨v, hrun, -, hsample, hchannel, hrunning, htick, -⟩ :=
    @run_start_counts longSource (by decide) (by decide) (by decide) 9
      [.timer, .toggleRunning, .timer, .nextChannel, .nextSample, .prevTick, .timer, .prevTick]
  refine ⟨v, hrun, hsample.trans (by decide), hchannel.trans (by decide),
    hrunning.2 (by decide), htick.trans ?_⟩
  decide

end Viewer

end SynapseMem
