import SynapseMem.Viewer.Source

/-!
# The state of the viewer

The viewer shows one sample, channel and tick of a source. Ticks, samples and channels go around at
their ends, and a change of sample goes back to the first tick. While the viewer runs, the timer
moves the tick on. A step around a circle is a sum first, which has to fit in 64 bits.

`frameRows` draws the spikes of the tick, `averageRows` the rates over all ticks in five shades.
-/

namespace SynapseMem

/-- The glyph of a spike. -/
def spikeGlyph : Char := '█'

/-- The glyph of a cell without a spike. -/
def silentGlyph : Char := '·'

/-- The shades of a rate, lowest first. -/
def shades : List Char := [' ', '░', '▒', '▓', '█']

/-- The shade of a rate: the rate is moved into the interval from 0 to 1 and four times it is
rounded. -/
def shade (rate : Binary64) : Char :=
  let top := 4
  let level :=
    ((rate.clamp Binary64.zero Binary64.one).mul (Binary64.ofNat top)).roundTiesAway.truncate.toNat
  shades.getD (Nat.min level top) ' '

/-- Cells in rows of the given width, as text. -/
def cellRows {α : Type} (glyph : α → Char) (width : Nat) (cells : List α) : List String :=
  if _h : width = 0 ∨ cells = [] then []
  else
    String.ofList ((cells.take width).map glyph) :: cellRows glyph width (cells.drop width)
termination_by cells.length
decreasing_by
  have : cells.length ≠ 0 := fun e => _h (Or.inr (List.eq_nil_of_length_eq_zero e))
  simp only [List.length_drop]
  omega

/-- What the viewer shows of a source. -/
structure Viewer where
  source : SpikeSource
  sample : Nat
  channel : Nat
  tick : Nat
  running : Bool

/-- What a key or the timer does. -/
inductive ViewerEvent where
  | nextTick
  | prevTick
  | nextSample
  | prevSample
  | nextChannel
  | toggleRunning
  | timer
  deriving DecidableEq, Repr

namespace Viewer

/-- Start at a sample, or at the last one when there are fewer. -/
def start (source : SpikeSource) (sample : Nat) : Viewer :=
  ⟨source, Nat.min sample (source.samples - 1), 0, 0, false⟩

/-- One step on around a circle of `size` positions. -/
def forward (position size : Nat) : Outcome Nat := do
  let sum ← checked (position + 1)
  return sum % size

/-- One step back around a circle of `size` positions. -/
def backward (position size : Nat) : Outcome Nat := do
  let sum ← checked (position + size)
  return (sum - 1) % size

/-- Go on to the next tick. -/
def nextTick (v : Viewer) : Outcome Viewer := do
  if 0 < v.source.steps then
    let tick ← forward v.tick v.source.steps
    return { v with tick }
  else return v

/-- Go back to the previous tick. -/
def prevTick (v : Viewer) : Outcome Viewer := do
  if 0 < v.source.steps then
    let tick ← backward v.tick v.source.steps
    return { v with tick }
  else return v

/-- Go on to the next sample. -/
def nextSample (v : Viewer) : Outcome Viewer := do
  if 0 < v.source.samples then
    let sample ← forward v.sample v.source.samples
    return { v with sample, tick := 0 }
  else return v

/-- Go back to the previous sample. -/
def prevSample (v : Viewer) : Outcome Viewer := do
  if 0 < v.source.samples then
    let sample ← backward v.sample v.source.samples
    return { v with sample, tick := 0 }
  else return v

/-- Go on to the next channel. -/
def nextChannel (v : Viewer) : Outcome Viewer := do
  if 0 < v.source.channels then
    let channel ← forward v.channel v.source.channels
    return { v with channel }
  else return v

/-- The viewer after an event. -/
def apply (v : Viewer) : ViewerEvent → Outcome Viewer
  | .nextTick => v.nextTick
  | .prevTick => v.prevTick
  | .nextSample => v.nextSample
  | .prevSample => v.prevSample
  | .nextChannel => v.nextChannel
  | .toggleRunning => .ok { v with running := !v.running }
  | .timer => if v.running then v.nextTick else .ok v

/-- The viewer after events. -/
def run (v : Viewer) (events : List ViewerEvent) : Outcome Viewer := events.foldlM apply v

/-- The cells of the current frame. -/
def frame (v : Viewer) : Outcome (List Bool) := v.source.frame v.tick v.sample v.channel

/-- The current frame, a text for every row. -/
def frameRows (v : Viewer) : Outcome (List String) := do
  let cells ← v.frame
  return cellRows (fun s => if s then spikeGlyph else silentGlyph) v.source.width cells

/-- The rates over all ticks, a text for every row. -/
def averageRows (v : Viewer) : Outcome (List String) := do
  let rates ← v.source.average v.sample v.channel
  return cellRows shade v.source.width rates

/-- The number of spikes in the current frame. -/
def spikeCount (v : Viewer) : Outcome Nat := do
  let cells ← v.frame
  return cells.countP id

end Viewer

end SynapseMem
