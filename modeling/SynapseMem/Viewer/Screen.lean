import SynapseMem.Binary64.SquareRoot
import SynapseMem.Viewer.State

/-!
# The screen of the viewer

The screen has a blank margin. The upper four fifths hold the current frame beside the rates over
all ticks, and the rest holds the status. Each pane is a box with a title on its upper edge, and
text inside it is cut at the edges. Of a terminal with more than 65535 cells only the upper left
part is used.
-/

namespace SynapseMem

/-- A rectangle of cells. -/
structure Area where
  x : Nat
  y : Nat
  width : Nat
  height : Nat
  deriving DecidableEq, Repr

/-- A screen gives a glyph for every column and row. -/
abbrev Canvas := Nat → Nat → Char

namespace Area

/-- Whether a cell lies in the rectangle. -/
def contains (a : Area) (x y : Nat) : Bool :=
  decide (a.x ≤ x) && decide (x < a.x + a.width) && decide (a.y ≤ y) && decide (y < a.y + a.height)

/-- The rectangle without its outermost cells. -/
def inner (a : Area) : Area := ⟨a.x + 1, a.y + 1, a.width - 2, a.height - 2⟩

/-- Split into an upper part of the given height and the rest. -/
def splitRows (a : Area) (height : Nat) : Area × Area :=
  (⟨a.x, a.y, a.width, height⟩, ⟨a.x, a.y + height, a.width, a.height - height⟩)

/-- Split into a left part of the given width and the rest. -/
def splitColumns (a : Area) (width : Nat) : Area × Area :=
  (⟨a.x, a.y, width, a.height⟩, ⟨a.x + width, a.y, a.width - width, a.height⟩)

/-- The glyph on the edge of a rectangle; a cell on two corners shows the upper and the left one. -/
def edge? (a : Area) (x y : Nat) : Option Char :=
  let left := x == a.x
  let right := x + 1 == a.x + a.width
  let top := y == a.y
  let bottom := y + 1 == a.y + a.height
  if !a.contains x y then none
  else if top && left then some '┌'
  else if bottom && left then some '└'
  else if top && right then some '┐'
  else if bottom && right then some '┘'
  else if top || bottom then some '─'
  else if left || right then some '│'
  else none

end Area

namespace Canvas

/-- Nothing drawn. -/
def blank : Canvas := fun _ _ => ' '

/-- Draw lines of text from the upper left cell of a rectangle, cut at its edges. -/
def drawLines (canvas : Canvas) (a : Area) (lines : List String) : Canvas := fun x y =>
  if a.contains x y then
    match lines[y - a.y]? with
    | none => canvas x y
    | some line => (line.toList[x - a.x]?).getD (canvas x y)
  else canvas x y

/-- Draw the edge of a rectangle. -/
def drawEdge (canvas : Canvas) (a : Area) : Canvas := fun x y => (a.edge? x y).getD (canvas x y)

/-- Draw a box with a title on its upper edge and lines of text inside. -/
def drawPane (canvas : Canvas) (a : Area) (title : String) (lines : List String) : Canvas :=
  let titleArea : Area := ⟨a.x + 1, a.y, a.width - 2, if a.height = 0 then 0 else 1⟩
  ((canvas.drawEdge a).drawLines titleArea [title]).drawLines a.inner lines

/-- The rows of a screen, without the blanks at their ends. -/
def rows (canvas : Canvas) (width height : Nat) : List String :=
  (List.range height).map fun y =>
    let row := (List.range width).map fun x => canvas x y
    String.ofList ((row.reverse.dropWhile (· == ' ')).reverse)

end Canvas

namespace Viewer

/-- The lines of the status pane. -/
def statusLines (v : Viewer) (spikes : Nat) : List String :=
  let label := match v.source.label v.sample with
    | some l => toString l
    | none => "-"
  let running := if v.running then "yes" else "no"
  [s!"Sample: {v.sample}/{v.source.samples} | Label: {label} | " ++
      s!"Tick: {v.tick + 1}/{v.source.steps} | Channel: {v.channel}/{v.source.channels} | " ++
      s!"Spikes: {spikes} | Running: {running}",
    "Controls: [←/→] Tick  [n/p] Sample  [c] Channel  [r] Run/Pause  [q] Quit"]

/-- The most cells that are drawn on. -/
def cellLimit : Nat := 65535

/-- The width and height that are drawn on. A terminal with too many cells is shrunk with its
proportions kept, and both sides are cut to whole cells. -/
def drawnSize (width height : Nat) : Nat × Nat :=
  if width * height ≤ cellLimit then (width, height)
  else
    let ratio := (Binary64.ofNat width).div (Binary64.ofNat height)
    let shrunk := ((Binary64.ofNat cellLimit).div ratio).sqrt
    ((shrunk.mul ratio).truncate.toNat, shrunk.truncate.toNat)

/-- The rows of a screen of the given size. -/
def screen (v : Viewer) (width height : Nat) : Outcome (List String) := do
  let frame ← v.frameRows
  let average ← v.averageRows
  let spikes ← v.spikeCount
  let (drawnWidth, drawnHeight) := drawnSize width height
  if drawnWidth < 2 || drawnHeight < 2 then return Canvas.blank.rows width height
  let area := Area.inner ⟨0, 0, drawnWidth, drawnHeight⟩
  let (upper, lower) := area.splitRows ((8 * area.height + 5) / 10)
  let (left, right) := upper.splitColumns ((area.width + 1) / 2)
  let canvas := Canvas.blank.drawPane left s!"Tick {v.tick + 1}/{v.source.steps}" frame
  let canvas := canvas.drawPane right "Average Spikes" average
  let canvas := canvas.drawPane lower "Status" (v.statusLines spikes)
  return canvas.rows width height

end Viewer

end SynapseMem
