import SynapseMem.Proofs.Spikes.Rates
import SynapseMem.Proofs.Viewer.Runs

/-!
# What the viewer draws of a dump

Cells that fill rows of one width are drawn as a grid of that many rows (`isGrid_cellRows`), with
the glyph of each cell in its place (`glyphAt_cellRows`). A spike has a glyph of its own, so the
spikes are counted by it (`glyphCount_cellRows`).

Without an empty dimension every size of a dump has room for the sums of the viewer, so no events
end the process and all of them lead to positions of a frame (`run_eq_reached`). With an empty
dimension every frame is empty wherever the viewer is.
-/

namespace SynapseMem

/-! ### Grids -/

/-- Rows of one width. -/
structure IsGrid (height width : ℕ) (rows : List String) : Prop where
  height : rows.length = height
  width : ∀ row ∈ rows, row.length = width

/-- The glyph at a place of a grid. -/
def glyphAt (rows : List String) (y x : ℕ) : Option Char := rows[y]?.bind fun row => row.toList[x]?

section Rows

variable {α : Type} {glyph : α → Char} {height width : ℕ} {cells : List α}

theorem cellRows_of_empty (h : width = 0 ∨ cells = []) : cellRows glyph width cells = [] := by
  rw [cellRows, dif_pos h]

theorem cellRows_of_not_empty (h : ¬ (width = 0 ∨ cells = [])) :
    cellRows glyph width cells =
      String.ofList ((cells.take width).map glyph) :: cellRows glyph width (cells.drop width) := by
  rw [cellRows, dif_neg h]

/-- Cells that fill their rows are drawn row by row. -/
theorem cellRows_eq (hwidth : 0 < width) (hlength : cells.length = height * width) :
    cellRows glyph width cells =
      (List.range height).map
        fun y => String.ofList (((cells.drop (y * width)).take width).map glyph) := by
  induction height generalizing cells with
  | zero =>
    rw [Nat.zero_mul] at hlength
    rw [cellRows_of_empty (.inr (List.eq_nil_of_length_eq_zero hlength)), List.range_zero,
      List.map_nil]
  | succ height ih =>
    rw [Nat.succ_mul] at hlength
    have hne : ¬ (width = 0 ∨ cells = []) := by
      rintro (rfl | rfl)
      · exact hwidth.false
      · simp at hlength
        omega
    have hdrop : (cells.drop width).length = height * width := by simp [hlength]
    rw [cellRows_of_not_empty hne, ih hdrop, List.range_succ_eq_map, List.map_cons, List.map_map,
      Nat.zero_mul, List.drop_zero]
    simp only [List.drop_drop, Function.comp_def, Nat.succ_mul, Nat.add_comm width]

/-- Cells that fill their rows are drawn as a grid. -/
theorem isGrid_cellRows (hwidth : 0 < width) (hlength : cells.length = height * width) :
    IsGrid height width (cellRows glyph width cells) := by
  rw [cellRows_eq hwidth hlength]
  refine ⟨by simp, ?_⟩
  intro row hrow
  obtain ⟨y, hy, rfl⟩ := List.mem_map.1 hrow
  have hle : y * width + width ≤ cells.length := by
    rw [hlength, ← Nat.succ_mul]
    exact Nat.mul_le_mul_right _ (List.mem_range.1 hy)
  rw [String.length_ofList, List.length_map, List.length_take, List.length_drop]
  omega

/-- The glyph of a cell is drawn in its place. -/
theorem glyphAt_cellRows (hlength : cells.length = height * width) {y x : ℕ} (hy : y < height)
    (hx : x < width) :
    glyphAt (cellRows glyph width cells) y x = cells[y * width + x]?.map glyph := by
  rw [cellRows_eq (by omega) hlength, glyphAt, List.getElem?_map, List.getElem?_range hy,
    Option.map_some, Option.bind_some, String.toList_ofList, List.getElem?_map,
    List.getElem?_take_of_lt hx, List.getElem?_drop]

end Rows

/-! ### Frames of a dump -/

namespace SpikeDump

variable {dump : SpikeDump}

theorem dims_pos (dump : SpikeDump) (h : 0 ∉ dump.shape) :
    0 < dump.steps ∧ 0 < dump.samples ∧ 0 < dump.channels ∧ 0 < dump.height ∧ 0 < dump.width := by
  simp only [shape, List.mem_cons, List.not_mem_nil, or_false, not_or] at h
  omega

/-- Without an empty dimension every size has room for sums in 64 bits. -/
theorem Sound.dim_le (h : dump.Sound) (hpos : 0 ∉ dump.shape) {d : ℕ} (hd : d ∈ dump.shape) :
    d ≤ 2 ^ 63 := by
  have hprod : 0 < dump.shape.prod := Nat.pos_of_ne_zero fun h0 => hpos (List.prod_eq_zero_iff.1 h0)
  have hle : d ≤ dump.shape.prod := Nat.le_of_dvd hprod (List.dvd_prod hd)
  have hlt := h.fits.addressable
  omega

/-- A frame in range has no cells when a dimension is empty. -/
theorem cells_eq_zero (hzero : 0 ∈ dump.shape) (hsteps : 0 < dump.steps)
    (hsamples : 0 < dump.samples) (hchannels : 0 < dump.channels) :
    dump.height * dump.width = 0 := by
  have hprod := List.prod_eq_zero hzero
  rw [prod_shape] at hprod
  exact (Nat.mul_eq_zero.1 hprod).resolve_left
    (Nat.mul_pos (Nat.mul_pos hsteps hsamples) hchannels).ne'

/-- The counters of a frame stay within 32 bits just when every cell has less than `2 ^ 32`
spikes. -/
theorem counters_lt_iff (h : dump.Sound) {sample channel : ℕ} (hsample : sample < dump.samples)
    (hchannel : channel < dump.channels) :
    (∀ i < dump.height * dump.width,
        spikeSteps (dump.frame · sample channel) i dump.steps < 2 ^ 32) ↔
      ∀ y < dump.height, ∀ x < dump.width, dump.spikesAt sample channel y x < 2 ^ 32 := by
  constructor
  · intro hcounts y hy x hx
    rw [← spikeSteps_eq h hsample hchannel hy hx]
    exact hcounts _ (cell_lt hy hx)
  · intro hcounts i hi
    have hwidth : 0 < dump.width := Nat.pos_of_mul_pos_left (Nat.zero_lt_of_lt hi)
    have hy : i / dump.width < dump.height := Nat.div_lt_of_lt_mul (by rwa [Nat.mul_comm])
    have hx := Nat.mod_lt i hwidth
    have hi' : i / dump.width * dump.width + i % dump.width = i := Nat.div_add_mod' i dump.width
    rw [← hi', spikeSteps_eq h hsample hchannel hy hx]
    exact hcounts _ hy _ hx

end SpikeDump

/-! ### Drawn states -/

namespace Viewer

variable {dump : SpikeDump} {v : Viewer}

theorem averageRows_of_source (hv : v.source = .ofDump dump) :
    v.averageRows = (SpikeSource.orEmpty (dump.average v.sample v.channel)).map
      (cellRows shade dump.width) := by
  rw [averageRows, hv, SpikeSource.average_ofDump]
  exact bind_pure_comp _ _

section Inside

variable (h : dump.Sound) (hv : v.source = .ofDump dump) (hsample : v.sample < dump.samples)
  (hchannel : v.channel < dump.channels)

include h hv hsample hchannel

/-- The rates of all cells are drawn, unless a counter leaves 32 bits. -/
theorem averageRows_of_inside (hcells : dump.height * dump.width < 2 ^ 60) :
    v.averageRows =
      if ∀ y < dump.height, ∀ x < dump.width, dump.spikesAt v.sample v.channel y x < 2 ^ 32 then
        .ok (cellRows shade dump.width
          (rates (dump.frame · v.sample v.channel) (dump.height * dump.width) dump.steps))
      else .error .crash := by
  rw [averageRows_of_source hv, SpikeDump.average_eq h hsample hchannel hcells]
  simp only [SpikeDump.counters_lt_iff h hsample hchannel]
  split_ifs <;> rfl

end Inside

/-- On a dump without an empty dimension any events lead to the viewer of their counts. -/
theorem run_eq_reached (h : dump.Sound) (hpos : 0 ∉ dump.shape) (sample : ℕ)
    (events : List ViewerEvent) :
    (start (.ofDump dump) sample).run events = .ok (reached (.ofDump dump) sample events) :=
  run_start (h.dim_le hpos (d := dump.steps) (by simp [SpikeDump.shape]))
    (h.dim_le hpos (d := dump.samples) (by simp [SpikeDump.shape]))
    (h.dim_le hpos (d := dump.channels) (by simp [SpikeDump.shape])) sample events

/-- The positions of that viewer are those of a frame. -/
theorem inside_of_run (h : dump.Sound) (hpos : 0 ∉ dump.shape) {sample : ℕ}
    {events : List ViewerEvent} (hv : (start (.ofDump dump) sample).run events = .ok v) :
    v.source = .ofDump dump ∧ v.tick < dump.steps ∧ v.sample < dump.samples ∧
      v.channel < dump.channels := by
  obtain ⟨hsteps, hsamples, hchannels, -, -⟩ := dump.dims_pos hpos
  have hlt : ∀ {size : ℕ} (n : ℤ), 0 < size → around size n < size := fun {size} n hsize =>
    (around_lt size n).trans_eq (Nat.max_eq_left hsize)
  rw [run_eq_reached h hpos] at hv
  cases hv
  exact ⟨rfl, hlt _ hsteps, hlt _ hsamples, hlt _ hchannels⟩

end Viewer

end SynapseMem
