import SynapseMem.Weights.Export

/-!
# The text of an export report

A report is written as lines for a reader, or as a JSON value.
-/

namespace SynapseMem

namespace PreviewEntry

/-- The line of a weight at the given end of the layer. -/
def line (place : String) (entry : PreviewEntry) : String :=
  place ++ " values - Original: " ++ Decimal.fixed 4 entry.value ++
    ", Hex: " ++ entry.token.getD "<skipped>" ++
    ", Scientific: " ++ Decimal.scientific 4 entry.value

/-- A weight as a JSON value. -/
def toJson (entry : PreviewEntry) : Json.Value :=
  .object [("index", .ofNat entry.index), ("value", .ofBinary64 entry.value),
    ("token", match entry.token with
      | some token => .string token
      | none => .null)]

end PreviewEntry

/-- A weight that was left out, as a JSON value. -/
def SkippedWeight.toJson (s : SkippedWeight) : Json.Value :=
  .object [("row", .ofNat s.row), ("col", .ofNat s.col), ("value", .ofBinary64 s.value)]

namespace Report

/-- The lines on the weights that were left out. -/
def skippedLines (report : Report) : List String :=
  if report.skipped.isEmpty then []
  else
    s!"Skipped (out of range): {report.skipped.length}" ::
      report.skipped.map fun s => s!"  [{s.row}][{s.col}] = " ++ Decimal.scientific 4 s.value

/-- The lines on the last weights. -/
def tailLines (report : Report) : List String :=
  if report.tail.isEmpty then [] else "..." :: report.tail.map (PreviewEntry.line "Last")

/-- The report as lines. -/
def text (report : Report) : String :=
  Text.unlines (
    [s!"Exported layer '{report.layer}' with shape [{report.rows}, {report.cols}] as " ++
        report.format,
      s!"Lines written: {report.written}"] ++
    report.skippedLines ++ [""] ++ report.head.map (PreviewEntry.line "First") ++ report.tailLines)

/-- The report as a JSON value. -/
def toJson (report : Report) : Json.Value :=
  .object [
    ("layer", .string report.layer),
    ("rows", .ofNat report.rows),
    ("cols", .ofNat report.cols),
    ("format", .string report.format),
    ("written", .ofNat report.written),
    ("skipped", .array (report.skipped.map SkippedWeight.toJson)),
    ("head", .array (report.head.map PreviewEntry.toJson)),
    ("tail", .array (report.tail.map PreviewEntry.toJson))]

end Report

end SynapseMem
