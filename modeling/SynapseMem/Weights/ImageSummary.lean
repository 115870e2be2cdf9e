import SynapseMem.Json.Value
import SynapseMem.Weights.Image

/-!
# Summary of a memory image

The count, the least, the greatest and the mean value of the words of an image.
-/

namespace SynapseMem

/-- What is said about the words of an image. -/
structure ImageSummary where
  format : String
  count : Nat
  min : Binary64
  max : Binary64
  mean : Binary64
  deriving DecidableEq

namespace ImageSummary

/-- The summary of words, which an empty list does not have. -/
def ofWords? : List Word → Option ImageSummary
  | [] => none
  | first :: rest =>
    let values := (first :: rest).map Word.toBinary64
    let total := values.foldl Binary64.add Binary64.zero
    some {
      format := first.format.name
      count := values.length
      min := values.foldl Binary64.min (Binary64.infinity false)
      max := values.foldl Binary64.max (Binary64.infinity true)
      mean := total.div (Binary64.ofNat values.length) }

/-- The summary as rows of key and value. -/
def rows (s : ImageSummary) : List (String × String) :=
  [("Format", s.format), ("Count", toString s.count), ("Min", Decimal.plain.write s.min),
    ("Max", Decimal.plain.write s.max), ("Mean", Decimal.fixed 6 s.mean)]

/-- The summary as a JSON value. -/
def toJson (s : ImageSummary) : Json.Value :=
  .object [("format", .string s.format), ("count", .ofNat s.count), ("min", .ofBinary64 s.min),
    ("max", .ofBinary64 s.max), ("mean", .ofBinary64 s.mean)]

end ImageSummary

end SynapseMem
