import SynapseMem.Decimal.Layout
import SynapseMem.Fixed.Token

/-!
# Quantization

`QFormat.quantize` multiplies a value by `2 ^ fracBits`, rounds the product to the nearest whole
number with a half going to the even one, and stores it as a word. A value whose rounded product
lies outside the format is refused, never clamped.

Lists are quantized value by value: `quantizeAll` keeps every answer, `tryQuantizeAll` stops at the
first value that does not fit.
-/

namespace SynapseMem

/-- A value that does not fit a format. -/
structure RangeError where
  value : Binary64
  format : QFormat
  deriving DecidableEq

/-- The wording of a range error. -/
def RangeError.message (e : RangeError) : String :=
  "value " ++ Decimal.plain.write e.value ++ " does not fit in " ++ e.format.name ++
    s!" ({e.format.intBits} integer bits, {e.format.fracBits} fractional bits)"

/-- The first value of a list that does not fit, by position. -/
structure BatchError where
  index : Nat
  source : RangeError
  deriving DecidableEq

/-- The wording of a batch error. -/
def BatchError.message (e : BatchError) : String := s!"element {e.index}: " ++ e.source.message

namespace QFormat

/-- The word nearest to a value, if the format reaches that far. -/
def quantize (format : QFormat) (value : Binary64) : Except RangeError Word :=
  let scaled := (value.mul format.scale).roundTiesEven
  if scaled.isFinite then
    let n := scaled.toInt128
    if format.maxValue.toInt < n || n < format.minValue.toInt then .error ⟨value, format⟩
    else .ok ⟨format.encode (Int64.ofInt n), format⟩
  else .error ⟨value, format⟩

/-- The words of a list of values, or the first value that does not fit with its position. -/
def tryQuantizeFrom (format : QFormat) (index : Nat) : List Binary64 → Except BatchError (List Word)
  | [] => .ok []
  | v :: vs =>
    match format.quantize v with
    | .error e => .error ⟨index, e⟩
    | .ok w =>
      match format.tryQuantizeFrom (index + 1) vs with
      | .error e => .error e
      | .ok ws => .ok (w :: ws)

end QFormat

/-- Quantize every value, keeping the failures. -/
def quantizeAll (values : List Binary64) (format : QFormat) : List (Except RangeError Word) :=
  values.map format.quantize

/-- Quantize every value, or report the first that does not fit. -/
def tryQuantizeAll (values : List Binary64) (format : QFormat) : Except BatchError (List Word) :=
  format.tryQuantizeFrom 0 values

end SynapseMem
