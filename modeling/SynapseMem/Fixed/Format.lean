import SynapseMem.Binary64.Arithmetic

/-!
# Fixed-point formats

A `QFormat` has `intBits` integer bits, the sign included, and `fracBits` fractional bits, in a
two's-complement word of at most 64 bits. Its words stand for the multiples of `2 ^ (-fracBits)`
from `minValue` to `maxValue`.
-/

namespace SynapseMem

/-- The widest word. -/
def maxTotalBits : Nat := 64

/-- A signed fixed-point format. -/
structure QFormat where
  intBits : Nat
  fracBits : Nat
  int_pos : 1 ≤ intBits
  width_le : intBits + fracBits ≤ maxTotalBits
  deriving DecidableEq

/-- Why two bit counts are no format. -/
inductive FormatError where
  | noIntegerBits
  | tooWide (intBits fracBits : Nat)
  deriving DecidableEq, Repr

/-- The wording of a format error. -/
def FormatError.message : FormatError → String
  | .noIntegerBits => "a signed fixed-point format needs at least one integer bit"
  | .tooWide i f => s!"format Q{i}.{f} is wider than {maxTotalBits} bits"

namespace QFormat

/-- The format with these bit counts. -/
def ofBits (intBits fracBits : Nat) : Except FormatError QFormat :=
  if h : 1 ≤ intBits then
    if w : intBits + fracBits ≤ maxTotalBits then .ok ⟨intBits, fracBits, h, w⟩
    else .error (.tooWide intBits fracBits)
  else .error .noIntegerBits

/-- Two integer bits and fourteen fractional bits, the weights of a 16-bit synapse memory. -/
def q2_14 : QFormat := ⟨2, 14, by decide, by decide⟩

instance : Inhabited QFormat := ⟨q2_14⟩

/-- The width of a word. -/
def totalBits (q : QFormat) : Nat := q.intBits + q.fracBits

/-- The factor `2 ^ fracBits` between a value and its scaled integer. -/
def scale (q : QFormat) : Binary64 := Binary64.ofNat (Nat.pow 2 q.fracBits)

/-- The value of the least significant bit. -/
def resolution (q : QFormat) : Binary64 := Binary64.one.div q.scale

/-- The greatest scaled integer, `2 ^ (totalBits - 1) - 1`. -/
def maxValue (q : QFormat) : Int64 := Int64.ofInt (Nat.pow 2 (q.totalBits - 1) - 1)

/-- The least scaled integer, `-2 ^ (totalBits - 1)`. -/
def minValue (q : QFormat) : Int64 := Int64.ofInt (-Nat.pow 2 (q.totalBits - 1))

/-- The word with every bit of the format set. -/
def mask (q : QFormat) : UInt64 :=
  if q.totalBits = 64 then UInt64.ofNat 18446744073709551615
  else (1 : UInt64) <<< UInt64.ofNat q.totalBits - 1

/-- The two's-complement word of a scaled integer in range. -/
def encode (q : QFormat) (n : Int64) : UInt64 :=
  if n < 0 then UInt64.ofInt (Nat.pow 2 q.totalBits + n.toInt) else UInt64.ofInt n.toInt

/-- The name of the format, `Q2.14`. -/
def name (q : QFormat) : String := s!"Q{q.intBits}.{q.fracBits}"

end QFormat

end SynapseMem
