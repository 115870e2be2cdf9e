import SynapseMem.Error
import SynapseMem.Json.Value

/-!
# Tensors

A `Tensor` holds its elements in row-major order. `Tensor.ofData` checks a list of elements against
dimensions, and `Tensor.ofJson` reads nested arrays, whose dimensions are the lengths along the
first items. Booleans count as 0 and 1.

Dimensions are multiplied from the left, and each product on the way has to fit in 64 bits, also
one that a later dimension takes back to zero. Room for the elements of nested arrays is reserved
by that product before any of them is read.
-/

namespace SynapseMem

/-- A dense tensor in row-major order. -/
structure Tensor where
  shape : List Nat
  data : List Binary64
  deriving DecidableEq

namespace Tensor

/-- The product of dimensions, from the left. -/
def product (shape : List Nat) : Outcome Nat := shape.foldlM (fun n d => checked (n * d)) 1

/-- A tensor from its dimensions and elements, which take their room in memory. -/
def ofData (shape : List Nat) (data : List Binary64) : Outcome Tensor := do
  reserve data.length 8
  let needed ← product shape
  if needed = data.length then return ⟨shape, data⟩
  else fail (.shape "tensor" (.count shape needed data.length))

/-- The lengths along the first items of nested arrays. -/
def spine : Json.Value → List Nat
  | .array [] => [0]
  | .array (v :: vs) => (vs.length + 1) :: spine v
  | _ => []

/-- The number that a value other than an array stands for. -/
def leaf? : Json.Value → Option Binary64
  | .number n => some n.toBinary64
  | .bool b => some (if b then Binary64.one else Binary64.zero)
  | _ => none

/-- The element of a value other than an array, met at `depth`. -/
def leafAt (shape : List Nat) (depth : Nat) (v : Json.Value) :
    Except ShapeFault (List Binary64) :=
  if depth = shape.length then
    match leaf? v with
    | some x => .ok [x]
    | none => .error (.nonNumeric v.compact)
  else .error (.scalar depth shape.length)

mutual

/-- The elements of a value met at `depth`, which has to keep to the dimensions. -/
def leaves (shape : List Nat) (depth : Nat) : Json.Value → Except ShapeFault (List Binary64)
  | .array items =>
    if shape[depth]? = some items.length then itemLeaves shape (depth + 1) items
    else .error (.ragged depth shape[depth]? items.length)
  | .null => leafAt shape depth .null
  | .bool b => leafAt shape depth (.bool b)
  | .number n => leafAt shape depth (.number n)
  | .string s => leafAt shape depth (.string s)
  | .object members => leafAt shape depth (.object members)

/-- The elements of the items of an array. -/
def itemLeaves (shape : List Nat) (depth : Nat) :
    List Json.Value → Except ShapeFault (List Binary64)
  | [] => .ok []
  | v :: vs =>
    match leaves shape depth v with
    | .error e => .error e
    | .ok xs =>
      match itemLeaves shape depth vs with
      | .error e => .error e
      | .ok ys => .ok (xs ++ ys)

end

/-- A tensor from nested arrays; the name is for errors. -/
def ofJson (name : String) (v : Json.Value) : Outcome Tensor := do
  let shape := spine v
  let room ← product shape
  reserve room 8
  match leaves shape 0 v with
  | .ok data => return ⟨shape, data⟩
  | .error e => fail (.shape name e)

/-- The number of elements. -/
def numel (t : Tensor) : Nat := t.data.length

/-- Rows and columns of a tensor with two dimensions. -/
def matrixDims (t : Tensor) : Option (Nat × Nat) :=
  match t.shape with
  | [rows, cols] => some (rows, cols)
  | _ => none

end Tensor

end SynapseMem
