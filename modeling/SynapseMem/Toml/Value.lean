import SynapseMem.Binary64.Basic

/-!
# TOML values and tables

A table remembers how it came about, because that decides what may be added to it later: by a header
of its own, on the way to a deeper header, by a dotted key, or within braces. `Table.insert?` adds a
value under a dotted key, `Table.open?` makes the table of a header and `Table.append?` the next
table of an array of tables. Each gives nothing when the addition is not allowed.
-/

namespace SynapseMem.Toml

/-- How a table came about. -/
inductive Origin where
  /-- A header of its own, or the top of the document. -/
  | header
  /-- Named on the way to a deeper header. -/
  | implied
  /-- Named on the way to the end of a dotted key. -/
  | dotted
  /-- Written within braces. -/
  | braces
  deriving DecidableEq, Repr

/-- A TOML value. -/
inductive Value where
  | string (s : String)
  | integer (z : Int)
  | float (x : Binary64)
  | boolean (b : Bool)
  | datetime (text : String)
  | array (items : List Value)
  | table (origin : Origin) (entries : List (String × Value))
  | tables (items : List (List (String × Value)))

instance : Inhabited Value := ⟨.boolean false⟩

/-- The entries of a table in order of appearance. -/
abbrev Entries := List (String × Value)

/-- Tables may be opened by a header again unless they have a header of their own. -/
def Origin.isImplicit : Origin → Bool
  | .implied | .dotted => true
  | .header | .braces => false

namespace Entries

/-- The value under a key. -/
def find? (entries : Entries) (key : String) : Option Value :=
  match entries with
  | [] => none
  | (k, v) :: rest => if k = key then some v else find? rest key

/-- Put a value under a key, in the place of an earlier one. -/
def put (entries : Entries) (key : String) (value : Value) : Entries :=
  match entries with
  | [] => [(key, value)]
  | (k, v) :: rest => if k = key then (k, value) :: rest else (k, v) :: put rest key value

end Entries

/-- Change the table at the end of a path, making tables of the given origin where there are none. A
path goes through the last table of an array of tables. A path along a dotted key does not enter a
table that has a header or braces of its own. -/
def descend? (origin : Origin) (change : Origin → Entries → Option (Origin × Entries)) :
    Origin → List String → Entries → Option (Origin × Entries)
  | here, [], entries => change here entries
  | here, key :: path, entries =>
    match entries.find? key with
    | none =>
      (descend? origin change origin path []).map fun (o, inner) =>
        (here, entries.put key (.table o inner))
    | some (.table .braces _) => none
    | some (.table o inner) =>
      if origin = .dotted && !o.isImplicit then none
      else
        (descend? origin change o path inner).map fun (o', inner') =>
          (here, entries.put key (.table o' inner'))
    | some (.tables items) =>
      match items.getLast? with
      | none => none
      | some last =>
        (descend? origin change .header path last).map fun (_, last') =>
          (here, entries.put key (.tables (items.dropLast ++ [last'])))
    | some _ => none

/-- Add a value under a key that is not taken. The end of a dotted key is a table made by dotted
keys. -/
def addValue? (viaPath : Bool) (key : String) (value : Value) (here : Origin) (entries : Entries) :
    Option (Origin × Entries) :=
  if (here == .dotted) != viaPath then none
  else if (entries.find? key).isSome then none
  else some (here, entries ++ [(key, value)])

/-- Add a value under a dotted key. -/
def insert? (path : List String) (key : String) (value : Value) (here : Origin)
    (entries : Entries) : Option (Origin × Entries) :=
  descend? .dotted (addValue? (!path.isEmpty) key value) here path entries

/-- Add a value under a dotted key within braces, where only tables of dotted keys are entered. -/
def insertInBraces? : List String → String → Value → Entries → Option Entries
  | [], key, value, entries =>
    if (entries.find? key).isSome then none else some (entries ++ [(key, value)])
  | part :: path, key, value, entries =>
    match entries.find? part with
    | none =>
      (insertInBraces? path key value []).map fun inner =>
        entries.put part (.table .dotted inner)
    | some (.table .dotted inner) =>
      (insertInBraces? path key value inner).map fun inner' =>
        entries.put part (.table .dotted inner')
    | some _ => none

/-- Make the table of a header. It may have been implied before, and no more than that. -/
def openTable? (key : String) (here : Origin) (entries : Entries) : Option (Origin × Entries) :=
  match entries.find? key with
  | none => some (here, entries ++ [(key, .table .header [])])
  | some (.table .implied inner) => some (here, entries.put key (.table .header inner))
  | some _ => none

/-- Make the next table of an array of tables. -/
def appendTable? (key : String) (here : Origin) (entries : Entries) : Option (Origin × Entries) :=
  match entries.find? key with
  | none => some (here, entries ++ [(key, .tables [[]])])
  | some (.tables items) => some (here, entries.put key (.tables (items ++ [[]])))
  | some _ => none

end SynapseMem.Toml
