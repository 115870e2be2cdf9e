import SynapseMem.Proofs.Tensor.Nested

/-!
# Rectangular arrays

`HasShape v shape` says that `v` is a number or a truth value, or arrays of items that all have one
shape. A value has at most one shape, the lengths along its first items (`HasShape.spine_eq`), and
its elements in row-major order are its leaves from left to right, `depthFirst v`
(`HasShape.nested`).

Reading a tensor keeps to that where the lengths along the first items fit. They are multiplied and
room is reserved before the other items are looked at, so a value that is not rectangular can end
the process where it should be refused (`ofJson_of_not_rectangular`).
-/

namespace SynapseMem.Tensor

/-- A number or a truth value has no dimension, and an array has the number of its items in front of
their shape. -/
inductive HasShape : Json.Value → List ℕ → Prop
  | bool (b : Bool) : HasShape (.bool b) []
  | number (n : Json.Number) : HasShape (.number n) []
  | empty : HasShape (.array []) [0]
  | array {items : List Json.Value} {shape : List ℕ} (hne : items ≠ [])
      (h : ∀ v ∈ items, HasShape v shape) :
      HasShape (.array items) (items.length :: shape)

/-- A value that has a shape. -/
def Rectangular (v : Json.Value) : Prop := ∃ shape, HasShape v shape

mutual

/-- The leaves of a value from left to right, with truth values as 0 and 1. -/
def depthFirst : Json.Value → List Binary64
  | .array items => depthFirstItems items
  | .null => []
  | .bool b => [if b then Binary64.one else Binary64.zero]
  | .number n => [n.toBinary64]
  | .string _ => []
  | .object _ => []

/-- The leaves of the items of an array from left to right. -/
def depthFirstItems : List Json.Value → List Binary64
  | [] => []
  | v :: vs => depthFirst v ++ depthFirstItems vs

end

theorem depthFirstItems_eq (items : List Json.Value) :
    depthFirstItems items = (items.map depthFirst).flatten := by
  induction items with
  | nil => rfl
  | cons v items ih => rw [depthFirstItems, ih, List.map_cons, List.flatten_cons]

theorem hasShape_of_leaf? {v : Json.Value} {x : Binary64} (h : leaf? v = some x) :
    HasShape v [] ∧ depthFirst v = [x] := by
  cases v with
  | bool b =>
    cases h
    exact ⟨.bool b, rfl⟩
  | number n =>
    cases h
    exact ⟨.number n, rfl⟩
  | _ => cases h

/-! ### Shapes and nested arrays -/

/-- The shape of a value is that of its first items. -/
theorem HasShape.spine_eq {v : Json.Value} {shape : List ℕ} (h : HasShape v shape) :
    spine v = shape := by
  induction h with
  | bool => rfl
  | number => rfl
  | empty => rfl
  | @array items shape hne _ ih =>
    obtain ⟨v, vs, rfl⟩ := List.exists_cons_of_ne_nil hne
    rw [spine, ih v List.mem_cons_self, List.length_cons]

/-- Nested arrays have the leaves as their elements. -/
theorem Nested.eq_depthFirst {shape : List ℕ} {v : Json.Value} {xs : List Binary64}
    (h : Nested shape v xs) : xs = depthFirst v := by
  induction shape generalizing v xs with
  | nil =>
    obtain ⟨x, hx, rfl⟩ := h
    rw [(hasShape_of_leaf? hx).2]
  | cons d shape ih =>
    obtain ⟨items, xss, rfl, -, hall, rfl⟩ := h
    have hxss : items.map depthFirst = xss.map id :=
      map_eq_map_iff_forall₂.2 (hall.imp fun _ _ hitem => (ih hitem).symm)
    rw [depthFirst, depthFirstItems_eq, hxss, List.map_id]

/-- Arrays of one shape are nested arrays of that shape. -/
theorem HasShape.nested {v : Json.Value} {shape : List ℕ} (h : HasShape v shape) :
    Nested shape v (depthFirst v) := by
  induction h with
  | bool => exact ⟨_, rfl, rfl⟩
  | number => exact ⟨_, rfl, rfl⟩
  | empty => exact ⟨[], [], rfl, rfl, .nil, rfl⟩
  | @array items shape _ _ ih =>
    refine ⟨items, items.map depthFirst, rfl, rfl, ?_, depthFirstItems_eq items⟩
    exact List.forall₂_map_right_iff.2 (List.forall₂_same.2 ih)

/-- Nested arrays whose lengths are not zero, but perhaps the last of them, have the shape that they
are nested to. -/
theorem Nested.hasShape {shape : List ℕ} {v : Json.Value} {xs : List Binary64}
    (h : Nested shape v xs) (hzero : 0 ∉ shape.dropLast) : HasShape v shape := by
  induction shape generalizing v xs with
  | nil =>
    obtain ⟨x, hx, -⟩ := h
    exact (hasShape_of_leaf? hx).1
  | cons d shape ih =>
    obtain ⟨items, xss, rfl, rfl, hall, -⟩ := h
    by_cases hne : items = []
    · -- no item is left to give the dimensions behind a zero
      cases shape with
      | nil => exact hne ▸ .empty
      | cons e shape => simp [hne] at hzero
    · refine .array hne fun v hv => ?_
      obtain ⟨xs, hxs⟩ := exists_forall₂_iff.1 ⟨xss, hall⟩ v hv
      refine ih hxs ?_
      cases shape with
      | nil => simp
      | cons e shape =>
        rw [List.dropLast_cons_of_ne_nil (List.cons_ne_nil e shape)] at hzero
        exact fun hmem => hzero (List.mem_cons_of_mem _ hmem)

theorem HasShape.zero_notMem_dropLast {v : Json.Value} {shape : List ℕ} (h : HasShape v shape) :
    0 ∉ shape.dropLast :=
  h.spine_eq ▸ zero_notMem_dropLast_spine v

theorem HasShape.eq {v : Json.Value} {shape other : List ℕ} (h : HasShape v shape)
    (h' : HasShape v other) : other = shape :=
  h'.spine_eq.symm.trans h.spine_eq

theorem HasShape.length_depthFirst {v : Json.Value} {shape : List ℕ} (h : HasShape v shape) :
    (depthFirst v).length = shape.prod :=
  h.nested.length

/-- The leaf that an index leads to stands at the place of the index among the leaves. -/
theorem HasShape.exists_element {v : Json.Value} {shape index : List ℕ} (h : HasShape v shape)
    (hindex : List.Forall₂ (· < ·) index shape) :
    ∃ x, element? v index = some x ∧ (depthFirst v)[offset shape index]? = some x := by
  have hlt : offset shape index < (depthFirst v).length := h.length_depthFirst ▸ offset_lt hindex
  refine ⟨(depthFirst v)[offset shape index], ?_, List.getElem?_eq_getElem hlt⟩
  rw [h.nested.element?_eq hindex, List.getElem?_eq_getElem hlt]

/-- A value is rectangular when its items keep to the lengths along the first of them. -/
theorem rectangular_iff {v : Json.Value} : Rectangular v ↔ ∃ xs, leaves (spine v) 0 v = .ok xs := by
  simp only [leaves_spine_eq_ok_iff]
  constructor
  · rintro ⟨shape, h⟩
    exact ⟨depthFirst v, h.spine_eq ▸ h.nested⟩
  · rintro ⟨xs, h⟩
    exact ⟨spine v, h.hasShape (zero_notMem_dropLast_spine v)⟩

/-! ### Reading -/

/-- A rectangular value is read when its shape fits. -/
theorem ofJson_of_hasShape {v : Json.Value} {shape : List ℕ} (h : HasShape v shape)
    (name : String) :
    ofJson name v = if Fits shape then .ok ⟨shape, depthFirst v⟩ else .error .crash := by
  split_ifs with hfits
  · exact ofJson_eq_ok_iff.2 ⟨hfits, h.spine_eq.symm, h.nested⟩
  · exact ofJson_of_not_fits (h.spine_eq.symm ▸ hfits) name

/-- A value that is not rectangular is refused when the lengths along its first items fit. -/
theorem ofJson_of_not_rectangular {v : Json.Value} (h : ¬ Rectangular v) (name : String) :
    if Fits (spine v) then ∃ fault, ofJson name v = fail (.shape name fault)
      else ofJson name v = .error .crash := by
  split_ifs with hfits
  · cases hleaves : leaves (spine v) 0 v with
    | ok xs => exact absurd (rectangular_iff.2 ⟨xs, hleaves⟩) h
    | error fault => exact ⟨fault, by rw [ofJson_of_fits hfits, hleaves]; rfl⟩
  · exact ofJson_of_not_fits hfits name

/-- Reading gives exactly the shape and the leaves of a rectangular value, and refuses every other
one, as far as the lengths along the first items fit: no product of the first of them leaves 64
bits, and their product is less than `2 ^ 60`. -/
theorem ofJson_rectangular (name : String) (v : Json.Value) :
    (∀ t, ofJson name v = .ok t ↔ HasShape v t.shape ∧ t.data = depthFirst v ∧ Fits t.shape) ∧
    (∀ shape, HasShape v shape →
      (∀ other, HasShape v other → other = shape) ∧ 0 ∉ shape.dropLast ∧
      (depthFirst v).length = shape.prod ∧
      (∀ index, List.Forall₂ (· < ·) index shape →
        ∃ x, element? v index = some x ∧ (depthFirst v)[offset shape index]? = some x) ∧
      (¬ Fits shape → ofJson name v = .error .crash)) ∧
    (¬ Rectangular v →
      (Fits (spine v) → ∃ fault, ofJson name v = fail (.shape name fault)) ∧
      (¬ Fits (spine v) → ofJson name v = .error .crash)) := by
  refine ⟨fun t => ?_, fun shape h => ?_, fun h => ?_⟩
  · constructor
    · intro hok
      obtain ⟨hfits, hshape, hnested⟩ := ofJson_eq_ok_iff.1 hok
      have hzero : 0 ∉ t.shape.dropLast := hshape ▸ zero_notMem_dropLast_spine v
      exact ⟨hnested.hasShape hzero, hnested.eq_depthFirst, hfits⟩
    · rintro ⟨h, hdata, hfits⟩
      rw [ofJson_of_hasShape h, if_pos hfits, ← hdata]
  · refine ⟨fun other => h.eq, h.zero_notMem_dropLast, h.length_depthFirst,
      fun index => h.exists_element, fun hfits => ?_⟩
    rw [ofJson_of_hasShape h, if_neg hfits]
  · have hread := ofJson_of_not_rectangular h name
    constructor
    · intro hfits
      rwa [if_pos hfits] at hread
    · intro hfits
      rwa [if_neg hfits] at hread

/-- A table of two rows, with truth values among its items. -/
def table : Json.Value :=
  .array [.array [.number (.int 3), .bool true], .array [.bool false, .number (.int 5)]]

theorem hasShape_pair {v w : Json.Value} {shape : List ℕ} (hv : HasShape v shape)
    (hw : HasShape w shape) : HasShape (.array [v, w]) (2 :: shape) :=
  .array (List.cons_ne_nil v [w]) (by simp [hv, hw])

theorem hasShape_table : HasShape table [2, 2] :=
  hasShape_pair (hasShape_pair (.number _) (.bool _)) (hasShape_pair (.bool _) (.number _))

theorem ofJson_rectangular_table :
    HasShape table [2, 2] ∧ ofJson "w" table = .ok ⟨[2, 2], depthFirst table⟩ ∧
      (∃ x, element? table [1, 0] = some x ∧ (depthFirst table)[2]? = some x) ∧
      ∃ fault, ofJson "w" (.array [table, .bool true]) = fail (.shape "w" fault) := by
  have hragged : ¬ Rectangular (.array [table, .bool true]) := by
    rw [rectangular_iff]
    rintro ⟨xs, h⟩
    cases h
  obtain ⟨hok, hleaves, -⟩ := ofJson_rectangular "w" table
  obtain ⟨-, -, hrefused⟩ := ofJson_rectangular "w" (.array [table, .bool true])
  refine ⟨hasShape_table, (hok ⟨[2, 2], depthFirst table⟩).2 ⟨hasShape_table, rfl, by decide⟩, ?_,
    ?_⟩
  · exact (hleaves [2, 2] hasShape_table).2.2.2.1 [1, 0] (by simp)
  · exact (hrefused hragged).1 (by decide)

/-! ### First items that call for too much -/

/-- Pairs nested in the first item of one another, with a number in the second. -/
def staircase : ℕ → Json.Value
  | 0 => .number (.int 0)
  | n + 1 => .array [staircase n, .number (.int 0)]

theorem prod_spine_staircase (n : ℕ) : (spine (staircase n)).prod = 2 ^ n := by
  induction n with
  | zero => rfl
  | succ n ih =>
    rw [staircase, spine, List.prod_cons, ih, pow_succ']
    rfl

/-- Sixty levels call for more elements than memory can address. -/
theorem not_fits_spine_staircase {n : ℕ} (h : 60 ≤ n) : ¬ Fits (spine (staircase n)) := by
  intro hfits
  have hlt := hfits.addressable
  rw [prod_spine_staircase] at hlt
  exact absurd h (not_le.2 ((Nat.pow_lt_pow_iff_right (by norm_num)).1 hlt))

/-- The second item has no dimension, while the first one has. -/
theorem not_rectangular_staircase (n : ℕ) : ¬ Rectangular (staircase (n + 2)) := by
  rintro ⟨shape, h⟩
  cases h with
  | array _ h =>
    have hfirst := (h (staircase (n + 1)) (by simp)).spine_eq
    have hsecond := (h (.number (.int 0)) (by simp)).spine_eq
    cases hfirst.trans hsecond.symm

/-- A value of sixty levels that is not rectangular ends the process, where it should be refused. -/
theorem ofJson_staircase_crash :
    ¬ Rectangular (staircase 60) ∧ ofJson "t" (staircase 60) = .error .crash := by
  refine ⟨not_rectangular_staircase 58, ofJson_of_not_fits (not_fits_spine_staircase le_rfl) "t"⟩

end SynapseMem.Tensor
