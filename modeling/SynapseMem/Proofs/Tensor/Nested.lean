import SynapseMem.Proofs.Lists
import SynapseMem.Proofs.Steps
import SynapseMem.Tensor

/-!
# Nested arrays and their row-major elements

`Nested shape v xs` says that `v` is nested arrays of the dimensions `shape` with the elements `xs`
in row-major order. Reading a tensor succeeds only on such values (`ofJson_eq_ok_iff`). The element
found by following an index into the arrays, `element?`, stands at the offset of that index in the
row-major list (`Nested.element?_eq`).

Before anything is read the dimensions are multiplied from the left and room is reserved. Dimensions
for which that goes well are those that `Fits` describes.
-/

namespace SynapseMem.Tensor

/-- The element of nested arrays at an index, with one position for every level. -/
def element? : Json.Value → List ℕ → Option Binary64
  | v, [] => leaf? v
  | .array items, i :: index => items[i]?.bind fun v => element? v index
  | _, _ :: _ => none

/-- The place of an index in row-major order. -/
def offset : List ℕ → List ℕ → ℕ
  | _ :: shape, i :: index => i * shape.prod + offset shape index
  | _, _ => 0

/-- Nested arrays of some dimensions, with their elements in row-major order. -/
def Nested : List ℕ → Json.Value → List Binary64 → Prop
  | [], v, xs => ∃ x, leaf? v = some x ∧ xs = [x]
  | d :: shape, v, xs => ∃ items xss, v = .array items ∧ items.length = d ∧
      List.Forall₂ (Nested shape) items xss ∧ xs = xss.flatten

/-! ### The elements of nested arrays -/

/-- There are as many elements as the dimensions say. -/
theorem Nested.length {shape : List ℕ} {v : Json.Value} {xs : List Binary64}
    (h : Nested shape v xs) : xs.length = shape.prod := by
  induction shape generalizing v xs with
  | nil =>
    obtain ⟨x, -, rfl⟩ := h
    rfl
  | cons d shape ih =>
    obtain ⟨items, xss, rfl, rfl, hall, rfl⟩ := h
    rw [length_flatten_of_uniform (forall_right_of_forall₂ hall fun _ _ => ih), ← hall.length_eq,
      List.prod_cons]

/-- An index below the dimensions has its place among the elements. -/
theorem offset_lt {shape index : List ℕ} (h : List.Forall₂ (· < ·) index shape) :
    offset shape index < shape.prod := by
  induction h with
  | nil => simp [offset]
  | cons hlt _ ih =>
    rw [offset, List.prod_cons]
    exact Nat.lt_of_lt_of_le (Nat.add_lt_add_left ih _)
      (by rw [← Nat.succ_mul]; exact Nat.mul_le_mul_right _ hlt)

/-- Following an index into the arrays finds the element at its row-major place. -/
theorem Nested.element?_eq {shape index : List ℕ} {v : Json.Value} {xs : List Binary64}
    (h : Nested shape v xs) (hindex : List.Forall₂ (· < ·) index shape) :
    element? v index = xs[offset shape index]? := by
  induction hindex generalizing v xs with
  | nil =>
    obtain ⟨x, hx, rfl⟩ := h
    simp [element?, offset, hx]
  | @cons i d index shape hlt hrest ih =>
    obtain ⟨items, xss, rfl, rfl, hall, rfl⟩ := h
    obtain ⟨item, ys, hitem, hys, hnested⟩ := exists_getElem?_of_forall₂ hall hlt
    have huniform := forall_right_of_forall₂ hall fun _ _ => Nested.length
    rw [offset, getElem?_flatten_of_uniform huniform i (offset_lt hrest), hys, Option.bind_some,
      ← ih hnested, element?, hitem, Option.bind_some]

/-! ### Reading -/

/-- The lengths along the first items are not zero, but perhaps the last of them. -/
theorem zero_notMem_dropLast_spine (v : Json.Value) : 0 ∉ (spine v).dropLast := by
  fun_induction spine v with
  | case1 => simp
  | case2 v vs ih =>
    cases hspine : spine v with
    | nil => simp
    | cons d shape =>
      rw [hspine] at ih
      simpa using ih
  | case3 => simp

theorem leafAt_eq_ok_iff {shape : List ℕ} {depth : ℕ} {v : Json.Value} {xs : List Binary64} :
    leafAt shape depth v = .ok xs ↔ depth = shape.length ∧ ∃ x, leaf? v = some x ∧ xs = [x] := by
  unfold leafAt
  split_ifs with hdepth
  · cases leaf? v with
    | none => simp
    | some x => simp [hdepth, eq_comm]
  · simp [hdepth]

/-- The items of an array are read one after the other. -/
theorem itemLeaves_eq_ok_iff {shape rest : List ℕ} {depth : ℕ}
    (h : ∀ v xs, leaves shape depth v = .ok xs ↔ Nested rest v xs) (items : List Json.Value)
    (xs : List Binary64) :
    itemLeaves shape depth items = .ok xs ↔
      ∃ xss, List.Forall₂ (Nested rest) items xss ∧ xs = xss.flatten := by
  induction items generalizing xs with
  | nil => simp [itemLeaves, eq_comm]
  | cons v items ih =>
    rw [itemLeaves]
    constructor
    · intro hok
      split at hok
      · cases hok
      · rename_i ys hys
        split at hok
        · cases hok
        · rename_i zs hzs
          obtain ⟨xss, hall, rfl⟩ := (ih zs).1 hzs
          cases hok
          exact ⟨ys :: xss, .cons ((h v ys).1 hys) hall, rfl⟩
    · rintro ⟨xss, hall, rfl⟩
      obtain ⟨ys, yss, hv, hrest, rfl⟩ := List.forall₂_cons_left_iff.1 hall
      simp [(h v ys).2 hv, (ih yss.flatten).2 ⟨yss, hrest, rfl⟩]

/-- A value is read at a depth exactly when it is nested arrays of the dimensions from there on. -/
theorem leaves_eq_ok_iff {shape : List ℕ} {depth : ℕ} (hdepth : depth ≤ shape.length)
    (v : Json.Value) (xs : List Binary64) :
    leaves shape depth v = .ok xs ↔ Nested (shape.drop depth) v xs := by
  -- by induction on the dimensions that are left
  induction hrest : shape.drop depth generalizing depth v xs with
  | nil =>
    have hlen : depth = shape.length := le_antisymm hdepth (List.drop_eq_nil_iff.1 hrest)
    cases v with
    | array items =>
      have hnone : shape[depth]? = none := List.getElem?_eq_none hlen.ge
      simp [leaves, hnone, Nested, leaf?]
    | _ => simp only [leaves, leafAt_eq_ok_iff, Nested, hlen, true_and]
  | cons d rest ih =>
    have hlt : depth < shape.length := by
      by_contra hge
      rw [List.drop_eq_nil_of_le (not_lt.1 hge)] at hrest
      cases hrest
    have hd : shape[depth]? = some d := by
      rw [← List.head?_drop, hrest, List.head?_cons]
    have hdrop : shape.drop (depth + 1) = rest := by
      rw [← List.tail_drop, hrest, List.tail_cons]
    cases v with
    | array items =>
      have hitems := itemLeaves_eq_ok_iff (fun v xs => ih hlt v xs hdrop) items xs
      rw [leaves, hd]
      split_ifs with hlength
      · rw [hitems, Nested]
        rw [Option.some.injEq] at hlength
        constructor
        · rintro ⟨xss, hall, rfl⟩
          exact ⟨items, xss, rfl, hlength.symm, hall, rfl⟩
        · rintro ⟨items', xss, heq, -, hall, rfl⟩
          cases heq
          exact ⟨xss, hall, rfl⟩
      · simp only [false_iff]
        rintro ⟨items', xss, heq, hlen, -⟩
        cases heq
        exact hlength (congrArg some hlen.symm)
    | _ => simp [leaves, leafAt_eq_ok_iff, hlt.ne, Nested]

/-- No product of the first of the dimensions leaves 64 bits, and memory can address as many
elements as all of them call for. -/
structure Fits (shape : List ℕ) : Prop where
  counted : ∀ front, front <+: shape → front.prod < 2 ^ 64
  addressable : shape.prod < 2 ^ 60

theorem fits_iff_inits {shape : List ℕ} :
    (∀ front ∈ shape.inits, front.prod < 2 ^ 64) ∧ shape.prod < 2 ^ 60 ↔ Fits shape := by
  simp only [List.mem_inits]
  exact ⟨fun h => ⟨h.1, h.2⟩, fun h => ⟨h.counted, h.addressable⟩⟩

instance : DecidablePred Fits := fun _ => decidable_of_iff _ fits_iff_inits

/-- Dimensions are multiplied on from a product so far. -/
theorem foldlM_checked {shape : List ℕ} {n : ℕ}
    (h : ∀ front, front <+: shape → n * front.prod < 2 ^ 64) :
    shape.foldlM (fun n d => checked (n * d)) n = .ok (n * shape.prod) := by
  induction shape generalizing n with
  | nil => rw [List.foldlM_nil, List.prod_nil, Nat.mul_one]; rfl
  | cons d shape ih =>
    have hfirst : n * d < 2 ^ 64 := by simpa using h [d] (by simp)
    rw [List.foldlM_cons, checked_of_lt hfirst, ok_bind, ih, List.prod_cons, Nat.mul_assoc]
    intro front hfront
    rw [Nat.mul_assoc, ← List.prod_cons]
    exact h (d :: front) (List.cons_prefix_cons.2 ⟨rfl, hfront⟩)

/-- A product on the way that leaves 64 bits is not taken back by the dimensions after it. -/
theorem foldlM_checked_of_le {shape front : List ℕ} {n : ℕ} (hn : n < 2 ^ 64)
    (hfront : front <+: shape) (hle : 2 ^ 64 ≤ n * front.prod) :
    shape.foldlM (fun n d => checked (n * d)) n = .error .crash := by
  induction shape generalizing n front with
  | nil =>
    rw [List.prefix_nil.1 hfront, List.prod_nil, Nat.mul_one] at hle
    exact absurd hn (not_lt.2 hle)
  | cons d shape ih =>
    rw [List.foldlM_cons]
    by_cases hfirst : n * d < 2 ^ 64
    · rw [checked_of_lt hfirst, ok_bind]
      cases front with
      | nil =>
        rw [List.prod_nil, Nat.mul_one] at hle
        exact absurd hn (not_lt.2 hle)
      | cons d' front =>
        obtain ⟨rfl, hrest⟩ := List.cons_prefix_cons.1 hfront
        rw [List.prod_cons, ← Nat.mul_assoc] at hle
        exact ih hfirst hrest hle
    · rw [checked_of_le (not_lt.1 hfirst), error_bind]

theorem product_of_counted {shape : List ℕ} (h : ∀ front, front <+: shape → front.prod < 2 ^ 64) :
    product shape = .ok shape.prod := by
  rw [product, foldlM_checked (by simpa using h), Nat.one_mul]

theorem product_of_not_counted {shape : List ℕ}
    (h : ¬ ∀ front, front <+: shape → front.prod < 2 ^ 64) : product shape = .error .crash := by
  push Not at h
  obtain ⟨front, hfront, hle⟩ := h
  exact foldlM_checked_of_le (by norm_num) hfront (by rwa [Nat.one_mul])

/-- The elements of a value along its spine are those of nested arrays, and there is one list of
them. -/
theorem leaves_spine_eq_ok_iff (v : Json.Value) (xs : List Binary64) :
    leaves (spine v) 0 v = .ok xs ↔ Nested (spine v) v xs := by
  rw [leaves_eq_ok_iff (Nat.zero_le _), List.drop_zero]

/-- Where the dimensions fit, the elements are looked at. -/
theorem ofJson_of_fits {v : Json.Value} (h : Fits (spine v)) (name : String) :
    ofJson name v = ((leaves (spine v) 0 v).map (Tensor.mk (spine v))).mapError
      fun fault => .error (.shape name fault) := by
  have hsize := h.addressable
  rw [ofJson, product_of_counted h.counted, ok_bind, reserve_of_lt (by omega), ok_bind]
  cases leaves (spine v) 0 v <;> rfl

/-- Dimensions that do not fit end the process before an element is looked at. -/
theorem ofJson_of_not_fits {v : Json.Value} (h : ¬ Fits (spine v)) (name : String) :
    ofJson name v = .error .crash := by
  rw [ofJson]
  by_cases hcounted : ∀ front, front <+: spine v → front.prod < 2 ^ 64
  · have hsize : ¬ (spine v).prod < 2 ^ 60 := fun hsize => h ⟨hcounted, hsize⟩
    rw [product_of_counted hcounted, ok_bind, reserve_of_le (by omega), error_bind]
  · rw [product_of_not_counted hcounted, error_bind]

/-- A tensor is read from nested arrays of its dimensions, when these fit. -/
theorem ofJson_eq_ok_iff {name : String} {v : Json.Value} {t : Tensor} :
    ofJson name v = .ok t ↔ Fits t.shape ∧ t.shape = spine v ∧ Nested t.shape v t.data := by
  by_cases hfits : Fits (spine v)
  · rw [ofJson_of_fits hfits]
    constructor
    · intro h
      cases hleaves : leaves (spine v) 0 v with
      | error fault =>
        rw [hleaves] at h
        cases h
      | ok data =>
        rw [hleaves] at h
        cases h
        exact ⟨hfits, rfl, (leaves_spine_eq_ok_iff v data).1 hleaves⟩
    · rintro ⟨-, hshape, hnested⟩
      rw [hshape, ← leaves_spine_eq_ok_iff] at hnested
      rw [hnested, ← hshape]
      rfl
  · rw [ofJson_of_not_fits hfits]
    refine iff_of_false (by simp) ?_
    rintro ⟨hshape, heq, -⟩
    exact hfits (heq ▸ hshape)

theorem nested_of_ofJson {name : String} {v : Json.Value} {t : Tensor} (h : ofJson name v = .ok t) :
    Nested t.shape v t.data := (ofJson_eq_ok_iff.1 h).2.2

/-- Reading ends the process for dimensions that do not fit, and for no others. -/
theorem ofJson_eq_crash_iff {name : String} {v : Json.Value} :
    ofJson name v = .error .crash ↔ ¬ Fits (spine v) := by
  constructor
  · intro hcrash hfits
    rw [ofJson_of_fits hfits] at hcrash
    cases hleaves : leaves (spine v) 0 v <;> rw [hleaves] at hcrash <;> cases hcrash
  · intro hfits
    exact ofJson_of_not_fits hfits name

end SynapseMem.Tensor
