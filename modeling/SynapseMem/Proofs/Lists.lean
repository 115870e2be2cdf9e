import Mathlib.Tactic
import Mathlib.Data.List.Forall2

/-!
# Lists of rows, and lists read item by item

Rows of one length are put together so that an item of a row is found by the row's place and its own
(`getElem?_flatten_of_uniform`), and a row that is cut into parts of one length is made up of them
again (`flatten_parts`). Where items are left out, the others move up by the number of those before
(`getElem?_filterMap_of_take`). A reader that stops at the first item it refuses succeeds when it
accepts every item, with one result for each (`forall₂_of_reader`), and else fails at the first that
it refuses (`exists_first_of_reader`).
-/

namespace SynapseMem

/-! ### Rows of one length -/

section Uniform

variable {α : Type} {xss : List (List α)} {c : ℕ}

theorem length_flatten_of_uniform (h : ∀ xs ∈ xss, xs.length = c) :
    xss.flatten.length = xss.length * c := by
  induction xss with
  | nil => simp
  | cons xs xss ih =>
    rw [List.flatten_cons, List.length_append, h xs List.mem_cons_self,
      ih fun ys hys => h ys (List.mem_cons_of_mem xs hys), List.length_cons]
    ring

theorem getElem?_flatten_of_uniform (h : ∀ xs ∈ xss, xs.length = c) (i : ℕ) {j : ℕ} (hj : j < c) :
    xss.flatten[i * c + j]? = xss[i]?.bind fun xs => xs[j]? := by
  induction xss generalizing i with
  | nil => simp
  | cons xs xss ih =>
    have hxs : xs.length = c := h xs List.mem_cons_self
    rw [List.flatten_cons]
    cases i with
    | zero => simp [List.getElem?_append_left (hxs ▸ hj)]
    | succ i =>
      have hle : xs.length ≤ (i + 1) * c + j := by
        rw [hxs, Nat.succ_mul]
        omega
      have hsub : (i + 1) * c + j - xs.length = i * c + j := by
        rw [hxs, Nat.succ_mul]
        omega
      rw [List.getElem?_append_right hle, hsub, List.getElem?_cons_succ]
      exact ih (fun ys hys => h ys (List.mem_cons_of_mem xs hys)) i

/-- Consecutive parts of one length make up what they are cut from. -/
theorem flatten_parts (items : List α) (start len count : ℕ) :
    ((List.range count).map fun k => (items.drop (start + k * len)).take len).flatten =
      (items.drop start).take (count * len) := by
  induction count with
  | zero => simp
  | succ count ih =>
    rw [List.range_succ, List.map_append, List.flatten_append, ih, List.map_singleton,
      List.flatten_singleton, Nat.succ_mul, List.take_add, List.drop_drop]

end Uniform

/-! ### Lists with items left out -/

/-- An item that is kept stands behind those that are kept before it. -/
theorem getElem?_filterMap_of_take {α β : Type} {f : α → Option β} {as : List α} {i : ℕ}
    {a : α} {b : β} (ha : as[i]? = some a) (hb : f a = some b) :
    (as.filterMap f)[((as.take i).filterMap f).length]? = some b := by
  obtain ⟨hlt, rfl⟩ := List.getElem?_eq_some_iff.1 ha
  have hsplit : as = as.take i ++ as[i] :: as.drop (i + 1) := by
    rw [← List.drop_eq_getElem_cons hlt, List.take_append_drop]
  conv_lhs => rw [hsplit, List.filterMap_append, List.filterMap_cons_some hb]
  rw [← hsplit, List.getElem?_append_right le_rfl, Nat.sub_self, List.getElem?_cons_zero]

/-! ### Related lists -/

section Related

variable {α β : Type} {R : α → β → Prop} {as : List α} {bs : List β}

theorem forall_right_of_forall₂ (h : List.Forall₂ R as bs) {p : β → Prop}
    (hp : ∀ a b, R a b → p b) : ∀ b ∈ bs, p b := by
  induction h with
  | nil => simp
  | cons hab _ ih =>
    intro b hb
    rcases List.mem_cons.1 hb with rfl | hb
    · exact hp _ _ hab
    · exact ih b hb

theorem exists_getElem?_of_forall₂ (h : List.Forall₂ R as bs) {i : ℕ} (hi : i < as.length) :
    ∃ a b, as[i]? = some a ∧ bs[i]? = some b ∧ R a b := by
  induction h generalizing i with
  | nil => simp at hi
  | cons hab _ ih =>
    cases i with
    | zero => exact ⟨_, _, rfl, rfl, hab⟩
    | succ i => exact ih (by simpa using hi)

/-- Two images are equal when the items have equal images one by one. -/
theorem map_eq_map_iff_forall₂ {γ : Type} {f : α → γ} {g : β → γ} :
    as.map f = bs.map g ↔ List.Forall₂ (fun a b => f a = g b) as bs := by
  rw [← List.forall₂_eq_eq_eq, List.forall₂_map_left_iff, List.forall₂_map_right_iff]

theorem exists_forall₂_iff : (∃ bs, List.Forall₂ R as bs) ↔ ∀ a ∈ as, ∃ b, R a b := by
  induction as with
  | nil => simp
  | cons a as ih =>
    rw [List.forall_mem_cons, ← ih]
    constructor
    · rintro ⟨bs, hbs⟩
      obtain ⟨b, bs, hab, hrest, -⟩ := List.forall₂_cons_left_iff.1 hbs
      exact ⟨⟨b, hab⟩, bs, hrest⟩
    · rintro ⟨⟨b, hab⟩, bs, hrest⟩
      exact ⟨b :: bs, .cons hab hrest⟩

theorem mapM_eq_ok_iff {ε : Type} {f : α → Except ε β} :
    as.mapM f = .ok bs ↔ List.Forall₂ (fun a b => f a = .ok b) as bs := by
  induction as generalizing bs with
  | nil => simp [pure, Except.pure, eq_comm]
  | cons a as ih =>
    rw [List.mapM_cons, List.forall₂_cons_left_iff]
    simp only [← ih]
    cases f a with
    | error e => simp [bind, Except.bind]
    | ok b =>
      cases as.mapM f with
      | error e => simp [bind, Except.bind]
      | ok rest => simp [bind, Except.bind, pure, Except.pure, eq_comm]

theorem mapM_of_forall_eq_ok {ε : Type} {f : α → Except ε β} {g : α → β}
    (h : ∀ a ∈ as, f a = .ok (g a)) : as.mapM f = .ok (as.map g) :=
  mapM_eq_ok_iff.2 (List.forall₂_map_right_iff.2 (List.forall₂_same.2 h))

/-- Where one item fails, the first that does decides. -/
theorem mapM_eq_error_iff {ε : Type} {f : α → Except ε β} {e : ε} :
    as.mapM f = .error e ↔
      ∃ before a after, as = before ++ a :: after ∧ (∀ b ∈ before, ∃ c, f b = .ok c) ∧
        f a = .error e := by
  induction as with
  | nil => simp [pure, Except.pure]
  | cons a as ih =>
    rw [List.mapM_cons]
    constructor
    · intro h
      cases ha : f a with
      | error e' =>
        rw [ha] at h
        cases h
        exact ⟨[], a, as, rfl, by simp, ha⟩
      | ok c =>
        cases hrest : as.mapM f with
        | ok cs =>
          rw [ha, hrest] at h
          cases h
        | error e' =>
          rw [ha, hrest] at h
          cases h
          obtain ⟨before, b, after, rfl, hbefore, hb⟩ := ih.1 hrest
          exact ⟨a :: before, b, after, rfl, List.forall_mem_cons.2 ⟨⟨c, ha⟩, hbefore⟩, hb⟩
    · rintro ⟨before, b, after, heq, hbefore, hb⟩
      cases before with
      | nil =>
        cases heq
        rw [hb]
        rfl
      | cons b' before =>
        cases heq
        obtain ⟨⟨c, hc⟩, hrest⟩ := List.forall_mem_cons.1 hbefore
        rw [hc, ih.2 ⟨before, b, after, rfl, hrest, hb⟩]
        rfl

/-- A list is read when each item is, where the reader keeps count of the items before. -/
theorem forall₂_of_reader {ε : Type} (read : ℕ → List α → Except ε (List β))
    (hnil : ∀ i, read i [] = .ok [])
    (hcons : ∀ i a as bs,
      read i (a :: as) = .ok bs ↔ ∃ b rest, R a b ∧ read (i + 1) as = .ok rest ∧ bs = b :: rest)
    (i : ℕ) : read i as = .ok bs ↔ List.Forall₂ R as bs := by
  induction as generalizing i bs with
  | nil => simp [hnil, eq_comm]
  | cons a as ih =>
    rw [hcons, List.forall₂_cons_left_iff]
    simp only [ih]

/-- A reader that keeps count fails at the first item it refuses. -/
theorem exists_first_of_reader {ε : Type} (p : α → Prop) (fault : ℕ → α → ε)
    (read : ℕ → List α → Except ε (List β)) (hnil : ∀ i, read i [] = .ok [])
    (hcons : ∀ i a as e, read i (a :: as) = .error e →
      ¬ p a ∧ e = fault i a ∨ p a ∧ read (i + 1) as = .error e)
    {i : ℕ} {e : ε} (h : read i as = .error e) :
    ∃ index a, as[index]? = some a ∧ ¬ p a ∧ (∀ b ∈ as.take index, p b) ∧
      e = fault (i + index) a := by
  induction as generalizing i with
  | nil =>
    rw [hnil] at h
    cases h
  | cons a as ih =>
    rcases hcons i a as e h with ⟨ha, rfl⟩ | ⟨ha, hrest⟩
    · exact ⟨0, a, rfl, ha, by simp, rfl⟩
    · obtain ⟨index, b, hb, hpb, hbefore, rfl⟩ := ih hrest
      refine ⟨index + 1, b, hb, hpb, ?_, by rw [Nat.add_assoc, Nat.add_comm 1 index]⟩
      rw [List.take_succ_cons, List.forall_mem_cons]
      exact ⟨ha, hbefore⟩

end Related

end SynapseMem
