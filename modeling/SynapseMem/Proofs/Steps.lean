import Mathlib.Tactic
import SynapseMem.Error

/-!
# Runs of computations with a state

A `Step` is run from a state to an answer and a state. The statements below take such a run apart at
its first computation, once for every way in which that can end, so that later proofs never open the
definitions of the transformers. The lines that steps put out add up by `Text.unlines`.

A `Transaction` changes nothing when it reports an error. It starts with computations that only read
(`Reads.transaction_bind`) and ends with computations that cannot fail
(`Transaction.bind_completes`).

Counts and reservations give their result within their bounds and end the process beyond them.
-/

namespace SynapseMem

section Runs

variable {ε σ α β : Type}

theorem run_bind_ok {x : ExceptT ε (StateM σ) α} {f : α → ExceptT ε (StateM σ) β} {s s' : σ} {a : α}
    (h : x.run.run s = (.ok a, s')) : (x >>= f).run.run s = (f a).run.run s' := by
  rw [ExceptT.run_bind, StateT.run_bind, h]
  rfl

theorem run_bind_error {x : ExceptT ε (StateM σ) α} {f : α → ExceptT ε (StateM σ) β} {s s' : σ}
    {e : ε} (h : x.run.run s = (.error e, s')) : (x >>= f).run.run s = (.error e, s') := by
  rw [ExceptT.run_bind, StateT.run_bind, h]
  rfl

theorem ok_bind (a : α) (f : α → Except ε β) : (Except.ok a >>= f) = f a := rfl

theorem error_bind (e : ε) (f : α → Except ε β) : (Except.error e >>= f) = .error e := rfl

theorem map_eq_ok_iff {f : α → β} {x : Except ε α} {b : β} :
    x.map f = .ok b ↔ ∃ a, x = .ok a ∧ f a = b := by
  cases x <;> simp [Except.map]

theorem map_eq_error_iff {f : α → β} {x : Except ε α} {e : ε} :
    x.map f = .error e ↔ x = .error e := by
  cases x <;> simp [Except.map]

theorem bind_eq_ok_iff {x : Except ε α} {f : α → Except ε β} {b : β} :
    (x >>= f) = .ok b ↔ ∃ a, x = .ok a ∧ f a = .ok b := by
  cases x <;> simp [ok_bind, error_bind]

@[simp] theorem run_pure (a : α) (s : σ) :
    (pure a : ExceptT ε (StateM σ) α).run.run s = (.ok a, s) := rfl

@[simp] theorem run_liftM (o : Except ε α) (s : σ) :
    (liftM o : ExceptT ε (StateM σ) α).run.run s = (o, s) := rfl

@[simp] theorem run_get (s : σ) : (get : ExceptT ε (StateM σ) σ).run.run s = (.ok s, s) := rfl

end Runs

/-! ### Counts and reservations -/

section Counts

variable {α β : Type} {n count size : ℕ}

theorem checked_of_lt (h : n < 2 ^ 64) : checked n = .ok n := if_pos h

theorem checked_of_le (h : 2 ^ 64 ≤ n) : checked n = .error .crash := if_neg (not_lt.2 h)

theorem reserve_of_lt (h : count * size < 2 ^ 63) : reserve count size = .ok () := if_pos h

theorem reserve_of_le (h : 2 ^ 63 ≤ count * size) : reserve count size = .error .crash :=
  if_neg (not_lt.2 h)

theorem checked_ne_fail (n : ℕ) (e : Error) : checked n ≠ fail e := by
  unfold checked
  split_ifs <;> simp [fail]

/-- What reports no error may follow on what reports none. -/
theorem bind_ne_fail {x : Outcome α} {f : α → Outcome β} (hx : ∀ e, x ≠ fail e)
    (hf : ∀ a e, f a ≠ fail e) (e : Error) : (x >>= f) ≠ fail e := by
  rcases x with (e' | _) | a
  · exact absurd rfl (hx e')
  · simp [error_bind, fail]
  · exact hf a e

end Counts

/-! ### Transactions -/

section Transactions

variable {ε σ α β : Type} {R Q : σ → σ → Prop}

/-- A computation that leaves the state as it is, however it ends. -/
def Reads (x : ExceptT ε (StateM σ) α) : Prop := ∀ s, (x.run.run s).2 = s

/-- A computation that ends well from every state, with a change in `Q`. -/
def Completes (Q : σ → σ → Prop) (x : ExceptT ε (StateM σ) α) : Prop :=
  ∀ s, ∃ a s', x.run.run s = (.ok a, s') ∧ Q s s'

/-- A computation whose changes are in `R` and which changes nothing when it reports an error. A
crash may leave changes behind. -/
structure Transaction (R : σ → σ → Prop) (x : ExceptT (Fault ε) (StateM σ) α) : Prop where
  undone : ∀ {s s' : σ} {e : ε}, x.run.run s = (.error (.error e), s') → s' = s
  confined : ∀ s, R s (x.run.run s).2

/-- A computation that ends well or crashes, but reports no error. -/
def NeverReports (x : ExceptT (Fault ε) (StateM σ) α) : Prop :=
  ∀ s e, (x.run.run s).1 ≠ .error (.error e)

theorem reads_pure (a : α) : Reads (pure a : ExceptT ε (StateM σ) α) := fun _ => rfl

theorem reads_throw (e : ε) : Reads (throw e : ExceptT ε (StateM σ) α) := fun _ => rfl

theorem reads_get : Reads (get : ExceptT ε (StateM σ) σ) := fun _ => rfl

theorem reads_liftM (o : Except ε α) : Reads (liftM o : ExceptT ε (StateM σ) α) := fun _ => rfl

/-- A computation that reads ends with an answer or an error, and the state it started from. -/
theorem Reads.run_cases {x : ExceptT ε (StateM σ) α} (h : Reads x) (s : σ) :
    (∃ a, x.run.run s = (.ok a, s)) ∨ ∃ e, x.run.run s = (.error e, s) := by
  have hs := h s
  rcases hrun : x.run.run s with ⟨a | e, s'⟩
  · rw [hrun] at hs
    cases hs
    exact .inr ⟨_, rfl⟩
  · rw [hrun] at hs
    cases hs
    exact .inl ⟨_, rfl⟩

theorem Reads.bind {x : ExceptT ε (StateM σ) α} {f : α → ExceptT ε (StateM σ) β} (h : Reads x)
    (hf : ∀ a, Reads (f a)) : Reads (x >>= f) := by
  intro s
  rcases h.run_cases s with ⟨a, hrun⟩ | ⟨e, hrun⟩
  · rw [run_bind_ok hrun, hf a s]
  · rw [run_bind_error hrun]

/-- What is read before a transaction does not change anything either. -/
theorem Reads.transaction_bind {x : ExceptT (Fault ε) (StateM σ) α}
    {f : α → ExceptT (Fault ε) (StateM σ) β} (h : Reads x) (hR : ∀ s, R s s)
    (hf : ∀ s a, (x.run.run s).1 = .ok a → Transaction R (f a)) : Transaction R (x >>= f) := by
  constructor
  · intro s s' e hrun'
    rcases h.run_cases s with ⟨a, hrun⟩ | ⟨fault, hrun⟩
    · rw [run_bind_ok hrun] at hrun'
      exact (hf s a (congrArg Prod.fst hrun)).undone hrun'
    · rw [run_bind_error hrun] at hrun'
      cases hrun'
      rfl
  · intro s
    rcases h.run_cases s with ⟨a, hrun⟩ | ⟨fault, hrun⟩
    · rw [run_bind_ok hrun]
      exact (hf s a (congrArg Prod.fst hrun)).confined s
    · rw [run_bind_error hrun]
      exact hR s

theorem Completes.bind {x : ExceptT ε (StateM σ) α} {f : α → ExceptT ε (StateM σ) β}
    (hQ : ∀ {r s t}, Q r s → Q s t → Q r t) (h : Completes Q x) (hf : ∀ a, Completes Q (f a)) :
    Completes Q (x >>= f) := by
  intro s
  obtain ⟨a, s', hrun, hs'⟩ := h s
  obtain ⟨b, s'', hrun', hs''⟩ := hf a s'
  exact ⟨b, s'', (run_bind_ok hrun).trans hrun', hQ hs' hs''⟩

theorem Completes.transaction {x : ExceptT (Fault ε) (StateM σ) α} (h : Completes Q x)
    (hR : ∀ {s t}, Q s t → R s t) : Transaction R x := by
  constructor
  · intro s s' e hrun'
    obtain ⟨a, t, hrun, -⟩ := h s
    cases hrun.symm.trans hrun'
  · intro s
    obtain ⟨a, t, hrun, ht⟩ := h s
    rw [hrun]
    exact hR ht

/-- What cannot fail may follow on a transaction. -/
theorem Transaction.bind_completes {x : ExceptT (Fault ε) (StateM σ) α}
    {f : α → ExceptT (Fault ε) (StateM σ) β} (h : Transaction R x)
    (hR : ∀ {r s t}, R r s → Q s t → R r t) (hf : ∀ a, Completes Q (f a)) :
    Transaction R (x >>= f) := by
  constructor
  · intro s s' e hrun'
    rcases hrun : x.run.run s with ⟨fault | a, s₁⟩
    · rw [run_bind_error hrun] at hrun'
      cases hrun'
      exact h.undone hrun
    · obtain ⟨b, s₂, hnext, -⟩ := hf a s₁
      rw [run_bind_ok hrun, hnext] at hrun'
      cases hrun'
  · intro s
    have hs := h.confined s
    rcases hrun : x.run.run s with ⟨fault | a, s₁⟩
    · rw [hrun] at hs
      rw [run_bind_error hrun]
      exact hs
    · obtain ⟨b, s₂, hnext, hs₂⟩ := hf a s₁
      rw [hrun] at hs
      rw [run_bind_ok hrun, hnext]
      exact hR hs hs₂

theorem neverReports_pure (a : α) : NeverReports (pure a : ExceptT (Fault ε) (StateM σ) α) :=
  fun _ _ h => nomatch h

theorem NeverReports.bind {x : ExceptT (Fault ε) (StateM σ) α}
    {f : α → ExceptT (Fault ε) (StateM σ) β} (h : NeverReports x) (hf : ∀ a, NeverReports (f a)) :
    NeverReports (x >>= f) := by
  intro s e
  rcases hrun : x.run.run s with ⟨fault | a, s'⟩
  · have hs := h s e
    rw [hrun] at hs
    rw [run_bind_error hrun]
    simpa using hs
  · rw [run_bind_ok hrun]
    exact hf a s' e

end Transactions

namespace Text

theorem foldl_lines (lines : List String) (text : String) :
    lines.foldl (fun text line => text ++ line ++ "\n") text = text ++ unlines lines := by
  unfold unlines
  induction lines generalizing text with
  | nil => simp
  | cons line lines ih =>
    rw [List.foldl_cons, ih, List.foldl_cons, ih ("" ++ line ++ "\n")]
    simp [String.append_assoc]

@[simp] theorem unlines_nil : unlines [] = "" := rfl

@[simp] theorem unlines_cons (line : String) (lines : List String) :
    unlines (line :: lines) = line ++ "\n" ++ unlines lines := by
  rw [unlines, List.foldl_cons, foldl_lines, String.empty_append]

end Text

end SynapseMem
