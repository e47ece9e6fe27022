import Mathlib.Data.List.Basic
import MicroAsm.Fault
/-!
Steps that can fail, and loops of them: when they end with a result or with an error, and with
which one.
-/
namespace MicroAsm

theorem bind_eq_ok_iff {ε α β : Type} {x : Except ε α} {f : α → Except ε β} {b : β} :
    (x >>= f) = .ok b ↔ ∃ a, x = .ok a ∧ f a = .ok b := by
  cases x with
  | error e => simp [bind, Except.bind]
  | ok a => simp [bind, Except.bind]

theorem bind_eq_error_iff {ε α β : Type} {x : Except ε α} {f : α → Except ε β} {e : ε} :
    (x >>= f) = .error e ↔ x = .error e ∨ ∃ a, x = .ok a ∧ f a = .error e := by
  cases x with
  | error e' => simp [bind, Except.bind]
  | ok a => simp [bind, Except.bind]

theorem map_eq_ok_iff {ε α β : Type} {f : α → β} {x : Except ε α} {b : β} :
    x.map f = .ok b ↔ ∃ a, x = .ok a ∧ f a = b := by
  cases x <;> simp [Except.map]

theorem mapError_bind {ε α β : Type} {onError : ε → ε} (x : Except ε α) (g : α → Except ε β) :
    (x >>= g).mapError onError = x.mapError onError >>= fun a => (g a).mapError onError := by
  cases x <;> rfl

theorem mapError_eq_ok_iff {ε ε' α : Type} {f : ε → ε'} {x : Except ε α} {a : α} :
    x.mapError f = .ok a ↔ x = .ok a := by
  cases x <;> simp [Except.mapError]

theorem atLine_eq_ok_iff {α : Type} {line : Nat} {x : Except Fault α} {a : α} :
    atLine line x = .ok a ↔ x = .ok a :=
  mapError_eq_ok_iff

theorem atLine_eq_error_iff {α : Type} {line : Nat} {x : Except Fault α} {d : Diagnostic} :
    atLine line x = .error d ↔ ∃ fault, x = .error fault ∧ d = ⟨some line, fault⟩ := by
  cases x with
  | ok a => simp [atLine, Except.mapError]
  | error fault =>
    simp only [atLine, Except.mapError, Except.error.injEq, exists_eq_left']
    exact eq_comm

/-- A loop that stops with an error has run without one up to the item that it stops at. -/
theorem foldlM_eq_error_iff {α β ε : Type} {f : β → α → Except ε β} {l : List α} {b : β} {e : ε} :
    l.foldlM f b = .error e ↔
      ∃ l₁ a l₂ c, l = l₁ ++ a :: l₂ ∧ l₁.foldlM f b = .ok c ∧ f c a = .error e := by
  constructor
  · intro h
    induction l generalizing b with
    | nil => contradiction
    | cons a l ih =>
      rw [List.foldlM_cons, bind_eq_error_iff] at h
      rcases h with ha | ⟨c, hc, h⟩
      · exact ⟨[], a, l, b, rfl, rfl, ha⟩
      · obtain ⟨l₁, a', l₂, d, rfl, hl, ha⟩ := ih h
        refine ⟨a :: l₁, a', l₂, d, rfl, ?_, ha⟩
        rw [List.foldlM_cons, bind_eq_ok_iff]
        exact ⟨c, hc, hl⟩
  · rintro ⟨l₁, a, l₂, c, rfl, hl, ha⟩
    have hrest : (a :: l₂).foldlM f c = .error e := by
      rw [List.foldlM_cons, bind_eq_error_iff]
      exact Or.inl ha
    rw [List.foldlM_append, bind_eq_error_iff]
    exact Or.inr ⟨c, hl, hrest⟩

/-- A run that gets along with a change of its states, items and errors at every step gets along
with it as a whole. -/
theorem foldlM_map_mapError {ε α β : Type} {onState : β → β} {onItem : α → α} {onError : ε → ε}
    {step : β → α → Except ε β}
    (hstep : ∀ b a, step (onState b) (onItem a) = ((step b a).map onState).mapError onError)
    (as : List α) (b : β) : (as.map onItem).foldlM step (onState b) =
      ((as.foldlM step b).map onState).mapError onError := by
  induction as generalizing b with
  | nil => rfl
  | cons a as ih =>
    rw [List.map_cons, List.foldlM_cons, List.foldlM_cons, hstep]
    cases step b a with
    | error e => rfl
    | ok c => exact ih c

end MicroAsm
