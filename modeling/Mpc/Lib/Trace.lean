/- Labelled transition systems. A run is read with the list of its labels, so what
   happened along it is a function of that list; `Run.inv` is the induction that
   carries an invariant of the labels and the state along a run, and
   `Run.length_add` counts the steps of a run along which a measure goes down. -/
namespace Trace

variable {S E : Type}

/-- The labels `es` lead from the first state to the second. -/
inductive Run (step : S → E → S → Prop) (s : S) : List E → S → Prop
  | refl : Run step s [] s
  | tail {t u : S} {es : List E} {e : E} : Run step s es t → step t e u → Run step s (es ++ [e]) u

variable {step : S → E → S → Prop}

/-- What holds at the start and is kept by every step holds at the end. -/
theorem Run.inv {P : List E → S → Prop} {s t : S} {es : List E} (h : Run step s es t)
    (h0 : P [] s)
    (hstep : ∀ es t e u, P es t → step t e u → P (es ++ [e]) u) : P es t := by
  induction h with
  | refl => exact h0
  | tail _ hlast ih => exact hstep _ _ _ _ ih hlast

theorem Run.single {s t : S} {e : E} (h : step s e t) : Run step s [e] t :=
  Run.tail .refl h

theorem Run.trans {s t u : S} {es fs : List E} (h : Run step s es t) (h' : Run step t fs u) :
    Run step s (es ++ fs) u := by
  induction h' with
  | refl => simpa using h
  | tail _ hlast ih =>
    rw [← List.append_assoc]
    exact Run.tail ih hlast

/-- Every step from a state with the invariant takes one off the measure. -/
theorem Run.length_add {I : S → Prop} {measure : S → Nat}
    (hI : ∀ s e t, I s → step s e t → I t)
    (hdown : ∀ s e t, I s → step s e t → measure t + 1 = measure s)
    {s t : S} {es : List E} (h : Run step s es t) (hs : I s) :
    I t ∧ es.length + measure t = measure s := by
  refine h.inv (P := fun es t => I t ∧ es.length + measure t = measure s) ⟨hs, Nat.zero_add _⟩ ?_
  rintro es t e u ⟨ht, hlen⟩ hstep
  have := hdown t e u ht hstep
  refine ⟨hI t e u ht hstep, ?_⟩
  rw [List.length_append, List.length_singleton]
  omega

end Trace
