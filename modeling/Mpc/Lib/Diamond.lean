/- Runs of a step relation with the diamond property. When two different steps
   out of one state always close with one step each, a single terminating run
   says everything about every other run: `settles_of_run` turns one schedule
   that reaches a stuck state in `n` steps into the statement that no schedule
   is longer than `n`, and that every partial schedule can be completed to the
   same stuck state. A concurrent system of deterministic parties is analysed
   this way along the one schedule that is easiest to write down. -/
namespace Diamond

variable {σ : Type}

/-- Exactly `n` steps lead from the first state to the second. -/
inductive Steps (step : σ → σ → Prop) : Nat → σ → σ → Prop
  | refl (s : σ) : Steps step 0 s s
  | head {n : Nat} {s t u : σ} : step s t → Steps step n t u → Steps step (n+1) s u

/-- No step leaves the state. -/
def Stuck (step : σ → σ → Prop) (s : σ) : Prop := ∀ t, ¬ step s t

/-- Two steps out of one state agree or close with one step each. -/
def Closes (step : σ → σ → Prop) : Prop :=
  ∀ s t u, step s t → step s u → t = u ∨ ∃ v, step t v ∧ step u v

/-- Every run from `s` ends in `f`: `f` is reached and stuck, no run is longer
    than the one that reaches it, and every partial run can be completed to it. -/
def Settles (step : σ → σ → Prop) (s f : σ) : Prop :=
  ∃ n, Steps step n s f ∧ Stuck step f ∧
    ∀ m t, Steps step m s t → m ≤ n ∧ Steps step (n - m) t f

section
variable {step : σ → σ → Prop}

theorem Steps.trans {n m : Nat} {s t u : σ} (h : Steps step n s t) (h' : Steps step m t u) :
    Steps step (n + m) s u := by
  induction h with
  | refl s => simpa using h'
  | @head n _ _ _ hs _ ih =>
    have := Steps.head hs (ih h')
    rwa [show n + m + 1 = n + 1 + m by omega] at this

/-- A map that carries steps to steps carries runs to runs. -/
theorem Steps.map {τ : Type} {step' : τ → τ → Prop} (f : σ → τ)
    (hf : ∀ s t, step s t → step' (f s) (f t)) {n : Nat} {s t : σ} (h : Steps step n s t) :
    Steps step' n (f s) (f t) := by
  induction h with
  | refl s => exact .refl (f s)
  | head hs _ ih => exact .head (hf _ _ hs) ih

/-- What every step keeps holds at the end of a run that starts with it. -/
theorem Steps.inv {I : σ → Prop} (hI : ∀ s t, I s → step s t → I t) {n : Nat} {s t : σ}
    (h : Steps step n s t) (hs : I s) : I t := by
  induction h with
  | refl s => exact hs
  | head hst _ ih => exact ih (hI _ _ hs hst)

/-- One step off a run to a stuck state leaves a run shorter by one to the same state. -/
theorem Steps.after_step (hc : Closes step) {f : σ} (hf : Stuck step f) :
    ∀ {n : Nat} {s t : σ}, Steps step (n+1) s f → step s t → Steps step n t f := by
  intro n
  induction n with
  | zero =>
    intro s t h hst
    cases h with
    | @head _ _ u _ hsu hu =>
      cases hu
      rcases hc s t f hst hsu with rfl | ⟨v, _, hv⟩
      · exact .refl t
      · exact absurd hv (hf v)
  | succ n ih =>
    intro s t h hst
    cases h with
    | @head _ _ u _ hsu hu =>
      rcases hc s t u hst hsu with rfl | ⟨v, htv, huv⟩
      · exact hu
      · exact .head htv (ih hu huv)

theorem settles_of_run (hc : Closes step) {n : Nat} {s f : σ} (h : Steps step n s f)
    (hf : Stuck step f) : Settles step s f := by
  refine ⟨n, h, hf, ?_⟩
  intro m t hm
  induction hm generalizing n with
  | refl s => exact ⟨Nat.zero_le n, by simpa using h⟩
  | @head m s u t hsu _ ih =>
    cases n with
    | zero =>
      cases h
      exact absurd hsu (hf u)
    | succ n =>
      obtain ⟨hle, hrun⟩ := ih (h.after_step hc hf hsu)
      refine ⟨by omega, ?_⟩
      rwa [show n + 1 - (m + 1) = n - m by omega]

/-- A run among states that every step keeps. -/
theorem Steps.within {I : σ → Prop} (hI : ∀ s t, I s → step s t → I t) {n : Nat} {s t : σ}
    (h : Steps step n s t) (hs : I s) : Steps (fun s t => I s ∧ step s t) n s t := by
  induction h with
  | refl s => exact .refl s
  | head hst _ ih => exact .head ⟨hs, hst⟩ (ih (hI _ _ hs hst))

/-- It is enough that steps close in states that every step keeps. -/
theorem settles_of_run_within {I : σ → Prop} (hI : ∀ s t, I s → step s t → I t)
    (hc : Closes fun s t => I s ∧ step s t) {n : Nat} {s f : σ} (hs : I s) (h : Steps step n s f)
    (hf : Stuck step f) : Settles step s f := by
  have hf' : Stuck (fun s t => I s ∧ step s t) f := fun t ht => hf t ht.2
  obtain ⟨k, hk, -, hall⟩ := settles_of_run hc (h.within hI hs) hf'
  have hforget : ∀ {m s t}, Steps (fun s t => I s ∧ step s t) m s t → Steps step m s t :=
    fun hm => hm.map id fun _ _ hst => hst.2
  refine ⟨k, hforget hk, hf, fun m t hm => ?_⟩
  obtain ⟨hle, hrest⟩ := hall m t (hm.within hI hs)
  exact ⟨hle, hforget hrest⟩

/-- The state a system settles in is the only stuck state its runs reach. -/
theorem Settles.stuck_eq {n : Nat} {s f t : σ} (h : Settles step s f) (ht : Steps step n s t)
    (hs : Stuck step t) : t = f := by
  obtain ⟨k, _, _, hall⟩ := h
  obtain ⟨_, hrest⟩ := hall n t ht
  generalize k - n = j at hrest
  cases hrest with
  | refl => rfl
  | head htu _ => exact absurd htu (hs _)

end

end Diamond
