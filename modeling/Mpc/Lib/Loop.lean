/- Counted loops that can fail. `forUp f n` runs `f 0`, …, `f (n-1)` on a state and
   fails at the first that does. `forUp_spec` is the rule for total correctness: a
   loop whose steps succeed and move an invariant forward succeeds and reaches it;
   `forUp_kept` is the rule for loops that may fail. `throughout_iff` is a rule for properties of all states of a run.
   `forModify f n` updates the first `n` entries of a buffer one by one. -/
namespace Loop

variable {σ : Type}

/-- `for (q = 0; q < n; ++q)`. -/
def forUp (f : Nat → σ → Option σ) : Nat → σ → Option σ
  | 0, s => some s
  | n+1, s => (forUp f n s).bind (f n)

theorem forUp_spec {f : Nat → σ → Option σ} (Inv : Nat → σ → Prop) {n : Nat} {s : σ}
    (h0 : Inv 0 s) (hstep : ∀ q s, q < n → Inv q s → ∃ s', f q s = some s' ∧ Inv (q+1) s') :
    ∃ s', forUp f n s = some s' ∧ Inv n s' := by
  induction n with
  | zero => exact ⟨s, rfl, h0⟩
  | succ n ih =>
    obtain ⟨s₁, h₁, hI⟩ := ih fun q s hq => hstep q s (by omega)
    obtain ⟨s₂, h₂, hI'⟩ := hstep n s₁ (by omega) hI
    exact ⟨s₂, by rw [forUp, h₁]; exact h₂, hI'⟩

/-- A loop depends on the steps it runs only. -/
theorem forUp_congr {f g : Nat → σ → Option σ} {n : Nat} (h : ∀ q, q < n → f q = g q) (s : σ) :
    forUp f n s = forUp g n s := by
  induction n with
  | zero => rfl
  | succ n ih => rw [forUp, forUp, ih fun q hq => h q (by omega), h n (by omega)]

/-- What every step keeps, a loop that ends has kept. -/
theorem forUp_kept {f : Nat → σ → Option σ} (Inv : σ → Prop) {n : Nat} {s s' : σ}
    (hstep : ∀ q s s', f q s = some s' → Inv s → Inv s') (h : forUp f n s = some s') (h0 : Inv s) :
    Inv s' := by
  induction n generalizing s' with
  | zero => exact Option.some.inj h ▸ h0
  | succ n ih =>
    rw [forUp, Option.bind_eq_some_iff] at h
    obtain ⟨s₁, hinit, hlast⟩ := h
    exact hstep n s₁ s' hlast (ih hinit)

/-- A property that holds at first and is kept by exactly the good steps holds throughout when all
    steps are good. -/
theorem throughout_iff {n : Nat} {P : Nat → Prop} {good : ∀ k, k < n → Prop} (h0 : P 0)
    (hstep : ∀ k (hk : k < n), P k → (P (k+1) ↔ good k hk)) :
    (∀ k, k ≤ n → P k) ↔ ∀ k (hk : k < n), good k hk := by
  constructor
  · intro h k hk
    exact (hstep k hk (h k (by omega))).mp (h (k+1) hk)
  · intro h k hk
    induction k with
    | zero => exact h0
    | succ k ih => exact (hstep k hk (ih (by omega))).mpr (h k hk)

/-! Loops over a buffer. -/

section
variable {α : Type}

/-- `for (i = 0; i < n; ++i) buf[i] = f(i, buf[i])`. -/
def forModify (f : Nat → α → α) : Nat → List α → List α
  | 0, buf => buf
  | n+1, buf => (forModify f n buf).modify n (f n)

theorem forModify_getElem? (f : Nat → α → α) (n : Nat) (buf : List α) (i : Nat) :
    (forModify f n buf)[i]? = if i < n then buf[i]?.map (f i) else buf[i]? := by
  induction n with
  | zero => rfl
  | succ n ih =>
    rw [forModify, List.getElem?_modify, ih]
    by_cases h : n = i
    · subst h
      rw [if_neg (Nat.lt_irrefl n), if_pos (Nat.lt_succ_self n)]
      simp
    · have hlt : i < n + 1 ↔ i < n := by omega
      simp [h, hlt]

end

end Loop
