import Mathlib.Algebra.BigOperators.Group.Finset.Basic
import Mathlib.Algebra.BigOperators.Group.Finset.Piecewise
import Mathlib.Data.Fintype.BigOperators
import Mathlib.Tactic.Abel

/- Selecting entries of vectors over a group in which every element is its own
   negative. `pick s a` adds the entries of `a` that `s` selects; it is additive
   in `a`, and in `s` under exclusive or.

   Two parties hold halves of a vector and of a selection. `crossTerm` is what the
   products across the parties miss, given what each adds for it (`c₀`, `c₁`):
   `crossTerm_write` and `crossTerm_select` say how it changes when halves of a
   vector are added to the data and halves of a selection to the selections.
   `ownTerm` is the sum of the parties' own products; a new selection whose
   products are added to `c₀` and `c₁` leaves it as it was (`ownTerm_select`). -/
namespace Select

section
variable {ι G : Type} [Fintype ι] [AddCommGroup G]

def pick (s : ι → Bool) (a : ι → G) : G := ∑ i, if s i then a i else 0

@[simp] theorem pick_zero (s : ι → Bool) : pick s (fun _ => (0 : G)) = 0 := by
  simp [pick]

@[simp] theorem pick_false (a : ι → G) : pick (fun _ => false) a = 0 := by
  simp [pick]

theorem pick_add (s : ι → Bool) (a b : ι → G) : pick s (fun i => a i + b i) = pick s a + pick s b := by
  unfold pick
  rw [← Finset.sum_add_distrib]
  apply Finset.sum_congr rfl
  intro i _
  split
  · rfl
  · rw [add_zero]

variable [DecidableEq ι]

theorem pick_single (j : ι) (a : ι → G) : pick (fun i => decide (i = j)) a = a j := by
  simp [pick]

end

section
variable {ι G : Type} [Fintype ι] [AddCommGroup G] (two : ∀ x : G, x + x = 0)
include two

theorem add_cancel_pair (x y : G) : x + (y + y) = x := by
  rw [two, add_zero]

theorem pick_xor (s t : ι → Bool) (a : ι → G) : pick (fun i => s i ^^ t i) a = pick s a + pick t a := by
  unfold pick
  rw [← Finset.sum_add_distrib]
  have hite : ∀ (b c : Bool) (x : G), (if b ^^ c then x else 0) = (if b then x else 0) + if c then x else 0 := by
    intro b c x
    cases b with
    | false => cases c <;> simp
    | true =>
      cases c with
      | false => simp
      | true => simp [two]
  apply Finset.sum_congr rfl
  intro i _
  exact hite (s i) (t i) (a i)

end

section
variable {ι G : Type} [Fintype ι] [AddCommGroup G]

/-- What is left of the products across the parties. -/
def crossTerm (x₀ x₁ : ι → G) (y₀ y₁ : ι → Bool) (c₀ c₁ : G) : G :=
  c₀ + c₁ + (pick y₁ x₀ + pick y₀ x₁)

/-- The sum of the parties' own products. -/
def ownTerm (x₀ x₁ : ι → G) (y₀ y₁ : ι → Bool) (c₀ c₁ : G) : G :=
  pick y₀ x₀ + c₀ + (pick y₁ x₁ + c₁)

variable (x₀ x₁ o₀ o₁ : ι → G) (y₀ y₁ f₀ f₁ : ι → Bool) (c₀ c₁ t₀ t₁ : G)

theorem crossTerm_write :
    crossTerm (fun i => x₀ i + o₀ i) (fun i => x₁ i + o₁ i) y₀ y₁ c₀ c₁ =
      crossTerm x₀ x₁ y₀ y₁ c₀ c₁ + (pick y₁ o₀ + pick y₀ o₁) := by
  unfold crossTerm
  rw [pick_add, pick_add]
  abel

theorem ownTerm_write :
    ownTerm (fun i => x₀ i + o₀ i) (fun i => x₁ i + o₁ i) y₀ y₁ c₀ c₁ =
      ownTerm x₀ x₁ y₀ y₁ c₀ c₁ + (pick y₀ o₀ + pick y₁ o₁) := by
  unfold ownTerm
  rw [pick_add, pick_add]
  abel

variable (two : ∀ x : G, x + x = 0)
include two

theorem crossTerm_select :
    crossTerm x₀ x₁ (fun i => y₀ i ^^ f₀ i) (fun i => y₁ i ^^ f₁ i) (c₀ + (pick f₀ x₀ + t₀))
        (c₁ + (pick f₁ x₁ + t₁)) =
      crossTerm x₀ x₁ y₀ y₁ c₀ c₁ + (pick (fun i => f₀ i ^^ f₁ i) (fun i => x₀ i + x₁ i) + (t₀ + t₁)) := by
  unfold crossTerm
  rw [pick_xor two, pick_xor two, pick_xor two, pick_add, pick_add]
  abel

theorem ownTerm_select :
    ownTerm x₀ x₁ (fun i => y₀ i ^^ f₀ i) (fun i => y₁ i ^^ f₁ i) (c₀ + (pick f₀ x₀ + t₀))
        (c₁ + (pick f₁ x₁ + t₁)) =
      ownTerm x₀ x₁ y₀ y₁ c₀ c₁ + (t₀ + t₁) := by
  unfold ownTerm
  rw [pick_xor two, pick_xor two]
  calc pick y₀ x₀ + pick f₀ x₀ + (c₀ + (pick f₀ x₀ + t₀)) +
        (pick y₁ x₁ + pick f₁ x₁ + (c₁ + (pick f₁ x₁ + t₁)))
      = pick y₀ x₀ + c₀ + (pick y₁ x₁ + c₁) + (t₀ + t₁) + (pick f₀ x₀ + pick f₀ x₀) +
          (pick f₁ x₁ + pick f₁ x₁) := by abel
    _ = pick y₀ x₀ + c₀ + (pick y₁ x₁ + c₁) + (t₀ + t₁) := by
      rw [add_cancel_pair two, add_cancel_pair two]

end

end Select
