import Mathlib.Algebra.Group.Hom.Defs
import Mathlib.Algebra.Group.Hom.Instances
import Mathlib.Data.Set.Card
import Mathlib.Tactic.Abel

/- Products of additively shared values from dealt masks. `B` is biadditive; the
   parties hold `x₀ + x₁` and `y₀ + y₁`. A dealer gives party i masks `Xᵢ`, `Yᵢ`
   and the cross product of its first mask with the other's second; the parties
   exchange `xᵢ + Xᵢ` and `yᵢ + Yᵢ`, and `share` is what each computes.

   `share_add_share` is correctness. `range_view_eq_iff` says what a party learns
   from a run: since its own cross product is not re-randomised, its view is
   compatible with exactly the same runs for two shares `y`, `y'` of the other
   party when `B a (y - y') = 0` for every mask `a`. -/
namespace Masked

section
variable {V W S : Type} [AddCommGroup V] [AddCommGroup W] [AddCommGroup S]

/-- The biadditive map of a function that is additive on either side. -/
def biadditive (f : V → W → S) (hl : ∀ x x' y, f (x + x') y = f x y + f x' y)
    (hr : ∀ x y y', f x (y + y') = f x y + f x y') : V →+ W →+ S :=
  AddMonoidHom.mk' (fun x => AddMonoidHom.mk' (f x) (hr x))
    fun x x' => AddMonoidHom.ext fun y => hl x x' y

@[simp] theorem biadditive_apply (f : V → W → S) (hl : ∀ x x' y, f (x + x') y = f x y + f x' y)
    (hr : ∀ x y y', f x (y + y') = f x y + f x y') (x : V) (y : W) :
    biadditive f hl hr x y = f x y := rfl

variable (B : V →+ W →+ S)

/-- A party's share of the product, from its shares, its mask, what the other party
    sent and its cross product. -/
def share (x : V) (y Y : W) (xOther : V) (yOther : W) (gamma : S) : S :=
  B x (y + yOther) - B xOther Y + gamma

theorem share_add_share (x₀ x₁ X₀ X₁ : V) (y₀ y₁ Y₀ Y₁ : W) :
    share B x₀ y₀ Y₀ (x₁ + X₁) (y₁ + Y₁) (B X₀ Y₁) +
      share B x₁ y₁ Y₁ (x₀ + X₀) (y₀ + Y₀) (B X₁ Y₀) = B (x₀ + x₁) (y₀ + y₁) := by
  simp only [share, map_add, AddMonoidHom.add_apply]
  abel

/-- What a party sees of a run with masks `X`, `Y` of its own and `X'`, `Y'` of the other
    party, which holds the shares `x`, `y`. -/
def view (x : V) (y : W) (r : (V × W) × V × W) : (V × W) × S × V × W :=
  (r.1, B r.1.1 r.2.2, x + r.2.1, y + r.2.2)

theorem view_injective (x : V) (y : W) : Function.Injective (view B x y) := by
  rintro ⟨a, X, Y⟩ ⟨a', X', Y'⟩ h
  simp only [view, Prod.mk.injEq, add_right_inj] at h
  obtain ⟨rfl, _, rfl, rfl⟩ := h
  rfl

theorem range_view_subset_iff (x x' : V) (y y' : W) :
    Set.range (view B x y) ⊆ Set.range (view B x' y') ↔ ∀ a, B a (y - y') = 0 := by
  constructor
  · intro h a
    obtain ⟨⟨⟨a', b'⟩, X', Y'⟩, hr⟩ := h ⟨((a, 0), 0, 0), rfl⟩
    simp only [view, Prod.mk.injEq, map_zero, add_zero] at hr
    obtain ⟨⟨rfl, _⟩, hB, _, hY⟩ := hr
    rw [← hY, add_sub_cancel_left]
    exact hB
  · rintro h _ ⟨⟨⟨a, b⟩, X, Y⟩, rfl⟩
    refine ⟨((a, b), x - x' + X, y - y' + Y), ?_⟩
    simp only [view, map_add, h a, zero_add, Prod.mk.injEq, true_and]
    exact ⟨by abel, by abel⟩

theorem range_view_eq_iff (x x' : V) (y y' : W) :
    Set.range (view B x y) = Set.range (view B x' y') ↔ ∀ a, B a (y - y') = 0 := by
  constructor
  · intro h
    exact (range_view_subset_iff B x x' y y').mp h.le
  · intro h
    refine ((range_view_subset_iff B x x' y y').mpr h).antisymm ?_
    refine (range_view_subset_iff B x' x y' y).mpr (fun a => ?_)
    rw [← neg_sub, map_neg, h a, neg_zero]

end

/-! Counting the randomness behind a view. -/

section
variable {Ω T : Type} {f g : Ω → T}

theorem ncard_fiber (hf : Function.Injective f) (t : T) [Decidable (t ∈ Set.range f)] :
    {r | f r = t}.ncard = if t ∈ Set.range f then 1 else 0 := by
  split
  · next h =>
    obtain ⟨r, rfl⟩ := h
    have e : {r' | f r' = f r} = {r} := by
      ext r'
      simp [hf.eq_iff]
    rw [e, Set.ncard_singleton]
  · next h =>
    have e : {r | f r = t} = ∅ := by
      ext r
      simp only [Set.mem_ofPred_eq, Set.mem_empty_iff_false, iff_false]
      exact fun hr => h ⟨r, hr⟩
    rw [e, Set.ncard_empty]

/-- Two injective experiments show every outcome equally often when they show the
    same outcomes. -/
theorem ncard_fiber_eq_iff (hf : Function.Injective f) (hg : Function.Injective g) :
    (∀ t, {r | f r = t}.ncard = {r | g r = t}.ncard) ↔ Set.range f = Set.range g := by
  classical
  simp only [ncard_fiber hf, ncard_fiber hg]
  constructor
  · intro h
    ext t
    have ht := h t
    by_cases h1 : t ∈ Set.range f <;> by_cases h2 : t ∈ Set.range g <;> simp_all
  · intro h t
    rw [h]

end

end Masked
