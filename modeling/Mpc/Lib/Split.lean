import Mathlib.Algebra.BigOperators.Fin
import Mathlib.Data.Fintype.BigOperators

/- Sharing among all of `m + 1` parties in an additive group. The first `m` shares are
   masks and the last one is what is missing to the secret (`split`). Shares add up to
   the secret, and any `m` of them are as arbitrary as the masks: whatever they are and
   whatever the secret is, one choice of the masks gives them (`split_existsUnique`). -/
namespace Split

variable {G : Type} [AddCommGroup G] {m : Nat}

def split (secret : G) (masks : Fin m → G) : Fin (m + 1) → G :=
  Fin.snoc (α := fun _ => G) masks (secret - ∑ i, masks i)

theorem split_castSucc (secret : G) (masks : Fin m → G) (i : Fin m) :
    split secret masks i.castSucc = masks i := by
  simp [split]

theorem sum_split (secret : G) (masks : Fin m → G) : ∑ i, split secret masks i = secret := by
  simp [split, Fin.sum_univ_castSucc]

/-- Shares are the split of their sum by the first of them. -/
theorem split_init (v : Fin (m + 1) → G) : split (∑ i, v i) (fun i => v i.castSucc) = v := by
  funext i
  refine Fin.lastCases ?_ (fun i => ?_) i
  · simp [split, Fin.sum_univ_castSucc]
  · rw [split_castSucc]

/-- All shares but the `j`th say nothing about the secret. -/
theorem split_existsUnique (secret : G) (j : Fin (m + 1)) (v : Fin (m + 1) → G) :
    ∃! masks : Fin m → G, ∀ i, i ≠ j → split secret masks i = v i := by
  -- the `j`th share is what is missing to the secret
  have hsum : ∀ u : Fin (m + 1) → G, u j + ∑ i ∈ Finset.univ.erase j, u i = ∑ i, u i :=
    fun u => Finset.add_sum_erase _ u (Finset.mem_univ j)
  let full := Function.update v j (secret - ∑ i ∈ Finset.univ.erase j, v i)
  have hfull : ∑ i, full i = secret := by
    have hrest : ∑ i ∈ Finset.univ.erase j, full i = ∑ i ∈ Finset.univ.erase j, v i :=
      Finset.sum_congr rfl fun i hi => Function.update_of_ne (Finset.ne_of_mem_erase hi) _ _
    rw [← hsum, hrest, show full j = _ from Function.update_self _ _ _, sub_add_cancel]
  refine ⟨fun i => full i.castSucc, fun i hi => ?_, fun masks hmasks => ?_⟩
  · have hsplit := split_init full
    rw [hfull] at hsplit
    rw [hsplit]
    exact Function.update_of_ne hi _ _
  · have hall : split secret masks = full := by
      funext i
      by_cases hi : i = j
      · subst hi
        have hrest : ∑ k ∈ Finset.univ.erase i, split secret masks k = ∑ k ∈ Finset.univ.erase i, full k := by
          refine Finset.sum_congr rfl fun k hk => ?_
          rw [hmasks k (Finset.ne_of_mem_erase hk)]
          exact (Function.update_of_ne (Finset.ne_of_mem_erase hk) _ _).symm
        have h := (hsum (split secret masks)).trans (sum_split secret masks)
        rw [hrest] at h
        exact add_right_cancel (h.trans (hfull.symm.trans (hsum full).symm))
      · rw [hmasks i hi]
        exact (Function.update_of_ne hi _ _).symm
    funext i
    rw [← hall, split_castSucc]

end Split
