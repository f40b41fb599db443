import Mathlib.Data.Matrix.Mul
import Mathlib.Tactic.LinearCombination

/- Dot products of a shared database with a shared selection, over a commutative ring.
   Each of two parties has a share of the database and one of the selection, and of each
   sees the other's under a blind; what the blinds add to the parties' results is in two
   corrections, which no party can compute alone. The results add up to the dot product
   (`opened`). The blinds are refreshed by taking from them what is added to the selection:
   what was sent under them stays as it is, and the corrections follow as soon as the sum
   of the two updates is known (`refresh`). So one set of blinds serves any number of
   selections (`opened_refreshAll`). -/
namespace Blind

variable {R ι : Type} [CommRing R] [Fintype ι]

/-- The parties: shares of the database and of the selection, their blinds, the blinded selection as it
    was sent, and the corrections. -/
structure Blinded (R ι : Type) [CommRing R] [Fintype ι] where
  DB0 : ι → R
  DB1 : ι → R
  X0 : ι → R
  X1 : ι → R
  e0 : ι → R
  e1 : ι → R
  Y0 : ι → R
  Y1 : ι → R
  tilde0 : ι → R
  tilde1 : ι → R
  c0 : R
  c1 : R
  tilde0_eq : tilde0 = e0 + Y0
  tilde1_eq : tilde1 = e1 + Y1
  correction : c0 + c1 = dotProduct X0 Y1 + dotProduct X1 Y0

/-- Updates of the parties' shares that add up to `d`. -/
structure Update (R ι : Type) [CommRing R] [Fintype ι] where
  u0 : ι → R
  u1 : ι → R
  d : ι → R
  sum : u0 + u1 = d

namespace Blinded
variable (s : Blinded R ι)

/-- What the parties compute, each from its shares and what it got. -/
def result0 : R := dotProduct s.DB0 (s.e0 + s.tilde1) - dotProduct s.Y0 (s.DB1 + s.X1) + s.c0
def result1 : R := dotProduct s.DB1 (s.e1 + s.tilde0) - dotProduct s.Y1 (s.DB0 + s.X0) + s.c1

theorem opened : s.result0 + s.result1 = dotProduct (s.DB0 + s.DB1) (s.e0 + s.e1) := by
  have hcross : ∀ v w : ι → R, dotProduct v w = dotProduct w v := dotProduct_comm
  rw [result0, result1, s.tilde0_eq, s.tilde1_eq]
  simp only [dotProduct_add, add_dotProduct]
  rw [hcross s.Y0 s.DB1, hcross s.Y0 s.X1, hcross s.Y1 s.DB0, hcross s.Y1 s.X0]
  linear_combination s.correction

/-- The selection moves by `u.d`, and the blinds take it back. -/
def refresh (u : Update R ι) : Blinded R ι where
  DB0 := s.DB0
  DB1 := s.DB1
  X0 := s.X0
  X1 := s.X1
  e0 := s.e0 + u.u0
  e1 := s.e1 + u.u1
  Y0 := s.Y0 - u.u0
  Y1 := s.Y1 - u.u1
  tilde0 := s.tilde0
  tilde1 := s.tilde1
  c0 := s.c0 + dotProduct s.X0 u.u0 - dotProduct s.X0 u.d
  c1 := s.c1 + dotProduct s.X1 u.u1 - dotProduct s.X1 u.d
  tilde0_eq := by rw [s.tilde0_eq, add_add_sub_cancel]
  tilde1_eq := by rw [s.tilde1_eq, add_add_sub_cancel]
  correction := by
    rw [← u.sum]
    simp only [dotProduct_add, dotProduct_sub]
    linear_combination s.correction

def refreshAll (us : List (Update R ι)) : Blinded R ι := us.foldl refresh s

/-- The database and what was sent stay as they are. -/
theorem refreshAll_keeps (us : List (Update R ι)) : (s.refreshAll us).DB0 = s.DB0 ∧ (s.refreshAll us).DB1 = s.DB1 ∧
    (s.refreshAll us).tilde0 = s.tilde0 ∧ (s.refreshAll us).tilde1 = s.tilde1 := by
  induction us generalizing s with
  | nil => exact ⟨rfl, rfl, rfl, rfl⟩
  | cons u us ih => exact ih (s.refresh u)

theorem refreshAll_selection (us : List (Update R ι)) :
    (s.refreshAll us).e0 + (s.refreshAll us).e1 = s.e0 + s.e1 + (us.map Update.d).sum := by
  induction us generalizing s with
  | nil => exact (add_zero _).symm
  | cons u us ih =>
    calc (s.refreshAll (u :: us)).e0 + (s.refreshAll (u :: us)).e1
        = s.e0 + u.u0 + (s.e1 + u.u1) + (us.map Update.d).sum := ih (s.refresh u)
      _ = s.e0 + s.e1 + ((u.u0 + u.u1) + (us.map Update.d).sum) := by rw [add_add_add_comm, add_assoc]
      _ = s.e0 + s.e1 + ((u :: us).map Update.d).sum := by rw [u.sum, List.map_cons, List.sum_cons]

/-- After any refreshes the parties open the database at the moved selection. -/
theorem opened_refreshAll (us : List (Update R ι)) : (s.refreshAll us).result0 + (s.refreshAll us).result1 =
    dotProduct (s.DB0 + s.DB1) (s.e0 + s.e1 + (us.map Update.d).sum) := by
  obtain ⟨h0, h1, -, -⟩ := s.refreshAll_keeps us
  rw [opened, h0, h1, refreshAll_selection]

end Blinded

end Blind
