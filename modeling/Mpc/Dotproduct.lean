import Mpc.Privacy

/- The dot product with masks expanded from seeds (mpcops.hpp, prg.hpp). P2 sends
   P0 and P1 a seed for each of their two mask vectors and the dot product of its
   first with the other's second; P0 and P1 expand the seeds as P2 did, so their
   outputs add up to the dot product of the opened vectors (`dotResult_add`). -/
namespace Mpc
open Fifo Diamond LE

/-! Expanded seeds. -/

theorem emitWords_length {w : Nat} (buf : List Block) (n : Nat) : (emitWords w buf n).length = n := by
  fun_induction emitWords w buf n with
  | case1 => rfl
  | case2 n ih => rw [List.length_cons, ih]
  | case3 => rfl
  | case4 b buf n ih => rw [List.length_cons, List.length_cons, ih]

/-- Every party expands a seed to a vector of the size it asked for, odd or even. -/
theorem prgExpander_length (aes : Block → Block) (n : Nat) (seed : List Byte) :
    ((prgExpander aes).fill n seed).length = n :=
  emitWords_length _ n

/-! Bilinearity. -/

section
variable {n : Nat}

/-- A list of length `n` as a function of its indices. -/
def entries (n : Nat) (l : List (BitVec 64)) : Fin n → BitVec 64 := fun i => l.getD i 0

theorem dot_entries {a b : List (BitVec 64)} (ha : a.length = n) (hb : b.length = n) :
    dot a b = dotHom n (entries n a) (entries n b) := by
  have hvec : ∀ {l : List (BitVec 64)}, l.length = n → List.ofFn (entries n l) = l := by
    intro l hl
    subst hl
    apply List.ext_getElem
    · simp
    · intro i h1 h2
      simp [entries, h2]
  rw [← dot_ofFn, hvec ha, hvec hb]

theorem entries_add {a b : List (BitVec 64)} (ha : a.length = n) (hb : b.length = n) :
    entries n (List.zipWith (· + ·) a b) = entries n a + entries n b := by
  funext i
  have hia : i < a.length := ha ▸ i.isLt
  have hib : i < b.length := hb ▸ i.isLt
  simp [entries, hia, hib]

theorem dotHom_comm (a b : Fin n → BitVec 64) : dotHom n a b = dotHom n b a := by
  simp only [dotHom, Masked.biadditive_apply]
  exact Finset.sum_congr rfl fun i _ => mul_comm (a i) (b i)

section
variable (ex : Expander) (hfill : ∀ l, (ex.fill n l).length = n)
include hfill

/-- What a party computes, in terms of the vectors' entries. -/
theorem dotShare_eq {x y x' y' : List (BitVec 64)} (hx : x.length = n) (hy : y.length = n)
    (hx' : x'.length = n) (hy' : y'.length = n) {m m' : DotMaterial}
    (hgamma : m.gamma = dot (ex.fill n m.seedX) (ex.fill n m'.seedY)) :
    dotShare ex n x y m (dotMask ex n x' y' m').1 (dotMask ex n x' y' m').2 =
      Masked.share (dotHom n) (entries n x) (entries n y) (entries n (ex.fill n m.seedY))
        (entries n x' + entries n (ex.fill n m'.seedX)) (entries n y' + entries n (ex.fill n m'.seedY))
        (dotHom n (entries n (ex.fill n m.seedX)) (entries n (ex.fill n m'.seedY))) := by
  have hmask : ∀ {a b : List (BitVec 64)}, a.length = n → b.length = n →
      (List.zipWith (· + ·) a b).length = n := by
    intro a b ha hb
    rw [List.length_zipWith, ha, hb, Nat.min_self]
  have hX := hmask hx' (hfill m'.seedX)
  have hY := hmask hy' (hfill m'.seedY)
  rw [dotShare, dotMask, hgamma, dot_entries hx (hmask hy hY), dot_entries (hfill _) hX,
    dot_entries (hfill _) (hfill _), entries_add hy hY, entries_add hy' (hfill _),
    entries_add hx' (hfill _), Masked.share]
  -- the code multiplies Y_blind by X_tilde in this order
  rw [dotHom_comm (entries n (ex.fill n m.seedY))]

/-- The shares that P0 and P1 compute add up, for any material with the cross products P2 deals. -/
theorem dotShare_add {x0 x1 y0 y1 : List (BitVec 64)} (hx0 : x0.length = n) (hx1 : x1.length = n)
    (hy0 : y0.length = n) (hy1 : y1.length = n) {m0 m1 : DotMaterial}
    (h0 : m0.gamma = dot (ex.fill n m0.seedX) (ex.fill n m1.seedY))
    (h1 : m1.gamma = dot (ex.fill n m1.seedX) (ex.fill n m0.seedY)) :
    dotShare ex n x0 y0 m0 (dotMask ex n x1 y1 m1).1 (dotMask ex n x1 y1 m1).2 +
      dotShare ex n x1 y1 m1 (dotMask ex n x0 y0 m0).1 (dotMask ex n x0 y0 m0).2 =
      ∑ i : Fin n, (x0.getD i 0 + x1.getD i 0) * (y0.getD i 0 + y1.getD i 0) := by
  rw [dotShare_eq ex hfill hx0 hy0 hx1 hy1 h0, dotShare_eq ex hfill hx1 hy1 hx0 hy0 h1,
    Masked.share_add_share]
  rfl

end

theorem dotResult_add (ex : Expander) (hfill : ∀ l, (ex.fill n l).length = n)
    {x y : Role → AdditiveShareVector} (hx : ∀ p, (x p).vals.length = n)
    (hy : ∀ p, (y p).vals.length = n) (e : Env) :
    dotResult ex n x y e .P0 + dotResult ex n x y e .P1 =
      ∑ i : Fin n, ((x .P0).vals.getD i 0 + (x .P1).vals.getD i 0) *
        ((y .P0).vals.getD i 0 + (y .P1).vals.getD i 0) :=
  dotShare_add ex hfill (hx _) (hx _) (hy _) (hy _) rfl rfl

/-- In every schedule the outputs of P0 and P1 add up to the dot product of the shared vectors.
    The masks that P0 and P1 expand from the seeds they receive are those behind the cross
    products they receive. -/
theorem mpcDotproduct_correct (aes : Block → Block) (hn : n < 2^64)
    {x y : Role → AdditiveShareVector} (hx : ∀ p, (x p).vals.length = n)
    (hy : ∀ p, (y p).vals.length = n) (e : Role → Env) :
    ∃ (r : Role → BitVec 64) (e' : Role → Env) (m : Role → DotMaterial)
      (v : Role → List (Role × List Byte)),
      Settles Step
        (start fun p => (mpcDotproduct (prgExpander aes) (x p) (y p) p (selfOf p) (peer0Of p)
          (peer1Of p)).run (Host.online p (e p)))
        (finished (fun p => (.ok (r p), Host.online p (e' p))) v) ∧
      r .P0 + r .P1 = ∑ i : Fin n, ((x .P0).vals.getD i 0 + (x .P1).vals.getD i 0) *
        ((y .P0).vals.getD i 0 + (y .P1).vals.getD i 0) ∧
      v .P0 = dotView (m .P0) .P1 (dotMask (prgExpander aes) n (x .P1).vals (y .P1).vals (m .P1)) ∧
      v .P1 = dotView (m .P1) .P0 (dotMask (prgExpander aes) n (x .P0).vals (y .P0).vals (m .P0)) ∧
      (m .P0).gamma = dot ((prgExpander aes).fill n (m .P0).seedX) ((prgExpander aes).fill n (m .P1).seedY) ∧
      (m .P1).gamma = dot ((prgExpander aes).fill n (m .P1).seedX) ((prgExpander aes).fill n (m .P0).seedY) :=
  have hfill := prgExpander_length aes n
  ⟨dotResult (prgExpander aes) n x y (e .P2), afterDot (prgExpander aes) e,
    dotDeal (prgExpander aes) n (e .P2), _, (mpcDotproduct_run hfill hn hx hy e).settles,
    dotResult_add _ hfill hx hy _, rfl, rfl, rfl, rfl⟩

end

theorem mpcDotproduct_correct_three :
    ∃ r : Role → BitVec 64, r .P0 + r .P1 = ∑ i : Fin 3,
      ([1, 2, 3].getD i 0 + [4, 5, 6].getD i 0) * ([7, 8, 9].getD i 0 + [10, 11, 12].getD i 0) := by
  have hlen : ∀ (a b : List (BitVec 64)), a.length = 3 → b.length = 3 →
      ∀ p, (tri (AdditiveShareVector.mk a true) ⟨b, true⟩ ⟨[0, 0, 0], true⟩ p).vals.length = 3 := by
    intro a b ha hb p
    cases p
    · exact ha
    · exact hb
    · rfl
  obtain ⟨r, -, -, -, -, hsum, -⟩ := mpcDotproduct_correct (n := 3) (fun b => b) (by decide)
    (hlen [1, 2, 3] [4, 5, 6] rfl rfl) (hlen [7, 8, 9] [10, 11, 12] rfl rfl) (fun _ => Env.zeros)
  exact ⟨r, hsum⟩

end Mpc
