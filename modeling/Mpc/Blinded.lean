import Mathlib.Algebra.BigOperators.Fin
import Mpc.Lib.Blind
import Mpc.Local

/- Blinded dot products and reading by flags (dpf/dpf.cpp). Two parties hold shares of a
   database and of a selection vector; what they send each other is blinded, and
   `refresh_blinds` moves a selection without sending again. The functions are those of the
   program; that any number of moves leaves the parties with shares of the database's dot
   product with the moved selection comes from the blinds over a ring (`moves_open`). The
   flags of two keys read the one entry of a public database that their point selects
   behind an offset (`flags_read`). -/
namespace Mpc
open LE Fifo

/-- An array of `uint64_t`. -/
abbrev Words (n : Nat) := Vector (BitVec 64) n

section
variable {n : Nat}

/-- `dotProductVector` of words. -/
def dotProductVector (X Y : Words n) : BitVec 64 := (List.finRange n).foldl (fun dot j => dot + X[j] * Y[j]) 0

/-- `_mm_set1_epi8`. -/
def mmSet1Epi8 (b : Byte) : Block := dec 128 (List.replicate 16 b)

/-- `dotProductVector` of blocks with the flags `_t0`. -/
def flagProduct (proofdb : Vector Block n) (t0 : Vector Byte n) (offset : BitVec 64) : Block :=
  (List.finRange n).foldl (fun accumulator (i : Fin n) =>
    let maskByte := -(t0[i] &&& 1)
    let mask := mmSet1Epi8 maskByte
    let masked := proofdb.get ⟨(BitVec.ofNat 64 i + offset).toNat % n, Nat.mod_lt _ i.pos⟩ &&& mask
    accumulator ^^^ masked) 0

/-- The sum of two arrays, entry by entry. -/
def plus (a b : Words n) : Words n := Vector.ofFn fun j => a[j] + b[j]

/-- `refresh_blinds`: the arrays `DB0`, `DB0_tilde` and `X0` after it. -/
def refreshBlinds (DB0 DB0Tilde X0 updateVector0 updateVector1 : Words n) : Words n × Words n × Words n :=
  (Vector.ofFn fun j => DB0[j] + updateVector0[j],
    Vector.ofFn fun j => DB0Tilde[j] - updateVector1[j] + updateVector1[j],
    Vector.ofFn fun j => X0[j] - updateVector0[j])

/-- A party's part of the dot product. -/
def partyDot (DB ePlus Y DBTilde : Words n) (term : BitVec 64) : BitVec 64 :=
  dotProductVector DB ePlus - dotProductVector Y DBTilde + term

/-! Moves of a selection. -/

/-- The shares of a selection, the blinds, the blinded shares and the cancellation terms. -/
structure Selection (n : Nat) where
  e0 : Words n
  e0Tilde : Words n
  Y0 : Words n
  e1 : Words n
  e1Tilde : Words n
  Y1 : Words n
  term0 : BitVec 64
  term1 : BitVec 64

/-- A selection with blinds, as `main` starts. -/
def Selection.start (X0 X1 Y0 Y1 e0 e1 : Words n) (alpha : BitVec 64) : Selection n where
  e0 := e0
  e0Tilde := plus e0 Y0
  Y0 := Y0
  e1 := e1
  e1Tilde := plus e1 Y1
  Y1 := Y1
  term0 := dotProductVector X0 Y1 + alpha
  term1 := dotProductVector X1 Y0 - alpha

/-- `v` is added to the selection at `target`. P0's share of that is `u0`. -/
structure Move (n : Nat) where
  target : Fin n
  v : BitVec 64
  u0 : Words n

def Move.u1 (mv : Move n) : Words n := Vector.ofFn fun j => (if j = mv.target then mv.v else 0) - mv.u0[j]

/-- A refresh of the blinds at both parties, with the cancellation terms. -/
def Selection.move (X0 X1 : Words n) (s : Selection n) (mv : Move n) : Selection n :=
  let r0 := refreshBlinds s.e0 s.e0Tilde s.Y0 mv.u0 mv.u1
  let r1 := refreshBlinds s.e1 s.e1Tilde s.Y1 mv.u1 mv.u0
  ⟨r0.1, r0.2.1, r0.2.2, r1.1, r1.2.1, r1.2.2,
    s.term0 - mv.v * X0[mv.target] + dotProductVector X0 mv.u0,
    s.term1 - mv.v * X1[mv.target] + dotProductVector X1 mv.u1⟩

/-- The parties' results on a database shared as `DB0` and `DB1`. -/
def Selection.dot0 (s : Selection n) (DB0 DB1 X1 : Words n) : BitVec 64 :=
  partyDot DB0 (plus s.e0 s.e1Tilde) s.Y0 (plus DB1 X1) s.term0
def Selection.dot1 (s : Selection n) (DB0 DB1 X0 : Words n) : BitVec 64 :=
  partyDot DB1 (plus s.e1 s.e0Tilde) s.Y1 (plus DB0 X0) s.term1

/-! The moves are refreshes of blinds. -/

/-- An array as a vector. -/
def vectorOf (v : Words n) : Fin n → BitVec 64 := fun j => v[j]

@[simp] theorem vectorOf_ofFn (g : Fin n → BitVec 64) : vectorOf (Vector.ofFn g) = g := by
  funext j
  exact Vector.getElem_ofFn _

theorem vectorOf_injective : Function.Injective (vectorOf (n := n)) := by
  intro a b h
  apply Vector.ext
  intro j hj
  exact congrFun h ⟨j, hj⟩

theorem vectorOf_plus (a b : Words n) : vectorOf (plus a b) = vectorOf a + vectorOf b := vectorOf_ofFn _

theorem dotProductVector_eq (X Y : Words n) : dotProductVector X Y = vectorOf X ⬝ᵥ vectorOf Y := by
  have hfold : ∀ (l : List (Fin n)) (d : BitVec 64), l.foldl (fun dot j => dot + X[j] * Y[j]) d =
      d + (l.map fun j => vectorOf X j * vectorOf Y j).sum := by
    intro l
    induction l with
    | nil => simp
    | cons j l ih =>
      intro d
      rw [List.foldl_cons, ih, List.map_cons, List.sum_cons, add_assoc]
      rfl
  rw [dotProductVector, hfold, zero_add, ← Fin.sum_univ_def]
  rfl

/-- What was blinded stays as it is. -/
theorem vectorOf_refreshBlinds (DB Tilde X u v : Words n) :
    vectorOf (refreshBlinds DB Tilde X u v).1 = vectorOf DB + vectorOf u ∧
      vectorOf (refreshBlinds DB Tilde X u v).2.1 = vectorOf Tilde ∧
      vectorOf (refreshBlinds DB Tilde X u v).2.2 = vectorOf X - vectorOf u := by
  refine ⟨vectorOf_ofFn _, ?_, vectorOf_ofFn _⟩
  rw [refreshBlinds, vectorOf_ofFn]
  funext j
  exact sub_add_cancel _ _

/-- The selection `s` is that of the blinded parties `b` with the database blinds `X0` and `X1`. -/
structure Selection.Matches (X0 X1 : Words n) (s : Selection n) (b : Blind.Blinded (BitVec 64) (Fin n)) : Prop where
  X0 : b.X0 = vectorOf X0
  X1 : b.X1 = vectorOf X1
  e0 : b.e0 = vectorOf s.e0
  e1 : b.e1 = vectorOf s.e1
  Y0 : b.Y0 = vectorOf s.Y0
  Y1 : b.Y1 = vectorOf s.Y1
  tilde0 : b.tilde0 = vectorOf s.e0Tilde
  tilde1 : b.tilde1 = vectorOf s.e1Tilde
  c0 : b.c0 = s.term0
  c1 : b.c1 = s.term1

/-- The parties that `main` starts with. -/
def blindedStart (DB0 DB1 X0 X1 Y0 Y1 e0 e1 : Words n) (alpha : BitVec 64) : Blind.Blinded (BitVec 64) (Fin n) where
  DB0 := vectorOf DB0
  DB1 := vectorOf DB1
  X0 := vectorOf X0
  X1 := vectorOf X1
  e0 := vectorOf e0
  e1 := vectorOf e1
  Y0 := vectorOf Y0
  Y1 := vectorOf Y1
  tilde0 := vectorOf e0 + vectorOf Y0
  tilde1 := vectorOf e1 + vectorOf Y1
  c0 := dotProductVector X0 Y1 + alpha
  c1 := dotProductVector X1 Y0 - alpha
  tilde0_eq := rfl
  tilde1_eq := rfl
  correction := by
    rw [dotProductVector_eq, dotProductVector_eq]
    ring

def Move.update (mv : Move n) : Blind.Update (BitVec 64) (Fin n) where
  u0 := vectorOf mv.u0
  u1 := vectorOf mv.u1
  d := Pi.single mv.target mv.v
  sum := by
    funext j
    rw [Move.u1, vectorOf_ofFn, Pi.add_apply, Pi.single_apply]
    exact add_sub_cancel _ _

theorem start_matches (DB0 DB1 X0 X1 Y0 Y1 e0 e1 : Words n) (alpha : BitVec 64) :
    (Selection.start X0 X1 Y0 Y1 e0 e1 alpha).Matches X0 X1 (blindedStart DB0 DB1 X0 X1 Y0 Y1 e0 e1 alpha) :=
  ⟨rfl, rfl, rfl, rfl, rfl, rfl, (vectorOf_plus _ _).symm, (vectorOf_plus _ _).symm, rfl, rfl⟩

variable {X0 X1 : Words n} {s : Selection n} {b : Blind.Blinded (BitVec 64) (Fin n)}

theorem Selection.Matches.move (h : s.Matches X0 X1 b) (mv : Move n) :
    (s.move X0 X1 mv).Matches X0 X1 (b.refresh mv.update) := by
  obtain ⟨he0, ht0, hy0⟩ := vectorOf_refreshBlinds s.e0 s.e0Tilde s.Y0 mv.u0 mv.u1
  obtain ⟨he1, ht1, hy1⟩ := vectorOf_refreshBlinds s.e1 s.e1Tilde s.Y1 mv.u1 mv.u0
  refine ⟨h.X0, h.X1, ?_, ?_, ?_, ?_, ?_, ?_, ?_, ?_⟩
  · exact (congrArg (· + vectorOf mv.u0) h.e0).trans he0.symm
  · exact (congrArg (· + vectorOf mv.u1) h.e1).trans he1.symm
  · exact (congrArg (· - vectorOf mv.u0) h.Y0).trans hy0.symm
  · exact (congrArg (· - vectorOf mv.u1) h.Y1).trans hy1.symm
  · exact h.tilde0.trans ht0.symm
  · exact h.tilde1.trans ht1.symm
  · show b.c0 + b.X0 ⬝ᵥ vectorOf mv.u0 - b.X0 ⬝ᵥ Pi.single mv.target mv.v =
      s.term0 - mv.v * vectorOf X0 mv.target + dotProductVector X0 mv.u0
    rw [h.c0, h.X0, dotProduct_single, dotProductVector_eq]
    ring
  · show b.c1 + b.X1 ⬝ᵥ vectorOf mv.u1 - b.X1 ⬝ᵥ Pi.single mv.target mv.v =
      s.term1 - mv.v * vectorOf X1 mv.target + dotProductVector X1 mv.u1
    rw [h.c1, h.X1, dotProduct_single, dotProductVector_eq]
    ring

theorem Selection.Matches.moves (h : s.Matches X0 X1 b) (mvs : List (Move n)) :
    (mvs.foldl (Selection.move X0 X1) s).Matches X0 X1 (b.refreshAll (mvs.map Move.update)) := by
  induction mvs generalizing s b with
  | nil => exact h
  | cons mv mvs ih => exact ih (h.move mv)

theorem Selection.Matches.dots {DB0 DB1 : Words n} (h : s.Matches X0 X1 b) (h0 : b.DB0 = vectorOf DB0)
    (h1 : b.DB1 = vectorOf DB1) : s.dot0 DB0 DB1 X1 = b.result0 ∧ s.dot1 DB0 DB1 X0 = b.result1 := by
  constructor
  · rw [Selection.dot0, partyDot, Blind.Blinded.result0, dotProductVector_eq, dotProductVector_eq, vectorOf_plus,
      vectorOf_plus, h0, h1, h.e0, h.tilde1, h.Y0, h.X1, h.c0]
  · rw [Selection.dot1, partyDot, Blind.Blinded.result1, dotProductVector_eq, dotProductVector_eq, vectorOf_plus,
      vectorOf_plus, h0, h1, h.e1, h.tilde0, h.Y1, h.X0, h.c1]

/-- The selection after moves. -/
def Selection.after (X0 X1 Y0 Y1 e0 e1 : Words n) (alpha : BitVec 64) (moves : List (Move n)) : Selection n :=
  moves.foldl (Selection.move X0 X1) (Selection.start X0 X1 Y0 Y1 e0 e1 alpha)

/-- What moves add to a dot product. -/
theorem dotProduct_moves (v : Fin n → BitVec 64) (moves : List (Move n)) :
    v ⬝ᵥ ((moves.map Move.update).map Blind.Update.d).sum =
      (moves.map fun mv => v mv.target * mv.v).sum := by
  induction moves with
  | nil => exact dotProduct_zero v
  | cons mv moves ih =>
    rw [List.map_cons, List.map_cons, List.sum_cons, dotProduct_add, ih, List.map_cons, List.sum_cons]
    exact congrArg (· + _) (dotProduct_single v mv.v mv.target)

section
variable (DB0 DB1 X0 X1 Y0 Y1 e0 e1 : Words n) (alpha : BitVec 64) (moves : List (Move n))

/-- The parties that `main` starts with, after the moves. -/
def blindedAfter : Blind.Blinded (BitVec 64) (Fin n) :=
  (blindedStart DB0 DB1 X0 X1 Y0 Y1 e0 e1 alpha).refreshAll (moves.map Move.update)

theorem after_matches : (Selection.after X0 X1 Y0 Y1 e0 e1 alpha moves).Matches X0 X1
    (blindedAfter DB0 DB1 X0 X1 Y0 Y1 e0 e1 alpha moves) :=
  (start_matches DB0 DB1 X0 X1 Y0 Y1 e0 e1 alpha).moves moves

theorem after_dots : (Selection.after X0 X1 Y0 Y1 e0 e1 alpha moves).dot0 DB0 DB1 X1 +
      (Selection.after X0 X1 Y0 Y1 e0 e1 alpha moves).dot1 DB0 DB1 X0 =
    dotProductVector (plus DB0 DB1) (plus e0 e1) +
      (moves.map fun mv => (plus DB0 DB1)[mv.target] * mv.v).sum := by
  have hmatches := after_matches DB0 DB1 X0 X1 Y0 Y1 e0 e1 alpha moves
  obtain ⟨h0, h1, -, -⟩ :=
    (blindedStart DB0 DB1 X0 X1 Y0 Y1 e0 e1 alpha).refreshAll_keeps (moves.map Move.update)
  obtain ⟨hdot0, hdot1⟩ := hmatches.dots h0 h1
  calc _ = (vectorOf DB0 + vectorOf DB1) ⬝ᵥ (vectorOf e0 + vectorOf e1 +
            ((moves.map Move.update).map Blind.Update.d).sum) := by
          rw [hdot0, hdot1]
          exact (blindedStart DB0 DB1 X0 X1 Y0 Y1 e0 e1 alpha).opened_refreshAll (moves.map Move.update)
      _ = dotProductVector (plus DB0 DB1) (plus e0 e1) +
            (moves.map fun mv => vectorOf (plus DB0 DB1) mv.target * mv.v).sum := by
          rw [dotProduct_add, ← vectorOf_plus, ← vectorOf_plus, dotProduct_moves, dotProductVector_eq]

theorem after_terms : (Selection.after X0 X1 Y0 Y1 e0 e1 alpha moves).term0 +
      (Selection.after X0 X1 Y0 Y1 e0 e1 alpha moves).term1 =
    dotProductVector X0 (Selection.after X0 X1 Y0 Y1 e0 e1 alpha moves).Y1 +
      dotProductVector X1 (Selection.after X0 X1 Y0 Y1 e0 e1 alpha moves).Y0 := by
  have hmatches := after_matches X0 X1 X0 X1 Y0 Y1 e0 e1 alpha moves
  rw [← hmatches.c0, ← hmatches.c1, Blind.Blinded.correction, hmatches.X0, hmatches.X1, hmatches.Y0, hmatches.Y1,
    dotProductVector_eq, dotProductVector_eq]

/-- What was sent is the selection of now under the blinds of now. -/
theorem after_tilde : (Selection.after X0 X1 Y0 Y1 e0 e1 alpha moves).e0Tilde = plus e0 Y0 ∧
    (Selection.after X0 X1 Y0 Y1 e0 e1 alpha moves).e1Tilde = plus e1 Y1 ∧
    plus (Selection.after X0 X1 Y0 Y1 e0 e1 alpha moves).e0 (Selection.after X0 X1 Y0 Y1 e0 e1 alpha moves).Y0 =
      plus e0 Y0 ∧
    plus (Selection.after X0 X1 Y0 Y1 e0 e1 alpha moves).e1 (Selection.after X0 X1 Y0 Y1 e0 e1 alpha moves).Y1 =
      plus e1 Y1 := by
  have hmatches := after_matches X0 X1 X0 X1 Y0 Y1 e0 e1 alpha moves
  obtain ⟨-, -, ht0, ht1⟩ := (blindedStart X0 X1 X0 X1 Y0 Y1 e0 e1 alpha).refreshAll_keeps (moves.map Move.update)
  generalize Selection.after X0 X1 Y0 Y1 e0 e1 alpha moves = s at hmatches
  have hnow0 : vectorOf s.e0 + vectorOf s.Y0 = vectorOf e0 + vectorOf Y0 := by
    rw [← hmatches.e0, ← hmatches.Y0]
    exact (Blind.Blinded.tilde0_eq _).symm.trans ht0
  have hnow1 : vectorOf s.e1 + vectorOf s.Y1 = vectorOf e1 + vectorOf Y1 := by
    rw [← hmatches.e1, ← hmatches.Y1]
    exact (Blind.Blinded.tilde1_eq _).symm.trans ht1
  have hplus : ∀ {v a b : Words n}, vectorOf v = vectorOf a + vectorOf b → v = plus a b :=
    fun h => vectorOf_injective (h.trans (vectorOf_plus _ _).symm)
  refine ⟨hplus (hmatches.tilde0.symm.trans ht0), hplus (hmatches.tilde1.symm.trans ht1), ?_, ?_⟩
  · exact hplus ((vectorOf_plus _ _).trans hnow0)
  · exact hplus ((vectorOf_plus _ _).trans hnow1)

theorem after_selection : vectorOf (Selection.after X0 X1 Y0 Y1 e0 e1 alpha moves).e0 +
      vectorOf (Selection.after X0 X1 Y0 Y1 e0 e1 alpha moves).e1 =
    vectorOf e0 + vectorOf e1 + (moves.map fun mv => Pi.single mv.target mv.v).sum := by
  have hmatches := after_matches X0 X1 X0 X1 Y0 Y1 e0 e1 alpha moves
  rw [← hmatches.e0, ← hmatches.e1, blindedAfter, Blind.Blinded.refreshAll_selection, List.map_map]
  rfl

/-- Any moves of the selection, with any shares of the database, of the selection and of the moves, and any
    blinds. The parties' results add up to the dot product of the database with the first selection, plus
    what the moves add at their targets; the cancellation terms add up to what the blinds that the parties
    have now need; and what was sent at the start is the selection of now under these blinds. -/
theorem moves_open :
    (Selection.after X0 X1 Y0 Y1 e0 e1 alpha moves).dot0 DB0 DB1 X1 +
        (Selection.after X0 X1 Y0 Y1 e0 e1 alpha moves).dot1 DB0 DB1 X0 =
      dotProductVector (plus DB0 DB1) (plus e0 e1) +
        (moves.map fun mv => (plus DB0 DB1)[mv.target] * mv.v).sum ∧
    (Selection.after X0 X1 Y0 Y1 e0 e1 alpha moves).term0 + (Selection.after X0 X1 Y0 Y1 e0 e1 alpha moves).term1 =
      dotProductVector X0 (Selection.after X0 X1 Y0 Y1 e0 e1 alpha moves).Y1 +
        dotProductVector X1 (Selection.after X0 X1 Y0 Y1 e0 e1 alpha moves).Y0 ∧
    (Selection.after X0 X1 Y0 Y1 e0 e1 alpha moves).e0Tilde =
      plus (Selection.after X0 X1 Y0 Y1 e0 e1 alpha moves).e0 (Selection.after X0 X1 Y0 Y1 e0 e1 alpha moves).Y0 ∧
    (Selection.after X0 X1 Y0 Y1 e0 e1 alpha moves).e1Tilde =
      plus (Selection.after X0 X1 Y0 Y1 e0 e1 alpha moves).e1 (Selection.after X0 X1 Y0 Y1 e0 e1 alpha moves).Y1 ∧
    (Selection.after X0 X1 Y0 Y1 e0 e1 alpha moves).e0Tilde = plus e0 Y0 ∧
    (Selection.after X0 X1 Y0 Y1 e0 e1 alpha moves).e1Tilde = plus e1 Y1 := by
  obtain ⟨ht0, ht1, hnow0, hnow1⟩ := after_tilde X0 X1 Y0 Y1 e0 e1 alpha moves
  refine ⟨?_, after_terms X0 X1 Y0 Y1 e0 e1 alpha moves, ht0.trans hnow0.symm, ht1.trans hnow1.symm, ht0, ht1⟩
  exact after_dots DB0 DB1 X0 X1 Y0 Y1 e0 e1 alpha moves

end

/-! Reading by flags. -/

/-- An XOR over a list of which one entry counts. -/
theorem foldl_xor_single {α : Type} {g : α → Block} {l : List α} {t : α} (hl : l.Nodup) (ht : t ∈ l)
    (h : ∀ i ∈ l, i ≠ t → g i = 0) (a : Block) : l.foldl (fun a i => a ^^^ g i) a = a ^^^ g t := by
  have hzero : ∀ (l : List α) (a : Block), (∀ i ∈ l, g i = 0) → l.foldl (fun a i => a ^^^ g i) a = a := by
    intro l
    induction l with
    | nil => exact fun _ _ => rfl
    | cons i l ih =>
      intro a h
      rw [List.foldl_cons, h i (List.mem_cons_self ..), ih _ fun j hj => h j (List.mem_cons_of_mem _ hj)]
      exact BitVec.xor_zero
  induction l generalizing a with
  | nil => cases ht
  | cons i l ih =>
    obtain ⟨hi, hnodup⟩ := List.nodup_cons.mp hl
    rw [List.foldl_cons]
    by_cases hit : i = t
    · subst hit
      exact hzero l _ fun j hj => h j (List.mem_cons_of_mem _ hj) fun hji => hi (hji ▸ hj)
    · rw [ih hnodup ((List.mem_cons.mp ht).resolve_left (Ne.symm hit)) fun j hj => h j (List.mem_cons_of_mem _ hj),
        h i (List.mem_cons_self ..) hit]
      exact congrArg (· ^^^ g t) BitVec.xor_zero

theorem foldl_xor_xor {α : Type} (g g' : α → Block) (l : List α) (a a' : Block) :
    l.foldl (fun a i => a ^^^ g i) a ^^^ l.foldl (fun a i => a ^^^ g' i) a' =
      l.foldl (fun a i => a ^^^ (g i ^^^ g' i)) (a ^^^ a') := by
  induction l generalizing a a' with
  | nil => rfl
  | cons i l ih =>
    rw [List.foldl_cons, List.foldl_cons, List.foldl_cons, ih]
    congr 1
    ac_rfl

/-- The entry that `i` stands for behind the offset. -/
def offsetIndex (n : Nat) (i : Fin n) (offset : BitVec 64) : Fin n :=
  ⟨(BitVec.ofNat 64 i + offset).toNat % n, Nat.mod_lt _ i.pos⟩

theorem masked_xor {a b : Byte} {c d : Bool} (ha : a = flagOf c) (hb : b = flagOf d) (x : Block) :
    (x &&& mmSet1Epi8 (-(a &&& 1))) ^^^ (x &&& mmSet1Epi8 (-(b &&& 1))) = if c = d then 0 else x := by
  have hones : mmSet1Epi8 (-(flagOf true &&& 1)) = BitVec.allOnes 128 := by decide
  have hzero : mmSet1Epi8 (-(flagOf false &&& 1)) = 0 := by decide
  rw [ha, hb]
  cases c with
  | false =>
    cases d with
    | false => exact BitVec.xor_self
    | true =>
      rw [hones, hzero, BitVec.and_allOnes]
      simp
  | true =>
    cases d with
    | false =>
      rw [hones, hzero, BitVec.and_allOnes]
      simp
    | true => exact BitVec.xor_self

theorem PointKeys.flagProduct_xor {aes : AesKey → Block → Block} {τ : LeafT} (hτ : τ.isPacked = false) {target : Nat}
    {val : Leaf τ} {k0 k1 : DpfKey τ} (hkeys : PointKeys aes n target val k0 k1) (htarget : target < n)
    (proofdb : Vector Block n) (offset : BitVec 64) :
    flagProduct proofdb (keyFlags aes k0 n) offset ^^^ flagProduct proofdb (keyFlags aes k1 n) offset =
      proofdb.get (offsetIndex n ⟨target, htarget⟩ offset) := by
  -- the flags differ at the target only
  have hterm : ∀ (i : Fin n) (x : Block), (x &&& mmSet1Epi8 (-((keyFlags aes k0 n)[i] &&& 1))) ^^^
      (x &&& mmSet1Epi8 (-((keyFlags aes k1 n)[i] &&& 1))) = if (i : Nat) = target then x else 0 := by
    intro i x
    obtain ⟨c, hc⟩ : ∃ c, (keyFlags aes k0 n)[i] = flagOf c := keyFlags_flag k0 i.isLt
    obtain ⟨d, hd⟩ : ∃ d, (keyFlags aes k1 n)[i] = flagOf d := keyFlags_flag k1 i.isLt
    have hxor : (keyFlags aes k0 n)[i] ^^^ (keyFlags aes k1 n)[i] = _ := hkeys.flags_xor htarget i.isLt
    rw [hc, hd, τ.leavesPerNode_eq_one hτ, Nat.div_one] at hxor
    rw [masked_xor hc hd]
    by_cases hi : (i : Nat) = target
    · rw [if_pos hi] at hxor ⊢
      cases c <;> cases d <;> first | rfl | exact absurd hxor (by decide)
    · rw [if_neg hi] at hxor ⊢
      cases c <;> cases d <;> first | rfl | exact absurd hxor (by decide)
  have hzero : ∀ i ∈ List.finRange n, i ≠ ⟨target, htarget⟩ →
      (if (i : Nat) = target then proofdb.get (offsetIndex n i offset) else 0) = 0 :=
    fun i _ hi => if_neg fun h => hi (Fin.ext h)
  calc flagProduct proofdb (keyFlags aes k0 n) offset ^^^ flagProduct proofdb (keyFlags aes k1 n) offset
      = (List.finRange n).foldl (fun a (i : Fin n) => a ^^^
          ((proofdb.get (offsetIndex n i offset) &&& mmSet1Epi8 (-((keyFlags aes k0 n)[i] &&& 1))) ^^^
          (proofdb.get (offsetIndex n i offset) &&& mmSet1Epi8 (-((keyFlags aes k1 n)[i] &&& 1))))) (0 ^^^ 0) :=
        foldl_xor_xor _ _ _ _ _
    _ = (List.finRange n).foldl (fun a (i : Fin n) => a ^^^
          if (i : Nat) = target then proofdb.get (offsetIndex n i offset) else 0) 0 := by
        simp only [hterm]
        rfl
    _ = proofdb.get (offsetIndex n ⟨target, htarget⟩ offset) := by
        rw [foldl_xor_single (List.nodup_finRange n) (List.mem_finRange _) hzero, if_pos rfl]
        exact BitVec.zero_xor

/-- Of any public database, the flags of two keys for `target` read the entry that `target` stands for
    behind the offset, whatever the other arguments of the generation are. -/
theorem flags_read (aes : AesKey → Block → Block) (prgkey : AesKey) {τ : LeafT} (hτ : τ.isPacked = false)
    {target : Nat} (htarget : target < n) (val : Leaf τ) (root : Block × Block) :
    ∃ k0 k1, gen aes prgkey n target val root = .ok (k0, k1) ∧ ∀ (proofdb : Vector Block n) offset,
      flagProduct proofdb (keyFlags aes k0 n) offset ^^^ flagProduct proofdb (keyFlags aes k1 n) offset =
        proofdb.get (offsetIndex n ⟨target, htarget⟩ offset) := by
  obtain ⟨k0, k1, hgen, hkeys⟩ := gen_keys aes prgkey val root htarget
  exact ⟨k0, k1, hgen, hkeys.flagProduct_xor hτ htarget⟩

end

/-- Of eight blocks, at point 5 behind the offset 6. -/
theorem flags_read_eight : ∃ k0 k1, gen (fun _ b => b) 0 8 5 (7 : Leaf .m128i) (1, 2) = .ok (k0, k1) ∧
    ∀ proofdb : Vector Block 8, flagProduct proofdb (keyFlags (fun _ b => b) k0 8) 6 ^^^
      flagProduct proofdb (keyFlags (fun _ b => b) k1 8) 6 = proofdb[3] := by
  obtain ⟨k0, k1, hgen, hread⟩ := flags_read (n := 8) (fun _ b => b) 0 (τ := .m128i) rfl (by decide : 5 < 8) 7 (1, 2)
  exact ⟨k0, k1, hgen, fun proofdb => hread proofdb 6⟩

end Mpc
