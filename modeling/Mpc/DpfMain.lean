import Mpc.Blinded
import Mpc.Mod128

/- The demonstration program (`main` of dpf/dpf.cpp). It blinds a database shared by two
   parties, makes shares of a selection out of the flags of two keys for the point 5, opens
   the selected entry, moves the selection without sending again, opens once more, and reads
   a public database by flags behind a random offset. Whatever the random bytes, the memory
   and the clock are, both openings print the entry 5, the correction of the moved
   selection is what the moved blinds need, the only item whose shares do not cancel is 5,
   the entry that is read is the one behind the offset, and the assertion at the end holds
   (`demo_prints`). -/
namespace Mpc
open LE Fifo

namespace DpfMain

def printLines (lines : List String) : Local Unit := do
  let m ← Party.get
  Party.set { m with out := m.out ++ lines }

/-- `c` times `new T[n]`. -/
def newArrays (n size : Nat) : Nat → Local Unit
  | 0 => return ()
  | c+1 => do
    newArray n size
    newArrays n size c

/-- The blinds X0, X1, Y0 and Y1, drawn in turn for every item. -/
def drawBlinds : (n : Nat) → Local (Words n × Words n × Words n × Words n)
  | 0 => return (#v[], #v[], #v[], #v[])
  | j+1 => do
    let (X0, X1, Y0, Y1) ← drawBlinds j
    let x0 ← randomWord
    let x1 ← randomWord
    let y0 ← randomWord
    let y1 ← randomWord
    return (X0.push x0, X1.push x1, Y0.push y0, Y1.push y1)

/-- The shares of an item of the selection out of its flags. Of the target's the one that is 0 makes the other 1. -/
def selectionShares (isTarget : Bool) (t0 t1 : Byte) : BitVec 64 × BitVec 64 :=
  let e0 := t0.setWidth 64
  let e1 := -t1.setWidth 64
  if isTarget then
    let e1 := if e0 = 0 then 1 else e1
    let e0 := if e1 = 0 then 1 else e0
    (e0, e1)
  else (e0, e1)

/-- The shares of the whole selection. -/
def selection0 {n : Nat} (targetInd : Nat) (t0 t1 : Vector Byte n) : Words n :=
  Vector.ofFn fun j => (selectionShares (j.val = targetInd) (t0.get j) (t1.get j)).1
def selection1 {n : Nat} (targetInd : Nat) (t0 t1 : Vector Byte n) : Words n :=
  Vector.ofFn fun j => (selectionShares (j.val = targetInd) (t0.get j) (t1.get j)).2

/-- An element of a block as a `long long`. -/
def signed (x : BitVec 64) : String := toString x.toInt

/-- What is printed of an item whose flags differ. -/
def flagLines (j : Nat) (e0 e1 : BitVec 64) (t0 t1 : Byte) : List String :=
  if t0 ≠ t1 then
    ["j = " ++ (toString j ++ (" -> " ++ (decimal (e0 + e1) ++ (" ----? " ++
      (toString t0.toNat ++ (" " ++ toString t1.toNat)))))), ""]
  else []

section
variable {n : Nat}

/-- The opened dot products, and what is printed of them; at the end `alpha`. The selection is moved from `targetInd` to
    `targetInd2`; `f0` is P0's share of the new one. -/
def blindedDots (targetInd targetInd2 : Fin n) (X0 X1 Y0 Y1 e0 e1 f0 : Words n) : Local (BitVec 64) := do
  let DB0 : Words n := Vector.ofFn fun _ => 0
  let DB1 : Words n := Vector.ofFn fun j => BitVec.ofNat 64 j
  let DB0Tilde := plus DB0 X0
  let DB1Tilde := plus DB1 X1
  let negE0 : Words n := Vector.ofFn fun j => -e0.get j
  let negE1 : Words n := Vector.ofFn fun j => -e1.get j
  let f1 : Words n := Vector.ofFn fun j => if j = targetInd2 then 1 - f0.get j else 0 - f0.get j
  let e0Tilde := plus e0 Y0
  let e1Tilde := plus e1 Y1
  -- the shares of Y at the target are drawn and never used
  let _ ← randomWord
  let alpha ← randomWord
  let gamma0 := dotProductVector X0 Y1
  let gamma1 := dotProductVector X1 Y0
  printLine ("gamma0 = " ++ decimal gamma0)
  printLine ("gamma1 = " ++ decimal gamma1)
  let cancellationTerm0 := gamma0 + alpha
  let cancellationTerm1 := gamma1 - alpha
  let dot0 := partyDot DB0 (plus e0 e1Tilde) Y0 DB1Tilde cancellationTerm0
  let dot1 := partyDot DB1 (plus e1 e0Tilde) Y1 DB0Tilde cancellationTerm1
  printLine ("dot = " ++ decimal (dot0 + dot1))
  printLine ("cancellation_term0 = " ++ decimal cancellationTerm0)
  printLine ("cancellation_term1 = " ++ decimal cancellationTerm1)
  let (e0, e0Tilde, Y0) := refreshBlinds e0 e0Tilde Y0 f0 f1
  let (e1, e1Tilde, Y1) := refreshBlinds e1 e1Tilde Y1 f1 f0
  let (e0, e0Tilde, Y0) := refreshBlinds e0 e0Tilde Y0 negE0 negE1
  let (e1, e1Tilde, Y1) := refreshBlinds e1 e1Tilde Y1 negE1 negE0
  let correction0 := cancellationTerm0 - X0.get targetInd2 + dotProductVector X0 f0 + X0.get targetInd +
    dotProductVector X0 negE0
  let correction1 := cancellationTerm1 - X1.get targetInd2 + dotProductVector X1 f1 + X1.get targetInd +
    dotProductVector X1 negE1
  let assert1 := dotProductVector X0 Y1 + dotProductVector X1 Y0
  let assert2 := correction0 + correction1
  printLine (decimal assert1 ++ (" <<<>>>>> " ++ decimal assert2))
  printLines ((List.finRange n).flatMap fun (j : Fin n) =>
    if e0.get j + e1.get j ≠ 0 then ["j (reconstruction) = " ++ toString j.val] else [])
  let dot0 := partyDot DB0 (plus e0 e1Tilde) Y0 DB1Tilde correction0
  let dot1 := partyDot DB1 (plus e1 e0Tilde) Y1 DB0Tilde correction1
  printLine ("dot new = " ++ decimal (dot0 + dot1))
  printLine ("gamma0_mew = " ++ decimal (dotProductVector X0 Y1))
  printLine ("gamma1_new = " ++ decimal (dotProductVector X1 Y0))
  return alpha

/-- What is printed of an item whose leaves are `a` and `b`, with flags `s` and `t`. -/
def leafLines (j : Nat) (a b : Block) (s t : Byte) : List String :=
  [toString j ++ (" :--> " ++ (signed (mmCvtsi128Si64 a) ++ (" || " ++ (signed (mmExtractEpi64 a) ++
      (" <---> " ++ (signed (mmCvtsi128Si64 b) ++ (" || " ++ signed (mmExtractEpi64 b)))))))),
    toString j ++ ("(flags ): -> " ++ (toString s.toNat ++ (" <> " ++ toString t.toNat)))]

/-- The last comparison: items whose low halves agree must have the same flags. -/
def compareLines (output0 output1 : Vector Block n) (t0 t1 : Vector Byte n) : List (Fin n) → Local Unit
  | [] => return ()
  | j :: js => do
    if mmCvtsi128Si64 (output0.get j) ≠ mmCvtsi128Si64 (output1.get j) then
      printLines (leafLines j (output0.get j) (output1.get j) (t0.get j) (t1.get j))
    else if t0.get j ≠ t1.get j then Party.throw (.runtimeError "_t0[j] == _t1[j]")
    compareLines output0 output1 t0 t1 js

/-- The durations that the program prints, as the clock makes them. P0's whole time is printed twice. -/
structure Clock where
  p2 : String
  p0Preproc : String
  p0 : String
  p0Online : String
  p1 : String

def timeLine (what time : String) : String := what ++ (": " ++ (time ++ " ms"))

/-- What is printed of a block. -/
def halvesLine (name : String) (x : Block) : String :=
  name ++ (" = " ++ (signed (mmCvtsi128Si64 x) ++ (" " ++ signed (mmExtractEpi64 x))))

variable (aes : AesKey → Block → Block) (clock : Clock)

/-- Reading the public database by the flags of the keys, from `alpha0` on. -/
def readByFlags (targetInd : BitVec 64) (alpha : BitVec 64) (dpfkey0 dpfkey1 : DpfKey .m128i)
    (output0 output1 : OutputArrays .m128i n) : Local Unit := do
  newArrays n 16 1
  printLine ("nitems = " ++ toString n)
  let proofdb : Vector Block n := Vector.ofFn fun j => mmSetEpi64x (200 * BitVec.ofNat 64 j) (100 * BitVec.ofNat 64 j)
  let alpha0 ← randomWord
  let alpha1 := alpha - alpha0
  printLine (timeLine "P2 time" clock.p2)
  newArrays n 16 2
  let proofSubmitted0 ← randomWord
  let proofSubmitted1 ← randomWord
  let targetInd0 ← randomWord
  let targetInd1 := targetInd - targetInd0
  let offset := (alpha0 - targetInd0) - (alpha1 - targetInd1)
  let (output0, t0) ← evalOutput aes dpfkey0 output0
  let x0 := flagProduct proofdb t0 offset
  printLine (timeLine "P0 time (preprocessing)" clock.p0Preproc)
  printLine (timeLine "P0 time" clock.p0)
  printLine (timeLine "P0 time (online)" clock.p0Online)
  printLine (timeLine "P0 time (total)" clock.p0)
  let (output1, t1) ← evalOutput aes dpfkey1 output1
  let x1 := flagProduct proofdb t1 offset
  let x := x0 ^^^ x1
  printLine (halvesLine "x" x)
  let checkProof0 := x0 ^^^ mmSetEpi64x 0 proofSubmitted0
  let checkProof1 := x1 ^^^ mmSetEpi64x 0 proofSubmitted1
  printLine (halvesLine "check_proof0" checkProof0)
  printLine (halvesLine "check_proof1" checkProof1)
  compareLines output0 output1 t0 t1 (List.finRange n)
  printLine (timeLine "P1 time" clock.p1)

end

/-- The unassigned array `f0`. -/
def unsetWords (m : Machine) (name : String) (n : Nat) : Words n :=
  Vector.ofFn fun j => dec 64 ((List.range 8).map fun k => m.uninit name (8 * j + k))

/-- The seven calls of the generation; the keys of the first are used. -/
def genAll (aes : AesKey → Block → Block) (prgkey : AesKey) (nitems : Nat) (targetValue : Leaf .m128i) :
    Local (DpfKey .m128i × DpfKey .m128i) := do
  let keys ← genKeys aes prgkey nitems 5 targetValue
  let _ ← genKeys aes prgkey nitems 5 targetValue
  let _ ← genKeys aes prgkey nitems 5 targetValue
  let _ ← genKeys aes prgkey nitems 534 targetValue
  let _ ← genKeys aes prgkey nitems 534 targetValue
  let _ ← genKeys aes prgkey nitems 534 targetValue
  let _ ← genKeys aes prgkey nitems 534 targetValue
  return keys

/-- `main` from the keys on. -/
def withBlinds (aes : AesKey → Block → Block) (clock : Clock) {nitems : Nat} (X0 X1 Y0 Y1 : Words nitems) :
    Local Nat := do
  let m ← Party.get
  let (dpfkey0, dpfkey1) ← genAll aes (m.newKey "prgkey") nitems (mmSetEpi64x 100 500)
  let (output0, t0) ← evalOutput aes dpfkey0 (m.newOutput .m128i nitems "output0" "_t0")
  let (output1, t1) ← evalOutput aes dpfkey1 (m.newOutput .m128i nitems "output1" "_t1")
  let e0 := selection0 5 t0 t1
  let e1 := selection1 5 t0 t1
  printLines ((List.finRange nitems).flatMap fun (j : Fin nitems) =>
    flagLines j (e0.get j) (e1.get j) (t0.get j) (t1.get j))
  if h : 5 < nitems then
    let alpha ← blindedDots ⟨5, h⟩ ⟨5, h⟩ X0 X1 Y0 Y1 e0 e1 (unsetWords m "f0" nitems)
    readByFlags aes clock 5 alpha dpfkey0 dpfkey1 (output0, t0) (output1, t1)
    return 0
  else Party.throw .undefined

/-- `main` for `log2(nitems)`. A shift by 64 or more is undefined. -/
def main (aes : AesKey → Block → Block) (clock : Clock) (logNitems : Nat) : Local Nat := do
  if 64 ≤ logNitems then Party.throw .undefined
  let nitems := 2^logNitems
  newArrays nitems 8 18
  let (X0, X1, Y0, Y1) ← drawBlinds nitems
  newArrays nitems 16 2
  newArrays nitems 1 2
  withBlinds aes clock X0 X1 Y0 Y1

/-! Draws and arrays. -/

section
variable {m : Machine} {e : Entropy} {F : String → Option (List Byte)} {L : List String} {n : Nat}

theorem printLines_run (lines : List String) :
    (printLines lines).run (during m e F L) = .ret (.ok (), during m e F (L ++ lines)) := rfl

theorem newArrays_run {size : Nat} (hmax : n * size < 2^63) (hroom : m.room (n * size) = true) (c : Nat) :
    (newArrays n size c).run (during m e F L) = .ret (.ok (), during m e F L) := by
  induction c with
  | zero => rfl
  | succ c ih =>
    have hone : (newArray n size).run (during m e F L) = .ret (.ok (), during m e F L) := newArray_ok hmax hroom
    rw [newArrays, Party.bind_of_ok hone, ih]

theorem drawBlinds_run (n : Nat) : ∃ X0 X1 Y0 Y1 e', (drawBlinds n).run (during m e F L) =
    .ret (.ok (X0, X1, Y0, Y1), during m e' F L) := by
  induction n with
  | zero => exact ⟨_, _, _, _, _, rfl⟩
  | succ n ih =>
    obtain ⟨X0, X1, Y0, Y1, e', hrun⟩ := ih
    refine ⟨X0.push (e'.word 64), X1.push ((e'.skip 64).word 64), Y0.push (((e'.skip 64).skip 64).word 64),
      Y1.push ((((e'.skip 64).skip 64).skip 64).word 64), (((e'.skip 64).skip 64).skip 64).skip 64, ?_⟩
    rw [drawBlinds, Party.bind_of_ok hrun]
    rfl

/-! The selection. -/

/-- The shares of an item whose flags are bits cancel, but for the target, whose flags differ. -/
theorem selectionShares_add {a b : Byte} {c d : Bool} (ha : a = flagOf c) (hb : b = flagOf d) (isTarget : Bool)
    (h : c = d ↔ isTarget = false) :
    (selectionShares isTarget a b).1 + (selectionShares isTarget a b).2 = if isTarget then 1 else 0 := by
  rw [ha, hb]
  cases isTarget <;> cases c <;> cases d <;> first | decide | exact absurd h (by decide)

/-- The code's two refreshes are two moves: to the new target with `f0`, and from the old one with what is
    left there. -/
theorem two_moves {targetInd : Fin n} {e0 e1 : Words n} (targetInd2 : Fin n) (f0 : Words n)
    (h : ∀ j : Fin n, e0.get j + e1.get j = if j = targetInd then 1 else 0) :
    Move.u1 ⟨targetInd2, 1, f0⟩ = (Vector.ofFn fun j => if j = targetInd2 then 1 - f0.get j else 0 - f0.get j) ∧
    Move.u1 ⟨targetInd, -1, Vector.ofFn fun j => -e0.get j⟩ = (Vector.ofFn fun j => -e1.get j) := by
  constructor
  · apply vectorOf_injective
    rw [Move.u1, vectorOf_ofFn, vectorOf_ofFn]
    funext j
    split <;> rfl
  · apply vectorOf_injective
    rw [Move.u1, vectorOf_ofFn, vectorOf_ofFn]
    funext j
    have hsum := h j
    have hneg : (Vector.ofFn fun j : Fin n => -e0.get j)[j] = -e0.get j := Vector.getElem_ofFn _
    rw [hneg]
    by_cases hj : j = targetInd
    · rw [if_pos hj] at hsum ⊢
      linear_combination hsum
    · rw [if_neg hj] at hsum ⊢
      linear_combination hsum

/-- The shared database holds `j` at `j`. -/
theorem selected_entry {targetInd : Fin n} {e0 e1 : Words n}
    (h : ∀ j : Fin n, e0.get j + e1.get j = if j = targetInd then 1 else 0) :
    vectorOf (plus (Vector.ofFn fun _ => 0) (Vector.ofFn fun j : Fin n => BitVec.ofNat 64 j)) =
      (fun j : Fin n => BitVec.ofNat 64 j) ∧
    dotProductVector (plus (Vector.ofFn fun _ => 0) (Vector.ofFn fun j : Fin n => BitVec.ofNat 64 j)) (plus e0 e1) =
      BitVec.ofNat 64 targetInd := by
  have hentry : vectorOf (plus (Vector.ofFn fun _ => 0) (Vector.ofFn fun j : Fin n => BitVec.ofNat 64 j)) =
      fun j : Fin n => BitVec.ofNat 64 j := by
    rw [vectorOf_plus, vectorOf_ofFn, vectorOf_ofFn]
    funext j
    exact zero_add _
  have hsel : vectorOf (plus e0 e1) = Pi.single targetInd 1 := by
    rw [vectorOf_plus]
    funext j
    rw [Pi.single_apply]
    exact h j
  refine ⟨hentry, ?_⟩
  rw [dotProductVector_eq, hentry, hsel, dotProduct_single_one]

/-! The moved selection. -/

/-- The moves of the code's two refreshes. -/
def retarget (targetInd targetInd2 : Fin n) (e0 f0 : Words n) : List (Move n) :=
  [⟨targetInd2, 1, f0⟩, ⟨targetInd, -1, Vector.ofFn fun j => -e0.get j⟩]

section
variable {targetInd : Fin n} (targetInd2 : Fin n) (X0 X1 Y0 Y1 : Words n) {e0 e1 : Words n} (f0 : Words n)
  (alpha : BitVec 64)

/-- Before the refreshes the results add up to the entry at the old target. -/
theorem start_opens (h : ∀ j : Fin n, e0.get j + e1.get j = if j = targetInd then 1 else 0) :
    partyDot (Vector.ofFn fun _ => 0) (plus e0 (plus e1 Y1)) Y0 (plus (Vector.ofFn fun j => BitVec.ofNat 64 j) X1)
        (dotProductVector X0 Y1 + alpha) +
      partyDot (Vector.ofFn fun j => BitVec.ofNat 64 j) (plus e1 (plus e0 Y0)) Y1 (plus (Vector.ofFn fun _ => 0) X0)
        (dotProductVector X1 Y0 - alpha) = BitVec.ofNat 64 targetInd := by
  refine (after_dots (Vector.ofFn fun _ => 0) (Vector.ofFn fun j => BitVec.ofNat 64 j) X0 X1 Y0 Y1 e0 e1 alpha
    []).trans ?_
  rw [(selected_entry h).2]
  exact add_zero _

/-- After them, to that at the new one. -/
theorem retarget_opens (h : ∀ j : Fin n, e0.get j + e1.get j = if j = targetInd then 1 else 0) :
    (Selection.after X0 X1 Y0 Y1 e0 e1 alpha (retarget targetInd targetInd2 e0 f0)).dot0
        (Vector.ofFn fun _ => 0) (Vector.ofFn fun j => BitVec.ofNat 64 j) X1 +
      (Selection.after X0 X1 Y0 Y1 e0 e1 alpha (retarget targetInd targetInd2 e0 f0)).dot1
        (Vector.ofFn fun _ => 0) (Vector.ofFn fun j => BitVec.ofNat 64 j) X0 = BitVec.ofNat 64 targetInd2 := by
  obtain ⟨hentry, hfirst⟩ := selected_entry h
  refine (after_dots _ _ X0 X1 Y0 Y1 e0 e1 alpha (retarget targetInd targetInd2 e0 f0)).trans ?_
  rw [hfirst, retarget, List.map_cons, List.map_cons, List.map_nil]
  show BitVec.ofNat 64 targetInd + (vectorOf (plus _ _) targetInd2 * 1 + (vectorOf (plus _ _) targetInd * -1 + 0)) = _
  rw [hentry]
  show BitVec.ofNat 64 targetInd + (BitVec.ofNat 64 targetInd2 * 1 + (BitVec.ofNat 64 targetInd * -1 + 0)) = _
  ring

theorem retarget_selection (h : ∀ j : Fin n, e0.get j + e1.get j = if j = targetInd then 1 else 0)
    (j : Fin n) :
    (Selection.after X0 X1 Y0 Y1 e0 e1 alpha (retarget targetInd targetInd2 e0 f0)).e0.get j +
      (Selection.after X0 X1 Y0 Y1 e0 e1 alpha (retarget targetInd targetInd2 e0 f0)).e1.get j =
    if j = targetInd2 then 1 else 0 := by
  calc _ = e0.get j + e1.get j + ((Pi.single targetInd2 1 : Fin n → BitVec 64) j +
        ((Pi.single targetInd (-1) : Fin n → BitVec 64) j + 0)) :=
      congrFun (after_selection X0 X1 Y0 Y1 e0 e1 alpha (retarget targetInd targetInd2 e0 f0)) j
    _ = if j = targetInd2 then 1 else 0 := by
      rw [h j, Pi.single_apply, Pi.single_apply]
      by_cases hj : j = targetInd
      · rw [if_pos hj, if_pos hj]
        ring
      · rw [if_neg hj, if_neg hj, zero_add, add_zero, add_zero]

end

/-- The code's corrections are the terms after the moves. -/
theorem retarget_terms (targetInd targetInd2 : Fin n) (X0 X1 Y0 Y1 : Words n) (e0 e1 f0 : Words n) (alpha : BitVec 64) :
    dotProductVector X0 Y1 + alpha - X0.get targetInd2 + dotProductVector X0 f0 + X0.get targetInd +
        dotProductVector X0 (Vector.ofFn fun j => -e0.get j) =
      (Selection.after X0 X1 Y0 Y1 e0 e1 alpha (retarget targetInd targetInd2 e0 f0)).term0 ∧
    dotProductVector X1 Y0 - alpha - X1.get targetInd2 + dotProductVector X1 (Move.u1 ⟨targetInd2, 1, f0⟩) +
        X1.get targetInd + dotProductVector X1 (Move.u1 ⟨targetInd, -1, Vector.ofFn fun j => -e0.get j⟩) =
      (Selection.after X0 X1 Y0 Y1 e0 e1 alpha (retarget targetInd targetInd2 e0 f0)).term1 := by
  constructor
  · show _ = dotProductVector X0 Y1 + alpha - 1 * X0.get targetInd2 + dotProductVector X0 f0 - -1 * X0.get targetInd +
      dotProductVector X0 (Vector.ofFn fun j => -e0.get j)
    ring
  · show _ = dotProductVector X1 Y0 - alpha - 1 * X1.get targetInd2 +
      dotProductVector X1 (Move.u1 ⟨targetInd2, 1, f0⟩) - -1 * X1.get targetInd +
      dotProductVector X1 (Move.u1 ⟨targetInd, -1, Vector.ofFn fun j => -e0.get j⟩)
    ring

/-- Only the target is printed. -/
theorem reconstruction_lines {t : Fin n} {e0 e1 : Words n}
    (h : ∀ j : Fin n, e0.get j + e1.get j = if j = t then 1 else 0) :
    ((List.finRange n).flatMap fun (j : Fin n) => if e0.get j + e1.get j ≠ 0 then
      ["j (reconstruction) = " ++ toString j.val] else []) = ["j (reconstruction) = " ++ toString t.val] := by
  rw [flatMap_single (List.nodup_finRange n) (List.mem_finRange t)]
  · rw [h t, if_pos rfl]
    rfl
  · intro j _ hj
    rw [h j, if_neg hj]
    rfl

/-- What is printed of the dot products. -/
def dotLines (targetInd targetInd2 : Nat) (alpha gamma0 gamma1 gamma0New gamma1New : BitVec 64) : List String :=
  ["gamma0 = " ++ decimal gamma0, "gamma1 = " ++ decimal gamma1, "dot = " ++ decimal (BitVec.ofNat 64 targetInd),
    "cancellation_term0 = " ++ decimal (gamma0 + alpha), "cancellation_term1 = " ++ decimal (gamma1 - alpha),
    decimal (gamma0New + gamma1New) ++ (" <<<>>>>> " ++ decimal (gamma0New + gamma1New)),
    "j (reconstruction) = " ++ toString targetInd2, "dot new = " ++ decimal (BitVec.ofNat 64 targetInd2),
    "gamma0_mew = " ++ decimal gamma0New, "gamma1_new = " ++ decimal gamma1New]

theorem blindedDots_run {targetInd : Fin n} (targetInd2 : Fin n) (X0 X1 Y0 Y1 : Words n) {e0 e1 : Words n} (f0 : Words n)
    (h : ∀ j : Fin n, e0.get j + e1.get j = if j = targetInd then 1 else 0) :
    ∃ alpha gamma0 gamma1 gamma0New gamma1New e',
      (blindedDots targetInd targetInd2 X0 X1 Y0 Y1 e0 e1 f0).run (during m e F L) = .ret (.ok alpha,
        during m e' F (L ++ dotLines targetInd targetInd2 alpha gamma0 gamma1 gamma0New gamma1New)) := by
  obtain ⟨alpha, halpha⟩ : ∃ alpha, alpha = (e.skip 64).word 64 := ⟨_, rfl⟩
  let s := Selection.after X0 X1 Y0 Y1 e0 e1 alpha (retarget targetInd targetInd2 e0 f0)
  obtain ⟨hf1, hneg1⟩ := two_moves targetInd2 f0 h
  have hdot := start_opens X0 X1 Y0 Y1 alpha h
  have hnew : partyDot (Vector.ofFn fun _ => 0) (plus s.e0 s.e1Tilde) s.Y0
        (plus (Vector.ofFn fun j => BitVec.ofNat 64 j) X1) s.term0 +
      partyDot (Vector.ofFn fun j => BitVec.ofNat 64 j) (plus s.e1 s.e0Tilde) s.Y1
        (plus (Vector.ofFn fun _ => 0) X0) s.term1 = BitVec.ofNat 64 targetInd2 :=
    retarget_opens targetInd2 X0 X1 Y0 Y1 f0 alpha h
  have hreconstruct := reconstruction_lines (retarget_selection targetInd2 X0 X1 Y0 Y1 f0 alpha h)
  obtain ⟨hterm0, hterm1⟩ := retarget_terms targetInd targetInd2 X0 X1 Y0 Y1 e0 e1 f0 alpha
  have hassert : s.term0 + s.term1 = dotProductVector X0 s.Y1 + dotProductVector X1 s.Y0 :=
    after_terms X0 X1 Y0 Y1 e0 e1 alpha (retarget targetInd targetInd2 e0 f0)
  -- the refreshed arrays are those after the moves
  have hr0 : refreshBlinds (refreshBlinds e0 (plus e0 Y0) Y0 f0 (Move.u1 ⟨targetInd2, 1, f0⟩)).1
      (refreshBlinds e0 (plus e0 Y0) Y0 f0 (Move.u1 ⟨targetInd2, 1, f0⟩)).2.1
      (refreshBlinds e0 (plus e0 Y0) Y0 f0 (Move.u1 ⟨targetInd2, 1, f0⟩)).2.2 (Vector.ofFn fun j => -e0.get j)
      (Move.u1 ⟨targetInd, -1, Vector.ofFn fun j => -e0.get j⟩) = (s.e0, s.e0Tilde, s.Y0) := rfl
  have hr1 : refreshBlinds (refreshBlinds e1 (plus e1 Y1) Y1 (Move.u1 ⟨targetInd2, 1, f0⟩) f0).1
      (refreshBlinds e1 (plus e1 Y1) Y1 (Move.u1 ⟨targetInd2, 1, f0⟩) f0).2.1
      (refreshBlinds e1 (plus e1 Y1) Y1 (Move.u1 ⟨targetInd2, 1, f0⟩) f0).2.2
      (Move.u1 ⟨targetInd, -1, Vector.ofFn fun j => -e0.get j⟩) (Vector.ofFn fun j => -e0.get j) =
      (s.e1, s.e1Tilde, s.Y1) := rfl
  change _ = s.term0 at hterm0
  change _ = s.term1 at hterm1
  change ((List.finRange n).flatMap fun (j : Fin n) => if s.e0.get j + s.e1.get j ≠ 0 then
    ["j (reconstruction) = " ++ toString j.val] else []) = _ at hreconstruct
  clear_value s
  refine ⟨alpha, dotProductVector X0 Y1, dotProductVector X1 Y0, dotProductVector X0 s.Y1, dotProductVector X1 s.Y0,
    (e.skip 64).skip 64, ?_⟩
  unfold blindedDots
  rw [Party.bind_of_ok randomWord_run, Party.bind_of_ok randomWord_run, ← halpha]
  dsimp only
  rw [← hf1, ← hneg1, hterm0, hterm1, hr0, hr1, hassert, hdot, hnew, hreconstruct]
  iterate 6 rw [Party.bind_of_ok (printLine_run _)]
  rw [Party.bind_of_ok (printLines_run _)]
  iterate 3 rw [Party.bind_of_ok (printLine_run _)]
  simp only [Party.pure_run, dotLines, List.append_assoc, List.cons_append, List.nil_append]

/-! Reading by the flags. -/

theorem compareLines_run {o0 o1 : Vector Block n} {t0 t1 : Vector Byte n}
    (h : ∀ j : Fin n, mmCvtsi128Si64 (o0.get j) = mmCvtsi128Si64 (o1.get j) → t0.get j = t1.get j)
    (l : List (Fin n)) : (compareLines o0 o1 t0 t1 l).run (during m e F L) =
      .ret (.ok (), during m e F (L ++ l.flatMap fun (j : Fin n) =>
      if mmCvtsi128Si64 (o0.get j) = mmCvtsi128Si64 (o1.get j) then []
      else leafLines j (o0.get j) (o1.get j) (t0.get j) (t1.get j))) := by
  induction l generalizing L with
  | nil =>
    rw [List.flatMap_nil, List.append_nil]
    rfl
  | cons j js ih =>
    rw [List.flatMap_cons, compareLines]
    by_cases hj : mmCvtsi128Si64 (o0.get j) = mmCvtsi128Si64 (o1.get j)
    · rw [if_neg (not_not.mpr hj), if_neg (not_not.mpr (h j hj)), if_pos hj, List.nil_append]
      exact ih
    · rw [if_pos hj, if_neg hj, Party.bind_of_ok (printLines_run _), ih, List.append_assoc]

/-- The machine can hold all arrays of `2^logNitems` items. -/
structure Ready (m : Machine) (logNitems : Nat) : Prop where
  size : logNitems < 59
  words : m.room (2^logNitems * 8) = true
  leaves : m.room (2^logNitems * 16) = true
  flags : m.room (2^logNitems * 1) = true

/-- The low halves XOR to the low half. -/
theorem low_xor {a b : Block} {hi lo : BitVec 64} (h : a ^^^ b = mmSetEpi64x hi lo) :
    mmCvtsi128Si64 a ^^^ mmCvtsi128Si64 b = lo := by
  rw [mmCvtsi128Si64, mmCvtsi128Si64, ← BitVec.extractLsb'_xor, h]
  exact Halves.lo_join hi lo

/-- Keys for 5 have their leaves and flags printed there and nowhere else: off it the low halves agree, and
    the flags do as well. -/
theorem compareLines_keys (h5 : 5 < n) {out0 out1 : Vector Block n} {t0 t1 : Vector Byte n}
    (hleaf : ∀ j : Fin n, out0.get j ^^^ out1.get j = if j.val = 5 then mmSetEpi64x 100 500 else 0)
    (hflag : ∀ j : Fin n, t0.get j ^^^ t1.get j = if j.val = 5 then 1 else 0) :
    (compareLines out0 out1 t0 t1 (List.finRange n)).run (during m e F L) = .ret (.ok (), during m e F (L ++
      leafLines 5 (out0.get ⟨5, h5⟩) (out1.get ⟨5, h5⟩) (t0.get ⟨5, h5⟩) (t1.get ⟨5, h5⟩))) := by
  have hlow : ∀ j : Fin n, mmCvtsi128Si64 (out0.get j) = mmCvtsi128Si64 (out1.get j) ↔ j ≠ ⟨5, h5⟩ := by
    intro j
    have hj := hleaf j
    by_cases hfive : j = ⟨5, h5⟩
    · rw [if_pos (congrArg Fin.val hfive)] at hj
      have hxor := low_xor hj
      refine ⟨fun heq => ?_, fun hne => absurd hfive hne⟩
      rw [heq, BitVec.xor_self] at hxor
      exact absurd hxor (by decide)
    · rw [if_neg fun h => hfive (Fin.ext h)] at hj
      exact ⟨fun _ => hfive, fun _ => congrArg mmCvtsi128Si64 (BitVec.xor_eq_zero_iff.mp hj)⟩
  have hsame : ∀ j : Fin n, mmCvtsi128Si64 (out0.get j) = mmCvtsi128Si64 (out1.get j) → t0.get j = t1.get j := by
    intro j hj
    have hxor := hflag j
    rw [if_neg fun h => (hlow j).mp hj (Fin.ext h)] at hxor
    exact BitVec.xor_eq_zero_iff.mp hxor
  rw [compareLines_run hsame, flatMap_single (List.nodup_finRange n) (List.mem_finRange ⟨5, h5⟩)]
  · rw [if_neg fun h => (hlow ⟨5, h5⟩).mp h rfl]
  · intro j _ hj
    exact if_pos ((hlow j).mpr hj)

/-- What the read draws, its two results, and the leaves and flags at the target. -/
structure Reading where
  alpha0 : BitVec 64
  targetInd0 : BitVec 64
  proof0 : BitVec 64
  proof1 : BitVec 64
  x0 : Block
  x1 : Block
  leaf0 : Block
  leaf1 : Block
  flag0 : Byte
  flag1 : Byte

/-- The item that is read: the target behind the offset. -/
def Reading.item (r : Reading) (alpha : BitVec 64) (nitems : Nat) : Nat :=
  (5 + ((r.alpha0 - r.targetInd0) - ((alpha - r.alpha0) - (5 - r.targetInd0)))).toNat % nitems

/-- The block at that item. -/
def Reading.block (r : Reading) (alpha : BitVec 64) (nitems : Nat) : Block :=
  mmSetEpi64x (200 * BitVec.ofNat 64 (r.item alpha nitems)) (100 * BitVec.ofNat 64 (r.item alpha nitems))

/-- The results are shares of the block, the leaves are shares of the value, and the flags differ. -/
structure Reading.Right (r : Reading) (alpha : BitVec 64) (nitems : Nat) : Prop where
  x : r.x0 ^^^ r.x1 = r.block alpha nitems
  leaf : r.leaf0 ^^^ r.leaf1 = mmSetEpi64x 100 500
  flag : r.flag0 ^^^ r.flag1 = 1

/-- What the read prints. -/
def Reading.lines (r : Reading) (clock : Clock) (alpha : BitVec 64) (nitems : Nat) : List String :=
  ["nitems = " ++ toString nitems, timeLine "P2 time" clock.p2, "nodes_per_leaf = 1",
    timeLine "P0 time (preprocessing)" clock.p0Preproc, timeLine "P0 time" clock.p0,
    timeLine "P0 time (online)" clock.p0Online, timeLine "P0 time (total)" clock.p0, "nodes_per_leaf = 1",
    halvesLine "x" (r.block alpha nitems), halvesLine "check_proof0" (r.x0 ^^^ mmSetEpi64x 0 r.proof0),
    halvesLine "check_proof1" (r.x1 ^^^ mmSetEpi64x 0 r.proof1)] ++
  leafLines 5 r.leaf0 r.leaf1 r.flag0 r.flag1 ++ [timeLine "P1 time" clock.p1]

theorem keys_eval {aes : AesKey → Block → Block} {k : Nat} {val : Leaf .m128i} {k0 k1 : DpfKey .m128i}
    (hkeys : PointKeys aes (2^k) 5 val k0 k1) :
    (∀ e L old, (evalOutput aes k0 old).run (during m e F L) = .ret (.ok (keyLeaves aes k0 (2^k),
      keyFlags aes k0 (2^k)), during m e F (L ++ ["nodes_per_leaf = 1"]))) ∧
    (∀ e L old, (evalOutput aes k1 old).run (during m e F L) = .ret (.ok (keyLeaves aes k1 (2^k),
      keyFlags aes k1 (2^k)), during m e F (L ++ ["nodes_per_leaf = 1"]))) :=
  ⟨fun _ _ => evalOutput_run aes rfl hkeys.nitems0 (hkeys.cw0.trans (depth_two_pow rfl k)),
    fun _ _ => evalOutput_run aes rfl hkeys.nitems1 (hkeys.cw1.trans (depth_two_pow rfl k))⟩

theorem readByFlags_run (aes : AesKey → Block → Block) (clock : Clock) {k : Nat} (h5 : 5 < 2^k) (hm : Ready m k)
    {k0 k1 : DpfKey .m128i} (hkeys : PointKeys (τ := .m128i) aes (2^k) 5 (mmSetEpi64x 100 500) k0 k1)
    (alpha : BitVec 64) (o0 o1 : OutputArrays .m128i (2^k)) : ∃ (r : Reading) (e' : Entropy), r.Right alpha (2^k) ∧
      r.flag0 = (keyFlags aes k0 (2^k))[5] ∧ r.flag1 = (keyFlags aes k1 (2^k))[5] ∧
      (readByFlags aes clock 5 alpha k0 k1 o0 o1).run (during m e F L) =
        .ret (.ok (), during m e' F (L ++ r.lines clock alpha (2^k))) := by
  have hmax : 2^k * 16 < 2^63 := by
    have hsize := hm.size
    have hpow : 2^k ≤ 2^58 := Nat.pow_le_pow_right (by decide) (by omega)
    omega
  have harrays : ∀ {e L} c, (newArrays (2^k) 16 c).run (during m e F L) = .ret (.ok (), during m e F L) :=
    newArrays_run hmax hm.leaves
  have hleaf : ∀ j : Fin (2^k), (keyLeaves aes k0 (2^k)).get j ^^^ (keyLeaves aes k1 (2^k)).get j =
      if j.val = 5 then mmSetEpi64x 100 500 else 0 := fun j => hkeys.leaves_xor j.isLt
  have hflag : ∀ j : Fin (2^k), (keyFlags aes k0 (2^k)).get j ^^^ (keyFlags aes k1 (2^k)).get j =
      if j.val = 5 then 1 else 0 := fun j => hkeys.flags_xor h5 j.isLt
  have hread := fun proofdb offset => hkeys.flagProduct_xor rfl h5 proofdb offset
  obtain ⟨heval0, heval1⟩ := keys_eval (m := m) (F := F) hkeys
  generalize keyLeaves aes k0 (2^k) = out0 at hleaf heval0
  generalize keyLeaves aes k1 (2^k) = out1 at hleaf heval1
  generalize keyFlags aes k0 (2^k) = t0 at hflag heval0 hread
  generalize keyFlags aes k1 (2^k) = t1 at hflag heval1 hread
  let five : Fin (2^k) := ⟨5, h5⟩
  obtain ⟨alpha0, halpha0⟩ : ∃ alpha0, alpha0 = e.word 64 := ⟨_, rfl⟩
  obtain ⟨proof0, hproof0⟩ : ∃ proof0, proof0 = (e.skip 64).word 64 := ⟨_, rfl⟩
  obtain ⟨proof1, hproof1⟩ : ∃ proof1, proof1 = ((e.skip 64).skip 64).word 64 := ⟨_, rfl⟩
  obtain ⟨targetInd0, htarget0⟩ : ∃ targetInd0, targetInd0 = (((e.skip 64).skip 64).skip 64).word 64 := ⟨_, rfl⟩
  let proofdb : Vector Block (2^k) :=
    Vector.ofFn fun j => mmSetEpi64x (200 * BitVec.ofNat 64 j) (100 * BitVec.ofNat 64 j)
  let offset := (alpha0 - targetInd0) - ((alpha - alpha0) - (5 - targetInd0))
  let r : Reading := ⟨alpha0, targetInd0, proof0, proof1, flagProduct proofdb t0 offset, flagProduct proofdb t1 offset,
    out0.get five, out1.get five, t0.get five, t1.get five⟩
  have hx : flagProduct proofdb t0 offset ^^^ flagProduct proofdb t1 offset = r.block alpha (2^k) :=
    (hread proofdb offset).trans (Vector.getElem_ofFn _)
  refine ⟨r, (((e.skip 64).skip 64).skip 64).skip 64, ⟨hx, (hleaf five).trans (if_pos rfl),
    (hflag five).trans (if_pos rfl)⟩, rfl, rfl, ?_⟩
  unfold readByFlags
  rw [Party.bind_of_ok (harrays _), Party.bind_of_ok (printLine_run _), Party.bind_of_ok randomWord_run,
    Party.bind_of_ok (printLine_run _), Party.bind_of_ok (harrays _), ← halpha0]
  iterate 3 rw [Party.bind_of_ok randomWord_run]
  rw [← hproof0, ← hproof1, ← htarget0, Party.bind_of_ok (heval0 _ _ _)]
  dsimp only
  iterate 4 rw [Party.bind_of_ok (printLine_run _)]
  rw [Party.bind_of_ok (heval1 _ _ _)]
  dsimp only
  iterate 3 rw [Party.bind_of_ok (printLine_run _)]
  rw [Party.bind_of_ok (compareLines_keys h5 hleaf hflag), printLine_run]
  simp only [Reading.lines, ← hx, List.append_assoc, List.cons_append, List.nil_append]
  rfl

/-! The keys. -/

theorem genKeys_unused {β : Type} (aes : AesKey → Block → Block) (prgkey : AesKey) {nitems target : Nat}
    (htarget : target < nitems) (val : Leaf .m128i) (f : Local β) :
    (genKeys aes prgkey nitems target val >>= fun _ => f).run (during m e F L) =
      f.run (during m (e.advance 32) F (L ++ ["default_make_finalizer"])) := by
  obtain ⟨k0, k1, -, hrun⟩ := genKeys_run (m := m) (e := e) (F := F) (L := L) aes prgkey htarget val
  rw [Party.bind_of_ok hrun]

theorem genAll_run (aes : AesKey → Block → Block) (prgkey : AesKey) {nitems : Nat} (h : 534 < nitems)
    (val : Leaf .m128i) : ∃ k0 k1 e', PointKeys aes nitems 5 val k0 k1 ∧
      (genAll aes prgkey nitems val).run (during m e F L) =
        .ret (.ok (k0, k1), during m e' F (L ++ List.replicate 7 "default_make_finalizer")) := by
  have h5 : 5 < nitems := by omega
  obtain ⟨k0, k1, hkeys, hrun⟩ := genKeys_run (m := m) (e := e) (F := F) (L := L) aes prgkey h5 val
  refine ⟨k0, k1, (fun e : Entropy => e.advance 32)^[7] e, hkeys, ?_⟩
  rw [genAll, Party.bind_of_ok hrun, genKeys_unused aes prgkey h5,
    genKeys_unused aes prgkey h5, genKeys_unused aes prgkey h, genKeys_unused aes prgkey h,
    genKeys_unused aes prgkey h, genKeys_unused aes prgkey h, Party.pure_run]
  simp only [List.append_assoc]
  rfl

/-- Too few items for one of the two targets. -/
theorem genAll_refused (aes : AesKey → Block → Block) (prgkey : AesKey) {nitems : Nat} (h : nitems ≤ 534)
    (val : Leaf .m128i) : ∃ e', (genAll aes prgkey nitems val).run (during m e F L) =
      .ret (.error (.runtimeError "target point out of range"),
        during m e' F (L ++ List.replicate (if nitems ≤ 5 then 0 else 3) "default_make_finalizer")) := by
  by_cases h5 : nitems ≤ 5
  · refine ⟨e, ?_⟩
    rw [genAll, Party.bind_of_error (genKeys_refused aes prgkey h5 _ _), if_pos h5,
      List.replicate_zero, List.append_nil]
  · obtain ⟨k0, k1, -, hrun⟩ := genKeys_run (m := m) (e := e) (F := F) (L := L) aes prgkey (Nat.lt_of_not_le h5) val
    refine ⟨(fun e : Entropy => e.advance 32)^[3] e, ?_⟩
    rw [genAll, Party.bind_of_ok hrun, genKeys_unused aes prgkey (by omega),
      genKeys_unused aes prgkey (by omega), Party.bind_of_error (genKeys_refused aes prgkey h _ _), if_neg h5]
    simp only [List.append_assoc]
    rfl

/-! The program. -/

/-- What is printed of the flags `s` and `t` at the target. -/
theorem flagLines_differ {s t : Byte} {x y : BitVec 64} (h : s ≠ t) (hsum : x + y = 1) : flagLines 5 x y s t =
    ["j = 5 -> 1 ----? " ++ (toString s.toNat ++ (" " ++ toString t.toNat)), ""] := by
  have hclosed : "j = " ++ (toString 5 ++ (" -> " ++ (decimal 1 ++ " ----? "))) = "j = 5 -> 1 ----? " := by rfl
  rw [flagLines, if_pos h, hsum, ← hclosed]
  simp only [String.append_assoc]

/-- The flags of the keys make a selection of the target, and differ there only. -/
theorem keys_selection {aes : AesKey → Block → Block} {val : Leaf .m128i} {k0 k1 : DpfKey .m128i} (h5 : 5 < n)
    (hkeys : PointKeys aes n 5 val k0 k1) {t0 t1 : Vector Byte n} (h0 : keyFlags aes k0 n = t0)
    (h1 : keyFlags aes k1 n = t1) :
    (∀ j : Fin n, (selection0 5 t0 t1).get j + (selection1 5 t0 t1).get j = if j = ⟨5, h5⟩ then 1 else 0) ∧
    ((List.finRange n).flatMap fun (j : Fin n) =>
        flagLines j ((selection0 5 t0 t1).get j) ((selection1 5 t0 t1).get j) (t0.get j) (t1.get j)) =
      ["j = 5 -> 1 ----? " ++ (toString t0[5].toNat ++ (" " ++ toString t1[5].toNat)), ""] := by
  have hflag : ∀ j : Fin n, t0.get j ^^^ t1.get j = if j.val = 5 then 1 else 0 := by
    intro j
    rw [← h0, ← h1]
    exact hkeys.flags_xor h5 j.isLt
  have hdiffer : ∀ j : Fin n, t0.get j = t1.get j ↔ j.val ≠ 5 := by
    intro j
    rw [← BitVec.xor_eq_zero_iff, hflag j]
    by_cases hj : j.val = 5
    · rw [if_pos hj]
      exact ⟨fun h => absurd h (by decide), fun h => absurd hj h⟩
    · rw [if_neg hj]
      exact ⟨fun _ => hj, fun _ => rfl⟩
  have hsum : ∀ j : Fin n, (selection0 5 t0 t1).get j + (selection1 5 t0 t1).get j =
      if j = ⟨5, h5⟩ then 1 else 0 := by
    intro j
    obtain ⟨c, hc⟩ : ∃ c, t0.get j = flagOf c := h0 ▸ keyFlags_flag k0 j.isLt
    obtain ⟨d, hd⟩ : ∃ d, t1.get j = flagOf d := h1 ▸ keyFlags_flag k1 j.isLt
    have hcd : c = d ↔ decide (j.val = 5) = false := by
      rw [decide_eq_false_iff_not, ← ne_eq, ← hdiffer j, hc, hd]
      cases c <;> cases d <;> decide
    have hadd := selectionShares_add hc hd (decide (j.val = 5)) hcd
    rw [show (selection0 5 t0 t1).get j = _ from Vector.getElem_ofFn _,
      show (selection1 5 t0 t1).get j = _ from Vector.getElem_ofFn _]
    refine hadd.trans (if_congr ?_ rfl rfl)
    rw [decide_eq_true_iff]
    exact ⟨fun h => Fin.ext h, fun h => congrArg Fin.val h⟩
  refine ⟨hsum, ?_⟩
  rw [flatMap_single (List.nodup_finRange n) (List.mem_finRange ⟨5, h5⟩)]
  · exact flagLines_differ (fun h => (hdiffer ⟨5, h5⟩).mp h rfl) ((hsum ⟨5, h5⟩).trans (if_pos rfl))
  · intro j _ hj
    exact if_neg (not_not.mpr ((hdiffer j).mpr fun h => hj (Fin.ext h)))

/-- What the program prints. -/
def demoLines (clock : Clock) (nitems : Nat) (alpha gamma0 gamma1 gamma0New gamma1New : BitVec 64) (r : Reading) :
    List String :=
  List.replicate 7 "default_make_finalizer" ++ ["nodes_per_leaf = 1", "nodes_per_leaf = 1",
    "j = 5 -> 1 ----? " ++ (toString r.flag0.toNat ++ (" " ++ toString r.flag1.toNat)), ""] ++
  dotLines 5 5 alpha gamma0 gamma1 gamma0New gamma1New ++ r.lines clock alpha nitems

theorem withBlinds_run (aes : AesKey → Block → Block) (clock : Clock) {k : Nat} (h534 : 534 < 2^k) (hm : Ready m k)
    (X0 X1 Y0 Y1 : Words (2^k)) : ∃ alpha gamma0 gamma1 gamma0New gamma1New r e', r.Right alpha (2^k) ∧
      (withBlinds aes clock X0 X1 Y0 Y1).run (during m e F L) = .ret (.ok 0,
        during m e' F (L ++ demoLines clock (2^k) alpha gamma0 gamma1 gamma0New gamma1New r)) := by
  have h5 : 5 < 2^k := by omega
  obtain ⟨k0, k1, e1, hkeys, hgen⟩ := genAll_run (m := m) (e := e) (F := F) (L := L) aes
    ((during m e F L).newKey "prgkey") h534 (mmSetEpi64x 100 500)
  obtain ⟨heval0, heval1⟩ := keys_eval (m := m) (F := F) hkeys
  obtain ⟨hsel, hlines⟩ := keys_selection h5 hkeys rfl rfl
  let L1 := L ++ List.replicate 7 "default_make_finalizer" ++ ["nodes_per_leaf = 1"] ++ ["nodes_per_leaf = 1"] ++
    ["j = 5 -> 1 ----? " ++ (toString (keyFlags aes k0 (2^k))[5].toNat ++ (" " ++
      toString (keyFlags aes k1 (2^k))[5].toNat)), ""]
  obtain ⟨alpha, gamma0, gamma1, gamma0New, gamma1New, e2, hdots⟩ := blindedDots_run (m := m) (e := e1) (F := F)
    (L := L1) ⟨5, h5⟩ X0 X1 Y0 Y1 (unsetWords (during m e F L) "f0" (2^k)) hsel
  obtain ⟨r, e3, hright, hflag0, hflag1, hread⟩ := readByFlags_run (m := m) (e := e2) (F := F)
    (L := L1 ++ dotLines 5 5 alpha gamma0 gamma1 gamma0New gamma1New) aes clock h5 hm hkeys alpha
    (keyLeaves aes k0 (2^k), keyFlags aes k0 (2^k)) (keyLeaves aes k1 (2^k), keyFlags aes k1 (2^k))
  refine ⟨alpha, gamma0, gamma1, gamma0New, gamma1New, r, e3, hright, ?_⟩
  rw [withBlinds, Party.bind_of_ok (Party.get_run _), Party.bind_of_ok hgen, Party.bind_of_ok (heval0 _ _ _)]
  dsimp only
  rw [Party.bind_of_ok (heval1 _ _ _)]
  dsimp only
  rw [hlines, Party.bind_of_ok (printLines_run _), dif_pos h5, Party.bind_of_ok hdots, Party.bind_of_ok hread,
    Party.pure_run, demoLines, hflag0, hflag1]
  simp only [L1, List.append_assoc, List.cons_append, List.nil_append]

/-- The arrays can be had. -/
theorem main_start (aes : AesKey → Block → Block) (clock : Clock) {k : Nat} (hm : Ready m k) :
    ∃ (X0 X1 Y0 Y1 : Words (2^k)) (e' : Entropy),
      (main aes clock k).run m = (withBlinds aes clock X0 X1 Y0 Y1).run (during m e' m.files m.out) := by
  have hsize := hm.size
  have hpow : 2^k ≤ 2^58 := Nat.pow_le_pow_right (by decide) (by omega)
  have hwords : ∀ {e F L}, (newArrays (2^k) 8 18).run (during m e F L) = .ret (.ok (), during m e F L) :=
    newArrays_run (by omega) hm.words 18
  have hleaves : ∀ {e F L}, (newArrays (2^k) 16 2).run (during m e F L) = .ret (.ok (), during m e F L) :=
    newArrays_run (by omega) hm.leaves 2
  have hflags : ∀ {e F L}, (newArrays (2^k) 1 2).run (during m e F L) = .ret (.ok (), during m e F L) :=
    newArrays_run (by omega) hm.flags 2
  obtain ⟨X0, X1, Y0, Y1, e', hdraw⟩ := drawBlinds_run (m := m) (e := m.entropy) (F := m.files) (L := m.out) (2^k)
  refine ⟨X0, X1, Y0, Y1, e', ?_⟩
  show (main aes clock k).run (during m m.entropy m.files m.out) = _
  rw [main, if_neg (by omega), Party.bind_of_ok hwords, Party.bind_of_ok hdraw]
  dsimp only
  rw [Party.bind_of_ok hleaves, Party.bind_of_ok hflags]

/-- The program on a machine that has the room, whatever it draws, its memory holds and its clock shows. With 534
    items or fewer a target is out of range: nothing but the keys made until then is printed. From there on
    the program ends well. It prints that both openings give entry 5, that the terms are what the moved
    blinds need and that 5 is the one selected item; that the flags differ at 5, where alone the leaves
    differ, and of the public database it prints the block of the item behind the offset. The assertion
    holds, and no file changes. -/
theorem demo_prints (aes : AesKey → Block → Block) (clock : Clock) {k : Nat} (hm : Ready m k) :
    (2^k ≤ 534 → ∃ e', (main aes clock k).run m = .ret (.error (.runtimeError "target point out of range"),
      during m e' m.files (m.out ++ List.replicate (if 2^k ≤ 5 then 0 else 3) "default_make_finalizer"))) ∧
    (534 < 2^k → ∃ alpha gamma0 gamma1 gamma0New gamma1New r e', r.Right alpha (2^k) ∧
      (main aes clock k).run m = .ret (.ok 0,
        during m e' m.files (m.out ++ demoLines clock (2^k) alpha gamma0 gamma1 gamma0New gamma1New r))) := by
  obtain ⟨X0, X1, Y0, Y1, e, hstart⟩ := main_start aes clock hm
  rw [hstart]
  constructor
  · intro h534
    obtain ⟨e', hrefused⟩ := genAll_refused (m := m) (e := e) (F := m.files) (L := m.out) aes
      ((during m e m.files m.out).newKey "prgkey") h534 (mmSetEpi64x 100 500)
    refine ⟨e', ?_⟩
    rw [withBlinds, Party.bind_of_ok (Party.get_run _), Party.bind_of_error hrefused]
  · exact fun h534 => withBlinds_run aes clock h534 hm X0 X1 Y0 Y1

end

/-- With `2^10` items. -/
theorem demo_prints_ten : ∃ alpha gamma0 gamma1 gamma0New gamma1New r e', r.Right alpha (2^10) ∧
    (main (fun _ b => b) ⟨"0", "0", "0", "0", "0"⟩ 10).run (.zeros []) = .ret (.ok 0, during (.zeros []) e'
      (fun _ => some []) (demoLines ⟨"0", "0", "0", "0", "0"⟩ (2^10) alpha gamma0 gamma1 gamma0New gamma1New r)) :=
  (demo_prints (fun _ b => b) ⟨"0", "0", "0", "0", "0"⟩ ⟨by decide, rfl, rfl, rfl⟩).2 (by decide)

end DpfMain

end Mpc
