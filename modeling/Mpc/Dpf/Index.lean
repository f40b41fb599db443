import Mpc.Dpf.Gen
import Mpc.Lib.Loop

/- The index arithmetic of `gen`, `make_finalizer` and `eval` (dpf.hpp) on size_t, where
   a difference wraps around and a shift by 64 or more, a division by zero and a
   remainder by zero are undefined (`none`). The path's bits are shifted out of the
   item's number: the two rounded logarithms differ by the bits of a lane, so no shift
   amount underflows and the bits spell the node's number. `make_finalizer` takes the
   target modulo `16 / sizeof(leaf_t)` whether or not it uses the lane, and that is 0 for
   leaves of several blocks (`indexExact_iff`). -/
namespace Mpc
open LE Loop

/-! Operations on size_t. -/

def sizeSub (a b : Nat) : Nat := (a + 2^64 - b) % 2^64

def sizeDiv (a b : Nat) : Option Nat := if b = 0 then none else some (a / b)

def sizeMod (a b : Nat) : Option Nat := if b = 0 then none else some (a % b)

def sizeShr (a k : Nat) : Option Nat := if k < 64 then some (a >>> k) else none

theorem sizeSub_eq {a b : Nat} (ha : a < 2^64) (hb : b ≤ a) : sizeSub a b = a - b := by
  rw [sizeSub]
  omega

/-! The indices. -/

namespace LeafT
variable (τ : LeafT)

def sizeLeavesPerNode : Option Nat := if τ.isPacked then sizeDiv 128 τ.bitsPerLeaf else some 1

/-- `depth`, which divides by the leaves of a node. -/
def sizeDepth (nitems : Nat) : Option Nat := do
  let leavesPerNode ← τ.sizeLeavesPerNode
  if leavesPerNode = 0 then none else some (Nat.clog 2 (nitems ⌈/⌉ leavesPerNode))

end LeafT

/-- `(input >> (nbits - layer - 1)) & 1`. -/
def sizeBit (nbits layer input : Nat) : Option Nat :=
  (sizeShr input (sizeSub (sizeSub nbits layer) 1)).map (· % 2)

/-- The bits the loop over the layers reads, in order. -/
def pathBits (nbits input depth : Nat) : Option (List Nat) :=
  forUp (fun layer bits => (sizeBit nbits layer input).map fun bit => bits ++ [bit]) depth []

/-- `lane_in_vector` of `make_finalizer`. -/
def laneInVector (τ : LeafT) (target : Nat) : Option Nat := do
  let elementsPerVector ← if τ = .m128i then some 1 else sizeDiv 16 τ.sizeof
  sizeMod target elementsPerVector

/-- The path and the lane of `gen`. -/
def genIndex (τ : LeafT) (nitems target : Nat) : Option (List Nat × Nat) := do
  let depth ← τ.sizeDepth nitems
  let bits ← pathBits (inputBits nitems) target depth
  let lane ← laneInVector τ target
  return (bits, lane)

/-- The lane of `eval`; a leaf that fills its node has none. -/
def evalLane (τ : LeafT) (input : Nat) : Option Nat :=
  if τ.isPacked then τ.sizeLeavesPerNode.bind (sizeMod input) else some 0

/-- The path and the lane of `eval`. -/
def evalIndex (τ : LeafT) (nitems input : Nat) : Option (List Nat × Nat) := do
  let depth ← τ.sizeDepth nitems
  let bits ← pathBits (inputBits nitems) input depth
  let lane ← evalLane τ input
  return (bits, lane)

/-! Sizes. -/

namespace LeafT
variable (τ : LeafT)

theorem sizeLeavesPerNode_eq : τ.sizeLeavesPerNode = some τ.leavesPerNode := by
  cases τ with
  | array N hN =>
    have hpacked : (LeafT.array N hN).isPacked = false := decide_eq_false (by simp only [sizeof]; omega)
    rw [sizeLeavesPerNode, hpacked, leavesPerNode_array]
    rfl
  | _ => rfl

theorem sizeDepth_eq (nitems : Nat) : τ.sizeDepth nitems = some (τ.depth nitems) := by
  rw [sizeDepth, sizeLeavesPerNode_eq, Option.bind_eq_bind, Option.bind_some,
    if_neg τ.leavesPerNode_pos.ne']
  rfl

theorem depth_le_inputBits (nitems : Nat) : τ.depth nitems ≤ inputBits nitems := by
  rw [depth_eq]
  omega

end LeafT

theorem inputBits_le {nitems : Nat} (hn : nitems < 2^64) : inputBits nitems ≤ 64 :=
  (Nat.clog_le_iff_le_pow (by decide)).mpr hn.le

/-- No shift amount of a path underflows or reaches the width of size_t. -/
theorem shift_bounds (τ : LeafT) {nitems layer : Nat} (hn : nitems < 2^64)
    (hl : layer < τ.depth nitems) :
    layer + 1 ≤ inputBits nitems ∧ inputBits nitems - layer - 1 < 64 := by
  have hle := τ.depth_le_inputBits nitems
  have hbits := inputBits_le hn
  omega

theorem sizeBit_eq (τ : LeafT) {nitems layer : Nat} (hn : nitems < 2^64)
    (hl : layer < τ.depth nitems) (x : Nat) :
    sizeBit (inputBits nitems) layer x = some (inputBit (inputBits nitems) layer x) := by
  obtain ⟨hge, hlt⟩ := shift_bounds τ hn hl
  have hbits := inputBits_le hn
  rw [sizeBit, sizeSub_eq (a := inputBits nitems) (b := layer) (by omega) (by omega),
    sizeSub_eq (by omega) (by omega), sizeShr, if_pos hlt]
  rfl

/-- The path is defined, and it is the one of `gen`'s and `eval`'s loops. -/
theorem pathBits_eq (τ : LeafT) {nitems : Nat} (hn : nitems < 2^64) (x : Nat) :
    pathBits (inputBits nitems) x (τ.depth nitems) =
      some ((List.range (τ.depth nitems)).map fun layer => inputBit (inputBits nitems) layer x) := by
  obtain ⟨bits, hrun, hbits⟩ := forUp_spec
    (f := fun layer bits => (sizeBit (inputBits nitems) layer x).map fun bit => bits ++ [bit])
    (fun k bits => bits = (List.range k).map fun layer => inputBit (inputBits nitems) layer x)
    (n := τ.depth nitems) (s := []) rfl fun layer bits hl hbits => by
      refine ⟨bits ++ [inputBit (inputBits nitems) layer x], ?_, ?_⟩
      · rw [sizeBit_eq τ hn hl, Option.map_some]
      · rw [hbits, List.range_succ, List.map_append]
        rfl
  rw [pathBits, hrun, hbits]

/-! The number that the bits spell. -/

/-- The number with the given bits, most significant first. -/
def spelled (bits : List Nat) : Nat := bits.foldl (fun acc bit => 2 * acc + bit) 0

theorem spelled_range (y d k : Nat) (hk : k ≤ d) (hy : y < 2^d) :
    spelled ((List.range k).map fun l => y / 2^(d - l - 1) % 2) = y / 2^(d - k) := by
  induction k with
  | zero => exact (Nat.div_eq_of_lt hy).symm
  | succ k ih =>
    have hd : d - k = d - k - 1 + 1 := by omega
    have hstep : y / 2^(d - k) = y / 2^(d - k - 1) / 2 := by
      calc y / 2^(d - k) = y / 2^(d - k - 1 + 1) := by rw [← hd]
        _ = y / 2^(d - k - 1) / 2 := by rw [Nat.pow_succ, Nat.div_div_eq_div_mul]
    rw [List.range_succ, List.map_append, spelled, List.foldl_append]
    have ih := ih (by omega)
    rw [spelled] at ih
    rw [ih, hstep, List.map_cons, List.map_nil, List.foldl_cons, List.foldl_nil]
    exact Nat.div_add_mod _ 2

/-- The path spells the number of the item's node. -/
theorem spelled_path (τ : LeafT) {nitems x : Nat} (hx : x < nitems) :
    spelled ((List.range (τ.depth nitems)).map fun layer => inputBit (inputBits nitems) layer x) =
      x / τ.leavesPerNode := by
  have hnode : x / τ.leavesPerNode < 2^τ.depth nitems :=
    (τ.div_lt_nodes hx).trans_le (τ.nodes_le_two_pow nitems)
  calc spelled ((List.range (τ.depth nitems)).map fun layer => inputBit (inputBits nitems) layer x)
      = spelled ((List.range (τ.depth nitems)).map fun layer =>
          x / τ.leavesPerNode / 2^(τ.depth nitems - layer - 1) % 2) := by
        congr 1
        refine List.map_congr_left fun layer hl => ?_
        exact inputBit_eq τ (List.mem_range.mp hl) x
    _ = x / τ.leavesPerNode := by
        rw [spelled_range _ _ _ (Nat.le_refl _) hnode, Nat.sub_self, Nat.pow_zero, Nat.div_one]

/-! The lane. -/

/-- Up to the size of a block the lane is the item's place in its node. -/
theorem laneInVector_eq {τ : LeafT} (h : τ.sizeof ≤ 16) (x : Nat) :
    laneInVector τ x = some (x % τ.leavesPerNode) := by
  cases τ with
  | array N hN =>
    obtain rfl : N = 1 := by
      simp only [LeafT.sizeof] at h
      omega
    have hne : LeafT.array 1 hN ≠ .m128i := by
      intro heq
      cases heq
    have hdiv : sizeDiv 16 (LeafT.array 1 hN).sizeof = some 1 := by simp [sizeDiv, LeafT.sizeof]
    rw [laneInVector, if_neg hne, LeafT.leavesPerNode_array, hdiv]
    rfl
  | _ => rfl

theorem evalLane_eq (τ : LeafT) (x : Nat) : evalLane τ x = some (x % τ.leavesPerNode) := by
  by_cases hp : τ.isPacked = true
  · rw [evalLane, if_pos hp, τ.sizeLeavesPerNode_eq, Option.bind_some, sizeMod,
      if_neg τ.leavesPerNode_pos.ne']
  · rw [evalLane, if_neg hp, τ.leavesPerNode_eq_one (Bool.eq_false_iff.mpr hp), Nat.mod_one]

/-- A leaf of several blocks makes the modulus zero. -/
theorem laneInVector_none {τ : LeafT} (h : 16 < τ.sizeof) (x : Nat) : laneInVector τ x = none := by
  have hdiv : 16 / τ.sizeof = 0 := Nat.div_eq_of_lt h
  have hne : τ ≠ .m128i := by
    intro heq
    rw [heq] at h
    exact absurd h (by decide)
  rw [laneInVector, if_neg hne, sizeDiv, if_neg (by omega), hdiv]
  rfl

/-! Exactness. -/

/-- An index computation is defined, its path spells the node of `x` and its lane is the
    place of `x` in the node. -/
def Selects (τ : LeafT) (nitems x : Nat) (index : Option (List Nat × Nat)) : Prop :=
  ∃ bits lane, index = some (bits, lane) ∧ bits.length = τ.depth nitems ∧
    spelled bits = x / τ.leavesPerNode ∧ lane = x % τ.leavesPerNode

structure IndexExact (τ : LeafT) (nitems x : Nat) : Prop where
  shift : ∀ layer < τ.depth nitems,
    layer + 1 ≤ inputBits nitems ∧ inputBits nitems - layer - 1 < 64
  gen : Selects τ nitems x (genIndex τ nitems x)
  eval : Selects τ nitems x (evalIndex τ nitems x)

theorem evalIndex_selects (τ : LeafT) {nitems x : Nat} (hx : x < nitems) (hn : nitems < 2^64) :
    Selects τ nitems x (evalIndex τ nitems x) := by
  refine ⟨_, _, ?_, ?_, spelled_path τ hx, rfl⟩
  · rw [evalIndex, τ.sizeDepth_eq]
    simp only [Option.bind_eq_bind, Option.bind_some, pathBits_eq τ hn, evalLane_eq]
    rfl
  · rw [List.length_map, List.length_range]

theorem genIndex_selects {τ : LeafT} {nitems x : Nat} (hx : x < nitems) (hn : nitems < 2^64)
    (h : τ.sizeof ≤ 16) : Selects τ nitems x (genIndex τ nitems x) := by
  refine ⟨_, _, ?_, ?_, spelled_path τ hx, rfl⟩
  · rw [genIndex, τ.sizeDepth_eq]
    simp only [Option.bind_eq_bind, Option.bind_some, pathBits_eq τ hn, laneInVector_eq h]
    rfl
  · rw [List.length_map, List.length_range]

theorem genIndex_none {τ : LeafT} {nitems : Nat} (hn : nitems < 2^64) (h : 16 < τ.sizeof) (x : Nat) :
    genIndex τ nitems x = none := by
  rw [genIndex, τ.sizeDepth_eq]
  simp only [Option.bind_eq_bind, Option.bind_some, pathBits_eq τ hn, laneInVector_none h,
    Option.bind_none]

theorem not_indexExact {τ : LeafT} {nitems : Nat} (hn : nitems < 2^64) (h : 16 < τ.sizeof) (x : Nat) :
    ¬ IndexExact τ nitems x := by
  intro hexact
  obtain ⟨bits, lane, hgen, -⟩ := hexact.gen
  rw [genIndex_none hn h] at hgen
  cases hgen

/-- The index arithmetic is defined and selects the node of every item if and only if a leaf is
    no larger than a block. The shifts and `eval` are right for every leaf type. -/
theorem indexExact_iff (τ : LeafT) {nitems x : Nat} (hx : x < nitems) (hn : nitems < 2^64) :
    (IndexExact τ nitems x ↔ τ.sizeof ≤ 16) ∧
    (∀ layer < τ.depth nitems,
      layer + 1 ≤ inputBits nitems ∧ inputBits nitems - layer - 1 < 64 ∧
      sizeBit (inputBits nitems) layer x =
        some (x / τ.leavesPerNode / 2^(τ.depth nitems - layer - 1) % 2)) ∧
    Selects τ nitems x (evalIndex τ nitems x) := by
  refine ⟨⟨fun h => ?_, fun h => ?_⟩, fun layer hl => ?_, evalIndex_selects τ hx hn⟩
  · by_contra hgt
    exact not_indexExact hn (Nat.not_le.mp hgt) x h
  · exact ⟨fun layer hl => shift_bounds τ hn hl, genIndex_selects hx hn h, evalIndex_selects τ hx hn⟩
  · obtain ⟨hge, hlt⟩ := shift_bounds τ hn hl
    refine ⟨hge, hlt, ?_⟩
    rw [sizeBit_eq τ hn hl, inputBit_eq τ hl]

theorem indexExact_iff_uint32 : IndexExact .uint32 1000 777 :=
  (indexExact_iff .uint32 (by decide) (by decide)).1.mpr (by decide)

/-- A leaf of two blocks: `target % 0`. -/
theorem not_indexExact_two_blocks : ¬ IndexExact (.array 2 (by decide)) 4 1 :=
  not_indexExact (by decide) (by decide) 1

end Mpc
