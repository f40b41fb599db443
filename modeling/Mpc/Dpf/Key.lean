import Mathlib.Algebra.Order.Floor.Div
import Mathlib.Algebra.Order.Ring.Nat
import Mathlib.Data.Nat.Log
import Mathlib.Tactic.Ring
import Mpc.Types

/- DPF keys and their generation (dpf.hpp). A leaf is its object representation,
   a word of `bitsPerLeaf` bits; a node of the tree is a block, which holds
   several packed leaves or a part of one large leaf. The sizes, which the source computes
   in double (`ceil`, `log2`), are the exact ones here: `⌈/⌉` and `Nat.clog 2`. They are
   what it computes for 1 to `2^48` items, and on the full domain of any power of two of
   items (Sizes.lean). Elsewhere it rounds, and no items have no depth there, though
   `depth 0` is 0 here. -/
namespace Mpc
open LE

/-! Leaf types. -/

/-- `leaf_t`: three packed types, a block, or an array of `N` blocks. -/
inductive LeafT where
  | uint8
  | uint32
  | uint64
  | m128i
  | array (N : Nat) (hN : 0 < N)
  deriving DecidableEq

namespace LeafT
variable (τ : LeafT)

def sizeof : LeafT → Nat
  | .uint8 => 1
  | .uint32 => 4
  | .uint64 => 8
  | .m128i => 16
  | .array N _ => 16 * N

def bitsPerLeaf : Nat := τ.sizeof * 8
def isPacked : Bool := τ.sizeof < 16
def leavesPerNode : Nat := if τ.isPacked then 128 / τ.bitsPerLeaf else 1
def nodesPerLeaf : Nat := if τ.isPacked then 1 else τ.bitsPerLeaf ⌈/⌉ 128

def nodesInInterval (from_ to_ : Nat) : Nat :=
  if to_ < from_ then 0 else max 1 ((to_ + 1) ⌈/⌉ τ.leavesPerNode - from_ / τ.leavesPerNode)

def depth (nitems : Nat) : Nat := Nat.clog 2 (nitems ⌈/⌉ τ.leavesPerNode)

end LeafT

def inputBits (nitems : Nat) : Nat := Nat.clog 2 nitems

/-! Every leaf type fills whole nodes, and a node holds a power of two of leaves. -/

namespace LeafT
variable (τ : LeafT)

/-- The number of input bits that select a leaf within its node. -/
def laneBits : LeafT → Nat
  | .uint8 => 4
  | .uint32 => 2
  | .uint64 => 1
  | _ => 0

theorem nodesPerLeaf_array (N : Nat) (hN : 0 < N) : (LeafT.array N hN).nodesPerLeaf = N := by
  have hsize : ¬ 16 * N < 16 := by omega
  have hbits : 16 * N * 8 = 128 * N := by omega
  have hdiv : (128 * N) ⌈/⌉ 128 = N := by
    rw [Nat.ceilDiv_eq_add_pred_div]
    omega
  simp only [nodesPerLeaf, isPacked, sizeof, bitsPerLeaf, hsize, decide_false, Bool.false_eq_true,
    if_false, hbits, hdiv]

theorem leavesPerNode_array (N : Nat) (hN : 0 < N) : (LeafT.array N hN).leavesPerNode = 1 := by
  have hsize : ¬ 16 * N < 16 := by omega
  simp only [leavesPerNode, isPacked, sizeof, hsize, decide_false, Bool.false_eq_true, if_false]

theorem leavesPerNode_eq : τ.leavesPerNode = 2 ^ τ.laneBits := by
  cases τ with
  | array N hN => exact leavesPerNode_array N hN
  | _ => rfl

theorem leavesPerNode_pos : 0 < τ.leavesPerNode := by
  rw [leavesPerNode_eq]
  exact Nat.two_pow_pos _

theorem nodesPerLeaf_pos : 0 < τ.nodesPerLeaf := by
  cases τ with
  | array N hN => rw [nodesPerLeaf_array]; exact hN
  | _ => decide

/-- The leaves of a node have as many bits as the nodes of a leaf. -/
theorem leaf_bits : τ.leavesPerNode * τ.bitsPerLeaf = 128 * τ.nodesPerLeaf := by
  cases τ with
  | array N hN =>
    rw [nodesPerLeaf_array, leavesPerNode_array, bitsPerLeaf, sizeof]
    omega
  | _ => rfl

theorem leavesPerNode_eq_one (h : τ.isPacked = false) : τ.leavesPerNode = 1 := by
  rw [leavesPerNode, h]
  rfl

/-- The nodes of the full domain. -/
def nodes (nitems : Nat) : Nat := nitems ⌈/⌉ τ.leavesPerNode

theorem nodes_pos {nitems : Nat} (h : 0 < nitems) : 0 < τ.nodes nitems := by
  by_contra hz
  have hle : nitems ≤ τ.leavesPerNode * 0 :=
    (ceilDiv_le_iff_le_mul τ.leavesPerNode_pos).mp (show τ.nodes nitems ≤ 0 by omega)
  omega

theorem nodesInInterval_full {nitems : Nat} (h : 0 < nitems) :
    τ.nodesInInterval 0 (nitems - 1) = τ.nodes nitems := by
  have hpos := τ.nodes_pos h
  have hsucc : nitems - 1 + 1 = nitems := by omega
  rw [nodesInInterval, if_neg (by omega), hsucc, Nat.zero_div, Nat.sub_zero, ← nodes]
  omega

theorem nodes_le_two_pow (nitems : Nat) : τ.nodes nitems ≤ 2 ^ τ.depth nitems :=
  Nat.le_pow_clog (by omega) _

theorem nodes_le (nitems : Nat) : τ.nodes nitems ≤ nitems :=
  (ceilDiv_le_iff_le_mul τ.leavesPerNode_pos).mpr (Nat.le_mul_of_pos_left nitems τ.leavesPerNode_pos)

theorem div_lt_nodes {nitems x : Nat} (hx : x < nitems) : x / τ.leavesPerNode < τ.nodes nitems := by
  by_contra hle
  have hmul := (ceilDiv_le_iff_le_mul τ.leavesPerNode_pos).mp (Nat.le_of_not_lt hle)
  have := Nat.mul_div_le x τ.leavesPerNode
  omega

/-- The tree is as deep as the input has bits above a node's leaves. -/
theorem depth_eq (nitems : Nat) : τ.depth nitems = Mpc.inputBits nitems - τ.laneBits := by
  refine eq_of_forall_ge_iff fun c => ?_
  rw [depth, inputBits, leavesPerNode_eq, Nat.clog_le_iff_le_pow (by omega),
    ceilDiv_le_iff_le_mul (Nat.two_pow_pos _), ← Nat.pow_add, tsub_le_iff_left,
    Nat.clog_le_iff_le_pow (by omega)]

end LeafT

abbrev Leaf (τ : LeafT) := BitVec τ.bitsPerLeaf

/-- The word of `n` bits with the bits `f`. -/
def ofBits (f : Nat → Bool) : (n : Nat) → BitVec n
  | 0 => 0#0
  | n+1 => BitVec.cons (f n) (ofBits f n)

theorem getLsbD_ofBits (f : Nat → Bool) (n k : Nat) :
    (ofBits f n).getLsbD k = (decide (k < n) && f k) := by
  induction n with
  | zero => simp [ofBits]
  | succ n ih =>
    rw [ofBits, BitVec.getLsbD_cons, ih]
    by_cases hk : k = n
    · subst hk
      simp
    · have hlt : k < n + 1 ↔ k < n := by omega
      simp only [if_neg hk, hlt]

/-- Leaf `x` of an array of leaves that is in memory as the blocks `mem`. -/
def leafAt (τ : LeafT) (mem : Nat → Block) (x : Nat) : Leaf τ :=
  ofBits (fun k => (mem ((x * τ.bitsPerLeaf + k) / 128)).getLsbD ((x * τ.bitsPerLeaf + k) % 128))
    τ.bitsPerLeaf

/-- A leaf lies in the blocks of its node, at its place among the node's leaves. -/
theorem leafAt_of_node (τ : LeafT) {mem g : Nat → Block} {x : Nat}
    (h : ∀ j, j < τ.nodesPerLeaf → mem (x / τ.leavesPerNode * τ.nodesPerLeaf + j) = g j) :
    leafAt τ mem x = leafAt τ g (x % τ.leavesPerNode) := by
  apply BitVec.eq_of_getLsbD_eq
  intro k hk
  simp only [leafAt, getLsbD_ofBits, hk, decide_true, Bool.true_and]
  have hlt : x % τ.leavesPerNode < τ.leavesPerNode := Nat.mod_lt _ τ.leavesPerNode_pos
  have hx : x * τ.bitsPerLeaf + k =
      128 * (x / τ.leavesPerNode * τ.nodesPerLeaf) + (x % τ.leavesPerNode * τ.bitsPerLeaf + k) := by
    calc x * τ.bitsPerLeaf + k
        = (τ.leavesPerNode * (x / τ.leavesPerNode) + x % τ.leavesPerNode) * τ.bitsPerLeaf + k := by
          rw [Nat.div_add_mod]
      _ = x / τ.leavesPerNode * (τ.leavesPerNode * τ.bitsPerLeaf) +
          (x % τ.leavesPerNode * τ.bitsPerLeaf + k) := by ring
      _ = _ := by rw [τ.leaf_bits]; ring
  have hr : x % τ.leavesPerNode * τ.bitsPerLeaf + k < 128 * τ.nodesPerLeaf := by
    rw [← τ.leaf_bits]
    calc x % τ.leavesPerNode * τ.bitsPerLeaf + k
        < x % τ.leavesPerNode * τ.bitsPerLeaf + τ.bitsPerLeaf := by omega
      _ = (x % τ.leavesPerNode + 1) * τ.bitsPerLeaf := (Nat.succ_mul _ _).symm
      _ ≤ τ.leavesPerNode * τ.bitsPerLeaf := Nat.mul_le_mul_right _ hlt
  rw [hx, Nat.mul_add_div (by omega), Nat.mul_add_mod, h _ (Nat.div_lt_of_lt_mul hr)]

/-! Nodes. A node is its seed and its flag. -/

/-- `AES_KEY`: eleven round keys and the number of rounds, padded to 192 bytes. -/
abbrev AesKey := BitVec (192 * 8)

abbrev Node := Block × Byte

def flagOf (b : Bool) : Byte := if b then 1 else 0

section
variable (aes : AesKey → Block → Block) (prgkey : AesKey)

/-- `expand`: child `d` (0 is L, 1 is R) of a seed, before any correction. -/
def expand (seed : Block) (d : Nat) : Node :=
  let s := prgBlock (aes prgkey) (clearLsb seed 0b11) d
  (clearLsb s 0b11, getLsb s 0b01)

/-- `traverse_`: the corrected child in one direction. -/
def traverse (seed : Block) (direction : Nat) (cwT : Byte) (cw : Block) (prevT : Byte) : Node :=
  let s := prgBlock (aes prgkey) (clearLsb seed 0b11) direction
  (clearLsb (xorIf s cw (prevT ≠ 0)) 0b11, getLsb s 0b01 ^^^ (cwT &&& prevT))

/-- `traverse2`: both corrected children. -/
def traverse2 (seed : Block) (cwT : Byte × Byte) (cw : Block) (prevT : Byte) : Node × Node :=
  let sL := prgBlock (aes prgkey) (clearLsb seed 0b11) 0
  let sR := prgBlock (aes prgkey) (clearLsb seed 0b11) 1
  ((clearLsb (xorIf sL cw (prevT ≠ 0)) 0b11, getLsb sL 0b01 ^^^ (cwT.1 &&& prevT)),
    (clearLsb (xorIf sR cw (prevT ≠ 0)) 0b11, getLsb sR 0b01 ^^^ (cwT.2 &&& prevT)))

/-- `stretch_leaf`: block `j` of the pad of a leaf. -/
def stretchLeaf (seed : Block) (j : Nat) : Block :=
  prgBlock (aes prgkey) (clearLsb seed 0b01) j

end

/-! Keys. -/

/-- `dpf_key`: a key for `nitems` leaves of type `τ`. -/
structure DpfKey (τ : LeafT) where
  nitems : Nat
  root : Block
  cw : List Block
  finalizer : Vector Block τ.nodesPerLeaf
  prgkey : AesKey

namespace DpfKey
variable {τ : LeafT}

def depth (key : DpfKey τ) : Nat := τ.depth key.nitems
def inputBits (key : DpfKey τ) : Nat := Mpc.inputBits key.nitems

/-- Block `j` of the finalizer. -/
def finalizerBlock (key : DpfKey τ) (j : Nat) : Block := key.finalizer[j]?.getD 0

end DpfKey

/-- Bit `layer` of an input, from the top of its `nbits` bits. -/
def inputBit (nbits layer input : Nat) : Nat := (input >>> (nbits - layer - 1)) % 2

section
variable (aes : AesKey → Block → Block) (prgkey : AesKey) {τ : LeafT}

/-- Block `j` of the leaf `val` at `target`, as it lies in the target's node: a packed leaf
    in its lane, a block of a larger one. -/
def leafBlock (target : Nat) (val : Leaf τ) (j : Nat) : Block :=
  let elementsPerVector := if τ = .m128i then 1 else 16 / τ.sizeof
  let laneInVector := target % elementsPerVector
  if τ.isPacked then val.setWidth 128 <<< (laneInVector * τ.bitsPerLeaf)
  else val.extractLsb' (128 * j) 128

/-- `make_finalizer`, which both keys get. -/
def makeFinalizer (target : Nat) (val : Leaf τ) (s : Block × Block) :
    Vector Block τ.nodesPerLeaf :=
  Vector.ofFn fun j => leafBlock target val j ^^^
    (stretchLeaf aes prgkey s.1 j ^^^ stretchLeaf aes prgkey s.2 j)

/-- The variables of `gen`'s loop: both parties' nodes on the path and the correction words. -/
structure GenState where
  s0 : Node
  s1 : Node
  cw : List Block

/-- One layer of `gen`, in which the path goes to child `bit`. -/
def genLayer (bit : Nat) (st : GenState) : GenState :=
  let e0 := expand aes prgkey st.s0.1
  let e1 := expand aes prgkey st.s1.1
  let keep := if bit = 0 then 0 else 1
  let lose := 1 - keep
  let cwtL : Bool := (e0 0).2 ^^^ (e1 0).2 ^^^ BitVec.ofNat 8 bit ^^^ 1 ≠ 0
  let cwtR : Bool := (e0 1).2 ^^^ (e1 1).2 ^^^ BitVec.ofNat 8 bit ≠ 0
  let cwtKeep := if keep = 0 then cwtL else cwtR
  let nextcw := (e0 lose).1 ^^^ (e1 lose).1
  let child := fun (e : Nat → Node) (t : Byte) =>
    (xorIf (e keep).1 nextcw (t ≠ 0), (e keep).2 ^^^ (t &&& flagOf cwtKeep))
  ⟨child e0 st.s0.2, child e1 st.s1.2, st.cw ++ [setLsbs nextcw cwtL cwtR]⟩

/-- The loop of `gen`. -/
def genLayers (nbits target : Nat) : Nat → GenState → GenState
  | 0, st => st
  | layer+1, st =>
    genLayer aes prgkey (inputBit nbits layer target) (genLayers nbits target layer st)

/-- The state in which `gen` enters its loop, given the two random blocks `root`. -/
def genStart (root : Block × Block) : GenState :=
  let t0 := getLsb root.1 0b01
  let t1 := flagOf (t0 = 0)
  ⟨(root.1, t0), (setLsb root.2 (t1 ≠ 0), t1), []⟩

/-- `dpf_key::gen`, given the two random blocks `root`. -/
def gen (nitems target : Nat) (val : Leaf τ) (root : Block × Block) :
    Except Err (DpfKey τ × DpfKey τ) :=
  if nitems ≤ target then .error (.runtimeError "target point out of range")
  else
    let st₀ := genStart root
    let st := genLayers aes prgkey (inputBits nitems) target (τ.depth nitems) st₀
    let finalizer := makeFinalizer aes prgkey target val (st.s0.1, st.s1.1)
    .ok (⟨nitems, st₀.s0.1, st.cw, finalizer, prgkey⟩, ⟨nitems, st₀.s1.1, st.cw, finalizer, prgkey⟩)

end

end Mpc
