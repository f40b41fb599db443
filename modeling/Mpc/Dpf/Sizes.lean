import Mpc.Dpf.Index
import Mpc.Lib.Double

/- The sizes of dpf.hpp as it computes them: in double, and converted to size_t at the
   end. `depthDouble`, `nodesInIntervalDouble` and the others round every operation, and
   `evalIntervalDouble` and `evalDouble` are the two evaluations on these sizes, with
   every shift and conversion that is undefined as `none`. A key of no items has no
   depth, since the logarithm of 0 is infinite. For 1 to `2^48` items all sizes are the
   exact ones of Key.lean, whatever `log2` the library has as long as it is `Faithful`,
   and so are both evaluations (`evalIntervalDouble_eq`, `evalDouble_eq`). The programs
   take a power of two of items and evaluate the full domain, which is exact up to the
   largest there is (`evalIntervalDouble_full`). -/
namespace Mpc
open LE Loop BinTree Double

/-! Conversions. -/

/-- A size as a double. -/
def ofSize (n : Nat) : ℚ := rnd n

/-- A double as a size: cut off, and undefined where the result is not a size. -/
def toSize (x : ℚ) : Option Nat := if -1 < x ∧ x < 2^64 then some ⌊x⌋₊ else none

theorem toSize_natCast {n : Nat} (h : n < 2^64) : toSize n = some n := by
  have hn : (0 : ℚ) ≤ n := Nat.cast_nonneg n
  have hlt : (n : ℚ) < 2^64 := by exact_mod_cast h
  rw [toSize, if_pos ⟨by linarith, hlt⟩, Nat.floor_natCast]

theorem ofSize_of_isDouble {n : Nat} (h : IsDouble n) : ofSize n = n := rnd_of_isDouble (Nat.cast_nonneg n) h

/-- A quotient of a size and a power of two, in double. -/
theorem ofSize_div {n : Nat} (h : IsDouble n) (k : Nat) :
    rnd (ofSize n / ofSize (2^k)) = (n : ℚ) / (2^k : Nat) := by
  have hk : IsDouble ((2^k : Nat) : ℚ) := by exact_mod_cast isDouble_two_pow k
  rw [ofSize_of_isDouble h, ofSize_of_isDouble hk, Nat.cast_pow, Nat.cast_ofNat,
    rnd_div_two_pow (Nat.cast_nonneg n) h]

/-! Sizes. -/

/-- `ceil(log2(x))` of a whole number. -/
def ceilLog2 (lib : Log2) (x : ℚ) : Option Nat := if x = 0 then none else toSize ⌈lib.log2 x⌉

/-- `input_bits`. -/
def inputBitsDouble (lib : Log2) (nitems : Nat) : Option Nat := ceilLog2 lib (ofSize nitems)

/-- The nodes of the layer `k` above the last, of `nodesInInterval` in the last. -/
def layerNodesDouble (nodesInInterval k : Nat) : Option Nat :=
  if k < 64 then toSize ⌈rnd (ofSize nodesInInterval / ofSize (2^k))⌉ else none

namespace LeafT
variable (τ : LeafT)

/-- `depth`. -/
def depthDouble (lib : Log2) (nitems : Nat) : Option Nat :=
  ceilLog2 lib ⌈rnd (ofSize nitems / ofSize τ.leavesPerNode)⌉

/-- `nodes_in_interval`, in which `to + 1` wraps around. -/
def nodesInIntervalDouble (from_ to_ : Nat) : Option Nat :=
  if to_ < from_ then some 0
  else toSize (max 1 (rnd (⌈rnd (ofSize ((to_ + 1) % 2^64) / ofSize τ.leavesPerNode)⌉ -
    ⌊rnd (ofSize from_ / ofSize τ.leavesPerNode)⌋)))

/-- `from_node`. -/
def fromNodeDouble (from_ : Nat) : Option Nat := toSize ⌊rnd (ofSize from_ / ofSize τ.nodesPerLeaf)⌋

end LeafT

/-! Exact sizes. -/

/-- A number of items whose sizes are exact: a small one, or a power of two as the programs have it. -/
def ExactSize (n : Nat) : Prop := (0 < n ∧ n ≤ 2^48) ∨ ∃ k < 64, n = 2^k

namespace ExactSize
variable {n : Nat}

theorem pos (h : ExactSize n) : 0 < n := by
  obtain ⟨hn, -⟩ | ⟨k, -, rfl⟩ := h
  · exact hn
  · exact Nat.two_pow_pos k

theorem lt (h : ExactSize n) : n < 2^64 := by
  obtain ⟨-, hmax⟩ | ⟨k, hk, rfl⟩ := h
  · omega
  · exact Nat.pow_lt_pow_right (by omega) hk

theorem isDouble (h : ExactSize n) : IsDouble n := by
  obtain ⟨-, hmax⟩ | ⟨k, -, rfl⟩ := h
  · exact isDouble_natCast (by omega)
  · exact_mod_cast isDouble_two_pow k

theorem clog_lt (h : ExactSize n) : Nat.clog 2 n < 64 := by
  obtain ⟨-, hmax⟩ | ⟨k, hk, rfl⟩ := h
  · have hclog : Nat.clog 2 n ≤ 48 := (Nat.clog_le_iff_le_pow (by omega)).mpr hmax
    omega
  · rwa [Nat.clog_pow 2 k (by omega)]

theorem nodes (h : ExactSize n) (τ : LeafT) : ExactSize (τ.nodes n) := by
  have hpos := τ.nodes_pos h.pos
  obtain ⟨-, hmax⟩ | ⟨k, hk, rfl⟩ := h
  · exact .inl ⟨hpos, (τ.nodes_le n).trans hmax⟩
  · refine .inr ⟨k - τ.laneBits, by omega, ?_⟩
    rw [LeafT.nodes, τ.leavesPerNode_eq]
    exact ceilDiv_two_pow k τ.laneBits

end ExactSize

section
variable (lib : Log2) {n : Nat}

theorem ceilLog2_eq (h : ExactSize n) : ceilLog2 lib n = some (Nat.clog 2 n) := by
  have hne : (n : ℚ) ≠ 0 := by exact_mod_cast h.pos.ne'
  have hclog := h.clog_lt
  have hlog : ⌈lib.log2 n⌉ = (Nat.clog 2 n : ℕ) := by
    obtain ⟨hn, hmax⟩ | ⟨k, hk, rfl⟩ := h
    · exact lib.ceil_log2 hn hmax
    · rw [Nat.clog_pow 2 k (by omega), Nat.cast_pow, Nat.cast_ofNat, lib.log2_two_pow (by omega),
        Int.ceil_natCast]
  rw [ceilLog2, if_neg hne, hlog, Int.cast_natCast, toSize_natCast (by omega)]

theorem inputBitsDouble_eq (h : ExactSize n) : inputBitsDouble lib n = some (inputBits n) := by
  rw [inputBitsDouble, ofSize_of_isDouble h.isDouble, ceilLog2_eq lib h]
  rfl

theorem layerNodesDouble_eq {k : Nat} (h : IsDouble n) (hn : n < 2^64) (hk : k < 64) :
    layerNodesDouble n k = some (n ⌈/⌉ 2^k) := by
  have hle : n ⌈/⌉ 2^k ≤ n := by
    refine (ceilDiv_le_iff_le_mul (Nat.two_pow_pos k)).mpr ?_
    exact Nat.le_mul_of_pos_left n (Nat.two_pow_pos k)
  rw [layerNodesDouble, if_pos hk, ofSize_div h, ceil_div n (Nat.two_pow_pos k), Int.cast_natCast,
    toSize_natCast (by omega)]

namespace LeafT
variable (τ : LeafT)

/-- The leaves of a node are a power of two, so dividing by them is exact. -/
theorem ofSize_div_leaves (h : IsDouble n) :
    rnd (ofSize n / ofSize τ.leavesPerNode) = (n : ℚ) / τ.leavesPerNode := by
  rw [τ.leavesPerNode_eq, ofSize_div h]

theorem depthDouble_eq (h : ExactSize n) : τ.depthDouble lib n = some (τ.depth n) := by
  rw [depthDouble, τ.ofSize_div_leaves h.isDouble, ceil_div n τ.leavesPerNode_pos, Int.cast_natCast]
  exact ceilLog2_eq lib (h.nodes τ)

/-- The logarithm of 0 is infinite. -/
theorem depthDouble_zero : τ.depthDouble lib 0 = none := by
  rw [depthDouble, τ.ofSize_div_leaves (isDouble_natCast (Nat.zero_le _)), Nat.cast_zero, zero_div,
    Int.ceil_zero, Int.cast_zero, ceilLog2, if_pos rfl]

/-- The depths of up to `2^48` items. -/
theorem depthDouble_iff {d : Nat} (hmax : n ≤ 2^48) :
    τ.depthDouble lib n = some d ↔ 0 < n ∧ d = τ.depth n := by
  rcases Nat.eq_zero_or_pos n with rfl | hn
  · rw [τ.depthDouble_zero]
    constructor
    · intro h
      cases h
    · intro h
      exact absurd h.1 (Nat.lt_irrefl 0)
  · rw [τ.depthDouble_eq lib (.inl ⟨hn, hmax⟩), Option.some_inj, and_iff_right hn, eq_comm]

variable {from_ to_ : Nat}

theorem nodesInInterval_of_le (h : from_ ≤ to_) :
    τ.nodesInInterval from_ to_ = max 1 (τ.nodes (to_ + 1) - from_ / τ.leavesPerNode) :=
  if_neg (by omega)

theorem nodesInInterval_le (h : from_ ≤ to_) : τ.nodesInInterval from_ to_ ≤ to_ + 1 := by
  have hle := (Nat.sub_le (τ.nodes (to_ + 1)) (from_ / τ.leavesPerNode)).trans (τ.nodes_le (to_ + 1))
  rw [τ.nodesInInterval_of_le h]
  omega

/-- Where the ends and the number of nodes are doubles, that number is exact. -/
theorem nodesInIntervalDouble_eq (h : from_ ≤ to_) (hto : to_ + 1 < 2^64) (hfrom : IsDouble from_)
    (hsucc : IsDouble (to_ + 1 : ℕ)) (hN : IsDouble (τ.nodes (to_ + 1) - from_ / τ.leavesPerNode : ℕ)) :
    τ.nodesInIntervalDouble from_ to_ = some (τ.nodesInInterval from_ to_) := by
  have hle := τ.nodes_le (to_ + 1)
  have hlo : from_ / τ.leavesPerNode ≤ τ.nodes (to_ + 1) :=
    (Nat.div_le_div_right (by omega)).trans (τ.div_lt_nodes (Nat.lt_succ_self to_)).le
  have hsub : ((τ.nodes (to_ + 1) : ℕ) : ℚ) - (from_ / τ.leavesPerNode : ℕ) =
      (τ.nodes (to_ + 1) - from_ / τ.leavesPerNode : ℕ) := by rw [Nat.cast_sub hlo]
  have hceil : ⌈rnd (ofSize ((to_ + 1) % 2^64) / ofSize τ.leavesPerNode)⌉ = (τ.nodes (to_ + 1) : ℕ) := by
    rw [Nat.mod_eq_of_lt hto, τ.ofSize_div_leaves hsucc, ceil_div _ τ.leavesPerNode_pos]
    rfl
  have hfloor : ⌊rnd (ofSize from_ / ofSize τ.leavesPerNode)⌋ = (from_ / τ.leavesPerNode : ℕ) := by
    rw [τ.ofSize_div_leaves hfrom, Rat.floor_natCast_div_natCast]
    rfl
  have hnodes := τ.nodesInInterval_of_le h
  have hcount := (Nat.sub_le (τ.nodes (to_ + 1)) (from_ / τ.leavesPerNode)).trans hle
  generalize τ.nodes (to_ + 1) - from_ / τ.leavesPerNode = count at hsub hnodes hcount hN
  rw [nodesInIntervalDouble, if_neg (by omega), hceil, hfloor, Int.cast_natCast, Int.cast_natCast, hsub,
    rnd_of_isDouble (Nat.cast_nonneg _) hN, hnodes, ← Nat.cast_one, ← Nat.cast_max,
    toSize_natCast (by omega)]

theorem fromNodeDouble_eq (hn : n ≤ 2^48) : τ.fromNodeDouble n = some (n / τ.nodesPerLeaf) := by
  have hpos := τ.nodesPerLeaf_pos
  have hle : n / τ.nodesPerLeaf ≤ n := Nat.div_le_self n _
  have hd : IsDouble n := isDouble_natCast (by omega)
  rw [fromNodeDouble, ofSize_of_isDouble hd]
  rcases Nat.lt_or_ge (2^51) τ.nodesPerLeaf with hbig | hsmall
  · -- such a leaf is larger than any number of items
    have hleaf : (2^51 : ℚ) ≤ ofSize τ.nodesPerLeaf :=
      (rnd_faithful (Nat.cast_nonneg _)).le _ (isDouble_two_pow 51) (by exact_mod_cast hbig.le)
    have hn' : (n : ℚ) ≤ 2^48 := by exact_mod_cast hn
    have hhalf : (n : ℚ) / ofSize τ.nodesPerLeaf ≤ 1 / 2 := by
      rw [div_le_iff₀ (by linarith)]
      linarith
    rw [floor_rnd_of_le_half (by positivity) hhalf, Nat.div_eq_of_lt (by omega), Int.cast_zero]
    exact toSize_natCast (n := 0) (by omega)
  · have hd' : IsDouble τ.nodesPerLeaf := isDouble_natCast (by omega)
    rw [ofSize_of_isDouble hd', floor_rnd_div hpos (by omega) hsmall, Int.cast_natCast,
      toSize_natCast (by omega)]

end LeafT

end

/-- Beyond `2^53` the start node is rounded. -/
example : LeafT.uint64.fromNodeDouble (2^53 + 3) = some (2^53 + 4) := by decide +kernel

/-! Evaluation on these sizes. -/

section
variable (lib : Log2) (aes : AesKey → Block → Block) {τ : LeafT}

/-- The seed and flag after `layers` layers of `eval`. -/
def evalPathDouble (key : DpfKey τ) (nbits input : Nat) : Nat → Option Node
  | 0 => some (key.root, getLsb key.root 0b01)
  | layer+1 => do
    let st ← evalPathDouble key nbits input layer
    let cw ← key.cw[layer]?
    let nextbit ← sizeBit nbits layer input
    return traverse aes key.prgkey st.1 nextbit (getLsb cw (if nextbit ≠ 0 then 0b10 else 0b01)) cw
      st.2

/-- `eval`. -/
def evalDouble (key : DpfKey τ) (input : Nat) : Option (Leaf τ) := do
  let depth ← τ.depthDouble lib key.nitems
  let nbits ← inputBitsDouble lib key.nitems
  let st ← evalPathDouble aes key nbits input depth
  return leafAt τ (finalBlock aes key st) (if τ.isPacked then input % τ.leavesPerNode else 0)

/-- One layer of the interval's nodes. -/
def evalLayerDouble (key : DpfKey τ) (depth nbits base N fromNode layer : Nat) (st : Nat × Buffers) :
    Option (Nat × Buffers) := do
  let cw ← key.cw[layer]?
  let cur := 1 - st.1
  let nextbit ← sizeBit nbits layer fromNode
  let nodesInPrevLayer ← layerNodesDouble N (depth - layer)
  let nodesInCurLayer ← layerNodesDouble N (depth - layer - 1)
  let b ← evalLayerNodes aes key cw base N cur nextbit nodesInPrevLayer nodesInCurLayer st.2
  return (cur, b)

/-- The layers, from the root on. -/
def expandLayersDouble (key : DpfKey τ) (depth nbits base N fromNode : Nat) (b : Buffers) :
    Option Buffers := do
  let b ← b.store base (cell N (depth % 2) 0) (key.root, getLsb key.root 0b01)
  let st ← forUp (evalLayerDouble aes key depth nbits base N fromNode) depth (depth % 2, b)
  return st.2

/-- `__evalinterval`. -/
def evalIntervalDouble (key : DpfKey τ) (from_ to_ : Nat) (b : Buffers) : Option Buffers := do
  let depth ← τ.depthDouble lib key.nitems
  let nbits ← inputBitsDouble lib key.nitems
  let nodesInInterval ← τ.nodesInIntervalDouble from_ to_
  let fromNode ← τ.fromNodeDouble from_
  let base := nodesInInterval * (τ.nodesPerLeaf - 1)
  let b ← expandLayersDouble aes key depth nbits base nodesInInterval fromNode b
  finalize aes key base nodesInInterval b

variable {aes} {key : DpfKey τ} {base N fromNode : Nat}

theorem evalPathDouble_eq (hmax : key.nitems < 2^64) (x : Nat) {l : Nat} (hl : l ≤ key.depth) :
    evalPathDouble aes key key.inputBits x l = evalPath aes key x l := by
  induction l with
  | zero => rfl
  | succ l ih =>
    rw [evalPathDouble, ih (by omega), DpfKey.inputBits, sizeBit_eq τ hmax hl]
    rfl

/-- On an exact size `eval` is exact. -/
theorem evalDouble_eq (h : ExactSize key.nitems) (x : Nat) : evalDouble lib aes key x = eval aes key x := by
  have hpath : evalPathDouble aes key (inputBits key.nitems) x (τ.depth key.nitems) =
      evalPath aes key x key.depth := evalPathDouble_eq h.lt x (Nat.le_refl _)
  simp only [evalDouble, τ.depthDouble_eq lib h, inputBitsDouble_eq lib h, Option.bind_eq_bind,
    Option.bind_some, hpath]
  rfl

theorem evalLayerDouble_eq (h : ExactSize key.nitems) (hN : IsDouble N) (hmax : N < 2^64) {l : Nat}
    (hl : l < key.depth) : evalLayerDouble aes key key.depth key.inputBits base N fromNode l =
      evalLayer aes key base N fromNode l := by
  have hdepth : key.depth < 64 := (h.nodes τ).clog_lt
  funext st
  rw [evalLayerDouble, DpfKey.inputBits, sizeBit_eq τ h.lt hl, layerNodesDouble_eq hN hmax (by omega),
    layerNodesDouble_eq hN hmax (by omega)]
  rfl

theorem expandLayersDouble_eq (h : ExactSize key.nitems) (hN : IsDouble N) (hmax : N < 2^64)
    (b : Buffers) :
    expandLayersDouble aes key (τ.depth key.nitems) (inputBits key.nitems) base N fromNode b =
      expandLayers aes key base N fromNode b := by
  have hloop : ∀ st, forUp (evalLayerDouble aes key (τ.depth key.nitems) (inputBits key.nitems) base N fromNode)
      (τ.depth key.nitems) st = forUp (evalLayer aes key base N fromNode) key.depth st :=
    forUp_congr fun l hl => evalLayerDouble_eq h hN hmax hl
  simp only [expandLayersDouble, hloop]
  rfl

/-- Where the interval's sizes are exact too, so is `__evalinterval`. -/
theorem evalIntervalDouble_of_exact {from_ to_ : Nat} (h : ExactSize key.nitems)
    (hN : IsDouble (τ.nodesInInterval from_ to_)) (hmax : τ.nodesInInterval from_ to_ < 2^64)
    (hnodes : τ.nodesInIntervalDouble from_ to_ = some (τ.nodesInInterval from_ to_))
    (hfrom : τ.fromNodeDouble from_ = some (from_ / τ.nodesPerLeaf)) (b : Buffers) :
    evalIntervalDouble lib aes key from_ to_ b = evalInterval aes key from_ to_ b := by
  simp only [evalIntervalDouble, τ.depthDouble_eq lib h, inputBitsDouble_eq lib h, hnodes, hfrom,
    Option.bind_eq_bind, Option.bind_some, expandLayersDouble_eq h hN hmax]
  rfl

/-- Up to `2^48` items `__evalinterval` is exact. -/
theorem evalIntervalDouble_eq {from_ to_ : Nat} (h : from_ ≤ to_) (hto : to_ < key.nitems)
    (hmax : key.nitems ≤ 2^48) (b : Buffers) :
    evalIntervalDouble lib aes key from_ to_ b = evalInterval aes key from_ to_ b := by
  have hN := τ.nodesInInterval_le h
  have hsub := (Nat.sub_le (τ.nodes (to_ + 1)) (from_ / τ.leavesPerNode)).trans (τ.nodes_le (to_ + 1))
  exact evalIntervalDouble_of_exact lib (.inl ⟨by omega, hmax⟩) (isDouble_natCast (by omega)) (by omega)
    (τ.nodesInIntervalDouble_eq h (by omega) (isDouble_natCast (by omega)) (isDouble_natCast (by omega))
      (isDouble_natCast (hsub.trans (by omega)))) (τ.fromNodeDouble_eq (by omega)) b

/-- On the full domain of an exact size `__evalinterval` is exact. -/
theorem evalIntervalDouble_full (h : ExactSize key.nitems) (b : Buffers) :
    evalIntervalDouble lib aes key 0 (key.nitems - 1) b = evalInterval aes key 0 (key.nitems - 1) b := by
  have hpos := h.pos
  have hlt := h.lt
  have hsucc : key.nitems - 1 + 1 = key.nitems := by omega
  have hnodes := h.nodes τ
  have hfull := τ.nodesInInterval_full hpos
  refine evalIntervalDouble_of_exact lib h (by rw [hfull]; exact hnodes.isDouble)
    (by rw [hfull]; exact hnodes.lt)
    (τ.nodesInIntervalDouble_eq (Nat.zero_le _) (by omega) (isDouble_natCast (Nat.zero_le _))
      (by rw [hsucc]; exact h.isDouble) ?_) (τ.fromNodeDouble_eq (Nat.zero_le _)) b
  rw [hsucc, Nat.zero_div, Nat.sub_zero]
  exact hnodes.isDouble

end

end Mpc
