import Mpc.Dpf.Key
import Mpc.Lib.BinTree
import Mpc.Lib.Loop

/- Evaluation of a DPF key (dpf.hpp): `eval` follows one path, `evalInterval` expands
   a whole interval in the caller's two buffers. `Buffers` are those buffers as
   node slots and flags; an access outside them is undefined. The layers alternate
   between two halves of `N` cells as in `BinTree.layers` (`evalLayer_spec`,
   `expandLayers_run`), `finalize` stretches the nodes in place (`finalize_spec`), and
   on the full domain what is left in `output` is `eval` of every leaf
   (`evalInterval_eq_eval`). -/
namespace Mpc
open LE Loop BinTree

section
variable (aes : AesKey → Block → Block) {τ : LeafT}

/-! eval. -/

/-- The seed and flag after `layers` layers of `eval`. -/
def evalPath (key : DpfKey τ) (input : Nat) : Nat → Option Node
  | 0 => some (key.root, getLsb key.root 0b01)
  | layer+1 => do
    let st ← evalPath key input layer
    let cw ← key.cw[layer]?
    let nextbit := inputBit key.inputBits layer input
    return traverse aes key.prgkey st.1 nextbit (getLsb cw (if nextbit ≠ 0 then 0b10 else 0b01)) cw
      st.2

/-- Block `j` of a finalized leaf node. -/
def finalBlock (key : DpfKey τ) (st : Node) (j : Nat) : Block :=
  xorIf (stretchLeaf aes key.prgkey st.1 j) (key.finalizerBlock j) (st.2 ≠ 0)

/-- `eval`. A packed leaf is lane `input % leavesPerNode` of its node. -/
def eval (key : DpfKey τ) (input : Nat) : Option (Leaf τ) := do
  let st ← evalPath aes key input key.depth
  return leafAt τ (finalBlock aes key st) (if τ.isPacked then input % τ.leavesPerNode else 0)

/-! Buffers. -/

/-- `output`, in blocks, and `_t`. -/
structure Buffers where
  nodes : Nat → Block
  flags : Nat → Byte
  nodeRoom : Nat
  flagRoom : Nat

namespace Buffers

def readNode (b : Buffers) (i : Nat) : Option Block :=
  if i < b.nodeRoom then some (b.nodes i) else none

def writeNode (b : Buffers) (i : Nat) (v : Block) : Option Buffers :=
  if i < b.nodeRoom then some { b with nodes := Function.update b.nodes i v } else none

def readFlag (b : Buffers) (i : Nat) : Option Byte :=
  if i < b.flagRoom then some (b.flags i) else none

/-- The node `s[..][..]`, `t[..][..]` of cell `p`, with the seeds from block `base` on. -/
def load (b : Buffers) (base p : Nat) : Option Node := do
  let s ← b.readNode (base + p)
  let t ← b.readFlag p
  return (s, t)

/-- Both buffers with the node `v` in cell `p`. -/
def put (b : Buffers) (base p : Nat) (v : Node) : Buffers :=
  { b with nodes := Function.update b.nodes (base + p) v.1, flags := Function.update b.flags p v.2 }

def store (b : Buffers) (base p : Nat) (v : Node) : Option Buffers :=
  if base + p < b.nodeRoom ∧ p < b.flagRoom then some (b.put base p v) else none

end Buffers

/-- `n - 1` on size_t. -/
def predSize (n : Nat) : Nat := if n = 0 then 2^64 - 1 else n - 1

/-! __evalinterval. -/

/-- `traverse2` from cell `j` of one half to cells `i` and `i+1` of the other. -/
def traverse2At (key : DpfKey τ) (cw : Block) (base N cur j i : Nat) (b : Buffers) :
    Option Buffers := do
  let st ← b.load base (cell N (1 - cur) j)
  let s := traverse2 aes key.prgkey st.1 (getLsb cw 0b01, getLsb cw 0b10) cw st.2
  let b ← b.store base (cell N cur i) s.1
  b.store base (cell N cur (i + 1)) s.2

/-- `traverse_` in direction `d` from cell `j` of one half to cell `i` of the other. -/
def traverseAt (key : DpfKey τ) (cw : Block) (base N cur d j i : Nat) (b : Buffers) :
    Option Buffers := do
  let st ← b.load base (cell N (1 - cur) j)
  let cwT := getLsb cw (if d ≠ 0 then 0b10 else 0b01)
  b.store base (cell N cur i) (traverse aes key.prgkey st.1 d cwT cw st.2)

/-- The start of a layer: an interval that begins in a right child skips the left one. -/
def evalFirst (key : DpfKey τ) (cw : Block) (base N cur nextbit : Nat) (b : Buffers) :
    Option Buffers :=
  if nextbit = 1 then traverseAt aes key cw base N cur 1 0 0 b else some b

/-- The end of a layer: the last parent `j` has one child or two. -/
def evalLast (key : DpfKey τ) (cw : Block) (base N cur prevNodes curNodes j i : Nat) (b : Buffers) :
    Option Buffers :=
  if prevNodes > j then
    if i < predSize curNodes then traverse2At aes key cw base N cur j i b
    else traverseAt aes key cw base N cur 0 j i b
  else some b

/-- The nodes of one layer. The loop counter `q` is `j - nextbit`. -/
def evalLayerNodes (key : DpfKey τ) (cw : Block) (base N cur nextbit nodesInPrevLayer nodesInCurLayer : Nat)
    (b : Buffers) : Option Buffers := do
  let rounds := predSize nodesInPrevLayer - nextbit
  let b ← evalFirst aes key cw base N cur nextbit b
  let b ← forUp (fun q => traverse2At aes key cw base N cur (nextbit + q) (nextbit + 2*q)) rounds b
  evalLast aes key cw base N cur nodesInPrevLayer nodesInCurLayer (nextbit + rounds) (nextbit + 2*rounds) b

/-- One layer of the interval's nodes. -/
def evalLayer (key : DpfKey τ) (base N fromNode : Nat) (layer : Nat) (st : Nat × Buffers) :
    Option (Nat × Buffers) := do
  let cw ← key.cw[layer]?
  let cur := 1 - st.1
  let nextbit := inputBit key.inputBits layer fromNode
  let nodesInPrevLayer := N ⌈/⌉ 2^(key.depth - layer)
  let nodesInCurLayer := N ⌈/⌉ 2^(key.depth - layer - 1)
  let b ← evalLayerNodes aes key cw base N cur nextbit nodesInPrevLayer nodesInCurLayer st.2
  return (cur, b)

/-- The layers, from the root on. -/
def expandLayers (key : DpfKey τ) (base N fromNode : Nat) (b : Buffers) : Option Buffers := do
  let b ← b.store base (cell N (key.depth % 2) 0) (key.root, getLsb key.root 0b01)
  let st ← forUp (evalLayer aes key base N fromNode) key.depth (key.depth % 2, b)
  return st.2

/-- `finalize` with the seeds in `output` itself, from block `base` on. -/
def finalize (key : DpfKey τ) (base nnodes : Nat) (b : Buffers) : Option Buffers :=
  forUp (fun i b => do
    let seed ← b.readNode (base + i)
    let b ← forUp (fun j b => b.writeNode (i * τ.nodesPerLeaf + j)
      (stretchLeaf aes key.prgkey seed j)) τ.nodesPerLeaf b
    forUp (fun j b => do
      let v ← b.readNode (i * τ.nodesPerLeaf + j)
      let t ← b.readFlag i
      b.writeNode (i * τ.nodesPerLeaf + j) (xorIf v (key.finalizerBlock j) (t ≠ 0)))
      τ.nodesPerLeaf b) nnodes b

/-- `__evalinterval`. -/
def evalInterval (key : DpfKey τ) (from_ to_ : Nat) (b : Buffers) : Option Buffers := do
  let nodesInInterval := τ.nodesInInterval from_ to_
  let fromNode := from_ / τ.nodesPerLeaf
  let base := nodesInInterval * (τ.nodesPerLeaf - 1)
  let b ← expandLayers aes key base nodesInInterval fromNode b
  finalize aes key base nodesInInterval b

end

/-! Cells. -/

namespace Buffers
variable {b b' b'' : Buffers} {base N p : Nat}

/-- The nodes in the cells from block `base` on. -/
def cells (b : Buffers) (base p : Nat) : Node := (b.nodes (base + p), b.flags p)

/-- There is room for `N` cells. -/
structure Fits (b : Buffers) (base N : Nat) : Prop where
  nodes : base + N ≤ b.nodeRoom
  flags : N ≤ b.flagRoom

/-- `b'` is `b` but for the first `N` flags and the blocks before `base + N`. -/
structure Inside (base N : Nat) (b b' : Buffers) : Prop where
  nodeRoom : b'.nodeRoom = b.nodeRoom
  flagRoom : b'.flagRoom = b.flagRoom
  nodes : ∀ p, base + N ≤ p → b'.nodes p = b.nodes p
  flags : ∀ p, N ≤ p → b'.flags p = b.flags p

theorem Inside.refl (b : Buffers) : Inside base N b b := ⟨rfl, rfl, fun _ _ => rfl, fun _ _ => rfl⟩

theorem Inside.trans (h : Inside base N b b') (h' : Inside base N b' b'') : Inside base N b b'' :=
  ⟨h'.nodeRoom.trans h.nodeRoom, h'.flagRoom.trans h.flagRoom,
    fun p hp => (h'.nodes p hp).trans (h.nodes p hp), fun p hp => (h'.flags p hp).trans (h.flags p hp)⟩

theorem Fits.of_inside (h : b.Fits base N) (h' : Inside base N b b') : b'.Fits base N :=
  ⟨h'.nodeRoom ▸ h.nodes, h'.flagRoom ▸ h.flags⟩

theorem inside_put (hp : p < N) (v : Node) : Inside base N b (b.put base p v) := by
  refine ⟨rfl, rfl, ?_, ?_⟩
  · intro i hi
    exact Function.update_of_ne (by omega) _ _
  · intro i hi
    exact Function.update_of_ne (by omega) _ _

@[simp] theorem cells_put (b : Buffers) (base p : Nat) (v : Node) :
    (b.put base p v).cells base = Function.update (b.cells base) p v := by
  funext i
  by_cases hi : i = p
  · subst hi
    simp [cells, put]
  · simp [cells, put, hi]

theorem load_eq (h : b.Fits base N) (hp : p < N) : b.load base p = some (b.cells base p) := by
  have h1 : base + p < b.nodeRoom := by have := h.nodes; omega
  have h2 : p < b.flagRoom := by have := h.flags; omega
  simp only [load, readNode, readFlag, if_pos h1, if_pos h2]
  rfl

theorem store_eq (h : b.Fits base N) (hp : p < N) (v : Node) :
    b.store base p v = some (b.put base p v) := by
  have h1 : base + p < b.nodeRoom := by have := h.nodes; omega
  have h2 : p < b.flagRoom := by have := h.flags; omega
  rw [store, if_pos ⟨h1, h2⟩]

end Buffers

/-! Layers. -/

section
variable (aes : AesKey → Block → Block) {τ : LeafT}

/-- Child `d` of a node in layer `l` of a key's tree. -/
def keyChild (key : DpfKey τ) (l d : Nat) (st : Node) : Node :=
  let cw := key.cw.getD l 0
  traverse aes key.prgkey st.1 d (getLsb cw (if d ≠ 0 then 0b10 else 0b01)) cw st.2

def keyRoot (key : DpfKey τ) : Node := (key.root, getLsb key.root 0b01)

/-- The leaf nodes of a key. -/
def leafNode (key : DpfKey τ) (i : Nat) : Node :=
  node (keyChild aes key) (keyRoot key) key.depth i

section
variable {aes} {key : DpfKey τ} {base N k l q : Nat} {b : Buffers} {cw : Block}

/-- Children go from the half of the parents to the other. -/
theorem other_half (k : Nat) : 1 - k % 2 = (k + 1) % 2 := by omega

theorem traverse_eq_child (hcw : key.cw[l]? = some cw) (d : Nat) (st : Node) :
    traverse aes key.prgkey st.1 d (getLsb cw (if d ≠ 0 then 0b10 else 0b01)) cw st.2 =
      keyChild aes key l d st := by
  simp only [keyChild, List.getD_eq_getElem?_getD, hcw, Option.getD_some]

theorem traverse2_eq_children (hcw : key.cw[l]? = some cw) (st : Node) :
    traverse2 aes key.prgkey st.1 (getLsb cw 0b01, getLsb cw 0b10) cw st.2 =
      (keyChild aes key l 0 st, keyChild aes key l 1 st) := by
  rw [← traverse_eq_child hcw, ← traverse_eq_child hcw]
  rfl

section
variable {A bit c d : Nat} {mem : Nat → Node}

/-- One more cell of a layer. -/
theorem put_filled {st : Node} (h : b.cells base = filled (keyChild aes key) N k l bit c mem)
    (hq : (c + bit) / 2 = q) (hd : (c + bit) % 2 = d) (hst : mem (cell N ((k+1) % 2) q) = st) :
    (b.put base (cell N (k % 2) c) (keyChild aes key l d st)).cells base =
      filled (keyChild aes key) N k l bit (c+1) mem := by
  rw [Buffers.cells_put, h, filled_succ, hq, hd, hst]

theorem traverseAt_spec (hcw : key.cw[l]? = some cw) (hN : 0 < N) (hfit : b.Fits base N)
    (h : b.cells base = filled (keyChild aes key) N k l bit c mem) (hq : (c + bit) / 2 = q)
    (hd : (c + bit) % 2 = d) (hc : c ≤ 2*q) (hP : q < N ⌈/⌉ 2^(k+1)) (hC : c < N ⌈/⌉ 2^k) :
    ∃ b', traverseAt aes key cw base N (k % 2) d q c b = some b' ∧ b.Inside base N b' ∧
      b'.cells base = filled (keyChild aes key) N k l bit (c+1) mem := by
  have h0 := cell_lt hN hC
  have hst : b.cells base (cell N ((k+1) % 2) q) = mem (cell N ((k+1) % 2) q) := by
    rw [h, filled_parent hc hP]
  refine ⟨b.put base (cell N (k % 2) c) (keyChild aes key l d (mem (cell N ((k+1) % 2) q))), ?_,
    Buffers.inside_put h0 _, put_filled h hq hd rfl⟩
  rw [traverseAt, other_half, Buffers.load_eq hfit (cell_lt hN hP), hst]
  simp only [Option.bind_eq_bind, Option.bind_some, traverse_eq_child hcw, Buffers.store_eq hfit h0]

theorem traverse2At_spec (hcw : key.cw[l]? = some cw) (hN : 0 < N) (hfit : b.Fits base N)
    (h : b.cells base = filled (keyChild aes key) N k l bit c mem) (hq : c + bit = 2*q)
    (hP : q < N ⌈/⌉ 2^(k+1)) (hC : c + 1 < N ⌈/⌉ 2^k) :
    ∃ b', traverse2At aes key cw base N (k % 2) q c b = some b' ∧ b.Inside base N b' ∧
      b'.cells base = filled (keyChild aes key) N k l bit (c+2) mem := by
  have h0 := cell_lt hN (show c < N ⌈/⌉ 2^k by omega)
  have h1 := cell_lt hN hC
  have hst : b.cells base (cell N ((k+1) % 2) q) = mem (cell N ((k+1) % 2) q) := by
    rw [h, filled_parent (by omega) hP]
  generalize hmem : mem (cell N ((k+1) % 2) q) = st at hst
  have hin : b.Inside base N (b.put base (cell N (k % 2) c) (keyChild aes key l 0 st)) :=
    Buffers.inside_put h0 _
  have hleft := put_filled (d := 0) h (by omega) (by omega) hmem
  refine ⟨(b.put base (cell N (k % 2) c) (keyChild aes key l 0 st)).put base
    (cell N (k % 2) (c+1)) (keyChild aes key l 1 st), ?_, hin.trans (Buffers.inside_put h1 _),
    put_filled (d := 1) hleft (by omega) (by omega) hmem⟩
  rw [traverse2At, other_half, Buffers.load_eq hfit (cell_lt hN hP), hst]
  simp only [Option.bind_eq_bind, Option.bind_some, traverse2_eq_children hcw,
    Buffers.store_eq hfit h0, Buffers.store_eq (hfit.of_inside hin) h1]

variable (aes) in
theorem evalFirst_spec (hcw : key.cw[l]? = some cw) (hN : 0 < N) (hfit : b.Fits base N)
    (hbit : bit < 2) :
    ∃ b', evalFirst aes key cw base N (k % 2) bit b = some b' ∧ b.Inside base N b' ∧
      b'.cells base = filled (keyChild aes key) N k l bit bit (b.cells base) := by
  rw [evalFirst]
  split
  · next h1 =>
    subst h1
    exact traverseAt_spec hcw hN hfit filled_zero.symm rfl rfl (Nat.le_refl 0)
      (ceilDiv_two_pow_pos hN (k+1)) (ceilDiv_two_pow_pos hN k)
  · next h1 =>
    obtain rfl : bit = 0 := by omega
    exact ⟨b, rfl, Buffers.Inside.refl b, filled_zero.symm⟩

theorem evalLast_spec (hcw : key.cw[l]? = some cw) (hN : 0 < N) (hfit : b.Fits base N)
    (hbit : bit < 2)
    (h : b.cells base = filled (keyChild aes key) N k l bit
      (bit + 2*(N ⌈/⌉ 2^(k+1) - 1 - bit)) mem) :
    ∃ b', evalLast aes key cw base N (k % 2) (N ⌈/⌉ 2^(k+1)) (N ⌈/⌉ 2^k)
        (bit + (N ⌈/⌉ 2^(k+1) - 1 - bit)) (bit + 2*(N ⌈/⌉ 2^(k+1) - 1 - bit)) b = some b' ∧
      b.Inside base N b' ∧
      b'.cells base = filled (keyChild aes key) N k l bit (filledSize N k bit) mem := by
  have hP := ceilDiv_two_pow_succ N k
  have hPpos := ceilDiv_two_pow_pos hN (k+1)
  have hCpos := ceilDiv_two_pow_pos hN k
  have hpred : predSize (N ⌈/⌉ 2^k) = N ⌈/⌉ 2^k - 1 := if_neg (by omega)
  rw [evalLast, hpred]
  split
  · split
    · -- the last parent has two children
      have hsize : filledSize N k bit = bit + 2*(N ⌈/⌉ 2^(k+1) - 1 - bit) + 2 := by
        unfold filledSize
        omega
      rw [hsize]
      exact traverse2At_spec hcw hN hfit h (by omega) (by omega) (by omega)
    · -- the last parent's right child is behind the layer
      have hsize : filledSize N k bit = bit + 2*(N ⌈/⌉ 2^(k+1) - 1 - bit) + 1 := by
        unfold filledSize
        omega
      rw [hsize]
      exact traverseAt_spec hcw hN hfit h (by omega) (by omega) (by omega) (by omega) (by omega)
  · -- a single parent, whose left child is before the interval
    have hsize : filledSize N k bit = bit + 2*(N ⌈/⌉ 2^(k+1) - 1 - bit) := by
      unfold filledSize
      omega
    rw [hsize]
    exact ⟨b, rfl, Buffers.Inside.refl b, h⟩

variable (aes) in
/-- One layer fills the other half from the half above it. -/
theorem evalLayer_spec {fromNode : Nat} (hcw : l < key.cw.length) (hl : key.depth = l + (k+1))
    (hN : 0 < N) (hfit : b.Fits base N) (hbit : inputBit key.inputBits l fromNode = A / 2^k % 2) :
    ∃ b', evalLayer aes key base N fromNode l ((k+1) % 2, b) = some (k % 2, b') ∧ b.Inside base N b' ∧
      b'.cells base = filled (keyChild aes key) N k l (A / 2^k % 2)
        (filledSize N k (A / 2^k % 2)) (b.cells base) := by
  have hcw' : key.cw[l]? = some key.cw[l] := List.getElem?_eq_getElem hcw
  have hP := ceilDiv_two_pow_succ N k
  have hlt : A / 2^k % 2 < 2 := Nat.mod_lt _ (by omega)
  generalize A / 2^k % 2 = bit at hbit hlt
  have hcur : 1 - (k+1) % 2 = k % 2 := by omega
  have hk1 : key.depth - l = k + 1 := by omega
  have hk : k + 1 - 1 = k := by omega
  have hpred : predSize (N ⌈/⌉ 2^(k+1)) = N ⌈/⌉ 2^(k+1) - 1 :=
    if_neg (Nat.pos_iff_ne_zero.mp (ceilDiv_two_pow_pos hN (k+1)))
  obtain ⟨b₁, hfirst, hin₁, hcells₁⟩ := evalFirst_spec aes (k := k) hcw' hN hfit hlt
  -- the parents between the first and the last
  obtain ⟨b₂, hrun, hin₂, hcells₂⟩ := forUp_spec
    (f := fun q => traverse2At aes key key.cw[l] base N (k % 2) (bit + q) (bit + 2*q))
    (fun q b' => b.Inside base N b' ∧
      b'.cells base = filled (keyChild aes key) N k l bit (bit + 2*q) (b.cells base))
    (n := N ⌈/⌉ 2^(k+1) - 1 - bit) ⟨hin₁, hcells₁⟩ (by
      intro q b' hq ⟨hin, hcells⟩
      obtain ⟨b'', hb, hin', hcells'⟩ := traverse2At_spec hcw' hN (hfit.of_inside hin) hcells
        (q := bit + q) (by omega) (by omega) (by omega)
      exact ⟨b'', hb, hin.trans hin', hcells'⟩)
  obtain ⟨b₃, hlast, hin₃, hcells₃⟩ := evalLast_spec hcw' hN (hfit.of_inside hin₂) hlt hcells₂
  refine ⟨b₃, ?_, hin₂.trans hin₃, hcells₃⟩
  simp only [evalLayer, evalLayerNodes, hcw', hbit, hcur, hk1, hk, hpred, Option.bind_eq_bind, Option.bind_some,
    hfirst, hrun, hlast]
  rfl

end

variable (aes key) in
/-- The memory after the layers, when the interval starts at node `A`. -/
theorem expandLayers_run {A fromNode : Nat} (hcw : key.depth ≤ key.cw.length) (hN : 0 < N)
    (hd : N ≤ 2^key.depth) (hfit : b.Fits base N)
    (hbit : ∀ l k, key.depth = l + (k+1) → inputBit key.inputBits l fromNode = A / 2^k % 2) :
    ∃ b', expandLayers aes key base N fromNode b = some b' ∧ b.Inside base N b' ∧
      b'.cells base =
        layers (keyChild aes key) (keyRoot key) A N key.depth (b.cells base) key.depth := by
  have hone := ceilDiv_two_pow_eq_one hN hd
  have h0 := cell_lt hN (show 0 < N ⌈/⌉ 2^key.depth by omega)
  have hin₀ : b.Inside base N (b.put base (cell N (key.depth % 2) 0) (keyRoot key)) :=
    Buffers.inside_put h0 (keyRoot key)
  -- after l layers the nodes are in the half that `cur` names
  obtain ⟨⟨cur, b₁⟩, hrun, -, hin₁, hcells⟩ := forUp_spec
    (f := evalLayer aes key base N fromNode) (n := key.depth)
    (fun l st => st.1 = (key.depth - l) % 2 ∧ b.Inside base N st.2 ∧
      st.2.cells base = layers (keyChild aes key) (keyRoot key) A N key.depth (b.cells base) l)
    (s := (key.depth % 2, b.put base (cell N (key.depth % 2) 0) (keyRoot key)))
    ⟨rfl, hin₀, Buffers.cells_put _ _ _ _⟩ (by
      rintro l ⟨cur, b'⟩ hl ⟨rfl, hin, hcells⟩
      obtain ⟨k, hk⟩ : ∃ k, key.depth = l + (k + 1) := ⟨key.depth - l - 1, by omega⟩
      have hk1 : key.depth - l = k + 1 := by omega
      have hk2 : key.depth - (l+1) = k := by omega
      obtain ⟨b'', hb, hin', hcells'⟩ := evalLayer_spec aes (by omega) hk hN
        (hfit.of_inside hin) (hbit l k hk)
      simp only [hk1, hk2]
      refine ⟨_, hb, rfl, hin.trans hin', ?_⟩
      rw [layers, show key.depth - l - 1 = k by omega, ← hcells]
      exact hcells')
  refine ⟨b₁, ?_, hin₁, hcells⟩
  rw [expandLayers, Buffers.store_eq hfit h0]
  simp only [Option.bind_eq_bind, Option.bind_some]
  rw [show (key.root, getLsb key.root 0b01) = keyRoot key from rfl, hrun]
  rfl

variable (aes key) in
/-- On the full domain the layers leave the first `N` leaf nodes in the first `N` cells. -/
theorem expandLayers_spec (hcw : key.depth ≤ key.cw.length) (hN : 0 < N) (hd : N ≤ 2^key.depth)
    (hfit : b.Fits base N) :
    ∃ b', expandLayers aes key base N 0 b = some b' ∧ b.Inside base N b' ∧
      ∀ m, m < N → b'.cells base m = node (keyChild aes key) (keyRoot key) key.depth m := by
  obtain ⟨b', hrun, hin, hcells⟩ := expandLayers_run (A := 0) aes key hcw hN hd hfit
    fun l k _ => show inputBit key.inputBits l 0 = 0 / 2^k % 2 by simp [inputBit]
  refine ⟨b', hrun, hin, ?_⟩
  intro m hm
  have hlast := lastCell_zero hN 0
  have h := layers_window (keyChild aes key) (keyRoot key) (b.cells base) (m := m) (k := 0) hN (by omega)
    (aligned_zero N key.depth) rfl (by omega)
  rw [cell, Nat.zero_mod, Nat.zero_mul, Nat.zero_add, Nat.zero_div, Nat.zero_add] at h
  rw [hcells]
  exact h

/-! Finalizing in place. -/

/-- Both buffers with `n` blocks `g` from block `start` on. -/
def Buffers.fill (b : Buffers) (start n : Nat) (g : Nat → Block) : Buffers :=
  { b with nodes := fun p => if start ≤ p ∧ p < start + n then g (p - start) else b.nodes p }

section
variable {start n : Nat} {g g' : Nat → Block}

theorem Buffers.fill_zero (b : Buffers) : b.fill start 0 g = b := by
  have h : ∀ p, ¬ (start ≤ p ∧ p < start + 0) := by omega
  simp only [Buffers.fill, if_neg (h _)]

theorem Buffers.fill_fill (b : Buffers) : (b.fill start n g).fill start n g' = b.fill start n g' := by
  simp only [Buffers.fill, Buffers.mk.injEq, and_true]
  funext p
  split <;> rfl

theorem Buffers.writeNode_fill (h : start + n < b.nodeRoom) :
    (b.fill start n g).writeNode (start + n) (g n) = some (b.fill start (n+1) g) := by
  rw [Buffers.writeNode, if_pos (show start + n < (b.fill start n g).nodeRoom from h)]
  simp only [Buffers.fill, Option.some.injEq, Buffers.mk.injEq, and_true]
  funext p
  by_cases hp : p = start + n
  · subst hp
    rw [Function.update_self, if_pos (by omega), Nat.add_sub_cancel_left]
  · have hiff : (start ≤ p ∧ p < start + n) ↔ (start ≤ p ∧ p < start + (n+1)) := by omega
    simp only [Function.update_of_ne hp, hiff]

theorem forUp_fill (h : start + n ≤ b.nodeRoom) :
    forUp (fun j b => b.writeNode (start + j) (g j)) n b = some (b.fill start n g) := by
  obtain ⟨b', hrun, rfl⟩ := forUp_spec (f := fun j b => Buffers.writeNode b (start + j) (g j))
    (fun j b' => b' = b.fill start j g) (n := n) (s := b) (b.fill_zero).symm
    (fun j b' hj hb => ⟨_, by rw [hb]; exact Buffers.writeNode_fill (by omega), rfl⟩)
  exact hrun

/-- Correcting `n` blocks in place under the flag `i`. -/
theorem forUp_correct {f : Nat → Block} {i : Nat} (h : start + n ≤ b.nodeRoom)
    (hi : i < b.flagRoom) :
    forUp (fun j b => do
      let v ← b.readNode (start + j)
      let t ← b.readFlag i
      b.writeNode (start + j) (xorIf v (f j) (t ≠ 0))) n (b.fill start n g) =
      some (b.fill start n fun j => xorIf (g j) (f j) (b.flags i ≠ 0)) := by
  -- blocks below j are corrected, the others still stretched
  generalize hg : (fun j => xorIf (g j) (f j) (b.flags i ≠ 0)) = g'
  obtain ⟨b', hrun, rfl⟩ := forUp_spec (f := fun j b => do
      let v ← Buffers.readNode b (start + j)
      let t ← Buffers.readFlag b i
      b.writeNode (start + j) (xorIf v (f j) (t ≠ 0)))
    (fun j b' => b' = (b.fill start n g).fill start j g') (n := n)
    (s := b.fill start n g) (Buffers.fill_zero _).symm
    (fun j b' hj hb => by
      refine ⟨_, ?_, rfl⟩
      have hroom : start + j < ((b.fill start n g).fill start j g').nodeRoom := by
        show start + j < b.nodeRoom
        omega
      have hread : ((b.fill start n g).fill start j g').readNode (start + j) = some (g j) := by
        rw [Buffers.readNode, if_pos hroom]
        simp only [Buffers.fill]
        rw [if_neg (by omega), if_pos (by omega), Nat.add_sub_cancel_left]
      have hflag : ((b.fill start n g).fill start j g').readFlag i = some (b.flags i) := if_pos hi
      rw [hb, hread, hflag]
      have hw := Buffers.writeNode_fill (b := b.fill start n g) (g := g') hroom
      rwa [← hg] at hw ⊢)
  rw [hrun, Buffers.fill_fill]

end

variable (aes key) in
/-- Node `i` of `finalize`: its seed and flag are read, and its blocks written. -/
theorem finalize_node {i : Nat} {v : Node} (hin : i * τ.nodesPerLeaf + τ.nodesPerLeaf ≤ b.nodeRoom)
    (hi : i < b.flagRoom) (hseed : b.readNode (base + i) = some v.1) (hflag : b.flags i = v.2) :
    (do
      let seed ← b.readNode (base + i)
      let b ← forUp (fun j b => b.writeNode (i * τ.nodesPerLeaf + j)
        (stretchLeaf aes key.prgkey seed j)) τ.nodesPerLeaf b
      forUp (fun j b => do
        let v ← b.readNode (i * τ.nodesPerLeaf + j)
        let t ← b.readFlag i
        b.writeNode (i * τ.nodesPerLeaf + j) (xorIf v (key.finalizerBlock j) (t ≠ 0)))
        τ.nodesPerLeaf b) =
      some (b.fill (i * τ.nodesPerLeaf) τ.nodesPerLeaf (finalBlock aes key v)) := by
  simp only [hseed, Option.bind_eq_bind, Option.bind_some, forUp_fill hin]
  have hcor := forUp_correct (g := stretchLeaf aes key.prgkey v.1) (f := key.finalizerBlock) hin hi
  rw [hflag] at hcor
  exact hcor

/-- The first `i` nodes are finalized, the other seeds and the flags are those of `st` and `b`. -/
structure FinalizedTo (aes : AesKey → Block → Block) (key : DpfKey τ) (base N : Nat) (st : Nat → Node)
    (b : Buffers) (i : Nat) (b' : Buffers) : Prop where
  done : ∀ i' j, i' < i → j < τ.nodesPerLeaf →
    b'.nodes (i' * τ.nodesPerLeaf + j) = finalBlock aes key (st i') j
  todo : ∀ i', i ≤ i' → i' < N → b'.nodes (base + i') = (st i').1
  flags : b'.flags = b.flags
  nodeRoom : b'.nodeRoom = b.nodeRoom
  flagRoom : b'.flagRoom = b.flagRoom

/-- Finalizing node `i` reaches neither a finalized node nor a seed behind it. -/
theorem FinalizedTo.step {st : Nat → Node} {b₁ : Buffers} {i : Nat}
    (hend : i * τ.nodesPerLeaf + τ.nodesPerLeaf ≤ base + i + 1)
    (h : FinalizedTo aes key base N st b i b₁) :
    FinalizedTo aes key base N st b (i+1)
      (b₁.fill (i * τ.nodesPerLeaf) τ.nodesPerLeaf (finalBlock aes key (st i))) where
  done i' j hi' hj := by
    simp only [Buffers.fill]
    by_cases heq : i' = i
    · subst heq
      rw [if_pos (by omega), Nat.add_sub_cancel_left]
    · have hlt : i' * τ.nodesPerLeaf + τ.nodesPerLeaf ≤ i * τ.nodesPerLeaf := by
        rw [← Nat.succ_mul]
        exact Nat.mul_le_mul_right _ (by omega)
      rw [if_neg (by omega)]
      exact h.done i' j (by omega) hj
  todo i' hi' hN' := by
    simp only [Buffers.fill]
    rw [if_neg (by omega)]
    exact h.todo i' (by omega) hN'
  flags := h.flags
  nodeRoom := h.nodeRoom
  flagRoom := h.flagRoom

variable (aes key) in
/-- Stretching the seeds in place, which lie behind the leaves they become, leaves the
    finalized leaves. -/
theorem finalize_spec {st : Nat → Node} (hnpl : 0 < τ.nodesPerLeaf)
    (hbase : base = N * (τ.nodesPerLeaf - 1)) (hroom : N * τ.nodesPerLeaf ≤ b.nodeRoom)
    (hflags : N ≤ b.flagRoom) (h : ∀ m, m < N → b.cells base m = st m) :
    ∃ b', finalize aes key base N b = some b' ∧ b'.flags = b.flags ∧
      ∀ i j, i < N → j < τ.nodesPerLeaf →
        b'.nodes (i * τ.nodesPerLeaf + j) = finalBlock aes key (st i) j := by
  obtain ⟨c, hc⟩ : ∃ c, τ.nodesPerLeaf = c + 1 := ⟨τ.nodesPerLeaf - 1, by omega⟩
  have hbase' : base = N * c := by rw [hbase, hc, Nat.add_sub_cancel]
  -- the last block of node `i` is at most its seed's
  have hend : ∀ i, i < N → i * τ.nodesPerLeaf + τ.nodesPerLeaf ≤ base + i + 1 := by
    intro i hi
    have hmul : (i + 1) * c ≤ N * c := Nat.mul_le_mul_right c hi
    rw [hbase', hc, Nat.mul_succ]
    rw [Nat.succ_mul] at hmul
    omega
  have hstart : FinalizedTo aes key base N st b 0 b :=
    ⟨fun i' _ hi' => absurd hi' (by omega), fun i' _ hi' => congrArg Prod.fst (h i' hi'), rfl, rfl, rfl⟩
  obtain ⟨b', hrun, hfin⟩ := forUp_spec (n := N) (FinalizedTo aes key base N st b) hstart
      fun i b₁ hi hb => by
    have hseed : b₁.readNode (base + i) = some (st i).1 := by
      have hlt : base + i < b₁.nodeRoom := by
        have hmul : N * τ.nodesPerLeaf = base + N := by rw [hbase', hc, Nat.mul_succ]
        rw [hb.nodeRoom]
        omega
      rw [Buffers.readNode, if_pos hlt, hb.todo i (Nat.le_refl i) hi]
    have hflag : b₁.flags i = (st i).2 := by
      rw [hb.flags]
      exact congrArg Prod.snd (h i hi)
    have hin : i * τ.nodesPerLeaf + τ.nodesPerLeaf ≤ b₁.nodeRoom := by
      rw [hb.nodeRoom, ← Nat.succ_mul]
      exact (Nat.mul_le_mul_right _ hi).trans hroom
    have hi' : i < b₁.flagRoom := hb.flagRoom ▸ hi.trans_le hflags
    exact ⟨_, finalize_node aes key hin hi' hseed hflag, hb.step (hend i hi)⟩
  exact ⟨b', hrun, hfin.flags, fun i j hi hj => hfin.done i j hi hj⟩

/-! The whole evaluation. -/

variable (aes key) in
/-- Full-domain evaluation leaves every leaf node finalized and its flag in place, and no
    other flag changed. -/
theorem evalInterval_full (hn : 0 < key.nitems) (hcw : key.depth ≤ key.cw.length)
    (hnodes : τ.nodes key.nitems * τ.nodesPerLeaf ≤ b.nodeRoom)
    (hflags : τ.nodes key.nitems ≤ b.flagRoom) :
    ∃ b', evalInterval aes key 0 (key.nitems - 1) b = some b' ∧
      (∀ i j, i < τ.nodes key.nitems → j < τ.nodesPerLeaf →
        b'.nodes (i * τ.nodesPerLeaf + j) = finalBlock aes key (leafNode aes key i) j) ∧
      (∀ i, i < τ.nodes key.nitems → b'.flags i = (leafNode aes key i).2) ∧
      ∀ i, τ.nodes key.nitems ≤ i → b'.flags i = b.flags i := by
  have hN := τ.nodes_pos hn
  have hfit : b.Fits (τ.nodes key.nitems * (τ.nodesPerLeaf - 1)) (τ.nodes key.nitems) := by
    refine ⟨?_, hflags⟩
    have hpos := τ.nodesPerLeaf_pos
    rw [← Nat.mul_succ, show (τ.nodesPerLeaf - 1).succ = τ.nodesPerLeaf by omega]
    exact hnodes
  obtain ⟨b₁, hrun₁, hin, hcells⟩ := expandLayers_spec aes key hcw hN
    (τ.nodes_le_two_pow key.nitems) hfit
  obtain ⟨b₂, hrun₂, hfl, hout⟩ := finalize_spec aes key τ.nodesPerLeaf_pos rfl
    (show τ.nodes key.nitems * τ.nodesPerLeaf ≤ b₁.nodeRoom by rw [hin.nodeRoom]; exact hnodes)
    (show τ.nodes key.nitems ≤ b₁.flagRoom by rw [hin.flagRoom]; exact hflags) hcells
  refine ⟨b₂, ?_, hout, ?_, ?_⟩
  · simp only [evalInterval, τ.nodesInInterval_full hn, Nat.zero_div, Option.bind_eq_bind, hrun₁,
      Option.bind_some, hrun₂]
  -- finalizing leaves the flags
  · intro i hi
    rw [hfl]
    exact congrArg Prod.snd (hcells i hi)
  · intro i hi
    rw [hfl]
    exact hin.flags i hi

/-- `eval` walks down the tree to the leaf's node. -/
theorem evalPath_eq (hcw : key.depth ≤ key.cw.length) (x : Nat) {l : Nat} (hl : l ≤ key.depth) :
    evalPath aes key x l =
      some (node (keyChild aes key) (keyRoot key) l (x / 2^(key.inputBits - l))) := by
  have hdepth : key.depth ≤ key.inputBits := by
    have := τ.depth_eq key.nitems
    simp only [DpfKey.depth, DpfKey.inputBits]
    omega
  induction l with
  | zero => rfl
  | succ l ih =>
    have hcw' : key.cw[l]? = some key.cw[l] := List.getElem?_eq_getElem (by omega)
    have hbit : inputBit key.inputBits l x = x / 2^(key.inputBits - (l+1)) % 2 := by
      rw [inputBit, Nat.shiftRight_eq_div_pow]
      rfl
    have hup : x / 2^(key.inputBits - l) = x / 2^(key.inputBits - (l+1)) / 2 := by
      rw [show key.inputBits - l = key.inputBits - (l+1) + 1 by omega, Nat.pow_succ,
        Nat.div_div_eq_div_mul]
    simp only [evalPath, ih (by omega), hcw', Option.bind_eq_bind, Option.bind_some,
      traverse_eq_child hcw', hbit, hup, node]
    rfl

theorem eval_eq (hcw : key.depth ≤ key.cw.length) (x : Nat) :
    eval aes key x = some (leafAt τ (finalBlock aes key (leafNode aes key (x / τ.leavesPerNode)))
      (x % τ.leavesPerNode)) := by
  have hnode : node (keyChild aes key) (keyRoot key) key.depth (x / 2^(key.inputBits - key.depth)) =
      leafNode aes key (x / τ.leavesPerNode) := by
    have hd : key.depth = key.inputBits - τ.laneBits := τ.depth_eq key.nitems
    by_cases h0 : key.depth = 0
    · simp only [leafNode, h0, node]
    · rw [leafNode, τ.leavesPerNode_eq, show key.inputBits - key.depth = τ.laneBits by omega]
  have hlane : (if τ.isPacked then x % τ.leavesPerNode else 0) = x % τ.leavesPerNode := by
    split
    · rfl
    · next hp => rw [τ.leavesPerNode_eq_one (by simpa using hp), Nat.mod_one]
  rw [eval, evalPath_eq hcw x (Nat.le_refl _), hnode, hlane]
  rfl

/-- Full-domain evaluation in the shared buffer agrees with `eval`, for any key with enough
    correction words and in any buffers with room for the nodes. -/
theorem evalInterval_eq_eval (aes : AesKey → Block → Block) {τ : LeafT} (key : DpfKey τ)
    (hn : 0 < key.nitems) (hcw : key.cw.length = key.depth) (b : Buffers)
    (hnodes : τ.nodes key.nitems * τ.nodesPerLeaf ≤ b.nodeRoom)
    (hflags : τ.nodes key.nitems ≤ b.flagRoom) :
    ∃ b', evalInterval aes key 0 (key.nitems - 1) b = some b' ∧
      ∀ x, x < key.nitems → eval aes key x = some (leafAt τ b'.nodes x) := by
  obtain ⟨b', hrun, hout, -, -⟩ := evalInterval_full aes key hn (by omega) hnodes hflags
  refine ⟨b', hrun, ?_⟩
  intro x hx
  rw [eval_eq (by omega) x]
  congr 1
  exact (leafAt_of_node τ fun j hj => hout _ j (τ.div_lt_nodes hx) hj).symm

theorem evalInterval_eq_eval_three :
    ∃ b', evalInterval (fun _ b => b) (⟨3, 7, [5], Vector.replicate 1 9, 0⟩ : DpfKey .uint64) 0 (3 - 1)
        ⟨fun _ => 0, fun _ => 0, 2, 2⟩ = some b' ∧
      ∀ x, x < 3 → eval (fun _ b => b) (⟨3, 7, [5], Vector.replicate 1 9, 0⟩ : DpfKey .uint64) x =
        some (leafAt .uint64 b'.nodes x) :=
  evalInterval_eq_eval (fun _ b => b) (⟨3, 7, [5], Vector.replicate 1 9, 0⟩ : DpfKey .uint64)
    (by decide) (by decide) ⟨fun _ => 0, fun _ => 0, 2, 2⟩ (by decide) (by decide)

end

end

end Mpc
