import Mpc.Dpf.Gen
import Mpc.Dpf.Sizes

/- `__evalinterval` on sub-intervals and in the buffers its callers allocate
   (dpf.hpp). The layers get their sizes from the number of nodes alone, so an
   interval whose ends lie badly has more ancestors than a layer has cells; and the
   start node is the first item divided by the nodes of a leaf, not by the leaves
   of a node. `evalInterval_agrees_iff` says which intervals agree with `eval` for
   every key, as long as the sizes are exact (Sizes.lean). Where one does not, two keys
   that differ in one flag of one correction word (`probe`) have different leaves but the
   same output.

   Callers allocate a vector of the leaves they want, and `finalize` writes whole
   nodes: `fullDomain_inside_iff` says when these lie in the vector. -/
namespace Mpc
open LE Loop BinTree Double

/-! Intervals. -/

namespace LeafT
variable (τ : LeafT) {from_ to_ nitems : Nat}

theorem nodesInInterval_eq (h : from_ ≤ to_) : τ.nodesInInterval from_ to_ =
    to_ / τ.leavesPerNode - from_ / τ.leavesPerNode + 1 := by
  have hpos := τ.leavesPerNode_pos
  have hle : from_ / τ.leavesPerNode ≤ to_ / τ.leavesPerNode := Nat.div_le_div_right h
  have hceil : (to_ + 1) ⌈/⌉ τ.leavesPerNode = to_ / τ.leavesPerNode + 1 := by
    rw [Nat.ceilDiv_eq_add_pred_div, show to_ + 1 + τ.leavesPerNode - 1 = to_ + τ.leavesPerNode by omega,
      Nat.add_div_right _ hpos]
  rw [nodesInInterval, if_neg (by omega), hceil]
  omega

theorem nodesInInterval_pos (h : from_ ≤ to_) : 0 < τ.nodesInInterval from_ to_ := by
  rw [τ.nodesInInterval_eq h]
  omega

/-- The nodes of an interval are nodes of the tree. -/
theorem interval_le (h : from_ ≤ to_) (hto : to_ < nitems) :
    from_ / τ.leavesPerNode + τ.nodesInInterval from_ to_ ≤ 2^τ.depth nitems := by
  have hle : from_ / τ.leavesPerNode ≤ to_ / τ.leavesPerNode := Nat.div_le_div_right h
  have hnode := τ.div_lt_nodes hto
  have hpow := τ.nodes_le_two_pow nitems
  rw [τ.nodesInInterval_eq h]
  omega

end LeafT

section
variable (lib : Log2) (aes : AesKey → Block → Block) {τ : LeafT}

/-- `__evalinterval` on the items `from_`, …, `to_` of every key for `nitems` items leaves the
    interval's nodes at the start of the output, so that `eval` of its items can be read there. -/
def IntervalAgrees (τ : LeafT) (nitems from_ to_ : Nat) : Prop :=
  ∀ (key : DpfKey τ) (b : Buffers), key.nitems = nitems → τ.depthDouble lib nitems = some key.cw.length →
    τ.nodesInInterval from_ to_ * τ.nodesPerLeaf ≤ b.nodeRoom →
    τ.nodesInInterval from_ to_ ≤ b.flagRoom →
    ∃ b', evalIntervalDouble lib aes key from_ to_ b = some b' ∧
      (∀ i j, from_ / τ.leavesPerNode + i ≤ to_ / τ.leavesPerNode → j < τ.nodesPerLeaf →
        b'.nodes (i * τ.nodesPerLeaf + j) =
          finalBlock aes key (leafNode aes key (from_ / τ.leavesPerNode + i)) j) ∧
      ∀ x, from_ ≤ x → x ≤ to_ → evalDouble lib aes key x =
        some (leafAt τ b'.nodes (x - τ.leavesPerNode * (from_ / τ.leavesPerNode)))

/-- The start node is the one of the first item, and the interval's nodes have as many ancestors
    in every layer as the layer has cells. -/
def WellPlaced (τ : LeafT) (nitems from_ to_ : Nat) : Prop :=
  (τ.nodesPerLeaf = 1 ∨ from_ = 0) ∧
    Aligned (from_ / τ.leavesPerNode) (τ.nodesInInterval from_ to_) (τ.depth nitems)

instance (τ : LeafT) (nitems from_ to_ : Nat) : Decidable (WellPlaced τ nitems from_ to_) :=
  inferInstanceAs (Decidable (_ ∧ _))

/-- The last layer of an evaluation that starts in the memory `mem`. -/
def lastLayer (key : DpfKey τ) (from_ to_ : Nat) (mem : Nat → Node) : Nat → Node :=
  layers (keyChild aes key) (keyRoot key) (from_ / τ.nodesPerLeaf / τ.leavesPerNode)
    (τ.nodesInInterval from_ to_) key.depth mem key.depth

variable {lib aes} {key : DpfKey τ} {from_ to_ nitems : Nat} {b : Buffers}

variable (aes) in
/-- Every evaluation with enough room ends with its last layer finalized. -/
theorem evalInterval_run (h : from_ ≤ to_) (hto : to_ < key.nitems) (hcw : key.cw.length = key.depth)
    (hnodes : τ.nodesInInterval from_ to_ * τ.nodesPerLeaf ≤ b.nodeRoom)
    (hflags : τ.nodesInInterval from_ to_ ≤ b.flagRoom) :
    ∃ b', evalInterval aes key from_ to_ b = some b' ∧
      ∀ i j, i < τ.nodesInInterval from_ to_ → j < τ.nodesPerLeaf →
        b'.nodes (i * τ.nodesPerLeaf + j) = finalBlock aes key
          (lastLayer aes key from_ to_ (b.cells (τ.nodesInInterval from_ to_ * (τ.nodesPerLeaf - 1)))
            (cell (τ.nodesInInterval from_ to_) 0 i)) j := by
  have hN := τ.nodesInInterval_pos h
  have hle := τ.interval_le h hto
  have hpos := τ.nodesPerLeaf_pos
  have hfit : b.Fits (τ.nodesInInterval from_ to_ * (τ.nodesPerLeaf - 1))
      (τ.nodesInInterval from_ to_) := by
    refine ⟨?_, hflags⟩
    rwa [← Nat.mul_succ, show (τ.nodesPerLeaf - 1).succ = τ.nodesPerLeaf by omega]
  -- the source takes the path of `from_` divided twice
  have hbit : ∀ l k, key.depth = l + (k+1) → inputBit key.inputBits l (from_ / τ.nodesPerLeaf) =
      from_ / τ.nodesPerLeaf / τ.leavesPerNode / 2^k % 2 := by
    intro l k hk
    rw [DpfKey.depth] at hk
    rw [DpfKey.inputBits, inputBit_eq τ (show l < τ.depth key.nitems by omega),
      show τ.depth key.nitems - l - 1 = k by omega]
  obtain ⟨b₁, hrun₁, hin, hcells⟩ := expandLayers_run aes key hcw.ge hN
    (Nat.le_trans (Nat.le_add_left _ _) hle) hfit hbit
  obtain ⟨b₂, hrun₂, -, hout⟩ := finalize_spec (b := b₁) aes key hpos rfl (hin.nodeRoom ▸ hnodes)
    (hin.flagRoom ▸ hflags) fun m _ => rfl
  refine ⟨b₂, ?_, ?_⟩
  · rw [evalInterval, hrun₁]
    exact hrun₂
  · intro i j hi hj
    rw [hout i j hi hj, hcells, cell, Nat.zero_mul, Nat.zero_add, lastLayer]

/-- A leaf of the interval is read behind the interval's first node. -/
theorem leaf_of_interval {mem : Nat → Block} (hcw : key.cw.length = key.depth) {x : Nat}
    (hx : from_ ≤ x) (hxto : x ≤ to_)
    (hmem : ∀ i j, from_ / τ.leavesPerNode + i ≤ to_ / τ.leavesPerNode → j < τ.nodesPerLeaf →
      mem (i * τ.nodesPerLeaf + j) =
        finalBlock aes key (leafNode aes key (from_ / τ.leavesPerNode + i)) j) :
    eval aes key x = some (leafAt τ mem (x - τ.leavesPerNode * (from_ / τ.leavesPerNode))) := by
  have hlo : from_ / τ.leavesPerNode ≤ x / τ.leavesPerNode := Nat.div_le_div_right hx
  have hhi : x / τ.leavesPerNode ≤ to_ / τ.leavesPerNode := Nat.div_le_div_right hxto
  have hdiv : (x - τ.leavesPerNode * (from_ / τ.leavesPerNode)) / τ.leavesPerNode =
      x / τ.leavesPerNode - from_ / τ.leavesPerNode := Nat.sub_mul_div _ _ _
  have hmod : (x - τ.leavesPerNode * (from_ / τ.leavesPerNode)) % τ.leavesPerNode =
      x % τ.leavesPerNode := by
    refine Nat.sub_mul_mod ?_
    calc τ.leavesPerNode * (from_ / τ.leavesPerNode) ≤ τ.leavesPerNode * (x / τ.leavesPerNode) :=
          Nat.mul_le_mul_left _ hlo
      _ ≤ x := Nat.mul_div_le x _
  rw [eval_eq hcw.ge, ← hmod]
  refine congrArg some (leafAt_of_node τ fun j hj => ?_).symm
  rw [hdiv, hmem _ j (by omega) hj, Nat.add_sub_cancel' hlo]

theorem agrees_of_wellPlaced (hmax : nitems ≤ 2^48) (h : from_ ≤ to_) (hto : to_ < nitems)
    (hplaced : WellPlaced τ nitems from_ to_) : IntervalAgrees lib aes τ nitems from_ to_ := by
  rintro key b rfl hdepth hnodes hflags
  have hcw : key.cw.length = key.depth := ((τ.depthDouble_iff lib hmax).mp hdepth).2
  obtain ⟨hstart, haligned⟩ := hplaced
  -- where the second division does nothing
  have hA : from_ / τ.nodesPerLeaf / τ.leavesPerNode = from_ / τ.leavesPerNode := by
    rcases hstart with h1 | h0
    · rw [h1, Nat.div_one]
    · rw [h0, Nat.zero_div]
  obtain ⟨b', hrun, hout⟩ := evalInterval_run aes h hto hcw hnodes hflags
  have hall : ∀ i j, from_ / τ.leavesPerNode + i ≤ to_ / τ.leavesPerNode → j < τ.nodesPerLeaf →
      b'.nodes (i * τ.nodesPerLeaf + j) =
        finalBlock aes key (leafNode aes key (from_ / τ.leavesPerNode + i)) j := by
    intro i j hi hj
    have hlt : i < τ.nodesInInterval from_ to_ := by
      rw [τ.nodesInInterval_eq h]
      omega
    have hlast := lastCell_zero (τ.nodesInInterval_pos h) (from_ / τ.leavesPerNode)
    have hwindow := layers_window (keyChild aes key) (keyRoot key)
      (b.cells (τ.nodesInInterval from_ to_ * (τ.nodesPerLeaf - 1)))
      (τ.nodesInInterval_pos h) (τ.interval_le h hto) haligned (k := 0) (m := i) rfl (by omega)
    rw [Nat.zero_mod, Nat.pow_zero, Nat.div_one] at hwindow
    rw [hout i j hlt hj, lastLayer, hA]
    exact congrArg (finalBlock aes key · j) hwindow
  refine ⟨b', ?_, hall, ?_⟩
  · rw [evalIntervalDouble_eq lib h hto hmax, hrun]
  · intro x hx hxto
    rw [evalDouble_eq lib (.inl ⟨Nat.zero_lt_of_lt hto, hmax⟩)]
    exact leaf_of_interval hcw hx hxto hall

/-! Two keys that no misplaced interval tells apart. -/

/-- A key whose words correct flags only: they flip the children of every node whose flag is set,
    but for the word of layer `l`, which is `v`. -/
def probe (τ : LeafT) (nitems : Nat) (root : Bool) (l : Nat) (v : Block) : DpfKey τ :=
  ⟨nitems, if root then 1 else 0, (List.replicate (τ.depth nitems) 0b11).set l v,
    Vector.replicate _ (BitVec.allOnes 128), 0⟩

/-- The word that flips every child but child `d`. -/
def sparing (d : Nat) : Block := if d = 0 then 0b10 else 0b01

/-- Two nodes with the same seed and opposite flags. -/
def Twins (a b : Node) : Prop := a.1 = b.1 ∧ Opposite a b

section
variable {n l d m : Nat} {root : Bool} {v : Block} {st a b : Node}

theorem probe_cw_self (hl : l < τ.depth nitems) : (probe τ nitems root l v).cw.getD l 0 = v := by
  rw [probe, List.getD_eq_getElem?_getD, List.getElem?_set_self (by rwa [List.length_replicate])]
  rfl

theorem probe_cw_of_ne (hn : n < τ.depth nitems) (hne : n ≠ l) :
    (probe τ nitems root l v).cw.getD n 0 = 0b11 := by
  rw [probe, List.getD_eq_getElem?_getD, List.getElem?_set_ne (Ne.symm hne), List.getElem?_replicate,
    if_pos hn]
  rfl

theorem probe_child {cw : Block} (hcw : (probe τ nitems root l v).cw.getD n 0 = cw)
    (hlow : clearLsb cw 0b11 = 0) :
    keyChild aes (probe τ nitems root l v) n d st =
      ((expand aes 0 st.1 d).1,
        (expand aes 0 st.1 d).2 ^^^ (getLsb cw (if d ≠ 0 then 0b10 else 0b01) &&& st.2)) := by
  have h := corrected_eq aes 0 cw d st
  rw [hlow] at h
  rw [keyChild, hcw]
  refine h.trans (Prod.ext ?_ rfl)
  simp [xorIf]

theorem probe_root (τ : LeafT) (nitems l : Nat) (v : Block) (root : Bool) :
    keyRoot (probe τ nitems root l v) = (if root then 1 else 0, flagOf root) := by
  simp only [keyRoot, probe]
  cases root <;> decide

theorem expand_congr {seed seed' : Block} (h : clearLsb seed 0b11 = clearLsb seed' 0b11) (d : Nat) :
    expand aes 0 seed d = expand aes 0 seed' d := by
  unfold expand
  rw [h]

theorem getLsb_three (d : Nat) : getLsb (0b11 : Block) (if d ≠ 0 then 0b10 else 0b01) = 1 := by
  split <;> decide

theorem getLsb_sparing (hd : d < 2) : getLsb (sparing d) (if d ≠ 0 then 0b10 else 0b01) = 0 := by
  obtain rfl | rfl : d = 0 ∨ d = 1 := by omega
  · decide
  · decide

theorem getLsb_sparing_other (hd : d < 2) :
    getLsb (sparing d) (if 1 - d ≠ 0 then 0b10 else 0b01) = 1 := by
  obtain rfl | rfl : d = 0 ∨ d = 1 := by omega
  · decide
  · decide

theorem clearLsb_sparing (d : Nat) : clearLsb (sparing d) 0b11 = 0 := by
  unfold sparing
  split <;> decide

variable (aes) in
/-- A layer that flips flags in both keys keeps the two flags opposite. -/
theorem twins_child {root' : Bool} {v' : Block} (hseed : clearLsb a.1 0b11 = clearLsb b.1 0b11)
    (hflag : Opposite a b) (hcw : (probe τ nitems root l v).cw.getD n 0 = 0b11)
    (hcw' : (probe τ nitems root' l v').cw.getD n 0 = 0b11) :
    Twins (keyChild aes (probe τ nitems root l v) n d a)
      (keyChild aes (probe τ nitems root' l v') n d b) := by
  obtain ⟨c, hc, hc'⟩ := hflag
  obtain ⟨x, hx⟩ := expand_flag aes 0 b.1 d
  rw [probe_child hcw (by decide), probe_child hcw' (by decide), expand_congr hseed, getLsb_three]
  refine ⟨rfl, x ^^ c, ?_, ?_⟩
  · rw [hx, hc]
    cases x <;> cases c <;> rfl
  · rw [hx, hc']
    cases x <;> cases c <;> rfl

/-- The layer of the words `0b11` and `sparing d` splits a node whose flag is set. -/
theorem twins_split (hl : l < τ.depth nitems) (hd : d < 2) (hflag : st.2 = flagOf true) :
    Twins (keyChild aes (probe τ nitems root l 0b11) l d st)
      (keyChild aes (probe τ nitems root l (sparing d)) l d st) := by
  obtain ⟨x, hx⟩ := expand_flag aes 0 st.1 d
  rw [probe_child (probe_cw_self hl) (by decide), probe_child (probe_cw_self hl) (clearLsb_sparing d),
    getLsb_three, getLsb_sparing hd]
  refine ⟨rfl, !x, ?_, ?_⟩
  · rw [hx, hflag]
    cases x <;> rfl
  · rw [hx, hflag]
    cases x <;> rfl

/-- The other child of that layer is the same in both keys. -/
theorem sparing_other (hl : l < τ.depth nitems) (hd : d < 2) :
    keyChild aes (probe τ nitems root l (sparing d)) l (1 - d) st =
      keyChild aes (probe τ nitems root l 0b11) l (1 - d) st := by
  rw [probe_child (probe_cw_self hl) (clearLsb_sparing d), probe_child (probe_cw_self hl) (by decide),
    getLsb_three, getLsb_sparing_other hd]

/-- The two keys' children differ in layer `l` only. -/
theorem probe_child_of_ne (hn : n < τ.depth nitems) (hne : n ≠ l) (v v' : Block) :
    keyChild aes (probe τ nitems root l v') n = keyChild aes (probe τ nitems root l v) n := by
  funext d st
  rw [probe_child (probe_cw_of_ne hn hne) (by decide), probe_child (probe_cw_of_ne hn hne) (by decide)]

variable (aes) in
/-- Above layer `l` the two roots give opposite flags. -/
theorem probe_roots (hn : n ≤ l) (hl : l < τ.depth nitems) (m : Nat) :
    let node' := fun root => node (keyChild aes (probe τ nitems root l v))
      (keyRoot (probe τ nitems root l v)) n m
    clearLsb (node' false).1 0b11 = clearLsb (node' true).1 0b11 ∧ Opposite (node' false) (node' true) := by
  induction n generalizing m with
  | zero =>
    simp only [node, probe_root]
    exact ⟨by decide, false, rfl, rfl⟩
  | succ n ih =>
    obtain ⟨hseed, hflag⟩ := ih (by omega) (m / 2)
    have hcw : ∀ r, (probe τ nitems r l v).cw.getD n 0 = 0b11 := fun r =>
      probe_cw_of_ne (by omega) (by omega)
    obtain ⟨hseed', hflag'⟩ := twins_child aes (d := m % 2) hseed hflag (hcw false) (hcw true)
    exact ⟨congrArg (clearLsb · 0b11) hseed', hflag'⟩

variable (aes) in
/-- For every leaf node there is a root from which the layer `l` above it makes it differ. -/
theorem probe_leaf (hl : l < τ.depth nitems) (m : Nat) :
    ∃ root, Twins (leafNode aes (probe τ nitems root l 0b11) m)
      (leafNode aes (probe τ nitems root l (sparing (m / 2^(τ.depth nitems - l - 1) % 2))) m) := by
  generalize hd : m / 2^(τ.depth nitems - l - 1) % 2 = d
  have hd2 : d < 2 := by omega
  -- the root that sets the flag of the ancestor in layer `l`
  obtain ⟨root, hroot⟩ : ∃ root, (node (keyChild aes (probe τ nitems root l 0b11))
      (keyRoot (probe τ nitems root l 0b11)) l (m / 2^(τ.depth nitems - l))).2 = flagOf true := by
    obtain ⟨-, c, hc, hc'⟩ := probe_roots aes (v := 0b11) (Nat.le_refl l) hl
      (m / 2^(τ.depth nitems - l))
    cases c with
    | false => exact ⟨true, hc'⟩
    | true => exact ⟨false, hc⟩
  refine ⟨root, ?_⟩
  -- from layer `l + 1` on the two nodes on the path are twins
  have hpath : ∀ n, l < n → n ≤ τ.depth nitems →
      Twins (node (keyChild aes (probe τ nitems root l 0b11)) (keyRoot (probe τ nitems root l 0b11)) n
          (m / 2^(τ.depth nitems - n)))
        (node (keyChild aes (probe τ nitems root l (sparing d)))
          (keyRoot (probe τ nitems root l (sparing d))) n (m / 2^(τ.depth nitems - n))) := by
    intro n hn
    induction n, hn using Nat.le_induction with
    | base =>
      intro hn'
      have hup : m / 2^(τ.depth nitems - (l+1)) / 2 = m / 2^(τ.depth nitems - l) := by
        rw [← div_two_pow_succ, show τ.depth nitems - (l+1) + 1 = τ.depth nitems - l by omega]
      have hd' : m / 2^(τ.depth nitems - (l+1)) % 2 = d := hd
      have hsame : node (keyChild aes (probe τ nitems root l (sparing d)))
          (keyRoot (probe τ nitems root l (sparing d))) l (m / 2^(τ.depth nitems - l)) =
          node (keyChild aes (probe τ nitems root l 0b11)) (keyRoot (probe τ nitems root l 0b11)) l
            (m / 2^(τ.depth nitems - l)) :=
        node_congr (fun l' hl' => probe_child_of_ne (by omega) (by omega) _ _) _
      rw [node, node, hup, hd', hsame]
      exact twins_split hl hd2 hroot
    | succ n hn ih =>
      intro hn'
      have hup : m / 2^(τ.depth nitems - (n+1)) / 2 = m / 2^(τ.depth nitems - n) := by
        rw [← div_two_pow_succ, show τ.depth nitems - (n+1) + 1 = τ.depth nitems - n by omega]
      obtain ⟨hseed, hflag⟩ := ih (by omega)
      rw [node, node, hup]
      exact twins_child aes (congrArg (clearLsb · 0b11) hseed) hflag (probe_cw_of_ne (by omega) (by omega))
        (probe_cw_of_ne (by omega) (by omega))
  have h := hpath (τ.depth nitems) hl (Nat.le_refl _)
  rwa [Nat.sub_self, Nat.pow_zero, Nat.div_one] at h

/-- Twins have different leaves. -/
theorem finalBlock_twins (h : Twins a b) :
    finalBlock aes (probe τ nitems root l 0b11) a 0 ≠ finalBlock aes (probe τ nitems root l v) b 0 := by
  obtain ⟨hseed, c, hc, hc'⟩ := h
  have hfin : ∀ v, (probe τ nitems root l v).finalizerBlock 0 = BitVec.allOnes 128 := by
    intro v
    rw [DpfKey.finalizerBlock, probe, Vector.getElem?_replicate, if_pos τ.nodesPerLeaf_pos]
    rfl
  have hflip : ∀ x : Block, x ≠ x ^^^ BitVec.allOnes 128 := by
    intro x hx
    have hbit := congrArg (·.getLsbD 0) hx
    simp at hbit
  rw [finalBlock, finalBlock, hfin, hfin, hseed, hc, hc', flagOf_ne_zero, flagOf_ne_zero]
  cases c with
  | false =>
    rw [xorIf_false, Bool.not_false, xorIf_true]
    exact hflip _
  | true =>
    rw [xorIf_true, Bool.not_true, xorIf_false]
    exact (hflip _).symm

end

/-- An interval does not agree if its node `i` comes out the same whether or not one layer spares
    the right node. -/
theorem not_agrees (hmax : nitems ≤ 2^48) (h : from_ ≤ to_) (hto : to_ < nitems) {i l : Nat}
    (hi : i < τ.nodesInInterval from_ to_) (hl : l < τ.depth nitems)
    (hblind : ∀ (root : Bool) (mem : Nat → Node),
      lastLayer aes (probe τ nitems root l
          (sparing ((from_ / τ.leavesPerNode + i) / 2^(τ.depth nitems - l - 1) % 2))) from_ to_ mem
          (cell (τ.nodesInInterval from_ to_) 0 i) =
        lastLayer aes (probe τ nitems root l 0b11) from_ to_ mem
          (cell (τ.nodesInInterval from_ to_) 0 i)) :
    ¬ IntervalAgrees lib aes τ nitems from_ to_ := by
  intro hagrees
  obtain ⟨root, htwins⟩ := probe_leaf aes hl (from_ / τ.leavesPerNode + i)
  generalize (from_ / τ.leavesPerNode + i) / 2^(τ.depth nitems - l - 1) % 2 = d at htwins hblind
  let b : Buffers := ⟨fun _ => 0, fun _ => 0, τ.nodesInInterval from_ to_ * τ.nodesPerLeaf,
    τ.nodesInInterval from_ to_⟩
  have hin : from_ / τ.leavesPerNode + i ≤ to_ / τ.leavesPerNode := by
    have hle : from_ / τ.leavesPerNode ≤ to_ / τ.leavesPerNode := Nat.div_le_div_right h
    rw [τ.nodesInInterval_eq h] at hi
    omega
  -- what is computed is what is right
  have hright : ∀ v, finalBlock aes (probe τ nitems root l v)
      (lastLayer aes (probe τ nitems root l v) from_ to_
        (b.cells (τ.nodesInInterval from_ to_ * (τ.nodesPerLeaf - 1)))
        (cell (τ.nodesInInterval from_ to_) 0 i)) 0 =
      finalBlock aes (probe τ nitems root l v)
        (leafNode aes (probe τ nitems root l v) (from_ / τ.leavesPerNode + i)) 0 := by
    intro v
    have hcw : (probe τ nitems root l v).cw.length = (probe τ nitems root l v).depth := by
      rw [probe, List.length_set, List.length_replicate]
      rfl
    obtain ⟨b₁, hrun₁, hout₁⟩ := evalInterval_run aes (b := b) h hto hcw (Nat.le_refl _)
      (Nat.le_refl _)
    have hdepth : τ.depthDouble lib nitems = some (probe τ nitems root l v).cw.length := by
      rw [τ.depthDouble_iff lib hmax]
      exact ⟨Nat.zero_lt_of_lt hto, hcw⟩
    obtain ⟨b₂, hrun₂, hout₂, -⟩ := hagrees _ b rfl hdepth (Nat.le_refl _) (Nat.le_refl _)
    rw [evalIntervalDouble_eq lib h hto hmax] at hrun₂
    obtain rfl : b₁ = b₂ := Option.some.inj (hrun₁.symm.trans hrun₂)
    rw [← hout₂ i 0 hin τ.nodesPerLeaf_pos]
    exact (hout₁ i 0 hi τ.nodesPerLeaf_pos).symm
  apply finalBlock_twins htwins
  rw [← hright, ← hright, hblind root]
  rfl

/-- Numbers of `n` bits that differ do so in a bit. -/
theorem exists_bit_ne {a c n : Nat} (ha : a < 2^n) (hc : c < 2^n) (h : a ≠ c) :
    ∃ k, k < n ∧ a / 2^k % 2 ≠ c / 2^k % 2 := by
  by_contra hall
  push Not at hall
  apply h
  apply Nat.eq_of_testBit_eq
  intro k
  by_cases hk : k < n
  · rw [Nat.testBit_eq_decide_div_mod_eq, Nat.testBit_eq_decide_div_mod_eq, hall k hk]
  · have hpow : 2^n ≤ 2^k := Nat.pow_le_pow_right (by omega) (by omega)
    rw [Nat.testBit_lt_two_pow (by omega), Nat.testBit_lt_two_pow (by omega)]

theorem start_of_agrees (hmax : nitems ≤ 2^48) (h : from_ ≤ to_) (hto : to_ < nitems)
    (hagrees : IntervalAgrees lib aes τ nitems from_ to_) : τ.nodesPerLeaf = 1 ∨ from_ = 0 := by
  by_contra hstart
  push Not at hstart
  obtain ⟨hnpl, h0⟩ := hstart
  have hN := τ.nodesInInterval_pos h
  have hle := τ.interval_le h hto
  have hpos := τ.nodesPerLeaf_pos
  -- a leaf of several nodes fills them, so the items are the nodes' numbers
  have hlpn : τ.leavesPerNode = 1 := by
    apply τ.leavesPerNode_eq_one
    by_contra hp
    exact hnpl (if_pos (by simpa using hp))
  have hlt : from_ / τ.nodesPerLeaf < from_ := Nat.div_lt_self (by omega) (by omega)
  rw [hlpn, Nat.div_one] at hle
  obtain ⟨k, hk, hne⟩ := exists_bit_ne (n := τ.depth nitems) (show from_ < _ by omega)
    (show from_ / τ.nodesPerLeaf < _ by omega) (by omega)
  refine not_agrees hmax h hto (i := 0) (l := τ.depth nitems - k - 1) hN (by omega) ?_ hagrees
  intro root mem
  have hbit : τ.depth nitems - (τ.depth nitems - k - 1) - 1 = k := by omega
  have hfirst : ∀ v, lastLayer aes (probe τ nitems root (τ.depth nitems - k - 1) v) from_ to_ mem
      (cell (τ.nodesInInterval from_ to_) 0 0) = leafNode aes (probe τ nitems root (τ.depth nitems - k - 1) v)
        (from_ / τ.nodesPerLeaf) := by
    intro v
    have := layers_first (keyChild aes (probe τ nitems root (τ.depth nitems - k - 1) v))
      (keyRoot (probe τ nitems root (τ.depth nitems - k - 1) v)) mem hN
      (show from_ / τ.nodesPerLeaf < 2^τ.depth nitems by omega) (k := 0) rfl
    rw [Nat.zero_mod, Nat.pow_zero, Nat.div_one] at this
    rw [lastLayer, hlpn, Nat.div_one]
    exact this
  rw [hfirst, hfirst, hlpn, Nat.div_one, Nat.add_zero, hbit]
  apply node_path_congr
  intro l' k' hl'
  have hdepth : τ.depth nitems = l' + (k'+1) := hl'
  by_cases hkk : k' = k
  · have hl : l' = τ.depth nitems - k - 1 := by omega
    have hother : from_ / τ.nodesPerLeaf / 2^k % 2 = 1 - from_ / 2^k % 2 := by omega
    funext st
    rw [hkk, hl, hother]
    exact sparing_other (by omega) (by omega)
  · exact congrFun (probe_child_of_ne (by omega) (by omega) _ _) _

theorem aligned_of_agrees (hmax : nitems ≤ 2^48) (h : from_ ≤ to_) (hto : to_ < nitems)
    (hagrees : IntervalAgrees lib aes τ nitems from_ to_) :
    Aligned (from_ / τ.leavesPerNode) (τ.nodesInInterval from_ to_) (τ.depth nitems) := by
  have hN := τ.nodesInInterval_pos h
  have hA : from_ / τ.nodesPerLeaf / τ.leavesPerNode = from_ / τ.leavesPerNode := by
    rcases start_of_agrees hmax h hto hagrees with h1 | h0
    · rw [h1, Nat.div_one]
    · rw [h0, Nat.zero_div]
  by_contra hnot
  obtain ⟨k, l, hl, hmissed⟩ := exists_missed hN hnot
  refine not_agrees hmax h hto (i := τ.nodesInInterval from_ to_ - 1) (l := l) (by omega) (by omega) ?_
    hagrees
  intro root mem
  rw [lastLayer, lastLayer, hA]
  exact layers_missed hN hl hmissed fun l' hl' hne => probe_child_of_ne hl' hne _ _

/-- `__evalinterval` agrees with `eval` on an interval of up to `2^48` items, for every key and in all
    buffers with room, exactly when the interval is well placed. -/
theorem evalInterval_agrees_iff (lib : Log2) (aes : AesKey → Block → Block) (τ : LeafT)
    {nitems from_ to_ : Nat} (hmax : nitems ≤ 2^48) (h : from_ ≤ to_) (hto : to_ < nitems) :
    IntervalAgrees lib aes τ nitems from_ to_ ↔ WellPlaced τ nitems from_ to_ :=
  ⟨fun hagrees => ⟨start_of_agrees hmax h hto hagrees, aligned_of_agrees hmax h hto hagrees⟩,
    agrees_of_wellPlaced hmax h hto⟩

theorem evalInterval_agrees_four : IntervalAgrees Log2.down (fun _ b => b) .uint64 8 0 3 :=
  (evalInterval_agrees_iff Log2.down (fun _ b => b) .uint64 (by decide) (by decide) (by decide)).mpr
    (by decide)

/-- The items 2 to 5 lie in nodes 1 and 2, which have two parents; the layer above them has one
    cell, and its node is finalized in place of node 2. -/
theorem evalInterval_misplaced : ¬ IntervalAgrees Log2.down (fun _ b => b) .uint64 8 2 5 := by
  intro h
  obtain ⟨b', hrun, -, hleaf⟩ := h ⟨8, 1, [3, 0], Vector.replicate 1 (BitVec.allOnes 128), 0⟩
    ⟨fun _ => 0, fun _ => 0, 2, 2⟩ rfl (LeafT.uint64.depthDouble_eq Log2.down (.inl (by decide)))
    (by decide) (by decide)
  rw [evalIntervalDouble_eq Log2.down (by decide) (by decide) (by decide)] at hrun
  have hout : (evalInterval (fun _ b => b)
      (⟨8, 1, [3, 0], Vector.replicate 1 (BitVec.allOnes 128), 0⟩ : DpfKey .uint64) 2 5
      ⟨fun _ => 0, fun _ => 0, 2, 2⟩).map (fun b => leafAt .uint64 b.nodes 2) =
      some (BitVec.allOnes LeafT.uint64.bitsPerLeaf) := by decide +kernel
  have heval : eval (fun _ b => b)
      (⟨8, 1, [3, 0], Vector.replicate 1 (BitVec.allOnes 128), 0⟩ : DpfKey .uint64) 4 = some 0 := by
    decide +kernel
  rw [hrun] at hout
  have hleaf4 := hleaf 4 (by decide) (by decide)
  rw [evalDouble_eq Log2.down (.inl (by decide)), heval] at hleaf4
  have hne : BitVec.allOnes LeafT.uint64.bitsPerLeaf = 0 :=
    (Option.some.inj hout).symm.trans (Option.some.inj hleaf4).symm
  exact absurd hne (by decide)

/-! The callers' buffers. -/

section
variable {b' : Buffers} {base N p l cur : Nat} {cw : Block}

theorem store_room {v : Node} (h : b.store base p v = some b') : b'.nodeRoom = b.nodeRoom := by
  rw [Buffers.store] at h
  split at h
  · rw [← Option.some.inj h]
    rfl
  · cases h

theorem writeNode_room {v : Block} (h : b.writeNode p v = some b') : b'.nodeRoom = b.nodeRoom := by
  rw [Buffers.writeNode] at h
  split at h
  · rw [← Option.some.inj h]
  · cases h

theorem traverse2At_room {j i : Nat} (h : traverse2At aes key cw base N cur j i b = some b') :
    b'.nodeRoom = b.nodeRoom := by
  simp only [traverse2At, Option.bind_eq_bind, Option.bind_eq_some_iff] at h
  obtain ⟨st, -, b₁, hleft, hright⟩ := h
  exact (store_room hright).trans (store_room hleft)

theorem traverseAt_room {d j i : Nat} (h : traverseAt aes key cw base N cur d j i b = some b') :
    b'.nodeRoom = b.nodeRoom := by
  simp only [traverseAt, Option.bind_eq_bind, Option.bind_eq_some_iff] at h
  obtain ⟨st, -, hchild⟩ := h
  exact store_room hchild

theorem evalLayerNodes_room {cur nextbit prevNodes curNodes : Nat}
    (h : evalLayerNodes aes key cw base N cur nextbit prevNodes curNodes b = some b') :
    b'.nodeRoom = b.nodeRoom := by
  simp only [evalLayerNodes, Option.bind_eq_bind, Option.bind_eq_some_iff] at h
  obtain ⟨b₁, hfirst, b₂, hloop, hlast⟩ := h
  have h₁ : b₁.nodeRoom = b.nodeRoom := by
    rw [evalFirst] at hfirst
    split at hfirst
    · exact traverseAt_room hfirst
    · rw [Option.some.inj hfirst]
  have h₂ : b₂.nodeRoom = b.nodeRoom :=
    forUp_kept (fun b' => b'.nodeRoom = b.nodeRoom)
      (fun q b b' hq hb => (traverse2At_room hq).trans hb) hloop h₁
  rw [evalLast] at hlast
  split at hlast
  · split at hlast
    · exact (traverse2At_room hlast).trans h₂
    · exact (traverseAt_room hlast).trans h₂
  · rw [← Option.some.inj hlast]
    exact h₂

theorem evalLayer_room {fromNode : Nat} {st st' : Nat × Buffers}
    (h : evalLayer aes key base N fromNode l st = some st') : st'.2.nodeRoom = st.2.nodeRoom := by
  simp only [evalLayer, Option.bind_eq_bind, Option.bind_eq_some_iff] at h
  obtain ⟨cw, -, b₁, hnodes, hst⟩ := h
  obtain rfl : (1 - st.1, b₁) = st' := Option.some.inj hst
  exact evalLayerNodes_room hnodes

theorem expandLayers_room {fromNode : Nat} (h : expandLayers aes key base N fromNode b = some b') :
    b'.nodeRoom = b.nodeRoom := by
  simp only [expandLayers, Option.bind_eq_bind, Option.bind_eq_some_iff] at h
  obtain ⟨b₁, hroot, st, hloop, hst⟩ := h
  obtain rfl : st.2 = b' := Option.some.inj hst
  exact forUp_kept (fun st => st.2.nodeRoom = b.nodeRoom)
    (fun l st st' hl hst => (evalLayer_room hl).trans hst) hloop (store_room hroot)

theorem finalize_room (h : finalize aes key base N b = some b') : b'.nodeRoom = b.nodeRoom := by
  refine forUp_kept (fun b' => b'.nodeRoom = b.nodeRoom) ?_ h rfl
  intro i b b' hi hb
  simp only [Option.bind_eq_bind, Option.bind_eq_some_iff] at hi
  obtain ⟨seed, -, b₁, hstretch, hcorrect⟩ := hi
  have h₁ := forUp_kept (fun b' => b'.nodeRoom = b.nodeRoom)
    (fun j b b' hj hb => (writeNode_room hj).trans hb) hstretch rfl
  have h₂ := forUp_kept (fun b' => b'.nodeRoom = b₁.nodeRoom) (fun j b b' hj hb => by
    simp only [Option.bind_eq_some_iff] at hj
    obtain ⟨v, -, t, -, hw⟩ := hj
    exact (writeNode_room hw).trans hb) hcorrect rfl
  exact h₂.trans (h₁.trans hb)

/-- The last round of `finalize` reads the last of the nodes. -/
theorem finalize_reads (h : finalize aes key base (N+1) b = some b') : base + N < b.nodeRoom := by
  rw [finalize, forUp, Option.bind_eq_some_iff] at h
  obtain ⟨b₁, hinit, hlast⟩ := h
  have hroom : b₁.nodeRoom = b.nodeRoom := finalize_room hinit
  simp only [Option.bind_eq_bind, Option.bind_eq_some_iff] at hlast
  obtain ⟨seed, hread, -⟩ := hlast
  rw [Buffers.readNode] at hread
  split at hread
  · next hlt => rwa [hroom] at hlt
  · cases hread

end

/-- Full-domain evaluation is defined when and only when the output has room for every node. -/
theorem fullDomain_isSome_iff (hn : 0 < key.nitems) (hcw : key.cw.length = key.depth)
    (hflags : τ.nodes key.nitems ≤ b.flagRoom) :
    (evalInterval aes key 0 (key.nitems - 1) b).isSome ↔
      τ.nodes key.nitems * τ.nodesPerLeaf ≤ b.nodeRoom := by
  constructor
  · intro h
    obtain ⟨b', hrun⟩ := Option.isSome_iff_exists.mp h
    simp only [evalInterval, τ.nodesInInterval_full hn, Option.bind_eq_bind,
      Option.bind_eq_some_iff] at hrun
    obtain ⟨b₁, hlayers, hfin⟩ := hrun
    have hN := τ.nodes_pos hn
    have hpos := τ.nodesPerLeaf_pos
    obtain ⟨c, hc⟩ : ∃ c, τ.nodesPerLeaf = c + 1 := ⟨τ.nodesPerLeaf - 1, by omega⟩
    obtain ⟨M, hM⟩ : ∃ M, τ.nodes key.nitems = M + 1 := ⟨τ.nodes key.nitems - 1, by omega⟩
    rw [hM] at hfin hlayers ⊢
    -- the last seed read is the last block of the array
    have hlt := finalize_reads hfin
    rw [expandLayers_room hlayers, hc, Nat.add_sub_cancel] at hlt
    rw [hc, Nat.mul_succ]
    omega
  · intro h
    obtain ⟨b', hrun, -⟩ := evalInterval_full aes key hn hcw.ge h hflags
    rw [hrun]
    rfl

/-- The nodes of `n` leaves fill exactly the vector of the leaves, or reach behind it. -/
theorem LeafT.nodes_fit_iff (τ : LeafT) (n : Nat) :
    τ.nodes n * τ.nodesPerLeaf ≤ n * τ.sizeof / 16 ↔ τ.leavesPerNode ∣ n := by
  have hpos := τ.leavesPerNode_pos
  have hsize : 0 < τ.sizeof := by
    cases τ with
    | array N hN => rw [LeafT.sizeof]; omega
    | _ => decide
  have hbits : τ.leavesPerNode * τ.sizeof = 16 * τ.nodesPerLeaf := by
    have h := τ.leaf_bits
    rw [LeafT.bitsPerLeaf, ← Nat.mul_assoc] at h
    omega
  have hroom : τ.nodes n * τ.nodesPerLeaf * 16 = τ.nodes n * τ.leavesPerNode * τ.sizeof := by
    rw [Nat.mul_assoc, Nat.mul_comm τ.nodesPerLeaf, ← hbits, Nat.mul_assoc]
  rw [Nat.le_div_iff_mul_le (by omega), hroom, Nat.mul_le_mul_right_iff hsize]
  have hge : n ≤ τ.leavesPerNode * τ.nodes n := (ceilDiv_le_iff_le_mul hpos).mp (Nat.le_refl _)
  rw [Nat.mul_comm] at hge
  constructor
  · intro hle
    exact ⟨τ.nodes n, by rw [Nat.mul_comm]; omega⟩
  · rintro ⟨c, rfl⟩
    have hle : τ.nodes (τ.leavesPerNode * c) ≤ c := (ceilDiv_le_iff_le_mul hpos).mpr (Nat.le_refl _)
    rw [Nat.mul_comm τ.leavesPerNode c]
    rw [Nat.mul_comm τ.leavesPerNode c] at hle
    exact Nat.mul_le_mul_right _ hle

/-- Full-domain evaluation stays inside a vector of `nitems` leaves and one of `nitems` flags
    exactly when the leaves fill whole nodes. -/
theorem fullDomain_inside_iff (aes : AesKey → Block → Block) {τ : LeafT} (key : DpfKey τ)
    (hn : 0 < key.nitems) (hcw : key.cw.length = key.depth) (b : Buffers)
    (hnodes : b.nodeRoom = key.nitems * τ.sizeof / 16) (hflags : b.flagRoom = key.nitems) :
    (evalInterval aes key 0 (key.nitems - 1) b).isSome ↔ τ.leavesPerNode ∣ key.nitems := by
  have hle := τ.nodes_le key.nitems
  rw [fullDomain_isSome_iff hn hcw (hflags ▸ hle), hnodes]
  exact τ.nodes_fit_iff key.nitems

theorem fullDomain_inside_iff_four :
    (evalInterval (fun _ b => b) (⟨4, 7, [5], Vector.replicate 1 9, 0⟩ : DpfKey .uint64) 0 3
      ⟨fun _ => 0, fun _ => 0, 2, 4⟩).isSome ↔ 2 ∣ 4 :=
  fullDomain_inside_iff (fun _ b => b) (⟨4, 7, [5], Vector.replicate 1 9, 0⟩ : DpfKey .uint64)
    (by decide) (by decide) ⟨fun _ => 0, fun _ => 0, 2, 4⟩ rfl rfl

/-- Three leaves of eight bytes take two nodes, and the vector ends in the middle of the second. -/
theorem fullDomain_outside : ¬ (evalInterval (fun _ b => b)
    (⟨3, 7, [5], Vector.replicate 1 9, 0⟩ : DpfKey .uint64) 0 2
      ⟨fun _ => 0, fun _ => 0, 3 * LeafT.uint64.sizeof / 16, 3⟩).isSome := by
  decide +kernel

end

end Mpc
