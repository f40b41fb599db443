import Mpc.Dpf.Eval
import Mpc.Lib.XorWord

/- The two keys of one `gen` hide a point function. Their trees have the same
   correction words, and `genLayers` follows both trees down the target's path.
   A layer's correction word makes the two children off the path equal and keeps
   the flags on it opposite (`OnPath.step`), so by `BinTree.node_pair` the leaf
   nodes agree but at the target, where the finalizer leaves the value
   (`leafNode_pair`, `gen_correct`). -/
namespace Mpc
open LE BinTree XorWord

/-! Low bits. -/

@[simp] theorem flagOf_true : flagOf true = 1 := rfl
@[simp] theorem flagOf_false : flagOf false = 0 := rfl

theorem flagOf_xor (a b : Bool) : flagOf a ^^^ flagOf b = flagOf (a ^^ b) := by
  cases a <;> cases b <;> rfl

theorem flagOf_and (a b : Bool) : flagOf a &&& flagOf b = flagOf (a && b) := by
  cases a <;> cases b <;> rfl

theorem flagOf_ne_zero (a : Bool) : decide (flagOf a ≠ 0) = a := by cases a <;> rfl

theorem getLsb_eq_flagOf (x bits : Block) : ∃ a, getLsb x bits = flagOf a := by
  refine ⟨decide ((x &&& bits) ^^^ bits = 0), ?_⟩
  simp only [getLsb, flagOf, decide_eq_true_eq]

theorem clearLsb_xor (x y m : Block) : clearLsb (x ^^^ y) m = clearLsb x m ^^^ clearLsb y m :=
  xor_and x y _

theorem clearLsb_clearLsb (x m : Block) : clearLsb (clearLsb x m) m = clearLsb x m := by
  rw [clearLsb, clearLsb, BitVec.and_assoc, BitVec.and_self]

theorem clearLsb_xorIf (x y m : Block) (t : Bool) :
    clearLsb (xorIf x y t) m = xorIf (clearLsb x m) (clearLsb y m) t := by
  rw [xorIf, clearLsb_xor, xorIf]
  congr 1
  rw [clearLsb, clearLsb, BitVec.and_assoc, BitVec.and_assoc, BitVec.and_comm (~~~m)]

theorem or_and (x y z : Block) : (x ||| y) &&& z = (x &&& z) ||| (y &&& z) := by
  ext i hi
  simp only [BitVec.getElem_and, BitVec.getElem_or]
  exact Bool.and_or_distrib_right _ _ _

theorem clearLsb_setLsbs (x : Block) (a b : Bool) :
    clearLsb (setLsbs x a b) 0b11 = clearLsb x 0b11 := by
  have hmask : BitVec.ofNat 128 ((if a then 1 else 0) + 2 * (if b then 1 else 0)) &&& ~~~0b11 = 0#128 := by
    cases a <;> cases b <;> decide
  rw [setLsbs, clearLsb, or_and, hmask, BitVec.or_zero, ← clearLsb, clearLsb_clearLsb]

theorem setLsbs_and (x m : Block) (a b : Bool) (hm : ~~~0b11 &&& m = 0#128) :
    setLsbs x a b &&& m =
      BitVec.ofNat 128 ((if a then 1 else 0) + 2 * (if b then 1 else 0)) &&& m := by
  rw [setLsbs, or_and, clearLsb, BitVec.and_assoc, hm, BitVec.and_zero, BitVec.zero_or]

theorem getLsb_setLsbs_left (x : Block) (a b : Bool) : getLsb (setLsbs x a b) 0b01 = flagOf a := by
  rw [getLsb, setLsbs_and x _ a b (by decide)]
  cases a <;> cases b <;> decide

theorem getLsb_setLsbs_right (x : Block) (a b : Bool) : getLsb (setLsbs x a b) 0b10 = flagOf b := by
  rw [getLsb, setLsbs_and x _ a b (by decide)]
  cases a <;> cases b <;> decide

theorem getLsb_setLsb (x : Block) (v : Bool) : getLsb (setLsb x v) 0b01 = flagOf v := by
  have hm : ~~~0b01 &&& 0b01 = 0#128 := by decide
  rw [getLsb, setLsb, or_and, clearLsb, BitVec.and_assoc, hm, BitVec.and_zero, BitVec.zero_or]
  cases v <;> decide

/-! One layer. -/

section
variable (aes : AesKey → Block → Block) (prgkey : AesKey)

theorem clearLsb_expand (seed : Block) (d : Nat) :
    clearLsb (expand aes prgkey seed d).1 0b11 = (expand aes prgkey seed d).1 :=
  clearLsb_clearLsb _ _

theorem expand_flag (seed : Block) (d : Nat) : ∃ c, (expand aes prgkey seed d).2 = flagOf c :=
  getLsb_eq_flagOf _ _

/-- Child `d` of a node under the correction word `cw`. -/
def corrected (cw : Block) (d : Nat) (st : Node) : Node :=
  traverse aes prgkey st.1 d (getLsb cw (if d ≠ 0 then 0b10 else 0b01)) cw st.2

theorem corrected_eq (cw : Block) (d : Nat) (st : Node) :
    corrected aes prgkey cw d st =
      (xorIf (expand aes prgkey st.1 d).1 (clearLsb cw 0b11) (st.2 ≠ 0),
        (expand aes prgkey st.1 d).2 ^^^ (getLsb cw (if d ≠ 0 then 0b10 else 0b01) &&& st.2)) := by
  rw [corrected, traverse, clearLsb_xorIf]
  rfl

/-- The correction word of a layer with the nodes `a` and `b` on the path. -/
def layerCw (bit : Nat) (a b : Node) : Block :=
  let e0 := expand aes prgkey a.1
  let e1 := expand aes prgkey b.1
  let lose := 1 - (if bit = 0 then 0 else 1)
  setLsbs ((e0 lose).1 ^^^ (e1 lose).1) ((e0 0).2 ^^^ (e1 0).2 ^^^ BitVec.ofNat 8 bit ^^^ 1 ≠ 0)
    ((e0 1).2 ^^^ (e1 1).2 ^^^ BitVec.ofNat 8 bit ≠ 0)

theorem genLayer_cw (bit : Nat) (st : GenState) :
    (genLayer aes prgkey bit st).cw = st.cw ++ [layerCw aes prgkey bit st.s0 st.s1] := rfl

theorem xorIf_true (x y : Block) : xorIf x y true = x ^^^ y := by
  rw [xorIf, if_pos rfl, BitVec.and_allOnes]

theorem xorIf_false (x y : Block) : xorIf x y false = x := by
  have h0 : y &&& 0#128 = 0#128 := BitVec.and_zero
  exact (congrArg (x ^^^ ·) h0).trans BitVec.xor_zero

/-- Correcting one of two seeds by their sum makes them equal. -/
theorem xorIf_meet (x y : Block) (c : Bool) : xorIf x (x ^^^ y) c = xorIf y (x ^^^ y) !c := by
  cases c with
  | true => rw [Bool.not_true, xorIf_true, xorIf_false, ← BitVec.xor_assoc, BitVec.xor_self,
      BitVec.zero_xor]
  | false => rw [Bool.not_false, xorIf_true, xorIf_false, BitVec.xor_comm x, ← BitVec.xor_assoc,
      BitVec.xor_self, BitVec.zero_xor]

section
variable {aes prgkey} {bit d : Nat} {a b : Node} {x y c : Bool}

theorem layerCw_seed (hbit : bit < 2) :
    clearLsb (layerCw aes prgkey bit a b) 0b11 =
      (expand aes prgkey a.1 (1 - bit)).1 ^^^ (expand aes prgkey b.1 (1 - bit)).1 := by
  have hkeep : (if bit = 0 then 0 else 1) = bit := by
    split <;> omega
  simp only [layerCw, hkeep, clearLsb_setLsbs, clearLsb_xor, clearLsb_expand]

theorem layerCw_flag (hbit : bit < 2) (hd : d < 2) (ha : (expand aes prgkey a.1 d).2 = flagOf x)
    (hb : (expand aes prgkey b.1 d).2 = flagOf y) :
    getLsb (layerCw aes prgkey bit a b) (if d ≠ 0 then 0b10 else 0b01) =
      flagOf (x ^^ y ^^ decide (bit = d)) := by
  have hbits : bit = 0 ∨ bit = 1 := by omega
  obtain rfl | rfl : d = 0 ∨ d = 1 := by omega
  · rw [if_neg (by omega), layerCw, getLsb_setLsbs_left, ha, hb]
    rcases hbits with rfl | rfl <;> cases x <;> cases y <;> decide
  · rw [if_pos (by omega), layerCw, getLsb_setLsbs_right, ha, hb]
    rcases hbits with rfl | rfl <;> cases x <;> cases y <;> decide

/-- Child `d` of the nodes `a`, `b` of a layer, when they have the flags `c` and `!c`. -/
theorem corrected_layerCw (hbit : bit < 2) (hd : d < 2) (ha : (expand aes prgkey a.1 d).2 = flagOf x)
    (hb : (expand aes prgkey b.1 d).2 = flagOf y) (hc : a.2 = flagOf c) (hc' : b.2 = flagOf !c) :
    let next := (expand aes prgkey a.1 (1 - bit)).1 ^^^ (expand aes prgkey b.1 (1 - bit)).1
    let t := x ^^ y ^^ decide (bit = d)
    corrected aes prgkey (layerCw aes prgkey bit a b) d a =
        (xorIf (expand aes prgkey a.1 d).1 next c, flagOf (x ^^ (t && c))) ∧
      corrected aes prgkey (layerCw aes prgkey bit a b) d b =
        (xorIf (expand aes prgkey b.1 d).1 next !c, flagOf (y ^^ (t && !c))) := by
  simp only [corrected_eq, layerCw_seed hbit, layerCw_flag hbit hd ha hb, ha, hb, hc, hc', flagOf_and,
    flagOf_xor, flagOf_ne_zero, and_self]

/-- The lost children are equal. -/
theorem corrected_lose (hbit : bit < 2) (hc : a.2 = flagOf c) (hc' : b.2 = flagOf !c) :
    corrected aes prgkey (layerCw aes prgkey bit a b) (1 - bit) a =
      corrected aes prgkey (layerCw aes prgkey bit a b) (1 - bit) b := by
  obtain ⟨x, ha⟩ := expand_flag aes prgkey a.1 (1 - bit)
  obtain ⟨y, hb⟩ := expand_flag aes prgkey b.1 (1 - bit)
  obtain ⟨h0, h1⟩ := corrected_layerCw hbit (show 1 - bit < 2 by omega) ha hb hc hc'
  have hne : decide (bit = 1 - bit) = false := decide_eq_false (by omega)
  rw [h0, h1, xorIf_meet, hne]
  congr 2
  cases x <;> cases y <;> cases c <;> rfl

/-- The two nodes on the path have opposite flags. -/
def Opposite (a b : Node) : Prop := ∃ c, a.2 = flagOf c ∧ b.2 = flagOf !c

theorem genStart_opposite (root : Block × Block) :
    Opposite (genStart root).s0 (genStart root).s1 := by
  obtain ⟨c, hc⟩ := getLsb_eq_flagOf root.1 0b01
  refine ⟨c, hc, ?_⟩
  show flagOf (getLsb root.1 0b01 = 0) = flagOf !c
  rw [hc]
  cases c <;> rfl

theorem genStart_flag (root : Block × Block) :
    getLsb (genStart root).s1.1 0b01 = (genStart root).s1.2 := by
  show getLsb (setLsb root.2 (flagOf _ ≠ 0)) 0b01 = flagOf _
  rw [getLsb_setLsb, flagOf_ne_zero]

/-- The kept children have opposite flags. -/
theorem corrected_keep (hbit : bit < 2) (hc : a.2 = flagOf c) (hc' : b.2 = flagOf !c) :
    Opposite (corrected aes prgkey (layerCw aes prgkey bit a b) bit a)
      (corrected aes prgkey (layerCw aes prgkey bit a b) bit b) := by
  obtain ⟨x, ha⟩ := expand_flag aes prgkey a.1 bit
  obtain ⟨y, hb⟩ := expand_flag aes prgkey b.1 bit
  obtain ⟨h0, h1⟩ := corrected_layerCw hbit hbit ha hb hc hc'
  rw [h0, h1, decide_eq_true rfl]
  refine ⟨_, rfl, congrArg flagOf ?_⟩
  cases x <;> cases y <;> cases c <;> rfl

variable (aes prgkey) in
/-- `genLayer` goes on with the kept children. -/
theorem genLayer_keep (hbit : bit < 2) (st : GenState) :
    let cw := layerCw aes prgkey bit st.s0 st.s1
    corrected aes prgkey cw bit st.s0 = (genLayer aes prgkey bit st).s0 ∧
      corrected aes prgkey cw bit st.s1 = (genLayer aes prgkey bit st).s1 := by
  simp only [corrected_eq, layerCw_seed hbit]
  obtain rfl | rfl : bit = 0 ∨ bit = 1 := by omega
  · rw [if_neg (by omega), layerCw, getLsb_setLsbs_left, BitVec.and_comm, BitVec.and_comm (flagOf _)]
    exact ⟨rfl, rfl⟩
  · rw [if_pos (by omega), layerCw, getLsb_setLsbs_right, BitVec.and_comm, BitVec.and_comm (flagOf _)]
    exact ⟨rfl, rfl⟩

end

/-! The path. -/

theorem inputBit_lt (nbits layer input : Nat) : inputBit nbits layer input < 2 :=
  Nat.mod_lt _ (by omega)

section
variable (nbits target : Nat) (st : GenState)

/-- The correction words of the layers before `l`, in order. -/
theorem genLayers_cw (l : Nat) :
    (genLayers aes prgkey nbits target l st).cw =
      st.cw ++ (List.range l).map fun i =>
        let st' := genLayers aes prgkey nbits target i st
        layerCw aes prgkey (inputBit nbits i target) st'.s0 st'.s1 := by
  induction l with
  | zero => rw [List.range_zero, List.map_nil, List.append_nil]; rfl
  | succ l ih =>
    rw [genLayers, genLayer_cw, ih, List.range_succ, List.map_append, List.append_assoc]
    rfl

end

end

/-- The bits of `gen`'s path are those of the target's node. -/
theorem inputBit_eq (τ : LeafT) {nitems l : Nat} (hl : l < τ.depth nitems) (target : Nat) :
    inputBit (inputBits nitems) l target =
      target / τ.leavesPerNode / 2^(τ.depth nitems - l - 1) % 2 := by
  have hd := τ.depth_eq nitems
  rw [inputBit, Nat.shiftRight_eq_div_pow, τ.leavesPerNode_eq, Nat.div_div_eq_div_mul, ← Nat.pow_add,
    show τ.laneBits + (τ.depth nitems - l - 1) = inputBits nitems - l - 1 by omega]

/-! Two keys for one point. -/

section
variable (aes : AesKey → Block → Block) {τ : LeafT}

/-- Two keys that hide the value `val` at `target`: finalized, their leaf nodes XOR to the value
    in the target's node and to zero elsewhere, and their flags to 1 in the target's node only. -/
structure PointKeys (nitems target : Nat) (val : Leaf τ) (k0 k1 : DpfKey τ) : Prop where
  nitems0 : k0.nitems = nitems
  nitems1 : k1.nitems = nitems
  cw0 : k0.cw.length = τ.depth nitems
  cw1 : k1.cw.length = τ.depth nitems
  leaf : ∀ i j, i < τ.nodes nitems → j < τ.nodesPerLeaf →
    finalBlock aes k0 (leafNode aes k0 i) j ^^^ finalBlock aes k1 (leafNode aes k1 i) j =
      if i = target / τ.leavesPerNode then leafBlock target val j else 0
  flag : ∀ i, i < τ.nodes nitems →
    (leafNode aes k0 i).2 ^^^ (leafNode aes k1 i).2 = if i = target / τ.leavesPerNode then 1 else 0

/-- The correction word of layer `l` in the keys of `gen`. -/
theorem genLayers_word (prgkey : AesKey) (nbits target : Nat) (root : Block × Block) {l d : Nat} (hl : l < d) :
    (genLayers aes prgkey nbits target d (genStart root)).cw.getD l 0 =
      layerCw aes prgkey (inputBit nbits l target)
        (genLayers aes prgkey nbits target l (genStart root)).s0
        (genLayers aes prgkey nbits target l (genStart root)).s1 := by
  rw [genLayers_cw, List.getD_eq_getElem?_getD]
  show (List.map _ _)[l]?.getD 0 = _
  rw [List.getElem?_map, List.getElem?_range hl]
  rfl

/-- `a` and `b` are the nodes of `gen` after `l` layers. -/
def OnPath (prgkey : AesKey) (nbits target : Nat) (root : Block × Block) (l : Nat) (a b : Node) : Prop :=
  let st := genLayers aes prgkey nbits target l (genStart root)
  a = st.s0 ∧ b = st.s1 ∧ Opposite a b

/-- A layer keeps the nodes of `gen` on the path and makes the other children equal. -/
theorem OnPath.step {prgkey : AesKey} {nbits target l : Nat} {root : Block × Block} {a b : Node}
    {key : DpfKey τ} (hkey : key.prgkey = prgkey)
    (hword : key.cw.getD l 0 = layerCw aes prgkey (inputBit nbits l target)
      (genLayers aes prgkey nbits target l (genStart root)).s0
      (genLayers aes prgkey nbits target l (genStart root)).s1)
    (h : OnPath aes prgkey nbits target root l a b) :
    OnPath aes prgkey nbits target root (l+1) (keyChild aes key l (inputBit nbits l target) a)
        (keyChild aes key l (inputBit nbits l target) b) ∧
      keyChild aes key l (1 - inputBit nbits l target) a =
        keyChild aes key l (1 - inputBit nbits l target) b := by
  obtain ⟨rfl, rfl, c, hc, hc'⟩ := h
  subst hkey
  have hcorr : ∀ d st, keyChild aes key l d st = corrected aes key.prgkey (key.cw.getD l 0) d st :=
    fun _ _ => rfl
  simp only [hcorr, hword]
  have hbit := inputBit_lt nbits l target
  obtain ⟨hk0, hk1⟩ := genLayer_keep aes key.prgkey hbit
    (genLayers aes key.prgkey nbits target l (genStart root))
  exact ⟨⟨hk0, hk1, corrected_keep hbit hc hc'⟩, corrected_lose hbit hc hc'⟩

/-- On the target's node the two keys stop with the nodes of `gen`, off it they agree. -/
theorem leafNode_pair (prgkey : AesKey) {nitems target : Nat} (htarget : target < nitems)
    (root : Block × Block) (fin : Vector Block τ.nodesPerLeaf) {i : Nat} (hi : i < τ.nodes nitems) :
    let st := genLayers aes prgkey (inputBits nitems) target (τ.depth nitems) (genStart root)
    let k0 : DpfKey τ := ⟨nitems, (genStart root).s0.1, st.cw, fin, prgkey⟩
    let k1 : DpfKey τ := ⟨nitems, (genStart root).s1.1, st.cw, fin, prgkey⟩
    (i = target / τ.leavesPerNode →
      leafNode aes k0 i = st.s0 ∧ leafNode aes k1 i = st.s1 ∧ Opposite st.s0 st.s1) ∧
    (i ≠ target / τ.leavesPerNode → leafNode aes k0 i = leafNode aes k1 i) := by
  intro st k0 k1
  have hpow := τ.nodes_le_two_pow nitems
  have hnode : target / τ.leavesPerNode < 2^τ.depth nitems := (τ.div_lt_nodes htarget).trans_le hpow
  have hstep : ∀ l a b, l < τ.depth nitems → OnPath aes prgkey (inputBits nitems) target root l a b →
      let bit := target / τ.leavesPerNode / 2^(τ.depth nitems - l - 1) % 2
      OnPath aes prgkey (inputBits nitems) target root (l+1) (keyChild aes k0 l bit a)
          (keyChild aes k0 l bit b) ∧
        keyChild aes k0 l (1 - bit) a = keyChild aes k0 l (1 - bit) b := by
    intro l a b hl hon
    rw [← inputBit_eq τ hl target]
    exact hon.step aes rfl (genLayers_word aes prgkey _ target root hl)
  have hpair := node_pair _ ⟨rfl, rfl, genStart_opposite root⟩ hstep (Nat.le_refl _) hnode i
    (hi.trans_le hpow)
  rw [Nat.sub_self, Nat.pow_zero, Nat.div_one] at hpair
  -- the two keys differ in their roots only
  have hleaf0 : leafNode aes k0 i = node (keyChild aes k0) (genStart root).s0 (τ.depth nitems) i := rfl
  have hleaf1 : leafNode aes k1 i = node (keyChild aes k0) (genStart root).s1 (τ.depth nitems) i := by
    rw [leafNode, keyRoot, genStart_flag]
    rfl
  rw [hleaf0, hleaf1]
  refine ⟨?_, hpair.2⟩
  intro heq
  obtain ⟨ha, hb, ho⟩ := hpair.1 heq
  rw [ha, hb] at ho
  exact ⟨ha, hb, ho⟩

/-- In the target's node one of the two keys applies the finalizer, which cancels both pads. -/
theorem finalBlock_opposite {k0 k1 : DpfKey τ} {a b : Node} {target j : Nat} {val : Leaf τ}
    (hopp : Opposite a b) (hj : j < τ.nodesPerLeaf) (hprg : k1.prgkey = k0.prgkey)
    (hfin : k1.finalizer = k0.finalizer)
    (hmake : k0.finalizer = makeFinalizer aes k0.prgkey target val (a.1, b.1)) :
    finalBlock aes k0 a j ^^^ finalBlock aes k1 b j = leafBlock target val j := by
  obtain ⟨c, hc, hc'⟩ := hopp
  have hblock : k0.finalizerBlock j = leafBlock target val j ^^^
      (stretchLeaf aes k0.prgkey a.1 j ^^^ stretchLeaf aes k0.prgkey b.1 j) := by
    rw [DpfKey.finalizerBlock, hmake, makeFinalizer, Vector.getElem?_ofFn, dif_pos hj]
    rfl
  have hblock' : k1.finalizerBlock j = k0.finalizerBlock j := by
    rw [DpfKey.finalizerBlock, hfin, DpfKey.finalizerBlock]
  simp only [finalBlock, hblock', hprg, hblock, hc, hc', flagOf_ne_zero]
  generalize stretchLeaf aes k0.prgkey a.1 j = x
  generalize stretchLeaf aes k0.prgkey b.1 j = y
  -- exactly one of the two keys adds the finalizer block
  cases c with
  | true =>
    rw [Bool.not_true, xorIf_true, xorIf_false]
    calc x ^^^ (leafBlock target val j ^^^ (x ^^^ y)) ^^^ y
        = (x ^^^ y) ^^^ (x ^^^ y) ^^^ leafBlock target val j := by ac_rfl
      _ = leafBlock target val j := by rw [BitVec.xor_self, BitVec.zero_xor]
  | false =>
    rw [Bool.not_false, xorIf_true, xorIf_false]
    calc x ^^^ (y ^^^ (leafBlock target val j ^^^ (x ^^^ y)))
        = (x ^^^ y) ^^^ (x ^^^ y) ^^^ leafBlock target val j := by ac_rfl
      _ = leafBlock target val j := by rw [BitVec.xor_self, BitVec.zero_xor]

/-- `gen` in range makes two keys for its point. -/
theorem gen_keys (prgkey : AesKey) {nitems target : Nat} (val : Leaf τ) (root : Block × Block)
    (htarget : target < nitems) :
    ∃ k0 k1, gen aes prgkey nitems target val root = .ok (k0, k1) ∧
      PointKeys aes nitems target val k0 k1 := by
  have hlen : (genLayers aes prgkey (inputBits nitems) target (τ.depth nitems) (genStart root)).cw.length =
      τ.depth nitems := by
    rw [genLayers_cw, List.length_append, List.length_map, List.length_range]
    exact Nat.zero_add _
  refine ⟨_, _, if_neg (by omega), rfl, rfl, hlen, hlen, ?_, ?_⟩
  · intro i j hi hj
    obtain ⟨hon, hoff⟩ := leafNode_pair aes prgkey htarget root _ hi
    split
    · next heq =>
      obtain ⟨ha, hb, hopp⟩ := hon heq
      rw [ha, hb]
      exact finalBlock_opposite aes hopp hj rfl rfl rfl
    · next hne =>
      rw [hoff hne]
      exact BitVec.xor_self
  -- the flags are opposite on the target's node only
  · intro i hi
    obtain ⟨hon, hoff⟩ := leafNode_pair aes prgkey htarget root _ hi
    split
    · next heq =>
      obtain ⟨ha, hb, c, hc, hc'⟩ := hon heq
      rw [ha, hb, hc, hc']
      cases c <;> rfl
    · next hne =>
      rw [hoff hne]
      exact BitVec.xor_self

/-! Leaves. -/

theorem leafAt_xor (f g : Nat → Block) (r : Nat) :
    leafAt τ (fun j => f j ^^^ g j) r = leafAt τ f r ^^^ leafAt τ g r := by
  apply BitVec.eq_of_getLsbD_eq
  intro k hk
  simp only [leafAt, getLsbD_ofBits, BitVec.getLsbD_xor, hk, decide_true, Bool.true_and]

theorem leafAt_zero (r : Nat) : leafAt τ (fun _ => 0) r = 0 := by
  apply BitVec.eq_of_getLsbD_eq
  intro k hk
  simp [leafAt, getLsbD_ofBits]

/-- A leaf reads the blocks of its node only. -/
theorem leafAt_congr {f g : Nat → Block} {r : Nat} (hr : r < τ.leavesPerNode)
    (h : ∀ j, j < τ.nodesPerLeaf → f j = g j) : leafAt τ f r = leafAt τ g r := by
  have hr' : r = r % τ.leavesPerNode := (Nat.mod_eq_of_lt hr).symm
  have h0 : r / τ.leavesPerNode = 0 := Nat.div_eq_of_lt hr
  conv => rhs; rw [hr']
  refine leafAt_of_node τ fun j hj => ?_
  rw [h0, Nat.zero_mul, Nat.zero_add]
  exact h j hj

/-- A packed leaf `val` in lane `lane` of a block is what lane `lane` of it reads, and the other
    lanes read zero. -/
theorem lane_getLsbD (val : Leaf τ) {lane r k : Nat} (hk : k < τ.bitsPerLeaf)
    (hr : r * τ.bitsPerLeaf + k < 128) :
    (val.setWidth 128 <<< (lane * τ.bitsPerLeaf)).getLsbD (r * τ.bitsPerLeaf + k) =
      (if r = lane then val else 0).getLsbD k := by
  simp only [BitVec.getLsbD_shiftLeft, BitVec.getLsbD_setWidth, hr, decide_true, Bool.true_and]
  rcases Nat.lt_trichotomy r lane with h | h | h
  -- below the value's lane
  · have hle : (r + 1) * τ.bitsPerLeaf ≤ lane * τ.bitsPerLeaf := Nat.mul_le_mul_right _ h
    have hlt : r * τ.bitsPerLeaf + k < lane * τ.bitsPerLeaf := by
      rw [Nat.succ_mul] at hle
      omega
    rw [if_neg (by omega), decide_eq_true hlt]
    simp
  · subst h
    have hge : ¬ r * τ.bitsPerLeaf + k < r * τ.bitsPerLeaf := by omega
    have hlt : k < 128 := by omega
    rw [if_pos rfl, decide_eq_false hge, Nat.add_sub_cancel_left, decide_eq_true hlt]
    rfl
  -- above it
  · have hle : (lane + 1) * τ.bitsPerLeaf ≤ r * τ.bitsPerLeaf := Nat.mul_le_mul_right _ h
    have hge : τ.bitsPerLeaf ≤ r * τ.bitsPerLeaf + k - lane * τ.bitsPerLeaf := by
      rw [Nat.succ_mul] at hle
      omega
    rw [if_neg (by omega), BitVec.getLsbD_of_ge val _ hge]
    simp

/-- The leaf that `make_finalizer` places is the target's, and the others in its node are zero. -/
theorem leafAt_leafBlock (target : Nat) (val : Leaf τ) {r : Nat} (hr : r < τ.leavesPerNode) :
    leafAt τ (leafBlock target val) r = if r = target % τ.leavesPerNode then val else 0 := by
  apply BitVec.eq_of_getLsbD_eq
  intro k hk
  simp only [leafAt, getLsbD_ofBits, hk, decide_true, Bool.true_and]
  -- a packed leaf is one lane of one block, a larger one is blocks of its own
  by_cases hp : τ.isPacked = true
  · have hlanes : (if τ = .m128i then 1 else 16 / τ.sizeof) = τ.leavesPerNode := by
      cases τ with
      | array N hN =>
        have hsize : ¬ 16 * N < 16 := by omega
        exact absurd (of_decide_eq_true hp) hsize
      | m128i => cases hp
      | _ => rfl
    have hone : τ.nodesPerLeaf = 1 := by rw [LeafT.nodesPerLeaf, if_pos hp]
    have hin : r * τ.bitsPerLeaf + k < 128 := by
      have hbits := τ.leaf_bits
      have hle : (r + 1) * τ.bitsPerLeaf ≤ τ.leavesPerNode * τ.bitsPerLeaf := Nat.mul_le_mul_right _ hr
      rw [Nat.succ_mul] at hle
      omega
    simp only [leafBlock, if_pos hp, hlanes, Nat.mod_eq_of_lt hin]
    exact lane_getLsbD val hk hin
  · have hone := τ.leavesPerNode_eq_one (by simpa using hp)
    have hr0 : r = 0 := by omega
    have hr1 : r = target % τ.leavesPerNode := by
      rw [hone, Nat.mod_one]
      exact hr0
    rw [if_pos hr1, hr0, Nat.zero_mul, Nat.zero_add, leafBlock, if_neg hp, BitVec.getLsbD_extractLsb',
      decide_eq_true (Nat.mod_lt k (by omega)), Nat.div_add_mod]
    rfl

/-! Correctness. -/

/-- Leaf by leaf, the two keys XOR to the value at the point and to zero elsewhere. -/
theorem PointKeys.leaf_xor {aes : AesKey → Block → Block} {nitems target : Nat} {val : Leaf τ}
    {k0 k1 : DpfKey τ} (h : PointKeys aes nitems target val k0 k1) {x : Nat} (hx : x < nitems) :
    leafAt τ (finalBlock aes k0 (leafNode aes k0 (x / τ.leavesPerNode))) (x % τ.leavesPerNode) ^^^
        leafAt τ (finalBlock aes k1 (leafNode aes k1 (x / τ.leavesPerNode))) (x % τ.leavesPerNode) =
      if x = target then val else 0 := by
  have hlane : x % τ.leavesPerNode < τ.leavesPerNode := Nat.mod_lt _ τ.leavesPerNode_pos
  rw [← leafAt_xor, leafAt_congr hlane fun j hj => h.leaf _ j (τ.div_lt_nodes hx) hj]
  -- in the target's node the lanes decide
  by_cases hnt : x / τ.leavesPerNode = target / τ.leavesPerNode
  · simp only [if_pos hnt]
    rw [leafAt_leafBlock target val hlane]
    have hx := Nat.div_add_mod x τ.leavesPerNode
    have ht := Nat.div_add_mod target τ.leavesPerNode
    rw [hnt] at hx
    have hiff : x % τ.leavesPerNode = target % τ.leavesPerNode ↔ x = target := by
      constructor
      · intro h
        calc x = τ.leavesPerNode * (target / τ.leavesPerNode) + x % τ.leavesPerNode := hx.symm
          _ = τ.leavesPerNode * (target / τ.leavesPerNode) + target % τ.leavesPerNode := by rw [h]
          _ = target := ht
      · intro h
        rw [h]
    simp only [hiff]
  · simp only [if_neg hnt]
    rw [leafAt_zero, if_neg]
    rintro rfl
    exact hnt rfl

/-- Full-domain evaluation of two keys for a point. -/
theorem evalInterval_pair {nitems target : Nat} {val : Leaf τ} {k0 k1 : DpfKey τ}
    (hkeys : PointKeys aes nitems target val k0 k1) (hn : 0 < nitems) {b0 b1 : Buffers}
    (h0 : τ.nodes nitems * τ.nodesPerLeaf ≤ b0.nodeRoom ∧ τ.nodes nitems ≤ b0.flagRoom)
    (h1 : τ.nodes nitems * τ.nodesPerLeaf ≤ b1.nodeRoom ∧ τ.nodes nitems ≤ b1.flagRoom) :
    ∃ b0' b1', evalInterval aes k0 0 (nitems - 1) b0 = some b0' ∧
      evalInterval aes k1 0 (nitems - 1) b1 = some b1' ∧
      (∀ x, x < nitems →
        leafAt τ b0'.nodes x ^^^ leafAt τ b1'.nodes x = if x = target then val else 0) ∧
      ∀ m, m < τ.nodes nitems →
        b0'.flags m ^^^ b1'.flags m = if m = target / τ.leavesPerNode then 1 else 0 := by
  have hcw0 : k0.cw.length = k0.depth := by rw [hkeys.cw0, DpfKey.depth, hkeys.nitems0]
  have hcw1 : k1.cw.length = k1.depth := by rw [hkeys.cw1, DpfKey.depth, hkeys.nitems1]
  obtain ⟨b0', hrun0, hout0, hfl0, -⟩ := evalInterval_full aes k0 (b := b0)
    (by rw [hkeys.nitems0]; exact hn) hcw0.ge (by rw [hkeys.nitems0]; exact h0.1)
    (by rw [hkeys.nitems0]; exact h0.2)
  obtain ⟨b1', hrun1, hout1, hfl1, -⟩ := evalInterval_full aes k1 (b := b1)
    (by rw [hkeys.nitems1]; exact hn) hcw1.ge (by rw [hkeys.nitems1]; exact h1.1)
    (by rw [hkeys.nitems1]; exact h1.2)
  rw [hkeys.nitems0] at hrun0 hout0 hfl0
  rw [hkeys.nitems1] at hrun1 hout1 hfl1
  refine ⟨b0', b1', hrun0, hrun1, ?_, ?_⟩
  · intro x hx
    have hnode := τ.div_lt_nodes hx
    rw [leafAt_of_node τ fun j hj => hout0 _ j hnode hj, leafAt_of_node τ fun j hj => hout1 _ j hnode hj]
    exact hkeys.leaf_xor hx
  · intro m hm
    rw [hfl0 m hm, hfl1 m hm]
    exact hkeys.flag m hm

/-- DPF correctness on the full domain. -/
theorem gen_correct (aes : AesKey → Block → Block) (prgkey : AesKey) (τ : LeafT) {nitems target : Nat}
    (val : Leaf τ) (root : Block × Block) (htarget : target < nitems) (b0 b1 : Buffers)
    (h0 : τ.nodes nitems * τ.nodesPerLeaf ≤ b0.nodeRoom ∧ τ.nodes nitems ≤ b0.flagRoom)
    (h1 : τ.nodes nitems * τ.nodesPerLeaf ≤ b1.nodeRoom ∧ τ.nodes nitems ≤ b1.flagRoom) :
    ∃ k0 k1 b0' b1', gen aes prgkey nitems target val root = .ok (k0, k1) ∧
      evalInterval aes k0 0 (nitems - 1) b0 = some b0' ∧
      evalInterval aes k1 0 (nitems - 1) b1 = some b1' ∧
      (∀ x, x < nitems →
        leafAt τ b0'.nodes x ^^^ leafAt τ b1'.nodes x = if x = target then val else 0) ∧
      ∀ m, m < τ.nodes nitems →
        b0'.flags m ^^^ b1'.flags m = if m = target / τ.leavesPerNode then 1 else 0 := by
  obtain ⟨k0, k1, hgen, hkeys⟩ := gen_keys aes prgkey val root htarget
  obtain ⟨b0', b1', hrun0, hrun1, hleaf, hflag⟩ :=
    evalInterval_pair aes hkeys (by omega) h0 h1
  exact ⟨k0, k1, b0', b1', hgen, hrun0, hrun1, hleaf, hflag⟩

theorem gen_correct_three :
    ∃ k0 k1 b0' b1', gen (fun _ b => b) 0 3 1 (5 : Leaf .uint64) (0, 0) = .ok (k0, k1) ∧
      evalInterval (fun _ b => b) k0 0 (3 - 1) ⟨fun _ => 0, fun _ => 0, 2, 2⟩ = some b0' ∧
      evalInterval (fun _ b => b) k1 0 (3 - 1) ⟨fun _ => 0, fun _ => 0, 2, 2⟩ = some b1' ∧
      (∀ x, x < 3 → leafAt .uint64 b0'.nodes x ^^^ leafAt .uint64 b1'.nodes x = if x = 1 then 5 else 0) ∧
      ∀ m, m < LeafT.uint64.nodes 3 →
        b0'.flags m ^^^ b1'.flags m = if m = 1 / LeafT.uint64.leavesPerNode then 1 else 0 :=
  gen_correct (fun _ b => b) 0 .uint64 5 (0, 0) (by decide) _ _ ⟨by decide, by decide⟩
    ⟨by decide, by decide⟩

end

end Mpc
