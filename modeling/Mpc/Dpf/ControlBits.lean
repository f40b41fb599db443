import Mpc.Dpf.Eval

/- Control bits of the tree evaluator (dpf.hpp). A child's bit is a low bit of its seed
   and a bit of a correction word masked with the parent's bit, so a buffer of flags
   that holds zeros and ones keeps doing so whatever the key: through the scratch cells
   of every layer, on any interval, and also for a key that does not fit the buffers, as
   long as the evaluation ends at all (`evalInterval_flagBits`). -/
namespace Mpc
open LE Loop BinTree

/-- A word that is 0 or 1. -/
def IsBit {w : Nat} (x : BitVec w) : Prop := x = 0 ∨ x = 1

section
variable {w : Nat} {x y : BitVec w}

theorem IsBit.zero : IsBit (0 : BitVec w) := .inl rfl

theorem IsBit.xor (hx : IsBit x) (hy : IsBit y) : IsBit (x ^^^ y) := by
  rcases hx with rfl | rfl
  · rcases hy with rfl | rfl
    · exact .inl BitVec.xor_self
    · exact .inr BitVec.zero_xor
  · rcases hy with rfl | rfl
    · exact .inr BitVec.xor_zero
    · exact .inl BitVec.xor_self

theorem IsBit.and (hx : IsBit x) (hy : IsBit y) : IsBit (x &&& y) := by
  rcases hx with rfl | rfl
  · exact .inl BitVec.zero_and
  · rcases hy with rfl | rfl
    · exact .inl BitVec.and_zero
    · exact .inr BitVec.and_self

/-- A bit in a word of another width. -/
theorem IsBit.setWidth {x : Byte} (hx : IsBit x) (v : Nat) : IsBit (x.setWidth v) := by
  rcases hx with rfl | rfl
  · exact .inl (BitVec.setWidth_zero v 8)
  · right
    apply BitVec.eq_of_getLsbD_eq
    intro i hi
    simp only [BitVec.getLsbD_setWidth, hi, decide_true, Bool.true_and]
    show (1#8).getLsbD i = (1#v).getLsbD i
    rw [BitVec.getLsbD_one, BitVec.getLsbD_one]
    have hv : 0 < v := by omega
    simp [hv]

end

theorem isBit_getLsb (block bits : Block) : IsBit (getLsb block bits) := by
  rw [getLsb]
  split
  · exact .inr rfl
  · exact .inl rfl

section
variable (aes : AesKey → Block → Block) (prgkey : AesKey) (seed cw : Block)

/-- A child's control bit, from its parent's and the correction's. -/
theorem isBit_traverse {cwT prevT : Byte} (hcw : IsBit cwT) (hprev : IsBit prevT) (direction : Nat) :
    IsBit (traverse aes prgkey seed direction cwT cw prevT).2 :=
  (isBit_getLsb _ _).xor (hcw.and hprev)

theorem isBit_traverse2 {cwL cwR prevT : Byte} (hL : IsBit cwL) (hR : IsBit cwR)
    (hprev : IsBit prevT) :
    IsBit (traverse2 aes prgkey seed (cwL, cwR) cw prevT).1.2 ∧
      IsBit (traverse2 aes prgkey seed (cwL, cwR) cw prevT).2.2 :=
  ⟨(isBit_getLsb _ _).xor (hL.and hprev), (isBit_getLsb _ _).xor (hR.and hprev)⟩

/-- The flags of a key's leaf nodes. -/
theorem isBit_leafNode {τ : LeafT} (key : DpfKey τ) (i : Nat) : IsBit (leafNode aes key i).2 := by
  unfold leafNode
  generalize key.depth = l
  induction l generalizing i with
  | zero => exact isBit_getLsb _ _
  | succ l ih => exact isBit_traverse aes _ _ _ (isBit_getLsb _ _) (ih (i / 2)) _

end

/-! The buffer of flags. -/

/-- All flags are 0 or 1, also those no node owns. -/
def Buffers.FlagBits (b : Buffers) : Prop := ∀ p, IsBit (b.flags p)

namespace Buffers
variable {b b' : Buffers} {base p : Nat}

theorem FlagBits.load {st : Node} (hb : b.FlagBits) (h : b.load base p = some st) : IsBit st.2 := by
  obtain ⟨s, -, h⟩ := Option.bind_eq_some_iff.mp h
  obtain ⟨t, ht, h⟩ := Option.bind_eq_some_iff.mp h
  obtain rfl := Option.some.inj h
  rw [readFlag] at ht
  split at ht
  · exact Option.some.inj ht ▸ hb p
  · cases ht

theorem FlagBits.store {v : Node} (hb : b.FlagBits) (hv : IsBit v.2)
    (h : b.store base p v = some b') : b'.FlagBits := by
  rw [Buffers.store] at h
  split at h
  · obtain rfl := Option.some.inj h
    intro q
    by_cases hq : q = p
    · subst hq
      simpa [put] using hv
    · simpa [put, hq] using hb q
  · cases h

theorem FlagBits.writeNode {i : Nat} {v : Block} (hb : b.FlagBits)
    (h : b.writeNode i v = some b') : b'.FlagBits := by
  rw [Buffers.writeNode] at h
  split at h
  · obtain rfl := Option.some.inj h
    exact hb
  · cases h

end Buffers

/-! The evaluation. -/

section
variable {aes : AesKey → Block → Block} {τ : LeafT} {key : DpfKey τ} {cw : Block}
  {base N cur i j : Nat} {b b' : Buffers}

theorem traverse2At_flagBits (hb : b.FlagBits) (h : traverse2At aes key cw base N cur j i b = some b') :
    b'.FlagBits := by
  obtain ⟨st, hst, h⟩ := Option.bind_eq_some_iff.mp h
  obtain ⟨b₁, h₁, h⟩ := Option.bind_eq_some_iff.mp h
  obtain ⟨hL, hR⟩ := isBit_traverse2 aes key.prgkey st.1 cw (isBit_getLsb cw 0b01)
    (isBit_getLsb cw 0b10) (hb.load hst)
  exact (hb.store hL h₁).store hR h

theorem traverseAt_flagBits {d : Nat} (hb : b.FlagBits)
    (h : traverseAt aes key cw base N cur d j i b = some b') : b'.FlagBits := by
  obtain ⟨st, hst, h⟩ := Option.bind_eq_some_iff.mp h
  exact hb.store (isBit_traverse aes _ _ _ (isBit_getLsb _ _) (hb.load hst) d) h

theorem evalFirst_flagBits {nextbit : Nat} (hb : b.FlagBits)
    (h : evalFirst aes key cw base N cur nextbit b = some b') : b'.FlagBits := by
  rw [evalFirst] at h
  split at h
  · exact traverseAt_flagBits hb h
  · exact Option.some.inj h ▸ hb

theorem evalLast_flagBits {prevNodes curNodes : Nat} (hb : b.FlagBits)
    (h : evalLast aes key cw base N cur prevNodes curNodes j i b = some b') : b'.FlagBits := by
  rw [evalLast] at h
  split at h
  · split at h
    · exact traverse2At_flagBits hb h
    · exact traverseAt_flagBits hb h
  · exact Option.some.inj h ▸ hb

/-- A layer reads bits of the layer before and writes bits. -/
theorem evalLayer_flagBits {fromNode layer : Nat} {st st' : Nat × Buffers} (hb : st.2.FlagBits)
    (h : evalLayer aes key base N fromNode layer st = some st') : st'.2.FlagBits := by
  obtain ⟨cw, -, h⟩ := Option.bind_eq_some_iff.mp h
  obtain ⟨b₃, hnodes, h⟩ := Option.bind_eq_some_iff.mp h
  obtain ⟨b₁, h₁, hnodes⟩ := Option.bind_eq_some_iff.mp hnodes
  obtain ⟨b₂, h₂, h₃⟩ := Option.bind_eq_some_iff.mp hnodes
  obtain rfl := Option.some.inj h
  have hb₂ := forUp_kept Buffers.FlagBits (fun q _ _ hq hs => traverse2At_flagBits hs hq) h₂
    (evalFirst_flagBits hb h₁)
  exact evalLast_flagBits hb₂ h₃

theorem expandLayers_flagBits {fromNode : Nat} (hb : b.FlagBits)
    (h : expandLayers aes key base N fromNode b = some b') : b'.FlagBits := by
  obtain ⟨b₁, h₁, h⟩ := Option.bind_eq_some_iff.mp h
  obtain ⟨st, h₂, h⟩ := Option.bind_eq_some_iff.mp h
  obtain rfl := Option.some.inj h
  have hroot : b₁.FlagBits := hb.store (isBit_getLsb key.root 0b01) h₁
  exact forUp_kept (fun st : Nat × Buffers => st.2.FlagBits)
    (fun _ _ _ hl hs => evalLayer_flagBits hs hl) h₂ hroot

/-- Finalizing writes no flag. -/
theorem finalize_flagBits {nnodes : Nat} (hb : b.FlagBits)
    (h : finalize aes key base nnodes b = some b') : b'.FlagBits := by
  refine forUp_kept Buffers.FlagBits (fun i s s' hi hs => ?_) h hb
  obtain ⟨seed, -, hi⟩ := Option.bind_eq_some_iff.mp hi
  obtain ⟨b₁, h₁, hi⟩ := Option.bind_eq_some_iff.mp hi
  have hb₁ := forUp_kept Buffers.FlagBits (fun _ _ _ hj hs => hs.writeNode hj) h₁ hs
  refine forUp_kept Buffers.FlagBits (fun j t t' hj ht => ?_) hi hb₁
  obtain ⟨v, -, hj⟩ := Option.bind_eq_some_iff.mp hj
  obtain ⟨flag, -, hj⟩ := Option.bind_eq_some_iff.mp hj
  exact ht.writeNode hj

/-- Whatever the key and the interval, an evaluation leaves zeros and ones in the flags. -/
theorem evalInterval_flagBits {from_ to_ : Nat} (hb : b.FlagBits)
    (h : evalInterval aes key from_ to_ b = some b') : b'.FlagBits := by
  obtain ⟨b₁, h₁, h⟩ := Option.bind_eq_some_iff.mp h
  exact finalize_flagBits (expandLayers_flagBits hb h₁) h

end

end Mpc
