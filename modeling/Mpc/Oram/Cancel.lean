import Mpc.Lib.Loop
import Mpc.Oram.Copies
import Mpc.Oram.Database
import Mpc.Oram.Selection

/- The cancellation terms. Their XOR is to be that of the two products of one
   party's blind with the other's selection (`System.Cancels`). `residue` is what is
   missing: an update leaves its leaves times the selections, since it does not
   touch the terms, and a read leaves the blinds' entry with the number of the
   point's node, and an XShare read the first update's value (`step_residue`). So
   the terms are right throughout a run exactly when every step is `Balanced`
   (`cancels_throughout_iff`). -/
namespace Mpc
open LE XorWord Select

section
variable {τ : LeafT} {nitems : Nat} {aes : AesKey → Block → Block}

/-- The number of a 64-bit leaf's node. -/
def nodeOf (rho : Fin nitems) : Fin nitems := ⟨rho / 2, by omega⟩

/-! Two parties' ORAMs. -/

/-- What the cancellation terms miss. -/
def residue (l0 l1 : Locoram τ nitems) : Leaf τ :=
  l0.cancellationTerm ^^^ l1.cancellationTerm ^^^
    (xorDot l0.blind.toList l1.sbvBlind.toList ^^^ xorDot l1.blind.toList l0.sbvBlind.toList)

variable (l0 l1 : Locoram τ nitems)

theorem of_residue {y0 y1 : Fin nitems → Bool} (h0 : Chooses l0.sbvBlind y0)
    (h1 : Chooses l1.sbvBlind y1) :
    of (residue l0 l1) = crossTerm (words l0.blind) (words l1.blind) y0 y1
      (of l0.cancellationTerm) (of l1.cancellationTerm) := by
  rw [residue, crossTerm, of_xor, of_xor, of_xor, of_xorDot _ h0, of_xorDot _ h1]

theorem residue_update {y0 y1 : Fin nitems → Bool} (h0 : Chooses l0.sbvBlind y0)
    (h1 : Chooses l1.sbvBlind y1) (index value index' value' : XShare 64) (k0 k1 : DpfKey τ) :
    residue (l0.afterUpdate aes index value (some k0)) (l1.afterUpdate aes index' value' (some k1)) =
      residue l0 l1 ^^^ (xorDot (keyLeaves aes k0 nitems).toList l1.sbvBlind.toList ^^^
        xorDot (keyLeaves aes k1 nitems).toList l0.sbvBlind.toList) := by
  apply of_injective
  have hafter := of_residue (l0.afterUpdate aes index value (some k0))
    (l1.afterUpdate aes index' value' (some k1)) h0 h1
  rw [hafter, l0.afterUpdate_words, l1.afterUpdate_words, crossTerm_write, of_xor, of_xor,
    of_residue l0 l1 h0 h1, of_xorDot _ h0, of_xorDot _ h1]
  rfl

theorem residue_read {y0 y1 : Fin nitems → Bool} (h0 : Chooses l0.sbvBlind y0)
    (h1 : Chooses l1.sbvBlind y1) {rho : Fin nitems} {k0 k1 : DpfKey .uint64}
    (hkeys : PointKeys aes nitems rho (1 : Leaf .uint64) k0 k1) (first0 first1 : Leaf τ) :
    residue (l0.afterRead aes first0 (some k0)) (l1.afterRead aes first1 (some k1)) =
      residue l0 l1 ^^^ (l0.blind.get (nodeOf rho) ^^^ l1.blind.get (nodeOf rho) ^^^ (first0 ^^^ first1)) := by
  obtain ⟨f0, f1, hf0, hf1, hf⟩ := selection_pair (τ := τ) hkeys
  have hnode : (fun i => f0 i ^^ f1 i) = fun i => decide (i = nodeOf rho) := by
    funext i
    rw [hf i]
    exact decide_eq_decide.mpr ⟨fun h => Fin.ext h, fun h => congrArg Fin.val h⟩
  apply of_injective
  have hafter := of_residue (l0.afterRead aes first0 (some k0))
    (l1.afterRead aes first1 (some k1)) (h0.xor hf0) (h1.xor hf1)
  have hcross := crossTerm_select (words l0.blind) (words l1.blind) y0 y1 f0 f1
    (of l0.cancellationTerm) (of l1.cancellationTerm) (of first0) (of first1) xorWord_two
  rw [hnode, pick_single] at hcross
  rw [hafter, l0.afterRead_term first0 hf0, l1.afterRead_term first1 hf1, of_xor, of_residue l0 l1 h0 h1]
  exact hcross

/-! Operations. -/

variable (aes) (s : System τ nitems)

/-- What an operation adds to the residue. -/
def OramOp.defect : OramOp τ nitems → Leaf τ
  | .setShare .. => 0
  | .update alpha targetValue .. =>
    xorDot (s.leaves aes alpha targetValue .P0).toList (s.oram .P1).sbvBlind.toList ^^^
      xorDot (s.leaves aes alpha targetValue .P1).toList (s.oram .P0).sbvBlind.toList
  | .readAShare rho .. => (s.oram .P0).blind.get (nodeOf rho) ^^^ (s.oram .P1).blind.get (nodeOf rho)
  | .readXShare rho .. => (s.oram .P0).blind.get (nodeOf rho) ^^^ (s.oram .P1).blind.get (nodeOf rho) ^^^
      ((s.oram .P0).firstVal ^^^ (s.oram .P1).firstVal)

/-- An update whose leaves have the same product with the other party's selection at both parties,
    an AShare read of a node whose number is that of an entry without a blind, an XShare read of
    one whose entry has the first update's value. -/
def OramOp.Balanced : OramOp τ nitems → Prop
  | .setShare .. => True
  | .update alpha targetValue .. =>
    xorDot (s.leaves aes alpha targetValue .P0).toList (s.oram .P1).sbvBlind.toList =
      xorDot (s.leaves aes alpha targetValue .P1).toList (s.oram .P0).sbvBlind.toList
  | .readAShare rho .. => (s.oram .P0).blind.get (nodeOf rho) = (s.oram .P1).blind.get (nodeOf rho)
  | .readXShare rho .. => (s.oram .P0).blind.get (nodeOf rho) ^^^ (s.oram .P1).blind.get (nodeOf rho) =
      (s.oram .P0).firstVal ^^^ (s.oram .P1).firstVal

/-- The cancellation terms are what the cross products need. -/
def System.Cancels : Prop :=
  (s.oram .P0).cancellationTerm ^^^ (s.oram .P1).cancellationTerm =
    xorDot (s.oram .P0).blind.toList (s.oram .P1).sbvBlind.toList ^^^
      xorDot (s.oram .P1).blind.toList (s.oram .P0).sbvBlind.toList

theorem cancels_iff : s.Cancels ↔ residue (s.oram .P0) (s.oram .P1) = 0 :=
  BitVec.xor_eq_zero_iff.symm

theorem balanced_iff (op : OramOp τ nitems) : op.Balanced aes s ↔ op.defect aes s = 0 := by
  cases op with
  | setShare party share => exact ⟨fun _ => rfl, fun _ => trivial⟩
  | update alpha targetValue idx index value order => exact BitVec.xor_eq_zero_iff.symm
  | readAShare rho index order => exact BitVec.xor_eq_zero_iff.symm
  | readXShare rho index order => exact BitVec.xor_eq_zero_iff.symm

variable {s}

/-- Two ORAMs that are the same miss nothing. -/
theorem residue_self (loc : Locoram τ nitems) : residue loc loc = 0 := by
  rw [residue, BitVec.xor_self, BitVec.xor_self]
  exact BitVec.xor_self

theorem step_residue (h : s.Boolean) (op : OramOp τ nitems) :
    residue ((op.step aes s).2.oram .P0) ((op.step aes s).2.oram .P1) =
      residue (s.oram .P0) (s.oram .P1) ^^^ op.defect aes s := by
  obtain ⟨y0, h0⟩ := h .P0
  obtain ⟨y1, h1⟩ := h .P1
  cases op with
  -- a load touches no blind
  | setShare party share =>
    cases party <;> exact BitVec.xor_zero.symm
  | update alpha targetValue idx index value order =>
    obtain ⟨k0, k1, hdealt, -⟩ :=
      dealt_keys aes (s.env .P2) nitems alpha targetValue τ.sizeof alpha.isLt
    simp only [OramOp.step, OramOp.defect, System.leaves, s.key_dealt hdealt]
    exact residue_update _ _ h0 h1 _ _ _ _ k0 k1
  | readAShare rho index order =>
    obtain ⟨k0, k1, hdealt, hkeys⟩ := dealt_keys aes (s.env .P2) nitems rho (1 : Leaf .uint64) 0 rho.isLt
    simp only [OramOp.step, OramOp.defect, s.key_dealt hdealt]
    calc residue ((s.oram .P0).afterRead aes 0 (some k0)) ((s.oram .P1).afterRead aes 0 (some k1))
        = residue (s.oram .P0) (s.oram .P1) ^^^
            ((s.oram .P0).blind.get (nodeOf rho) ^^^ (s.oram .P1).blind.get (nodeOf rho) ^^^ (0 ^^^ 0)) :=
          residue_read _ _ h0 h1 hkeys 0 0
      _ = residue (s.oram .P0) (s.oram .P1) ^^^
            ((s.oram .P0).blind.get (nodeOf rho) ^^^ (s.oram .P1).blind.get (nodeOf rho)) := by
          rw [BitVec.xor_self, BitVec.xor_zero]
  | readXShare rho index order =>
    obtain ⟨k0, k1, hdealt, hkeys⟩ := dealt_keys aes (s.env .P2) nitems rho (1 : Leaf .uint64) 0 rho.isLt
    simp only [OramOp.step, OramOp.defect, s.key_dealt hdealt]
    exact residue_read ((s.oram .P0).noteRead ⟨index .P0, true⟩)
      ((s.oram .P1).noteRead ⟨index .P1, true⟩) h0 h1 hkeys _ _

theorem step_cancels (h : s.Boolean) (hc : s.Cancels) (op : OramOp τ nitems) :
    (op.step aes s).2.Cancels ↔ op.Balanced aes s := by
  rw [cancels_iff, step_residue aes h, (cancels_iff s).mp hc, balanced_iff]
  exact Iff.of_eq (congrArg (· = 0) BitVec.zero_xor)

/-! New ORAMs. -/

theorem make_cancels (env : Role → Env) : (System.make τ nitems env).Cancels :=
  (cancels_iff _).mpr (residue_self _)

theorem make_update_balanced (env : Role → Env) (alpha : Fin nitems) (targetValue : Leaf τ)
    (idx : Role → Fin nitems) (index value : Role → BitVec 64) (order : List Bool) :
    OramOp.Balanced aes (.make τ nitems env) (.update alpha targetValue idx index value order) :=
  (xorDot_false _).trans (xorDot_false _).symm

/-- With no share loaded the blinds share what has been written. -/
theorem blind_after (ops : List (OramOp τ nitems)) (hops : ∀ op ∈ ops, op.isLoad = false)
    (env : Role → Env) (j : Fin nitems) :
    let s := (System.make τ nitems env).after aes ops
    (s.oram .P0).blind.get j ^^^ (s.oram .P1).blind.get j = written j ops := by
  intro s
  have hblind : ∀ p, (s.oram p).secretShare = (s.oram p).blind := fun p => blinded_after hops rfl
  calc (s.oram .P0).blind.get j ^^^ (s.oram .P1).blind.get j
      = s.entry j := by rw [System.entry, hblind, hblind]
    _ = written j ops := make_entry_after env hops j

end

/-- The cancellation terms are right throughout a run exactly when all its steps are balanced. -/
theorem cancels_throughout_iff (aes : AesKey → Block → Block) {nitems : Nat} (spare : Nat)
    (h8 : 8 ≤ nitems) (heven : nitems % 2 = 0) (h64 : nitems < 2^64) (env : Role → Env)
    (ops : List (OramOp .uint64 nitems)) (hreads : ReadsAfterUpdate false ops) :
    let s := System.make .uint64 nitems env
    let state := fun k => s.after aes (ops.take k)
    (∀ k, s.Ends aes spare (ops.take k)) ∧
    ((∀ k, k ≤ ops.length → (state k).Cancels) ↔
      ∀ k (hk : k < ops.length), ops[k].Balanced aes (state k)) := by
  intro s state
  refine ⟨fun k => make_ends (sized_even h8 heven h64 spare) env (hreads.take k), ?_⟩
  apply Loop.throughout_iff
  · exact make_cancels env
  · intro k hk hc
    simp only [state, s.after_take_succ aes hk]
    exact step_cancels aes (boolean_after (make_boolean env) _) hc ops[k]

/-- A write to entry 0 and a read at entry 3, which is in node 1. -/
theorem cancels_throughout_other :
    let ops : List (OramOp .uint64 8) :=
      [.update 0 1 (fun _ => 0) (fun _ => 0) (tri 1 0 0) [], .readAShare 3 (fun _ => 0) []]
    ∀ k, k ≤ ops.length →
      ((System.make .uint64 8 fun _ => Env.zeros).after (fun _ b => b) (ops.take k)).Cancels := by
  intro ops
  apply (cancels_throughout_iff (fun _ b => b) 0 (by decide) (by decide) (by decide)
    (fun _ => Env.zeros) ops trivial).2.mpr
  intro k hk
  match k, hk with
  | 0, _ => exact make_update_balanced _ _ _ _ _ _ _ _
  | 1, _ =>
    have hblind := blind_after (fun _ b => b) (ops.take 1) (by simp [ops, OramOp.isLoad])
      (fun _ => Env.zeros) 1
    exact BitVec.xor_eq_zero_iff.mp (hblind.trans (by decide))

/-- A write to entry 0 and a read of it. -/
theorem read_breaks_cancellation :
    let ops : List (OramOp .uint64 8) :=
      [.update 0 1 (fun _ => 0) (fun _ => 0) (tri 1 0 0) [], .readAShare 0 (fun _ => 0) []]
    let s := System.make .uint64 8 fun _ => Env.zeros
    ReadsAfterUpdate false ops ∧ s.Ends (fun _ b => b) 0 ops ∧ ¬ (s.after (fun _ b => b) ops).Cancels := by
  intro ops s
  refine ⟨trivial, make_ends (sized_even (by decide) (by decide) (by decide) 0) _ trivial, ?_⟩
  intro h
  have hbool : (s.after (fun _ b => b) (ops.take 1)).Boolean := boolean_after (make_boolean _) _
  have hcancels : (s.after (fun _ b => b) (ops.take 1)).Cancels :=
    (step_cancels _ (make_boolean _) (make_cancels _) _).mpr (make_update_balanced _ _ _ _ _ _ _ _)
  have hblind := blind_after (fun _ b => b) (ops.take 1) (by simp [ops, OramOp.isLoad])
    (fun _ => Env.zeros) 0
  have hbalanced := (step_cancels _ hbool hcancels _).mp h
  exact absurd (hblind.symm.trans (BitVec.xor_eq_zero_iff.mpr hbalanced)) (by decide)

end Mpc
