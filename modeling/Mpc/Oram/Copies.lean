import Mpc.Oram.Run

/- The blinded copies. `peerBlinded` and `sbvPeerBlinded` are to hold the other
   party's shares under its blinds (`Copies`). No operation writes either, and a
   read changes `sbvSecretShare` and `sbvBlind` alike (`Uncopied`), so the copies
   are right as long as `secretShare` is `blind` at both parties. An update changes
   the two alike; `setShare` changes one of them. -/
namespace Mpc
open LE

section
variable {τ : LeafT} {nitems : Nat}

namespace Locoram

/-- Nothing has been copied from the other party, and the two sbv vectors are the same. -/
structure Uncopied (loc : Locoram τ nitems) : Prop where
  peer : loc.peerBlinded = .replicate nitems 0
  sbvPeer : loc.sbvPeerBlinded = .replicate nitems 0
  sbv : loc.sbvSecretShare = loc.sbvBlind

variable {loc : Locoram τ nitems} {aes : AesKey → Block → Block}

theorem Uncopied.make : (Locoram.make τ nitems).Uncopied := ⟨rfl, rfl, rfl⟩

theorem Uncopied.afterUpdate (h : loc.Uncopied) (index value : XShare 64) (key : Option (DpfKey τ)) :
    (loc.afterUpdate aes index value key).Uncopied := by
  cases key with
  | none => exact ⟨h.peer, h.sbvPeer, h.sbv⟩
  | some k => exact ⟨h.peer, h.sbvPeer, h.sbv⟩

theorem Uncopied.afterRead (h : loc.Uncopied) (first : Leaf τ) (key : Option (DpfKey .uint64)) :
    (loc.afterRead aes first key).Uncopied := by
  cases key with
  | none => exact h
  | some k => exact ⟨h.peer, h.sbvPeer, congrArg (Vector.zipWith (· ^^^ ·) · _) h.sbv⟩

/-- An update changes the share and the blind alike. -/
theorem afterUpdate_blinded (h : loc.secretShare = loc.blind) (index value : XShare 64)
    (key : Option (DpfKey τ)) :
    (loc.afterUpdate aes index value key).secretShare = (loc.afterUpdate aes index value key).blind := by
  cases key with
  | none => exact h
  | some k => exact congrArg (Vector.zipWith (· ^^^ ·) · _) h

/-- A read changes neither. -/
theorem afterRead_blinded (h : loc.secretShare = loc.blind) (first : Leaf τ)
    (key : Option (DpfKey .uint64)) :
    (loc.afterRead aes first key).secretShare = (loc.afterRead aes first key).blind := by
  cases key with
  | none => exact h
  | some k => exact h

end Locoram

/-- Operations that load no share keep the share and the blind alike. -/
theorem step_blinded {aes : AesKey → Block → Block} {s : System τ nitems} {op : OramOp τ nitems}
    (hop : op.isLoad = false) {p : Role} (h : (s.oram p).secretShare = (s.oram p).blind) :
    ((op.step aes s).2.oram p).secretShare = ((op.step aes s).2.oram p).blind := by
  cases op with
  | setShare party share => cases hop
  | update alpha targetValue idx index value order => exact Locoram.afterUpdate_blinded h _ _ _
  | readAShare rho index order => exact Locoram.afterRead_blinded h _ _
  | readXShare rho index order =>
    have hnote : ((s.oram p).noteRead ⟨index p, true⟩).secretShare =
        ((s.oram p).noteRead ⟨index p, true⟩).blind := h
    exact Locoram.afterRead_blinded hnote _ _

theorem blinded_after {aes : AesKey → Block → Block} {s : System τ nitems} {ops : List (OramOp τ nitems)}
    (hops : ∀ op ∈ ops, op.isLoad = false) {p : Role}
    (h : (s.oram p).secretShare = (s.oram p).blind) :
    ((s.after aes ops).oram p).secretShare = ((s.after aes ops).oram p).blind := by
  induction ops generalizing s with
  | nil => exact h
  | cons op ops ih =>
    exact ih (fun op' h' => hops op' (List.mem_cons_of_mem op h'))
      (step_blinded (hops op List.mem_cons_self) h)

/-- No party of a run from new ORAMs has a copy. -/
theorem uncopied_step {aes : AesKey → Block → Block} {s : System τ nitems}
    (h : ∀ p, (s.oram p).Uncopied) (op : OramOp τ nitems) (p : Role) :
    ((op.step aes s).2.oram p).Uncopied := by
  cases op with
  | setShare party share =>
    show (Function.update s.oram party _ p).Uncopied
    by_cases hp : p = party
    · subst hp
      rw [Function.update_self]
      exact ⟨(h p).peer, (h p).sbvPeer, (h p).sbv⟩
    · rw [Function.update_of_ne hp]
      exact h p
  | update alpha targetValue idx index value order => exact (h p).afterUpdate _ _ _
  | readAShare rho index order => exact (h p).afterRead _ _
  | readXShare rho index order =>
    have hnote : ((s.oram p).noteRead ⟨index p, true⟩).Uncopied := ⟨(h p).peer, (h p).sbvPeer, (h p).sbv⟩
    exact hnote.afterRead _ _

theorem uncopied_after {aes : AesKey → Block → Block} {s : System τ nitems}
    (h : ∀ p, (s.oram p).Uncopied) (ops : List (OramOp τ nitems)) (p : Role) :
    ((s.after aes ops).oram p).Uncopied := by
  induction ops generalizing s with
  | nil => exact h p
  | cons op ops ih => exact ih fun q => uncopied_step h op q

/-! Copies. -/

/-- `loc` has the blinded copies of `other`. -/
def Locoram.CopyOf (loc other : Locoram τ nitems) : Prop :=
  ∀ j : Fin nitems, loc.peerBlinded.get j = other.secretShare.get j ^^^ other.blind.get j ∧
    loc.sbvPeerBlinded.get j = other.sbvSecretShare.get j ^^^ other.sbvBlind.get j

/-- P0 and P1 have each other's blinded copies. -/
def System.Copies (s : System τ nitems) : Prop :=
  (s.oram .P0).CopyOf (s.oram .P1) ∧ (s.oram .P1).CopyOf (s.oram .P0)

/-- A share vector that P0 or P1 loads is its blind at that moment. -/
def OramOp.LoadsBlind (s : System τ nitems) : OramOp τ nitems → Prop
  | .setShare party share => party = .P2 ∨ share = (s.oram party).blind
  | _ => True

theorem copyOf_iff {loc other : Locoram τ nitems} (h : loc.Uncopied) (h' : other.Uncopied) :
    loc.CopyOf other ↔ other.secretShare = other.blind := by
  have hzero : ∀ j : Fin nitems, (Vector.replicate nitems (0 : Leaf τ)).get j = 0 := fun j =>
    Vector.getElem_replicate j.isLt
  constructor
  · intro hc
    apply Vector.ext
    intro i hi
    have hi' := (hc ⟨i, hi⟩).1
    rw [h.peer, hzero] at hi'
    exact BitVec.xor_eq_zero_iff.mp hi'.symm
  · intro heq j
    rw [h.peer, h.sbvPeer, hzero, heq, h'.sbv, BitVec.xor_self, BitVec.xor_self]
    exact ⟨rfl, rfl⟩

theorem copies_iff {s : System τ nitems} (h : ∀ p, (s.oram p).Uncopied) :
    s.Copies ↔ (s.oram .P1).secretShare = (s.oram .P1).blind ∧
      (s.oram .P0).secretShare = (s.oram .P0).blind :=
  and_congr (copyOf_iff (h .P0) (h .P1)) (copyOf_iff (h .P1) (h .P0))

/-- From right copies an operation leads to right copies unless it loads a share that is not the
    blind. -/
theorem step_copies {aes : AesKey → Block → Block} {s : System τ nitems}
    (h : ∀ p, (s.oram p).Uncopied) (hc : s.Copies) (op : OramOp τ nitems) :
    (op.step aes s).2.Copies ↔ op.LoadsBlind s := by
  rw [copies_iff (uncopied_step h op)]
  obtain ⟨h1, h0⟩ := (copies_iff h).mp hc
  cases op with
  | setShare party share =>
    cases party with
    | P0 => exact ⟨fun hs => .inr hs.2, fun hl => ⟨h1, hl.resolve_left (by decide)⟩⟩
    | P1 => exact ⟨fun hs => .inr hs.1, fun hl => ⟨hl.resolve_left (by decide), h0⟩⟩
    | P2 => exact ⟨fun _ => .inl rfl, fun _ => ⟨h1, h0⟩⟩
  | update alpha targetValue idx index value order =>
    exact ⟨fun _ => trivial, fun _ => ⟨step_blinded rfl h1, step_blinded rfl h0⟩⟩
  | readAShare rho index order =>
    exact ⟨fun _ => trivial, fun _ => ⟨step_blinded rfl h1, step_blinded rfl h0⟩⟩
  | readXShare rho index order =>
    exact ⟨fun _ => trivial, fun _ => ⟨step_blinded rfl h1, step_blinded rfl h0⟩⟩

end

/-- The blinded copies are right throughout a run exactly when every share vector it loads is the
    party's blind at that moment. -/
theorem copies_throughout_iff (aes : AesKey → Block → Block) {nitems : Nat} (spare : Nat)
    (h8 : 8 ≤ nitems) (heven : nitems % 2 = 0) (h64 : nitems < 2^64) (env : Role → Env)
    (ops : List (OramOp .uint64 nitems)) (hreads : ReadsAfterUpdate false ops) :
    let s := System.make .uint64 nitems env
    let state := fun k => s.after aes (ops.take k)
    (∀ k, s.Ends aes spare (ops.take k)) ∧
    ((∀ k, k ≤ ops.length → (state k).Copies) ↔
      ∀ k (hk : k < ops.length), ops[k].LoadsBlind (state k)) := by
  intro s state
  have hnew : ∀ p, (s.oram p).Uncopied := fun p => Locoram.Uncopied.make
  refine ⟨fun k => make_ends (sized_even h8 heven h64 spare) env (hreads.take k), ?_⟩
  apply Loop.throughout_iff
  · exact (copies_iff hnew).mpr ⟨rfl, rfl⟩
  · intro k hk hc
    simp only [state, s.after_take_succ aes hk]
    exact step_copies (uncopied_after hnew _) hc ops[k]

theorem copies_throughout_update :
    let ops : List (OramOp .uint64 8) :=
      [.update 2 100 (fun _ => 0) (fun _ => 0) (tri 0 100 0) [], .readAShare 2 (fun _ => 0) []]
    ∀ k, k ≤ ops.length →
      ((System.make .uint64 8 fun _ => Env.zeros).after (fun _ b => b) (ops.take k)).Copies := by
  intro ops
  apply (copies_throughout_iff (fun _ b => b) 0 (by decide) (by decide) (by decide)
    (fun _ => Env.zeros) ops trivial).2.mpr
  intro k hk
  match k, hk with
  | 0, _ => trivial
  | 1, _ => trivial

/-- After loading ones into P0's new ORAM the copy at P1 is wrong. -/
theorem load_breaks_copies :
    let ops : List (OramOp .uint64 8) := [.setShare .P0 (.replicate 8 1)]
    let s := System.make .uint64 8 fun _ => Env.zeros
    ReadsAfterUpdate false ops ∧ s.Ends (fun _ b => b) 0 ops ∧ ¬ (s.after (fun _ b => b) ops).Copies := by
  refine ⟨trivial, make_ends (sized_even (by decide) (by decide) (by decide) 0) _ trivial, ?_⟩
  intro h
  exact absurd (h.2 0).1 (by decide)

end Mpc
