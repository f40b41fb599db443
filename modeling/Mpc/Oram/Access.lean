import Mpc.Oram.Run
import Mpc.Outcome

/- The entry points of the ORAM that take a shared index (locoram.tpp): `operator[]` and
   `Locoram::update`. Each looks for the share's context, compares the party's own share
   with the number of items, and runs the operation on the `Ref` at that place
   (`Entry.call_accepted`). The index itself never occurs: whether a party goes on depends on
   the share it happens to hold (`access_accepted_iff`). -/
namespace Mpc
open Fifo

section
variable {τ : LeafT} {nitems : Nat}

/-- `operator[]` of a plain index. A `Ref` is an item in range. -/
def Locoram.operatorIndex (nitems : Nat) (idx : BitVec 64) : Except Err (Fin nitems) :=
  if h : nitems ≤ idx.toNat then
    .error (.runtimeError "Index out of bounds in Locoram::operator[]")
  else .ok ⟨idx.toNat, Nat.lt_of_not_le h⟩

variable (aes : AesKey → Block → Block) (spare : Nat)

/-- `operator[]` of an AShare index. -/
def Locoram.operatorAShare (order : List Bool) (rho : Nat) (sharedIndex : AShare 64) :
    Party (OramHost τ nitems) (Leaf τ) := do
  let _ ← contextOf sharedIndex.ctx "AShare index missing MPCContext in Locoram::operator[]"
  let localIdx := sharedIndex.val
  let _ ← Party.ofExcept (Locoram.operatorIndex nitems localIdx)
  Ref.readAShare aes spare order rho sharedIndex

/-- `operator[]` of an XShare index. -/
def Locoram.operatorXShare (order : List Bool) (rho : Nat) (sharedIndex : XShare 64) :
    Party (OramHost τ nitems) (Leaf τ) := do
  let _ ← contextOf sharedIndex.ctx "XShare index missing MPCContext in Locoram::operator[]"
  let localIdx := sharedIndex.val
  let _ ← Party.ofExcept (Locoram.operatorIndex nitems localIdx)
  Ref.readXShare aes spare order rho sharedIndex

/-- `Locoram::update`, in which P2 writes `targetValue` at `alpha`. -/
def Locoram.update (order : List Bool) (alpha : Nat) (targetValue : Leaf τ)
    (sharedIndex valueShare : XShare 64) : Party (OramHost τ nitems) Unit := do
  let _ ← contextOf sharedIndex.ctx "AShare index missing MPCContext in Locoram::update"
  let localIdx := sharedIndex.val
  if nitems ≤ localIdx.toNat then
    Party.throw (.runtimeError "Index out of bounds in Locoram::update")
  let ref ← Party.ofExcept (Locoram.operatorIndex nitems localIdx)
  let _ ← Ref.update aes spare order alpha targetValue ref sharedIndex valueShare
  return ()

/-! The three entry points together. -/

/-- An entry point, with what it gets beside the shared index and what P2 fixes in it. -/
inductive Entry (τ : LeafT) where
  | readAShare (order : List Bool) (rho : Nat)
  | readXShare (order : List Bool) (rho : Nat)
  | update (order : List Bool) (alpha : Nat) (targetValue : Leaf τ) (valueShare : XShare 64)

namespace Entry

/-- The entry point on a share. Updates return nothing. -/
def call (nitems : Nat) (share : BitVec 64) (ctx : Bool) :
    Entry τ → Party (OramHost τ nitems) (Option (Leaf τ))
  | .readAShare order rho => do
    return some (← Locoram.operatorAShare aes spare order rho ⟨share, ctx⟩)
  | .readXShare order rho => do
    return some (← Locoram.operatorXShare aes spare order rho ⟨share, ctx⟩)
  | .update order alpha targetValue valueShare => do
    Locoram.update aes spare order alpha targetValue ⟨share, ctx⟩ valueShare
    return none

/-- The operation of the `Ref` at `idx` that the entry point is for. -/
def op (idx : Fin nitems) (share : BitVec 64) (ctx : Bool) :
    Entry τ → Party (OramHost τ nitems) (Option (Leaf τ))
  | .readAShare order rho => do return some (← Ref.readAShare aes spare order rho ⟨share, ctx⟩)
  | .readXShare order rho => do return some (← Ref.readXShare aes spare order rho ⟨share, ctx⟩)
  | .update order alpha targetValue valueShare => do
    let _ ← Ref.update aes spare order alpha targetValue idx ⟨share, ctx⟩ valueShare
    return none

/-- What an entry point says of a share without a context. -/
def missing : Entry τ → String
  | .readAShare .. => "AShare index missing MPCContext in Locoram::operator[]"
  | .readXShare .. => "XShare index missing MPCContext in Locoram::operator[]"
  | .update .. => "AShare index missing MPCContext in Locoram::update"

/-- What an entry point says of an index it refuses. -/
def outOfBounds : Entry τ → String
  | .readAShare .. => "Index out of bounds in Locoram::operator[]"
  | .readXShare .. => "Index out of bounds in Locoram::operator[]"
  | .update .. => "Index out of bounds in Locoram::update"

end Entry

variable (s : OramHost τ nitems)

theorem operatorIndex_lt {idx : BitVec 64} (h : idx.toNat < nitems) :
    Locoram.operatorIndex nitems idx = .ok ⟨idx.toNat, h⟩ := dif_neg (by omega)

theorem operatorIndex_ge {idx : BitVec 64} (h : nitems ≤ idx.toNat) :
    Locoram.operatorIndex nitems idx =
      .error (.runtimeError "Index out of bounds in Locoram::operator[]") := dif_pos h

variable {aes spare s} in
theorem Entry.call_missing (c : Entry τ) (share : BitVec 64) :
    (c.call aes spare nitems share false).run s = .ret (.error (.runtimeError c.missing), s) := by
  cases c <;> rfl

variable {aes spare s} in
theorem Entry.call_refused (c : Entry τ) {share : BitVec 64} (h : nitems ≤ share.toNat) :
    (c.call aes spare nitems share true).run s = .ret (.error (.runtimeError c.outOfBounds), s) := by
  have hat := operatorIndex_ge h
  cases c with
  | readAShare order rho => simp only [call, Locoram.operatorAShare, hat]; rfl
  | readXShare order rho => simp only [call, Locoram.operatorXShare, hat]; rfl
  | update order alpha v valueShare => simp only [call, Locoram.update, if_pos h]; rfl

variable {aes spare s} in
theorem Entry.call_accepted (c : Entry τ) {share : BitVec 64} (h : share.toNat < nitems) :
    (c.call aes spare nitems share true).run s =
      (c.op aes spare ⟨share.toNat, h⟩ share true).run s := by
  have hat := operatorIndex_lt h
  cases c with
  | readAShare order rho => simp only [call, Locoram.operatorAShare, hat]; rfl
  | readXShare order rho => simp only [call, Locoram.operatorXShare, hat]; rfl
  | update order alpha v valueShare =>
    simp only [call, Locoram.update, hat, if_neg (Nat.not_le_of_lt h), Party.bind_assoc]
    rfl

end

/-! Which shares are accepted. -/

section
variable {σ α β : Type} {x : Party σ α} {f : α → Party σ β} {s s' : σ} {a : α} {peer : NetPeer}

/-- The coroutine waits for a buffer from `peer`. -/
def Awaits (x : Party σ α) (s : σ) (peer : NetPeer) : Prop :=
  ∃ k : List LE.Byte → Wire (Except Err α × σ), x.run s = NetPeer.recvVec peer 8 k

theorem Awaits.bind (h : Awaits x s peer) : Awaits (x >>= f) s peer := by
  obtain ⟨k, hk⟩ := h
  exact ⟨_, by rw [Party.bind_run, hk, NetPeer.recvVec_bind]⟩

theorem Awaits.after (h : x.run s = .ret (.ok a, s')) (h' : Awaits (f a) s' peer) :
    Awaits (x >>= f) s peer := by
  obtain ⟨k, hk⟩ := h'
  exact ⟨k, by rw [Party.bind_run, h, Proc.bind_ret, Party.andThen_ok, hk]⟩

theorem Awaits.ne_ret (h : Awaits x s peer) (r : Except Err α × σ) : x.run s ≠ .ret r := by
  obtain ⟨k, hk⟩ := h
  rw [hk, NetPeer.recvVec]
  intro h
  cases h

end

section
variable {τ : LeafT} {nitems : Nat} (aes : AesKey → Block → Block) (spare : Nat)
  {s : OramHost τ nitems}

theorem readWith_awaits {ctx : MPCContext} (hrole : ctx.role ≠ .P2)
    (term : Leaf τ → Locoram τ nitems → Option (Leaf τ)) (order : List Bool) (rho : Nat) :
    Awaits (Ref.readWith aes spare term order rho ctx) s ctx.self := by
  have hrecv : Awaits (recvEval aes .uint64 spare ctx.self nitems) s ctx.self :=
    ⟨_, recvEval_run aes nitems spare ctx.self s⟩
  rw [Ref.readWith_eq aes spare hrole]
  exact hrecv.bind

/-- An operation of P0 or P1 starts with a buffer from P2. -/
theorem Entry.op_awaits (hrole : s.host.ctx.role ≠ .P2) (c : Entry τ) (idx : Fin nitems)
    (share : BitVec 64) : Awaits (c.op aes spare idx share true) s s.host.ctx.self := by
  cases c with
  | readAShare order rho =>
    refine Awaits.bind ?_
    exact Awaits.after (contextOf_run _ _) (readWith_awaits aes spare hrole _ _ _)
  | readXShare order rho =>
    refine Awaits.bind ?_
    exact Awaits.after (contextOf_run _ _) (Awaits.after (modifyOram_run _ _) (readWith_awaits aes spare hrole _ _ _))
  | update order alpha v valueShare =>
    have hidx : s.oram.secretShare[idx.val]? = some (s.oram.secretShare.get idx) :=
      Vector.getElem?_eq_getElem idx.isLt
    refine Awaits.bind ?_
    unfold Ref.update
    refine Awaits.after (contextOf_run _ _) (Awaits.after (modifyOram_run _ _) ?_)
    refine Awaits.after (getOram_run _) (Awaits.after (orUndefined_run hidx _) ?_)
    have hrecv : Awaits (recvAndApply aes spare s.host.ctx.self)
        { s with oram := s.oram.noteUpdate ⟨share, true⟩ valueShare } s.host.ctx.self :=
      Awaits.bind ⟨_, NetPeer.recvVector_run s.host.ctx.self 8 _⟩
    cases hr : s.host.ctx.role with
    | P0 => exact hrecv.bind
    | P1 => exact hrecv.bind
    | P2 => exact absurd hr hrole

/-- The entry point passes its checks on `share`: it does what its operation does. -/
def Entry.Accepts (c : Entry τ) (share : BitVec 64) (s : OramHost τ nitems) : Prop :=
  ∃ idx : Fin nitems, (c.call aes spare nitems share true).run s = (c.op aes spare idx share true).run s

theorem Entry.accepts_iff (hrole : s.host.ctx.role ≠ .P2) (c : Entry τ) (share : BitVec 64) :
    c.Accepts aes spare share s ↔ share.toNat < nitems := by
  constructor
  · rintro ⟨idx, hrun⟩
    by_contra hge
    rw [c.call_refused (Nat.le_of_not_lt hge)] at hrun
    exact (c.op_awaits aes spare hrole idx share).ne_ret _ hrun.symm
  · intro h
    exact ⟨⟨share.toNat, h⟩, c.call_accepted h⟩

/-- Whether P0 and P1 go on with an operation depends on their shares as numbers: both pass
    their checks exactly if both shares are below the number of items. -/
theorem access_accepted_iff (c : Role → Entry τ) (s : Role → OramHost τ nitems)
    (hrole : ∀ p, (s p).host.ctx.role = p) (s0 s1 : BitVec 64) :
    (c .P0).Accepts aes spare s0 (s .P0) ∧ (c .P1).Accepts aes spare s1 (s .P1) ↔
      s0.toNat < nitems ∧ s1.toNat < nitems := by
  rw [(c .P0).accepts_iff aes spare (by rw [hrole]; decide),
    (c .P1).accepts_iff aes spare (by rw [hrole]; decide)]

/-- Index 8 of nine items as the XOR shares 1 and 9: P0 goes on and P1 refuses. -/
theorem access_shares_of_eight :
    let s : Role → OramHost .uint64 9 := (System.make .uint64 9 fun _ => Env.zeros).mem
    let c : Entry .uint64 := .readXShare [] 5
    (1 : BitVec 64) ^^^ 9 = 8 ∧ c.Accepts (fun _ _ => 0) 0 1 (s .P0) ∧
      (c.call (fun _ _ => 0) 0 9 9 true).run (s .P1) =
        .ret (.error (.runtimeError "Index out of bounds in Locoram::operator[]"), s .P1) ∧
      ¬ (c.Accepts (fun _ _ => 0) 0 1 (s .P0) ∧ c.Accepts (fun _ _ => 0) 0 9 (s .P1)) := by
  intro s c
  exact ⟨by decide, (c.accepts_iff _ _ (by decide) 1).mpr (by decide), c.call_refused (by decide),
    fun h => absurd ((c.accepts_iff _ _ (by decide) 9).mp h.2) (by decide)⟩

theorem access_accepted_one_nine :
    let s : Role → OramHost .uint64 9 := (System.make .uint64 9 fun _ => Env.zeros).mem
    (∀ p, (s p).host.ctx.role = p) ∧
    ¬ ((Entry.readXShare [] 5).Accepts (fun _ _ => 0) 0 1 (s .P0) ∧
      (Entry.readXShare [] 5).Accepts (fun _ _ => 0) 0 9 (s .P1)) := by
  intro s
  have hrole : ∀ p, (s p).host.ctx.role = p := fun _ => rfl
  refine ⟨hrole, fun h => ?_⟩
  exact absurd ((access_accepted_iff (fun _ _ => 0) 0 (fun _ => .readXShare [] 5) s hrole 1 9).mp h).2
    (by decide)

variable {aes spare} in
/-- Of fewer than 2^64 items every index has an XOR and an additive sharing that P0 refuses. -/
theorem every_index_refused (h64 : nitems < 2^64) (c : Entry τ) (hrole : s.host.ctx.role ≠ .P2)
    (i : BitVec 64) :
    ∃ s0 s1 s1', s0 ^^^ s1 = i ∧ s0 + s1' = i ∧ ¬ c.Accepts aes spare s0 s := by
  refine ⟨BitVec.allOnes 64, BitVec.allOnes 64 ^^^ i, i - BitVec.allOnes 64, ?_, ?_, ?_⟩
  · rw [← BitVec.xor_assoc, BitVec.xor_self, BitVec.zero_xor]
  · rw [BitVec.add_comm, BitVec.sub_add_cancel]
  · rw [c.accepts_iff aes spare hrole, BitVec.toNat_allOnes]
    omega

end

end Mpc
