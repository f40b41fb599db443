import Mpc.OrTree

/- The test for zero. P2 sends P0 and P1 additive and XOR shares of one mask; they
   open the masked sum `c` and hold XOR shares of the bits of `c ^ r`, of which the
   OR tree computes the disjunction. The tree ends with a sharing of the OR of its
   leaves (`orTree_run`), so the shared result is 0 when the sum is 0 and 1 otherwise
   (`eqz_run`): the opposite of what `==` promises. -/
namespace Mpc
open Fifo Diamond LE

/-! The disjunction of words. -/

theorem foldr_or_eq_zero {w : Nat} (l : List (BitVec w)) :
    l.foldr (· ||| ·) 0#w = 0#w ↔ ∀ x ∈ l, x = 0#w := by
  induction l with
  | nil => simp
  | cons x l ih => rw [List.foldr_cons, BitVec.or_eq_zero_iff, ih, List.forall_mem_cons]

/-! The opened sum. -/

/-- The first part of mpc_eqz: the masked sum is opened and the leaves are formed. -/
def eqzOpen (x : AShare 64) (role : Role) (self : NetPeer) (peerPtr secondPeer : Option NetPeer) :
    Party Host (List (XShare 64)) :=
  if role = .P2 then
    match peerPtr, secondPeer with
    | some p0, some p1 => do
      let r ← arc4randomBuf 8
      let r0AS ← arc4randomBuf 8
      let r0XS ← arc4randomBuf 8
      let r1AS := dec 64 r - dec 64 r0AS
      let r1XS := dec 64 r ^^^ dec 64 r0XS
      NetPeer.send p0 (dec 64 r0AS)
      NetPeer.send p1 r1AS
      NetPeer.send p0 (dec 64 r0XS)
      NetPeer.send p1 r1XS
      return List.replicate 64 ⟨0, x.ctx⟩
    | _, _ => return []
  else
    match peerPtr with
    | some peer => do
      let rAS ← NetPeer.recv self 64
      let rXS ← NetPeer.recv self 64
      let c := x.val + rAS
      NetPeer.send peer c
      let cRecv ← NetPeer.recv peer 64
      return (eqzLeaves role rXS (c + cRecv)).map fun tmp => ⟨tmp, x.ctx⟩
    | none => return []

/-- The last part: P0 and P1 return the root. -/
def eqzEnd (x : AShare 64) (role : Role) (level : List (XShare 64)) : Party Host (XShare 64) :=
  if role = .P2 then return ⟨0, x.ctx⟩ else Party.orUndefined level.head?

theorem mpcEqz_eq (x : AShare 64) (p : Role) :
    mpcEqz x p (selfOf p) (peer0Of p) (peer1Of p) =
      eqzOpen x p (selfOf p) (peer0Of p) (peer1Of p) >>= fun level =>
        orTree level >>= eqzEnd x p := by
  cases p with
  | P2 =>
    simp only [mpcEqz, eqzOpen, peer0Of, peer1Of, if_true, Party.bind_assoc, Party.pure_bind]
    rfl
  | P0 | P1 => rfl

/-- The masks: r, P0's and P1's additive shares of it, and their XOR shares. -/
structure EqzMask where
  r : BitVec 64
  rAS : Role → BitVec 64
  rXS : Role → BitVec 64

/-- The masks P2 sends, from its three draws. -/
def eqzMask (e : Env) : EqzMask where
  r := e.draw 64 0
  rAS := tri (e.draw 64 1) (e.draw 64 0 - e.draw 64 1) 0
  rXS := tri (e.draw 64 2) (e.draw 64 0 ^^^ e.draw 64 2) 0

/-- The sum P0 and P1 open. -/
def eqzSum (x : Role → AShare 64) (m : EqzMask) : BitVec 64 :=
  (x .P0).val + m.rAS .P0 + ((x .P1).val + m.rAS .P1)

/-- Leaf `i` of every party's tree. -/
def eqzLeaf (x : Role → AShare 64) (m : EqzMask) (i : Nat) : Role → XShare 64 :=
  tri ⟨bitOf (m.rXS .P0) i, true⟩ ⟨bitOf (eqzSum x m) i ^^^ bitOf (m.rXS .P1) i, true⟩ ⟨0, true⟩

/-- What the parties receive until the sum is open. -/
def eqzViews (x : Role → AShare 64) (m : EqzMask) : Role → List (Role × List Byte) :=
  let mask := fun p => [(Role.P2, enc (m.rAS p)), (.P2, enc (m.rXS p))]
  tri (mask .P0 ++ [(.P1, enc ((x .P1).val + m.rAS .P1))])
    (mask .P1 ++ [(.P0, enc ((x .P0).val + m.rAS .P0))]) []

/-- P0's and P1's part of the opening on the network. -/
def eqzPeer (x : BitVec 64) (role peer : Role) (h : Host) :
    Wire (Except Err (List (XShare 64)) × Host) :=
  .recv .P2 8 fun la => .recv .P2 8 fun lx =>
    .send peer (enc (x + dec 64 la)) (.recv peer 8 fun lc =>
      .ret (.ok ((eqzLeaves role (dec 64 lx) (x + dec 64 la + dec 64 lc)).map fun tmp => ⟨tmp, true⟩), h))

section
variable {x : AShare 64} (hx : x.ctx = true) (e : Env) (h : Host)
include hx

theorem eqzOpen_P0 : (eqzOpen x .P0 .P2 (some .P1) none).run h = eqzPeer x.val .P0 .P1 h := by
  simp only [eqzOpen, hx]
  rfl

theorem eqzOpen_P1 : (eqzOpen x .P1 .P2 (some .P0) none).run h = eqzPeer x.val .P1 .P0 h := by
  simp only [eqzOpen, hx]
  rfl

theorem eqzOpen_P2 : (eqzOpen x .P2 .P0 (some .P0) (some .P1)).run (Host.online .P2 e) =
    .sends [(.P0, enc ((eqzMask e).rAS .P0)), (.P1, enc ((eqzMask e).rAS .P1)),
      (.P0, enc ((eqzMask e).rXS .P0)), (.P1, enc ((eqzMask e).rXS .P1))]
      (.ret (.ok (List.replicate 64 ⟨0, true⟩), Host.online .P2 (e.skips 64 3))) := by
  simp only [eqzOpen, hx]
  rfl

end

theorem eqzOpen_run {x : Role → AShare 64} (hx : ∀ p, (x p).ctx = true) (e : Role → Env) :
    PartyRun (fun p => eqzOpen (x p) p (selfOf p) (peer0Of p) (peer1Of p))
      (fun p => Host.online p (e p))
      (fun p => ((List.range 64).map (eqzLeaf x (eqzMask (e .P2)))).map (· p))
      (fun p => Host.online p (tri (e .P0) (e .P1) ((e .P2).skips 64 3) p))
      (eqzViews x (eqzMask (e .P2))) := by
  apply PartyRun.of_queued (eqzOpen_P0 (hx _) _) (eqzOpen_P1 (hx _) _) (eqzOpen_P2 (hx _) _)
  generalize eqzMask (e .P2) = m
  refine Queued.sends .P2 rfl ?_
  refine Queued.recv .P0 rfl rfl (enc_length _) ?_
  refine Queued.recv .P0 rfl rfl (enc_length _) ?_
  refine Queued.recv .P1 rfl rfl (enc_length _) ?_
  refine Queued.recv .P1 rfl rfl (enc_length _) ?_
  -- the masked values cross; either party may send first
  refine Queued.send .P0 rfl ?_
  refine Queued.send .P1 rfl ?_
  refine Queued.recv .P0 rfl rfl (enc_length _) ?_
  refine Queued.recv .P1 rfl rfl (enc_length _) ?_
  refine Queued.done ?_ ?_ ?_
  · intro p
    cases p
    · simp [eqzLeaves, eqzLeaf]
    · simp [eqzLeaves, eqzLeaf, eqzSum, add_comm]
    · rfl
  · intro p q
    cases p <;> cases q <;> rfl
  · intro p
    cases p
    · simp [eqzViews]
    · simp [eqzViews]
    · rfl

/-! The result. -/

theorem bitOf_xor (x y : BitVec 64) (i : Nat) : bitOf (x ^^^ y) i = bitOf x i ^^^ bitOf y i := by
  rw [bitOf, BitVec.ushiftRight_xor_distrib, XorWord.xor_and]
  rfl

theorem bitOf_eq_zero {z : BitVec 64} : (∀ i ∈ List.range 64, bitOf z i = 0#64) ↔ z = 0#64 := by
  constructor
  · intro h
    apply BitVec.eq_of_getLsbD_eq
    intro i hi
    have h1 := congrArg (BitVec.getLsbD · 0) (h i (List.mem_range.mpr hi))
    simpa [bitOf] using h1
  · rintro rfl i _
    simp [bitOf]

theorem bitOf_eq_zero_or_one (z : BitVec 64) (i : Nat) : bitOf z i = 0#64 ∨ bitOf z i = 1#64 := by
  have h : bitOf z i = (BitVec.ofBool ((z >>> i).getLsbD 0)).setWidth 64 :=
    BitVec.and_one_eq_setWidth_ofBool_getLsbD
  rw [h]
  cases (z >>> i).getLsbD 0
  · exact .inl rfl
  · exact .inr rfl

theorem foldr_or_bits {l : List (BitVec 64)} (h : ∀ x ∈ l, x = 0#64 ∨ x = 1#64) :
    l.foldr (· ||| ·) 0#64 = 0#64 ∨ l.foldr (· ||| ·) 0#64 = 1#64 := by
  induction l with
  | nil => exact .inl rfl
  | cons x l ih =>
    rw [List.foldr_cons]
    rcases h x (List.mem_cons_self ..) with rfl | rfl <;>
      rcases ih (fun y hy => h y (List.mem_cons_of_mem _ hy)) with hl | hl <;> rw [hl] <;> decide

theorem foldr_or_bitOf (z : BitVec 64) :
    ((List.range 64).map (bitOf z)).foldr (· ||| ·) 0#64 = if z = 0 then 0 else 1 := by
  have hbits : ∀ x ∈ (List.range 64).map (bitOf z), x = 0#64 ∨ x = 1#64 := by
    intro x hx
    obtain ⟨i, _, rfl⟩ := List.mem_map.mp hx
    exact bitOf_eq_zero_or_one z i
  have hzero := (foldr_or_eq_zero ((List.range 64).map (bitOf z))).trans
    (List.forall_mem_map.trans bitOf_eq_zero)
  by_cases hz : z = 0
  · rw [if_pos hz]
    exact hzero.mpr hz
  · rw [if_neg hz]
    exact (foldr_or_bits hbits).resolve_left fun h => hz (hzero.mp h)

/-- The XOR of P0's and P1's results: 0 for a zero sum, 1 otherwise. -/
def eqzValue (x : Role → AShare 64) : BitVec 64 := if (x .P0).val + (x .P1).val = 0 then 0 else 1

theorem eqzLeaf_sharing (x : Role → AShare 64) (m : EqzMask)
    (hXS : m.rXS .P0 ^^^ m.rXS .P1 = m.r) (i : Nat) :
    XSharing (eqzLeaf x m i) (bitOf (eqzSum x m ^^^ m.r) i) := by
  refine ⟨?_, fun p => by cases p <;> rfl⟩
  show bitOf (m.rXS .P0) i ^^^ (bitOf (eqzSum x m) i ^^^ bitOf (m.rXS .P1) i) = _
  rw [← hXS, bitOf_xor, bitOf_xor]
  ac_rfl

theorem eqzSum_xor_eq_zero (x : Role → AShare 64) (m : EqzMask)
    (hAS : m.rAS .P0 + m.rAS .P1 = m.r) :
    eqzSum x m ^^^ m.r = 0 ↔ (x .P0).val + (x .P1).val = 0 := by
  have hsum : eqzSum x m = (x .P0).val + (x .P1).val + m.r := by
    rw [eqzSum, ← hAS]
    ring
  rw [hsum]
  constructor
  · intro h
    have h' := BitVec.xor_eq_zero_iff.mp h
    exact add_eq_right.mp h'
  · intro h
    rw [h, zero_add]
    exact BitVec.xor_self

/-- The parties end with a sharing of the result. -/
theorem eqz_sharing {x : Role → AShare 64} (hx : ∀ p, (x p).ctx = true) (e : Role → Env) :
    ∃ (u : Role → XShare 64) (e' : Role → Env) (views : Role → List (Role × List Byte)),
      PartyRun (fun p => (x p).eqz 0) (fun p => Host.online p (e p)) u
        (fun p => Host.online p (e' p)) views ∧ XSharing u (eqzValue x) := by
  have hAS : (eqzMask (e .P2)).rAS .P0 + (eqzMask (e .P2)).rAS .P1 = (eqzMask (e .P2)).r :=
    add_sub_cancel _ _
  have hXS : (eqzMask (e .P2)).rXS .P0 ^^^ (eqzMask (e .P2)).rXS .P1 = (eqzMask (e .P2)).r := by
    simp only [eqzMask, tri_P0, tri_P1]
    rw [BitVec.xor_comm, BitVec.xor_assoc, BitVec.xor_self, BitVec.xor_zero]
  have hopen := eqzOpen_run hx e
  -- only the mask's sums matter from here on
  revert hAS hXS hopen
  generalize eqzMask (e .P2) = m
  intro hAS hXS hopen
  have hleaves : List.Forall₂ XSharing ((List.range 64).map (eqzLeaf x m))
      ((List.range 64).map (bitOf (eqzSum x m ^^^ m.r))) := by
    rw [List.forall₂_map_left_iff, List.forall₂_map_right_iff, List.forall₂_same]
    intro i _
    exact eqzLeaf_sharing x m hXS i
  obtain ⟨u, e', views, htree, hu⟩ := orTree_run _ _ _ hleaves (by simp)
  -- P0 and P1 return the root of their trees, P2 zero
  have hend : PartyRun (fun p => eqzEnd (x p) p [u p]) (fun p => Host.online p (e' p))
      (tri (u .P0) (u .P1) ⟨0, true⟩) (fun p => Host.online p (e' p)) (fun _ => []) := by
    refine PartyRun.congr ?_ (local_run (tri (u .P0) (u .P1) ⟨0, true⟩) e')
    intro p
    cases p
    · rfl
    · rfl
    · simp only [eqzEnd, hx]
      rfl
  have hall := hopen.bind (f := fun p level => orTree level >>= eqzEnd (x p) p) (htree.bind hend)
  refine ⟨_, e', _, PartyRun.congr ?_ hall, ?_, ?_⟩
  · intro p
    rw [← mpcEqz_eq]
    simp [AShare.eqz, hx]
  · show (u .P0).val ^^^ (u .P1).val = eqzValue x
    rw [hu.1, foldr_or_bitOf, eqzValue]
    simp only [eqzSum_xor_eq_zero x m hAS]
  · intro p
    cases p
    · exact hu.2 .P0
    · exact hu.2 .P1
    · rfl

theorem eqz_run {x : Role → AShare 64} (hx : ∀ p, (x p).ctx = true) (e : Role → Env) :
    ∃ (u : Role → XShare 64) (hosts : Role → Host) (views : Role → List (Role × List Byte)),
      PartyRun (fun p => (x p).eqz 0) (fun p => Host.online p (e p)) u hosts views ∧
      (u .P0).val ^^^ (u .P1).val = eqzValue x := by
  obtain ⟨u, e', views, hrun, hu⟩ := eqz_sharing hx e
  exact ⟨u, _, views, hrun, hu.1⟩

/-- Whatever the schedule, the parties' results XOR to 0 for a zero sum and to 1
    otherwise, so never to what `==` is to return. -/
theorem eqz_inverted (x : Role → BitVec 64) (e : Role → Env) :
    ∃ (u : Role → XShare 64) (hosts : Role → Host) (views : Role → List (Role × List Byte)),
      Settles Step (start fun p => (AShare.eqz ⟨x p, true⟩ 0).run (Host.online p (e p)))
        (finished (fun p => (.ok (u p), hosts p)) views) ∧
      (u .P0).val ^^^ (u .P1).val = (if x .P0 + x .P1 = 0 then 0 else 1) ∧
      (u .P0).val ^^^ (u .P1).val ≠ if x .P0 + x .P1 = 0 then 1 else 0 := by
  obtain ⟨u, hosts, views, hrun, hu⟩ := eqz_run (x := fun p => ⟨x p, true⟩) (fun _ => rfl) e
  refine ⟨u, hosts, views, hrun.settles, hu, ?_⟩
  rw [hu, eqzValue]
  split <;> decide

/-- On shares 0 and 0 the test for zero does not answer 1. -/
theorem eqz_zero_shares :
    ¬ ∃ (u : Role → XShare 64) (hosts : Role → Host) (views : Role → List (Role × List Byte)),
      Settles Step (start fun p => (AShare.eqz ⟨0, true⟩ 0).run (Host.online p Env.zeros))
        (finished (fun p => (.ok (u p), hosts p)) views) ∧
      (u .P0).val ^^^ (u .P1).val = if (0 : BitVec 64) + 0 = 0 then 1 else 0 := by
  rintro ⟨u, hosts, views, ⟨n, hrun, _⟩, hu⟩
  obtain ⟨u', hosts', views', hrun', hu'⟩ :=
    eqz_run (x := fun _ => ⟨0, true⟩) (fun _ => rfl) fun _ => Env.zeros
  have he := (Run.unique ⟨n, hrun⟩ hrun').1
  have hsame : ∀ p, u p = u' p := by
    intro p
    have hp := congrFun he p
    simp only [Prod.mk.injEq, Except.ok.injEq] at hp
    exact hp.1
  rw [hsame, hsame, hu'] at hu
  exact absurd hu (by decide)

end Mpc
