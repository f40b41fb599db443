import Mpc.Circuit
import Mpc.Lib.Balance

/- Multiplications of narrow types (mpcops.hpp, network.hpp). mpc_mul sends the sums
   `x_i + X` and `y_i + Y` as the type they have, which integral promotion makes an int for
   types narrower than one, and the peer receives objects of the type itself. For types of at
   least four bytes any number of multiplications ends with empty streams, every value
   received is the peer's masked share and the results add up to the products; for a
   narrower one the bytes that are sent and the bytes that are read differ from the first
   call on (`muls_exact_iff`). -/
namespace Mpc
open Fifo LE

section
variable {w : Nat}

/-! Consecutive multiplications. -/

/-- A multiplication: its operands at each party from that party's results so far. -/
abbrev MulCall (w : Nat) := Role → List (BitVec w) → BitVec w × BitVec w

/-- The first factor's share at each party. -/
def MulCall.x (c : MulCall w) (done : Role → List (BitVec w)) (p : Role) : AShare w :=
  ⟨(c p (done p)).1, true⟩

/-- The second factor's share at each party. -/
def MulCall.y (c : MulCall w) (done : Role → List (BitVec w)) (p : Role) : AShare w :=
  ⟨(c p (done p)).2, true⟩

/-- Party `p` calls mpc_mul for every call of `prog` behind the results `done`. -/
def muls (p : Role) : List (MulCall w) → List (BitVec w) → Party Host (List (BitVec w))
  | [], done => return done
  | c :: prog, done => do
    let z ← mpcMul ⟨(c p done).1, true⟩ ⟨(c p done).2, true⟩ p (selfOf p) (peer0Of p) (peer1Of p)
    muls p prog (done ++ [z])

/-- What the calls of `prog` are for, behind the results `done` and with P2's randomness from
    `e` on: each call's results at P0 and P1 add up to the product of what its operands
    reconstruct to, and each party received its material from P2 and its peer's masked shares. -/
inductive MulsExact : List (MulCall w) → (Role → List (BitVec w)) → Env → (Role → List (BitVec w)) →
    (Role → List (Role × List Byte)) → Prop
  | nil (r : Role → List (BitVec w)) (e : Env) : MulsExact [] r e r (fun _ => [])
  | cons {c : MulCall w} {prog : List (MulCall w)} {done r : Role → List (BitVec w)}
    {v : Role → List (Role × List Byte)} {e : Env} (z : Role → BitVec w) :
    z .P0 + z .P1 = ((c.x done .P0).val + (c.x done .P1).val) * ((c.y done .P0).val + (c.y done .P1).val) →
    MulsExact prog (fun p => done p ++ [z p]) (e.skips w 4) r v →
    MulsExact (c :: prog) done e r fun p => mulViews (c.x done) (c.y done) e p ++ v p

/-- The three parties' calls come to an end with nothing left on any stream, and are exact. -/
def ExactRun (prog : List (MulCall w)) (e : Role → Env) : Prop :=
  ∃ (r : Role → List (BitVec w)) (s : Role → Host) (v : Role → List (Role × List Byte)),
    PartyRun (fun p => muls p prog []) (fun p => Host.online p (e p)) r s v ∧
    MulsExact prog (fun _ => []) (e .P2) r v

theorem muls_run (hw : 32 ≤ w) (prog : List (MulCall w)) (done : Role → List (BitVec w)) (e : Role → Env) :
    ∃ (r : Role → List (BitVec w)) (s : Role → Host) (v : Role → List (Role × List Byte)),
      PartyRun (fun p => muls p prog (done p)) (fun p => Host.online p (e p)) r s v ∧
      MulsExact prog done (e .P2) r v := by
  induction prog generalizing done e with
  | nil => exact ⟨done, _, _, PartyRun.pure done _, .nil done (e .P2)⟩
  | cons c prog ih =>
    obtain ⟨r, s, v, hrun, hexact⟩ := ih (fun p => done p ++ [mulResult (c.x done) (c.y done) (e .P2) p])
      (afterGate e w)
    refine ⟨r, s, fun p => mulViews (c.x done) (c.y done) (e .P2) p ++ v p, ?_, ?_⟩
    · exact (mpcMul_run (x := c.x done) (y := c.y done) (fun _ => rfl) hw e).bind hrun
    · exact .cons (mulResult (c.x done) (c.y done) (e .P2)) (mulResult_add (e .P2)) hexact

/-! What one multiplication moves. -/

/-- The size of the object that `x_i + X` is. -/
def sumSize (w : Nat) : Nat := if w < 32 then 4 else sizeBytes w

theorem sumBytes_length (a b : BitVec w) : (sumBytes a b).length = sumSize w := by
  rw [sumBytes, sumSize]
  split
  · exact enc_length _
  · exact enc_length _

/-- The coroutine returned a value and left the party as it was. -/
def Kept {α : Type} (h : Host) (r : Except Err α × Host) : Prop := ∃ z, r = (.ok z, h)

section
variable {x y : AShare w} (hx : x.ctx = true) (e : Env)
include hx

theorem mpcMul_P0_wire : (mpcMul x y .P0 .P2 (some .P1) none).run (Host.online .P0 e) =
    recvMaterial w fun m => .send .P1 (sumBytes x.val m.X) (.send .P1 (sumBytes y.val m.Y)
      (.recv .P1 (sizeBytes w) fun la => .recv .P1 (sizeBytes w) fun lb =>
        .ret (.ok (mulShare x.val y.val m (dec w la) (dec w lb)), Host.online .P0 e))) := by
  simp [mpcMul, hx, mulMaterial, recvMaterial, mulShare]

theorem mpcMul_P1_wire : (mpcMul x y .P1 .P2 (some .P0) none).run (Host.online .P1 e) =
    recvMaterial w fun m => .recv .P0 (sizeBytes w) fun la => .recv .P0 (sizeBytes w) fun lb =>
      .send .P0 (sumBytes x.val m.X) (.send .P0 (sumBytes y.val m.Y)
        (.ret (.ok (mulShare x.val y.val m (dec w la) (dec w lb)), Host.online .P1 e))) := by
  simp [mpcMul, hx, mulMaterial, recvMaterial, mulShare]

/-- P0 sends P1 two sums and takes two objects of the type. -/
theorem mpcMul_P0_moves : ((mpcMul x y .P0 .P2 (some .P1) none).run (Host.online .P0 e)).Moves .P1
    (Kept (Host.online .P0 e)) (sumSize w + (sumSize w + 0)) (sizeBytes w + (sizeBytes w + 0)) := by
  rw [mpcMul_P0_wire hx, recvMaterial]
  -- the material does not come from P1
  refine .recvOther (by decide) fun lX _ => .recvOther (by decide) fun lY _ =>
    .recvOther (by decide) fun lg _ => ?_
  apply Proc.Moves.send_of (sumBytes_length _ _)
  apply Proc.Moves.send_of (sumBytes_length _ _)
  exact .recv fun la _ => .recv fun lb _ => .ret ⟨_, rfl⟩

/-- P1 takes two objects of the type from P0 and sends it two sums. -/
theorem mpcMul_P1_moves : ((mpcMul x y .P1 .P2 (some .P0) none).run (Host.online .P1 e)).Moves .P0
    (Kept (Host.online .P1 e)) (sumSize w + (sumSize w + 0)) (sizeBytes w + (sizeBytes w + 0)) := by
  rw [mpcMul_P1_wire hx, recvMaterial]
  refine .recvOther (by decide) fun lX _ => .recvOther (by decide) fun lY _ =>
    .recvOther (by decide) fun lg _ => .recv fun la _ => .recv fun lb _ => ?_
  apply Proc.Moves.send_of (sumBytes_length _ _)
  apply Proc.Moves.send_of (sumBytes_length _ _)
  exact .ret ⟨_, rfl⟩

end

/-- So for any number of multiplications. -/
theorem muls_moves {p q : Role} (hpq : p = .P0 ∧ q = .P1 ∨ p = .P1 ∧ q = .P0) (prog : List (MulCall w))
    (done : List (BitVec w)) (e : Env) : ((muls p prog done).run (Host.online p e)).Moves q
      (Kept (Host.online p e)) (prog.length * (2 * sumSize w)) (prog.length * (2 * sizeBytes w)) := by
  induction prog generalizing done with
  | nil =>
    rw [List.length_nil, Nat.zero_mul, Nat.zero_mul]
    exact .ret ⟨done, rfl⟩
  | cons c prog ih =>
    have hcall : ((mpcMul ⟨(c p done).1, true⟩ ⟨(c p done).2, true⟩ p (selfOf p) (peer0Of p) (peer1Of p)).run
        (Host.online p e)).Moves q (Kept (Host.online p e)) (2 * sumSize w) (2 * sizeBytes w) := by
      rw [Nat.two_mul, Nat.two_mul]
      obtain ⟨rfl, rfl⟩ | ⟨rfl, rfl⟩ := hpq
      · exact mpcMul_P0_moves rfl e
      · exact mpcMul_P1_moves rfl e
    have hlen : ∀ n, (c :: prog).length * n = n + prog.length * n := by
      intro n
      rw [List.length_cons, Nat.succ_mul, Nat.add_comm]
    rw [hlen, hlen, muls, Party.bind_run]
    apply hcall.bind
    intro r hr
    obtain ⟨z, rfl⟩ := hr
    exact ih _

end

/-- Consecutive multiplications of a type of `b` bytes are exact if and only if there are
    none, or the type is not narrower than an int. -/
theorem muls_exact_iff {b : Nat} (prog : List (MulCall (8 * b))) (e : Role → Env) :
    ExactRun prog e ↔ prog = [] ∨ 4 ≤ b := by
  constructor
  · intro ⟨r, s, v, hrun, _⟩
    by_contra hno
    rw [not_or] at hno
    have hpos : 0 < prog.length := List.length_pos_iff.mpr hno.1
    have hmoves : prog.length * (2 * sumSize (8 * b)) = prog.length * (2 * sizeBytes (8 * b)) :=
      Run.balanced (by decide) hrun (muls_moves (.inl ⟨rfl, rfl⟩) prog [] (e .P0))
        (muls_moves (.inr ⟨rfl, rfl⟩) prog [] (e .P1))
    have hsize := Nat.eq_of_mul_eq_mul_left hpos hmoves
    rw [sumSize, if_pos (by omega), sizeBytes] at hsize
    omega
  · intro h
    obtain rfl | hb := h
    · exact ⟨fun _ => [], _, _, PartyRun.pure _ _, .nil _ _⟩
    · exact muls_run (by omega) prog (fun _ => []) e

/-- One multiplication of bytes. -/
theorem mul_of_bytes : ¬ ExactRun [fun _ _ => ((3 : BitVec 8), 5)] (fun _ => Env.zeros) := by
  intro ⟨r, s, v, hrun, _⟩
  have hmoves := Run.balanced (by decide) hrun (muls_moves (.inl ⟨rfl, rfl⟩) _ [] Env.zeros)
    (muls_moves (.inr ⟨rfl, rfl⟩) _ [] Env.zeros)
  exact absurd hmoves (by decide)

end Mpc
