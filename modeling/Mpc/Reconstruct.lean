import Mpc.Gates

/- Sharing and opening (shares.hpp). `reconstruct_remote` sends a party's share and
   then waits for the other's, at P0 and at P1 alike; P2 takes no part. The values
   cross on the two streams, so every schedule opens the secret at both parties
   (`openWords_run`), and vectors open when they have one length and otherwise make
   both parties throw (`reconstructRemoteVector_settles`). -/
namespace Mpc
open Fifo Diamond LE

/-! Shares of a secret. -/

section
variable {w : Nat}

/-- `share_secret_additive`; `random` is what random_u64 returns. -/
def shareSecretAdditive (random : BitVec 64) (secret : BitVec w) : AShare w × AShare w :=
  let s0 := random.setWidth w
  let s1 := secret - s0
  (⟨s0, false⟩, ⟨s1, false⟩)

/-- `share_secret_xor`. -/
def shareSecretXor (random : BitVec 64) (secret : BitVec w) : XShare w × XShare w :=
  let s0 := random.setWidth w
  let s1 := s0 ^^^ secret
  (⟨s0, false⟩, ⟨s1, false⟩)

theorem shareSecretAdditive_add (random : BitVec 64) (secret : BitVec w) :
    (shareSecretAdditive random secret).1.val + (shareSecretAdditive random secret).2.val = secret :=
  add_sub_cancel _ _

theorem shareSecretXor_xor (random : BitVec 64) (secret : BitVec w) :
    (shareSecretXor random secret).1.val ^^^ (shareSecretXor random secret).2.val = secret := by
  show random.setWidth w ^^^ (random.setWidth w ^^^ secret) = secret
  rw [← BitVec.xor_assoc, BitVec.xor_self, BitVec.zero_xor]

/-! Vectors of shares. -/

structure XorShareVector (w : Nat) where
  vals : List (BitVec w)

/-- `operator^`. -/
def XorShareVector.xor (a o : XorShareVector w) : Except Err (XorShareVector w) :=
  if a.vals.length ≠ o.vals.length then .error (.runtimeError "XorShareVector size mismatch")
  else .ok ⟨List.zipWith (· ^^^ ·) a.vals o.vals⟩

end

namespace AdditiveShareVector

/-- The loop that both operators of `AdditiveShareVector` run behind their size check. -/
def elementwise (f : BitVec 64 → BitVec 64 → BitVec 64) (a o : AdditiveShareVector) :
    Except Err AdditiveShareVector :=
  if a.vals.length ≠ o.vals.length then .error (.runtimeError "AdditiveShareVector size mismatch")
  else .ok ⟨List.zipWith f a.vals o.vals, a.ctx⟩

/-- `operator+`. -/
def add (a o : AdditiveShareVector) : Except Err AdditiveShareVector := elementwise (· + ·) a o

/-- `operator-`. -/
def sub (a o : AdditiveShareVector) : Except Err AdditiveShareVector := elementwise (· - ·) a o

end AdditiveShareVector

/-! reconstruct_remote. -/

section
variable {σ : Type} {w : Nat}

/-- `reconstruct_remote` of an additive share. -/
def AShare.reconstructRemote (peer : NetPeer) (myShare : AShare w) : Party σ (BitVec w) := do
  NetPeer.send peer myShare.val
  let other ← NetPeer.recv peer w
  return myShare.val + other

/-- `reconstruct_remote` of an XOR share. -/
def XShare.reconstructRemote (peer : NetPeer) (myShare : XShare w) : Party σ (BitVec w) := do
  NetPeer.send peer myShare.val
  let other ← NetPeer.recv peer w
  return myShare.val ^^^ other

def reconstructRemoteVector (peer : NetPeer) (myShare : XorShareVector w) :
    Party σ (List (BitVec w)) := do
  NetPeer.sendVector peer myShare.vals
  let other ← NetPeer.recvVector peer w
  if other.length ≠ myShare.vals.length then
    Party.throw (.runtimeError "reconstruct_remote_vector: size mismatch")
  return List.zipWith (· ^^^ ·) myShare.vals other

/-- An opening `x` with the peer, which is P0's and P1's only; P2 has nothing to open. -/
def opening {α : Type} (p : Role) (x : NetPeer → Party σ α) : Party σ (Option α) :=
  match p with
  | .P0 => some <$> x .P1
  | .P1 => some <$> x .P0
  | .P2 => return none

end

/-! Openings on the network. -/

section
variable {w : Nat} {α β σ : Type}

/-- P0 and P1 each send a word and take the other's. -/
theorem words_cross (x : Role → BitVec w) (k : Role → BitVec w → β) (r2 : β) :
    Run (tri (.send .P1 (enc (x .P0)) (.recv .P1 (sizeBytes w) fun l => .ret (k .P0 (dec w l))))
        (.send .P0 (enc (x .P1)) (.recv .P0 (sizeBytes w) fun l => .ret (k .P1 (dec w l)))) (.ret r2))
      (tri (k .P0 (x .P1)) (k .P1 (x .P0)) r2)
      (tri [(.P1, enc (x .P1))] [(.P0, enc (x .P0))] []) := by
  refine Run.of_queued ?_
  refine Queued.send .P0 rfl ?_
  refine Queued.send .P1 rfl ?_
  refine Queued.recv .P0 rfl rfl (enc_length _) ?_
  refine Queued.recv .P1 rfl rfl (enc_length _) ?_
  refine Queued.done ?_ ?_ ?_
  · intro p
    cases p <;> simp
  · intro p q
    cases p <;> cases q <;> rfl
  · intro p
    cases p <;> rfl

/-- P0 and P1 each send a vector and take the other's. -/
theorem vectors_cross (x : Role → List (BitVec w)) (hx : ∀ p, (x p).length < 2^64)
    (k : Role → List (BitVec w) → β) (r2 : β) :
    Run (tri (.sends ((NetPeer.vecFrames (x .P0)).map (.P1, ·))
          (NetPeer.recvVec .P1 w fun vec => .ret (k .P0 vec)))
        (.sends ((NetPeer.vecFrames (x .P1)).map (.P0, ·))
          (NetPeer.recvVec .P0 w fun vec => .ret (k .P1 vec))) (.ret r2))
      (tri (k .P0 (x .P1)) (k .P1 (x .P0)) r2)
      (tri ((NetPeer.vecFrames (x .P1)).map (.P1, ·)) ((NetPeer.vecFrames (x .P0)).map (.P0, ·)) []) := by
  have hq : Queued (tri (NetPeer.recvVec .P1 w fun vec => .ret (k .P0 vec))
        (NetPeer.recvVec .P0 w fun vec => .ret (k .P1 vec)) (.ret r2))
      (tri (tri [] (NetPeer.vecFrames (x .P0)) []) (tri (NetPeer.vecFrames (x .P1)) [] []) fun _ => [])
      (fun _ => []) (tri (k .P0 (x .P1)) (k .P1 (x .P0)) r2)
      (tri ((NetPeer.vecFrames (x .P1)).map (.P1, ·)) ((NetPeer.vecFrames (x .P0)).map (.P0, ·)) []) := by
    refine queued_recvVec (q := .P1) .P0 (hx .P1) rfl (List.append_nil _).symm ?_
    refine queued_recvVec (q := .P0) .P1 (hx .P0) rfl (List.append_nil _).symm ?_
    refine Queued.done ?_ ?_ ?_
    · intro p
      cases p <;> rfl
    · intro p q
      cases p <;> cases q <;> rfl
    · intro p
      cases p <;> rfl
  -- both vectors are on their streams before either party reads
  refine Run.of_queued (Queued.sends .P0 rfl (Queued.sends .P1 rfl (Queued.congr ?_ ?_ (fun _ => rfl) hq)))
  · intro p
    cases p <;> rfl
  · intro p q
    cases p
    · cases q
      · simp [filter_map_ne (show Role.P1 ≠ .P0 by decide)]
      · simp [filter_map_self]
      · simp [filter_map_ne (show Role.P1 ≠ .P2 by decide)]
    · cases q
      · simp [filter_map_self]
      · simp [filter_map_ne (show Role.P0 ≠ .P1 by decide)]
      · simp [filter_map_ne (show Role.P0 ≠ .P2 by decide)]
    · rfl

/-- What the parties hold after an opening. -/
def opened (r0 r1 : α) : Role → Option α := tri (some r0) (some r1) none

/-- Words opened by `f`, which combines a party's own with the other's. -/
theorem openWords_run {f : BitVec w → BitVec w → α} (x : Role → BitVec w)
    (reconstruct : Role → NetPeer → Party σ α)
    (hrec : ∀ p peer s, (reconstruct p peer).run s = .send peer (enc (x p))
      (.recv peer (sizeBytes w) fun l => .ret (.ok (f (x p) (dec w l)), s))) (s : Role → σ) :
    PartyRun (fun p => opening p (reconstruct p)) s (opened (f (x .P0) (x .P1)) (f (x .P1) (x .P0))) s
      (tri [(.P1, enc (x .P1))] [(.P0, enc (x .P0))] []) := by
  have h := words_cross x (fun p y => ((Except.ok (some (f (x p) y)) : Except Err (Option α)), s p))
    (.ok none, s .P2)
  rw [PartyRun]
  convert h using 1
  · funext p
    cases p
    · show ((reconstruct .P0 .P1).run (s .P0)).bind _ = _
      rw [hrec]
      rfl
    · show ((reconstruct .P1 .P0).run (s .P1)).bind _ = _
      rw [hrec]
      rfl
    · rfl
  · funext p
    cases p <;> rfl

/-- P0 and P1 open the sum of their shares. -/
theorem AShare.opening_run (x : Role → AShare w) (s : Role → σ) :
    PartyRun (fun p => opening p fun peer => (x p).reconstructRemote peer) s
      (opened ((x .P0).val + (x .P1).val) ((x .P0).val + (x .P1).val)) s
      (tri [(.P1, enc (x .P1).val)] [(.P0, enc (x .P0).val)] []) := by
  have h := openWords_run (f := (· + ·)) (fun p => (x p).val)
    (fun p peer => (x p).reconstructRemote peer) (fun _ _ _ => rfl) s
  rw [add_comm (x .P1).val] at h
  exact h

/-- P0 and P1 open the XOR of their shares. -/
theorem XShare.opening_run (x : Role → XShare w) (s : Role → σ) :
    PartyRun (fun p => opening p fun peer => (x p).reconstructRemote peer) s
      (opened ((x .P0).val ^^^ (x .P1).val) ((x .P0).val ^^^ (x .P1).val)) s
      (tri [(.P1, enc (x .P1).val)] [(.P0, enc (x .P0).val)] []) := by
  have h := openWords_run (f := (· ^^^ ·)) (fun p => (x p).val)
    (fun p peer => (x p).reconstructRemote peer) (fun _ _ _ => rfl) s
  rw [BitVec.xor_comm (x .P1).val] at h
  exact h

/-- What a party returns from the opening of a vector. -/
def openedVector (own other : List (BitVec w)) : Except Err (List (BitVec w)) :=
  if other.length ≠ own.length then .error (.runtimeError "reconstruct_remote_vector: size mismatch")
  else .ok (List.zipWith (· ^^^ ·) own other)

theorem reconstructRemoteVector_run (peer : NetPeer) (v : XorShareVector w) (hv : v.vals.length < 2^64)
    (s : σ) : (reconstructRemoteVector peer v).run s = .sends ((NetPeer.vecFrames v.vals).map (peer, ·))
      (NetPeer.recvVec peer w fun other => .ret (openedVector v.vals other, s)) := by
  rw [reconstructRemoteVector, Party.bind_run, NetPeer.sendVector_run peer _ hv, Proc.bind_sends,
    Proc.bind_ret, Party.andThen_ok, Party.bind_run, NetPeer.recvVector_run, NetPeer.recvVec_bind]
  congr 2
  funext other
  rw [Proc.bind_ret, Party.andThen_ok, openedVector]
  split <;> rfl

theorem openedVector_comm (a b : List (BitVec w)) : openedVector b a = openedVector a b := by
  have hxor : List.zipWith (· ^^^ ·) b a = List.zipWith (· ^^^ ·) a b := by
    rw [List.zipWith_comm]
    simp only [BitVec.xor_comm]
  rw [openedVector, openedVector, hxor]
  simp only [ne_comm]

/-- What both parties end with. -/
theorem reconstructRemoteVector_opening (v : Role → XorShareVector w)
    (hv : ∀ p, (v p).vals.length < 2^64) (s : Role → σ) :
    let result := (openedVector (v .P0).vals (v .P1).vals).map some
    ∃ views, Run (fun p => (opening p fun peer => reconstructRemoteVector peer (v p)).run (s p))
      (fun p => (tri result result (.ok none) p, s p)) views := by
  intro result
  have hopen : ∀ p peer : Role, (some <$> reconstructRemoteVector peer (v p)).run (s p) =
      .sends ((NetPeer.vecFrames (v p).vals).map (peer, ·))
        (NetPeer.recvVec peer w fun other => .ret ((openedVector (v p).vals other).map some, s p)) := by
    intro p peer
    show ((reconstructRemoteVector peer (v p)).run (s p)).bind _ = _
    rw [reconstructRemoteVector_run peer (v p) (hv p), Proc.bind_sends, NetPeer.recvVec_bind]
    congr 2
    funext other
    rw [Proc.bind_ret]
    cases openedVector (v p).vals other <;> rfl
  have hcross := vectors_cross (fun p => (v p).vals) hv
    (fun p other => ((openedVector (v p).vals other).map some, s p)) (.ok none, s .P2)
  have hstart : (fun p => (opening p fun peer => reconstructRemoteVector peer (v p)).run (s p)) = tri _ _ _ :=
    eq_tri (hopen .P0 .P1) (hopen .P1 .P0) rfl
  have hend : (fun p => (tri result result (.ok none) p, s p)) = tri _ _ _ := eq_tri rfl rfl rfl
  rw [openedVector_comm (v .P0).vals] at hcross
  rw [hstart, hend]
  exact ⟨_, hcross⟩

/-- Openings of XOR share vectors: every schedule ends with the XOR of the two vectors at P0 and
    at P1 when the vectors have one length, and with the same exception at both when they do not. -/
theorem reconstructRemoteVector_settles (v : Role → XorShareVector w)
    (hv : ∀ p, (v p).vals.length < 2^64) (s : Role → σ) :
    let result : Except Err (Option (List (BitVec w))) :=
      if (v .P0).vals.length = (v .P1).vals.length then
        .ok (some (List.zipWith (· ^^^ ·) (v .P0).vals (v .P1).vals))
      else .error (.runtimeError "reconstruct_remote_vector: size mismatch")
    ∃ views, Settles Step
      (start fun p => (opening p fun peer => reconstructRemoteVector peer (v p)).run (s p))
      (finished (fun p => (tri result result (.ok none) p, s p)) views) := by
  intro result
  have hresult : (openedVector (v .P0).vals (v .P1).vals).map some = result := by
    simp only [openedVector, result, ne_eq, ite_not, eq_comm (a := (v .P1).vals.length)]
    split <;> rfl
  obtain ⟨views, hrun⟩ := reconstructRemoteVector_opening v hv s
  rw [hresult] at hrun
  exact ⟨views, hrun.settles⟩

end

/-- Two elements at P0 and one at P1 make both throw. -/
theorem reconstructRemoteVector_settles_two_one :
    let v : Role → XorShareVector 64 := tri ⟨[1, 2]⟩ ⟨[3]⟩ ⟨[]⟩
    let mismatch : Except Err (Option (List (BitVec 64))) :=
      .error (.runtimeError "reconstruct_remote_vector: size mismatch")
    ∃ views, Settles Step
      (start fun p => (opening p fun peer => reconstructRemoteVector peer (v p)).run ())
      (finished (fun p => (tri mismatch mismatch (.ok none) p, ())) views) := by
  intro v mismatch
  have hv : ∀ p, (v p).vals.length < 2^64 := by
    intro p
    cases p <;> decide
  exact reconstructRemoteVector_settles v hv fun _ => ()

end Mpc
