import Mpc.Ops

/- Online runs of one multiplication or AND by the three parties. `mulDeal` and
   `andDeal` are the material P2's send list delivers to each party, read off its
   entropy; `mpcMul_run` and `mpcAnd_run` give the parties' results, the memories
   they leave and everything they receive. P2 never waits, so it may be anywhere
   ahead of the others: `Run.settles` turns each run into a statement about all
   schedules. -/
namespace Mpc
open Fifo LE

/-! P2's draws. -/

/-- The environment after `n` words of `w` bits. -/
def Env.skips (e : Env) (w : Nat) : Nat → Env
  | 0 => e
  | n+1 => (e.skips w n).skip w

/-- Word `n` of the environment's entropy. -/
def Env.draw (e : Env) (w n : Nat) : BitVec w := (e.skips w n).word w

/-- What a party holds for one gate. -/
structure Material (w : Nat) where
  X : BitVec w
  Y : BitVec w
  gamma : BitVec w

section
variable {w : Nat} {α β : Type}

/-- The material of a multiplication: P0 gets `X0` and `X1` as its masks, P1 `Y0` and `Y1`. -/
def mulDeal (e : Env) (w : Nat) : Role → Material w :=
  tri ⟨e.draw w 0, e.draw w 2, e.draw w 0 * e.draw w 3⟩
    ⟨e.draw w 1, e.draw w 3, e.draw w 2 * e.draw w 1⟩ ⟨0, 0, 0⟩

/-- The material of an AND: P0 gets `X0` and `Y0` as its masks, P1 `X1` and `Y1`. -/
def andDeal (e : Env) (w : Nat) : Role → Material w :=
  tri ⟨e.draw w 0, e.draw w 1, e.draw w 0 &&& e.draw w 3⟩
    ⟨e.draw w 2, e.draw w 3, e.draw w 2 &&& e.draw w 1⟩ ⟨0, 0, 0⟩

/-- The environments after a gate: only P2 draws. -/
def afterGate (e : Role → Env) (w : Nat) : Role → Env :=
  tri (e .P0) (e .P1) ((e .P2).skips w 4)

/-! The exchange both gates share. -/

/-- Material from P2, then `k`. -/
def recvMaterial (w : Nat) (k : Material w → Wire β) : Wire β :=
  .recv .P2 (sizeBytes w) fun lX => .recv .P2 (sizeBytes w) fun lY =>
  .recv .P2 (sizeBytes w) fun lg => k ⟨dec w lX, dec w lY, dec w lg⟩

/-- P0's side of the exchange: it sends its masked shares first. -/
def exchangeFirst (peer : Role) (m : BitVec w × BitVec w) (k : BitVec w → BitVec w → β) : Wire β :=
  .send peer (enc m.1) (.send peer (enc m.2) (.recv peer (sizeBytes w) fun la =>
    .recv peer (sizeBytes w) fun lb => .ret (k (dec w la) (dec w lb))))

/-- P1's side: it receives first. -/
def exchangeSecond (peer : Role) (m : BitVec w × BitVec w) (k : BitVec w → BitVec w → β) : Wire β :=
  .recv peer (sizeBytes w) fun la => .recv peer (sizeBytes w) fun lb =>
    .send peer (enc m.1) (.send peer (enc m.2) (.ret (k (dec w la) (dec w lb))))

/-- The messages that carry one party's material. -/
def Material.messages (d : Material w) : List (List Byte) := [enc d.X, enc d.Y, enc d.gamma]

/-- What a party sees of a gate: its material and the other's masked shares `m`. -/
def gateView (d : Material w) (peer : Role) (m : BitVec w × BitVec w) : List (Role × List Byte) :=
  [(.P2, enc d.X), (.P2, enc d.Y), (.P2, enc d.gamma), (peer, enc m.1), (peer, enc m.2)]

/-- The views of a gate in which party `p` masks its shares to `mask p`. -/
def gateViews (d : Role → Material w) (mask : Role → BitVec w × BitVec w) :
    Role → List (Role × List Byte) :=
  tri (gateView (d .P0) .P1 (mask .P1)) (gateView (d .P1) .P0 (mask .P0)) []

/-- What the parties return from a gate in which party `p` masks its shares to `mask p`
    and combines its material and what it received by `out p`. -/
def gateResult (d : Role → Material w) (mask : Role → BitVec w × BitVec w)
    (out : Role → Material w → BitVec w → BitVec w → α) (r2 : α) : Role → α :=
  tri (out .P0 (d .P0) (mask .P1).1 (mask .P1).2) (out .P1 (d .P1) (mask .P0).1 (mask .P0).2) r2

/-- The masked shares cross, nothing else being on the streams. -/
theorem queued_swap (mask : Role → BitVec w × BitVec w) (out : Role → BitVec w → BitVec w → β)
    (r2 : β) (v : Role → List (Role × List Byte)) :
    Queued
      (tri (exchangeFirst .P1 (mask .P0) (out .P0)) (exchangeSecond .P0 (mask .P1) (out .P1)) (.ret r2))
      (fun _ _ => []) v
      (tri (out .P0 (mask .P1).1 (mask .P1).2) (out .P1 (mask .P0).1 (mask .P0).2) r2)
      (tri (v .P0 ++ [(.P1, enc (mask .P1).1), (.P1, enc (mask .P1).2)])
        (v .P1 ++ [(.P0, enc (mask .P0).1), (.P0, enc (mask .P0).2)]) (v .P2)) := by
  -- P0 sends both of its masked shares before P1 sends any
  refine Queued.send .P0 rfl ?_
  refine Queued.send .P0 rfl ?_
  refine Queued.recv .P1 rfl rfl (enc_length _) ?_
  refine Queued.recv .P1 rfl rfl (enc_length _) ?_
  refine Queued.send .P1 rfl ?_
  refine Queued.send .P1 rfl ?_
  refine Queued.recv .P0 rfl rfl (enc_length _) ?_
  refine Queued.recv .P0 rfl rfl (enc_length _) ?_
  refine Queued.done ?_ ?_ ?_
  · intro p
    cases p <;> simp
  · intro p q
    cases p <;> cases q <;> rfl
  · intro p
    cases p <;> simp

theorem queued_exchange (d : Role → Material w) (mask : Role → Material w → BitVec w × BitVec w)
    (out : Role → Material w → BitVec w → BitVec w → α) (r2 : α) :
    Queued
      (tri (recvMaterial w fun m => exchangeFirst .P1 (mask .P0 m) (out .P0 m))
        (recvMaterial w fun m => exchangeSecond .P0 (mask .P1 m) (out .P1 m)) (.ret r2))
      (tri (fun _ => []) (fun _ => []) (tri (d .P0).messages (d .P1).messages []))
      (fun _ => []) (gateResult d (fun p => mask p (d p)) out r2)
      (gateViews d (fun p => mask p (d p))) := by
  refine Queued.recv .P0 rfl rfl (enc_length _) ?_
  refine Queued.recv .P0 rfl rfl (enc_length _) ?_
  refine Queued.recv .P0 rfl rfl (enc_length _) ?_
  refine Queued.recv .P1 rfl rfl (enc_length _) ?_
  refine Queued.recv .P1 rfl rfl (enc_length _) ?_
  refine Queued.recv .P1 rfl rfl (enc_length _) ?_
  -- P2's messages are read, and the streams are empty
  have h := queued_swap (fun p => mask p (d p)) (fun p => out p (d p)) r2
    (tri ((d .P0).messages.map (.P2, ·)) ((d .P1).messages.map (.P2, ·)) [])
  refine Queued.congr ?_ ?_ ?_ h
  · intro p
    cases p <;> simp
  · intro p q
    cases p <;> cases q <;> rfl
  · intro p
    cases p <;> rfl

/-- A gate on the network: P2 sends `ms`, which bring each party its material, and the parties
    exchange. -/
theorem gate_queued {ms : List (Role × List Byte)} (d : Role → Material w)
    (mask : Role → Material w → BitVec w × BitVec w)
    (out : Role → Material w → BitVec w → BitVec w → β) (r2 : β)
    (hm : ∀ q, (ms.filter (·.1 = q)).map (·.2) = tri (d .P0).messages (d .P1).messages [] q) :
    Queued
      (tri (recvMaterial w fun m => exchangeFirst .P1 (mask .P0 m) (out .P0 m))
        (recvMaterial w fun m => exchangeSecond .P0 (mask .P1 m) (out .P1 m)) (.sends ms (.ret r2)))
      (fun _ _ => []) (fun _ => []) (gateResult d (fun p => mask p (d p)) out r2)
      (gateViews d fun p => mask p (d p)) := by
  refine Queued.sends .P2 rfl ?_
  refine Queued.congr ?_ ?_ (fun _ => rfl) (queued_exchange d mask out r2)
  · intro p
    cases p <;> rfl
  · intro p q
    cases p
    · rfl
    · rfl
    · simpa using hm q

/-- A gate of three coroutines. -/
theorem gate_run {x : Role → Party Host α} {e : Role → Env} {e2 : Env} {r2 : α}
    {ms : List (Role × List Byte)} (d : Role → Material w)
    (mask : Role → Material w → BitVec w × BitVec w)
    (out : Role → Material w → BitVec w → BitVec w → α)
    (h0 : (x .P0).run (Host.online .P0 (e .P0)) = recvMaterial w fun m =>
      exchangeFirst .P1 (mask .P0 m) fun a b => (.ok (out .P0 m a b), Host.online .P0 (e .P0)))
    (h1 : (x .P1).run (Host.online .P1 (e .P1)) = recvMaterial w fun m =>
      exchangeSecond .P0 (mask .P1 m) fun a b => (.ok (out .P1 m a b), Host.online .P1 (e .P1)))
    (h2 : (x .P2).run (Host.online .P2 (e .P2)) = .sends ms (.ret (.ok r2, Host.online .P2 e2)))
    (hm : ∀ q, (ms.filter (·.1 = q)).map (·.2) =
      tri (d .P0).messages (d .P1).messages [] q) :
    PartyRun x (fun p => Host.online p (e p)) (gateResult d (fun p => mask p (d p)) out r2)
      (fun p => Host.online p (tri (e .P0) (e .P1) e2 p)) (gateViews d fun p => mask p (d p)) := by
  apply PartyRun.of_queued h0 h1 h2
  have h := gate_queued d mask
    (fun p m a b => ((.ok (out p m a b) : Except Err _), Host.online p (tri (e .P0) (e .P1) e2 p)))
    (Except.ok r2, Host.online .P2 e2) hm
  convert h using 1
  · funext p
    cases p <;> rfl
  · funext p
    cases p <;> rfl

/-! Multiplication. -/

/-- What P0 or P1 computes from its shares, its material and what it received. -/
def mulShare (x y : BitVec w) (m : Material w) (XTilde YTilde : BitVec w) : BitVec w :=
  x * (y + YTilde) - m.Y * XTilde + m.gamma

/-- The masked shares of a multiplication. -/
def mulMask (x y : BitVec w) (m : Material w) : BitVec w × BitVec w := (x + m.X, y + m.Y)

section
variable {x y : AShare w} (hx : x.ctx = true) (hw : 32 ≤ w) (e : Env)
include hx

theorem mpcMul_P2_online : (mpcMul x y .P2 .P0 (some .P0) (some .P1)).run (Host.online .P2 e) =
    .sends [(.P0, enc (mulDeal e w .P0).X), (.P1, enc (mulDeal e w .P1).X),
      (.P0, enc (mulDeal e w .P0).Y), (.P1, enc (mulDeal e w .P1).Y),
      (.P0, enc (mulDeal e w .P0).gamma), (.P1, enc (mulDeal e w .P1).gamma)]
      (.ret (.ok 0, Host.online .P2 (e.skips w 4))) := by
  simp [mpcMul, hx, mpcRandom_online, mulDeal, Env.draw, Env.skips]

include hw

theorem mpcMul_P0_online : (mpcMul x y .P0 .P2 (some .P1) none).run (Host.online .P0 e) =
    recvMaterial w fun m => exchangeFirst .P1 (mulMask x.val y.val m) fun a b =>
      (.ok (mulShare x.val y.val m a b), Host.online .P0 e) := by
  simp [mpcMul, hx, mulMaterial, sumBytes, Nat.not_lt.mpr hw, recvMaterial, exchangeFirst, mulMask,
    mulShare]

theorem mpcMul_P1_online : (mpcMul x y .P1 .P2 (some .P0) none).run (Host.online .P1 e) =
    recvMaterial w fun m => exchangeSecond .P0 (mulMask x.val y.val m) fun a b =>
      (.ok (mulShare x.val y.val m a b), Host.online .P1 e) := by
  simp [mpcMul, hx, mulMaterial, sumBytes, Nat.not_lt.mpr hw, recvMaterial, exchangeSecond,
    mulMask, mulShare]

end

/-- What the parties return from a multiplication of `x` and `y` with P2 in environment `e`. -/
def mulResult (x y : Role → AShare w) (e : Env) : Role → BitVec w :=
  gateResult (mulDeal e w) (fun p => mulMask (x p).val (y p).val (mulDeal e w p))
    (fun p => mulShare (x p).val (y p).val) 0

/-- What the parties receive in a multiplication. -/
def mulViews (x y : Role → AShare w) (e : Env) : Role → List (Role × List Byte) :=
  gateViews (mulDeal e w) fun p => mulMask (x p).val (y p).val (mulDeal e w p)

theorem mpcMul_run {x y : Role → AShare w} (hx : ∀ p, (x p).ctx = true) (hw : 32 ≤ w)
    (e : Role → Env) :
    PartyRun (fun p => mpcMul (x p) (y p) p (selfOf p) (peer0Of p) (peer1Of p))
      (fun p => Host.online p (e p)) (mulResult x y (e .P2))
      (fun p => Host.online p (afterGate e w p)) (mulViews x y (e .P2)) := by
  refine gate_run _ (fun p => mulMask (x p).val (y p).val) (fun p => mulShare (x p).val (y p).val)
    (mpcMul_P0_online (hx _) hw _) (mpcMul_P1_online (hx _) hw _) (mpcMul_P2_online (hx _) _) ?_
  intro q
  cases q <;> rfl

/-! AND. -/

/-- What P0 or P1 computes from its shares, its material and what it received. -/
def andShare (x y : BitVec w) (m : Material w) (aj bj : BitVec w) : BitVec w :=
  (x &&& (y ^^^ bj)) ^^^ (m.Y &&& aj) ^^^ m.gamma

/-- The masked shares of an AND. -/
def andMask (x y : BitVec w) (m : Material w) : BitVec w × BitVec w := (x ^^^ m.X, y ^^^ m.Y)

section
variable {x y : XShare w} (hx : x.ctx = true) (e : Env)
include hx

theorem mpcAnd_P2_online : (mpcAnd x y .P2 .P0 (some .P0) (some .P1)).run (Host.online .P2 e) =
    .sends [(.P0, enc (andDeal e w .P0).X), (.P0, enc (andDeal e w .P0).Y),
      (.P0, enc (andDeal e w .P0).gamma), (.P1, enc (andDeal e w .P1).X),
      (.P1, enc (andDeal e w .P1).Y), (.P1, enc (andDeal e w .P1).gamma)]
      (.ret (.ok 0, Host.online .P2 (e.skips w 4))) := by
  simp [mpcAnd, hx, mpcRandom_online, andDeal, Env.draw, Env.skips]

theorem mpcAnd_P0_online : (mpcAnd x y .P0 .P2 (some .P1) none).run (Host.online .P0 e) =
    recvMaterial w fun m => exchangeFirst .P1 (andMask x.val y.val m) fun a b =>
      (.ok (andShare x.val y.val m a b), Host.online .P0 e) := by
  simp [mpcAnd, hx, andMaterial, recvMaterial, exchangeFirst, andMask, andShare]

theorem mpcAnd_P1_online : (mpcAnd x y .P1 .P2 (some .P0) none).run (Host.online .P1 e) =
    recvMaterial w fun m => exchangeSecond .P0 (andMask x.val y.val m) fun a b =>
      (.ok (andShare x.val y.val m a b), Host.online .P1 e) := by
  simp [mpcAnd, hx, andMaterial, recvMaterial, exchangeSecond, andMask, andShare]

end

/-- What the parties return from an AND of `x` and `y` with P2 in environment `e`. -/
def andResult (x y : Role → XShare w) (e : Env) : Role → BitVec w :=
  gateResult (andDeal e w) (fun p => andMask (x p).val (y p).val (andDeal e w p))
    (fun p => andShare (x p).val (y p).val) 0

/-- What the parties receive in an AND. -/
def andViews (x y : Role → XShare w) (e : Env) : Role → List (Role × List Byte) :=
  gateViews (andDeal e w) fun p => andMask (x p).val (y p).val (andDeal e w p)

theorem mpcAnd_run {x y : Role → XShare w} (hx : ∀ p, (x p).ctx = true) (e : Role → Env) :
    PartyRun (fun p => mpcAnd (x p) (y p) p (selfOf p) (peer0Of p) (peer1Of p))
      (fun p => Host.online p (e p)) (andResult x y (e .P2))
      (fun p => Host.online p (afterGate e w p)) (andViews x y (e .P2)) := by
  refine gate_run _ (fun p => andMask (x p).val (y p).val) (fun p => andShare (x p).val (y p).val)
    (mpcAnd_P0_online (hx _) _) (mpcAnd_P1_online (hx _) _) (mpcAnd_P2_online (hx _) _) ?_
  intro q
  cases q <;> rfl

/-! The operators on shares. -/

theorem AShare.mul_run {x y : Role → AShare 64} (hx : ∀ p, (x p).ctx = true)
    (hy : ∀ p, (y p).ctx = true) (e : Role → Env) :
    PartyRun (fun p => (x p).mul (y p)) (fun p => Host.online p (e p))
      (fun p => ⟨mulResult x y (e .P2) p, true⟩) (fun p => Host.online p (afterGate e 64 p))
      (mulViews x y (e .P2)) := by
  have h := mpcMul_run (y := y) hx (by decide) e
  refine PartyRun.congr ?_ (h.map fun p r => (⟨r, true⟩ : AShare 64))
  intro p
  simp [AShare.mul, hx, hy]

theorem XShare.and_run {x y : Role → XShare w} (hx : ∀ p, (x p).ctx = true)
    (hy : ∀ p, (y p).ctx = true) (e : Role → Env) :
    PartyRun (fun p => (x p).and (y p)) (fun p => Host.online p (e p))
      (fun p => ⟨andResult x y (e .P2) p, true⟩) (fun p => Host.online p (afterGate e w p))
      (andViews x y (e .P2)) := by
  have h := mpcAnd_run (y := y) hx e
  refine PartyRun.congr ?_ (h.map fun p r => (⟨r, true⟩ : XShare w))
  intro p
  simp [XShare.and, hx, hy]

/-- What the parties return from an OR: `x ^ y ^ (x & y)` on their shares. -/
def orResult (x y : Role → XShare w) (e : Env) : Role → BitVec w :=
  fun p => (x p).val ^^^ (y p).val ^^^ andResult x y e p

theorem mpcOr_run {x y : Role → XShare w} (hx : ∀ p, (x p).ctx = true)
    (hy : ∀ p, (y p).ctx = true) (e : Role → Env) :
    PartyRun (fun p => mpcOr (x p) (y p)) (fun p => Host.online p (e p)) (orResult x y (e .P2))
      (fun p => Host.online p (afterGate e w p)) (andViews x y (e .P2)) :=
  (XShare.and_run hx hy e).map fun p a => (((x p).xor (y p)).xor a).val

theorem XShare.or_run {x y : Role → XShare w} (hx : ∀ p, (x p).ctx = true)
    (hy : ∀ p, (y p).ctx = true) (e : Role → Env) :
    PartyRun (fun p => (x p).or (y p)) (fun p => Host.online p (e p))
      (fun p => ⟨orResult x y (e .P2) p, true⟩) (fun p => Host.online p (afterGate e w p))
      (andViews x y (e .P2)) := by
  refine PartyRun.congr ?_ ((mpcOr_run hx hy e).map fun p r => (⟨r, true⟩ : XShare w))
  intro p
  simp [XShare.or, hx, hy]

end

/-! The dot product. -/

/-- What a party holds for one dot product. -/
structure DotMaterial where
  seedX : List Byte
  seedY : List Byte
  gamma : BitVec 64

/-- Seed `k` of P2's draws. -/
def Env.seed (e : Env) (len k : Nat) : List Byte := (e.entropy.after len k).take len

/-- The material of a dot product of length `n`, in the order P2 draws the seeds: X0, X1, Y0, Y1. -/
def dotDeal (ex : Expander) (n : Nat) (e : Env) : Role → DotMaterial :=
  let seed := e.seed ex.seedLen
  tri ⟨seed 0, seed 2, dot (ex.fill n (seed 0)) (ex.fill n (seed 3))⟩
    ⟨seed 1, seed 3, dot (ex.fill n (seed 1)) (ex.fill n (seed 2))⟩ ⟨[], [], 0⟩

/-- The environments after a dot product. -/
def afterDot (ex : Expander) (e : Role → Env) : Role → Env :=
  tri (e .P0) (e .P1) { e .P2 with entropy := (e .P2).entropy.after ex.seedLen 4 }

section
variable {β : Type} (ex : Expander) (n : Nat)

/-- The masked vectors of a dot product. -/
def dotMask (x y : List (BitVec 64)) (m : DotMaterial) : List (BitVec 64) × List (BitVec 64) :=
  (List.zipWith (· + ·) x (ex.fill n m.seedX), List.zipWith (· + ·) y (ex.fill n m.seedY))

/-- What P0 or P1 computes from its shares, its material and what it received. -/
def dotShare (x y : List (BitVec 64)) (m : DotMaterial) (XTilde YTilde : List (BitVec 64)) :
    BitVec 64 :=
  dot x (List.zipWith (· + ·) y YTilde) - dot (ex.fill n m.seedY) XTilde + m.gamma

def DotMaterial.messages (d : DotMaterial) : List (List Byte) := [d.seedX, d.seedY, enc d.gamma]

/-- What a party sees of a dot product: its material and the other's masked vectors `m`. -/
def dotView (d : DotMaterial) (peer : Role) (m : List (BitVec 64) × List (BitVec 64)) :
    List (Role × List Byte) :=
  d.messages.map (.P2, ·) ++ (NetPeer.vecFrames m.1 ++ NetPeer.vecFrames m.2).map (peer, ·)

/-- What the parties return from a dot product with P2 in environment `e`. -/
def dotResult (x y : Role → AdditiveShareVector) (e : Env) : Role → BitVec 64 :=
  let d := dotDeal ex n e
  let m := fun p => dotMask ex n (x p).vals (y p).vals (d p)
  tri (dotShare ex n (x .P0).vals (y .P0).vals (d .P0) (m .P1).1 (m .P1).2)
    (dotShare ex n (x .P1).vals (y .P1).vals (d .P1) (m .P0).1 (m .P0).2) 0

/-- What the parties receive in a dot product. -/
def dotViews (x y : Role → AdditiveShareVector) (e : Env) : Role → List (Role × List Byte) :=
  let d := dotDeal ex n e
  let m := fun p => dotMask ex n (x p).vals (y p).vals (d p)
  tri (dotView (d .P0) .P1 (m .P1)) (dotView (d .P1) .P0 (m .P0)) []

/-- The end of P0's and P1's coroutine, from the other's masked vectors. -/
def dotEnd (x y : List (BitVec 64)) (m : DotMaterial) (XTilde YTilde : List (BitVec 64)) :
    Party Host (BitVec 64) := do
  let yOpened ← Party.ofExcept (vecAdd y YTilde)
  let own ← Party.ofExcept (vecMul x yOpened)
  let cross ← Party.ofExcept (vecMul (ex.fill n m.seedY) XTilde)
  return own - cross + m.gamma

/-- Seeds from P2, both masked vectors to the other party and two vectors from it, then `K`. -/
def dotExchange (x y : List (BitVec 64)) (peer : Role)
    (K : DotMaterial → List (BitVec 64) → List (BitVec 64) → Wire β) : Wire β :=
  .recv .P2 ex.seedLen fun seedX => .recv .P2 ex.seedLen fun seedY => .recv .P2 8 fun lg =>
    let m : DotMaterial := ⟨seedX, seedY, dec 64 lg⟩
    .sends ((NetPeer.vecFrames (dotMask ex n x y m).1).map (peer, ·))
      (.sends ((NetPeer.vecFrames (dotMask ex n x y m).2).map (peer, ·))
        (NetPeer.recvVec peer 64 fun XTilde => NetPeer.recvVec peer 64 fun YTilde => K m XTilde YTilde))

/-- P0's and P1's side of a dot product on the network. -/
def dotPeer (x y : List (BitVec 64)) (peer : Role) (h : Host) : Wire (Except Err (BitVec 64) × Host) :=
  .recv .P2 ex.seedLen fun seedX => .recv .P2 ex.seedLen fun seedY => .recv .P2 8 fun lg =>
    let m : DotMaterial := ⟨seedX, seedY, dec 64 lg⟩
    .sends ((NetPeer.vecFrames (dotMask ex n x y m).1).map (peer, ·))
      (.sends ((NetPeer.vecFrames (dotMask ex n x y m).2).map (peer, ·))
        (NetPeer.recvVec peer 64 fun XTilde => NetPeer.recvVec peer 64 fun YTilde =>
          (dotEnd ex n x y m XTilde YTilde).run h))

end

section
variable {ex : Expander} {n : Nat} (hfill : ∀ l, (ex.fill n l).length = n)
include hfill

theorem vecMul_fill (a b : List Byte) :
    vecMul (ex.fill n a) (ex.fill n b) = .ok (dot (ex.fill n a) (ex.fill n b)) :=
  vecMul_ok ((hfill a).trans (hfill b).symm)

variable {x : List (BitVec 64)} (hx : x.length = n)
include hx

/-- A mask is as long as what it masks. -/
theorem vecAdd_fill (l : List Byte) : vecAdd x (ex.fill n l) = .ok (List.zipWith (· + ·) x (ex.fill n l)) :=
  vecAdd_ok (hx.trans (hfill l).symm)

theorem masked_length (l : List Byte) : (List.zipWith (· + ·) x (ex.fill n l)).length = n := by
  rw [List.length_zipWith, hx, hfill, Nat.min_self]

theorem masked_lt (hn : n < 2^64) (l : List Byte) :
    (List.zipWith (· + ·) x (ex.fill n l)).length < 2^64 :=
  (masked_length hfill hx l).trans_lt hn

end

section
variable {ex : Expander} {n : Nat} (hfill : ∀ l, (ex.fill n l).length = n) (e : Env)
  {x y : AdditiveShareVector} (hx : x.vals.length = n) (hy : y.vals.length = n)
include hfill hx hy

theorem mpcDotproduct_P2_online :
    (mpcDotproduct ex x y .P2 .P0 (some .P0) (some .P1)).run (Host.online .P2 e) =
      .sends ((dotDeal ex n e .P0).messages.map (.P0, ·) ++ (dotDeal ex n e .P1).messages.map (.P1, ·))
        (.ret (.ok 0, Host.online .P2 (afterDot ex (fun _ => e) .P2))) := by
  simp only [mpcDotproduct, hx, hy, vecMul_fill hfill, Party.ofExcept, Party.bind_run,
    arc4randomBuf_online, Party.asyncWrite_run, NetPeer.send_run, Party.pure_run, Proc.bind_send, Proc.bind_ret,
    Party.andThen_ok]
  rfl

theorem mpcDotproduct_peer_online (hn : n < 2^64) {p : Role} (hp : p ≠ .P2) (q : Role) (h : Host) :
    (mpcDotproduct ex x y p .P2 (some q) none).run h = dotPeer ex n x.vals y.vals q h := by
  cases p with
  | P2 => exact absurd rfl hp
  | P0 | P1 =>
    simp only [mpcDotproduct, hx, vecAdd_fill hfill hx, vecAdd_fill hfill hy, Party.ofExcept,
      Party.bind_run, Party.asyncRead_run,
      Proc.bind_recv, Proc.bind_ret, Party.andThen_ok, NetPeer.recv_run, Party.pure_run,
      NetPeer.sendVector_run _ _ (masked_lt hfill hx hn _),
      NetPeer.sendVector_run _ _ (masked_lt hfill hy hn _),
      Proc.bind_sends, NetPeer.recvVector_run, NetPeer.recvVec_bind]
    rfl

end

theorem dotEnd_run (ex : Expander) {n : Nat} {x y XTilde YTilde : List (BitVec 64)} (m : DotMaterial)
    (hfill : ∀ l, (ex.fill n l).length = n) (hx : x.length = n) (hy : y.length = n)
    (hX : XTilde.length = n) (hY : YTilde.length = n) (h : Host) :
    (dotEnd ex n x y m XTilde YTilde).run h = .ret (.ok (dotShare ex n x y m XTilde YTilde), h) := by
  have hopen : (List.zipWith (· + ·) y YTilde).length = n := by
    rw [List.length_zipWith, hy, hY, Nat.min_self]
  rw [dotEnd, vecAdd_ok (hy.trans hY.symm)]
  simp only [Party.ofExcept, Party.bind_run, Party.pure_run, Proc.bind_ret, Party.andThen_ok,
    vecMul_ok (hx.trans hopen.symm), vecMul_ok ((hfill _).trans hX.symm)]
  rfl

/-- P0 and P1 take two vectors each off the other's stream. -/
theorem queued_vectors {a0 b0 a1 b1 : List (BitVec w)} (ha0 : a0.length < 2^64)
    (hb0 : b0.length < 2^64) (ha1 : a1.length < 2^64) (hb1 : b1.length < 2^64)
    (k0 k1 : List (BitVec w) → List (BitVec w) → Wire β) {r : Role → β}
    (h0 : k0 a1 b1 = .ret (r .P0)) (h1 : k1 a0 b0 = .ret (r .P1)) (v : Role → List (Role × List Byte)) :
    Queued
      (tri (NetPeer.recvVec .P1 w fun XT => NetPeer.recvVec .P1 w (k0 XT))
        (NetPeer.recvVec .P0 w fun XT => NetPeer.recvVec .P0 w (k1 XT)) (.ret (r .P2)))
      (tri (tri [] (NetPeer.vecFrames a0 ++ NetPeer.vecFrames b0) [])
        (tri (NetPeer.vecFrames a1 ++ NetPeer.vecFrames b1) [] []) (fun _ => [])) v r
      (tri (v .P0 ++ (NetPeer.vecFrames a1 ++ NetPeer.vecFrames b1).map (.P1, ·))
        (v .P1 ++ (NetPeer.vecFrames a0 ++ NetPeer.vecFrames b0).map (.P0, ·)) (v .P2)) := by
  refine queued_recvVec (q := .P1) .P0 ha1 rfl rfl ?_
  refine queued_recvVec (q := .P1) .P0 hb1 rfl (List.append_nil _).symm ?_
  refine queued_recvVec (q := .P0) .P1 ha0 rfl rfl ?_
  refine queued_recvVec (q := .P0) .P1 hb0 rfl (List.append_nil _).symm ?_
  refine Queued.done ?_ ?_ ?_
  · intro p
    cases p
    · exact h0
    · exact h1
    · rfl
  · intro p q
    cases p <;> cases q <;> rfl
  · intro p
    cases p <;> simp

/-- A dot product on the network: P2 sends the seeds and gammas of `d`, and the parties exchange
    their masked vectors `m`. -/
theorem dot_queued (ex : Expander) {n : Nat} {d : Role → DotMaterial} {x y : Role → List (BitVec 64)}
    {K : Role → DotMaterial → List (BitVec 64) → List (BitVec 64) → Wire β} {r : Role → β}
    (hseed : ∀ p, p ≠ .P2 → (d p).seedX.length = ex.seedLen ∧ (d p).seedY.length = ex.seedLen)
    (hmask : ∀ p, (dotMask ex n (x p) (y p) (d p)).1.length < 2^64 ∧
      (dotMask ex n (x p) (y p) (d p)).2.length < 2^64)
    (h0 : K .P0 (d .P0) (dotMask ex n (x .P1) (y .P1) (d .P1)).1
      (dotMask ex n (x .P1) (y .P1) (d .P1)).2 = .ret (r .P0))
    (h1 : K .P1 (d .P1) (dotMask ex n (x .P0) (y .P0) (d .P0)).1
      (dotMask ex n (x .P0) (y .P0) (d .P0)).2 = .ret (r .P1)) :
    Queued
      (tri (dotExchange ex n (x .P0) (y .P0) .P1 (K .P0)) (dotExchange ex n (x .P1) (y .P1) .P0 (K .P1))
        (.sends ((d .P0).messages.map (.P0, ·) ++ (d .P1).messages.map (.P1, ·)) (.ret (r .P2))))
      (fun _ _ => []) (fun _ => []) r
      (tri (dotView (d .P0) .P1 (dotMask ex n (x .P1) (y .P1) (d .P1)))
        (dotView (d .P1) .P0 (dotMask ex n (x .P0) (y .P0) (d .P0))) []) := by
  have hs0 := hseed .P0 (by decide)
  have hs1 := hseed .P1 (by decide)
  -- P2's messages first, then both parties' vectors, then the reads
  refine Queued.sends .P2 rfl ?_
  refine Queued.recv .P0 rfl rfl hs0.1 ?_
  refine Queued.recv .P0 rfl rfl hs0.2 ?_
  refine Queued.recv .P0 rfl rfl (enc_length _) ?_
  refine Queued.recv .P1 rfl rfl hs1.1 ?_
  refine Queued.recv .P1 rfl rfl hs1.2 ?_
  refine Queued.recv .P1 rfl rfl (enc_length _) ?_
  refine Queued.sends .P0 rfl ?_
  refine Queued.sends .P0 rfl ?_
  refine Queued.sends .P1 rfl ?_
  refine Queued.sends .P1 rfl ?_
  have h := queued_vectors (hmask .P0).1 (hmask .P0).2 (hmask .P1).1 (hmask .P1).2 (K .P0 (d .P0))
    (K .P1 (d .P1)) (r := r) h0 h1
    (tri ((d .P0).messages.map (.P2, ·)) ((d .P1).messages.map (.P2, ·)) [])
  refine Queued.congr ?_ ?_ ?_ h
  · intro p
    cases p <;> simp
  · intro p q
    cases p <;> cases q <;> simp [filter_map_self, filter_map_ne]
  · intro p
    cases p <;> rfl

theorem dotDeal_seed (ex : Expander) (n : Nat) (e : Env) {p : Role} (hp : p ≠ .P2) :
    (dotDeal ex n e p).seedX.length = ex.seedLen ∧ (dotDeal ex n e p).seedY.length = ex.seedLen := by
  cases p with
  | P2 => exact absurd rfl hp
  | P0 | P1 => simp [dotDeal, Env.seed, Entropy.take]

theorem dotMask_length {ex : Expander} {n : Nat} (hfill : ∀ l, (ex.fill n l).length = n)
    {x y : List (BitVec 64)} (hx : x.length = n) (hy : y.length = n) (m : DotMaterial) :
    (dotMask ex n x y m).1.length = n ∧ (dotMask ex n x y m).2.length = n :=
  ⟨masked_length hfill hx m.seedX, masked_length hfill hy m.seedY⟩

theorem mpcDotproduct_run {ex : Expander} {n : Nat} (hfill : ∀ l, (ex.fill n l).length = n)
    (hn : n < 2^64) {x y : Role → AdditiveShareVector} (hx : ∀ p, (x p).vals.length = n)
    (hy : ∀ p, (y p).vals.length = n) (e : Role → Env) :
    PartyRun (fun p => mpcDotproduct ex (x p) (y p) p (selfOf p) (peer0Of p) (peer1Of p))
      (fun p => Host.online p (e p)) (dotResult ex n x y (e .P2))
      (fun p => Host.online p (afterDot ex e p)) (dotViews ex n x y (e .P2)) := by
  have hmask : ∀ p m, (dotMask ex n (x p).vals (y p).vals m).1.length = n ∧
      (dotMask ex n (x p).vals (y p).vals m).2.length = n :=
    fun p m => dotMask_length hfill (hx p) (hy p) m
  apply PartyRun.of_queued
    (mpcDotproduct_peer_online hfill (hx _) (hy _) hn (by decide) .P1 _)
    (mpcDotproduct_peer_online hfill (hx _) (hy _) hn (by decide) .P0 _)
    (mpcDotproduct_P2_online hfill _ (hx _) (hy _))
  exact dot_queued (d := dotDeal ex n (e .P2)) (x := fun p => (x p).vals) (y := fun p => (y p).vals) ex
    (fun p hp => dotDeal_seed ex n (e .P2) hp)
    (fun p => ⟨(hmask p _).1.trans_lt hn, (hmask p _).2.trans_lt hn⟩)
    (K := fun p m XT YT => (dotEnd ex n (x p).vals (y p).vals m XT YT).run (Host.online p (e p)))
    (r := fun p => (.ok (dotResult ex n x y (e .P2) p), Host.online p (afterDot ex e p)))
    (dotEnd_run ex _ hfill (hx _) (hy _) (hmask .P1 _).1 (hmask .P1 _).2 _)
    (dotEnd_run ex _ hfill (hx _) (hy _) (hmask .P0 _).1 (hmask .P0 _).2 _)

end Mpc
