import Mpc.Circuit
import Mpc.Dotproduct
import Mpc.Lib.Async

/- The interactive operations with the operands of `a && b && …` concurrent (mpcops.hpp,
   network.hpp). A socket is a FIFO byte stream; an operand is one `operator<<` or
   `operator>>`, whose own writes or reads keep their order; operands of one co_await
   step in any order. In every run whose steps are in order, that is by the first
   unfinished operand of the list on its socket and direction, the operations are
   correct (`ordered_correct`): the operands one after the other are the coroutines of
   `Ops` (`mpcMul_eq_seq`). Out of order they are not: the messages carry no tags, and masked
   values change places (`swapped_sampleMul`). -/
namespace Mpc
open Async Diamond Fifo LE

/-! Operands. -/

/-- What an operand of a co_await leaves. -/
inductive Value where
  | sent
  | bytes (l : List Byte)
  | vec (v : List (BitVec 64))

namespace Value

/-- The word a read stored. -/
def word (w : Nat) : Value → BitVec w
  | .bytes l => dec w l
  | _ => 0

def seed : Value → List Byte
  | .bytes l => l
  | _ => []

def vals : Value → List (BitVec 64)
  | .vec v => v
  | _ => []

end Value

/-- `peer << value`, for the bytes of the value. -/
def put (peer : NetPeer) (l : List Byte) : Operand Role Byte Value := .writes peer [l] .sent

/-- `peer >> value`, for a value of `n` bytes. -/
def get (peer : NetPeer) (n : Nat) : Operand Role Byte Value :=
  .reads peer (.read n fun l => .done (.bytes l))

/-- `peer << vec`: the length, then the elements if there are any. -/
def putVector (peer : NetPeer) (vec : List (BitVec 64)) : Operand Role Byte Value :=
  let sz := BitVec.ofNat 64 vec.length
  .writes peer (if 0 < sz.toNat then [enc sz, NetPeer.vecBytes vec] else [enc sz]) .sent

/-- `peer >> vec`. -/
def getVector (peer : NetPeer) : Operand Role Byte Value :=
  .reads peer (.read 8 fun l =>
    if 0 < (dec 64 l).toNat then
      .read (sizeBytes 64 * (dec 64 l).toNat) fun l' =>
        .done (.vec (NetPeer.vecOf 64 (dec 64 l).toNat l'))
    else .done (.vec []))

/-- What a coroutine ends with: the masked values it sent, the values it received for the
    other party's, and its result. -/
structure Ended (V S : Type) where
  masked : V × V
  opened : V × V
  out : S

abbrev Coroutine (V S : Type) := Task Role Byte Value (Except Err (Ended V S))

abbrev Parties (V S : Type) := Net Role Byte Value (Except Err (Ended V S))

/-- The value of operand `i` of a list. -/
def nth (vs : List Value) (i : Nat) : Value := vs.getD i .sent

/-! The coroutines in Online mode; `e` is P2's environment. -/

section
variable {w : Nat}

def mulTask (x y : AShare w) (e : Env) : Role → Coroutine (BitVec w) (BitVec w)
  | .P2 =>
    let X0 := e.draw w 0
    let Y0 := e.draw w 1
    let X1 := e.draw w 2
    let Y1 := e.draw w 3
    .all [put .P0 (enc X0), put .P1 (enc Y0), put .P0 (enc X1), put .P1 (enc Y1),
      put .P0 (enc (X0 * Y1)), put .P1 (enc (X1 * Y0))] fun _ => .ret (.ok ⟨0, 0, 0⟩)
  | .P0 =>
    .all [get .P2 (sizeBytes w), get .P2 (sizeBytes w), get .P2 (sizeBytes w)] fun vs =>
      let X := (nth vs 0).word w
      let Y := (nth vs 1).word w
      let gamma := (nth vs 2).word w
      .all [put .P1 (sumBytes x.val X), put .P1 (sumBytes y.val Y), get .P1 (sizeBytes w),
        get .P1 (sizeBytes w)] fun vs =>
        let XTilde := (nth vs 2).word w
        let YTilde := (nth vs 3).word w
        .ret (.ok ⟨(x.val + X, y.val + Y), (XTilde, YTilde),
          x.val * (y.val + YTilde) - Y * XTilde + gamma⟩)
  | .P1 =>
    .all [get .P2 (sizeBytes w), get .P2 (sizeBytes w), get .P2 (sizeBytes w)] fun vs =>
      let X := (nth vs 0).word w
      let Y := (nth vs 1).word w
      let gamma := (nth vs 2).word w
      .all [get .P0 (sizeBytes w), get .P0 (sizeBytes w), put .P0 (sumBytes x.val X),
        put .P0 (sumBytes y.val Y)] fun vs =>
        let XTilde := (nth vs 0).word w
        let YTilde := (nth vs 1).word w
        .ret (.ok ⟨(x.val + X, y.val + Y), (XTilde, YTilde),
          x.val * (y.val + YTilde) - Y * XTilde + gamma⟩)

def andTask (x y : XShare w) (e : Env) : Role → Coroutine (BitVec w) (BitVec w)
  | .P2 =>
    let X0 := e.draw w 0
    let Y0 := e.draw w 1
    let X1 := e.draw w 2
    let Y1 := e.draw w 3
    .all [put .P0 (enc X0), put .P0 (enc Y0), put .P0 (enc (X0 &&& Y1)), put .P1 (enc X1),
      put .P1 (enc Y1), put .P1 (enc (X1 &&& Y0))] fun _ => .ret (.ok ⟨0, 0, 0⟩)
  | .P0 =>
    .all [get .P2 (sizeBytes w), get .P2 (sizeBytes w), get .P2 (sizeBytes w)] fun vs =>
      let X := (nth vs 0).word w
      let Y := (nth vs 1).word w
      let gamma := (nth vs 2).word w
      let ai := x.val ^^^ X
      let bi := y.val ^^^ Y
      .all [put .P1 (enc ai), put .P1 (enc bi), get .P1 (sizeBytes w), get .P1 (sizeBytes w)] fun vs =>
        let aj := (nth vs 2).word w
        let bj := (nth vs 3).word w
        .ret (.ok ⟨(ai, bi), (aj, bj), (x.val &&& (y.val ^^^ bj)) ^^^ (Y &&& aj) ^^^ gamma⟩)
  | .P1 =>
    .all [get .P2 (sizeBytes w), get .P2 (sizeBytes w), get .P2 (sizeBytes w)] fun vs =>
      let X := (nth vs 0).word w
      let Y := (nth vs 1).word w
      let gamma := (nth vs 2).word w
      let ai := x.val ^^^ X
      let bi := y.val ^^^ Y
      .all [get .P0 (sizeBytes w), get .P0 (sizeBytes w), put .P0 (enc ai), put .P0 (enc bi)] fun vs =>
        let aj := (nth vs 0).word w
        let bj := (nth vs 1).word w
        .ret (.ok ⟨(ai, bi), (aj, bj), (x.val &&& (y.val ^^^ bj)) ^^^ (Y &&& aj) ^^^ gamma⟩)

end

/-- A coroutine that throws when `x` did. -/
def tryWith {α V S : Type} (x : Except Err α) (k : α → Coroutine V S) : Coroutine V S :=
  match x with
  | .ok a => k a
  | .error e => .ret (.error e)

/-- The end of a dot product at P0 or P1. -/
def dotTaskEnd (x y : AdditiveShareVector) (YBlind : List (BitVec 64))
    (masked opened : List (BitVec 64) × List (BitVec 64)) (gamma : BitVec 64) :
    Coroutine (List (BitVec 64)) (BitVec 64) :=
  tryWith (vecAdd y.vals opened.2) fun yOpened =>
  tryWith (vecMul x.vals yOpened) fun own =>
  tryWith (vecMul YBlind opened.1) fun cross =>
  .ret (.ok ⟨masked, opened, own - cross + gamma⟩)

/-- P0's and P1's side of a dot product: both send first. -/
def dotTaskPeer (ex : Expander) (x y : AdditiveShareVector) (peer : NetPeer) :
    Coroutine (List (BitVec 64)) (BitVec 64) :=
  .all [get .P2 ex.seedLen, get .P2 ex.seedLen, get .P2 8] fun vs =>
    let gamma := (nth vs 2).word 64
    let XBlind := ex.fill x.vals.length (nth vs 0).seed
    let YBlind := ex.fill x.vals.length (nth vs 1).seed
    tryWith (vecAdd x.vals XBlind) fun xBlinded =>
    tryWith (vecAdd y.vals YBlind) fun yBlinded =>
    .all [putVector peer xBlinded, putVector peer yBlinded, getVector peer, getVector peer] fun vs =>
      let XTilde := (nth vs 2).vals
      let YTilde := (nth vs 3).vals
      dotTaskEnd x y YBlind (xBlinded, yBlinded) (XTilde, YTilde) gamma

def dotTask (ex : Expander) (x y : AdditiveShareVector) (e : Env) :
    Role → Coroutine (List (BitVec 64)) (BitVec 64)
  | .P2 =>
    let seedX0 := e.seed ex.seedLen 0
    let seedX1 := e.seed ex.seedLen 1
    let seedY0 := e.seed ex.seedLen 2
    let seedY1 := e.seed ex.seedLen 3
    tryWith (vecMul (ex.fill x.vals.length seedX0) (ex.fill y.vals.length seedY1)) fun gamma0 =>
    tryWith (vecMul (ex.fill x.vals.length seedX1) (ex.fill y.vals.length seedY0)) fun gamma1 =>
    .all [put .P0 seedX0, put .P0 seedY0, put .P0 (enc gamma0), put .P1 seedX1, put .P1 seedY1,
      put .P1 (enc gamma1)] fun _ => .ret (.ok ⟨([], []), ([], []), 0⟩)
  | .P0 => dotTaskPeer ex x y .P1
  | .P1 => dotTaskPeer ex x y .P0

/-! One operand after the other, the coroutines are those of `Ops`. -/

section
variable {β : Type} (peer : NetPeer) (f : Value → Wire β)

@[simp] theorem put_seq (l : List Byte) : (put peer l).seq f = .send peer l (f .sent) := rfl

@[simp] theorem get_seq (n : Nat) : (get peer n).seq f = .recv peer n fun l => f (.bytes l) := rfl

theorem putVector_seq {vec : List (BitVec 64)} (hn : vec.length < 2^64) :
    (putVector peer vec).seq f = .sends ((NetPeer.vecFrames vec).map (peer, ·)) (f .sent) := by
  have e : (BitVec.ofNat 64 vec.length).toNat = vec.length := Nat.mod_eq_of_lt hn
  simp only [putVector, NetPeer.vecFrames, e, Operand.seq]

theorem getVector_seq :
    (getVector peer).seq f = NetPeer.recvVec peer 64 fun vec => f (.vec vec) := by
  rw [NetPeer.recvVec, getVector, Operand.seq, Reader.seq]
  congr 1
  funext l
  split <;> rfl

end

section
variable {w : Nat}

theorem mulTask_seq_P0 (hw : 32 ≤ w) (x y : AShare w) (e : Env) :
    (mulTask x y e .P0).seq = recvMaterial w fun m => exchangeFirst .P1 (mulMask x.val y.val m)
      fun a b => .ok ⟨mulMask x.val y.val m, (a, b), mulShare x.val y.val m a b⟩ := by
  simp [mulTask, Task.seq, seqAll, nth, Value.word, sumBytes,
    Nat.not_lt.mpr hw, recvMaterial, exchangeFirst, mulMask, mulShare]

theorem mulTask_seq_P1 (hw : 32 ≤ w) (x y : AShare w) (e : Env) :
    (mulTask x y e .P1).seq = recvMaterial w fun m => exchangeSecond .P0 (mulMask x.val y.val m)
      fun a b => .ok ⟨mulMask x.val y.val m, (a, b), mulShare x.val y.val m a b⟩ := by
  simp [mulTask, Task.seq, seqAll, nth, Value.word, sumBytes,
    Nat.not_lt.mpr hw, recvMaterial, exchangeSecond, mulMask, mulShare]

theorem mulTask_seq_P2 (x y : AShare w) (e : Env) :
    (mulTask x y e .P2).seq =
      .sends [(.P0, enc (mulDeal e w .P0).X), (.P1, enc (mulDeal e w .P1).X),
        (.P0, enc (mulDeal e w .P0).Y), (.P1, enc (mulDeal e w .P1).Y),
        (.P0, enc (mulDeal e w .P0).gamma), (.P1, enc (mulDeal e w .P1).gamma)]
        (.ret (.ok ⟨0, 0, 0⟩)) := by
  simp [mulTask, Task.seq, seqAll, mulDeal]

theorem andTask_seq_P0 (x y : XShare w) (e : Env) :
    (andTask x y e .P0).seq = recvMaterial w fun m => exchangeFirst .P1 (andMask x.val y.val m)
      fun a b => .ok ⟨andMask x.val y.val m, (a, b), andShare x.val y.val m a b⟩ := by
  simp [andTask, Task.seq, seqAll, nth, Value.word,
    recvMaterial, exchangeFirst, andMask, andShare]

theorem andTask_seq_P1 (x y : XShare w) (e : Env) :
    (andTask x y e .P1).seq = recvMaterial w fun m => exchangeSecond .P0 (andMask x.val y.val m)
      fun a b => .ok ⟨andMask x.val y.val m, (a, b), andShare x.val y.val m a b⟩ := by
  simp [andTask, Task.seq, seqAll, nth, Value.word,
    recvMaterial, exchangeSecond, andMask, andShare]

theorem andTask_seq_P2 (x y : XShare w) (e : Env) :
    (andTask x y e .P2).seq =
      .sends [(.P0, enc (andDeal e w .P0).X), (.P0, enc (andDeal e w .P0).Y),
        (.P0, enc (andDeal e w .P0).gamma), (.P1, enc (andDeal e w .P1).X),
        (.P1, enc (andDeal e w .P1).Y), (.P1, enc (andDeal e w .P1).gamma)]
        (.ret (.ok ⟨0, 0, 0⟩)) := by
  simp [andTask, Task.seq, seqAll, andDeal]

end

section
variable {ex : Expander} {n : Nat} (hfill : ∀ l, (ex.fill n l).length = n)
  {x y : AdditiveShareVector} (hx : x.vals.length = n) (hy : y.vals.length = n)
include hfill hx hy

theorem dotTaskEnd_eq (m : DotMaterial) {masked opened : List (BitVec 64) × List (BitVec 64)}
    (h1 : opened.1.length = n) (h2 : opened.2.length = n) :
    dotTaskEnd x y (ex.fill n m.seedY) masked opened m.gamma =
      .ret (.ok ⟨masked, opened, dotShare ex n x.vals y.vals m opened.1 opened.2⟩) := by
  have hopen : (List.zipWith (· + ·) y.vals opened.2).length = n := by
    rw [List.length_zipWith, hy, h2, Nat.min_self]
  rw [dotTaskEnd, vecAdd_ok (hy.trans h2.symm), tryWith, vecMul_ok (hx.trans hopen.symm), tryWith,
    vecMul_ok ((hfill _).trans h1.symm), tryWith, dotShare]

theorem dotTaskPeer_seq (hn : n < 2^64) (peer : NetPeer) :
    (dotTaskPeer ex x y peer).seq = dotExchange ex n x.vals y.vals peer fun m XTilde YTilde =>
      (dotTaskEnd x y (ex.fill n m.seedY) (dotMask ex n x.vals y.vals m) (XTilde, YTilde) m.gamma).seq := by
  simp only [dotTaskPeer, hx, vecAdd_fill hfill hx, vecAdd_fill hfill hy, tryWith, Task.seq, seqAll,
    get_seq, getVector_seq, putVector_seq peer _ (masked_lt hfill hx hn _),
    putVector_seq peer _ (masked_lt hfill hy hn _)]
  rfl

end

theorem dotTask_seq_P2 {ex : Expander} {n : Nat} (hfill : ∀ l, (ex.fill n l).length = n)
    {x y : AdditiveShareVector} (hx : x.vals.length = n) (hy : y.vals.length = n) (e : Env) :
    (dotTask ex x y e .P2).seq =
      .sends ((dotDeal ex n e .P0).messages.map (.P0, ·) ++ (dotDeal ex n e .P1).messages.map (.P1, ·))
        (.ret (.ok ⟨([], []), ([], []), 0⟩)) := by
  simp only [dotTask, hx, hy, vecMul_fill hfill, tryWith]
  rfl

section
variable {w : Nat}

/-- mpc_mul is its task with the operands of each co_await one after the other. -/
theorem mpcMul_eq_seq {x y : AShare w} (hx : x.ctx = true) (hw : 32 ≤ w) (e : Env) (p : Role) :
    (mpcMul x y p (selfOf p) (peer0Of p) (peer1Of p)).run (Host.online p e) =
      (mulTask x y e p).seq.bind fun r =>
        .ret (r.map Ended.out, Host.online p (afterGate (fun _ => e) w p)) := by
  cases p with
  | P0 => exact (mpcMul_P0_online hx hw e).trans (by rw [mulTask_seq_P0 hw]; rfl)
  | P1 => exact (mpcMul_P1_online hx hw e).trans (by rw [mulTask_seq_P1 hw]; rfl)
  | P2 => exact (mpcMul_P2_online hx e).trans (by rw [mulTask_seq_P2]; rfl)

theorem mpcAnd_eq_seq {x y : XShare w} (hx : x.ctx = true) (e : Env) (p : Role) :
    (mpcAnd x y p (selfOf p) (peer0Of p) (peer1Of p)).run (Host.online p e) =
      (andTask x y e p).seq.bind fun r =>
        .ret (r.map Ended.out, Host.online p (afterGate (fun _ => e) w p)) := by
  cases p with
  | P0 => exact (mpcAnd_P0_online hx e).trans (by rw [andTask_seq_P0]; rfl)
  | P1 => exact (mpcAnd_P1_online hx e).trans (by rw [andTask_seq_P1]; rfl)
  | P2 => exact (mpcAnd_P2_online hx e).trans (by rw [andTask_seq_P2]; rfl)

end

theorem dotExchange_bind {β γ : Type} (ex : Expander) (n : Nat) (x y : List (BitVec 64)) (peer : Role)
    (K : DotMaterial → List (BitVec 64) → List (BitVec 64) → Wire β) (f : β → Wire γ) :
    (dotExchange ex n x y peer K).bind f =
      dotExchange ex n x y peer fun m XTilde YTilde => (K m XTilde YTilde).bind f := by
  simp only [dotExchange, Proc.bind_recv, Proc.bind_sends, NetPeer.recvVec_bind]

theorem tryWith_seq {α V S : Type} (x : Except Err α) {k : α → Coroutine V S} {g : α → Party Host S}
    {h : Host} (hk : ∀ a, ((k a).seq.bind fun r => .ret (r.map Ended.out, h)) = (g a).run h) :
    ((tryWith x k).seq.bind fun r => .ret (r.map Ended.out, h)) = (Party.ofExcept x >>= g).run h := by
  cases x with
  | error err => rfl
  | ok a => exact hk a

/-- Also when a received vector has the wrong length, where both throw. -/
theorem dotTaskEnd_seq (ex : Expander) (n : Nat) (x y : AdditiveShareVector) (m : DotMaterial)
    (masked opened : List (BitVec 64) × List (BitVec 64)) (h : Host) :
    ((dotTaskEnd x y (ex.fill n m.seedY) masked opened m.gamma).seq.bind fun r =>
      .ret (r.map Ended.out, h)) = (dotEnd ex n x.vals y.vals m opened.1 opened.2).run h := by
  apply tryWith_seq
  intro yOpened
  apply tryWith_seq
  intro own
  apply tryWith_seq
  intro cross
  rfl

theorem mpcDotproduct_eq_seq {ex : Expander} {n : Nat} (hfill : ∀ l, (ex.fill n l).length = n)
    (hn : n < 2^64) {x y : AdditiveShareVector} (hx : x.vals.length = n) (hy : y.vals.length = n)
    (e : Env) (p : Role) :
    (mpcDotproduct ex x y p (selfOf p) (peer0Of p) (peer1Of p)).run (Host.online p e) =
      (dotTask ex x y e p).seq.bind fun r =>
        .ret (r.map Ended.out, Host.online p (afterDot ex (fun _ => e) p)) := by
  have hpeer : ∀ {p : Role} (_ : p ≠ .P2) (q : Role) (h : Host),
      (mpcDotproduct ex x y p .P2 (some q) none).run h =
        (dotTaskPeer ex x y q).seq.bind fun r => .ret (r.map Ended.out, h) := by
    intro p hp q h
    rw [mpcDotproduct_peer_online hfill hx hy hn hp, dotTaskPeer_seq hfill hx hy hn, dotExchange_bind]
    simp only [dotTaskEnd_seq]
    rfl
  cases p with
  | P0 => exact hpeer (by decide) .P1 _
  | P1 => exact hpeer (by decide) .P0 _
  | P2 => exact (mpcDotproduct_P2_online hfill e hx hy).trans (by rw [dotTask_seq_P2 hfill hx hy]; rfl)

/-! Correctness. -/

section
variable {V S : Type}

/-- P0 and P1 returned, each with the other's first and second masked value, and `right` holds
    of their results. -/
def Exchanged (right : S → S → Prop) (r0 r1 : Except Err (Ended V S)) : Prop :=
  ∃ a b, r0 = .ok a ∧ r1 = .ok b ∧ a.opened = b.masked ∧ b.opened = a.masked ∧ right a.out b.out

/-- From every state that a run of `step` reaches all parties can go on to their end, and
    where P0 and P1 are both at theirs, they have exchanged. -/
def CorrectUnder (step : Parties V S → Parties V S → Prop) (t : Role → Coroutine V S)
    (right : S → S → Prop) : Prop :=
  ∀ n N, Steps step n (start t) N → (∃ m r, Steps step m N (finished r)) ∧
    ∀ r0 r1, (N.task .P0).result = some r0 → (N.task .P1).result = some r1 → Exchanged right r0 r1

theorem correct_of_run {t : Role → Coroutine V S} {r : Role → Except Err (Ended V S)}
    {v : Role → List (Role × List Byte)} {right : S → S → Prop} (h : Run (fun p => (t p).seq) r v)
    (hr : Exchanged right (r .P0) (r .P1)) : CorrectUnder OrderedStep t right := by
  intro n N hn
  have hs := settles_of_seq h
  have hret : ∀ {p b}, (N.task p).result = some b → b = r p :=
    fun hb => result_of_settles hs hn (Task.result_eq_some.mp hb)
  constructor
  · obtain ⟨k, -, -, hall⟩ := hs
    exact ⟨k - n, r, (hall n N hn).2⟩
  · intro r0 r1 h0 h1
    rw [hret h0, hret h1]
    exact hr

end

/-- A gate whose operands are in order. -/
theorem gate_correct {w : Nat} {t : Role → Coroutine (BitVec w) (BitVec w)}
    {ms : List (Role × List Byte)} {d2 : Ended (BitVec w) (BitVec w)} {right : BitVec w → BitVec w → Prop}
    (d : Role → Material w) (mask : Role → Material w → BitVec w × BitVec w)
    (out : Role → Material w → BitVec w → BitVec w → BitVec w)
    (h0 : (t .P0).seq = recvMaterial w fun m => exchangeFirst .P1 (mask .P0 m) fun a b =>
      .ok ⟨mask .P0 m, (a, b), out .P0 m a b⟩)
    (h1 : (t .P1).seq = recvMaterial w fun m => exchangeSecond .P0 (mask .P1 m) fun a b =>
      .ok ⟨mask .P1 m, (a, b), out .P1 m a b⟩)
    (h2 : (t .P2).seq = .sends ms (.ret (.ok d2)))
    (hm : ∀ q, (ms.filter (·.1 = q)).map (·.2) = tri (d .P0).messages (d .P1).messages [] q)
    (hright : right (gateResult d (fun p => mask p (d p)) out 0 .P0)
      (gateResult d (fun p => mask p (d p)) out 0 .P1)) : CorrectUnder OrderedStep t right := by
  have hrun := Run.of_queued (gate_queued d mask
    (fun p m a b => (.ok ⟨mask p m, (a, b), out p m a b⟩ : Except Err _)) (.ok d2) hm)
  rw [← h0, ← h1, ← h2, tri_eta fun p => (t p).seq] at hrun
  exact correct_of_run hrun ⟨_, _, rfl, rfl, rfl, rfl, hright⟩

theorem mulTask_correct {w : Nat} (hw : 32 ≤ w) (x y : Role → AShare w) (e : Env) :
    CorrectUnder OrderedStep (fun p => mulTask (x p) (y p) e p) fun a b =>
      a + b = ((x .P0).val + (x .P1).val) * ((y .P0).val + (y .P1).val) := by
  refine gate_correct (mulDeal e w) (fun p => mulMask (x p).val (y p).val)
    (fun p => mulShare (x p).val (y p).val) (mulTask_seq_P0 hw _ _ e) (mulTask_seq_P1 hw _ _ e)
    (mulTask_seq_P2 _ _ e) ?_ (mulResult_add e)
  intro q
  cases q <;> rfl

theorem andTask_correct {w : Nat} (x y : Role → XShare w) (e : Env) :
    CorrectUnder OrderedStep (fun p => andTask (x p) (y p) e p) fun a b =>
      a ^^^ b = ((x .P0).val ^^^ (x .P1).val) &&& ((y .P0).val ^^^ (y .P1).val) := by
  refine gate_correct (andDeal e w) (fun p => andMask (x p).val (y p).val)
    (fun p => andShare (x p).val (y p).val) (andTask_seq_P0 _ _ e) (andTask_seq_P1 _ _ e)
    (andTask_seq_P2 _ _ e) ?_ (andResult_xor e)
  intro q
  cases q <;> rfl

theorem dotTask_correct (ex : Expander) {n : Nat} (hfill : ∀ l, (ex.fill n l).length = n)
    (hn : n < 2^64) {x y : Role → AdditiveShareVector} (hx : ∀ p, (x p).vals.length = n)
    (hy : ∀ p, (y p).vals.length = n) (e : Env) :
    CorrectUnder OrderedStep (fun p => dotTask ex (x p) (y p) e p) fun a b =>
      a + b = ∑ i : Fin n, ((x .P0).vals.getD i 0 + (x .P1).vals.getD i 0) *
        ((y .P0).vals.getD i 0 + (y .P1).vals.getD i 0) := by
  have hmask : ∀ p m, (dotMask ex n (x p).vals (y p).vals m).1.length = n ∧
      (dotMask ex n (x p).vals (y p).vals m).2.length = n :=
    fun p m => dotMask_length hfill (hx p) (hy p) m
  -- what each party ends with
  let m := fun p => dotMask ex n (x p).vals (y p).vals (dotDeal ex n e p)
  let r : Role → Except Err (Ended (List (BitVec 64)) (BitVec 64)) :=
    tri (.ok ⟨m .P0, m .P1, dotResult ex n x y e .P0⟩) (.ok ⟨m .P1, m .P0, dotResult ex n x y e .P1⟩)
      (.ok ⟨([], []), ([], []), 0⟩)
  have hrun := Run.of_queued (dot_queued (d := dotDeal ex n e) (x := fun p => (x p).vals)
    (y := fun p => (y p).vals) (r := r) ex (fun p hp => dotDeal_seed ex n e hp)
    (fun p => ⟨(hmask p _).1.trans_lt hn, (hmask p _).2.trans_lt hn⟩)
    (K := fun p m XT YT => (dotTaskEnd (x p) (y p) (ex.fill n m.seedY)
      (dotMask ex n (x p).vals (y p).vals m) (XT, YT) m.gamma).seq)
    (by rw [dotTaskEnd_eq hfill (hx _) (hy _) _ (hmask _ _).1 (hmask _ _).2]; rfl)
    (by rw [dotTaskEnd_eq hfill (hx _) (hy _) _ (hmask _ _).1 (hmask _ _).2]; rfl))
  have h2 := dotTask_seq_P2 hfill (hx .P2) (hy .P2) e
  change _ = Proc.sends _ (.ret (r .P2)) at h2
  rw [← dotTaskPeer_seq hfill (hx _) (hy _) hn, ← dotTaskPeer_seq hfill (hx _) (hy _) hn, ← h2] at hrun
  have hseq := tri_eta fun p => (dotTask ex (x p) (y p) e p).seq
  exact correct_of_run (hseq ▸ hrun) ⟨_, _, rfl, rfl, rfl, rfl, dotResult_add ex hfill hx hy e⟩

/-- In every run whose steps are in order a multiplication, an AND and a dot product leave P0
    and P1 with each other's masked values and with shares of the result, whatever P2 draws. -/
theorem ordered_correct (aes : Block → Block) (e : Env) :
    (∀ w, 32 ≤ w → ∀ x y : Role → AShare w,
      CorrectUnder OrderedStep (fun p => mulTask (x p) (y p) e p) fun a b =>
        a + b = ((x .P0).val + (x .P1).val) * ((y .P0).val + (y .P1).val)) ∧
    (∀ w, ∀ x y : Role → XShare w,
      CorrectUnder OrderedStep (fun p => andTask (x p) (y p) e p) fun a b =>
        a ^^^ b = ((x .P0).val ^^^ (x .P1).val) &&& ((y .P0).val ^^^ (y .P1).val)) ∧
    (∀ n, n < 2^64 → ∀ x y : Role → AdditiveShareVector,
      (∀ p, (x p).vals.length = n) → (∀ p, (y p).vals.length = n) →
      CorrectUnder OrderedStep (fun p => dotTask (prgExpander aes) (x p) (y p) e p) fun a b =>
        a + b = ∑ i : Fin n, ((x .P0).vals.getD i 0 + (x .P1).vals.getD i 0) *
          ((y .P0).vals.getD i 0 + (y .P1).vals.getD i 0)) :=
  ⟨fun _ hw x y => mulTask_correct hw x y e, fun _ x y => andTask_correct x y e,
    fun n hn _ _ hx hy => dotTask_correct _ (prgExpander_length aes n) hn hx hy e⟩

/-! Out of order. -/

/-- Shares of 2 and 0, to be multiplied. -/
def sampleMul (p : Role) : Coroutine (BitVec 64) (BitVec 64) := mulTask ⟨1, true⟩ ⟨0, true⟩ Env.zeros p

/-- P0's second masked value goes before its first; all other steps are in order. -/
def swappedWrites : List (Role × Nat) :=
  [(.P2, 0), (.P2, 1), (.P2, 2), (.P2, 3), (.P2, 4), (.P2, 5), (.P0, 0), (.P0, 1), (.P0, 2),
    (.P1, 0), (.P1, 1), (.P1, 2), (.P0, 1), (.P0, 0), (.P1, 0), (.P1, 1), (.P1, 2), (.P1, 3),
    (.P0, 2), (.P0, 3)]

theorem ordered_sampleMul : CorrectUnder OrderedStep sampleMul fun a b => a + b = 0 :=
  (ordered_correct (fun b => b) Env.zeros).1 64 (by decide) (fun _ => ⟨1, true⟩) fun _ => ⟨0, true⟩

/-- P1 takes P0's masked values in the wrong order, and the shares add up to 1. -/
theorem swapped_sampleMul : ¬ CorrectUnder Step sampleMul fun a b => a + b = 0 := by
  intro h
  have hrun : ((follow swappedWrites (start sampleMul)).map fun N =>
      ((N.task .P0).result, (N.task .P1).result)) =
        some (some (.ok ⟨(1, 0), (1, 0), 0⟩), some (.ok ⟨(1, 0), (0, 1), 1⟩)) := by
    rfl
  rw [Option.map_eq_some_iff] at hrun
  obtain ⟨N, hN, hret⟩ := hrun
  rw [Prod.mk.injEq] at hret
  obtain ⟨a, b, ha, hb, -, hopened, -⟩ := (h _ N (follow_steps hN)).2 _ _ hret.1 hret.2
  obtain rfl := Except.ok.inj ha
  obtain rfl := Except.ok.inj hb
  exact absurd hopened (by decide)

end Mpc
