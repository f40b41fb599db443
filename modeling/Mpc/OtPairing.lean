import Mpc.Lib.Trace
import Mpc.Ot

/- Which batches of two `OTManager`s meet (ot_manager.hpp). A batch that fails its size check,
   or is empty, resolves its future and sends nothing, so the worker goes on to the next one
   while the other side's worker may be waiting at the socket with this one. Here the two
   workers take their tasks in the order they were enqueued, run an ideal random OT as one step
   when both are at the socket with vectors of one size, and pass the bits and the payload over
   two streams.

   What a receiver's future resolves to are the messages of the sender's batch that had the same
   number among those that reach the socket (`received_meets`). That is its own batch for every
   one of them, or messages are delivered to the wrong batch (`never_crossed_iff`). -/
namespace Mpc.OtPairing
open LE BitPack Trace

/-- The `k`-th calls of `ot_send` and `ot_receive`. -/
structure OtCall where
  n : Nat
  msgs : List (Block × Block)
  choices : List Bool

/-- The sender's task reaches the socket. -/
def OtCall.sends (b : OtCall) : Bool := b.msgs.length = b.n ∧ b.n ≠ 0

/-- The receiver's task reaches the socket. -/
def OtCall.receives (b : OtCall) : Bool := b.choices.length = b.n ∧ b.n ≠ 0

/-- Where the sender's worker is. -/
inductive SenderAt where
  | idle
  | randomOt {n : Nat} (msgs : Fin n → Block × Block)
  | recvEq {n : Nat} (msgs pads : Fin n → Block × Block)

/-- Where the receiver's worker is. -/
inductive ReceiverAt where
  | idle
  | randomOt {n : Nat} (choices : Fin n → Bool)
  | sendEq {n : Nat} (choices q : Fin n → Bool) (rq : Fin n → Block)
  | recvMasked {n : Nat} (choices : Fin n → Bool) (rq : Fin n → Block)

/-- `ot_send`'s task up to the random OT: where the worker is then, and its future if that is
    resolved. -/
def startSend (b : OtCall) : SenderAt × List (Except Err (List (Block × Block))) :=
  if h : b.msgs.length = b.n then
    if b.n = 0 then (.idle, [.ok b.msgs])
    else (.randomOt fun i : Fin b.n => b.msgs.get (i.cast h.symm), [])
  else (.idle, [.error (.runtimeError "ot_send: msgs.size() must equal n")])

/-- `ot_receive`'s task up to the random OT. -/
def startReceive (b : OtCall) : ReceiverAt × List (Except Err (List Block)) :=
  if h : b.choices.length = b.n then
    if b.n = 0 then (.idle, [.ok []])
    else (.randomOt fun i : Fin b.n => b.choices.get (i.cast h.symm), [])
  else (.idle, [.error (.runtimeError "ot_receive: choices.size() must equal n")])

/-- Both sides. `sent` and `received` are the futures resolved so far, in the order of the calls. -/
structure Sides where
  sendTodo : List OtCall
  sendQueue : List OtCall
  sender : SenderAt
  sent : List (Except Err (List (Block × Block)))
  recvTodo : List OtCall
  recvQueue : List OtCall
  receiver : ReceiverAt
  received : List (Except Err (List Block))
  toSender : List Byte
  toReceiver : List Byte

/-- Nothing is enqueued yet. -/
def init (batches : List OtCall) : Sides := ⟨batches, [], .idle, [], batches, [], .idle, [], [], []⟩

inductive Event where
  | enqueueSend | takeSend | enqueueReceive | takeReceive | randomOt | sendEq | recvEq | recvMasked

/-- One step of either side, or of both. The random OT gives the sender any pads, and the
    receiver random choices and the pads that these select. -/
inductive Step : Sides → Event → Sides → Prop
  | enqueueSend (s : Sides) (b : OtCall) (rest : List OtCall) (h : s.sendTodo = b :: rest) :
    Step s .enqueueSend { s with sendTodo := rest, sendQueue := s.sendQueue ++ [b] }
  | takeSend (s : Sides) (b : OtCall) (rest : List OtCall) (hs : s.sender = .idle)
    (h : s.sendQueue = b :: rest) :
    Step s .takeSend
      { s with sendQueue := rest, sender := (startSend b).1, sent := s.sent ++ (startSend b).2 }
  | enqueueReceive (s : Sides) (b : OtCall) (rest : List OtCall) (h : s.recvTodo = b :: rest) :
    Step s .enqueueReceive { s with recvTodo := rest, recvQueue := s.recvQueue ++ [b] }
  | takeReceive (s : Sides) (b : OtCall) (rest : List OtCall) (hr : s.receiver = .idle)
    (h : s.recvQueue = b :: rest) :
    Step s .takeReceive
      { s with
        recvQueue := rest
        receiver := (startReceive b).1
        received := s.received ++ (startReceive b).2 }
  | randomOt (s : Sides) {n : Nat} (msgs pads : Fin n → Block × Block) (choices q : Fin n → Bool)
    (hs : s.sender = .randomOt msgs) (hr : s.receiver = .randomOt choices) :
    Step s .randomOt { s with sender := .recvEq msgs pads, receiver := .sendEq choices q (select pads q) }
  | sendEq (s : Sides) {n : Nat} (choices q : Fin n → Bool) (rq : Fin n → Block)
    (hr : s.receiver = .sendEq choices q rq) :
    Step s .sendEq { s with receiver := .recvMasked choices rq, toSender := s.toSender ++ packEq choices q }
  | recvEq (s : Sides) {n : Nat} (msgs pads : Fin n → Block × Block)
    (hs : s.sender = .recvEq msgs pads) (hlen : (n + 7) / 8 ≤ s.toSender.length) :
    Step s .recvEq
      { s with
        sender := .idle
        sent := s.sent ++ [.ok (List.ofFn msgs)]
        toSender := s.toSender.drop ((n + 7) / 8)
        toReceiver := s.toReceiver ++
          NetPeer.vecBytes (maskedPairs msgs pads (s.toSender.take ((n + 7) / 8))) }
  | recvMasked (s : Sides) {n : Nat} (choices : Fin n → Bool) (rq : Fin n → Block)
    (hr : s.receiver = .recvMasked choices rq) (hlen : 16 * (2 * n) ≤ s.toReceiver.length) :
    Step s .recvMasked
      { s with
        receiver := .idle
        received := s.received ++
          [.ok (unmask choices rq (NetPeer.vecOf 128 (2 * n) (s.toReceiver.take (16 * (2 * n)))))]
        toReceiver := s.toReceiver.drop (16 * (2 * n)) }

/-! The tasks are the ones of `ot_send` and `ot_receive`. -/

/-- A task that is refused or empty ends at once; any other goes to the random OT. -/
theorem startSend_cases (b : OtCall) :
    (b.sends = false ∧ ∃ r, startSend b = (.idle, [r]) ∧
      ∀ x peer, otSendOver b.n x peer b.msgs = Party.ofExcept r) ∨
    (b.sends = true ∧ ∃ msgs : Fin b.n → Block × Block, b.msgs = List.ofFn msgs ∧
      startSend b = (.randomOt msgs, []) ∧
      ∀ x, (do return .sent (← otSendOver b.n x .P1 b.msgs) : Party Entropy Outcome) =
        x >>= sendMasked msgs) := by
  obtain ⟨n, msgs, choices⟩ := b
  by_cases hlen : msgs.length = n
  · subst hlen
    by_cases hn : msgs.length = 0
    · refine .inl ⟨by simp [OtCall.sends, hn], .ok msgs, ?_, ?_⟩
      · rw [startSend, dif_pos rfl, if_pos hn]
      · intro x peer
        rw [otSendOver, dif_pos rfl, if_pos hn]
        rfl
    · refine .inr ⟨by simp [OtCall.sends, hn], msgs.get, (List.ofFn_get msgs).symm, ?_, ?_⟩
      · rw [startSend, dif_pos rfl, if_neg hn]
        rfl
      · intro x
        rw [← otSendOver_pos (Nat.pos_of_ne_zero hn) x, List.ofFn_get]
  · refine .inl ⟨by simp [OtCall.sends, hlen],
      .error (.runtimeError "ot_send: msgs.size() must equal n"), ?_, ?_⟩
    · rw [startSend, dif_neg hlen]
    · intro x peer
      rw [otSendOver, dif_neg hlen]
      rfl

theorem startReceive_cases (b : OtCall) :
    (b.receives = false ∧ ∃ r, startReceive b = (.idle, [r]) ∧ (∀ l, r = .ok l → l = [] ∧ b.choices = []) ∧
      ∀ x peer, otReceiveOver b.n x peer b.choices = Party.ofExcept r) ∨
    (b.receives = true ∧ ∃ choices : Fin b.n → Bool, b.choices = List.ofFn choices ∧
      startReceive b = (.randomOt choices, []) ∧
      ∀ x, (do return .received (← otReceiveOver b.n x .P0 b.choices) : Party Entropy Outcome) =
        x >>= fun r => receiveMasked choices r.1 r.2) := by
  obtain ⟨n, msgs, choices⟩ := b
  by_cases hlen : choices.length = n
  · subst hlen
    by_cases hn : choices.length = 0
    · refine .inl ⟨by simp [OtCall.receives, hn], .ok [], ?_, ?_, ?_⟩
      · rw [startReceive, dif_pos rfl, if_pos hn]
      · intro l hl
        exact ⟨(Except.ok.inj hl).symm, List.eq_nil_of_length_eq_zero hn⟩
      · intro x peer
        rw [otReceiveOver, dif_pos rfl, if_pos hn]
        rfl
    · refine .inr ⟨by simp [OtCall.receives, hn], choices.get, (List.ofFn_get choices).symm, ?_, ?_⟩
      · rw [startReceive, dif_pos rfl, if_neg hn]
        rfl
      · intro x
        rw [← otReceiveOver_pos (Nat.pos_of_ne_zero hn) x, List.ofFn_get]
  · refine .inl ⟨by simp [OtCall.receives, hlen],
      .error (.runtimeError "ot_receive: choices.size() must equal n"), ?_, ?_, ?_⟩
    · rw [startReceive, dif_neg hlen]
    · intro l hl
      cases hl
    · intro x peer
      rw [otReceiveOver, dif_neg hlen]
      rfl

section
variable {n : Nat} (msgs pads : Fin n → Block × Block) (choices q : Fin n → Bool) (rq : Fin n → Block)
  (e : Entropy)

/-- The sender behind the random OT: the step `recvEq`. -/
theorem sendMasked_run : (sendMasked msgs pads).run e = .recv .P1 ((n + 7) / 8) fun eqBytes =>
    .send .P1 (NetPeer.vecBytes (maskedPairs msgs pads eqBytes))
      (.ret (.ok (.sent (List.ofFn msgs)), e)) := rfl

/-- The receiver behind the random OT: the steps `sendEq` and `recvMasked`. -/
theorem receiveMasked_run : (receiveMasked choices q rq).run e = .send .P0 (packEq choices q)
    (.recv .P0 (16 * (2 * n)) fun masked =>
      .ret (.ok (.received (unmask choices rq (NetPeer.vecOf 128 (2 * n) masked))), e)) := rfl

end

/-! Which batches meet. -/

section
variable (batches : List OtCall)

/-- How many of the first `i` batches reach the socket at the sender. -/
def sendsBefore (i : Nat) : Nat := (batches.take i).countP OtCall.sends

/-- How many of the first `k` batches reach the socket at the receiver. -/
def receivesBefore (k : Nat) : Nat := (batches.take k).countP OtCall.receives

/-- The sender's batch `i`, which reaches the socket. -/
def SendsAt (i : Nat) {n : Nat} (msgs : Fin n → Block × Block) : Prop :=
  ∃ b, batches[i]? = some b ∧ b.sends = true ∧ b.n = n ∧ b.msgs = List.ofFn msgs

/-- The receiver's batch `k`, which reaches the socket. -/
def ReceivesAt (k : Nat) {n : Nat} (choices : Fin n → Bool) : Prop :=
  ∃ b, batches[k]? = some b ∧ b.receives = true ∧ b.n = n ∧ b.choices = List.ofFn choices

/-- The sender's batch `i` and the receiver's batch `k` are at the socket as the batches of one
    number. -/
def Paired (i k : Nat) : Prop :=
  (∃ b, batches[i]? = some b ∧ b.sends = true) ∧ (∃ b, batches[k]? = some b ∧ b.receives = true) ∧
    sendsBefore batches i = receivesBefore batches k

/-- They are of one size, and so are all the pairs before them: the random OTs up to theirs
    take place. -/
def Meets (i k : Nat) : Prop :=
  Paired batches i k ∧ ∀ i' k', Paired batches i' k' → i' ≤ i →
    batches[i']?.map OtCall.n = batches[k']?.map OtCall.n

/-- What future `k` of the receiver may resolve to: nothing for an empty batch, else what its
    choices select from the sender's batch that it meets. -/
def Resolved (k : Nat) (outputs : List Block) : Prop :=
  (∃ b, batches[k]? = some b ∧ b.choices = [] ∧ outputs = []) ∨
  ∃ (i n : Nat) (msgs : Fin n → Block × Block) (choices : Fin n → Bool), Meets batches i k ∧
    SendsAt batches i msgs ∧ ReceivesAt batches k choices ∧
    outputs = List.ofFn fun j => pick (msgs j) (choices j)

end

/-! Counting batches. -/

section
variable {batches : List OtCall} {acc : OtCall → Bool} {i j : Nat} {b : OtCall}

theorem countP_take_succ (h : batches[i]? = some b) :
    (batches.take (i + 1)).countP acc = (batches.take i).countP acc + if acc b then 1 else 0 := by
  rw [List.take_add_one, h, List.countP_append]
  simp only [Option.toList_some, List.countP_singleton]

variable (batches acc) in
theorem countP_take_mono (h : i ≤ j) : (batches.take i).countP acc ≤ (batches.take j).countP acc :=
  (List.take_sublist_take_left h).countP_le

/-- A batch that counts is at the place of its number. -/
theorem countP_take_lt (hb : batches[i]? = some b) (hacc : acc b = true) (h : i < j) :
    (batches.take i).countP acc < (batches.take j).countP acc := by
  have hmono := countP_take_mono batches acc (show i + 1 ≤ j from h)
  rw [countP_take_succ hb, if_pos hacc] at hmono
  omega

end

/-! The invariant. -/

/-- The sender has met a batch that is not resolved yet. -/
def SenderAt.met : SenderAt → Nat
  | .recvEq _ _ => 1
  | _ => 0

/-- The sender has taken a batch that is not resolved yet. -/
def SenderAt.busy : SenderAt → Nat
  | .idle => 0
  | _ => 1

def ReceiverAt.met : ReceiverAt → Nat
  | .sendEq _ _ _ => 1
  | .recvMasked _ _ => 1
  | _ => 0

def ReceiverAt.busy : ReceiverAt → Nat
  | .idle => 0
  | _ => 1

section
variable (batches : List OtCall)

/-- The sender is at work on batch `i`. -/
def SenderAt.On (i : Nat) : SenderAt → Prop
  | .idle => True
  | .randomOt msgs => SendsAt batches i msgs
  | .recvEq msgs _ => SendsAt batches i msgs

/-- The receiver is at work on batch `k`. -/
def ReceiverAt.On (k : Nat) : ReceiverAt → Prop
  | .idle => True
  | .randomOt choices => ReceivesAt batches k choices
  | .sendEq choices _ _ => ReceivesAt batches k choices
  | .recvMasked choices _ => ReceivesAt batches k choices

/-- What the sides know of each other and what is on the streams, the receiver being at
    batch `k`. -/
inductive Link (k : Nat) : SenderAt → ReceiverAt → List Byte → List Byte → Prop
  | apart {s : SenderAt} {r : ReceiverAt} (hs : s.met = 0) (hr : r.met = 0) : Link k s r [] []
  | met {i n : Nat} {msgs pads : Fin n → Block × Block} {choices q : Fin n → Bool}
    (hmeets : Meets batches i k) (hsends : SendsAt batches i msgs) :
    Link k (.recvEq msgs pads) (.sendEq choices q (select pads q)) [] []
  | asked {i n : Nat} {msgs pads : Fin n → Block × Block} {choices q : Fin n → Bool}
    (hmeets : Meets batches i k) (hsends : SendsAt batches i msgs) :
    Link k (.recvEq msgs pads) (.recvMasked choices (select pads q)) (packEq choices q) []
  | answered {s : SenderAt} {i n : Nat} {msgs pads : Fin n → Block × Block} {choices q : Fin n → Bool}
    (hs : s.met = 0) (hmeets : Meets batches i k) (hsends : SendsAt batches i msgs) :
    Link k s (.recvMasked choices (select pads q)) []
      (NetPeer.vecBytes (maskedPairs msgs pads (packEq choices q)))

/-- What holds along every run. -/
structure Inv (s : Sides) : Prop where
  sendOrder : s.sendQueue ++ s.sendTodo = batches.drop (s.sent.length + s.sender.busy)
  recvOrder : s.recvQueue ++ s.recvTodo = batches.drop (s.received.length + s.receiver.busy)
  sender : s.sender.On batches s.sent.length
  receiver : s.receiver.On batches s.received.length
  met : sendsBefore batches s.sent.length + s.sender.met =
    receivesBefore batches s.received.length + s.receiver.met
  sizes : ∀ i k, Paired batches i k → sendsBefore batches i < sendsBefore batches s.sent.length + s.sender.met →
    batches[i]?.map OtCall.n = batches[k]?.map OtCall.n
  link : Link batches s.received.length s.sender s.receiver s.toSender s.toReceiver
  resolved : ∀ k outputs, s.received[k]? = some (.ok outputs) → Resolved batches k outputs

end

section
variable {batches : List OtCall} {i k n : Nat} {msgs pads : Fin n → Block × Block}
  {choices q : Fin n → Bool} {rq : Fin n → Block} {s s' : SenderAt} {r : ReceiverAt}
  {toSender toReceiver : List Byte}

theorem SendsAt.pos (h : SendsAt batches i msgs) : 0 < n := by
  obtain ⟨b, -, hsends, rfl, -⟩ := h
  rw [OtCall.sends, decide_eq_true_iff] at hsends
  exact Nat.pos_of_ne_zero hsends.2

theorem ReceivesAt.pos (h : ReceivesAt batches k choices) : 0 < n := by
  obtain ⟨b, -, hreceives, rfl, -⟩ := h
  rw [OtCall.receives, decide_eq_true_iff] at hreceives
  exact Nat.pos_of_ne_zero hreceives.2

variable (msgs pads choices q) in
theorem payload_length :
    (NetPeer.vecBytes (maskedPairs msgs pads (packEq choices q))).length = 16 * (2 * n) := by
  rw [NetPeer.vecBytes_length, maskedPairs_length]
  rfl

/-- What the receiver reads from the payload of the sender that it met. -/
theorem unmask_payload : unmask choices (select pads q)
    (NetPeer.vecOf 128 (2 * n) (NetPeer.vecBytes (maskedPairs msgs pads (packEq choices q)))) =
    List.ofFn fun j => pick (msgs j) (choices j) := by
  have hread : NetPeer.vecOf 128 (2 * n) (NetPeer.vecBytes (maskedPairs msgs pads (packEq choices q))) =
      maskedPairs msgs pads (packEq choices q) := by
    simpa [maskedPairs_length] using NetPeer.vecOf_vecBytes (maskedPairs msgs pads (packEq choices q)) []
  rw [hread, unmask_masked]

/-! What the steps do to the link. -/

theorem Link.sender (h : Link batches k s r toSender toReceiver) (hs : s.met = 0) (hs' : s'.met = 0) :
    Link batches k s' r toSender toReceiver := by
  cases h with
  | apart _ hr => exact .apart hs' hr
  | met _ _ => cases hs
  | asked _ _ => cases hs
  | answered _ hmeets hsends => exact .answered hs' hmeets hsends

theorem Link.unmet (h : Link batches k s r toSender toReceiver) (hr : r.met = 0) :
    toSender = [] ∧ toReceiver = [] ∧ s.met = 0 := by
  cases h with
  | apart hs _ => exact ⟨rfl, rfl, hs⟩
  | met _ _ => cases hr
  | asked _ _ => cases hr
  | answered _ _ _ => cases hr

theorem Link.sendEq (h : Link batches k s (.sendEq choices q rq) toSender toReceiver) :
    Link batches k s (.recvMasked choices rq) (toSender ++ packEq choices q) toReceiver := by
  cases h with
  | apart _ hr => cases hr
  | met hmeets hsends => exact .asked hmeets hsends

theorem Link.recvEq (h : Link batches k (.recvEq msgs pads) r toSender toReceiver)
    (hn : 0 < n) (hlen : (n + 7) / 8 ≤ toSender.length) :
    Link batches k .idle r (toSender.drop ((n + 7) / 8))
      (toReceiver ++ NetPeer.vecBytes (maskedPairs msgs pads (toSender.take ((n + 7) / 8)))) := by
  cases h with
  | apart hs _ => cases hs
  | met _ _ =>
    rw [List.length_nil] at hlen
    omega
  | @asked i _ _ _ choices q hmeets hsends =>
    have hpack : (packEq choices q).length = (n + 7) / 8 := pack_length _ _
    rw [List.drop_of_length_le hpack.le, List.take_of_length_le hpack.le, List.nil_append]
    exact .answered rfl hmeets hsends
  | answered hs _ _ => cases hs

/-- The payload of the batch that the receiver met. -/
theorem Link.recvMasked (h : Link batches k s (.recvMasked choices rq) toSender toReceiver)
    (hn : 0 < n) (hlen : 16 * (2 * n) ≤ toReceiver.length) :
    s.met = 0 ∧ toSender = [] ∧ toReceiver.drop (16 * (2 * n)) = [] ∧
      ∃ (i : Nat) (msgs : Fin n → Block × Block), Meets batches i k ∧ SendsAt batches i msgs ∧
        unmask choices rq (NetPeer.vecOf 128 (2 * n) (toReceiver.take (16 * (2 * n)))) =
          List.ofFn fun j => pick (msgs j) (choices j) := by
  cases h with
  | apart _ hr => cases hr
  | asked _ _ =>
    rw [List.length_nil] at hlen
    omega
  | @answered _ i _ msgs pads _ q hs hmeets hsends =>
    have hbytes := payload_length msgs pads choices q
    refine ⟨hs, rfl, List.drop_of_length_le hbytes.le, i, msgs, hmeets, hsends, ?_⟩
    rw [List.take_of_length_le hbytes.le, unmask_payload]

end

/-! Runs. -/

section
variable {batches : List OtCall} {s t : Sides} {e : Event}

/-- A future more. -/
theorem resolved_concat {α : Type} {P : Nat → α → Prop} {futures : List (Except Err α)} {r : Except Err α}
    (h : ∀ k a, futures[k]? = some (.ok a) → P k a) (hr : ∀ a, r = .ok a → P futures.length a) :
    ∀ k a, (futures ++ [r])[k]? = some (.ok a) → P k a := by
  intro k a hk
  rcases Nat.lt_trichotomy k futures.length with hlt | heq | hgt
  · rw [List.getElem?_append_left hlt] at hk
    exact h k a hk
  · subst heq
    rw [List.getElem?_concat_length] at hk
    exact hr a (Option.some.inj hk)
  · rw [List.getElem?_eq_none (by rw [List.length_append, List.length_singleton]; omega)] at hk
    cases hk

/-- The next task. -/
theorem next_of_drop {l : List OtCall} {k : Nat} {b : OtCall} {rest : List OtCall}
    (h : b :: rest = l.drop k) : l[k]? = some b ∧ rest = l.drop (k + 1) := by
  constructor
  · have hget := congrArg (fun l => l[0]?) h
    simp only [List.getElem?_drop, List.getElem?_cons_zero, Nat.add_zero] at hget
    exact hget.symm
  · rw [← List.drop_drop, ← h]
    rfl

theorem inv_init : Inv batches (init batches) where
  sendOrder := rfl
  recvOrder := rfl
  sender := trivial
  receiver := trivial
  met := rfl
  sizes := by
    intro i k _ h
    exact absurd h (Nat.not_lt_zero _)
  link := .apart rfl rfl
  resolved := by
    intro k outputs h
    cases h

/-- The pair at the socket meets. -/
theorem Inv.meets (hi : Inv batches s) {n : Nat} {msgs : Fin n → Block × Block} {choices : Fin n → Bool}
    (hs : s.sender = .randomOt msgs) (hr : s.receiver = .randomOt choices) :
    SendsAt batches s.sent.length msgs ∧ Meets batches s.sent.length s.received.length := by
  have hsends : SendsAt batches s.sent.length msgs := by
    have hon := hi.sender
    rwa [hs] at hon
  have hreceives : ReceivesAt batches s.received.length choices := by
    have hon := hi.receiver
    rwa [hr] at hon
  have hmet : sendsBefore batches s.sent.length = receivesBefore batches s.received.length := by
    have hmet := hi.met
    rwa [hs, hr] at hmet
  obtain ⟨b, hb, hacc, hbn, hmsgs⟩ := hsends
  obtain ⟨b', hb', hacc', hbn', -⟩ := hreceives
  refine ⟨⟨b, hb, hacc, hbn, hmsgs⟩, ⟨⟨b, hb, hacc⟩, ⟨b', hb', hacc'⟩, hmet⟩, ?_⟩
  intro i' k' hpaired hle
  obtain ⟨⟨c, hc, hcacc⟩, ⟨c', hc', hcacc'⟩, hcount⟩ := hpaired
  rcases Nat.lt_or_eq_of_le hle with hlt | rfl
  · refine hi.sizes i' k' ⟨⟨c, hc, hcacc⟩, ⟨c', hc', hcacc'⟩, hcount⟩ ?_
    exact Nat.lt_of_lt_of_le (countP_take_lt hc hcacc hlt) (Nat.le_add_right _ _)
  · -- the receiver has one batch of this number
    have hk : k' = s.received.length := by
      rcases Nat.lt_trichotomy k' s.received.length with hlt | heq | hgt
      · have := countP_take_lt hc' hcacc' hlt
        rw [receivesBefore] at hmet hcount
        omega
      · exact heq
      · have := countP_take_lt hb' hacc' hgt
        rw [receivesBefore] at hmet hcount
        omega
    rw [hk, hb, hb', Option.map_some, Option.map_some, hbn, hbn']

theorem Inv.takeSend (hi : Inv batches s) {b : OtCall} {rest : List OtCall} (hs : s.sender = .idle)
    (h : s.sendQueue = b :: rest) : Inv batches
      { s with sendQueue := rest, sender := (startSend b).1, sent := s.sent ++ (startSend b).2 } := by
  have horder := hi.sendOrder
  have hmet := hi.met
  have hsizes := hi.sizes
  have hlink := hi.link
  rw [hs] at horder hmet hsizes hlink
  rw [h] at horder
  obtain ⟨hb, hrest⟩ := next_of_drop (show b :: (rest ++ s.sendTodo) = batches.drop s.sent.length from horder)
  obtain ⟨hacc, r, hstart, -⟩ | ⟨hacc, msgs, hmsgs, hstart, -⟩ := startSend_cases b
  · -- the future is resolved, and the batch does not count
    have hcount : sendsBefore batches (s.sent ++ [r]).length = sendsBefore batches s.sent.length := by
      rw [List.length_append, List.length_singleton, sendsBefore, countP_take_succ hb, hacc]
      rfl
    rw [hstart]
    refine { hi with sendOrder := ?_, sender := trivial, met := ?_, sizes := ?_, link := hlink }
    · rw [List.length_append]
      exact hrest
    · rw [hcount]
      exact hmet
    · rw [hcount]
      exact hsizes
  · rw [hstart, List.append_nil]
    exact { hi with
      sendOrder := hrest
      sender := ⟨b, hb, hacc, rfl, hmsgs⟩
      met := hmet
      sizes := hsizes
      link := hlink.sender rfl rfl }

theorem Inv.takeReceive (hi : Inv batches s) {b : OtCall} {rest : List OtCall}
    (hr : s.receiver = .idle) (h : s.recvQueue = b :: rest) : Inv batches
      { s with
        recvQueue := rest
        receiver := (startReceive b).1
        received := s.received ++ (startReceive b).2 } := by
  have horder := hi.recvOrder
  have hmet := hi.met
  have hlink := hi.link
  rw [hr] at horder hmet hlink
  rw [h] at horder
  obtain ⟨hb, hrest⟩ :=
    next_of_drop (show b :: (rest ++ s.recvTodo) = batches.drop s.received.length from horder)
  obtain ⟨hts, htr, hunmet⟩ := hlink.unmet rfl
  obtain ⟨hacc, r, hstart, hempty, -⟩ | ⟨hacc, choices, hchoices, hstart, -⟩ := startReceive_cases b
  · have hcount : receivesBefore batches (s.received ++ [r]).length =
        receivesBefore batches s.received.length := by
      rw [List.length_append, List.length_singleton, receivesBefore, countP_take_succ hb, hacc]
      rfl
    rw [hstart]
    refine { hi with recvOrder := ?_, receiver := trivial, met := ?_, link := ?_, resolved := ?_ }
    · rw [List.length_append]
      exact hrest
    · rw [hcount]
      exact hmet
    · rw [hts, htr]
      exact .apart hunmet rfl
    · refine resolved_concat hi.resolved ?_
      intro outputs hout
      obtain ⟨hnil, hnone⟩ := hempty outputs hout
      exact .inl ⟨b, hb, hnone, hnil⟩
  · rw [hstart, List.append_nil]
    refine { hi with
      recvOrder := hrest
      receiver := ⟨b, hb, hacc, rfl, hchoices⟩
      met := hmet
      link := ?_ }
    rw [hts, htr]
    exact .apart hunmet rfl

theorem Inv.randomOt (hi : Inv batches s) {n : Nat} {msgs : Fin n → Block × Block} {choices : Fin n → Bool}
    (hs : s.sender = .randomOt msgs) (hr : s.receiver = .randomOt choices)
    (pads : Fin n → Block × Block) (q : Fin n → Bool) : Inv batches
      { s with sender := .recvEq msgs pads, receiver := .sendEq choices q (select pads q) } := by
  obtain ⟨hsends, hmeets⟩ := hi.meets hs hr
  have hsendOrder := hi.sendOrder
  have hrecvOrder := hi.recvOrder
  have hreceiver := hi.receiver
  have hmet := hi.met
  have hlink := hi.link
  rw [hs] at hsendOrder
  rw [hr] at hrecvOrder hreceiver
  rw [hs, hr] at hmet hlink
  obtain ⟨hts, htr, -⟩ := hlink.unmet rfl
  refine { hi with
    sendOrder := hsendOrder
    recvOrder := hrecvOrder
    sender := hsends
    receiver := hreceiver
    met := congrArg (· + 1) hmet
    sizes := ?_
    link := ?_ }
  · intro i' k' hpaired hlt
    refine hmeets.2 i' k' hpaired ?_
    by_contra hle
    obtain ⟨b, hb, hacc, -⟩ := hsends
    have hcount := countP_take_lt hb hacc (Nat.lt_of_not_le hle)
    change sendsBefore batches i' < sendsBefore batches s.sent.length + 1 at hlt
    rw [sendsBefore, sendsBefore] at hlt
    omega
  · rw [hts, htr]
    exact .met hmeets hsends

theorem Inv.recvEq (hi : Inv batches s) {n : Nat} {msgs pads : Fin n → Block × Block}
    (hs : s.sender = .recvEq msgs pads) (hlen : (n + 7) / 8 ≤ s.toSender.length) : Inv batches
      { s with
        sender := .idle
        sent := s.sent ++ [.ok (List.ofFn msgs)]
        toSender := s.toSender.drop ((n + 7) / 8)
        toReceiver := s.toReceiver ++
          NetPeer.vecBytes (maskedPairs msgs pads (s.toSender.take ((n + 7) / 8))) } := by
  have horder := hi.sendOrder
  have hsender := hi.sender
  have hmet := hi.met
  have hsizes := hi.sizes
  have hlink := hi.link
  rw [hs] at horder hsender hmet hsizes hlink
  have hn := SendsAt.pos hsender
  obtain ⟨b, hb, hacc, -⟩ := hsender
  have hcount : ∀ r, sendsBefore batches (s.sent ++ [r]).length =
      sendsBefore batches s.sent.length + 1 := by
    intro r
    rw [List.length_append, List.length_singleton, sendsBefore, countP_take_succ hb, hacc]
    rfl
  refine { hi with
    sendOrder := ?_
    sender := trivial
    met := ?_
    sizes := ?_
    link := hlink.recvEq hn hlen }
  · rw [List.length_append]
    exact horder
  · rw [hcount]
    exact hmet
  · rw [hcount]
    exact hsizes

theorem Inv.recvMasked (hi : Inv batches s) {n : Nat} {choices : Fin n → Bool} {rq : Fin n → Block}
    (hr : s.receiver = .recvMasked choices rq) (hlen : 16 * (2 * n) ≤ s.toReceiver.length) : Inv batches
      { s with
        receiver := .idle
        received := s.received ++
          [.ok (unmask choices rq (NetPeer.vecOf 128 (2 * n) (s.toReceiver.take (16 * (2 * n)))))]
        toReceiver := s.toReceiver.drop (16 * (2 * n)) } := by
  have horder := hi.recvOrder
  have hreceiver := hi.receiver
  have hmet := hi.met
  have hlink := hi.link
  rw [hr] at horder hreceiver hmet hlink
  obtain ⟨hunmet, hts, htr, i, msgs, hmeets, hsends, houtputs⟩ :=
    hlink.recvMasked (ReceivesAt.pos hreceiver) hlen
  have hreceives := hreceiver
  obtain ⟨b, hb, hacc, -⟩ := hreceiver
  refine { hi with
    recvOrder := ?_
    receiver := trivial
    met := ?_
    link := ?_
    resolved := ?_ }
  · rw [List.length_append]
    exact horder
  · rw [List.length_append, List.length_singleton, receivesBefore, countP_take_succ hb, hacc]
    exact hmet
  · rw [hts, htr]
    exact .apart hunmet rfl
  · refine resolved_concat hi.resolved ?_
    intro outputs hout
    exact .inr ⟨i, n, msgs, choices, hmeets, hsends, hreceives, (Except.ok.inj hout).symm.trans houtputs⟩

theorem Inv.step (hi : Inv batches s) (h : Step s e t) : Inv batches t := by
  cases h with
  | enqueueSend b rest h =>
    refine { hi with sendOrder := ?_ }
    rw [List.append_assoc, List.singleton_append, ← h]
    exact hi.sendOrder
  | enqueueReceive b rest h =>
    refine { hi with recvOrder := ?_ }
    rw [List.append_assoc, List.singleton_append, ← h]
    exact hi.recvOrder
  | takeSend b rest hs h => exact hi.takeSend hs h
  | takeReceive b rest hr h => exact hi.takeReceive hr h
  | randomOt msgs pads choices q hs hr => exact hi.randomOt hs hr pads q
  | sendEq choices q rq hr =>
    have horder := hi.recvOrder
    have hreceiver := hi.receiver
    have hmet := hi.met
    have hlink := hi.link
    rw [hr] at horder hreceiver hmet hlink
    exact { hi with recvOrder := horder, receiver := hreceiver, met := hmet, link := hlink.sendEq }
  | recvEq msgs pads hs hlen => exact hi.recvEq hs hlen
  | recvMasked choices rq hr hlen => exact hi.recvMasked hr hlen

theorem inv_of_run {es : List Event} (h : Run Step (init batches) es s) : Inv batches s :=
  h.inv (P := fun _ s => Inv batches s) inv_init fun _ _ _ _ hi hstep => hi.step hstep

/-- In every run a future of the receiver that resolves to a value resolves to what its
    choices select from the sender's batch that it meets. -/
theorem received_meets {es : List Event} (h : Run Step (init batches) es s) {k : Nat} {outputs : List Block}
    (hk : s.received[k]? = some (.ok outputs)) : Resolved batches k outputs :=
  (inv_of_run h).resolved k outputs hk

end

/-! A run to any pair that meets. -/

section
variable {batches : List OtCall} {s : Sides} {i k : Nat}

/-- Everything is enqueued, the sender has finished its first `i` batches and the receiver
    its first `k`. -/
structure Between (batches : List OtCall) (i k : Nat) (s : Sides) : Prop where
  sendQueue : s.sendQueue = batches.drop i
  sender : s.sender = .idle
  sent : s.sent.length = i
  recvQueue : s.recvQueue = batches.drop k
  receiver : s.receiver = .idle
  received : s.received.length = k
  toSender : s.toSender = []
  toReceiver : s.toReceiver = []

/-- Some run leads there. -/
def Reached (batches : List OtCall) (i k : Nat) : Prop :=
  ∃ es s, Run Step (init batches) es s ∧ Between batches i k s

theorem enqueueSend_all (todo : List OtCall) (h : s.sendTodo = todo) :
    ∃ es, Run Step s es { s with sendTodo := [], sendQueue := s.sendQueue ++ todo } := by
  induction todo generalizing s with
  | nil =>
    refine ⟨[], ?_⟩
    rw [List.append_nil, ← h]
    exact .refl
  | cons b todo ih =>
    obtain ⟨es, hes⟩ := ih (s := { s with sendTodo := todo, sendQueue := s.sendQueue ++ [b] }) rfl
    refine ⟨[.enqueueSend] ++ es, (Run.single (.enqueueSend s b todo h)).trans ?_⟩
    rwa [List.append_assoc] at hes

theorem enqueueReceive_all (todo : List OtCall) (h : s.recvTodo = todo) :
    ∃ es, Run Step s es { s with recvTodo := [], recvQueue := s.recvQueue ++ todo } := by
  induction todo generalizing s with
  | nil =>
    refine ⟨[], ?_⟩
    rw [List.append_nil, ← h]
    exact .refl
  | cons b todo ih =>
    obtain ⟨es, hes⟩ := ih (s := { s with recvTodo := todo, recvQueue := s.recvQueue ++ [b] }) rfl
    refine ⟨[.enqueueReceive] ++ es, (Run.single (.enqueueReceive s b todo h)).trans ?_⟩
    rwa [List.append_assoc] at hes

theorem reached_start : Reached batches 0 0 := by
  obtain ⟨es, hes⟩ := enqueueSend_all (s := init batches) batches rfl
  obtain ⟨fs, hfs⟩ := enqueueReceive_all
    (s := { init batches with sendTodo := [], sendQueue := [] ++ batches }) batches rfl
  exact ⟨es ++ fs, _, hes.trans hfs, rfl, rfl, rfl, rfl, rfl, rfl, rfl, rfl⟩

theorem drop_of_get {l : List OtCall} {b : OtCall} (h : l[i]? = some b) : l.drop i = b :: l.drop (i + 1) := by
  obtain ⟨hlt, rfl⟩ := List.getElem?_eq_some_iff.mp h
  exact List.drop_eq_getElem_cons hlt

/-- A batch that does not reach the socket is passed over. -/
theorem Reached.skipSend {b : OtCall} (h : Reached batches i k) (hb : batches[i]? = some b)
    (hacc : b.sends = false) : Reached batches (i + 1) k := by
  obtain ⟨es, s, hrun, hs⟩ := h
  obtain ⟨-, r, hstart, -⟩ | ⟨hacc', -⟩ := startSend_cases b
  · have hqueue := hs.sendQueue.trans (drop_of_get hb)
    have hstep := Step.takeSend s b _ hs.sender hqueue
    rw [hstart] at hstep
    refine ⟨_, _, hrun.tail hstep, { hs with sendQueue := rfl, sender := rfl, sent := ?_ }⟩
    rw [List.length_append, List.length_singleton, hs.sent]
  · rw [hacc] at hacc'
    cases hacc'

theorem Reached.skipReceive {b : OtCall} (h : Reached batches i k) (hb : batches[k]? = some b)
    (hacc : b.receives = false) : Reached batches i (k + 1) := by
  obtain ⟨es, s, hrun, hs⟩ := h
  obtain ⟨-, r, hstart, -⟩ | ⟨hacc', -⟩ := startReceive_cases b
  · have hqueue := hs.recvQueue.trans (drop_of_get hb)
    have hstep := Step.takeReceive s b _ hs.receiver hqueue
    rw [hstart] at hstep
    refine ⟨_, _, hrun.tail hstep, { hs with recvQueue := rfl, receiver := rfl, received := ?_ }⟩
    rw [List.length_append, List.length_singleton, hs.received]
  · rw [hacc] at hacc'
    cases hacc'

theorem SendsAt.start {n : Nat} {msgs : Fin n → Block × Block} (h : SendsAt batches i msgs) :
    ∃ b, batches[i]? = some b ∧ startSend b = (.randomOt msgs, []) := by
  obtain ⟨b, hb, hacc, rfl, hmsgs⟩ := h
  refine ⟨b, hb, ?_⟩
  obtain ⟨hacc', -⟩ | ⟨-, msgs', hmsgs', hstart, -⟩ := startSend_cases b
  · rw [hacc] at hacc'
    cases hacc'
  · rw [hstart, List.ofFn_injective (hmsgs'.symm.trans hmsgs)]

theorem ReceivesAt.start {n : Nat} {choices : Fin n → Bool} (h : ReceivesAt batches k choices) :
    ∃ b, batches[k]? = some b ∧ startReceive b = (.randomOt choices, []) := by
  obtain ⟨b, hb, hacc, rfl, hchoices⟩ := h
  refine ⟨b, hb, ?_⟩
  obtain ⟨hacc', -⟩ | ⟨-, choices', hchoices', hstart, -⟩ := startReceive_cases b
  · rw [hacc] at hacc'
    cases hacc'
  · rw [hstart, List.ofFn_injective (hchoices'.symm.trans hchoices)]

/-- Two tasks of one size at the socket run to their ends. -/
theorem exchange_run {n : Nat} {msgs : Fin n → Block × Block} {choices : Fin n → Bool}
    (hs : s.sender = .randomOt msgs) (hr : s.receiver = .randomOt choices) (hts : s.toSender = [])
    (htr : s.toReceiver = []) :
    ∃ es, Run Step s es
      { s with
        sender := .idle
        sent := s.sent ++ [.ok (List.ofFn msgs)]
        receiver := .idle
        received := s.received ++ [.ok (List.ofFn fun j => pick (msgs j) (choices j))] } := by
  obtain ⟨sendTodo, sendQueue, sender, sent, recvTodo, recvQueue, receiver, received, toSender, toReceiver⟩ := s
  subst hs hr hts htr
  let pads : Fin n → Block × Block := fun _ => (0, 0)
  let q : Fin n → Bool := fun _ => false
  have hpack : (packEq choices q).length = (n + 7) / 8 := pack_length _ _
  have hbytes := payload_length msgs pads choices q
  have hmet := Step.randomOt ⟨sendTodo, sendQueue, .randomOt msgs, sent, recvTodo, recvQueue,
    .randomOt choices, received, [], []⟩ msgs pads choices q rfl rfl
  have hasked := (Run.single hmet).tail (.sendEq _ choices q (select pads q) rfl)
  have hanswered := hasked.tail (.recvEq _ msgs pads rfl hpack.ge)
  rw [List.nil_append, List.drop_of_length_le hpack.le, List.take_of_length_le hpack.le,
    List.nil_append] at hanswered
  have hdone := hanswered.tail (.recvMasked _ choices (select pads q) rfl hbytes.ge)
  rw [List.drop_of_length_le hbytes.le, List.take_of_length_le hbytes.le, unmask_payload] at hdone
  exact ⟨_, hdone⟩

/-- Two batches of one size that are next meet. -/
theorem Reached.exchange {n : Nat} {msgs : Fin n → Block × Block} {choices : Fin n → Bool}
    (h : Reached batches i k) (hsends : SendsAt batches i msgs) (hreceives : ReceivesAt batches k choices) :
    ∃ es s, Run Step (init batches) es s ∧ Between batches (i + 1) (k + 1) s ∧
      s.received[k]? = some (.ok (List.ofFn fun j => pick (msgs j) (choices j))) := by
  obtain ⟨es, s, hrun, hs⟩ := h
  obtain ⟨b, hb, hstart⟩ := hsends.start
  obtain ⟨b', hb', hstart'⟩ := hreceives.start
  have hsend : Step s .takeSend { s with sendQueue := batches.drop (i + 1), sender := .randomOt msgs } := by
    have hstep := Step.takeSend s b _ hs.sender (hs.sendQueue.trans (drop_of_get hb))
    rwa [hstart, List.append_nil] at hstep
  have hreceive := Step.takeReceive
    { s with sendQueue := batches.drop (i + 1), sender := .randomOt msgs } b' _ hs.receiver
    (hs.recvQueue.trans (drop_of_get hb'))
  rw [hstart', List.append_nil] at hreceive
  obtain ⟨fs, hfs⟩ := exchange_run
    (s := { s with
      sendQueue := batches.drop (i + 1)
      sender := .randomOt msgs
      recvQueue := batches.drop (k + 1)
      receiver := .randomOt choices }) rfl rfl hs.toSender hs.toReceiver
  refine ⟨_, _, ((hrun.tail hsend).tail hreceive).trans hfs, ⟨rfl, rfl, ?_, rfl, rfl, ?_, ?_, ?_⟩, ?_⟩
  · rw [List.length_append, List.length_singleton, hs.sent]
  · rw [List.length_append, List.length_singleton, hs.received]
  · exact hs.toSender
  · exact hs.toReceiver
  · rw [← hs.received, List.getElem?_concat_length]

/-- The last batch that counts before `i`. -/
theorem exists_previous {acc : OtCall → Bool} {m : Nat} (h : (batches.take i).countP acc = m + 1) :
    ∃ j b, j < i ∧ batches[j]? = some b ∧ acc b = true ∧ (batches.take j).countP acc = m := by
  induction i with
  | zero => cases h
  | succ i ih =>
    cases hb : batches[i]? with
    | none =>
      rw [List.take_add_one, hb, Option.toList_none, List.append_nil] at h
      obtain ⟨j, b, hj, hrest⟩ := ih h
      exact ⟨j, b, by omega, hrest⟩
    | some b =>
      rw [countP_take_succ hb] at h
      cases hacc : acc b with
      | true =>
        rw [hacc, if_pos rfl] at h
        exact ⟨i, b, Nat.lt_succ_self i, hb, hacc, by omega⟩
      | false =>
        rw [hacc, if_neg Bool.false_ne_true] at h
        obtain ⟨j, b, hj, hrest⟩ := ih h
        exact ⟨j, b, by omega, hrest⟩

/-- Up to the same count no batch counts. -/
theorem countP_take_flat {acc : OtCall → Bool} {j : Nat} {b : OtCall} (hb : batches[j]? = some b) (hij : i ≤ j)
    (h : (batches.take (j + 1)).countP acc = (batches.take i).countP acc) :
    acc b = false ∧ (batches.take j).countP acc = (batches.take i).countP acc := by
  have hmono := countP_take_mono batches acc hij
  rw [countP_take_succ hb] at h
  cases hacc : acc b with
  | true =>
    rw [hacc, if_pos rfl] at h
    omega
  | false =>
    rw [hacc, if_neg Bool.false_ne_true] at h
    exact ⟨rfl, by omega⟩

/-- Batches that do not reach the socket are passed over. -/
theorem Reached.skipSends {j : Nat} (h : Reached batches i k) (hij : i ≤ j) (hj : j ≤ batches.length)
    (hcount : sendsBefore batches j = sendsBefore batches i) : Reached batches j k := by
  induction j, hij using Nat.le_induction with
  | base => exact h
  | succ j hij ih =>
    have hb : batches[j]? = some batches[j] := List.getElem?_eq_getElem hj
    obtain ⟨hacc, hflat⟩ := countP_take_flat hb hij hcount
    exact (ih (by omega) hflat).skipSend hb hacc

theorem Reached.skipReceives {j : Nat} (h : Reached batches i k) (hkj : k ≤ j) (hj : j ≤ batches.length)
    (hcount : receivesBefore batches j = receivesBefore batches k) : Reached batches i j := by
  induction j, hkj using Nat.le_induction with
  | base => exact h
  | succ j hkj ih =>
    have hb : batches[j]? = some batches[j] := List.getElem?_eq_getElem hj
    obtain ⟨hacc, hflat⟩ := countP_take_flat hb hkj hcount
    exact (ih (by omega) hflat).skipReceive hb hacc

/-- The vectors of two batches that meet. -/
theorem Meets.vectors (h : Meets batches i k) : ∃ (n : Nat) (msgs : Fin n → Block × Block)
    (choices : Fin n → Bool), SendsAt batches i msgs ∧ ReceivesAt batches k choices := by
  obtain ⟨⟨⟨b, hb, hacc⟩, ⟨b', hb', hacc'⟩, hcount⟩, hsizes⟩ := h
  have hn := hsizes i k ⟨⟨b, hb, hacc⟩, ⟨b', hb', hacc'⟩, hcount⟩ (Nat.le_refl i)
  rw [hb, hb', Option.map_some, Option.map_some, Option.some.injEq] at hn
  obtain ⟨hno, -⟩ | ⟨-, msgs, hmsgs, -⟩ := startSend_cases b
  · rw [hacc] at hno
    cases hno
  obtain ⟨hno, -⟩ | ⟨-, choices, hchoices, -⟩ := startReceive_cases b'
  · rw [hacc'] at hno
    cases hno
  have hreceives : ∃ choices : Fin b'.n → Bool, ReceivesAt batches k choices :=
    ⟨choices, b', hb', hacc', rfl, hchoices⟩
  rw [← hn] at hreceives
  obtain ⟨choices, hreceives⟩ := hreceives
  exact ⟨b.n, msgs, choices, ⟨b, hb, hacc, rfl, hmsgs⟩, hreceives⟩

/-- Two batches that meet are reached, the pairs before them one after the other. -/
theorem reached_of_meets (m : Nat) (h : Meets batches i k) (hm : sendsBefore batches i = m) :
    Reached batches i k := by
  induction m generalizing i k with
  | zero =>
    obtain ⟨⟨⟨b, hb, -⟩, ⟨b', hb', -⟩, hcount⟩, -⟩ := h
    have hi := (List.getElem?_eq_some_iff.mp hb).1
    have hk := (List.getElem?_eq_some_iff.mp hb').1
    have hsent := reached_start.skipSends (Nat.zero_le i) (Nat.le_of_lt hi) hm
    exact hsent.skipReceives (Nat.zero_le k) (Nat.le_of_lt hk) (hcount.symm.trans hm)
  | succ m ih =>
    obtain ⟨⟨⟨b, hb, -⟩, ⟨b', hb', -⟩, hcount⟩, hsizes⟩ := h
    have hi := (List.getElem?_eq_some_iff.mp hb).1
    have hk := (List.getElem?_eq_some_iff.mp hb').1
    obtain ⟨j, c, hj, hc, hacc, hcountj⟩ := exists_previous hm
    obtain ⟨l, c', hl, hc', hacc', hcountl⟩ := exists_previous (hcount.symm.trans hm)
    have hmeets : Meets batches j l :=
      ⟨⟨⟨c, hc, hacc⟩, ⟨c', hc', hacc'⟩, hcountj.trans hcountl.symm⟩,
        fun i' k' hpaired hle => hsizes i' k' hpaired (by omega)⟩
    obtain ⟨n, msgs, choices, hsends, hreceives⟩ := hmeets.vectors
    obtain ⟨es, s, hrun, hbetween, -⟩ := (ih hmeets hcountj).exchange hsends hreceives
    have hmet : Reached batches (j + 1) (l + 1) := ⟨es, s, hrun, hbetween⟩
    have hsent : Reached batches i (l + 1) := by
      refine hmet.skipSends hj (Nat.le_of_lt hi) ?_
      rw [sendsBefore, sendsBefore, countP_take_succ hc, hacc, hcountj]
      exact hm
    refine hsent.skipReceives hl (Nat.le_of_lt hk) ?_
    rw [receivesBefore, receivesBefore, countP_take_succ hc', hacc', hcountl]
    exact hcount.symm.trans hm

/-- Some run resolves a future of the receiver to what its choices select from the sender's batch
    that it meets. -/
theorem received_of_meets {n : Nat} {msgs : Fin n → Block × Block} {choices : Fin n → Bool}
    (h : Meets batches i k) (hsends : SendsAt batches i msgs) (hreceives : ReceivesAt batches k choices) :
    ∃ es s, Run Step (init batches) es s ∧
      s.received[k]? = some (.ok (List.ofFn fun j => pick (msgs j) (choices j))) := by
  obtain ⟨es, s, hrun, -, hk⟩ := (reached_of_meets _ h rfl).exchange hsends hreceives
  exact ⟨es, s, hrun, hk⟩

end

/-! Cross-pairing. -/

/-- The outputs are the messages of the batch that its choices select. -/
def OtCall.Selected (b : OtCall) (outputs : List Block) : Prop :=
  outputs.length = b.choices.length ∧ ∀ (j : Nat) (c : Bool), b.choices[j]? = some c →
    ∃ m, b.msgs[j]? = some m ∧ outputs[j]? = some (pick m c)

/-- In every run a future of `ot_receive` yields messages of its own batch, or an exception,
    or is pending. -/
def NeverCrossed (batches : List OtCall) : Prop :=
  ∀ (es : List Event) (s : Sides), Run Step (init batches) es s → ∀ (k : Nat) (outputs : List Block),
    s.received[k]? = some (.ok outputs) → ∃ b, batches[k]? = some b ∧ b.Selected outputs

/-- The choices of batch `k` select the same messages from batch `i` as from batch `k`. -/
def SameMessages (batches : List OtCall) (i k : Nat) : Prop :=
  ∃ b b', batches[i]? = some b ∧ batches[k]? = some b' ∧ ∀ (j : Nat) (c : Bool), b'.choices[j]? = some c →
    ∃ m m', b.msgs[j]? = some m ∧ b'.msgs[j]? = some m' ∧ pick m c = pick m' c

section
variable {batches : List OtCall} {i k n : Nat} {msgs : Fin n → Block × Block} {choices : Fin n → Bool}
  {b : OtCall} {c : Bool} {j : Nat}

theorem ReceivesAt.get (h : ReceivesAt batches k choices) (hb : batches[k]? = some b)
    (hc : b.choices[j]? = some c) : ∃ hj : j < n, choices ⟨j, hj⟩ = c := by
  obtain ⟨b', hb', -, -, hchoices⟩ := h
  obtain rfl : b = b' := Option.some.inj (hb.symm.trans hb')
  rw [hchoices, List.getElem?_ofFn] at hc
  split at hc
  · next hj => exact ⟨hj, Option.some.inj hc⟩
  · cases hc

theorem SendsAt.get (h : SendsAt batches i msgs) (hb : batches[i]? = some b) (hj : j < n) :
    b.msgs[j]? = some (msgs ⟨j, hj⟩) := by
  obtain ⟨b', hb', -, -, hmsgs⟩ := h
  obtain rfl : b = b' := Option.some.inj (hb.symm.trans hb')
  rw [hmsgs, List.getElem?_ofFn, dif_pos hj]

/-- What the receiver computes is selected from its own batch exactly if that has the same
    messages. -/
theorem selected_iff (hsends : SendsAt batches i msgs) (hreceives : ReceivesAt batches k choices) :
    (∃ b, batches[k]? = some b ∧ b.Selected (List.ofFn fun j => pick (msgs j) (choices j))) ↔
      SameMessages batches i k := by
  obtain ⟨b', hb', -, hn, hchoices⟩ := id hreceives
  obtain ⟨b, hb, -⟩ := id hsends
  have houtput : ∀ {j : Nat} (hj : j < n), (List.ofFn fun j => pick (msgs j) (choices j))[j]? =
      some (pick (msgs ⟨j, hj⟩) (choices ⟨j, hj⟩)) := by
    intro j hj
    rw [List.getElem?_ofFn, dif_pos hj]
  constructor
  · intro ⟨b'', hb'', _, hselected⟩
    obtain rfl : b' = b'' := Option.some.inj (hb'.symm.trans hb'')
    refine ⟨b, b', hb, hb', ?_⟩
    intro j c hc
    obtain ⟨hj, rfl⟩ := hreceives.get hb' hc
    obtain ⟨m, hm, hout⟩ := hselected j _ hc
    rw [houtput hj] at hout
    exact ⟨msgs ⟨j, hj⟩, m, hsends.get hb hj, hm, Option.some.inj hout⟩
  · intro ⟨b₁, b₂, hb₁, hb₂, hsame⟩
    obtain rfl : b' = b₂ := Option.some.inj (hb'.symm.trans hb₂)
    refine ⟨b', hb', by rw [List.length_ofFn, hchoices, List.length_ofFn], ?_⟩
    intro j c hc
    obtain ⟨hj, rfl⟩ := hreceives.get hb' hc
    obtain ⟨m, m', hm, hm', hpick⟩ := hsame j _ hc
    rw [hsends.get hb₁ hj, Option.some.injEq] at hm
    exact ⟨m', hm', by rw [houtput hj, hm, hpick]⟩

/-- Batches of one size meet when they have one number. -/
theorem Paired.meets (h : Paired batches i k) (hn : ∀ b ∈ batches, b.n = n) : Meets batches i k := by
  refine ⟨h, ?_⟩
  intro i' k' hpaired _
  obtain ⟨⟨b, hb, -⟩, ⟨b', hb', -⟩, -⟩ := hpaired
  rw [hb, hb', Option.map_some, Option.map_some, hn b (List.mem_of_getElem? hb),
    hn b' (List.mem_of_getElem? hb')]

/-- A batch has its own messages. -/
theorem sameMessages_self (hsends : SendsAt batches i msgs) (hreceives : ReceivesAt batches i choices) :
    SameMessages batches i i := by
  obtain ⟨b, hb, -⟩ := id hsends
  refine ⟨b, b, hb, hb, ?_⟩
  intro j c hc
  obtain ⟨hj, -⟩ := hreceives.get hb hc
  exact ⟨_, _, hsends.get hb hj, hsends.get hb hj, rfl⟩

end

/-- No future yields messages of another batch exactly if the batches that meet at the socket are
    the same batch on both sides, or have the chosen messages in common. -/
theorem never_crossed_iff (batches : List OtCall) :
    NeverCrossed batches ↔ ∀ i k, Meets batches i k → i = k ∨ SameMessages batches i k := by
  constructor
  · intro h i k hmeets
    obtain ⟨n, msgs, choices, hsends, hreceives⟩ := hmeets.vectors
    obtain ⟨es, s, hrun, hk⟩ := received_of_meets hmeets hsends hreceives
    exact .inr ((selected_iff hsends hreceives).mp (h es s hrun k _ hk))
  · intro h es s hrun k outputs hk
    obtain ⟨b, hb, hnone, rfl⟩ | ⟨i, n, msgs, choices, hmeets, hsends, hreceives, rfl⟩ :=
      received_meets hrun hk
    · -- an empty batch
      refine ⟨b, hb, congrArg List.length hnone.symm, ?_⟩
      intro j c hc
      rw [hnone] at hc
      cases hc
    · refine (selected_iff hsends hreceives).mpr ?_
      obtain rfl | hsame := h i k hmeets
      · exact sameMessages_self hsends hreceives
      · exact hsame

/-- The sender refuses its first batch, and the receiver's first future yields the second
    batch's message. -/
theorem crossed_of_refused : ¬ NeverCrossed [⟨1, [], [true]⟩, ⟨1, [(7, 8)], [true]⟩] := by
  intro h
  have hsends : SendsAt [⟨1, [], [true]⟩, ⟨1, [(7, 8)], [true]⟩] 1 (fun _ : Fin 1 => (7, 8)) :=
    ⟨_, rfl, rfl, rfl, rfl⟩
  have hreceives : ReceivesAt [⟨1, [], [true]⟩, ⟨1, [(7, 8)], [true]⟩] 0 (fun _ : Fin 1 => true) :=
    ⟨_, rfl, rfl, rfl, rfl⟩
  have hmeets : Meets [⟨1, [], [true]⟩, ⟨1, [(7, 8)], [true]⟩] 1 0 :=
    Paired.meets (n := 1) ⟨⟨_, rfl, rfl⟩, ⟨_, rfl, rfl⟩, rfl⟩ (by simp)
  obtain ⟨es, s, hrun, hk⟩ := received_of_meets hmeets hsends hreceives
  obtain ⟨b, hb, -, hselected⟩ := h es s hrun 0 _ hk
  obtain rfl := Option.some.inj hb
  obtain ⟨m, hm, -⟩ := hselected 0 true rfl
  cases hm

end Mpc.OtPairing
