import Mpc.Shares
import Mpc.Types
import Mpc.Lib.BitPack

/- Chosen-message oblivious transfer (ot_manager.hpp). Both sides first run a random
   OT: the sender ends with two pads for each transfer, the receiver with random
   choices `q` and the pad that each of them selects. The receiver then sends one bit
   for each transfer, whether its real choice is `q`, and the sender masks the messages
   with the pads in the order that bit says. P0 is the sender and P1 the receiver of
   the socket. SimplestOT is a parameter. A vector of a fixed size `n` is a function on
   `Fin n`, and what a task's PRNG returns is the side's `Entropy`. -/
namespace Mpc
open Fifo Diamond LE BitPack

/-- `pair[b]`. -/
def pick (pair : Block × Block) (b : Bool) : Block := if b then pair.2 else pair.1

/-- SimplestOT's two sides over a socket to `peer`, on `n` transfers. -/
structure SimplestOt where
  send : {n : Nat} → NetPeer → (Fin n → Block × Block) → Party Entropy (Fin n → Block × Block)
  receive : {n : Nat} → NetPeer → (Fin n → Bool) → Party Entropy (Fin n → Block)

/-! The PRNG's draws. -/

/-- Two blocks for each of `n` transfers. -/
def randomPads (n : Nat) : Party Entropy (Fin n → Block × Block) := do
  let e ← Party.get
  Party.set (e.after 16 (2 * n))
  return fun i => ((e.after 16 (2 * i)).word 128, (e.after 16 (2 * i + 1)).word 128)

/-- `BitVector::randomize`: it fills whole blocks. -/
def randomize (n : Nat) : Party Entropy (Fin n → Bool) := do
  let e ← Party.get
  let bytes := 16 * ((n + 127) / 128)
  Party.set (e.advance bytes)
  return fun i => bit (e.take bytes) i

/-! The sender. -/

/-- The payload: `masked[2 * i]` and `masked[2 * i + 1]` for each `i`. -/
def maskedPairs {n : Nat} (msgs randomPads : Fin n → Block × Block) (eqBytes : List Byte) :
    List Block :=
  (List.finRange n).flatMap fun i : Fin n =>
    let eq := bit eqBytes i
    [(msgs i).1 ^^^ pick (randomPads i) (if eq then false else true),
      (msgs i).2 ^^^ pick (randomPads i) (if eq then true else false)]

/-- `ot_send` with its first step, the random OT, as an argument. -/
def otSendOver (n : Nat) (randomOt : Party Entropy (Fin n → Block × Block)) (peer : NetPeer)
    (msgs : List (Block × Block)) : Party Entropy (List (Block × Block)) :=
  if h : msgs.length = n then
    if n = 0 then return msgs
    else do
      let randomPads ← randomOt
      let eqBytes ← Party.asyncRead peer ((n + 7) / 8)
      Party.asyncWrite peer
        (NetPeer.vecBytes (maskedPairs (fun i => msgs.get (i.cast h.symm)) randomPads eqBytes))
      return msgs
  else Party.throw (.runtimeError "ot_send: msgs.size() must equal n")

def otSend (ot : SimplestOt) (peer : NetPeer) (n : Nat) (msgs : List (Block × Block)) :
    Party Entropy (List (Block × Block)) :=
  otSendOver n (do
    let pads ← randomPads n
    ot.send peer pads) peer msgs

/-! The receiver. -/

/-- The bits `eq = (c == q)`. -/
def packEq {n : Nat} (choices q : Fin n → Bool) : List Byte :=
  pack n fun i => if h : i < n then choices ⟨i, h⟩ == q ⟨i, h⟩ else false

/-- `outputs[i]`, from the payload. -/
def unmask {n : Nat} (choices : Fin n → Bool) (rq : Fin n → Block) (masked : List Block) :
    List Block :=
  List.ofFn fun i : Fin n => masked.getD (2 * i + if choices i then 1 else 0) 0 ^^^ rq i

/-- `ot_receive` with its first step, the random OT, as an argument. -/
def otReceiveOver (n : Nat) (randomOt : Party Entropy ((Fin n → Bool) × (Fin n → Block)))
    (peer : NetPeer) (choices : List Bool) : Party Entropy (List Block) :=
  if h : choices.length = n then
    if n = 0 then return []
    else do
      let (q, rq) ← randomOt
      let c := fun i : Fin n => choices.get (i.cast h.symm)
      Party.asyncWrite peer (packEq c q)
      let masked ← Party.asyncRead peer (16 * (2 * n))
      return unmask c rq (NetPeer.vecOf 128 (2 * n) masked)
  else Party.throw (.runtimeError "ot_receive: choices.size() must equal n")

def otReceive (ot : SimplestOt) (peer : NetPeer) (n : Nat) (choices : List Bool) :
    Party Entropy (List Block) :=
  otReceiveOver n (do
    let q ← randomize n
    let rq ← ot.receive peer q
    return (q, rq)) peer choices

/-! The manager's worker thread. -/

/-- A task: its value or its exception goes to its promise. -/
def fulfil {σ α : Type} (task : Party σ α) : Party σ (Except Err α) :=
  ⟨fun s => (task.run s).bind fun r => .ret (.ok r.1, r.2)⟩

/-- The worker runs the tasks in the order they were queued; the result is what their
    futures yield. -/
def worker {σ α : Type} : List (Party σ α) → Party σ (List (Except Err α))
  | [] => return []
  | task :: tasks => do
    let result ← fulfil task
    let results ← worker tasks
    return result :: results

/-! Both sides. -/

/-- A batch that both sides queue, with vectors of its size. -/
structure Batch where
  n : Nat
  msgs : Fin n → Block × Block
  choices : Fin n → Bool

/-- What a task's future yields. P2 has no part in it. -/
inductive Outcome where
  | sent (msgs : List (Block × Block))
  | received (outputs : List Block)
  | none

/-- The pads that the random choices `q` select. -/
def select {n : Nat} (pads : Fin n → Block × Block) (q : Fin n → Bool) : Fin n → Block :=
  fun i => pick (pads i) (q i)

/-- One batch at each party, the random OTs given. -/
def otTasks (b : Batch) (randomOt : Party Entropy (Fin b.n → Block × Block))
    (randomOt' : Party Entropy ((Fin b.n → Bool) × (Fin b.n → Block))) : Role → Party Entropy Outcome :=
  tri (do return .sent (← otSendOver b.n randomOt .P1 (List.ofFn b.msgs)))
    (do return .received (← otReceiveOver b.n randomOt' .P0 (List.ofFn b.choices)))
    (return .none)

/-- A batch as the two sides queue it. -/
def queuedTask (ot : SimplestOt) (b : Batch) : Role → Party Entropy Outcome :=
  tri (do return .sent (← otSend ot .P1 b.n (List.ofFn b.msgs)))
    (do return .received (← otReceive ot .P0 b.n (List.ofFn b.choices)))
    (return .none)

/-- A matched pair of random OTs, the sender with its own draws `pads`. -/
def otPair (ot : SimplestOt) {n : Nat} (pads : Fin n → Block × Block) (q : Fin n → Bool) :
    Role → Party Entropy ((Fin n → Block × Block) ⊕ (Fin n → Block)) :=
  tri (do return .inl (← ot.send .P1 pads)) (do return .inr (← ot.receive .P0 q)) (return .inl pads)

/-- An ideal random OT: a matched pair ends, the receiver with the sender's pads at its choices. -/
def SimplestOt.Ideal (ot : SimplestOt) : Prop :=
  ∀ {n : Nat} (pads : Fin n → Block × Block) (q : Fin n → Bool) (e : Role → Entropy), 0 < n →
    ∃ (pads' : Fin n → Block × Block) (e' : Role → Entropy) (v : Role → List (Role × List Byte)),
      PartyRun (otPair ot pads q) e (tri (.inl pads') (.inr (select pads' q)) (.inl pads)) e' v

/-! The masked transfer. -/

section
variable {n : Nat} (msgs pads : Fin n → Block × Block) (c q : Fin n → Bool)

/-- The sender after the random OT. -/
def sendMasked : Party Entropy Outcome := do
  let eqBytes ← Party.asyncRead .P1 ((n + 7) / 8)
  Party.asyncWrite .P1 (NetPeer.vecBytes (maskedPairs msgs pads eqBytes))
  return .sent (List.ofFn msgs)

/-- The receiver after the random OT. -/
def receiveMasked (rq : Fin n → Block) : Party Entropy Outcome := do
  Party.asyncWrite .P0 (packEq c q)
  let masked ← Party.asyncRead .P0 (16 * (2 * n))
  return .received (unmask c rq (NetPeer.vecOf 128 (2 * n) masked))

variable {msgs pads c q}

theorem flatMap_pair_getElem {α β : Type} (f g : α → β) (l : List α) (i : Nat) :
    (l.flatMap fun a => [f a, g a])[2 * i]? = l[i]?.map f ∧
    (l.flatMap fun a => [f a, g a])[2 * i + 1]? = l[i]?.map g := by
  induction l generalizing i with
  | nil => exact ⟨rfl, rfl⟩
  | cons a l ih =>
    cases i with
    | zero => exact ⟨rfl, rfl⟩
    | succ i => exact ih i

theorem maskedPairs_length (eqBytes : List Byte) : (maskedPairs msgs pads eqBytes).length = 2 * n := by
  simp [maskedPairs, List.length_flatMap, Nat.mul_comm]

theorem bit_packEq (c q : Fin n → Bool) (i : Fin n) : bit (packEq c q) i = (c i == q i) := by
  rw [packEq, bit_pack, decide_eq_true i.isLt, Bool.true_and, dif_pos i.isLt]

/-- The receiver's own entry of the payload, when the bits are the ones it sent. -/
theorem maskedPairs_selected (i : Fin n) :
    (maskedPairs msgs pads (packEq c q)).getD (2 * i + if c i then 1 else 0) 0 =
      pick (msgs i) (c i) ^^^ pick (pads i) (q i) := by
  have hi : (List.finRange n)[(i : Nat)]? = some i := by simp
  obtain ⟨h0, h1⟩ := flatMap_pair_getElem
    (fun i => (msgs i).1 ^^^ pick (pads i) (if bit (packEq c q) i then false else true))
    (fun i => (msgs i).2 ^^^ pick (pads i) (if bit (packEq c q) i then true else false))
    (List.finRange n) i
  rw [hi, Option.map_some, bit_packEq] at h0 h1
  rw [List.getD_eq_getElem?_getD, maskedPairs]
  cases hc : c i
  · simp only [Bool.false_eq_true, if_false, Nat.add_zero, h0, hc]
    cases q i <;> rfl
  · simp only [if_true, h1, hc]
    cases q i <;> rfl

theorem unmask_masked : unmask c (select pads q) (maskedPairs msgs pads (packEq c q)) =
    List.ofFn fun i => pick (msgs i) (c i) := by
  rw [unmask]
  congr 1
  funext i
  rw [maskedPairs_selected, select, BitVec.xor_assoc, BitVec.xor_self, BitVec.xor_zero]

variable (msgs pads c q) in
/-- The transfer after the random OT. -/
theorem transfer_run (e : Role → Entropy) :
    PartyRun (tri (sendMasked msgs pads) (receiveMasked c q (select pads q)) (return .none)) e
      (tri (.sent (List.ofFn msgs)) (.received (List.ofFn fun i => pick (msgs i) (c i))) .none) e
      (tri [(.P1, packEq c q)] [(.P0, NetPeer.vecBytes (maskedPairs msgs pads (packEq c q)))] []) := by
  have hread : NetPeer.vecOf 128 (2 * n) (NetPeer.vecBytes (maskedPairs msgs pads (packEq c q))) =
      maskedPairs msgs pads (packEq c q) := by
    simpa [maskedPairs_length] using NetPeer.vecOf_vecBytes (maskedPairs msgs pads (packEq c q)) []
  apply PartyRun.of_queued rfl rfl rfl
  refine Queued.send .P1 rfl ?_
  refine Queued.recv .P0 rfl rfl (pack_length _ _) ?_
  refine Queued.send .P0 rfl ?_
  refine Queued.recv .P1 rfl rfl (by rw [NetPeer.vecBytes_length, maskedPairs_length]; rfl) ?_
  refine Queued.done ?_ ?_ ?_
  · intro p
    cases p
    · rfl
    · simp [hread, unmask_masked]
    · rfl
  · intro p q
    cases p <;> cases q <;> rfl
  · intro p
    cases p <;> simp

theorem otSendOver_pos (hn : 0 < n) (x : Party Entropy (Fin n → Block × Block)) :
    (do return .sent (← otSendOver n x .P1 (List.ofFn msgs)) : Party Entropy Outcome) =
      x >>= fun pads => sendMasked msgs pads := by
  have hget : (fun i : Fin n => (List.ofFn msgs).get (i.cast (List.length_ofFn (f := msgs)).symm)) = msgs := by
    funext i
    simp
  rw [otSendOver, dif_pos List.length_ofFn, if_neg (by omega), hget, Party.bind_assoc]
  rfl

theorem otReceiveOver_pos (hn : 0 < n) (x : Party Entropy ((Fin n → Bool) × (Fin n → Block))) :
    (do return .received (← otReceiveOver n x .P0 (List.ofFn c)) : Party Entropy Outcome) =
      x >>= fun r => receiveMasked c r.1 r.2 := by
  have hget : (fun i : Fin n => (List.ofFn c).get (i.cast (List.length_ofFn (f := c)).symm)) = c := by
    funext i
    simp
  rw [otReceiveOver, dif_pos List.length_ofFn, if_neg (by omega), hget, Party.bind_assoc]
  rfl

end

/-- What a batch yields: the sender its pairs, the receiver the messages it chose. -/
def Batch.outcome (b : Batch) : Role → Outcome :=
  tri (.sent (List.ofFn b.msgs)) (.received (List.ofFn fun i => pick (b.msgs i) (b.choices i))) .none

/-- An empty batch sends nothing. -/
theorem otTasks_empty {b : Batch} (hn : b.n = 0) (x : Party Entropy (Fin b.n → Block × Block))
    (y : Party Entropy ((Fin b.n → Bool) × (Fin b.n → Block))) :
    otTasks b x y = fun p => return b.outcome p := by
  obtain ⟨n, msgs, c⟩ := b
  obtain rfl : n = 0 := hn
  funext p
  cases p <;> rfl

/-- What the parties do after the random OT. -/
def afterOt (b : Batch) (q : Fin b.n → Bool) :
    Role → ((Fin b.n → Block × Block) ⊕ (Fin b.n → Block)) → Party Entropy Outcome
  | .P0, .inl pads => sendMasked b.msgs pads
  | .P1, .inr rq => receiveMasked b.choices q rq
  | _, _ => return .none

theorem queuedTask_run {ot : SimplestOt} (hot : ot.Ideal) (b : Batch) (e : Role → Entropy) :
    ∃ e' v, PartyRun (queuedTask ot b) e b.outcome e' v := by
  rcases Nat.eq_zero_or_pos b.n with hn | hn
  · refine ⟨e, _, PartyRun.congr ?_ (PartyRun.pure b.outcome e)⟩
    intro p
    exact congrArg (fun x : Role → Party Entropy Outcome => (x p).run (e p)) (otTasks_empty hn _ _)
  · -- each side draws before the random OT
    obtain ⟨pads, e0, hpads⟩ : ∃ pads e0, (randomPads b.n).run (e .P0) = .ret (.ok pads, e0) :=
      ⟨_, _, rfl⟩
    obtain ⟨q, e1, hq⟩ : ∃ q e1, (randomize b.n).run (e .P1) = .ret (.ok q, e1) := ⟨_, _, rfl⟩
    obtain ⟨pads', e', v, hrun⟩ := hot pads q (tri e0 e1 (e .P2)) hn
    have hparts : (fun p => afterOt b q p (tri (.inl pads') (.inr (select pads' q)) (.inl pads) p)) =
        tri (sendMasked b.msgs pads') (receiveMasked b.choices q (select pads' q)) (return .none) :=
      eq_tri rfl rfl rfl
    have hall := hrun.bind (f := afterOt b q) (hparts ▸ transfer_run b.msgs pads' b.choices q e')
    have hdraws : (fun p => (otPair ot pads q p >>= afterOt b q p).run (tri e0 e1 (e .P2) p)) =
        fun p => (queuedTask ot b p).run (e p) := by
      funext p
      cases p with
      | P0 =>
        simp only [queuedTask, otSend, tri_P0, otSendOver_pos hn, Party.bind_assoc, otPair, afterOt,
          Party.pure_bind, Party.bind_run (randomPads b.n), hpads, Proc.bind_ret, Party.andThen_ok]
      | P1 =>
        simp only [queuedTask, otReceive, tri_P1, otReceiveOver_pos hn, Party.bind_assoc, otPair,
          afterOt, Party.pure_bind, Party.bind_run (randomize b.n), hq, Proc.bind_ret, Party.andThen_ok]
      | P2 => rfl
    rw [PartyRun, hdraws] at hall
    exact ⟨e', _, hall⟩

/-! Sequences of batches. -/

theorem fulfil_run {σ α : Type} {x : Role → Party σ α} {s s' : Role → σ} {r : Role → α}
    {v : Role → List (Role × List Byte)} (h : PartyRun x s r s' v) :
    PartyRun (fun p => fulfil (x p)) s (fun p => .ok (r p)) s' v := by
  have hret := Run.ret (A := Byte) fun p => ((.ok (.ok (r p)), s' p) : Except Err (Except Err α) × σ)
  have hrun := Run.bind (K := fun _ r => .ret ((.ok r.1 : Except Err (Except Err α)), r.2)) h hret
  simp only [List.append_nil] at hrun
  exact hrun

theorem worker_run {ot : SimplestOt} (hot : ot.Ideal) (batches : List Batch) (e : Role → Entropy) :
    ∃ e' v, PartyRun (fun p => worker (batches.map fun b => queuedTask ot b p)) e
      (fun p => batches.map fun b => .ok (b.outcome p)) e' v := by
  induction batches generalizing e with
  | nil => exact ⟨e, _, PartyRun.pure (fun _ => []) e⟩
  | cons b batches ih =>
    obtain ⟨e', v, hb⟩ := queuedTask_run hot b e
    obtain ⟨e'', w, hrest⟩ := ih e'
    exact ⟨e'', _, (fulfil_run hb).bind (hrest.map fun p rest => .ok (b.outcome p) :: rest)⟩

/-- Chosen-message OT. When one side queues `ot_send` and the other `ot_receive` for the same
    batches, then whatever the schedule, future `k` of the receiver yields the messages that its
    choices select in batch `k`. -/
theorem ot_receive_selects (ot : SimplestOt) (hot : ot.Ideal) (batches : List Batch)
    (e : Role → Entropy) :
    ∃ (futures : Role → List (Except Err Outcome)) (e' : Role → Entropy)
      (v : Role → List (Role × List Byte)),
      Settles Step (start fun p => (worker (batches.map fun b => queuedTask ot b p)).run (e p))
        (finished (fun p => (.ok (futures p), e' p)) v) ∧
      ∀ (k : Nat) (b : Batch), batches[k]? = some b →
        ∃ outputs : Fin b.n → Block, (futures .P1)[k]? = some (.ok (.received (List.ofFn outputs))) ∧
          ∀ i, outputs i = pick (b.msgs i) (b.choices i) := by
  obtain ⟨e', v, hrun⟩ := worker_run hot batches e
  refine ⟨_, e', v, hrun.settles, ?_⟩
  intro k b hb
  refine ⟨fun i => pick (b.msgs i) (b.choices i), ?_, fun _ => rfl⟩
  rw [List.getElem?_map, hb]
  rfl

/-- Pairs one after the other. -/
def flatPairs {n : Nat} (pads : Fin n → Block × Block) : List Block :=
  (List.finRange n).flatMap fun i => [(pads i).1, (pads i).2]

/-- A random OT that hides nothing: the sender shows both pads. -/
def plainOt : SimplestOt where
  send peer pads := do
    Party.asyncWrite peer (NetPeer.vecBytes (flatPairs pads))
    return pads
  receive {n} peer q := do
    let l ← Party.asyncRead peer (16 * (2 * n))
    return fun i => (NetPeer.vecOf 128 (2 * n) l).getD (2 * i + if q i then 1 else 0) 0

theorem plainOt_ideal : plainOt.Ideal := by
  intro n pads q e _
  have hlen : (flatPairs pads).length = 2 * n := by
    simp [flatPairs, List.length_flatMap, Nat.mul_comm]
  have hread : NetPeer.vecOf 128 (2 * n) (NetPeer.vecBytes (flatPairs pads)) = flatPairs pads := by
    simpa [hlen] using NetPeer.vecOf_vecBytes (flatPairs pads) []
  have hpick : (fun i : Fin n => (NetPeer.vecOf 128 (2 * n) (NetPeer.vecBytes (flatPairs pads))).getD
      (2 * i + if q i then 1 else 0) 0) = select pads q := by
    funext i
    rw [hread]
    have hi : (List.finRange n)[(i : Nat)]? = some i := by simp
    obtain ⟨h0, h1⟩ := flatMap_pair_getElem (fun i => (pads i).1) (fun i => (pads i).2) (List.finRange n) i
    rw [hi, Option.map_some] at h0 h1
    rw [List.getD_eq_getElem?_getD, select, pick, flatPairs]
    cases q i
    · simp [h0]
    · simp [h1]
  refine ⟨pads, e, tri [] [(.P0, NetPeer.vecBytes (flatPairs pads))] [], PartyRun.of_queued rfl rfl rfl ?_⟩
  refine Queued.send .P0 rfl ?_
  refine Queued.recv .P1 rfl rfl (by rw [NetPeer.vecBytes_length, hlen]; rfl) ?_
  refine Queued.done ?_ ?_ ?_
  · intro p
    cases p
    · rfl
    · exact congrArg (fun rq => Proc.ret ((Except.ok (Sum.inr rq) : Except Err _), e .P1)) hpick
    · rfl
  · intro p q
    cases p <;> cases q <;> rfl
  · intro p
    cases p <;> rfl

/-- Nine transfers with alternating choices, and an empty batch. -/
theorem ot_receive_selects_nine :
    let batch : Batch := ⟨9, fun i => (BitVec.ofNat 128 i, BitVec.ofNat 128 (100 + i)), fun i => i % 2 = 0⟩
    ∃ (futures : Role → List (Except Err Outcome)) (e' : Role → Entropy)
      (v : Role → List (Role × List Byte)),
      Settles Step (start fun p => (worker ([batch, ⟨0, Fin.elim0, Fin.elim0⟩].map fun b =>
          queuedTask plainOt b p)).run ⟨fun _ => 0, 0⟩)
        (finished (fun p => (.ok (futures p), e' p)) v) ∧
      ∃ outputs : Fin 9 → Block, (futures .P1)[0]? = some (.ok (.received (List.ofFn outputs))) ∧
        outputs 8 = 108 := by
  intro batch
  obtain ⟨futures, e', v, hsettles, hfutures⟩ := ot_receive_selects plainOt plainOt_ideal
    [batch, ⟨0, Fin.elim0, Fin.elim0⟩] (fun _ => ⟨fun _ => 0, 0⟩)
  obtain ⟨outputs, hk, hout⟩ := hfutures 0 batch rfl
  exact ⟨futures, e', v, hsettles, outputs, hk, (hout 8).trans (by decide)⟩

/-! Privacy. -/

/-- A batch over an ideal random OT, which gives the sender `pads` and the receiver `q` and the
    pads they select. -/
def otNet {n : Nat} (msgs pads : Fin n → Block × Block) (c q : Fin n → Bool) (e : Role → Entropy) :
    Net Role Byte (Except Err Outcome × Entropy) :=
  start fun p => (otTasks ⟨n, msgs, c⟩ (pure pads) (pure (q, select pads q)) p).run (e p)

/-- Every run of `N` shows party `p` the messages `view`. -/
def Shows (N : Net Role Byte (Except Err Outcome × Entropy)) (p : Role)
    (view : List (Role × List Byte)) : Prop :=
  ∃ r v, Settles Step N (finished r v) ∧ v p = view

section
variable {n : Nat} {msgs pads : Fin n → Block × Block} {c q : Fin n → Bool}

/-- What the sender and the receiver see of a batch. -/
theorem otNet_shows (msgs pads : Fin n → Block × Block) (c q : Fin n → Bool) (e : Role → Entropy) :
    Shows (otNet msgs pads c q e) .P0 (if n = 0 then [] else [(.P1, packEq c q)]) ∧
    Shows (otNet msgs pads c q e) .P1
      (if n = 0 then [] else [(.P0, NetPeer.vecBytes (maskedPairs msgs pads (packEq c q)))]) := by
  rcases Nat.eq_zero_or_pos n with hn | hn
  · have hrun := PartyRun.pure (Batch.outcome ⟨n, msgs, c⟩) e
    rw [otNet, otTasks_empty hn, if_pos hn, if_pos hn]
    exact ⟨⟨_, _, hrun.settles, rfl⟩, ⟨_, _, hrun.settles, rfl⟩⟩
  · have hrun := transfer_run msgs pads c q e
    have hparts : otTasks ⟨n, msgs, c⟩ (pure pads) (pure (q, select pads q)) =
        tri (sendMasked msgs pads) (receiveMasked c q (select pads q)) (return .none) :=
      eq_tri (otSendOver_pos hn _) (otReceiveOver_pos hn _) rfl
    rw [otNet, hparts, if_neg (by omega), if_neg (by omega)]
    exact ⟨⟨_, _, hrun.settles, rfl⟩, ⟨_, _, hrun.settles, rfl⟩⟩

/-- The choices `q` that give `c'` the bits that `q` gives `c`. -/
def shiftChoices (c c' q : Fin n → Bool) : Fin n → Bool := fun i => q i ^^ (c i ^^ c' i)

/-- The pads with `d i` added to the one that `q i` does not select. -/
def shiftPads (q : Fin n → Bool) (d : Fin n → Block) (pads : Fin n → Block × Block) :
    Fin n → Block × Block :=
  fun i => if q i then ((pads i).1 ^^^ d i, (pads i).2) else ((pads i).1, (pads i).2 ^^^ d i)

theorem shiftChoices_involutive (c c' : Fin n → Bool) : Function.Involutive (shiftChoices c c') := by
  intro q
  funext i
  simp [shiftChoices]

theorem shiftPads_involutive (q : Fin n → Bool) (d : Fin n → Block) :
    Function.Involutive (shiftPads q d) := by
  intro pads
  funext i
  have hcancel : ∀ x : Block, x ^^^ d i ^^^ d i = x := by
    intro x
    rw [BitVec.xor_assoc, BitVec.xor_self, BitVec.xor_zero]
  simp only [shiftPads]
  cases q i with
  | false => exact Prod.ext rfl (hcancel _)
  | true => exact Prod.ext (hcancel _) rfl

theorem packEq_shiftChoices (c c' q : Fin n → Bool) : packEq c' (shiftChoices c c' q) = packEq c q := by
  refine pack_congr fun i hi => ?_
  rw [dif_pos hi, dif_pos hi, shiftChoices]
  cases c ⟨i, hi⟩ <;> cases c' ⟨i, hi⟩ <;> cases q ⟨i, hi⟩ <;> rfl

theorem select_shiftPads (q : Fin n → Bool) (d : Fin n → Block) (pads : Fin n → Block × Block) :
    select (shiftPads q d pads) q = select pads q := by
  funext i
  cases hq : q i <;> simp [select, pick, shiftPads, hq]

/-- The payload when the unselected pads make up for the change of the unselected messages. -/
theorem maskedPairs_shiftPads {msgs msgs' : Fin n → Block × Block} {c : Fin n → Bool}
    (hagree : ∀ i, pick (msgs i) (c i) = pick (msgs' i) (c i)) (q : Fin n → Bool)
    (pads : Fin n → Block × Block) :
    maskedPairs msgs' (shiftPads q (fun i => pick (msgs i) (!c i) ^^^ pick (msgs' i) (!c i)) pads)
      (packEq c q) = maskedPairs msgs pads (packEq c q) := by
  rw [maskedPairs, maskedPairs]
  congr 1
  funext i
  have hi := hagree i
  have hcancel : ∀ a a' r : Block, a' ^^^ (r ^^^ (a ^^^ a')) = a ^^^ r := by
    intro a a' r
    rw [BitVec.xor_comm a a', ← BitVec.xor_assoc r, ← BitVec.xor_assoc, ← BitVec.xor_assoc,
      BitVec.xor_comm a' r, BitVec.xor_assoc r, BitVec.xor_self, BitVec.xor_zero, BitVec.xor_comm]
  simp only [bit_packEq]
  cases hc : c i <;> cases hq : q i <;> simp [pick, shiftPads, hc, hq, hcancel] at hi ⊢
  all_goals exact hi.symm

end

/-- Privacy of the chosen-message layer over an ideal random OT. For any two choice vectors the
    random choices correspond one to one so that the sender, with the same pads, sees the same;
    for message lists that agree where the receiver chooses, the pads do so that the receiver,
    with the same random choices and selected pads, sees the same. -/
theorem ot_private (n : Nat) :
    (∀ c c' : Fin n → Bool, ∃ φ : Equiv.Perm (Fin n → Bool),
      ∀ (msgs pads : Fin n → Block × Block) (q : Fin n → Bool) (e : Role → Entropy),
        ∃ view, Shows (otNet msgs pads c q e) .P0 view ∧
          Shows (otNet msgs pads c' (φ q) e) .P0 view) ∧
    ∀ (c : Fin n → Bool) (msgs msgs' : Fin n → Block × Block),
      (∀ i, pick (msgs i) (c i) = pick (msgs' i) (c i)) →
      ∀ q : Fin n → Bool, ∃ ψ : Equiv.Perm (Fin n → Block × Block),
        ∀ (pads : Fin n → Block × Block), select (ψ pads) q = select pads q ∧
          ∀ e : Role → Entropy, ∃ view, Shows (otNet msgs pads c q e) .P1 view ∧
            Shows (otNet msgs' (ψ pads) c q e) .P1 view := by
  constructor
  · intro c c'
    refine ⟨(shiftChoices_involutive c c').toPerm, ?_⟩
    intro msgs pads q e
    refine ⟨_, (otNet_shows msgs pads c q e).1, ?_⟩
    rw [← packEq_shiftChoices c c' q]
    exact (otNet_shows msgs pads c' (shiftChoices c c' q) e).1
  · intro c msgs msgs' hagree q
    refine ⟨(shiftPads_involutive q fun i => pick (msgs i) (!c i) ^^^ pick (msgs' i) (!c i)).toPerm, ?_⟩
    intro pads
    refine ⟨select_shiftPads q _ pads, ?_⟩
    intro e
    refine ⟨_, (otNet_shows msgs pads c q e).2, ?_⟩
    rw [← maskedPairs_shiftPads hagree q pads]
    exact (otNet_shows msgs' _ c q e).2

end Mpc
