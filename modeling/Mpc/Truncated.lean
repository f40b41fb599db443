import Mpc.Tape

/- Replay of tapes that end early (mpcops.hpp). mpc_mul and mpc_and at P0 and P1 check
   the index of a record and nothing else: where mpc_random looks at the stream after its
   read and throws, they go on with whatever the four variables hold. So a replayed call
   uses a full record or throws exactly when the index it ends up with is not the counter's
   or the whole record is there (`replays_record_iff`); in any other state it talks to its
   peer with unassigned values (`replay_of_index`). -/
namespace Mpc
open Fifo LE

/-! Streams and tapes. -/

section
variable {l : List Byte}

/-- A record of whole bytes lies in every tape that is long enough for one. -/
theorem exists_record {b : Nat} (h : 8 + 3 * b ≤ l.length) :
    ∃ idx : BitVec 64, ∃ (m : Material (8 * b)) (rest : List Byte), l = record idx m ++ rest := by
  have hb : sizeBytes (8 * b) = b := by
    rw [sizeBytes]
    omega
  have henc : ∀ n, (l.drop n).length ≥ b → enc (dec (8 * b) ((l.drop n).take b)) = (l.drop n).take b :=
    fun n hn => enc_dec (by rw [hb]) (by rw [hb]; exact List.length_take_of_le hn)
  have hidx : enc (dec 64 (l.take 8)) = l.take 8 := enc_dec rfl (List.length_take_of_le (by omega))
  refine ⟨dec 64 (l.take 8), ⟨dec (8 * b) ((l.drop 8).take b), dec (8 * b) ((l.drop (8 + b)).take b),
    dec (8 * b) ((l.drop (8 + b + b)).take b)⟩, l.drop (8 + b + b + b), ?_⟩
  simp only [record, hidx, henc _ (show (l.drop 8).length ≥ b by rw [List.length_drop]; omega),
    henc _ (show (l.drop (8 + b)).length ≥ b by rw [List.length_drop]; omega),
    henc _ (show (l.drop (8 + b + b)).length ≥ b by rw [List.length_drop]; omega)]
  simp only [← List.drop_drop, List.append_assoc, List.take_append_drop]

theorem record_length {b : Nat} (idx : BitVec 64) (m : Material (8 * b)) :
    (record idx m).length = 8 + 3 * b := by
  have hb : sizeBytes (8 * b) = b := by
    rw [sizeBytes]
    omega
  simp only [record, List.length_append, enc_length, hb]
  show 8 + (b + (b + b)) = _
  omega

end

namespace Kind

/-- The counter of the kind's operations. -/
def counter : Kind → MPCContext → BitVec 64
  | .mul, c => c.mulCtr
  | .and, c => c.andCtr

/-- `ctr++`. -/
def count : Kind → MPCContext → MPCContext
  | .mul, c => { c with mulCtr := c.mulCtr + 1 }
  | .and, c => { c with andCtr := c.andCtr + 1 }

end Kind

/-- The host with its tape of kind `k` at `i`. -/
def Host.atTape (k : Kind) (p : Role) (i : IStream) (h : Host) : Host :=
  { h with ctx := (k.inTape p).set i h.ctx }

/-- The host after an operation that read the tape to `i`. -/
def Host.counted (k : Kind) (p : Role) (i : IStream) (h : Host) : Host :=
  { h with ctx := (k.inTape p).set i (k.count h.ctx) }

section
variable {k : Kind} {p : Role} {i j : IStream} {h : Host}

theorem readTape_atTape (w : Nat) : (readTape (k.inTape p) w).run (h.atTape k p i) =
    .ret (.ok (dec w (i.read (h.garbage w)).1), h.atTape k p (i.read (h.garbage w)).2) := by
  cases k <;> cases p <;> rfl

theorem readTape_counted (w : Nat) : (readTape (k.inTape p) w).run (h.counted k p i) =
    .ret (.ok (dec w (i.read (h.garbage w)).1), h.counted k p (i.read (h.garbage w)).2) := by
  cases k <;> cases p <;> rfl

theorem next_atTape : k.next.run (h.atTape k p i) = .ret (.ok (k.counter h.ctx), h.counted k p i) := by
  cases k <;> cases p <;> rfl

theorem atTape_self (hi : (k.inTape p).get h.ctx = i) : h.atTape k p i = h := by
  subst hi
  cases k <;> cases p <;> rfl

end

/-! Records. -/

/-- The index that a read at the cursor leaves in `idx_file`. -/
def indexAt (h : Host) (i : IStream) : BitVec 64 := dec 64 (i.read (h.garbage 64)).1

/-- What three reads at the cursor leave in `X`, `Y` and `gamma`, and where they leave the tape. -/
def materialAt (h : Host) (w : Nat) (i : IStream) : Material w × IStream :=
  let X := i.read (h.garbage w)
  let Y := X.2.read (h.garbage w)
  let gamma := Y.2.read (h.garbage w)
  (⟨dec w X.1, dec w Y.1, dec w gamma.1⟩, gamma.2)

section
variable {k : Kind} {p : Role} {i : IStream} {h : Host} {w : Nat} {desync : String}

/-- A read record is the index, and three unchecked reads if it is the counter's. -/
theorem readRecord_run (hi : (k.inTape p).get h.ctx = i) :
    (readRecord (k.inTape p) k.next desync w).run h =
      if indexAt h i ≠ k.counter h.ctx then
        .ret (.error (.runtimeError desync), h.counted k p (i.read (h.garbage 64)).2)
      else
        .ret (.ok ((materialAt h w (i.read (h.garbage 64)).2).1.X,
          (materialAt h w (i.read (h.garbage 64)).2).1.Y,
          (materialAt h w (i.read (h.garbage 64)).2).1.gamma),
          h.counted k p (materialAt h w (i.read (h.garbage 64)).2).2) := by
  have hread : (readTape (k.inTape p) 64).run h =
      .ret (.ok (indexAt h i), h.atTape k p (i.read (h.garbage 64)).2) := by
    have hrun := readTape_atTape (k := k) (p := p) (i := i) (h := h) 64
    rwa [atTape_self hi] at hrun
  rw [readRecord, Party.bind_run, hread, Proc.bind_ret, Party.andThen_ok, Party.bind_run, next_atTape,
    Proc.bind_ret, Party.andThen_ok]
  by_cases hidx : indexAt h i = k.counter h.ctx
  · rw [if_neg (not_not.mpr hidx), if_neg (not_not.mpr hidx)]
    simp only [Party.bind_run, Party.pure_run, Proc.bind_ret, Party.andThen_ok, readTape_counted]
    rfl
  · rw [if_pos hidx, if_pos hidx]
    rfl

theorem indexAt_record (idx : BitVec 64) (m : Material w) (l : List Byte) :
    indexAt h ⟨record idx m ++ l, true⟩ = idx := by
  rw [indexAt, record, List.append_assoc, read_enc _ (h.garbage_length 64), dec_enc]

theorem materialAt_record (idx : BitVec 64) (m : Material w) (l : List Byte) :
    materialAt h w (IStream.read ⟨record idx m ++ l, true⟩ (h.garbage 64)).2 = (m, ⟨l, true⟩) := by
  simp only [record, List.append_assoc, materialAt, read_enc _ (h.garbage_length _), dec_enc]

end

/-! Calls at P0 and P1. -/

section
variable {w : Nat}

/-- `mpc_mul` at P0 or P1 behind its material. -/
def mulExchange (x y : BitVec w) (isP0 : Bool) (peer : NetPeer) (m : Material w) :
    Party Host (BitVec w) :=
  if isP0 then do
    Party.asyncWrite peer (sumBytes x m.X)
    Party.asyncWrite peer (sumBytes y m.Y)
    let XTilde ← NetPeer.recv peer w
    let YTilde ← NetPeer.recv peer w
    return x * (y + YTilde) - m.Y * XTilde + m.gamma
  else do
    let XTilde ← NetPeer.recv peer w
    let YTilde ← NetPeer.recv peer w
    Party.asyncWrite peer (sumBytes x m.X)
    Party.asyncWrite peer (sumBytes y m.Y)
    return x * (y + YTilde) - m.Y * XTilde + m.gamma

/-- `mpc_and` at P0 or P1 behind its material. -/
def andExchange (x y : BitVec w) (isP0 : Bool) (peer : NetPeer) (m : Material w) :
    Party Host (BitVec w) :=
  if isP0 then do
    NetPeer.send peer (x ^^^ m.X)
    NetPeer.send peer (y ^^^ m.Y)
    let aj ← NetPeer.recv peer w
    let bj ← NetPeer.recv peer w
    return (x &&& (y ^^^ bj)) ^^^ (m.Y &&& aj) ^^^ m.gamma
  else do
    let aj ← NetPeer.recv peer w
    let bj ← NetPeer.recv peer w
    NetPeer.send peer (x ^^^ m.X)
    NetPeer.send peer (y ^^^ m.Y)
    return (x &&& (y ^^^ bj)) ^^^ (m.Y &&& aj) ^^^ m.gamma

namespace Kind

/-- `mpc_mul` or `mpc_and` on shares with a context. -/
def call : Kind → BitVec w → BitVec w → Role → NetPeer → Option NetPeer → Option NetPeer →
    Party Host (BitVec w)
  | .mul, x, y => mpcMul ⟨x, true⟩ ⟨y, true⟩
  | .and, x, y => mpcAnd ⟨x, true⟩ ⟨y, true⟩

/-- The call behind its material. -/
def exchange : Kind → BitVec w → BitVec w → Bool → NetPeer → Material w → Party Host (BitVec w)
  | .mul => mulExchange
  | .and => andExchange

end Kind

variable {k : Kind} {p : Role} {h : Host} {i : IStream} {self : NetPeer} {second : Option NetPeer}
  {x y : BitVec w}

/-- Without a peer the call returns 0. -/
theorem call_alone (hp : p ≠ .P2) : (k.call x y p self none second).run h = .ret (.ok 0, h) := by
  cases p with
  | P2 => exact absurd rfl hp
  | P0 | P1 => cases k <;> rfl

/-- A replayed call reads a record and goes on with it. -/
theorem call_replay (hp : p ≠ .P2) (hmode : h.ctx.randMode = .Replay) (peer : NetPeer) :
    (k.call x y p self (some peer) second).run h =
      (readRecord (k.inTape p) k.next (k.desync p) w >>= fun m =>
        k.exchange x y (decide (p = .P0)) peer ⟨m.1, m.2.1, m.2.2⟩).run h := by
  obtain ⟨ctx, entropy, uninit⟩ := h
  obtain ⟨role, self', peer0, peer1, randMode, rest⟩ := ctx
  obtain rfl : randMode = .Replay := hmode
  cases p with
  | P2 => exact absurd rfl hp
  | P0 | P1 => cases k <;> rfl

/-- No call that reached its exchange is over. -/
theorem exchange_ne_ret (isP0 : Bool) (peer : NetPeer) (m : Material w) (r : Except Err (BitVec w) × Host) :
    (k.exchange x y isP0 peer m).run h ≠ .ret r := by
  intro hret
  cases k <;> cases isP0 <;> cases hret

/-! What a replayed call does with its tape. -/

/-- The call finds a full record of its counter at the cursor and goes on with exactly what
    it holds, or it throws at once. -/
def ReplaysRecord (k : Kind) (p : Role) (self : NetPeer) (peerPtr second : Option NetPeer) (h : Host)
    (x y : BitVec w) : Prop :=
  (∃ peer m l, peerPtr = some peer ∧
    (k.inTape p).get h.ctx = ⟨record (k.counter h.ctx) m ++ l, true⟩ ∧
    (k.call x y p self peerPtr second).run h =
      (k.exchange x y (decide (p = .P0)) peer m).run (h.counted k p ⟨l, true⟩)) ∨
  ∃ what h', (k.call x y p self peerPtr second).run h = .ret (.error (.runtimeError what), h')

/-- A call whose index is another ends. -/
theorem replay_of_desync (hp : p ≠ .P2) (hmode : h.ctx.randMode = .Replay) (peer : NetPeer)
    (hidx : indexAt h ((k.inTape p).get h.ctx) ≠ k.counter h.ctx) :
    ∃ h', (k.call x y p self (some peer) second).run h =
      .ret (.error (.runtimeError (k.desync p)), h') := by
  refine ⟨h.counted k p (((k.inTape p).get h.ctx).read (h.garbage 64)).2, ?_⟩
  rw [call_replay hp hmode, Party.bind_run, readRecord_run rfl, if_pos hidx]
  rfl

/-- A call whose index is the counter's goes on, with what three reads leave in the variables. -/
theorem replay_of_index (hp : p ≠ .P2) (hmode : h.ctx.randMode = .Replay) (peer : NetPeer)
    (hi : (k.inTape p).get h.ctx = i) (hidx : indexAt h i = k.counter h.ctx) :
    (k.call x y p self (some peer) second).run h =
      (k.exchange x y (decide (p = .P0)) peer (materialAt h w (i.read (h.garbage 64)).2).1).run
        (h.counted k p (materialAt h w (i.read (h.garbage 64)).2).2) := by
  rw [call_replay hp hmode, Party.bind_run, readRecord_run hi, if_neg (not_not.mpr hidx)]
  rfl

/-- An index that agrees before an incomplete record. -/
theorem not_replaysRecord (hp : p ≠ .P2) (hmode : h.ctx.randMode = .Replay) (peer : NetPeer)
    (hi : (k.inTape p).get h.ctx = i) (hidx : indexAt h i = k.counter h.ctx)
    (hshort : ∀ m l, i ≠ ⟨record (w := w) (k.counter h.ctx) m ++ l, true⟩) :
    ¬ ReplaysRecord k p self (some peer) second h x y := by
  intro hreplay
  obtain ⟨_, m, l, -, htape, -⟩ | ⟨what, h', hthrow⟩ := hreplay
  · exact hshort m l (hi ▸ htape)
  · rw [replay_of_index hp hmode peer hi hidx] at hthrow
    exact exchange_ne_ret _ peer _ _ hthrow

end

/-- A replayed multiplication or AND of a type of `b` bytes at P0 or P1 uses a full record or
    throws exactly when it has a peer and either the index it ends up with is not the counter's
    or the tape still holds a whole record. -/
theorem replays_record_iff {k : Kind} {p : Role} {h : Host} {b : Nat} (hp : p ≠ .P2)
    (hmode : h.ctx.randMode = .Replay) (self : NetPeer) (peerPtr second : Option NetPeer)
    (x y : BitVec (8 * b)) :
    ReplaysRecord k p self peerPtr second h x y ↔ peerPtr.isSome ∧
      (indexAt h ((k.inTape p).get h.ctx) ≠ k.counter h.ctx ∨
        (((k.inTape p).get h.ctx).good ∧ 8 + 3 * b ≤ ((k.inTape p).get h.ctx).bytes.length)) := by
  cases peerPtr with
  | none =>
    constructor
    · intro hreplay
      obtain ⟨_, _, _, hpeer, -⟩ | ⟨what, h', hthrow⟩ := hreplay
      · cases hpeer
      · rw [call_alone hp] at hthrow
        cases hthrow
    · intro hpeer
      exact absurd hpeer.1 (by decide)
  | some peer =>
    by_cases hidx : indexAt h ((k.inTape p).get h.ctx) = k.counter h.ctx
    · constructor
      · intro hreplay
        refine ⟨rfl, .inr ?_⟩
        by_contra hshort
        refine not_replaysRecord hp hmode peer rfl hidx ?_ hreplay
        intro m l htape
        rw [htape, List.length_append, record_length] at hshort
        exact hshort ⟨rfl, Nat.le_add_right _ _⟩
      · intro ⟨_, hfull⟩
        obtain hne | ⟨hgood, hlen⟩ := hfull
        · exact absurd hidx hne
        obtain ⟨idx, m, l, hbytes⟩ := exists_record hlen
        have htape : (k.inTape p).get h.ctx = ⟨record idx m ++ l, true⟩ := by
          rw [← hbytes, ← hgood]
        obtain rfl : idx = k.counter h.ctx := by rw [← hidx, htape, indexAt_record]
        refine .inl ⟨peer, m, l, rfl, htape, ?_⟩
        rw [replay_of_index hp hmode peer htape (indexAt_record _ m l), materialAt_record]
    · obtain ⟨h', hrun⟩ : ∃ h', (k.call x y p self (some peer) second).run h =
          .ret (.error (.runtimeError (k.desync p)), h') := replay_of_desync hp hmode peer hidx
      constructor
      · intro _
        exact ⟨rfl, .inl hidx⟩
      · intro _
        exact .inr ⟨k.desync p, h', hrun⟩

theorem replays_record_empty_tape :
    ReplaysRecord .mul .P0 .P2 (some .P1) none
        (Host.replaying .P0 { Env.zeros with mulCtr := 1 } .closed Tapes.empty) (5 : BitVec (8 * 8)) 7 ↔
      (some Role.P1).isSome ∧
        (indexAt (Host.replaying .P0 { Env.zeros with mulCtr := 1 } .closed Tapes.empty) ⟨[], true⟩ ≠ 1 ∨
          (true = true ∧ 8 + 3 * 8 ≤ ([] : List Byte).length)) :=
  replays_record_iff (by decide) rfl .P2 (some .P1) none 5 7

/-- A tape cut off behind its first index: P0 sends its shares masked with whatever the
    variables held. -/
theorem replay_of_bare_index : ¬ ReplaysRecord .mul .P0 .P2 (some .P1) none
    (Host.replaying .P0 Env.zeros .closed (fun _ _ => List.replicate 8 0)) (5 : BitVec (8 * 8)) 7 := by
  refine not_replaysRecord (by decide) rfl .P1 rfl (by decide) ?_
  intro m l htape
  have hbytes : List.replicate 8 0 = record 0 m ++ l := congrArg IStream.bytes htape
  have hlen := congrArg List.length hbytes
  rw [List.length_replicate, List.length_append, record_length] at hlen
  omega

end Mpc
