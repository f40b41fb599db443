import Mpc.Dpf.Serialize
import Mpc.Lib.Talk

/- Typed messages on NetPeer sockets (network.hpp, dpfio.hpp): words, vectors behind
   their length and DPF keys behind the length of their serialization. `Talk.exec` is
   a coroutine that exchanges such values; on the sockets it is its encoding by the
   codec of these types (`exec_run`). So a protocol may be read as one over whole
   values: where that ends, with results or in a deadlock, the sockets end, in every
   schedule, at the same results and the same waits (`exchange_settles`). -/
namespace Mpc
open Fifo Diamond LE

/-! Keys (dpfio.hpp). -/

section
variable {σ : Type}

/-- `send_dpf_key`. -/
def sendDpfKey {τ : LeafT} (p : NetPeer) (key : DpfKey τ) : Party σ Unit := do
  let buf := serializeDpfKey key
  let len := BitVec.ofNat 64 buf.length
  NetPeer.send p len
  if 0 < len.toNat then Party.asyncWrite p (buf.take len.toNat)

/-- `recv_dpf_key`. -/
def recvDpfKey (τ : LeafT) (p : NetPeer) : Party σ (DpfKey τ) := do
  let len ← NetPeer.recv p 64
  let buf ← if 0 < len.toNat then Party.asyncRead p len.toNat else pure []
  let (key, _) ← Party.orUndefined (deserializeDpfKey τ buf)
  return key

end

/-! Values. -/

/-- What the sockets carry: a trivially copyable value of `w` bits, a vector of them, a key. -/
inductive MsgType where
  | word (w : Nat) (h : 0 < w)
  | vector (w : Nat)
  | key (τ : LeafT)

namespace MsgType

def Val : MsgType → Type
  | .word w _ => BitVec w
  | .vector w => List (BitVec w)
  | .key τ => DpfKey τ

/-- Lengths are words. -/
def Fits : (t : MsgType) → t.Val → Prop
  | .word _ _, _ => True
  | .vector _, vec => vec.length < 2^64
  | .key _, k => DpfKey.InMemory k

/-- The buffers that are written. -/
def writes : (t : MsgType) → t.Val → List (List Byte)
  | .word _ _, value => [enc (w := _) value]
  | .vector w, vec =>
    let sz := BitVec.ofNat 64 (List.length vec)
    enc sz :: if 0 < sz.toNat then [NetPeer.vecBytes (w := w) vec] else []
  | .key _, k =>
    let buf := serializeDpfKey k
    let len := BitVec.ofNat 64 buf.length
    enc len :: if 0 < len.toNat then [buf.take len.toNat] else []

end MsgType

section
variable {σ α : Type}

/-- `peer << value`. -/
def NetPeer.put (peer : NetPeer) : (t : MsgType) → t.Val → Party σ Unit
  | .word _ _, value => send peer (w := _) value
  | .vector w, vec => sendVector peer (w := w) vec
  | .key _, key => sendDpfKey peer key

/-- `peer >> value`. -/
def NetPeer.get (peer : NetPeer) : (t : MsgType) → Party σ t.Val
  | .word w _ => recv peer w
  | .vector w => recvVector peer w
  | .key τ => recvDpfKey τ peer

/-- A coroutine that exchanges values. -/
def exchange : Talk Role MsgType.Val α → Party σ α
  | .ret a => pure a
  | .send peer t value k => do
    NetPeer.put peer t value
    exchange k
  | .recv peer t k => do
    let value ← NetPeer.get peer t
    exchange (k value)

/-! Writes and reads on the sockets. -/

theorem put_run (peer : NetPeer) (t : MsgType) (value : t.Val) (s : σ) :
    (NetPeer.put peer t value : Party σ Unit).run s =
      .sends ((t.writes value).map (peer, ·)) (.ret (.ok (), s)) := by
  cases t with
  | word w hw => rfl
  | vector w =>
    simp only [NetPeer.put, NetPeer.sendVector, MsgType.writes]
    split <;> rfl
  | key τ =>
    simp only [NetPeer.put, sendDpfKey, MsgType.writes]
    split <;> rfl

/-- The key in a buffer. -/
def keyOf {τ : LeafT} (s : σ) (k : DpfKey τ → Wire (Except Err α × σ)) (buf : List Byte) :
    Wire (Except Err α × σ) :=
  (Party.orUndefined (deserializeDpfKey τ buf) >>= fun r => (⟨fun _ => k r.1⟩ : Party σ α)).run s

/-- A received key, then `k` of it. -/
def readKey {τ : LeafT} (peer : NetPeer) (s : σ) (k : DpfKey τ → Wire (Except Err α × σ)) :
    Wire (Except Err α × σ) :=
  .recv peer 8 fun l =>
    if 0 < (dec 64 l).toNat then .recv peer (dec 64 l).toNat fun buf => keyOf s k buf else keyOf s k []

theorem recvDpfKey_run {τ : LeafT} (peer : NetPeer) (f : DpfKey τ → Party σ α) (s : σ) :
    (recvDpfKey τ peer >>= f).run s = readKey peer s fun key => (f key).run s := by
  have hkey : ∀ buf, (Party.orUndefined (deserializeDpfKey τ buf) >>= fun r => f r.1).run s =
      keyOf s (fun key => (f key).run s) buf := by
    intro buf
    rw [keyOf]
    cases deserializeDpfKey τ buf <;> rfl
  unfold recvDpfKey readKey
  simp only [Party.bind_assoc, Party.pure_bind, Party.bind_run, NetPeer.recv_run, Proc.bind_recv,
    Proc.bind_ret, Party.andThen_ok]
  congr 1
  funext l
  split
  · rw [Party.bind_run, Party.asyncRead_run, Proc.bind_recv, Proc.bind_recv]
    congr 1
    funext buf
    show ((Party.orUndefined (deserializeDpfKey τ buf) >>= fun r => pure r.1) >>= f).run s = _
    rw [Party.bind_assoc]
    exact hkey buf
  · show ((Party.orUndefined (deserializeDpfKey τ []) >>= fun r => pure r.1) >>= f).run s = _
    rw [Party.bind_assoc]
    exact hkey []

theorem recvVector_then {w : Nat} (peer : NetPeer) (f : List (BitVec w) → Party σ α) (s : σ) :
    (NetPeer.recvVector peer w >>= f).run s = NetPeer.recvVec peer w fun vec => (f vec).run s := by
  rw [Party.bind_run, NetPeer.recvVector_run, NetPeer.recvVec_bind]
  rfl

/-- A received value, then `k` of it. -/
def NetPeer.reads (peer : NetPeer) (s : σ) : (t : MsgType) → (t.Val → Wire (Except Err α × σ)) →
    Wire (Except Err α × σ)
  | .word w _, k => .recv peer (sizeBytes w) fun l => k (dec w l)
  | .vector w, k => recvVec peer w k
  | .key _, k => readKey peer s k

/-- A read leaves the memory. -/
theorem get_run (peer : NetPeer) (t : MsgType) (f : t.Val → Party σ α) (s : σ) :
    (NetPeer.get peer t >>= f).run s = NetPeer.reads peer s t fun value => (f value).run s := by
  cases t with
  | word w hw => rfl
  | vector w => exact recvVector_then peer f s
  | key τ => exact recvDpfKey_run peer f s

/-! A read takes what a write puts on the stream. -/

theorem takes_one {q : Role} {n : Nat} {k : List Byte → Wire α} {m : List Byte} (hm : m.length = n) :
    Takes q (.recv q n k) m (k m) := by
  have h : Takes q (.recv q n k) (m ++ []) (k m) := .recv hm (.done _)
  rwa [List.append_nil] at h

theorem takes_word {w : Nat} (q : Role) (k : BitVec w → Wire α) (value : BitVec w) :
    Takes q (.recv q (sizeBytes w) fun l => k (dec w l)) [enc value].flatten (k value) := by
  have htakes := takes_one (q := q) (k := fun l => k (dec w l)) (enc_length value)
  rw [dec_enc] at htakes
  rwa [List.flatten_cons, List.flatten_nil, List.append_nil]

/-- A count off a stream, then as many bytes as `size` gives, if it is not zero. -/
def readFrame (q : NetPeer) (size : Nat → Nat) (body : Nat → List Byte → Wire α) (empty : Wire α) : Wire α :=
  .recv q 8 fun l =>
    if 0 < (dec 64 l).toNat then .recv q (size (dec 64 l).toNat) fun m => body (dec 64 l).toNat m else empty

theorem takes_frame (q : Role) (size : Nat → Nat) (body : Nat → List Byte → Wire α) (empty : Wire α) {n : Nat}
    {m : List Byte} (hn : n < 2^64) (hpos : 0 < n) (hm : m.length = size n) :
    Takes q (readFrame q size body empty) (enc (BitVec.ofNat 64 n) ++ m) (body n m) := by
  have hcount : (dec 64 (enc (BitVec.ofNat 64 n))).toNat = n := by
    rw [dec_enc]
    exact Nat.mod_eq_of_lt hn
  refine .recv (enc_length _) ?_
  simp only [hcount, if_pos hpos]
  exact takes_one hm

theorem takes_frame_empty {q : Role} {size : Nat → Nat} {body : Nat → List Byte → Wire α} {empty : Wire α} :
    Takes q (readFrame q size body empty) (enc (BitVec.ofNat 64 0)) empty := by
  have htakes := takes_one (q := q) (k := fun l => if 0 < (dec 64 l).toNat then
    .recv q (size (dec 64 l).toNat) fun m => body (dec 64 l).toNat m else empty) (enc_length (BitVec.ofNat 64 0))
  rwa [dec_enc] at htakes

theorem takes_vector {w : Nat} (q : Role) (k : List (BitVec w) → Wire α) {vec : List (BitVec w)}
    (h : vec.length < 2^64) : Takes q (NetPeer.recvVec q w k) ((MsgType.vector w).writes vec).flatten (k vec) := by
  have hlen : (BitVec.ofNat 64 vec.length).toNat = vec.length := Nat.mod_eq_of_lt h
  have hread : NetPeer.recvVec q w k =
      readFrame q (fun n => sizeBytes w * n) (fun n m => k (NetPeer.vecOf w n m)) (k []) := by
    unfold NetPeer.recvVec
    rfl
  rw [hread]
  simp only [MsgType.writes, hlen]
  split
  · next hpos =>
    have hvec : NetPeer.vecOf w vec.length (NetPeer.vecBytes vec) = vec := by
      simpa using NetPeer.vecOf_vecBytes vec []
    have htakes := takes_frame q _ (fun n m => k (NetPeer.vecOf w n m)) (k []) h hpos (NetPeer.vecBytes_length vec)
    rw [hvec] at htakes
    simpa using htakes
  · next hpos =>
    have hnil : vec = [] := List.eq_nil_of_length_eq_zero (by omega)
    subst hnil
    rw [List.length_nil, List.flatten_cons, List.flatten_nil, List.append_nil]
    exact takes_frame_empty

theorem takes_key {τ : LeafT} (q : Role) (s : σ) (k : DpfKey τ → Wire (Except Err α × σ)) {key : DpfKey τ}
    (h : key.InMemory) : Takes q (readKey q s k) ((MsgType.key τ).writes key).flatten (k key) := by
  have hpos : 0 < (serializeDpfKey key).length := by
    rw [serialize_length]
    omega
  have hkey : keyOf s k (serializeDpfKey key) = k key := by
    rw [keyOf, h.deserialize]
    rfl
  have htakes := takes_frame q id (fun _ buf => keyOf s k buf) (keyOf s k []) h.size hpos rfl
  rw [hkey] at htakes
  have hlen : (BitVec.ofNat 64 (serializeDpfKey key).length).toNat = (serializeDpfKey key).length :=
    Nat.mod_eq_of_lt h.size
  have hwrites : ((MsgType.key τ).writes key).flatten =
      enc (BitVec.ofNat 64 (serializeDpfKey key).length) ++ serializeDpfKey key := by
    simp only [MsgType.writes, hlen, if_pos hpos, List.take_length, List.flatten_cons, List.flatten_nil,
      List.append_nil]
  rw [hwrites]
  exact htakes

/-- The sockets of parties with the memories `s`. -/
def sockets (s : Role → σ) : Codec Role Byte MsgType.Val (Except Err α × σ) where
  Fits := MsgType.Fits
  writes := MsgType.writes
  read p q t k := NetPeer.reads q (s p) t k
  takes p q t value k h := by
    cases t with
    | word w hw => exact takes_word q k value
    | vector w => exact takes_vector q k h
    | key τ => exact takes_key q (s p) k h
  waits p q t k := by
    cases t with
    | word w hw =>
      obtain ⟨n, hn⟩ : ∃ n, sizeBytes w = n + 1 := ⟨sizeBytes w - 1, by unfold sizeBytes; omega⟩
      exact ⟨n, fun l => k (dec w l), congrArg (fun m => Proc.recv q m _) hn⟩
    | vector w =>
      show ∃ n k', NetPeer.recvVec q w k = .recv q (n + 1) k'
      unfold NetPeer.recvVec
      exact ⟨7, _, rfl⟩
    | key τ => exact ⟨7, _, rfl⟩

/-- A coroutine on its sockets. -/
theorem exchange_run (a : Talk Role MsgType.Val α) (p : Role) (s : Role → σ) :
    (exchange a).run (s p) = a.encode (sockets s) p fun r => (.ok r, s p) := by
  induction a with
  | ret r => rfl
  | send peer t value k ih =>
    rw [exchange, Party.bind_run, put_run, Proc.bind_sends, Proc.bind_ret, Party.andThen_ok, ih]
    rfl
  | recv peer t k ih =>
    rw [exchange, get_run, Talk.encode]
    exact congrArg (NetPeer.reads peer (s p) t) (funext ih)

/-- Words, vectors and keys over sockets. Where the parties' exchange comes to an end when it is read
    as one over whole values, it ends on the byte streams in every schedule: a party that returned
    returns the same value, a party that waits for what nobody sent waits at an empty stream, and what
    nobody took is still on the streams. -/
theorem exchange_settles (a : Role → Talk Role MsgType.Val α) (s : Role → σ) {n : Nat}
    {N : Talks Role MsgType.Val α} (hs : Steps (Talks.Step MsgType.Fits) n (Talks.start a) N) (hN : N.Over) :
    ∃ M : Net Role Byte (Except Err α × σ), Settles Step (start fun p => (exchange (a p)).run (s p)) M ∧
      (∀ p r, N.proc p = .ret r → M.proc p = .ret (.ok r, s p)) ∧
      (∀ p q t k, N.proc p = .recv q t k → ∃ n k', M.proc p = .recv q (n + 1) k' ∧ M.chan q p = []) ∧
      ∀ p q, M.chan p q = (N.chan p q).flatMap fun m => (m.1.writes m.2).flatten := by
  obtain ⟨M, hset, hM⟩ := encode_settles (c := sockets s) hs hN fun p r => (Except.ok r, s p)
  refine ⟨M, ?_, ?_, ?_, hM.chan⟩
  · simp only [exchange_run]
    exact hset
  · intro p r hr
    rw [hM.proc, hr, Talk.encode]
  · intro p q t k hk
    obtain ⟨j, k', hwait⟩ := (sockets s).waits p q t fun v => (k v).encode (sockets s) p fun r => (Except.ok r, s p)
    refine ⟨j, k', ?_, ?_⟩
    · rw [hM.proc, hk, Talk.encode, hwait]
    · -- a party that waits at the end has nothing to take
      obtain ⟨r, hr⟩ | ⟨q', t', k'', hk', hc⟩ := hN p
      · cases hk.symm.trans hr
      · cases hk.symm.trans hk'
        rw [hM.chan, hc]
        rfl

end

/-- P0 sends P1 a word, a vector and a key of seven items; P2 waits for P1, who sends nothing. -/
theorem exchange_settles_key :
    let key : DpfKey .uint64 := ⟨7, 1, [5], Vector.replicate 1 9, 0⟩
    let word : MsgType := .word 64 (by decide)
    let a : Role → Talk Role MsgType.Val Nat := tri
      (.send .P1 word (5 : BitVec 64) (.send .P1 (.vector 8) [(1 : BitVec 8), 2]
        (.send .P1 (.key .uint64) key (.ret 0))))
      (.recv .P0 word fun v => .recv .P0 (.vector 8) fun vec => .recv .P0 (.key .uint64) fun k =>
        .ret (BitVec.toNat (w := 64) v + List.length vec + DpfKey.nitems k))
      (.recv .P1 word fun v => .ret (BitVec.toNat (w := 64) v))
    ∃ M : Net Role Byte (Except Err Nat × Unit), Settles Step (start fun p => (exchange (a p)).run ()) M ∧
      M.proc .P1 = .ret (.ok 14, ()) ∧ ∃ n k, M.proc .P2 = .recv .P1 (n + 1) k ∧ M.chan .P1 .P2 = [] := by
  intro key word a
  have hkey : (MsgType.key .uint64).Fits key := ⟨by decide, by rw [serialize_length]; decide⟩
  have htwo : [(1 : BitVec 8), 2].length < 2^64 := by decide
  have hvec : (MsgType.vector 8).Fits [(1 : BitVec 8), 2] := htwo
  have hs : ∃ N, Steps (Talks.Step MsgType.Fits) 6 (Talks.start a) N ∧ N.proc .P0 = .ret 0 ∧
      N.proc .P1 = .ret 14 ∧ N.proc .P2 = a .P2 ∧ N.chan .P1 .P2 = [] :=
    ⟨_, .head (.send (p := .P0) (t := word) rfl trivial)
      (.head (.send (p := .P0) rfl hvec)
        (.head (.send (p := .P0) rfl hkey)
          (.head (.recv (p := .P1) rfl rfl) (.head (.recv (p := .P1) rfl rfl)
            (.head (.recv (p := .P1) rfl rfl) (.refl _)))))), rfl, rfl, rfl, rfl⟩
  obtain ⟨N, hs, h0, h1, h2, hc⟩ := hs
  have hN : N.Over := by
    intro p
    cases p with
    | P0 => exact .inl ⟨0, h0⟩
    | P1 => exact .inl ⟨14, h1⟩
    | P2 => exact .inr ⟨.P1, word, _, h2, hc⟩
  obtain ⟨M, hset, hret, hwait, -⟩ := exchange_settles a (fun _ => ()) hs hN
  exact ⟨M, hset, hret .P1 14 h1, hwait .P2 .P1 word _ h2⟩

end Mpc
