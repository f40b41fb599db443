import Mpc.Dpf.Eval
import Mpc.Network

/- Keys as byte strings (dpf.hpp). A key is its number of items, root, correction
   words behind their count, finalizer and PRG key, each as it lies in memory.
   The decoder reads on from a cursor; a read behind the end of the buffer is
   undefined. Decoding a serialized key gives the key back and leaves the cursor
   behind it (`deserialize_serialize`), so a key sent to another party evaluates
   there as it does here (`serialize_round_trip`). -/
namespace Mpc
open LE Fifo Diamond

/-! Cursors. -/

/-- `deserialize_bytes`, `deserialize_m128i`: a value at the cursor, which moves behind it. -/
def deserializeBytes (w : Nat) (ptr : List Byte) : Option (BitVec w × List Byte) :=
  if sizeBytes w ≤ ptr.length then
    some (dec w (ptr.take (sizeBytes w)), ptr.drop (sizeBytes w))
  else none

/-- A loop of `deserialize_m128i` over `n` blocks. -/
def deserializeBlocks : (n : Nat) → List Byte → Option (Vector Block n × List Byte)
  | 0, ptr => some (#v[], ptr)
  | n+1, ptr => do
    let (blocks, ptr) ← deserializeBlocks n ptr
    let (val, ptr) ← deserializeBytes 128 ptr
    return (blocks.push val, ptr)

/-- `deserialize_dpf_key`: the key and the cursor behind it. -/
def deserializeDpfKey (τ : LeafT) (ptr : List Byte) : Option (DpfKey τ × List Byte) := do
  let (nitems, ptr) ← deserializeBytes 64 ptr
  let (root, ptr) ← deserializeBytes 128 ptr
  let (cwSize, ptr) ← deserializeBytes 64 ptr
  let (cw, ptr) ← deserializeBlocks cwSize.toNat ptr
  let (finalizer, ptr) ← deserializeBlocks τ.nodesPerLeaf ptr
  let (prgkey, ptr) ← deserializeBytes (192 * 8) ptr
  return (⟨nitems.toNat, root, cw.toList, finalizer, prgkey⟩, ptr)

/-- `serialize_dpf_key`. -/
def serializeDpfKey {τ : LeafT} (key : DpfKey τ) : List Byte :=
  enc (BitVec.ofNat 64 key.nitems) ++ (enc key.root ++ (enc (BitVec.ofNat 64 key.cw.length) ++
    (key.cw.flatMap enc ++ (key.finalizer.toList.flatMap enc ++ enc key.prgkey))))

/-- The number of items is a size_t, and so is the size of the serialization. -/
structure DpfKey.InMemory {τ : LeafT} (key : DpfKey τ) : Prop where
  nitems : key.nitems < 2^64
  size : (serializeDpfKey key).length < 2^64

/-! Round trip. -/

section
variable {w n : Nat}

theorem deserializeBytes_enc (x : BitVec w) (ptr : List Byte) :
    deserializeBytes w (enc x ++ ptr) = some (x, ptr) := by
  have hle : sizeBytes w ≤ (enc x ++ ptr).length := by
    rw [List.length_append, enc_length]
    omega
  rw [deserializeBytes, if_pos hle, List.take_left' (enc_length x), List.drop_left' (enc_length x),
    dec_enc]

theorem deserializeBlocks_enc (blocks : Vector Block n) (ptr : List Byte) :
    deserializeBlocks n (blocks.toList.flatMap enc ++ ptr) = some (blocks, ptr) := by
  induction n generalizing ptr with
  | zero =>
    have hnil : blocks = #v[] := Vector.eq_empty
    rw [hnil]
    rfl
  | succ n ih =>
    have hpush : blocks = blocks.pop.push blocks.back := (Vector.push_pop_back blocks).symm
    generalize blocks.pop = front at hpush
    generalize blocks.back = last at hpush
    subst hpush
    rw [Vector.toList_push, List.flatMap_append, List.append_assoc, deserializeBlocks, ih]
    simp only [List.flatMap_cons, List.flatMap_nil, List.append_nil, Option.bind_eq_bind,
      Option.bind_some, deserializeBytes_enc]
    rfl

end

section
variable {τ : LeafT}

theorem deserialize_serialize (key : DpfKey τ) (hn : key.nitems < 2^64) (hcw : key.cw.length < 2^64)
    (ptr : List Byte) : deserializeDpfKey τ (serializeDpfKey key ++ ptr) = some (key, ptr) := by
  have hn' : (BitVec.ofNat 64 key.nitems).toNat = key.nitems := Nat.mod_eq_of_lt hn
  have hcw' : (BitVec.ofNat 64 key.cw.length).toNat = key.cw.length := Nat.mod_eq_of_lt hcw
  have hblocks : ∀ ptr, deserializeBlocks (BitVec.ofNat 64 key.cw.length).toNat
      (key.cw.flatMap enc ++ ptr) = some (⟨key.cw.toArray, hcw'.symm⟩, ptr) :=
    deserializeBlocks_enc ⟨key.cw.toArray, hcw'.symm⟩
  simp only [deserializeDpfKey, serializeDpfKey, List.append_assoc, deserializeBytes_enc,
    Option.bind_eq_bind, Option.bind_some, hblocks, deserializeBlocks_enc, hn']
  rfl

theorem serialize_length (key : DpfKey τ) :
    (serializeDpfKey key).length = 224 + 16 * key.cw.length + 16 * τ.nodesPerLeaf := by
  have hblocks : ∀ l : List Block, (l.flatMap enc).length = 16 * l.length := by
    intro l
    induction l with
    | nil => rfl
    | cons b l ih =>
      rw [List.flatMap_cons, List.length_append, enc_length, ih, List.length_cons]
      show 16 + _ = _
      omega
  simp only [serializeDpfKey, List.length_append, enc_length, hblocks, Vector.length_toList]
  show 8 + (16 + (8 + (_ + (_ + 192)))) = _
  omega

theorem DpfKey.InMemory.cw_length {key : DpfKey τ} (h : key.InMemory) : key.cw.length < 2^64 := by
  have hsize := h.size
  rw [serialize_length] at hsize
  omega

theorem DpfKey.InMemory.deserialize {key : DpfKey τ} (h : key.InMemory) :
    deserializeDpfKey τ (serializeDpfKey key) = some (key, []) := by
  have hkey := deserialize_serialize key h.nitems h.cw_length []
  rwa [List.append_nil] at hkey

theorem serialize_inj {key key' : DpfKey τ} (h : key.InMemory) (h' : key'.InMemory)
    (heq : serializeDpfKey key = serializeDpfKey key') : key = key' := by
  have hkey := h.deserialize
  rw [heq, h'.deserialize, Option.some.injEq, Prod.mk.injEq] at hkey
  exact hkey.1.symm

end

/-! A key on a socket. -/

section
variable {σ : Type} (τ : LeafT)

/-- A party that sends the key `key` to `peer`. -/
def sendKey {τ : LeafT} (peer : NetPeer) (key : DpfKey τ) : Party σ (Option (DpfKey τ)) := do
  NetPeer.sendVector peer (serializeDpfKey key)
  return none

/-- A party that receives a key from `peer`. -/
def recvKey (peer : NetPeer) : Party σ (Option (DpfKey τ)) := do
  let buf ← NetPeer.recvVector peer 8
  let (key, _) ← Party.orUndefined (deserializeDpfKey τ buf)
  return some key

/-- `p` sends a key and `q` receives it. -/
def passKey {τ : LeafT} (p q : Role) (key : DpfKey τ) (r : Role) : Party σ (Option (DpfKey τ)) :=
  if r = p then sendKey q key else if r = q then recvKey τ p else return none

theorem recvKey_run (peer : NetPeer) (s : σ) :
    (recvKey τ peer : Party σ (Option (DpfKey τ))).run s = NetPeer.recvVec peer 8 fun buf =>
      (Party.orUndefined (deserializeDpfKey τ buf) >>= fun r => return some r.1).run s := by
  unfold recvKey
  rw [Party.bind_run, NetPeer.recvVector_run, NetPeer.recvVec_bind]
  rfl

variable {τ} in
theorem passKey_run {p q : Role} (hpq : p ≠ q) {key : DpfKey τ} (h : key.InMemory) (s : Role → σ) :
    Run (fun r => (passKey p q key r).run (s r))
      (fun r => (.ok (if r = q then some key else none), s r))
      (fun r => if r = q then (NetPeer.vecFrames (serializeDpfKey key)).map (p, ·) else []) := by
  have hsend : (passKey p q key p).run (s p) =
      .sends ((NetPeer.vecFrames (serializeDpfKey key)).map (q, ·)) (.ret (.ok none, s p)) := by
    rw [passKey, if_pos rfl, sendKey, Party.bind_run, NetPeer.sendVector_run _ _ h.size,
      Proc.bind_sends]
    rfl
  have hrecv : (passKey p q key q).run (s q) = NetPeer.recvVec p 8 fun buf =>
      (Party.orUndefined (deserializeDpfKey τ buf) >>= fun r => return some r.1).run (s q) := by
    rw [passKey, if_neg hpq.symm, if_pos rfl, recvKey_run]
  have hgot : (Party.orUndefined (deserializeDpfKey τ (serializeDpfKey key)) >>=
      fun r => (return some r.1 : Party σ (Option (DpfKey τ)))).run (s q) = .ret (.ok (some key), s q) := by
    rw [h.deserialize]
    rfl
  -- the sender first; a party that is neither has returned
  refine Run.of_queued (Queued.sends p hsend ?_)
  refine queued_recvVec (q := p) (m := []) q h.size
    ((Function.update_of_ne hpq.symm _ _).trans hrecv) ?_ (Queued.done ?_ ?_ ?_)
  · rw [Function.update_self, filter_map_self]
    exact (List.append_nil _).symm
  · intro r
    by_cases hq : r = q
    · subst hq
      rw [Function.update_self, if_pos rfl]
      exact hgot
    · rw [Function.update_of_ne hq, if_neg hq]
      by_cases hp : r = p
      · subst hp
        rw [Function.update_self]
      · rw [Function.update_of_ne hp, passKey, if_neg hp, if_neg hq]
        rfl
  · intro a b
    by_cases ha : a = p
    · subst ha
      by_cases hb : b = q
      · subst hb
        simp
      · simp [hb, Ne.symm hb]
    · simp [ha]
  · intro r
    by_cases hq : r = q
    · subst hq
      simp
    · simp [hq]

/-- Serialization loses nothing: every key decodes to itself with the cursor at the end, no two
    keys serialize alike, and in every schedule of a transfer the receiver ends with a key that
    evaluates as the sender's. -/
theorem serialize_round_trip (aes : AesKey → Block → Block) :
    (∀ key : DpfKey τ, key.InMemory → ∃ key', deserializeDpfKey τ (serializeDpfKey key) = some (key', []) ∧
      key'.nitems = key.nitems ∧ key'.root = key.root ∧ key'.cw = key.cw ∧
      key'.finalizer = key.finalizer ∧ key'.prgkey = key.prgkey) ∧
    (∀ key key' : DpfKey τ, key.InMemory → key'.InMemory →
      serializeDpfKey key = serializeDpfKey key' → key = key') ∧
    ∀ key : DpfKey τ, key.InMemory → ∀ p q : Role, p ≠ q → ∀ s : Role → σ, ∃ key' : DpfKey τ, ∃ v,
      Settles Step (start fun r => (passKey p q key r).run (s r))
        (finished (fun r => (.ok (if r = q then some key' else none), s r)) v) ∧
      (∀ x, eval aes key' x = eval aes key x) ∧
      ∀ from_ to_ b, evalInterval aes key' from_ to_ b = evalInterval aes key from_ to_ b := by
  refine ⟨?_, ?_, ?_⟩
  · intro key h
    exact ⟨key, h.deserialize, rfl, rfl, rfl, rfl, rfl⟩
  · intro key key' h h' heq
    exact serialize_inj h h' heq
  · intro key h p q hpq s
    exact ⟨key, _, (passKey_run hpq h s).settles, fun _ => rfl, fun _ _ _ => rfl⟩

theorem serialize_round_trip_three :
    ∃ key', deserializeDpfKey .uint64
        (serializeDpfKey (⟨3, 7, [5], Vector.replicate 1 9, 0⟩ : DpfKey .uint64)) = some (key', []) ∧
      key'.nitems = 3 ∧ key'.root = 7 ∧ key'.cw = [5] ∧ key'.finalizer = Vector.replicate 1 9 ∧
      key'.prgkey = 0 :=
  (serialize_round_trip (σ := Unit) .uint64 (fun _ b => b)).1 ⟨3, 7, [5], Vector.replicate 1 9, 0⟩
    ⟨by decide, by rw [serialize_length]; decide⟩

end

end Mpc
