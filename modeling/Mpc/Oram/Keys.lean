import Mpc.Dpf.ControlBits
import Mpc.Dpf.Gen
import Mpc.Dpf.Serialize
import Mpc.Shares

/- Keys on their way through an ORAM operation (locoram.tpp): P2 generates a pair
   for its point and sends one to each other party, which reads it and evaluates it
   on all items. `spare` is how many blocks the evaluation may use behind the
   elements of a vector. In a run with room for all nodes the receivers end with the
   leaves and flags of the two halves of one `gen` (`dealKeys_run`, `recvEval_run`),
   which differ at the point only (`PointKeys.leaves_xor`, `PointKeys.flags_xor`). -/
namespace Mpc
open Fifo LE

section
variable (aes : AesKey → Block → Block) {τ : LeafT}

/-! P2's part. -/

/-- `dpf_key::gen`, which draws the two root blocks itself. -/
def dpfGen (prgkey : AesKey) (nitems target : Nat) (val : Leaf τ) :
    Party Host (DpfKey τ × DpfKey τ) := do
  if nitems ≤ target then Party.throw (.runtimeError "target point out of range")
  let root ← arc4randomBuf 32
  Party.ofExcept (gen aes prgkey nitems target val (dec 128 (root.take 16), dec 128 (root.drop 16)))

/-- P2's branch of `update` and `read`, which fix the point (and `update` the value) after drawing
    them; here they are arguments. `valBytes` are drawn for the value. The PRG key is the default of
    its constructor; here any key is taken. -/
def dealKeys (nitems target : Nat) (val : Leaf τ) (valBytes : Nat) (order : List Bool) :
    Party Host Unit := do
  let _ ← arc4randomBuf 8
  if nitems = 0 then Party.throw .undefined
  let prgkey ← unassigned (192 * 8)
  let _ ← arc4randomBuf valBytes
  let (k0, k1) ← dpfGen aes (dec (192 * 8) prgkey) nitems target val
  let h ← Party.get
  match h.ctx.peer0, h.ctx.peer1 with
  | some p0, some p1 => NetPeer.sendVectors order p0 p1 (serializeDpfKey k0) (serializeDpfKey k1)
  | _, _ => Party.throw (.runtimeError "P2 missing peer connections")

/-! P0's and P1's part. -/

/-- `__evalinterval` of all items into new vectors of `nitems` leaves and flags. -/
def evalAll (spare : Nat) (key : DpfKey τ) (nitems : Nat) :
    Option (Vector (Leaf τ) nitems × Vector Byte nitems) := do
  let b ← evalInterval aes key 0 (predSize nitems)
    ⟨fun _ => 0, fun _ => 0, nitems * τ.sizeof / 16 + spare, nitems⟩
  return (Vector.ofFn fun j => leafAt τ b.nodes j, Vector.ofFn fun j => b.flags j)

/-- A key from P2, evaluated. -/
def recvEval {σ : Type} (τ : LeafT) (spare : Nat) (self : NetPeer) (nitems : Nat) :
    Party σ (Vector (Leaf τ) nitems × Vector Byte nitems) := do
  let buffer ← NetPeer.recvVector self 8
  let (key, _) ← Party.orUndefined (deserializeDpfKey τ buffer)
  Party.orUndefined (evalAll aes spare key nitems)

/-! Leaves and flags of a key. -/

def keyLeaves (key : DpfKey τ) (nitems : Nat) : Vector (Leaf τ) nitems :=
  Vector.ofFn fun x => leafAt τ (finalBlock aes key (leafNode aes key (x / τ.leavesPerNode)))
    (x % τ.leavesPerNode)

def keyFlags (key : DpfKey τ) (nitems : Nat) : Vector Byte nitems :=
  Vector.ofFn fun i => if i < τ.nodes nitems then (leafNode aes key i).2 else 0

/-- A vector of `nitems` leaves has room for all nodes. -/
structure LeafT.Fits (τ : LeafT) (nitems spare : Nat) : Prop where
  pos : 0 < nitems
  nodes : τ.nodes nitems * τ.nodesPerLeaf ≤ nitems * τ.sizeof / 16 + spare

end

section
variable {aes : AesKey → Block → Block} {τ : LeafT} {nitems target spare : Nat} {val : Leaf τ}
  {key k0 k1 : DpfKey τ}

theorem DpfKey.depth_le (key : DpfKey τ) (h64 : key.nitems < 2^64) : key.depth ≤ 64 := by
  have hle := τ.nodes_le key.nitems
  rw [LeafT.nodes] at hle
  rw [DpfKey.depth, LeafT.depth, Nat.clog_le_iff_le_pow (by omega)]
  omega

theorem keyLeaves_eval (hcw : key.depth ≤ key.cw.length) {x : Nat} (hx : x < nitems) :
    eval aes key x = some ((keyLeaves aes key nitems)[x]) := by
  rw [eval_eq hcw, keyLeaves, Vector.getElem_ofFn]

theorem evalAll_eq (hfits : τ.Fits nitems spare) (hn : key.nitems = nitems)
    (hcw : key.cw.length = key.depth) :
    evalAll aes spare key nitems = some (keyLeaves aes key nitems, keyFlags aes key nitems) := by
  subst hn
  have hpred : predSize key.nitems = key.nitems - 1 := if_neg (Nat.pos_iff_ne_zero.mp hfits.pos)
  obtain ⟨b', hrun, hout, hfl, hkeep⟩ := evalInterval_full aes key hfits.pos hcw.ge
    (b := ⟨fun _ => 0, fun _ => 0, key.nitems * τ.sizeof / 16 + spare, key.nitems⟩) hfits.nodes
    (τ.nodes_le key.nitems)
  have hleaves : (Vector.ofFn fun j : Fin key.nitems => leafAt τ b'.nodes j) =
      keyLeaves aes key key.nitems := by
    apply Vector.ext
    intro x hx
    rw [keyLeaves, Vector.getElem_ofFn, Vector.getElem_ofFn]
    exact leafAt_of_node τ fun j hj => hout _ j (τ.div_lt_nodes hx) hj
  have hflags : (Vector.ofFn fun j : Fin key.nitems => b'.flags j) = keyFlags aes key key.nitems := by
    apply Vector.ext
    intro i hi
    rw [keyFlags, Vector.getElem_ofFn, Vector.getElem_ofFn]
    -- flags past the last node keep their initial zero
    by_cases hlt : i < τ.nodes key.nitems
    · rw [if_pos hlt]
      exact hfl i hlt
    · rw [if_neg hlt]
      exact hkeep i (by omega)
  rw [evalAll, hpred, hrun, ← hleaves, ← hflags]
  rfl

theorem IsBit.eq_flagOf {x : Byte} (h : IsBit x) : ∃ c, x = flagOf c := by
  rcases h with rfl | rfl
  · exact ⟨false, rfl⟩
  · exact ⟨true, rfl⟩

/-- The flags of a key are 0 or 1, whatever the key. -/
theorem keyFlags_flag (key : DpfKey τ) {i : Nat} (hi : i < nitems) :
    ∃ c, (keyFlags aes key nitems)[i] = flagOf c := by
  rw [keyFlags, Vector.getElem_ofFn]
  split
  · exact (isBit_leafNode aes key i).eq_flagOf
  · exact IsBit.zero.eq_flagOf

/-- The halves of a point's value: they XOR to it at the point, to zero elsewhere. -/
theorem PointKeys.leaves_xor (h : PointKeys aes nitems target val k0 k1) {x : Nat} (hx : x < nitems) :
    (keyLeaves aes k0 nitems)[x] ^^^ (keyLeaves aes k1 nitems)[x] = if x = target then val else 0 := by
  rw [keyLeaves, keyLeaves, Vector.getElem_ofFn, Vector.getElem_ofFn]
  exact h.leaf_xor hx

/-- The flags select the point's node, not its leaf. -/
theorem PointKeys.flags_xor (h : PointKeys aes nitems target val k0 k1) (htarget : target < nitems)
    {i : Nat} (hi : i < nitems) :
    (keyFlags aes k0 nitems)[i] ^^^ (keyFlags aes k1 nitems)[i] =
      if i = target / τ.leavesPerNode then 1 else 0 := by
  rw [keyFlags, keyFlags, Vector.getElem_ofFn, Vector.getElem_ofFn]
  by_cases hlt : i < τ.nodes nitems
  · simp only [if_pos hlt]
    exact h.flag i hlt
  · have hne : i ≠ target / τ.leavesPerNode := by
      have := τ.div_lt_nodes htarget
      omega
    simp only [if_neg hlt, if_neg hne]
    rfl

/-! Runs. -/

section
variable (aes) (e : Env) (nitems target : Nat) (val : Leaf τ) (valBytes : Nat)

/-- The keys P2 deals out of its environment. -/
def Env.dealt : Except Err (DpfKey τ × DpfKey τ) :=
  let root := ((e.advance 8).advance valBytes).entropy.take 32
  gen aes (dec (192 * 8) (e.garbage (192 * 8))) nitems target val
    (dec 128 (root.take 16), dec 128 (root.drop 16))

/-- P2's environment after that. -/
def Env.afterDeal : Env := ((e.advance 8).advance valBytes).advance 32

theorem dealt_keys (htarget : target < nitems) :
    ∃ k0 k1, e.dealt aes nitems target val valBytes = .ok (k0, k1) ∧
      PointKeys aes nitems target val k0 k1 :=
  gen_keys aes _ val _ htarget

theorem dpfGen_run {p : Role} {prgkey : AesKey} (htarget : target < nitems)
    (hgen : gen aes prgkey nitems target val (dec 128 ((e.entropy.take 32).take 16),
      dec 128 ((e.entropy.take 32).drop 16)) = .ok (k0, k1)) :
    (dpfGen aes prgkey nitems target val).run (Host.online p e) =
      .ret (.ok (k0, k1), Host.online p (e.advance 32)) := by
  have hle : ¬ nitems ≤ target := by omega
  simp only [dpfGen, if_neg hle, Party.bind_run, arc4randomBuf_online,
    Proc.bind_ret, Party.andThen_ok, hgen]
  rfl

theorem dealKeys_run (order : List Bool) (htarget : target < nitems)
    (hdealt : e.dealt aes nitems target val valBytes = .ok (k0, k1)) :
    (dealKeys aes nitems target val valBytes order).run (Host.online .P2 e) =
      .sends (merge order ((NetPeer.vecFrames (serializeDpfKey k0)).map (Role.P0, ·))
          ((NetPeer.vecFrames (serializeDpfKey k1)).map (Role.P1, ·)))
        (.ret (.ok (), Host.online .P2 (e.afterDeal valBytes))) := by
  have hn : nitems ≠ 0 := by omega
  have hgen := dpfGen_run aes (p := .P2) ((e.advance 8).advance valBytes) nitems target val htarget hdealt
  unfold dealKeys
  rw [if_neg hn, Party.bind_run, arc4randomBuf_online, Proc.bind_ret, Party.andThen_ok, Party.bind_run,
    unassigned_online, Proc.bind_ret, Party.andThen_ok, Party.bind_run, arc4randomBuf_online,
    Proc.bind_ret, Party.andThen_ok, Party.bind_run, garbage_advance, hgen, Proc.bind_ret,
    Party.andThen_ok]
  rfl

variable (τ) in
/-- What a receiver makes of a buffer. -/
def evalBuffer (spare : Nat) (buffer : List Byte) :
    Except Err (Vector (Leaf τ) nitems × Vector Byte nitems) :=
  match (deserializeDpfKey τ buffer).bind fun r => evalAll aes spare r.1 nitems with
  | some r => .ok r
  | none => .error .undefined

theorem recvEval_run {σ : Type} (spare : Nat) (self : NetPeer) (s : σ) :
    (recvEval aes τ spare self nitems).run s =
      NetPeer.recvVec self 8 fun buffer => .ret (evalBuffer aes τ nitems spare buffer, s) := by
  unfold recvEval
  rw [Party.bind_run, NetPeer.recvVector_run, NetPeer.recvVec_bind]
  congr 1
  funext buffer
  rw [Proc.bind_ret, Party.andThen_ok, evalBuffer]
  cases deserializeDpfKey τ buffer with
  | none => rfl
  | some r =>
    show (Party.orUndefined (evalAll aes spare r.1 nitems)).run s = _
    rw [Option.bind_some]
    cases evalAll aes spare r.1 nitems <;> rfl

/-- A receiver of a key for its items ends with the key's leaves and flags. -/
theorem evalBuffer_serialize (hfits : τ.Fits nitems spare) (h64 : nitems < 2^64)
    (hn : key.nitems = nitems) (hcw : key.cw.length = key.depth) :
    evalBuffer aes τ nitems spare (serializeDpfKey key) =
      .ok (keyLeaves aes key nitems, keyFlags aes key nitems) := by
  have hdepth := key.depth_le (by omega)
  have h := deserialize_serialize key (by omega) (by omega) []
  rw [List.append_nil] at h
  rw [evalBuffer, h, Option.bind_some, evalAll_eq hfits hn hcw]

/-- A packed leaf's key fits a message. -/
theorem serialize_length_lt (hp : τ.isPacked = true) (h64 : key.nitems < 2^64)
    (hcw : key.cw.length = key.depth) : (serializeDpfKey key).length < 2^64 := by
  have hnode : τ.nodesPerLeaf = 1 := by rw [LeafT.nodesPerLeaf, if_pos hp]
  have hdepth := key.depth_le (by omega)
  rw [serialize_length, hnode]
  omega

end

end

end Mpc
