import Mpc.Network

/- Contexts, shares and randomness (shares.hpp). A party's memory is a `Host`:
   its `MPCContext` with the preprocessing tapes and counters, what
   arc4random_buf will return, and what an object that was never assigned holds.
   A share keeps the context pointer as a Boolean: a set pointer is the host's
   one context. -/
namespace Mpc
open Fifo LE

inductive RandomnessMode where
  | Online | Record | Replay
  deriving DecidableEq, Repr

/-- An `std::ofstream`: what was written, and whether writes still succeed. -/
structure OStream where
  bytes : List Byte
  good : Bool

def OStream.closed : OStream := ⟨[], false⟩

def OStream.write (o : OStream) (l : List Byte) : OStream :=
  if o.good then { o with bytes := o.bytes ++ l } else o

/-- An `std::ifstream`: what is still to read, and whether reads still succeed. -/
structure IStream where
  bytes : List Byte
  good : Bool

def IStream.closed : IStream := ⟨[], false⟩

/-- A read of `old.length` bytes over an object that held `old`. A short read stores
    what there was and fails the stream; a read of a failed stream stores nothing. -/
def IStream.read (i : IStream) (old : List Byte) : List Byte × IStream :=
  if i.good then
    if old.length ≤ i.bytes.length then
      (i.bytes.take old.length, { i with bytes := i.bytes.drop old.length })
    else (i.bytes ++ old.drop i.bytes.length, ⟨[], false⟩)
  else (old, i)

/-- A read that the stream has the bytes for. -/
theorem IStream.read_of_le {l old : List Byte} (h : old.length ≤ l.length) :
    IStream.read ⟨l, true⟩ old = (l.take old.length, ⟨l.drop old.length, true⟩) :=
  (if_pos rfl).trans (if_pos h)

structure MPCContext where
  role : Role
  self : NetPeer
  peer0 : Option NetPeer
  peer1 : Option NetPeer
  randMode : RandomnessMode
  randOut : OStream
  randIn : IStream
  mulOutP0 : OStream
  mulOutP1 : OStream
  mulInP0 : IStream
  mulInP1 : IStream
  andOutP0 : OStream
  andOutP1 : OStream
  andInP0 : IStream
  andInP1 : IStream
  mulCtr : BitVec 64
  andCtr : BitVec 64

/-- The constructor. It sets neither counter: `mulCtr` and `andCtr` are what the
    memory held. -/
def MPCContext.make (r : Role) (s : NetPeer) (p0 p1 : Option NetPeer) (mulCtr andCtr : BitVec 64) :
    MPCContext where
  role := r
  self := s
  peer0 := p0
  peer1 := p1
  randMode := .Online
  randOut := .closed
  randIn := .closed
  mulOutP0 := .closed
  mulOutP1 := .closed
  mulInP0 := .closed
  mulInP1 := .closed
  andOutP0 := .closed
  andOutP1 := .closed
  andInP0 := .closed
  andInP1 := .closed
  mulCtr := mulCtr
  andCtr := andCtr

/-- What arc4random_buf returns: byte `drawn` next. -/
structure Entropy where
  byte : Nat → Byte
  drawn : Nat

namespace Entropy

def take (e : Entropy) (n : Nat) : List Byte := (List.range n).map (fun i => e.byte (e.drawn + i))
def advance (e : Entropy) (n : Nat) : Entropy := { e with drawn := e.drawn + n }

/-- The next word of `w` bits. -/
def word (e : Entropy) (w : Nat) : BitVec w := dec w (e.take (sizeBytes w))

/-- The entropy after `k` draws of `n` bytes. -/
def after (e : Entropy) (n : Nat) : Nat → Entropy
  | 0 => e
  | k+1 => (e.after n k).advance n

/-- The entropy after a word of `w` bits. -/
def skip (e : Entropy) (w : Nat) : Entropy := e.advance (sizeBytes w)

end Entropy

structure Host where
  ctx : MPCContext
  entropy : Entropy
  uninit : Nat → Byte

/-- The bytes of an unassigned object of `w` bits. -/
def Host.garbage (h : Host) (w : Nat) : List Byte := (List.range (sizeBytes w)).map h.uninit

theorem Host.garbage_length (h : Host) (w : Nat) : (h.garbage w).length = sizeBytes w := by
  rw [Host.garbage, List.length_map, List.length_range]

structure XShare (w : Nat) where
  val : BitVec w
  ctx : Bool

structure AShare (w : Nat) where
  val : BitVec w
  ctx : Bool

namespace XShare
variable {w : Nat}

def xor (a b : XShare w) : XShare w := ⟨a.val ^^^ b.val, a.ctx⟩
def add (a b : XShare w) : XShare w := a.xor b
def sub (a b : XShare w) : XShare w := a.xor b

end XShare

namespace AShare
variable {w : Nat}

def add (a b : AShare w) : AShare w := ⟨a.val + b.val, a.ctx⟩
def sub (a b : AShare w) : AShare w := ⟨a.val - b.val, a.ctx⟩
def addAssign (a b : AShare w) : AShare w := ⟨a.val + b.val, a.ctx⟩

end AShare

/-! Coroutines on a host. -/

/-- The context behind a share's pointer. -/
def deref (ctx : Bool) : Party Host MPCContext := do
  let h ← Party.get
  if ctx then return h.ctx else Party.throw .undefined

def setCtx (ctx : MPCContext) : Party Host Unit := do
  let h ← Party.get
  Party.set { h with ctx := ctx }

def arc4randomBuf (n : Nat) : Party Host (List Byte) := do
  let h ← Party.get
  Party.set { h with entropy := h.entropy.advance n }
  return h.entropy.take n

/-- An unassigned variable of `w` bits. -/
def unassigned (w : Nat) : Party Host (List Byte) := do
  let h ← Party.get
  return h.garbage w

def mpcRandom (ctx : Bool) (w : Nat) : Party Host (BitVec w) := do
  let c ← deref ctx
  match c.randMode with
  | .Online => do
    let out ← arc4randomBuf (sizeBytes w)
    return dec w out
  | .Record => do
    let out ← arc4randomBuf (sizeBytes w)
    let c := { c with randOut := c.randOut.write out }
    setCtx c
    if !c.randOut.good then Party.throw (.runtimeError "Failed to record randomness")
    return dec w out
  | .Replay => do
    let old ← unassigned w
    let r := c.randIn.read old
    setCtx { c with randIn := r.2 }
    if !r.2.good then Party.throw (.runtimeError "Out of preprocessing randomness")
    return dec w r.1

/-! Connected parties. Each party's `self` is its socket to P2 (P2's is its first
    peer); P0 and P1 have each other as first peer, P2 has both. -/

def selfOf : Role → NetPeer
  | .P0 => .P2
  | .P1 => .P2
  | .P2 => .P0

def peer0Of : Role → Option NetPeer
  | .P0 => some .P1
  | .P1 => some .P0
  | .P2 => some .P0

def peer1Of : Role → Option NetPeer
  | .P0 => none
  | .P1 => none
  | .P2 => some .P1

/-- What the environment gives a party: its unset counters, its entropy and its
    unassigned memory. -/
structure Env where
  mulCtr : BitVec 64
  andCtr : BitVec 64
  entropy : Entropy
  uninit : Nat → Byte

/-- A party as its constructor leaves it, connected to the others, in Online mode. -/
def Host.online (p : Role) (e : Env) : Host :=
  ⟨MPCContext.make p (selfOf p) (peer0Of p) (peer1Of p) e.mulCtr e.andCtr, e.entropy, e.uninit⟩

/-- An environment that returns zeros. -/
def Env.zeros : Env := ⟨0, 0, ⟨fun _ => 0, 0⟩, fun _ => 0⟩

def Env.word (e : Env) (w : Nat) : BitVec w := e.entropy.word w
def Env.garbage (e : Env) (w : Nat) : List Byte := (List.range (sizeBytes w)).map e.uninit
def Env.advance (e : Env) (n : Nat) : Env := { e with entropy := e.entropy.advance n }
def Env.skip (e : Env) (w : Nat) : Env := { e with entropy := e.entropy.skip w }

section
variable {α : Type} (p : Role) (e : Env)

@[simp] theorem garbage_advance (n w : Nat) : (e.advance n).garbage w = e.garbage w := rfl
@[simp] theorem deref_run (h : Host) : (deref true).run h = .ret (.ok h.ctx, h) := rfl

@[simp] theorem online_role : (Host.online p e).ctx.role = p := rfl
@[simp] theorem online_self : (Host.online p e).ctx.self = selfOf p := rfl
@[simp] theorem online_peer0 : (Host.online p e).ctx.peer0 = peer0Of p := rfl
@[simp] theorem online_peer1 : (Host.online p e).ctx.peer1 = peer1Of p := rfl
@[simp] theorem online_randMode : (Host.online p e).ctx.randMode = .Online := rfl

theorem arc4randomBuf_online (n : Nat) :
    (arc4randomBuf n).run (Host.online p e) =
      .ret (.ok (e.entropy.take n), Host.online p (e.advance n)) := rfl

theorem unassigned_online (w : Nat) :
    (unassigned w).run (Host.online p e) = .ret (.ok (e.garbage w), Host.online p e) := rfl

theorem mpcRandom_online (w : Nat) :
    (mpcRandom true w).run (Host.online p e) = .ret (.ok (e.word w), Host.online p (e.skip w)) := rfl

end

end Mpc
