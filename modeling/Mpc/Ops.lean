import Mpc.Shares
import Mpc.Types

/- The interactive operations (mpcops.hpp): multiplication of additive shares,
   AND and OR of XOR shares, the dot product, the test for zero, and the operators
   on shares that call them. P2 deals correlated randomness; P0 and P1 mask their shares with
   it, exchange the masked shares and combine. -/
namespace Mpc
open LE NetPeer

/-! Preprocessing tapes. -/

/-- Where a recorded tape for one party sits in a context. -/
structure OutTape where
  get : MPCContext → OStream
  set : OStream → MPCContext → MPCContext

/-- Where a tape to replay sits in a context. -/
structure InTape where
  get : MPCContext → IStream
  set : IStream → MPCContext → MPCContext

def mulOutP0 : OutTape := ⟨MPCContext.mulOutP0, fun o c => { c with mulOutP0 := o }⟩
def mulOutP1 : OutTape := ⟨MPCContext.mulOutP1, fun o c => { c with mulOutP1 := o }⟩
def andOutP0 : OutTape := ⟨MPCContext.andOutP0, fun o c => { c with andOutP0 := o }⟩
def andOutP1 : OutTape := ⟨MPCContext.andOutP1, fun o c => { c with andOutP1 := o }⟩
def mulInP0 : InTape := ⟨MPCContext.mulInP0, fun i c => { c with mulInP0 := i }⟩
def mulInP1 : InTape := ⟨MPCContext.mulInP1, fun i c => { c with mulInP1 := i }⟩
def andInP0 : InTape := ⟨MPCContext.andInP0, fun i c => { c with andInP0 := i }⟩
def andInP1 : InTape := ⟨MPCContext.andInP1, fun i c => { c with andInP1 := i }⟩

/-- `tape.write(&value, sizeof(value))`. -/
def writeTape {w : Nat} (t : OutTape) (value : BitVec w) : Party Host Unit := do
  let h ← Party.get
  setCtx (t.set ((t.get h.ctx).write (enc value)) h.ctx)

/-- `tape.read(&value, sizeof(value))` into an unassigned variable. -/
def readTape (t : InTape) (w : Nat) : Party Host (BitVec w) := do
  let old ← unassigned w
  let h ← Party.get
  let r := (t.get h.ctx).read old
  setCtx (t.set r.2 h.ctx)
  return dec w r.1

/-- One party's record of a multiplication or an AND. -/
def writeRecord {w : Nat} (t : OutTape) (idx : BitVec 64) (X Y gamma : BitVec w) :
    Party Host Unit := do
  writeTape t idx
  writeTape t X
  writeTape t Y
  writeTape t gamma

/-- `ctx->mul_ctr++`. -/
def nextMul : Party Host (BitVec 64) := do
  let h ← Party.get
  setCtx { h.ctx with mulCtr := h.ctx.mulCtr + 1 }
  return h.ctx.mulCtr

/-- `ctx->and_ctr++`. -/
def nextAnd : Party Host (BitVec 64) := do
  let h ← Party.get
  setCtx { h.ctx with andCtr := h.ctx.andCtr + 1 }
  return h.ctx.andCtr

/-- Read a record and check its index against the counter. -/
def readRecord (t : InTape) (next : Party Host (BitVec 64)) (desync : String) (w : Nat) :
    Party Host (BitVec w × BitVec w × BitVec w) := do
  let idxFile ← readTape t 64
  let expected ← next
  if idxFile ≠ expected then Party.throw (.runtimeError desync)
  let X ← readTape t w
  let Y ← readTape t w
  let gamma ← readTape t w
  return (X, Y, gamma)

/-! mpc_dotproduct. -/

structure AdditiveShareVector where
  vals : List (BitVec 64)
  ctx : Bool

/-- How a seed of `seedLen` bytes becomes a vector of `n` words. -/
structure Expander where
  seedLen : Nat
  fill : Nat → List Byte → List (BitVec 64)

/-- Block seeds expanded by `crypto::fill_vector_with_prg`. -/
def prgExpander (aes : Block → Block) : Expander :=
  ⟨16, fun n seed => fillVectorWithPrg aes 64 n (dec 128 seed)⟩

/-- Seeds that are the vectors of `n` words themselves. -/
def uniformExpander (n : Nat) : Expander := ⟨8 * n, vecOf 64⟩

def mpcDotproduct (ex : Expander) (x y : AdditiveShareVector) (role : Role) (self : NetPeer)
    (peerPtr secondPeer : Option NetPeer) : Party Host (BitVec 64) :=
  match role with
  | .P2 =>
    match peerPtr, secondPeer with
    | some p0, some p1 => do
      let seedX0 ← arc4randomBuf ex.seedLen
      let seedX1 ← arc4randomBuf ex.seedLen
      let seedY0 ← arc4randomBuf ex.seedLen
      let seedY1 ← arc4randomBuf ex.seedLen
      let X0 := ex.fill x.vals.length seedX0
      let X1 := ex.fill x.vals.length seedX1
      let Y0 := ex.fill y.vals.length seedY0
      let Y1 := ex.fill y.vals.length seedY1
      let gamma0 ← Party.ofExcept (vecMul X0 Y1)
      let gamma1 ← Party.ofExcept (vecMul X1 Y0)
      Party.asyncWrite p0 seedX0
      Party.asyncWrite p0 seedY0
      NetPeer.send p0 gamma0
      Party.asyncWrite p1 seedX1
      Party.asyncWrite p1 seedY1
      NetPeer.send p1 gamma1
      return 0
    | _, _ => return 0
  | _ =>
    match peerPtr with
    | some peer => do
      let seedX ← Party.asyncRead self ex.seedLen
      let seedY ← Party.asyncRead self ex.seedLen
      let gamma ← NetPeer.recv self 64
      let XBlind := ex.fill x.vals.length seedX
      -- Y_blind has the size of x as well
      let YBlind := ex.fill x.vals.length seedY
      let xBlinded ← Party.ofExcept (vecAdd x.vals XBlind)
      let yBlinded ← Party.ofExcept (vecAdd y.vals YBlind)
      NetPeer.sendVector peer xBlinded
      NetPeer.sendVector peer yBlinded
      let XTilde ← NetPeer.recvVector peer 64
      let YTilde ← NetPeer.recvVector peer 64
      let yOpened ← Party.ofExcept (vecAdd y.vals YTilde)
      let own ← Party.ofExcept (vecMul x.vals yOpened)
      let cross ← Party.ofExcept (vecMul YBlind XTilde)
      return own - cross + gamma
    | none => return 0

/-! mpc_mul. -/

/-- The object sent for `x_i + X`: integral promotion makes a sum of words narrower
    than int an int. -/
def sumBytes {w : Nat} (a b : BitVec w) : List Byte :=
  if w < 32 then enc (a.setWidth 32 + b.setWidth 32) else enc (a + b)

/-- P0's and P1's material for one multiplication: X, Y and gamma. -/
def mulMaterial (ctx : Bool) (isP0 : Bool) (self : NetPeer) (w : Nat) :
    Party Host (BitVec w × BitVec w × BitVec w) := do
  let c ← deref ctx
  match c.randMode with
  | .Online => do
    let X ← NetPeer.recv self w
    let Y ← NetPeer.recv self w
    let gamma ← NetPeer.recv self w
    return (X, Y, gamma)
  | .Replay =>
    readRecord (if isP0 then mulInP0 else mulInP1) nextMul
      ("Replay desync in mpc_mul at " ++ (if isP0 then "P0" else "P1")) w
  | .Record => do
    let old ← unassigned w
    return (dec w old, dec w old, dec w old)

def mpcMul {w : Nat} (x y : AShare w) (role : Role) (self : NetPeer)
    (peerPtr secondPeer : Option NetPeer) : Party Host (BitVec w) :=
  if role = .P2 then
    match peerPtr, secondPeer with
    | some p0, some p1 => do
      let X0 ← mpcRandom x.ctx w
      let Y0 ← mpcRandom x.ctx w
      let X1 ← mpcRandom x.ctx w
      let Y1 ← mpcRandom x.ctx w
      let gamma0 := X0 * Y1
      let gamma1 := X1 * Y0
      let c ← deref x.ctx
      -- the list alternates between the two sockets: P0 gets X0, X1 and P1 gets Y0, Y1
      if c.randMode = .Online then do
        NetPeer.send p0 X0
        NetPeer.send p1 Y0
        NetPeer.send p0 X1
        NetPeer.send p1 Y1
        NetPeer.send p0 gamma0
        NetPeer.send p1 gamma1
      if c.randMode = .Record then do
        let idx ← nextMul
        writeRecord mulOutP0 idx X0 Y0 gamma0
        writeRecord mulOutP1 idx X1 Y1 gamma1
      return 0
    | _, _ => return 0
  else
    match peerPtr with
    | some peer => do
      let isP0 := decide (role = .P0)
      let (X, Y, gamma) ← mulMaterial x.ctx isP0 self w
      if isP0 then do
        Party.asyncWrite peer (sumBytes x.val X)
        Party.asyncWrite peer (sumBytes y.val Y)
        let XTilde ← NetPeer.recv peer w
        let YTilde ← NetPeer.recv peer w
        return x.val * (y.val + YTilde) - Y * XTilde + gamma
      else do
        let XTilde ← NetPeer.recv peer w
        let YTilde ← NetPeer.recv peer w
        Party.asyncWrite peer (sumBytes x.val X)
        Party.asyncWrite peer (sumBytes y.val Y)
        return x.val * (y.val + YTilde) - Y * XTilde + gamma
    | none => return 0

/-! mpc_and. -/

/-- P0's and P1's material for one AND: X, Y and gamma. -/
def andMaterial (ctx : Bool) (isP0 : Bool) (self : NetPeer) (w : Nat) :
    Party Host (BitVec w × BitVec w × BitVec w) := do
  let c ← deref ctx
  match c.randMode with
  | .Online => do
    let X ← NetPeer.recv self w
    let Y ← NetPeer.recv self w
    let gamma ← NetPeer.recv self w
    return (X, Y, gamma)
  | .Replay =>
    readRecord (if isP0 then andInP0 else andInP1) nextAnd
      ("Replay desync in mpc_and at " ++ (if isP0 then "P0" else "P1")) w
  | .Record => do
    let old ← unassigned w
    return (dec w old, dec w old, dec w old)

def mpcAnd {w : Nat} (x y : XShare w) (role : Role) (self : NetPeer)
    (peerPtr secondPeer : Option NetPeer) : Party Host (BitVec w) :=
  if role = .P2 then
    match peerPtr, secondPeer with
    | some p0, some p1 => do
      let c ← deref x.ctx
      -- a replaying P2 draws nothing here, unlike in mpc_mul
      if c.randMode = .Online ∨ c.randMode = .Record then do
        let X0 ← mpcRandom x.ctx w
        let Y0 ← mpcRandom x.ctx w
        let X1 ← mpcRandom x.ctx w
        let Y1 ← mpcRandom x.ctx w
        let gamma0 := X0 &&& Y1
        let gamma1 := X1 &&& Y0
        if c.randMode = .Online then do
          NetPeer.send p0 X0
          NetPeer.send p0 Y0
          NetPeer.send p0 gamma0
          NetPeer.send p1 X1
          NetPeer.send p1 Y1
          NetPeer.send p1 gamma1
        else do
          let idx ← nextAnd
          writeRecord andOutP0 idx X0 Y0 gamma0
          writeRecord andOutP1 idx X1 Y1 gamma1
      return 0
    | _, _ => return 0
  else
    match peerPtr with
    | some peer => do
      let isP0 := decide (role = .P0)
      let (X, Y, gamma) ← andMaterial x.ctx isP0 self w
      let ai := x.val ^^^ X
      let bi := y.val ^^^ Y
      if isP0 then do
        NetPeer.send peer ai
        NetPeer.send peer bi
        let aj ← NetPeer.recv peer w
        let bj ← NetPeer.recv peer w
        return (x.val &&& (y.val ^^^ bj)) ^^^ (Y &&& aj) ^^^ gamma
      else do
        let aj ← NetPeer.recv peer w
        let bj ← NetPeer.recv peer w
        NetPeer.send peer ai
        NetPeer.send peer bi
        return (x.val &&& (y.val ^^^ bj)) ^^^ (Y &&& aj) ^^^ gamma
    | none => return 0

/-! The operators on shares. -/

/-- `operator*(AShare, AShare)`; it instantiates mpc_mul at uint64_t. -/
def AShare.mul (x y : AShare 64) : Party Host (AShare 64) := do
  if !x.ctx || !y.ctx then Party.throw (.runtimeError "AShare::operator* missing ctx")
  let c ← deref x.ctx
  let result ← mpcMul x y c.role c.self c.peer0 c.peer1
  return ⟨result, x.ctx⟩

/-- `operator*(XShare, XShare)`. -/
def XShare.and {w : Nat} (x y : XShare w) : Party Host (XShare w) := do
  if !x.ctx || !y.ctx then Party.throw (.runtimeError "XShare::operator* missing ctx")
  let c ← deref x.ctx
  let result ← mpcAnd x y c.role c.self c.peer0 c.peer1
  return ⟨result, x.ctx⟩

/-- mpc_or: x ^ y ^ (x & y). Its role and peer arguments are not used. -/
def mpcOr {w : Nat} (x y : XShare w) : Party Host (BitVec w) := do
  let xorXy := x.xor y
  let andXy ← x.and y
  let orXy := xorXy.xor andXy
  return orXy.val

/-- `operator|(XShare, XShare)`. -/
def XShare.or {w : Nat} (x y : XShare w) : Party Host (XShare w) := do
  if !x.ctx || !y.ctx then Party.throw (.runtimeError "XShare::operator| missing ctx")
  let result ← mpcOr x y
  return ⟨result, x.ctx⟩

/-! mpc_eqz. -/

/-- One level of the OR tree: neighbours are combined, an odd last share is kept. -/
def orLevel {w : Nat} : List (XShare w) → Party Host (List (XShare w))
  | [] => return []
  | [a] => return [a]
  | a :: b :: level => do
    let t ← a.or b
    let next ← orLevel level
    return t :: next

/-- At most `n` rounds of the loop `while (level.size() > 1)`. -/
def orRounds {w : Nat} : Nat → List (XShare w) → Party Host (List (XShare w))
  | 0, level => return level
  | n+1, level => do
    if 1 < level.length then
      let next ← orLevel level
      orRounds n next
    else return level

/-- The loop: every round shortens the level, so its length bounds the rounds. -/
def orTree {w : Nat} (level : List (XShare w)) : Party Host (List (XShare w)) :=
  orRounds level.length level

/-- Bit `i` of a word, as a word. -/
def bitOf (x : BitVec 64) (i : Nat) : BitVec 64 := (x >>> i) &&& 1

/-- The leaves of P0's and P1's OR tree: the mask's shared bits, against the opened sum at P1. -/
def eqzLeaves (role : Role) (rXS cRec : BitVec 64) : List (BitVec 64) :=
  (List.range 64).map fun i =>
    if role = .P1 then bitOf cRec i ^^^ bitOf rXS i else bitOf rXS i

def mpcEqz (x : AShare 64) (role : Role) (self : NetPeer) (peerPtr secondPeer : Option NetPeer) :
    Party Host (XShare 64) :=
  if role = .P2 then
    match peerPtr, secondPeer with
    | some p0, some p1 => do
      let r ← arc4randomBuf 8
      let r0AS ← arc4randomBuf 8
      let r0XS ← arc4randomBuf 8
      let r1AS := dec 64 r - dec 64 r0AS
      let r1XS := dec 64 r ^^^ dec 64 r0XS
      NetPeer.send p0 (dec 64 r0AS)
      NetPeer.send p1 r1AS
      NetPeer.send p0 (dec 64 r0XS)
      NetPeer.send p1 r1XS
      -- a dummy tree keeps P2 in step with the others' ORs
      let _ ← orTree (List.replicate 64 (⟨0, x.ctx⟩ : XShare 64))
      return ⟨0, x.ctx⟩
    | _, _ => return ⟨0, false⟩
  else
    match peerPtr with
    | some peer => do
      let rAS ← NetPeer.recv self 64
      let rXS ← NetPeer.recv self 64
      let c := x.val + rAS
      NetPeer.send peer c
      let cRecv ← NetPeer.recv peer 64
      let cRec := c + cRecv
      let level ← orTree ((eqzLeaves role rXS cRec).map fun tmp => ⟨tmp, x.ctx⟩)
      Party.orUndefined level.head?
    | none => return ⟨0, false⟩

/-- `operator==(AShare, uint64_t)`. -/
def AShare.eqz (x : AShare 64) (zero : BitVec 64) : Party Host (XShare 64) := do
  if zero ≠ 0 then
    Party.throw (.runtimeError "operator== only supports == 0 for AShare")
  if !x.ctx then Party.throw (.runtimeError "AShare::operator== missing ctx")
  let c ← deref x.ctx
  mpcEqz x c.role c.self c.peer0 c.peer1

end Mpc
