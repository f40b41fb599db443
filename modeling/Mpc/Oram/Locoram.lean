import Mpc.Oram.Keys
import Mpc.Types

/- The oblivious RAM (locoram.hpp, locoram.tpp). Each party has a `Locoram` of
   vectors that are as long as it has items, so the size checks of the vector
   operators never fail on them; its memory is a `Host` and that `Locoram`. `update`
   and the two `read`s run at all parties: P2 deals keys, P0 and P1 evaluate theirs
   and change their vectors.

   The source's reads compile for 64-bit leaves only (`blind & w_vals`); here the
   selection vector has the leaves' type. What it only prints is left out, but the
   accesses are made. -/
namespace Mpc
open Fifo LE

/-! State. -/

structure Locoram (τ : LeafT) (nitems : Nat) where
  secretShare : Vector (Leaf τ) nitems
  blind : Vector (Leaf τ) nitems
  peerBlinded : Vector (Leaf τ) nitems
  sbvSecretShare : Vector (Leaf τ) nitems
  sbvBlind : Vector (Leaf τ) nitems
  sbvPeerBlinded : Vector (Leaf τ) nitems
  updateInds : List (XShare 64)
  updateVals : List (XShare 64)
  readInds : List (XShare 64)
  cancellationTerm : Leaf τ

namespace Locoram
variable {τ : LeafT} {nitems : Nat}

/-- The constructor. -/
def make (τ : LeafT) (nitems : Nat) : Locoram τ nitems where
  secretShare := .replicate nitems 0
  blind := .replicate nitems 0
  peerBlinded := .replicate nitems 0
  sbvSecretShare := .replicate nitems 0
  sbvBlind := .replicate nitems 0
  sbvPeerBlinded := .replicate nitems 0
  updateInds := []
  updateVals := []
  readInds := []
  cancellationTerm := 0

variable (loc : Locoram τ nitems)

def setShare (share : List (Leaf τ)) : Except Err (Locoram τ nitems) :=
  if h : share.length = nitems then .ok { loc with secretShare := ⟨share.toArray, h⟩ }
  else .error (.runtimeError "Size mismatch in Locoram::set_share")

/-- The loop of `locoram_recv_and_apply_p0p1`. -/
def apply (output : Vector (Leaf τ) nitems) : Locoram τ nitems :=
  { loc with
    secretShare := .zipWith (· ^^^ ·) loc.secretShare output
    blind := .zipWith (· ^^^ ·) loc.blind output }

/-- The loop of `read`. -/
def select (w : Vector (Leaf τ) nitems) : Locoram τ nitems :=
  { loc with
    sbvSecretShare := .zipWith (· ^^^ ·) loc.sbvSecretShare w
    sbvBlind := .zipWith (· ^^^ ·) loc.sbvBlind w }

def cancel (term : Leaf τ) : Locoram τ nitems :=
  { loc with cancellationTerm := loc.cancellationTerm ^^^ term }

def noteUpdate (index value : XShare 64) : Locoram τ nitems :=
  { loc with updateInds := loc.updateInds ++ [index], updateVals := loc.updateVals ++ [value] }

def noteRead (index : XShare 64) : Locoram τ nitems :=
  { loc with readInds := loc.readInds ++ [index] }

end Locoram

theorem get_xor {w n : Nat} (a b : Vector (BitVec w) n) (i : Fin n) :
    (Vector.zipWith (· ^^^ ·) a b).get i = a.get i ^^^ b.get i :=
  Vector.getElem_zipWith i.isLt

/-- A party's memory. -/
structure OramHost (τ : LeafT) (nitems : Nat) where
  host : Host
  oram : Locoram τ nitems

section
variable {τ : LeafT} {nitems : Nat} {α : Type}

/-- A coroutine that leaves the ORAM alone. -/
def onHost (x : Party Host α) : Party (OramHost τ nitems) α :=
  ⟨fun s => (x.run s.host).bind fun r => .ret (r.1, { s with host := r.2 })⟩

def getOram : Party (OramHost τ nitems) (Locoram τ nitems) := do
  let s ← Party.get
  return s.oram

def modifyOram (f : Locoram τ nitems → Locoram τ nitems) : Party (OramHost τ nitems) Unit := do
  let s ← Party.get
  Party.set { s with oram := f s.oram }

/-- The context of a share, which a null pointer has none of. -/
def contextOf (ctx : Bool) (what : String) : Party (OramHost τ nitems) MPCContext := do
  let s ← Party.get
  if ctx then return s.host.ctx else Party.throw (.runtimeError what)

/-- A loop that prints the first eight elements of a vector. -/
def printEight {β : Type} (v : List β) : Party (OramHost τ nitems) Unit := do
  let _ ← Party.orUndefined ((List.range 8).mapM fun i => v[i]?)

/-! Operations. -/

variable (aes : AesKey → Block → Block) (spare : Nat)

/-- `locoram_recv_and_apply_p0p1`. -/
def recvAndApply (self : NetPeer) : Party (OramHost τ nitems) Unit := do
  let buffer ← NetPeer.recvVector self 8
  let (key, _) ← Party.orUndefined (deserializeDpfKey τ buffer)
  if nitems = 0 then return ()
  else do
    let (output, _) ← Party.orUndefined (evalAll aes spare key nitems)
    modifyOram (·.apply output)

/-- `Ref::update` at item `idx`, in which P2 writes `targetValue` at `alpha`. -/
def Ref.update (order : List Bool) (alpha : Nat) (targetValue : Leaf τ) (idx : Nat)
    (sharedIndex valueShare : XShare 64) : Party (OramHost τ nitems) (Leaf τ) := do
  let ctx ← contextOf sharedIndex.ctx "Missing MPCContext in Locoram::Ref::update"
  modifyOram (·.noteUpdate sharedIndex valueShare)
  let loc ← getOram
  let localValue ← Party.orUndefined loc.secretShare[idx]?
  match ctx.role with
  | .P0 | .P1 => recvAndApply aes spare ctx.self
  | .P2 => onHost (dealKeys aes nitems alpha targetValue τ.sizeof order)
  return localValue

/-- The result of a read. -/
def answer : Party (OramHost τ nitems) (Leaf τ) := do
  let loc ← getOram
  let tmp ← Party.ofExcept (vecXor loc.sbvSecretShare.toList loc.sbvPeerBlinded.toList)
  let a ← Party.ofExcept (vecAnd loc.secretShare.toList tmp)
  let b ← Party.ofExcept (vecAnd loc.peerBlinded.toList loc.sbvBlind.toList)
  printEight tmp
  printEight loc.secretShare.toList
  printEight loc.sbvSecretShare.toList
  return a ^^^ b ^^^ loc.cancellationTerm

/-- The common part of the two `Ref::read`, in which P2 reads at `rho`. They differ in the change
    `term` of the cancellation term, given the product of `blind` and the selection vector. -/
def Ref.readWith (term : Leaf τ → Locoram τ nitems → Option (Leaf τ)) (order : List Bool) (rho : Nat)
    (ctx : MPCContext) : Party (OramHost τ nitems) (Leaf τ) := do
  match ctx.role with
  | .P0 | .P1 => do
    let (_, flags) ← recvEval aes .uint64 spare ctx.self nitems
    let wVals : Vector (Leaf τ) nitems := flags.map (·.setWidth τ.bitsPerLeaf)
    modifyOram (·.select wVals)
    let loc ← getOram
    let product ← Party.ofExcept (vecAnd loc.blind.toList wVals.toList)
    let change ← Party.orUndefined (term product loc)
    modifyOram (·.cancel change)
  | .P2 => onHost (dealKeys aes nitems rho (1 : Leaf .uint64) 0 order)
  answer

/-- A read of P0 or P1 after the evaluation of its key, which gave `flags`. -/
def Ref.finish (term : Leaf τ → Locoram τ nitems → Option (Leaf τ)) (flags : Vector Byte nitems) :
    Party (OramHost τ nitems) (Leaf τ) := do
  let wVals : Vector (Leaf τ) nitems := flags.map (·.setWidth τ.bitsPerLeaf)
  modifyOram (·.select wVals)
  let loc ← getOram
  let product ← Party.ofExcept (vecAnd loc.blind.toList wVals.toList)
  let change ← Party.orUndefined (term product loc)
  modifyOram (·.cancel change)
  answer

theorem Ref.readWith_eq {ctx : MPCContext} (hrole : ctx.role ≠ .P2)
    (term : Leaf τ → Locoram τ nitems → Option (Leaf τ)) (order : List Bool) (rho : Nat) :
    Ref.readWith aes spare term order rho ctx =
      recvEval aes .uint64 spare ctx.self nitems >>= fun r => Ref.finish term r.2 := by
  unfold Ref.readWith
  cases hr : ctx.role with
  | P0 => rfl
  | P1 => rfl
  | P2 => exact absurd hr hrole

/-- The change of the cancellation term by a read of an AShare index. -/
def aTerm (product : Leaf τ) (_ : Locoram τ nitems) : Option (Leaf τ) := some product

/-- `Ref::read` of an AShare index. -/
def Ref.readAShare (order : List Bool) (rho : Nat) (sharedIndex : AShare 64) :
    Party (OramHost τ nitems) (Leaf τ) := do
  let ctx ← contextOf sharedIndex.ctx "Missing MPCContext in Locoram::Ref::read"
  Ref.readWith aes spare aTerm order rho ctx

/-- The change of the cancellation term by a read of an XShare index. -/
def xTerm (product : Leaf τ) (loc : Locoram τ nitems) : Option (Leaf τ) := do
  let v ← loc.updateVals[0]?
  return product ^^^ v.val.setWidth τ.bitsPerLeaf

/-- `Ref::read` of an XShare index. -/
def Ref.readXShare (order : List Bool) (rho : Nat) (sharedIndex : XShare 64) :
    Party (OramHost τ nitems) (Leaf τ) := do
  let ctx ← contextOf sharedIndex.ctx "Missing MPCContext in Locoram::Ref::read"
  modifyOram (·.noteRead sharedIndex)
  Ref.readWith aes spare xTerm order rho ctx

end

end Mpc
