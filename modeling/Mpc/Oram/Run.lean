import Mpc.Oram.Locoram

/- Runs of the three parties on their ORAMs. `System.step` is one operation as a
   function of the parties' environments and ORAMs; in the network every schedule
   of an operation settles in it (`op_run`), and so every schedule of a sequence of
   operations settles in `System.run` (`run_settles`). -/
namespace Mpc
open Fifo Diamond LE

/-! Operations of the three parties. -/

/-- An operation with what each party passes: a share vector for one party's ORAM, or an update
    or a read with P2's point, the parties' shares and the order of P2's writes. -/
inductive OramOp (τ : LeafT) (nitems : Nat) where
  | setShare (party : Role) (share : Vector (Leaf τ) nitems)
  | update (alpha : Fin nitems) (targetValue : Leaf τ) (idx : Role → Fin nitems)
      (index value : Role → BitVec 64) (order : List Bool)
  | readAShare (rho : Fin nitems) (index : Role → BitVec 64) (order : List Bool)
  | readXShare (rho : Fin nitems) (index : Role → BitVec 64) (order : List Bool)

namespace OramOp
variable {τ : LeafT} {nitems : Nat}

def isLoad : OramOp τ nitems → Bool
  | .setShare .. => true
  | _ => false

def isRead : OramOp τ nitems → Bool
  | .readAShare .. => true
  | .readXShare .. => true
  | _ => false

end OramOp

/-- An XShare read comes after a first update. -/
def ReadsAfterUpdate {τ : LeafT} {nitems : Nat} : Bool → List (OramOp τ nitems) → Prop
  | _, [] => True
  | updated, .readXShare .. :: ops => updated = true ∧ ReadsAfterUpdate updated ops
  | _, .update .. :: ops => ReadsAfterUpdate true ops
  | updated, _ :: ops => ReadsAfterUpdate updated ops

section
variable {τ : LeafT} {nitems : Nat} (aes : AesKey → Block → Block) (spare : Nat)

/-- An operation at party `p`. -/
def OramOp.run (p : Role) : OramOp τ nitems → Party (OramHost τ nitems) (Leaf τ)
  | .setShare party share => do
    let loc ← getOram
    if p = party then do
      let loc ← Party.ofExcept (loc.setShare share.toList)
      modifyOram fun _ => loc
    return 0
  | .update alpha targetValue idx index value order =>
    Ref.update aes spare order alpha targetValue (idx p) ⟨index p, true⟩ ⟨value p, true⟩
  | .readAShare rho index order => Ref.readAShare aes spare order rho ⟨index p, true⟩
  | .readXShare rho index order => Ref.readXShare aes spare order rho ⟨index p, true⟩

/-- The operations in turn, with their results. -/
def runOps (p : Role) : List (OramOp τ nitems) → Party (OramHost τ nitems) (List (Leaf τ))
  | [] => return []
  | op :: ops => do
    let r ← op.run aes spare p
    let rs ← runOps p ops
    return r :: rs

/-! The same as functions. -/

structure System (τ : LeafT) (nitems : Nat) where
  env : Role → Env
  oram : Role → Locoram τ nitems

namespace System

/-- The parties' memories. -/
def mem (s : System τ nitems) (p : Role) : OramHost τ nitems := ⟨Host.online p (s.env p), s.oram p⟩

/-- New ORAMs in the environments `env`. -/
def make (τ : LeafT) (nitems : Nat) (env : Role → Env) : System τ nitems :=
  ⟨env, fun _ => .make τ nitems⟩

/-- The environments after a deal of P2. -/
def dealtEnv (s : System τ nitems) (valBytes : Nat) : Role → Env :=
  tri (s.env .P0) (s.env .P1) ((s.env .P2).afterDeal valBytes)

end System

/-- The key P2 deals `p` in an operation. -/
def System.key {σ : LeafT} (s : System τ nitems) (target : Nat) (val : Leaf σ) (valBytes : Nat)
    (p : Role) : Option (DpfKey σ) :=
  match (s.env .P2).dealt aes nitems target val valBytes with
  | .ok (k0, k1) => tri (some k0) (some k1) none p
  | .error _ => none

/-- The leaves of the key P2 deals `p` in an update. -/
def System.leaves (s : System τ nitems) (target : Nat) (val : Leaf τ) (p : Role) :
    Vector (Leaf τ) nitems :=
  match s.key aes target val τ.sizeof p with
  | some k => keyLeaves aes k nitems
  | none => .replicate nitems 0

variable (τ nitems) in
/-- The selection vector of a read. -/
def selection (k : DpfKey .uint64) : Vector (Leaf τ) nitems :=
  (keyFlags aes k nitems).map (·.setWidth τ.bitsPerLeaf)

namespace Locoram
variable (loc : Locoram τ nitems)

/-- An update with the leaves of a key. -/
def afterUpdate (index value : XShare 64) (key : Option (DpfKey τ)) : Locoram τ nitems :=
  match key with
  | some k => (loc.noteUpdate index value).apply (keyLeaves aes k nitems)
  | none => loc.noteUpdate index value

/-- A read with the flags of a key and `first` as the first update's value. -/
def afterRead (first : Leaf τ) (key : Option (DpfKey .uint64)) : Locoram τ nitems :=
  match key with
  | some k => (loc.select (selection τ nitems aes k)).cancel
      (xorDot loc.blind.toList (selection τ nitems aes k).toList ^^^ first)
  | none => loc

/-- What a read returns. -/
def answer : Leaf τ :=
  xorDot loc.secretShare.toList
      (List.zipWith (· ^^^ ·) loc.sbvSecretShare.toList loc.sbvPeerBlinded.toList) ^^^
    xorDot loc.peerBlinded.toList loc.sbvBlind.toList ^^^ loc.cancellationTerm

/-- The share of the value of the first update. -/
def firstVal : Leaf τ :=
  match loc.updateVals with
  | v :: _ => v.val.setWidth τ.bitsPerLeaf
  | [] => 0

@[simp] theorem afterUpdate_updateVals (index value : XShare 64) (key : Option (DpfKey τ)) :
    (loc.afterUpdate aes index value key).updateVals = loc.updateVals ++ [value] := by
  cases key <;> rfl

@[simp] theorem afterRead_updateVals (first : Leaf τ) (key : Option (DpfKey .uint64)) :
    (loc.afterRead aes first key).updateVals = loc.updateVals := by
  cases key <;> rfl

end Locoram

namespace OramOp

/-- What an operation returns and where it leaves the parties. -/
def step (s : System τ nitems) : OramOp τ nitems → (Role → Leaf τ) × System τ nitems
  | .setShare party share =>
    (fun _ => 0, { s with
      oram := Function.update s.oram party { s.oram party with secretShare := share } })
  | .update alpha targetValue idx index value _ =>
    (fun p => (s.oram p).secretShare.get (idx p), {
      env := s.dealtEnv τ.sizeof
      oram := fun p => (s.oram p).afterUpdate aes ⟨index p, true⟩ ⟨value p, true⟩
        (s.key aes alpha targetValue τ.sizeof p) })
  | .readAShare rho _ _ =>
    let oram := fun p => (s.oram p).afterRead aes 0 (s.key aes rho 1 0 p)
    (fun p => (oram p).answer, { env := s.dealtEnv 0, oram := oram })
  | .readXShare rho index _ =>
    let oram := fun p => ((s.oram p).noteRead ⟨index p, true⟩).afterRead aes (s.oram p).firstVal
      (s.key aes rho 1 0 p)
    (fun p => (oram p).answer, { env := s.dealtEnv 0, oram := oram })

end OramOp

/-- A sequence of operations. -/
def System.run (s : System τ nitems) : List (OramOp τ nitems) → List (Role → Leaf τ) × System τ nitems
  | [] => ([], s)
  | op :: ops =>
    let r := op.step aes s
    let rs := System.run r.2 ops
    (r.1 :: rs.1, rs.2)

/-- The parties after a sequence of operations. -/
def System.after (s : System τ nitems) (ops : List (OramOp τ nitems)) : System τ nitems :=
  (s.run aes ops).2

theorem System.after_cons (s : System τ nitems) (op : OramOp τ nitems) (ops : List (OramOp τ nitems)) :
    s.after aes (op :: ops) = (op.step aes s).2.after aes ops := rfl

theorem System.after_append (s : System τ nitems) (ops ops' : List (OramOp τ nitems)) :
    s.after aes (ops ++ ops') = (s.after aes ops).after aes ops' := by
  induction ops generalizing s with
  | nil => rfl
  | cons op ops ih => exact ih _

theorem System.after_take_succ (s : System τ nitems) {ops : List (OramOp τ nitems)} {k : Nat}
    (hk : k < ops.length) :
    s.after aes (ops.take (k+1)) = (ops[k].step aes (s.after aes (ops.take k))).2 := by
  rw [← List.take_concat_get' ops k hk, System.after_append]
  rfl

theorem System.run_result (s : System τ nitems) {ops : List (OramOp τ nitems)} {k : Nat}
    (hk : k < ops.length) :
    (s.run aes ops).1[k]? = some (ops[k].step aes (s.after aes (ops.take k))).1 := by
  induction ops generalizing s k with
  | nil => exact absurd hk (Nat.not_lt_zero k)
  | cons op ops ih =>
    cases k with
    | zero => rfl
    | succ k => exact ih _ (Nat.lt_of_succ_lt_succ hk)

/-! Local steps. -/

section
variable {α β : Type} (s : OramHost τ nitems)

@[simp] theorem getOram_run : (getOram : Party (OramHost τ nitems) _).run s = .ret (.ok s.oram, s) := rfl

@[simp] theorem modifyOram_run (f : Locoram τ nitems → Locoram τ nitems) :
    (modifyOram f).run s = .ret (.ok (), { s with oram := f s.oram }) := rfl

@[simp] theorem contextOf_run (what : String) :
    (contextOf true what : Party (OramHost τ nitems) _).run s = .ret (.ok s.host.ctx, s) := rfl

theorem orUndefined_run {σ : Type} {o : Option α} {a : α} (h : o = some a) (s : σ) :
    (Party.orUndefined o).run s = .ret (.ok a, s) := by
  rw [h]
  rfl

theorem printEight_run {v : List β} (h : 8 ≤ v.length) : (printEight v).run s = .ret (.ok (), s) := by
  have hread : ∀ l : List Nat, (∀ i ∈ l, i < v.length) →
      ∃ r, l.mapM (fun i => v[i]?) = some r := by
    intro l
    induction l with
    | nil => intro _; exact ⟨[], rfl⟩
    | cons i l ih =>
      intro hl
      obtain ⟨r, hr⟩ := ih fun j hj => hl j (List.mem_cons_of_mem i hj)
      have hlt : i < v.length := hl i List.mem_cons_self
      have hi : v[i]? = some v[i] := List.getElem?_eq_getElem hlt
      refine ⟨v[i] :: r, ?_⟩
      simp only [List.mapM_cons, hi, hr, Option.pure_def, Option.bind_eq_bind, Option.bind_some]
  obtain ⟨r, hr⟩ := hread (List.range 8) fun i hi => by
    have := List.mem_range.mp hi
    omega
  rw [printEight, hr]
  rfl

/-- The vectors have one length, so the operators do not throw. -/
theorem answer_steps : (answer : Party (OramHost τ nitems) _) = (do
    let loc ← getOram
    printEight (List.zipWith (· ^^^ ·) loc.sbvSecretShare.toList loc.sbvPeerBlinded.toList)
    printEight loc.secretShare.toList
    printEight loc.sbvSecretShare.toList
    return loc.answer) := by
  have hlen : ∀ v : Vector (Leaf τ) nitems, v.toList.length = nitems := fun v => v.length_toList
  unfold answer
  congr 1
  funext loc
  have htmp : (List.zipWith (· ^^^ ·) loc.sbvSecretShare.toList loc.sbvPeerBlinded.toList).length =
      nitems := by
    rw [List.length_zipWith, hlen, hlen, Nat.min_self]
  rw [vecXor_ok ((hlen _).trans (hlen _).symm)]
  show (Party.ofExcept (vecAnd loc.secretShare.toList _) >>= fun _ => _) = _
  rw [vecAnd_ok ((hlen _).trans htmp.symm), vecAnd_ok ((hlen _).trans (hlen _).symm)]
  rfl

theorem answer_run (h8 : 8 ≤ nitems) :
    (answer : Party (OramHost τ nitems) _).run s = .ret (.ok s.oram.answer, s) := by
  have hlen : ∀ v : Vector (Leaf τ) nitems, 8 ≤ v.toList.length := fun v => v.length_toList.symm ▸ h8
  have htmp : 8 ≤ (List.zipWith (· ^^^ ·) s.oram.sbvSecretShare.toList
      s.oram.sbvPeerBlinded.toList).length := by
    rw [List.length_zipWith]
    exact le_min (hlen _) (hlen _)
  simp only [answer_steps, Party.bind_run, getOram_run, Proc.bind_ret, Party.andThen_ok, Party.pure_run,
    printEight_run s htmp, printEight_run s (hlen _)]

end

/-! One operation at one party. -/

section
variable {σ α β : Type} {x : Party σ α} {f : α → Party σ β} {s s₁ s' : σ} {a : α} {r : β}
  {buffer : List Byte} {ms : List (Role × List Byte)}

/-- `x` on `s` awaits a buffer from P2 and with `buffer` ends in `a` and `s'`. -/
def Gets (x : Party σ α) (s : σ) (buffer : List Byte) (a : α) (s' : σ) : Prop :=
  ∃ k, x.run s = NetPeer.recvVec .P2 8 k ∧ k buffer = .ret (.ok a, s')

theorem Gets.bind (h : Gets x s buffer a s₁) (h' : (f a).run s₁ = .ret (.ok r, s')) :
    Gets (x >>= f) s buffer r s' := by
  obtain ⟨k, hk, hb⟩ := h
  refine ⟨fun l => (k l).bind (Party.andThen f), ?_, ?_⟩
  · rw [Party.bind_run, hk, NetPeer.recvVec_bind]
  · show (k buffer).bind _ = _
    rw [hb, Proc.bind_ret, Party.andThen_ok, h']

theorem Gets.after (h : x.run s = .ret (.ok a, s₁)) (h' : Gets (f a) s₁ buffer r s') :
    Gets (x >>= f) s buffer r s' := by
  obtain ⟨k, hk, hb⟩ := h'
  refine ⟨k, ?_, hb⟩
  rw [Party.bind_run, h, Proc.bind_ret, Party.andThen_ok, hk]

/-- `x` on `s` sends `ms` and ends in `a` and `s'`. -/
def Puts (x : Party σ α) (s : σ) (ms : List (Role × List Byte)) (a : α) (s' : σ) : Prop :=
  x.run s = .sends ms (.ret (.ok a, s'))

theorem Puts.bind (h : Puts x s ms a s₁) (h' : (f a).run s₁ = .ret (.ok r, s')) :
    Puts (x >>= f) s ms r s' := by
  rw [Puts, Party.bind_run, h, Proc.bind_sends, Proc.bind_ret, Party.andThen_ok, h']

theorem Puts.after (h : x.run s = .ret (.ok a, s₁)) (h' : Puts (f a) s₁ ms r s') :
    Puts (x >>= f) s ms r s' := by
  rw [Puts, Party.bind_run, h, Proc.bind_ret, Party.andThen_ok, h']

end

/-- What a party's evaluations need. -/
structure Sized (τ : LeafT) (nitems spare : Nat) : Prop where
  eight : 8 ≤ nitems
  size : nitems < 2^64
  packed : τ.isPacked = true
  fits : τ.Fits nitems spare
  flagFits : LeafT.uint64.Fits nitems spare

/-- Vectors of an even number of 64-bit leaves have room without spare blocks. -/
theorem sized_even {nitems : Nat} (h8 : 8 ≤ nitems) (heven : nitems % 2 = 0) (h64 : nitems < 2^64)
    (spare : Nat) : Sized .uint64 nitems spare := by
  have hnodes : LeafT.uint64.nodes nitems * LeafT.uint64.nodesPerLeaf ≤
      nitems * LeafT.uint64.sizeof / 16 + spare := by
    have hle : nitems ⌈/⌉ 2 ≤ nitems / 2 := by
      rw [ceilDiv_le_iff_le_mul (by omega)]
      omega
    show nitems ⌈/⌉ 2 * 1 ≤ nitems * 8 / 16 + spare
    omega
  have hfits : LeafT.uint64.Fits nitems spare := ⟨by omega, hnodes⟩
  exact ⟨h8, h64, rfl, hfits, hfits⟩

/-- A key for `nitems` items. -/
structure DpfKey.For {τ : LeafT} (key : DpfKey τ) (nitems : Nat) : Prop where
  nitems : key.nitems = nitems
  cw : key.cw.length = key.depth

section
variable {aes spare} {p : Role} {e : Env} {loc : Locoram τ nitems}

variable (aes) in
theorem recvEval_gets {σ : LeafT} {key : DpfKey σ} (hfits : σ.Fits nitems spare)
    (h64 : nitems < 2^64) (hkey : key.For nitems) {S : Type} (s : S) :
    Gets (recvEval aes σ spare .P2 nitems) s (serializeDpfKey key)
      (keyLeaves aes key nitems, keyFlags aes key nitems) s := by
  refine ⟨_, recvEval_run aes nitems spare .P2 s, ?_⟩
  show Proc.ret (evalBuffer _ _ _ _ _, s) = _
  rw [evalBuffer_serialize aes nitems hfits h64 hkey.nitems hkey.cw]

variable (aes) in
theorem recvAndApply_gets (hsized : Sized τ nitems spare) {key : DpfKey τ} (hkey : key.For nitems)
    (s : OramHost τ nitems) :
    Gets (recvAndApply aes spare .P2) s (serializeDpfKey key) ()
      { s with oram := s.oram.apply (keyLeaves aes key nitems) } := by
  have h8 := hsized.eight
  have h64 := hsized.size
  have hn := hkey.nitems
  have hdepth := key.depth_le (by omega)
  have hcw := hkey.cw
  have hdec := deserialize_serialize key (by omega) (by omega) []
  rw [List.append_nil] at hdec
  refine Gets.bind ⟨_, NetPeer.recvVector_run .P2 8 s, rfl⟩ ?_
  rw [Party.bind_run, orUndefined_run hdec, Proc.bind_ret, Party.andThen_ok]
  simp only [if_neg (show nitems ≠ 0 by omega), Party.bind_run,
    orUndefined_run (evalAll_eq hsized.fits hn hcw), Proc.bind_ret, Party.andThen_ok]
  rfl

theorem update_gets (hp : p ≠ .P2) (hsized : Sized τ nitems spare) {key : DpfKey τ}
    (hkey : key.For nitems) (order : List Bool) (alpha : Nat) (v : Leaf τ) (idx : Fin nitems)
    (index value : BitVec 64) :
    Gets (Ref.update aes spare order alpha v idx ⟨index, true⟩ ⟨value, true⟩)
      ⟨Host.online p e, loc⟩ (serializeDpfKey key) (loc.secretShare.get idx)
      ⟨Host.online p e, loc.afterUpdate aes ⟨index, true⟩ ⟨value, true⟩ (some key)⟩ := by
  have hidx : loc.secretShare[idx.val]? = some (loc.secretShare.get idx) :=
    Vector.getElem?_eq_getElem idx.isLt
  unfold Ref.update
  refine Gets.after (contextOf_run _ _) (Gets.after (modifyOram_run _ _) (Gets.after (getOram_run _) ?_))
  refine Gets.after (orUndefined_run hidx _) ?_
  have h := recvAndApply_gets aes hsized hkey
    ⟨Host.online p e, loc.noteUpdate ⟨index, true⟩ ⟨value, true⟩⟩
  cases p with
  | P0 => exact Gets.bind h rfl
  | P1 => exact Gets.bind h rfl
  | P2 => exact absurd rfl hp

/-- A read at P0 or P1. -/
theorem readWith_gets (hp : p ≠ .P2) (hsized : Sized τ nitems spare) {key : DpfKey .uint64}
    (hkey : key.For nitems) {term : Leaf τ → Locoram τ nitems → Option (Leaf τ)} {first : Leaf τ}
    (hterm : ∀ product, term product (loc.select (selection τ nitems aes key)) = some (product ^^^ first))
    (order : List Bool) (rho : Nat) :
    Gets (Ref.readWith aes spare term order rho (Host.online p e).ctx) ⟨Host.online p e, loc⟩
      (serializeDpfKey key) (loc.afterRead aes first (some key)).answer
      ⟨Host.online p e, loc.afterRead aes first (some key)⟩ := by
  have hlen : (loc.select (selection τ nitems aes key)).blind.toList.length =
      (selection τ nitems aes key).toList.length := by
    rw [Vector.length_toList, Vector.length_toList]
  have hrecv := recvEval_gets aes hsized.flagFits hsized.size hkey
    (⟨Host.online p e, loc⟩ : OramHost τ nitems)
  -- all that follows the key is local
  have hrest : (Ref.finish term (keyFlags aes key nitems)).run ⟨Host.online p e, loc⟩ =
      .ret (.ok (loc.afterRead aes first (some key)).answer,
        ⟨Host.online p e, loc.afterRead aes first (some key)⟩) := by
    rw [selection] at hterm hlen
    simp only [Ref.finish, Party.bind_run, modifyOram_run, getOram_run, Proc.bind_ret, Party.andThen_ok,
      Party.ofExcept, vecAnd_ok hlen, Party.pure_run, orUndefined_run (hterm _),
      answer_run _ hsized.eight]
    rfl
  unfold Ref.readWith
  cases p with
  | P0 => exact Gets.bind hrecv hrest
  | P1 => exact Gets.bind hrecv hrest
  | P2 => exact absurd rfl hp

theorem onHost_puts {x : Party Host Unit} {h h' : Host} {ms : List (Role × List Byte)}
    (hx : x.run h = .sends ms (.ret (.ok (), h'))) :
    Puts (onHost x) ⟨h, loc⟩ ms () ⟨h', loc⟩ := by
  show (x.run h).bind _ = _
  rw [hx, Proc.bind_sends, Proc.bind_ret]

end

/-! One operation at the three parties. -/

section
variable {σ α : Type} {x : Role → Party σ α} {m m' : Role → σ} {r : Role → α}

/-- P0 and P1 each get a buffer from P2. -/
theorem PartyRun.deliver (order : List Bool) {b0 b1 : List Byte} (hl0 : b0.length < 2^64)
    (hl1 : b1.length < 2^64) (h0 : Gets (x .P0) (m .P0) b0 (r .P0) (m' .P0))
    (h1 : Gets (x .P1) (m .P1) b1 (r .P1) (m' .P1))
    (h2 : Puts (x .P2) (m .P2) (merge order ((NetPeer.vecFrames b0).map (Role.P0, ·))
      ((NetPeer.vecFrames b1).map (Role.P1, ·))) (r .P2) (m' .P2)) :
    ∃ views, PartyRun x m r m' views := by
  obtain ⟨k0, hk0, hr0⟩ := h0
  obtain ⟨k1, hk1, hr1⟩ := h1
  have hrun := Run.deliver order hl0 hl1 hr0 hr1 (.ok (r .P2), m' .P2)
  have hx := eq_tri (f := fun p => (x p).run (m p)) hk0 hk1 h2
  have hm := eq_tri (f := fun p => ((.ok (r p), m' p) : Except Err α × σ)) rfl rfl rfl
  refine ⟨tri ((NetPeer.vecFrames b0).map (Role.P2, ·)) ((NetPeer.vecFrames b1).map (Role.P2, ·)) [], ?_⟩
  rw [PartyRun, hx, hm]
  exact hrun

/-- No party communicates. -/
theorem PartyRun.still (h : ∀ p, (x p).run (m p) = .ret (.ok (r p), m' p)) :
    PartyRun x m r m' fun _ => [] := by
  rw [PartyRun, funext h]
  exact Run.ret _

end

section
variable {aes spare} (s : System τ nitems)

theorem PointKeys.for0 {σ : LeafT} {target : Nat} {val : Leaf σ} {k0 k1 : DpfKey σ}
    (h : PointKeys aes nitems target val k0 k1) : k0.For nitems :=
  ⟨h.nitems0, by rw [h.cw0, DpfKey.depth, h.nitems0]⟩

theorem PointKeys.for1 {σ : LeafT} {target : Nat} {val : Leaf σ} {k0 k1 : DpfKey σ}
    (h : PointKeys aes nitems target val k0 k1) : k1.For nitems :=
  ⟨h.nitems1, by rw [h.cw1, DpfKey.depth, h.nitems1]⟩

theorem DpfKey.For.length_lt {σ : LeafT} {key : DpfKey σ} (h : key.For nitems)
    (hp : σ.isPacked = true) (h64 : nitems < 2^64) : (serializeDpfKey key).length < 2^64 :=
  serialize_length_lt hp (by rw [h.nitems]; exact h64) h.cw

/-- The two halves of one `gen` are what P2 deals. -/
theorem System.key_dealt {σ : LeafT} {target : Nat} {val : Leaf σ} {valBytes : Nat} {k0 k1 : DpfKey σ}
    (h : (s.env .P2).dealt aes nitems target val valBytes = .ok (k0, k1)) :
    s.key aes target val valBytes = tri (some k0) (some k1) none := by
  funext p
  rw [System.key, h]

theorem setShare_run (party : Role) (share : Vector (Leaf τ) nitems) :
    PartyRun (fun p => OramOp.run aes spare p (.setShare party share)) s.mem
      (OramOp.step aes s (.setShare party share)).1 (OramOp.step aes s (.setShare party share)).2.mem
      fun _ => [] := by
  have hset : (s.oram party).setShare share.toList =
      .ok { s.oram party with secretShare := share } := by
    rw [Locoram.setShare, dif_pos share.length_toList]
    rfl
  apply PartyRun.still
  intro p
  by_cases hp : p = party
  · subst hp
    simp only [OramOp.run, if_true, Party.bind_run, getOram_run, Proc.bind_ret, Party.andThen_ok,
      System.mem, hset]
    simp [OramOp.step, Party.ofExcept]
  · simp only [OramOp.run, if_neg hp]
    simp [OramOp.step, System.mem, hp]

theorem update_run (hsized : Sized τ nitems spare) (alpha : Fin nitems) (targetValue : Leaf τ)
    (idx : Role → Fin nitems) (index value : Role → BitVec 64) (order : List Bool) :
    ∃ views, PartyRun
      (fun p => OramOp.run aes spare p (.update alpha targetValue idx index value order)) s.mem
      (OramOp.step aes s (.update alpha targetValue idx index value order)).1
      (OramOp.step aes s (.update alpha targetValue idx index value order)).2.mem views := by
  obtain ⟨k0, k1, hdealt, hkeys⟩ :=
    dealt_keys aes (s.env .P2) nitems alpha targetValue τ.sizeof alpha.isLt
  have hkey := s.key_dealt hdealt
  apply PartyRun.deliver order (hkeys.for0.length_lt hsized.packed hsized.size)
    (hkeys.for1.length_lt hsized.packed hsized.size)
  · simp only [OramOp.step, hkey]
    exact update_gets (by decide) hsized hkeys.for0 order alpha targetValue (idx .P0) _ _
  · simp only [OramOp.step, hkey]
    exact update_gets (by decide) hsized hkeys.for1 order alpha targetValue (idx .P1) _ _
  · have hidx : (s.oram .P2).secretShare[(idx .P2).val]? = some (s.oram .P2).secretShare[idx .P2] :=
      Vector.getElem?_eq_getElem (idx .P2).isLt
    have hdeal := dealKeys_run aes (s.env .P2) nitems alpha targetValue τ.sizeof order alpha.isLt hdealt
    simp only [OramOp.step, hkey]
    refine Puts.after (contextOf_run _ _) (Puts.after (modifyOram_run _ _) (Puts.after (getOram_run _) ?_))
    exact Puts.after (orUndefined_run hidx _) (Puts.bind (onHost_puts hdeal) rfl)

/-- The run of a read, given what it does before and to the cancellation term. -/
theorem readWith_run (hsized : Sized τ nitems spare) (rho : Fin nitems) (order : List Bool)
    {note : Role → Locoram τ nitems} {first : Role → Leaf τ}
    {term : Leaf τ → Locoram τ nitems → Option (Leaf τ)}
    (hterm : ∀ p, p ≠ .P2 → ∀ key product,
      term product ((note p).select (selection τ nitems aes key)) = some (product ^^^ first p)) :
    let oram := fun p => (note p).afterRead aes (first p) (s.key aes rho 1 0 p)
    ∃ views, PartyRun
      (fun p => Ref.readWith aes spare term order rho (Host.online p (s.env p)).ctx)
      (fun p => ⟨Host.online p (s.env p), note p⟩) (fun p => (oram p).answer)
      (System.mem ⟨s.dealtEnv 0, oram⟩) views := by
  obtain ⟨k0, k1, hdealt, hkeys⟩ := dealt_keys aes (s.env .P2) nitems rho (1 : Leaf .uint64) 0 rho.isLt
  have hkey := s.key_dealt hdealt
  intro oram
  apply PartyRun.deliver order (hkeys.for0.length_lt rfl hsized.size)
    (hkeys.for1.length_lt rfl hsized.size)
  · simp only [oram, hkey]
    exact readWith_gets (by decide) hsized hkeys.for0 (hterm .P0 (by decide) k0) order rho
  · simp only [oram, hkey]
    exact readWith_gets (by decide) hsized hkeys.for1 (hterm .P1 (by decide) k1) order rho
  · have hdeal := dealKeys_run aes (s.env .P2) nitems rho (1 : Leaf .uint64) 0 order rho.isLt hdealt
    simp only [oram, hkey]
    exact Puts.bind (onHost_puts hdeal) (answer_run _ hsized.eight)

theorem readAShare_run (hsized : Sized τ nitems spare) (rho : Fin nitems) (index : Role → BitVec 64)
    (order : List Bool) :
    ∃ views, PartyRun (fun p => OramOp.run aes spare p (.readAShare rho index order)) s.mem
      (OramOp.step aes s (.readAShare rho index order)).1
      (OramOp.step aes s (.readAShare rho index order)).2.mem views := by
  have hterm : ∀ p, p ≠ .P2 → ∀ (key : DpfKey .uint64) (product : Leaf τ),
      aTerm product ((s.oram p).select (selection τ nitems aes key)) = some (product ^^^ 0) :=
    fun _ _ _ _ => congrArg some BitVec.xor_zero.symm
  obtain ⟨views, h⟩ := readWith_run s hsized rho order hterm
  exact ⟨_, PartyRun.bind (PartyRun.still fun p => contextOf_run _ _) h⟩

theorem readXShare_run (hsized : Sized τ nitems spare) (rho : Fin nitems) (index : Role → BitVec 64)
    (order : List Bool) (hfirst : ∀ p, p ≠ .P2 → (s.oram p).updateVals ≠ []) :
    ∃ views, PartyRun (fun p => OramOp.run aes spare p (.readXShare rho index order)) s.mem
      (OramOp.step aes s (.readXShare rho index order)).1
      (OramOp.step aes s (.readXShare rho index order)).2.mem views := by
  have hterm : ∀ p, p ≠ .P2 → ∀ (key : DpfKey .uint64) (product : Leaf τ),
      xTerm product (((s.oram p).noteRead ⟨index p, true⟩).select (selection τ nitems aes key)) =
        some (product ^^^ (s.oram p).firstVal) := by
    intro p hp key product
    have hvals := hfirst p hp
    show (s.oram p).updateVals[0]?.bind _ = _
    rw [Locoram.firstVal]
    cases h : (s.oram p).updateVals with
    | nil => exact absurd h hvals
    | cons v vs => rfl
  obtain ⟨views, h⟩ := readWith_run s hsized rho order hterm
  exact ⟨_, PartyRun.bind (PartyRun.still fun p => contextOf_run _ _)
    (PartyRun.bind (PartyRun.still fun p => modifyOram_run _ _) h)⟩

/-- A read of an XShare index finds a first update. -/
def OramOp.Ready (s : System τ nitems) : OramOp τ nitems → Prop
  | .readXShare .. => ∀ p, p ≠ .P2 → (s.oram p).updateVals ≠ []
  | _ => True

variable (aes) in
/-- Every schedule of an operation settles in its step. -/
theorem op_run (hsized : Sized τ nitems spare) (op : OramOp τ nitems) (hready : op.Ready s) :
    ∃ views, PartyRun (fun p => op.run aes spare p) s.mem (op.step aes s).1 (op.step aes s).2.mem
      views := by
  cases op with
  | setShare party share => exact ⟨_, setShare_run s party share⟩
  | update alpha targetValue idx index value order =>
    exact update_run s hsized alpha targetValue idx index value order
  | readAShare rho index order => exact readAShare_run s hsized rho index order
  | readXShare rho index order => exact readXShare_run s hsized rho index order hready

variable (aes) in
/-- An update makes the parties ready for reads, and they stay ready. -/
theorem step_updateVals (op : OramOp τ nitems) {updated : Bool} {ops : List (OramOp τ nitems)}
    (h : ReadsAfterUpdate updated (op :: ops))
    (hup : updated = true → ∀ p, (s.oram p).updateVals ≠ []) :
    op.Ready s ∧ ∃ updated', ReadsAfterUpdate updated' ops ∧
      (updated' = true → ∀ p, ((op.step aes s).2.oram p).updateVals ≠ []) := by
  cases op with
  | setShare party share =>
    refine ⟨trivial, updated, h, ?_⟩
    intro hu p
    have hp := hup hu
    show (Function.update s.oram party _ p).updateVals ≠ []
    by_cases heq : p = party
    · subst heq
      rw [Function.update_self]
      exact hp p
    · rw [Function.update_of_ne heq]
      exact hp p
  | update alpha targetValue idx index value order =>
    refine ⟨trivial, true, h, ?_⟩
    intro _ p
    show ((s.oram p).afterUpdate aes _ _ _).updateVals ≠ []
    rw [Locoram.afterUpdate_updateVals]
    exact List.append_ne_nil_of_right_ne_nil _ (List.cons_ne_nil _ _)
  | readAShare rho index order =>
    refine ⟨trivial, updated, h, ?_⟩
    intro hu p
    show ((s.oram p).afterRead aes _ _).updateVals ≠ []
    rw [Locoram.afterRead_updateVals]
    exact hup hu p
  | readXShare rho index order =>
    -- readX looks at the last update, so one must have been made
    obtain ⟨hu, hops⟩ := h
    refine ⟨fun p _ => hup hu p, updated, hops, ?_⟩
    intro _ p
    show (((s.oram p).noteRead _).afterRead aes _ _).updateVals ≠ []
    rw [Locoram.afterRead_updateVals]
    exact hup hu p

theorem ReadsAfterUpdate.take {updated : Bool} {ops : List (OramOp τ nitems)}
    (h : ReadsAfterUpdate updated ops) (k : Nat) : ReadsAfterUpdate updated (ops.take k) := by
  induction ops generalizing updated k with
  | nil =>
    rw [List.take_nil]
    exact h
  | cons op ops ih =>
    cases k with
    | zero => trivial
    | succ k =>
      rw [List.take_succ_cons]
      cases op with
      | readXShare rho index order => exact ⟨h.1, ih h.2 k⟩
      | _ => exact ih h k

variable (aes) in
/-- Every schedule of a sequence of operations settles in its run. -/
theorem run_settles (hsized : Sized τ nitems spare) (ops : List (OramOp τ nitems)) {updated : Bool}
    (h : ReadsAfterUpdate updated ops) (hup : updated = true → ∀ p, (s.oram p).updateVals ≠ []) :
    ∃ views, PartyRun (fun p => runOps aes spare p ops) s.mem (fun p => (s.run aes ops).1.map (· p))
      (s.run aes ops).2.mem views := by
  induction ops generalizing s updated with
  | nil => exact ⟨_, PartyRun.pure _ _⟩
  | cons op ops ih =>
    obtain ⟨hready, updated', hops, hup'⟩ := step_updateVals aes s op h hup
    obtain ⟨v, hrun⟩ := op_run aes s hsized op hready
    obtain ⟨w, hrest⟩ := ih (op.step aes s).2 hops hup'
    exact ⟨_, hrun.bind (hrest.map fun p rs => (op.step aes s).1 p :: rs)⟩

/-- Every schedule of `ops` from `s` ends with the results and the memories of `s.run`. -/
def System.Ends (aes : AesKey → Block → Block) (spare : Nat) (s : System τ nitems)
    (ops : List (OramOp τ nitems)) : Prop :=
  ∃ views, Settles Step (start fun p => (runOps aes spare p ops).run (s.mem p))
    (finished (fun p => (.ok ((s.run aes ops).1.map (· p)), (s.run aes ops).2.mem p)) views)

/-- From new ORAMs. -/
theorem make_ends (hsized : Sized τ nitems spare) (env : Role → Env) {ops : List (OramOp τ nitems)}
    (h : ReadsAfterUpdate false ops) : (System.make τ nitems env).Ends aes spare ops := by
  obtain ⟨views, hrun⟩ := run_settles aes (.make τ nitems env) hsized ops h fun hu => nomatch hu
  exact ⟨views, hrun.settles⟩

end

end

end Mpc
