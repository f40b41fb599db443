import Mpc.Oram.InRange

/- The selection vectors of a Locoram (locoram.tpp). A read changes them by the flags of a
   key's evaluation, which are 0 or 1 whatever P2 sent (`evalAll_flags`), so the entries
   of all three are 0 or 1 in every state of a run (`selectionBits_of_run`). The operator `&`
   adds up integer products with XOR; it distributes over XOR where the vector on its right
   holds zeros and ones (`xorDot_xor_left`, `xorDot_xor_right`), and not in general. -/
namespace Mpc
open Fifo LE Party

/-! The product. -/

section
variable {w : Nat} {x x' y y' : BitVec w} {a a' b b' : List (BitVec w)}

theorem IsBit.xor_mul (hy : IsBit y) : (x ^^^ x') * y = x * y ^^^ x' * y := by
  rcases hy with rfl | rfl
  · simp only [BitVec.ofNat_eq_ofNat, BitVec.mul_zero, BitVec.xor_self]
  · simp only [BitVec.ofNat_eq_ofNat, BitVec.mul_one]

theorem IsBit.mul_xor (hy : IsBit y) (hy' : IsBit y') : x * (y ^^^ y') = x * y ^^^ x * y' := by
  rcases hy with rfl | rfl
  · simp only [BitVec.ofNat_eq_ofNat, BitVec.zero_xor, BitVec.mul_zero]
  · rcases hy' with rfl | rfl
    · simp only [BitVec.ofNat_eq_ofNat, BitVec.xor_zero, BitVec.mul_zero]
    · simp only [BitVec.ofNat_eq_ofNat, BitVec.xor_self, BitVec.mul_zero]

theorem xorDot_nil_right : xorDot a [] = 0 := by
  cases a <;> rfl

/-- On bits the product is additive in its left vector. -/
theorem xorDot_xor_left (ha : a.length = a'.length) (hb : ∀ y ∈ b, IsBit y) :
    xorDot (List.zipWith (· ^^^ ·) a a') b = xorDot a b ^^^ xorDot a' b := by
  induction b generalizing a a' with
  | nil => simp only [xorDot_nil_right, BitVec.ofNat_eq_ofNat, BitVec.xor_self]
  | cons y b ih =>
    cases a with
    | nil =>
      obtain rfl : a' = [] := List.eq_nil_of_length_eq_zero ha.symm
      exact BitVec.xor_self.symm
    | cons x a =>
      cases a' with
      | nil => cases ha
      | cons x' a' =>
        have hrest := ih (Nat.succ.inj ha) fun z hz => hb z (List.mem_cons_of_mem y hz)
        rw [List.zipWith_cons_cons, xorDot_cons, xorDot_cons, xorDot_cons, hrest,
          (hb y List.mem_cons_self).xor_mul, xor_xor_xor_comm]

/-- It is additive in its right vector, for bits on both sides of the XOR. -/
theorem xorDot_xor_right (hb : ∀ y ∈ b, IsBit y) (hb' : ∀ y ∈ b', IsBit y)
    (hlen : b.length = b'.length) :
    xorDot a (List.zipWith (· ^^^ ·) b b') = xorDot a b ^^^ xorDot a b' := by
  induction a generalizing b b' with
  | nil => exact BitVec.xor_self.symm
  | cons x a ih =>
    cases b with
    | nil =>
      obtain rfl : b' = [] := List.eq_nil_of_length_eq_zero hlen.symm
      exact BitVec.xor_self.symm
    | cons y b =>
      cases b' with
      | nil => cases hlen
      | cons y' b' =>
        have hrest := ih (fun z hz => hb z (List.mem_cons_of_mem y hz))
          (fun z hz => hb' z (List.mem_cons_of_mem y' hz)) (Nat.succ.inj hlen)
        rw [List.zipWith_cons_cons, xorDot_cons, xorDot_cons, xorDot_cons, hrest,
          (hb y List.mem_cons_self).mul_xor (hb' y' List.mem_cons_self), xor_xor_xor_comm]

/-- Beside zeros and ones the product is not additive. -/
example : xorDot [1 ^^^ 2] [(3 : BitVec 64)] ≠ xorDot [1] [3] ^^^ xorDot [2] [3] := by decide

/-- The operators `^` and `&`, also where they throw for the length of `b`. -/
theorem vecAnd_xor_left (ha : a.length = a'.length) (hb : ∀ y ∈ b, IsBit y) :
    (do let c ← vecXor a a'; vecAnd c b) = (do let p ← vecAnd a b; let q ← vecAnd a' b; return p ^^^ q) := by
  have hc : (List.zipWith (· ^^^ ·) a a').length = a.length := by
    rw [List.length_zipWith, ← ha, Nat.min_self]
  rw [vecXor_ok ha]
  by_cases hlen : a.length = b.length
  · show vecAnd _ b = _
    rw [vecAnd_ok (hc.trans hlen), vecAnd_ok hlen, vecAnd_ok (ha.symm.trans hlen), xorDot_xor_left ha hb]
    rfl
  · show vecAnd _ b = _
    rw [vecAnd, if_pos (hc ▸ hlen), vecAnd, if_pos hlen]
    rfl

theorem vecAnd_xor_right (hb : ∀ y ∈ b, IsBit y) (hb' : ∀ y ∈ b', IsBit y)
    (hlen : b.length = b'.length) :
    (do let c ← vecXor b b'; vecAnd a c) = (do let p ← vecAnd a b; let q ← vecAnd a b'; return p ^^^ q) := by
  have hc : (List.zipWith (· ^^^ ·) b b').length = b.length := by
    rw [List.length_zipWith, ← hlen, Nat.min_self]
  rw [vecXor_ok hlen]
  by_cases hab : a.length = b.length
  · show vecAnd a _ = _
    rw [vecAnd_ok (hab.trans hc.symm), vecAnd_ok hab, vecAnd_ok (hab.trans hlen),
      xorDot_xor_right hb hb' hlen]
    rfl
  · show vecAnd a _ = _
    rw [vecAnd, if_pos (hc ▸ hab), vecAnd, if_pos hab]
    rfl

end

/-! The selection vectors. -/

/-- All entries of the selection vectors are 0 or 1. -/
structure SelectionBits {τ : LeafT} {nitems : Nat} (loc : Locoram τ nitems) : Prop where
  share : ∀ i, IsBit (loc.sbvSecretShare.get i)
  blind : ∀ i, IsBit (loc.sbvBlind.get i)
  peerBlinded : ∀ i, IsBit (loc.sbvPeerBlinded.get i)

section
variable {τ : LeafT} {nitems : Nat} {α β : Type}

/-- The part of an ORAM that only reads change. -/
def selections (loc : Locoram τ nitems) :
    Vector (Leaf τ) nitems × Vector (Leaf τ) nitems × Vector (Leaf τ) nitems :=
  (loc.sbvSecretShare, loc.sbvBlind, loc.sbvPeerBlinded)

namespace SelectionBits
variable {loc loc' : Locoram τ nitems}

theorem make : SelectionBits (.make τ nitems) := by
  have hzero : ∀ i : Fin nitems, IsBit ((Vector.replicate nitems (0 : Leaf τ)).get i) := fun i =>
    .inl (Vector.getElem_replicate i.isLt)
  exact ⟨hzero, hzero, hzero⟩

theorem congr (h : SelectionBits loc) (hloc : selections loc' = selections loc) : SelectionBits loc' := by
  obtain ⟨hshare, hrest⟩ := Prod.mk.inj hloc
  obtain ⟨hblind, hpeer⟩ := Prod.mk.inj hrest
  exact ⟨by rw [hshare]; exact h.share, by rw [hblind]; exact h.blind, by rw [hpeer]; exact h.peerBlinded⟩

theorem select (h : SelectionBits loc) {wVals : Vector (Leaf τ) nitems}
    (hw : ∀ i, IsBit (wVals.get i)) : SelectionBits (loc.select wVals) where
  share i := by
    rw [Locoram.select, get_xor]
    exact (h.share i).xor (hw i)
  blind i := by
    rw [Locoram.select, get_xor]
    exact (h.blind i).xor (hw i)
  peerBlinded := h.peerBlinded

end SelectionBits

/-! Coroutines that keep the bits. -/

def KeepsBits (x : Party (OramHost τ nitems) α) : Prop :=
  ∀ s, SelectionBits s.oram → x.Always s fun _ s' => SelectionBits s'.oram

theorem KeepsBits.of_keeps {x : Party (OramHost τ nitems) α}
    (hx : Keeps (fun s : OramHost τ nitems => selections s.oram) x) : KeepsBits x :=
  fun s hs => (hx s).mono fun _ _ h => hs.congr h

theorem KeepsBits.bind {x : Party (OramHost τ nitems) α} {f : α → Party (OramHost τ nitems) β}
    (hx : KeepsBits x) (hf : ∀ a, KeepsBits (f a)) : KeepsBits (x >>= f) := by
  intro s hs
  refine always_bind ((hx s hs).mono fun r s₁ h => ?_)
  cases r with
  | ok a => exact hf a s₁ h
  | error e => exact h

theorem KeepsBits.modifyOram {f : Locoram τ nitems → Locoram τ nitems}
    (hf : ∀ loc, SelectionBits loc → SelectionBits (f loc)) : KeepsBits (modifyOram f) := by
  intro s hs
  rw [always_of_run (modifyOram_run s f)]
  exact hf s.oram hs

variable (aes : AesKey → Block → Block) (spare : Nat)

/-- Whatever the key, its evaluation on all items gives bits. -/
theorem evalAll_flags {σ : LeafT} {key : DpfKey σ} {leaves : Vector (Leaf σ) nitems}
    {flags : Vector Byte nitems} (h : evalAll aes spare key nitems = some (leaves, flags))
    (i : Fin nitems) : IsBit (flags.get i) := by
  obtain ⟨b, hb, h⟩ := Option.bind_eq_some_iff.mp h
  obtain ⟨-, rfl⟩ := Prod.mk.inj (Option.some.inj h)
  have hbits : b.FlagBits := evalInterval_flagBits (fun _ => .zero) hb
  have hget : (Vector.ofFn fun j : Fin nitems => b.flags j).get i = b.flags i := Vector.getElem_ofFn i.isLt
  rw [hget]
  exact hbits i

/-- A received key, whatever its contents, leaves the party's memory alone and gives bits. -/
theorem recvEval_flags (self : NetPeer) (s : OramHost τ nitems) :
    (recvEval aes .uint64 spare self nitems).Always s fun r s' =>
      s' = s ∧ ∀ a, r = .ok a → ∀ i, IsBit (a.2.get i) := by
  refine always_bind (recvVector_always fun buffer => ?_)
  refine always_bind (always_orUndefined (fun k _ => ?_) fun _ => ⟨rfl, fun a h => ?_⟩)
  · refine always_orUndefined (fun a heval => ⟨rfl, fun a' h => ?_⟩) fun _ => ⟨rfl, fun a h => ?_⟩
    · obtain rfl := Except.ok.inj h
      exact evalAll_flags aes spare heval
    · cases h
  · cases h

theorem finish_keepsBits (term : Leaf τ → Locoram τ nitems → Option (Leaf τ)) {flags : Vector Byte nitems}
    (hflags : ∀ i, IsBit (flags.get i)) : KeepsBits (Ref.finish term flags) := by
  have hw : ∀ i, IsBit ((flags.map (·.setWidth τ.bitsPerLeaf)).get i) := by
    intro i
    have hget : (flags.map (·.setWidth τ.bitsPerLeaf)).get i = (flags.get i).setWidth τ.bitsPerLeaf :=
      Vector.getElem_map _ i.isLt
    rw [hget]
    exact (hflags i).setWidth _
  have hselect : KeepsBits (modifyOram (·.select (flags.map (·.setWidth τ.bitsPerLeaf)))) :=
    .modifyOram fun _ h => h.select hw
  have hcancel : ∀ t, KeepsBits (modifyOram (·.cancel t) : Party (OramHost τ nitems) Unit) :=
    fun t => .of_keeps (keeps_modifyOram selections fun _ => rfl)
  exact hselect.bind fun _ => (KeepsBits.of_keeps (keeps_getOram selections)).bind fun loc =>
    (KeepsBits.of_keeps (.ofExcept _)).bind fun _ => (KeepsBits.of_keeps (.orUndefined _)).bind fun _ =>
    (hcancel _).bind fun _ => .of_keeps (keeps_answer selections)

theorem readWith_keepsBits (term : Leaf τ → Locoram τ nitems → Option (Leaf τ)) (order : List Bool)
    (rho : Nat) (ctx : MPCContext) : KeepsBits (Ref.readWith aes spare term order rho ctx) := by
  by_cases hrole : ctx.role = .P2
  · -- P2 deals and changes no vector
    unfold Ref.readWith
    rw [hrole]
    exact .of_keeps ((keeps_onHost selections _).bind fun _ => keeps_answer selections)
  · rw [Ref.readWith_eq aes spare hrole]
    intro s hs
    apply always_bind
    refine (recvEval_flags aes spare ctx.self s).mono ?_
    rintro r s' ⟨rfl, hflags⟩
    cases r with
    | ok a => exact finish_keepsBits term (hflags a rfl) s' hs
    | error e => exact hs

theorem Entry.exchange_keepsBits (c : Entry τ) (m : MPCContext) :
    KeepsBits (c.exchange aes spare nitems m) := by
  cases c with
  | readAShare order rho =>
    exact (readWith_keepsBits aes spare aTerm order rho m).bind fun _ => .of_keeps (.pure _)
  | readXShare order rho =>
    exact (readWith_keepsBits aes spare xTerm order rho m).bind fun _ => .of_keeps (.pure _)
  | update order alpha v valueShare =>
    exact .of_keeps (keeps_exchange_update aes spare selections (fun _ _ => rfl) order alpha v valueShare m)

theorem selections_noted (c : Entry τ) (share : BitVec 64) (loc : Locoram τ nitems) :
    selections (c.noted share loc) = selections loc := by
  cases c <;> rfl

/-- A call keeps the bits: loading shares changes no selection vector, a refused call nothing. -/
theorem OramCall.run_keepsBits (call : OramCall τ nitems) : KeepsBits (call.run aes spare) := by
  intro s hs
  obtain ⟨share, v, -, hrun⟩ | ⟨what, hrun⟩ | ⟨c, idx, share, hrun, -⟩ := call.run_cases aes spare s
  · exact (always_of_run hrun).mpr (hs.congr rfl)
  · exact (always_of_run hrun).mpr hs
  · rw [always_congr hrun, always_congr (c.op_eq aes spare idx share s)]
    exact c.exchange_keepsBits aes spare s.host.ctx _ (hs.congr (selections_noted c share s.oram))

/-- In every state of a run from a new ORAM, whatever the party receives. -/
theorem selectionBits_of_run {host : Host} {s : OramHost τ nitems}
    {es : List (OramCall τ nitems × Except Err (Option (Leaf τ)))}
    (h : Trace.Run (OramStep aes spare) ⟨host, .make τ nitems⟩ es s) : SelectionBits s.oram := by
  apply h.inv (P := fun _ s => SelectionBits s.oram)
  · exact SelectionBits.make
  · rintro es s ⟨call, r⟩ s' hs ⟨-, v, hend⟩
    exact call.run_keepsBits aes spare s hs v r s' hend

/-- From the constructor on, whatever keys and other bytes a party receives, the entries of the
    selection vectors are 0 or 1; every key for the items can be evaluated and gives such
    entries; and beside them the product of 64-bit vectors is additive on both sides. -/
theorem selections_boolean_bilinear (h8 : 8 ≤ nitems) (heven : nitems % 2 = 0) (h64 : nitems < 2^64)
    (host : Host) :
    (∀ es s, Trace.Run (OramStep aes spare) ⟨host, .make .uint64 nitems⟩ es s → SelectionBits s.oram) ∧
    (∀ key : DpfKey .uint64, key.For nitems → ∃ leaves flags,
      evalAll aes spare key nitems = some (leaves, flags) ∧ ∀ i, IsBit (flags.get i)) ∧
    (∀ a a' b : List (BitVec 64), a.length = a'.length → (∀ y ∈ b, IsBit y) →
      (do let c ← vecXor a a'; vecAnd c b) =
        (do let p ← vecAnd a b; let q ← vecAnd a' b; return p ^^^ q)) ∧
    (∀ a b b' : List (BitVec 64), b.length = b'.length → (∀ y ∈ b, IsBit y) → (∀ y ∈ b', IsBit y) →
      (do let c ← vecXor b b'; vecAnd a c) =
        (do let p ← vecAnd a b; let q ← vecAnd a b'; return p ^^^ q)) := by
  have hfits : LeafT.uint64.Fits nitems spare := (sized_even h8 heven h64 spare).flagFits
  refine ⟨?_, ?_, ?_, ?_⟩
  · intro es s hrun
    exact selectionBits_of_run aes spare hrun
  · intro key hkey
    have heval : evalAll aes spare key nitems = some (_, _) := evalAll_eq hfits hkey.nitems hkey.cw
    exact ⟨_, _, heval, evalAll_flags aes spare heval⟩
  · intro a a' b ha hb
    exact vecAnd_xor_left ha hb
  · intro a b b' hlen hb hb'
    exact vecAnd_xor_right hb hb' hlen

end

/-- P0 with eight items reads at its share 3 with a key that nobody generated. -/
theorem selections_boolean_bilinear_eight :
    let host := Host.online .P0 Env.zeros
    let key : DpfKey .uint64 := ⟨8, 7, [5, 6], Vector.replicate 1 9, 0⟩
    ∃ (r : Leaf .uint64) (s : OramHost .uint64 8), Trace.Run (OramStep (fun _ b => b) 0)
        ⟨host, .make .uint64 8⟩ [(.entry (.readAShare [] 5) 3 true, .ok (some r))] s ∧
      SelectionBits s.oram ∧
      (∃ leaves flags, evalAll (fun _ b => b) 0 key 8 = some (leaves, flags) ∧ ∀ i, IsBit (flags.get i)) ∧
      (do let c ← vecXor [1, 2] [3, 5]; vecAnd c [0, 1]) =
        (do let p ← vecAnd [1, 2] [0, (1 : BitVec 64)]; let q ← vecAnd [3, 5] [0, 1]; return p ^^^ q) ∧
      (do let c ← vecXor [0, 1] [1, 1]; vecAnd [4, 6] c) =
        (do let p ← vecAnd [4, 6] [0, (1 : BitVec 64)]; let q ← vecAnd [4, 6] [1, 1]; return p ^^^ q) := by
  intro host key
  have hkey : key.For 8 := ⟨rfl, by decide⟩
  have hlen : (serializeDpfKey key).length < 2^64 := hkey.length_lt rfl (by decide)
  have hread : Gets (Ref.readWith (fun _ b => b) 0 aTerm [] 5 host.ctx) ⟨host, Locoram.make .uint64 8⟩
      (serializeDpfKey key) _ _ :=
    readWith_gets (by decide) (sized_even (le_refl 8) rfl (by decide) 0) hkey
      (fun product => congrArg some (BitVec.xor_zero (x := product)).symm) [] 5
  have hop : Gets ((Entry.readAShare [] 5).op (fun _ b => b) 0 (3 : Fin 8) 3 true)
      ⟨host, Locoram.make .uint64 8⟩ (serializeDpfKey key) (some _) _ :=
    Gets.bind (Gets.after (contextOf_run _ _) hread) rfl
  have hrun := Trace.Run.single (OramStep.of_gets (show (3 : BitVec 64).toNat < 8 by decide) hlen hop)
  obtain ⟨hstates, hkeys, hleft, hright⟩ :=
    selections_boolean_bilinear (fun _ b => b) 0 (le_refl 8) rfl (by decide) host
  have h01 : ∀ y ∈ [0, (1 : BitVec 64)], IsBit y := by
    intro y hy
    exact List.mem_pair.mp hy
  have h11 : ∀ y ∈ [1, (1 : BitVec 64)], IsBit y := by
    intro y hy
    exact .inr ((List.mem_pair.mp hy).elim id id)
  exact ⟨_, _, hrun, hstates _ _ hrun, hkeys key hkey, hleft _ _ _ rfl h01, hright _ _ _ rfl h01 h11⟩

end Mpc
