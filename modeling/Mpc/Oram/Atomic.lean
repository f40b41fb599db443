import Mpc.Oram.Access
import Mpc.Lib.Trace

/- Exceptions of the ORAM's operations. P0 and P1 throw before they change anything. P2
   may throw when it deals keys, because its point is out of range or a peer is missing,
   and by then `update` and the read of an XShare have noted their arguments
   (`Entry.op_throws`): such a call leaves the ORAM changed, and no other one that throws
   does (`Entry.untouched_iff`). -/
namespace Mpc
open Fifo LE

/-- The call ended in an exception. -/
def Thrown {α : Type} (r : Except Err α) : Prop := ∃ what, r = .error (.runtimeError what)

theorem not_thrown_ok {α : Type} (a : α) : ¬ Thrown (.ok a : Except Err α) := by
  rintro ⟨what, h⟩
  cases h

theorem not_thrown_undefined {α : Type} : ¬ Thrown (.error .undefined : Except Err α) := by
  rintro ⟨what, h⟩
  cases h

section
variable {τ : LeafT} {nitems : Nat} {α β : Type}

/-! Coroutines that leave the host alone and throw nothing. -/

def Quiet (x : Party (OramHost τ nitems) α) : Prop :=
  ∀ s, x.Always s fun r s' => s'.host = s.host ∧ ¬ Thrown r

namespace Quiet
variable {x : Party (OramHost τ nitems) α} {f : α → Party (OramHost τ nitems) β}

theorem bind (hx : Quiet x) (hf : ∀ a, Quiet (f a)) : Quiet (x >>= f) := by
  intro s
  apply Party.always_bind
  refine (hx s).mono ?_
  rintro r s' ⟨hhost, hr⟩
  cases r with
  | ok a =>
    refine (hf a s').mono ?_
    rintro r' s'' ⟨hhost', hr'⟩
    exact ⟨hhost'.trans hhost, hr'⟩
  | error e =>
    refine ⟨hhost, ?_⟩
    rintro ⟨what, hwhat⟩
    obtain rfl : e = .runtimeError what := Except.error.inj hwhat
    exact hr ⟨what, rfl⟩

theorem ok {a : α} : Quiet (pure a : Party (OramHost τ nitems) α) := by
  intro s
  rw [Party.always_of_run (Party.pure_run a s)]
  exact ⟨rfl, not_thrown_ok _⟩

theorem getOram : Quiet (getOram : Party (OramHost τ nitems) _) := by
  intro s
  rw [Party.always_of_run (getOram_run s)]
  exact ⟨rfl, not_thrown_ok _⟩

theorem modifyOram (g : Locoram τ nitems → Locoram τ nitems) : Quiet (modifyOram g) := by
  intro s
  rw [Party.always_of_run (modifyOram_run s g)]
  exact ⟨rfl, not_thrown_ok _⟩

theorem orUndefined (o : Option α) : Quiet (Party.orUndefined o : Party (OramHost τ nitems) α) :=
  fun _ => Party.always_orUndefined (fun a _ => ⟨rfl, not_thrown_ok a⟩) fun _ => ⟨rfl, not_thrown_undefined⟩

theorem recvVector (peer : NetPeer) (w : Nat) :
    Quiet (NetPeer.recvVector peer w : Party (OramHost τ nitems) _) :=
  fun _ => Party.recvVector_always fun vec => ⟨rfl, not_thrown_ok vec⟩

end Quiet

variable (aes : AesKey → Block → Block) (spare : Nat)

theorem printEight_quiet (v : List β) : Quiet (printEight v : Party (OramHost τ nitems) _) :=
  (Quiet.orUndefined _).bind fun _ => .ok

theorem ofExcept_bind {x : Except Err α} {a : α} (h : x = .ok a) (f : α → Party (OramHost τ nitems) β) :
    Party.ofExcept x >>= f = f a := by
  rw [h]
  rfl

theorem answer_quiet : Quiet (answer : Party (OramHost τ nitems) _) := by
  rw [answer_steps]
  exact Quiet.getOram.bind fun loc => (printEight_quiet _).bind fun _ =>
    (printEight_quiet _).bind fun _ => (printEight_quiet _).bind fun _ => .ok

theorem recvAndApply_quiet (self : NetPeer) :
    Quiet (recvAndApply aes spare self : Party (OramHost τ nitems) _) := by
  refine (Quiet.recvVector self 8).bind fun buffer => (Quiet.orUndefined _).bind ?_
  rintro ⟨key, -⟩
  by_cases hn : nitems = 0
  · simp only [if_pos hn]
    exact .ok
  · simp only [if_neg hn]
    exact (Quiet.orUndefined _).bind fun _ => .modifyOram _

theorem recvEval_quiet (σ : LeafT) (self : NetPeer) :
    Quiet (recvEval aes σ spare self nitems : Party (OramHost τ nitems) _) :=
  (Quiet.recvVector self 8).bind fun _ => (Quiet.orUndefined _).bind fun _ => .orUndefined _

theorem finish_quiet (term : Leaf τ → Locoram τ nitems → Option (Leaf τ))
    (flags : Vector Byte nitems) : Quiet (Ref.finish term flags) := by
  refine (Quiet.modifyOram _).bind fun _ => Quiet.getOram.bind fun loc => ?_
  rw [ofExcept_bind (vecAnd_ok (loc.blind.length_toList.trans Vector.length_toList.symm))]
  exact (Quiet.orUndefined _).bind fun _ => (Quiet.modifyOram _).bind fun _ => answer_quiet

/-- Reads of P0 and P1. -/
theorem readWith_quiet {ctx : MPCContext} (hrole : ctx.role ≠ .P2)
    (term : Leaf τ → Locoram τ nitems → Option (Leaf τ)) (order : List Bool) (rho : Nat) :
    Quiet (Ref.readWith aes spare term order rho ctx) := by
  rw [Ref.readWith_eq aes spare hrole]
  exact (recvEval_quiet aes spare .uint64 ctx.self).bind fun r => finish_quiet term r.2

/-! P2's deal. -/

/-- P2 can deal keys for `target`. -/
def CanDeal (nitems target : Nat) (ctx : MPCContext) : Prop :=
  target < nitems ∧ ctx.peer0.isSome ∧ ctx.peer1.isSome

/-- The first steps of a deal, up to the generation. -/
theorem dealKeys_eq {σ : LeafT} (h : Host) (hpos : 0 < nitems) (target : Nat) (val : Leaf σ)
    (valBytes : Nat) (order : List Bool) :
    ∃ h' : Host, h'.ctx = h.ctx ∧
      (dealKeys aes nitems target val valBytes order).run h =
        ((dpfGen aes (dec (192 * 8) (h.garbage (192 * 8))) nitems target val).run h').bind
          (Party.andThen fun k => do
            let h ← Party.get
            match h.ctx.peer0, h.ctx.peer1 with
            | some p0, some p1 =>
              NetPeer.sendVectors order p0 p1 (serializeDpfKey k.1) (serializeDpfKey k.2)
            | _, _ => Party.throw (.runtimeError "P2 missing peer connections")) := by
  have hn : nitems ≠ 0 := by omega
  refine ⟨{ h with entropy := (h.entropy.advance 8).advance valBytes }, rfl, ?_⟩
  unfold dealKeys
  rw [if_neg hn]
  rfl

theorem dpfGen_ends {σ : LeafT} (h : Host) {target : Nat} (htarget : target < nitems) (prgkey : AesKey)
    (val : Leaf σ) :
    ∃ k h', (dpfGen aes prgkey nitems target val).run h = .ret (.ok k, h') ∧ h'.ctx = h.ctx := by
  obtain ⟨k0, k1, hgen, -⟩ := gen_keys aes prgkey val
    (dec 128 ((h.entropy.take 32).take 16), dec 128 ((h.entropy.take 32).drop 16)) htarget
  have hroot : (arc4randomBuf 32).run h =
      .ret (.ok (h.entropy.take 32), { h with entropy := h.entropy.advance 32 }) := rfl
  refine ⟨(k0, k1), { h with entropy := h.entropy.advance 32 }, ?_, rfl⟩
  simp only [dpfGen, if_neg (Nat.not_le_of_lt htarget), Party.bind_run, hroot, Proc.bind_ret,
    Party.andThen_ok, hgen]
  rfl

theorem dealKeys_deals {σ : LeafT} {h : Host} {target : Nat} (hdeal : CanDeal nitems target h.ctx)
    (val : Leaf σ) (valBytes : Nat) (order : List Bool) :
    ∃ ms h', (dealKeys aes nitems target val valBytes order).run h = .sends ms (.ret (.ok (), h')) ∧
      h'.ctx = h.ctx := by
  obtain ⟨hlt, hp0, hp1⟩ := hdeal
  obtain ⟨p0, hp0⟩ := Option.isSome_iff_exists.mp hp0
  obtain ⟨p1, hp1⟩ := Option.isSome_iff_exists.mp hp1
  obtain ⟨h₁, hctx₁, hrun⟩ := dealKeys_eq aes h (Nat.zero_lt_of_lt hlt) target val valBytes order
  obtain ⟨k, h₂, hgen, hctx₂⟩ := dpfGen_ends aes h₁ hlt (dec (192 * 8) (h.garbage (192 * 8))) val
  have hctx : h₂.ctx = h.ctx := hctx₂.trans hctx₁
  refine ⟨merge order ((NetPeer.vecFrames (serializeDpfKey k.1)).map (p0, ·))
    ((NetPeer.vecFrames (serializeDpfKey k.2)).map (p1, ·)), h₂, ?_, hctx⟩
  rw [hrun, hgen, Proc.bind_ret, Party.andThen_ok, Party.bind_run, Party.get_run, Proc.bind_ret,
    Party.andThen_ok, hctx, hp0, hp1]
  rfl

theorem dealKeys_throws {σ : LeafT} {h : Host} {target : Nat} (hpos : 0 < nitems)
    (hdeal : ¬ CanDeal nitems target h.ctx) (val : Leaf σ) (valBytes : Nat) (order : List Bool) :
    ∃ what h', (dealKeys aes nitems target val valBytes order).run h =
      .ret (.error (.runtimeError what), h') ∧ h'.ctx = h.ctx := by
  obtain ⟨h₁, hctx₁, hrun⟩ := dealKeys_eq aes h hpos target val valBytes order
  by_cases hlt : target < nitems
  · -- the keys are made, but a peer is missing
    obtain ⟨k, h₂, hgen, hctx₂⟩ := dpfGen_ends aes h₁ hlt (dec (192 * 8) (h.garbage (192 * 8))) val
    have hctx : h₂.ctx = h.ctx := hctx₂.trans hctx₁
    refine ⟨"P2 missing peer connections", h₂, ?_, hctx⟩
    rw [hrun, hgen, Proc.bind_ret, Party.andThen_ok, Party.bind_run, Party.get_run, Proc.bind_ret,
      Party.andThen_ok, hctx]
    cases hp0 : h.ctx.peer0 with
    | none => rfl
    | some p0 =>
      cases hp1 : h.ctx.peer1 with
      | none => rfl
      | some p1 => exact absurd ⟨hlt, by rw [hp0]; rfl, by rw [hp1]; rfl⟩ hdeal
  · refine ⟨"target point out of range", h₁, ?_, hctx₁⟩
    rw [hrun]
    unfold dpfGen
    rw [if_pos (Nat.le_of_not_lt hlt)]
    rfl

theorem onHost_sends {x : Party Host α} {s : OramHost τ nitems} {ms : List (Role × List Byte)}
    {r : Except Err α} {h' : Host} (h : x.run s.host = .sends ms (.ret (r, h'))) :
    (onHost x).run s = .sends ms (.ret (r, { s with host := h' })) := by
  show (x.run s.host).bind _ = _
  rw [h, Proc.bind_sends]
  rfl

theorem onHost_ret {x : Party Host α} {s : OramHost τ nitems} {r : Except Err α} {h' : Host}
    (h : x.run s.host = .ret (r, h')) : (onHost x).run s = .ret (r, { s with host := h' }) := by
  show (x.run s.host).bind _ = _
  rw [h]
  rfl

/-! What an operation does when it throws. -/

/-- P2's point. -/
def Entry.point : Entry τ → Nat
  | .readAShare _ rho => rho
  | .readXShare _ rho => rho
  | .update _ alpha _ _ => alpha

/-- The ORAM with the arguments of a call noted. -/
def Entry.noted (share : BitVec 64) (loc : Locoram τ nitems) : Entry τ → Locoram τ nitems
  | .readAShare .. => loc
  | .readXShare .. => loc.noteRead ⟨share, true⟩
  | .update _ _ _ valueShare => loc.noteUpdate ⟨share, true⟩ valueShare

/-- The context stays, and an exception comes from P2's deal, with the ORAM at `loc`. -/
def ThrowsAt (target : Nat) (loc : Locoram τ nitems) (s : OramHost τ nitems) (r : Except Err α)
    (s' : OramHost τ nitems) : Prop :=
  s'.host.ctx = s.host.ctx ∧
    (Thrown r → s.host.ctx.role = .P2 ∧ ¬ CanDeal nitems target s.host.ctx ∧ s'.oram = loc)

theorem Quiet.throwsAt {x : Party (OramHost τ nitems) α} (hx : Quiet x) (target : Nat)
    (loc : Locoram τ nitems) (s : OramHost τ nitems) : x.Always s (ThrowsAt target loc s) :=
  (hx s).mono fun _ _ h => ⟨by rw [h.1], fun ht => absurd ht h.2⟩

/-- P2's deal, followed by a quiet coroutine. -/
theorem deal_throwsAt {σ : LeafT} (hpos : 0 < nitems) (s : OramHost τ nitems)
    (hrole : s.host.ctx.role = .P2) (target : Nat) (val : Leaf σ) (valBytes : Nat) (order : List Bool)
    {x : Party (OramHost τ nitems) α} (hx : Quiet x) :
    (do
      onHost (dealKeys aes nitems target val valBytes order)
      x).Always s (ThrowsAt target s.oram s) := by
  apply Party.always_bind
  intro v r s' hend
  by_cases hdeal : CanDeal nitems target s.host.ctx
  · obtain ⟨ms, h', hrun, hctx⟩ := dealKeys_deals aes hdeal val valBytes order
    rw [Party.Ends, onHost_sends hrun, Proc.ends_sends] at hend
    obtain ⟨rfl, rfl⟩ := Prod.mk.inj (Proc.ends_ret.mp hend).2
    refine (hx.throwsAt target s.oram _).mono ?_
    rintro r' s'' ⟨hctx', hthrown⟩
    refine ⟨hctx'.trans hctx, fun ht => ?_⟩
    have hdeal' := (hthrown ht).2.1
    rw [hctx] at hdeal'
    exact absurd hdeal hdeal'
  · obtain ⟨what, h', hrun, hctx⟩ := dealKeys_throws aes hpos hdeal val valBytes order
    rw [Party.Ends, onHost_ret hrun] at hend
    obtain ⟨rfl, rfl⟩ := Prod.mk.inj (Proc.ends_ret.mp hend).2
    exact ⟨hctx, fun _ => ⟨hrole, hdeal, rfl⟩⟩

/-- An operation behind the note of its arguments, with the context `m`. -/
def Entry.exchange (nitems : Nat) (m : MPCContext) : Entry τ → Party (OramHost τ nitems) (Option (Leaf τ))
  | .readAShare order rho => do return some (← Ref.readWith aes spare aTerm order rho m)
  | .readXShare order rho => do return some (← Ref.readWith aes spare xTerm order rho m)
  | .update order alpha targetValue _ => do
    match m.role with
    | .P0 | .P1 => recvAndApply aes spare m.self
    | .P2 => onHost (dealKeys aes nitems alpha targetValue τ.sizeof order)
    return none

/-- An operation notes its arguments and goes on. -/
theorem Entry.op_eq (c : Entry τ) (idx : Fin nitems) (share : BitVec 64) (s : OramHost τ nitems) :
    (c.op aes spare idx share true).run s =
      (c.exchange aes spare nitems s.host.ctx).run { s with oram := c.noted share s.oram } := by
  cases c with
  | readAShare order rho => rfl
  | readXShare order rho => rfl
  | update order alpha v valueShare =>
    have hidx : (s.oram.noteUpdate ⟨share, true⟩ valueShare).secretShare[idx.val]? =
        some (s.oram.secretShare.get idx) := Vector.getElem?_eq_getElem idx.isLt
    -- the item that the update looks up is not returned
    have hdrop : ∀ y : Party (OramHost τ nitems) Unit,
        ((y >>= fun _ => pure (s.oram.secretShare.get idx)) >>= fun _ => pure (none : Option (Leaf τ))).run
          ⟨s.host, s.oram.noteUpdate ⟨share, true⟩ valueShare⟩ = (y >>= fun _ => pure none).run
          ⟨s.host, s.oram.noteUpdate ⟨share, true⟩ valueShare⟩ :=
      fun y => congrArg (Party.run · _)
        (Party.bind_assoc y (fun _ => pure (s.oram.secretShare.get idx)) fun _ => pure none)
    rw [op, Ref.update, exchange]
    simp only [Party.bind_assoc, Party.bind_run, contextOf_run, modifyOram_run, getOram_run,
      orUndefined_run hidx, Proc.bind_ret, Party.andThen_ok]
    cases s.host.ctx.role with
    | P0 => exact hdrop (recvAndApply aes spare s.host.ctx.self)
    | P1 => exact hdrop (recvAndApply aes spare s.host.ctx.self)
    | P2 => exact hdrop (onHost (dealKeys aes nitems alpha v τ.sizeof order))

theorem Entry.exchange_quiet {m : MPCContext} (hrole : m.role ≠ .P2) (c : Entry τ) :
    Quiet (c.exchange aes spare nitems m) := by
  cases c with
  | readAShare order rho => exact (readWith_quiet aes spare hrole aTerm order rho).bind fun _ => .ok
  | readXShare order rho => exact (readWith_quiet aes spare hrole xTerm order rho).bind fun _ => .ok
  | update order alpha v valueShare =>
    rw [exchange]
    cases hm : m.role with
    | P0 => exact (recvAndApply_quiet aes spare m.self).bind fun _ => .ok
    | P1 => exact (recvAndApply_quiet aes spare m.self).bind fun _ => .ok
    | P2 => exact absurd hm hrole

variable (nitems) in
/-- P2 deals keys for its point, and what follows is quiet. -/
theorem Entry.exchange_deals {m : MPCContext} (hrole : m.role = .P2) (c : Entry τ) :
    ∃ (σ : LeafT) (val : Leaf σ) (valBytes : Nat) (order : List Bool)
      (rest : Party (OramHost τ nitems) (Option (Leaf τ))), Quiet rest ∧
      c.exchange aes spare nitems m = (do
        onHost (dealKeys aes nitems c.point val valBytes order)
        rest) := by
  have hread : ∀ (term : Leaf τ → Locoram τ nitems → Option (Leaf τ)) (order : List Bool) (rho : Nat),
      (do return some (← Ref.readWith aes spare term order rho m) :
        Party (OramHost τ nitems) (Option (Leaf τ))) = (do
        onHost (dealKeys aes nitems rho (1 : Leaf .uint64) 0 order)
        return some (← answer)) := by
    intro term order rho
    rw [Ref.readWith, hrole]
    exact Party.bind_assoc _ _ _
  cases c with
  | readAShare order rho =>
    exact ⟨.uint64, 1, 0, order, _, answer_quiet.bind fun _ => .ok, hread aTerm order rho⟩
  | readXShare order rho =>
    exact ⟨.uint64, 1, 0, order, _, answer_quiet.bind fun _ => .ok, hread xTerm order rho⟩
  | update order alpha v valueShare =>
    refine ⟨τ, v, τ.sizeof, order, return none, .ok, ?_⟩
    rw [exchange, hrole]
    rfl

theorem Entry.op_throwsAt (c : Entry τ) (idx : Fin nitems) (share : BitVec 64) (s : OramHost τ nitems) :
    (c.op aes spare idx share true).Always s (ThrowsAt c.point (c.noted share s.oram) s) := by
  refine (Party.always_congr (c.op_eq aes spare idx share s)).mpr ?_
  by_cases hrole : s.host.ctx.role = .P2
  · obtain ⟨σ, val, valBytes, order, rest, hrest, hdeals⟩ :=
      c.exchange_deals nitems aes spare hrole
    rw [hdeals]
    exact deal_throwsAt aes (Nat.zero_lt_of_lt idx.isLt) { s with oram := c.noted share s.oram } hrole
      c.point val valBytes order hrest
  · exact (c.exchange_quiet aes spare hrole).throwsAt _ _ { s with oram := c.noted share s.oram }

theorem Entry.op_throws (c : Entry τ) (idx : Fin nitems) (share : BitVec 64) (s : OramHost τ nitems)
    (hrole : s.host.ctx.role = .P2) (hdeal : ¬ CanDeal nitems c.point s.host.ctx) :
    ∃ what h', (c.op aes spare idx share true).run s =
      .ret (.error (.runtimeError what), ⟨h', c.noted share s.oram⟩) := by
  obtain ⟨σ, val, valBytes, order, rest, -, hdeals⟩ := c.exchange_deals nitems aes spare hrole
  obtain ⟨what, h', hrun, -⟩ :=
    dealKeys_throws aes (Nat.zero_lt_of_lt idx.isLt) hdeal val valBytes order
  have honHost : (onHost (dealKeys aes nitems c.point val valBytes order)).run
      ⟨s.host, c.noted share s.oram⟩ = .ret (.error (.runtimeError what), ⟨h', c.noted share s.oram⟩) :=
    onHost_ret hrun
  refine ⟨what, h', ?_⟩
  rw [c.op_eq, hdeals, Party.bind_run, honHost, Proc.bind_ret, Party.andThen_error]

/-- A throwing call leaves the ORAM as it was. -/
def Untouched (x : Party (OramHost τ nitems) α) (s : OramHost τ nitems) : Prop :=
  x.Always s fun r s' => Thrown r → s'.oram = s.oram

/-- The call is refused at once, or it is not P2's, or it notes nothing, or P2 can deal. -/
def Entry.Safe (nitems : Nat) (c : Entry τ) (share : BitVec 64) (ctx : Bool) (m : MPCContext) : Prop :=
  ctx = false ∨ nitems ≤ share.toNat ∨ m.role ≠ .P2 ∨ (∃ order rho, c = .readAShare order rho) ∨
    CanDeal nitems c.point m

theorem Entry.noted_eq {c : Entry τ} {share : BitVec 64} {loc : Locoram τ nitems} :
    c.noted share loc = loc ↔ ∃ order rho, c = .readAShare order rho := by
  cases c with
  | readAShare order rho => exact ⟨fun _ => ⟨order, rho, rfl⟩, fun _ => rfl⟩
  | readXShare order rho =>
    constructor
    · intro h
      have hlen := congrArg (fun l : Locoram τ nitems => l.readInds.length) h
      simp [noted, Locoram.noteRead] at hlen
    · rintro ⟨_, _, h⟩
      cases h
  | update order alpha v valueShare =>
    constructor
    · intro h
      have hlen := congrArg (fun l : Locoram τ nitems => l.updateInds.length) h
      simp [noted, Locoram.noteUpdate] at hlen
    · rintro ⟨_, _, h⟩
      cases h

/-- A call that throws leaves the ORAM as it was exactly if it is safe. -/
theorem Entry.untouched_iff (c : Entry τ) (share : BitVec 64) (ctx : Bool) (s : OramHost τ nitems) :
    Untouched (c.call aes spare nitems share ctx) s ↔ c.Safe nitems share ctx s.host.ctx := by
  cases ctx with
  | false =>
    exact iff_of_true ((Party.always_of_run (c.call_missing share)).mpr fun _ => rfl) (.inl rfl)
  | true =>
    rcases Nat.lt_or_ge share.toNat nitems with hlt | hge
    · rw [Untouched, Party.always_congr (c.call_accepted hlt)]
      constructor
      · intro hall
        by_contra hsafe
        simp only [Safe, Bool.true_eq_false, false_or, not_or, not_not] at hsafe
        obtain ⟨-, hrole, hread, hdeal⟩ := hsafe
        obtain ⟨what, h', hrun⟩ := c.op_throws aes spare ⟨share.toNat, hlt⟩ share s hrole hdeal
        exact hread (noted_eq.mp ((Party.always_of_run hrun).mp hall ⟨what, rfl⟩))
      · intro hsafe
        refine (c.op_throwsAt aes spare ⟨share.toNat, hlt⟩ share s).mono ?_
        rintro r s' ⟨-, hthrown⟩ ht
        obtain ⟨hrole, hdeal, horam⟩ := hthrown ht
        rcases hsafe with h | h | h | h | h
        · cases h
        · exact absurd hlt (Nat.not_lt_of_le h)
        · exact absurd hrole h
        · rw [horam, noted_eq.mpr h]
        · exact absurd h hdeal
    · exact iff_of_true ((Party.always_of_run (c.call_refused hge)).mpr fun _ => rfl) (.inr (.inl hge))

/-! Sequences of calls. -/

/-- What a party does with its ORAM: it loads shares, calls an entry point, or an operation of a
    `Ref` it holds. -/
inductive OramCall (τ : LeafT) (nitems : Nat) where
  | setShare (share : List (Leaf τ))
  | entry (c : Entry τ) (share : BitVec 64) (ctx : Bool)
  | ref (c : Entry τ) (idx : Fin nitems) (share : BitVec 64) (ctx : Bool)

namespace OramCall

def run : OramCall τ nitems → Party (OramHost τ nitems) (Option (Leaf τ))
  | .setShare share => do
    let loc ← getOram
    let loc ← Party.ofExcept (loc.setShare share)
    modifyOram fun _ => loc
    return none
  | .entry c share ctx => c.call aes spare nitems share ctx
  | .ref c idx share ctx => c.op aes spare idx share ctx

/-- The call does not throw after it has noted its arguments. -/
def Safe (m : MPCContext) : OramCall τ nitems → Prop
  | .setShare _ => True
  | .entry c share ctx => c.Safe nitems share ctx m
  | .ref c _ _ ctx => ctx = false ∨ m.role ≠ .P2 ∨ (∃ order rho, c = .readAShare order rho) ∨
      CanDeal nitems c.point m

end OramCall

/-- One call, whatever the other parties send, with its value or its exception. -/
def OramStep (s : OramHost τ nitems) (e : OramCall τ nitems × Except Err (Option (Leaf τ)))
    (s' : OramHost τ nitems) : Prop :=
  e.2 ≠ .error .undefined ∧ ∃ v, (e.1.run aes spare).Ends s v e.2 s'

theorem Entry.op_missing (c : Entry τ) (idx : Fin nitems) (share : BitVec 64) (s : OramHost τ nitems) :
    ∃ what, (c.op aes spare idx share false).run s = .ret (.error (.runtimeError what), s) := by
  cases c with
  | readAShare order rho => exact ⟨_, rfl⟩
  | readXShare order rho => exact ⟨_, rfl⟩
  | update order alpha v valueShare => exact ⟨_, rfl⟩

/-- A call loads shares, or throws before it does anything, or is an operation of a `Ref`. -/
theorem OramCall.run_cases (call : OramCall τ nitems) (s : OramHost τ nitems) :
    (∃ share v, call = .setShare share ∧
      (call.run aes spare).run s = .ret (.ok none, { s with oram := { s.oram with secretShare := v } })) ∨
    (∃ what, (call.run aes spare).run s = .ret (.error (.runtimeError what), s)) ∨
    ∃ (c : Entry τ) (idx : Fin nitems) (share : BitVec 64),
      (call.run aes spare).run s = (c.op aes spare idx share true).run s ∧
        (call = .entry c share true ∧ share.toNat < nitems ∨ call = .ref c idx share true) := by
  cases call with
  | setShare share =>
    have hrun : ∀ r, s.oram.setShare share = r → (OramCall.run aes spare (.setShare share)).run s =
        (Party.ofExcept r >>= fun loc => do
          modifyOram fun _ => loc
          return none : Party (OramHost τ nitems) (Option (Leaf τ))).run s := by
      intro r hr
      rw [← hr]
      rfl
    by_cases hlen : share.length = nitems
    · refine .inl ⟨share, ⟨share.toArray, hlen⟩, rfl, ?_⟩
      rw [hrun _ (dif_pos hlen)]
      rfl
    · refine .inr (.inl ⟨"Size mismatch in Locoram::set_share", ?_⟩)
      rw [hrun _ (dif_neg hlen)]
      rfl
  | entry c share ctx =>
    cases ctx with
    | false => exact .inr (.inl ⟨c.missing, c.call_missing share⟩)
    | true =>
      rcases Nat.lt_or_ge share.toNat nitems with hlt | hge
      · exact .inr (.inr ⟨c, ⟨share.toNat, hlt⟩, share, c.call_accepted hlt, .inl ⟨rfl, hlt⟩⟩)
      · exact .inr (.inl ⟨c.outOfBounds, c.call_refused hge⟩)
  | ref c idx share ctx =>
    cases ctx with
    | false => exact .inr (.inl (c.op_missing aes spare idx share s))
    | true => exact .inr (.inr ⟨c, idx, share, rfl, .inr rfl⟩)

/-- A call keeps the context, and one that is safe and throws keeps the ORAM. -/
theorem OramCall.run_always (call : OramCall τ nitems) (s : OramHost τ nitems) :
    (call.run aes spare).Always s fun r s' => s'.host.ctx = s.host.ctx ∧
      (Thrown r → call.Safe s.host.ctx → s'.oram = s.oram) := by
  obtain ⟨share, v, -, hrun⟩ | ⟨what, hrun⟩ | ⟨c, idx, share, hrun, hcall⟩ := call.run_cases aes spare s
  · exact (Party.always_of_run hrun).mpr ⟨rfl, fun ht => absurd ht (not_thrown_ok _)⟩
  · exact (Party.always_of_run hrun).mpr ⟨rfl, fun _ _ => rfl⟩
  · refine (Party.always_congr hrun).mpr ((c.op_throwsAt aes spare idx share s).mono ?_)
    intro r s' h
    obtain ⟨hctx, hthrown⟩ := h
    refine ⟨hctx, fun ht hsafe => ?_⟩
    obtain ⟨hrole, hdeal, horam⟩ := hthrown ht
    have hsafe' : (∃ order rho, c = .readAShare order rho) := by
      obtain ⟨rfl, hlt⟩ | rfl := hcall
      · simp only [Safe, Entry.Safe, hrole, hdeal, Bool.true_eq_false, Nat.not_le_of_lt hlt, ne_eq,
          not_true, false_or, or_false] at hsafe
        exact hsafe
      · simp only [Safe, hrole, hdeal, Bool.true_eq_false, ne_eq, not_true, false_or, or_false] at hsafe
        exact hsafe
    rw [horam, Entry.noted_eq.mpr hsafe']

/-- The same step without the host. -/
def OramOnly (loc : Locoram τ nitems) (e : OramCall τ nitems × Except Err (Option (Leaf τ)))
    (loc' : Locoram τ nitems) : Prop :=
  ∃ host host', OramStep aes spare ⟨host, loc⟩ e ⟨host', loc'⟩

/-- In every run from a new ORAM: a call of an entry point that throws leaves the ORAM as it was
    exactly if it is safe; and if all calls are safe, the ORAM is where the calls that did
    not throw take it. -/
theorem failed_calls_untouched {host : Host} {s : OramHost τ nitems}
    {es : List (OramCall τ nitems × Except Err (Option (Leaf τ)))}
    (h : Trace.Run (OramStep aes spare) ⟨host, .make τ nitems⟩ es s) :
    (∀ (c : Entry τ) (share : BitVec 64) (ctx : Bool),
      Untouched (c.call aes spare nitems share ctx) s ↔ c.Safe nitems share ctx host.ctx) ∧
    ((∀ e ∈ es, e.1.Safe host.ctx) →
      Trace.Run (OramOnly aes spare) (.make τ nitems) (es.filter (·.2.isOk)) s.oram) := by
  have hinv : s.host.ctx = host.ctx ∧ ((∀ e ∈ es, e.1.Safe host.ctx) →
      Trace.Run (OramOnly aes spare) (.make τ nitems) (es.filter (·.2.isOk)) s.oram) := by
    refine h.inv (P := fun es s => s.host.ctx = host.ctx ∧ ((∀ e ∈ es, e.1.Safe host.ctx) →
      Trace.Run (OramOnly aes spare) (.make τ nitems) (es.filter (·.2.isOk)) s.oram))
      ⟨rfl, fun _ => .refl⟩ ?_
    rintro es s ⟨call, r⟩ s' ⟨hctx, hes⟩ ⟨hdef, v, hend⟩
    obtain ⟨hctx', hthrown⟩ := call.run_always aes spare s v r s' hend
    refine ⟨hctx'.trans hctx, fun hsafe => ?_⟩
    have hrun := hes fun e he => hsafe e (List.mem_append_left _ he)
    have hcall := hsafe (call, r) (List.mem_append_right _ (List.mem_singleton_self _))
    cases r with
    | ok value =>
      rw [List.filter_append]
      exact hrun.tail ⟨s.host, s'.host, hdef, v, hend⟩
    | error e =>
      cases e with
      | undefined => exact absurd rfl hdef
      | runtimeError what =>
        rw [List.filter_append, hthrown ⟨what, rfl⟩ (hctx ▸ hcall)]
        simpa [Except.isOk, Except.toBool] using hrun
  refine ⟨fun c share ctx => ?_, hinv.2⟩
  rw [← hinv.1]
  exact c.untouched_iff aes spare share ctx s

end

/-- A call that ends at once is a step. -/
theorem OramStep.of_run {τ : LeafT} {nitems : Nat} {aes : AesKey → Block → Block} {spare : Nat}
    {call : OramCall τ nitems} {s s' : OramHost τ nitems} {r : Except Err (Option (Leaf τ))}
    (hr : r ≠ .error .undefined) (h : (call.run aes spare).run s = .ret (r, s')) :
    OramStep aes spare s (call, r) s' := by
  refine ⟨hr, [], ?_⟩
  show Proc.Ends ((call.run aes spare).run s) [] (r, s')
  rw [h]
  exact .ret _

/-- A call of an entry point that takes a buffer from P2 and ends is a step. -/
theorem OramStep.of_gets {τ : LeafT} {nitems : Nat} {aes : AesKey → Block → Block} {spare : Nat}
    {s s' : OramHost τ nitems} {c : Entry τ} {share : BitVec 64} (h : share.toNat < nitems)
    {buffer : List Byte} (hlen : buffer.length < 2^64) {r : Option (Leaf τ)}
    (hop : Gets (c.op aes spare ⟨share.toNat, h⟩ share true) s buffer r s') :
    OramStep aes spare s (.entry c share true, .ok r) s' := by
  obtain ⟨k, hk, hb⟩ := hop
  refine ⟨by simp, (NetPeer.vecFrames buffer).map (Role.P2, ·) ++ [], ?_⟩
  show Proc.Ends ((c.call aes spare nitems share true).run s) _ _
  rw [(c.call_accepted h).trans hk]
  apply NetPeer.ends_recvVec hlen
  rw [hb]
  exact .ret _

/-- P2 with one item: its update has its point at 2 and throws, but the call stays noted. -/
theorem update_of_one_item :
    let s : OramHost .uint64 1 := (System.make .uint64 1 fun _ => Env.zeros).mem .P2
    let c : Entry .uint64 := .update [] 2 100 ⟨42, true⟩
    ∃ what s', (c.call (fun _ _ => 0) 0 1 0 true).run s = .ret (.error (.runtimeError what), s') ∧
      s.oram.updateVals.length = 0 ∧ s'.oram.updateVals.length = 1 ∧
      ¬ Untouched (c.call (fun _ _ => 0) 0 1 0 true) s := by
  intro s c
  have hdeal : ¬ CanDeal 1 c.point s.host.ctx := fun h => absurd h.1 (by decide)
  obtain ⟨what, h', hrun⟩ := c.op_throws (fun _ _ => 0) 0 (0 : Fin 1) 0 s rfl hdeal
  have hcall := (c.call_accepted (show (0 : BitVec 64).toNat < 1 by decide)).trans hrun
  refine ⟨what, _, hcall, rfl, rfl, fun hall => ?_⟩
  have hsame := (Party.always_of_run hcall).mp hall ⟨what, rfl⟩
  exact Nat.one_ne_zero (congrArg (fun l : Locoram .uint64 1 => l.updateVals.length) hsame)

/-- P0 with two items loads its shares and is refused an update at its share 5. -/
theorem failed_calls_untouched_two_items :
    let host := Host.online .P0 Env.zeros
    let load : OramCall .uint64 2 := .setShare [7, 8]
    let c : Entry .uint64 := .update [] 2 100 ⟨42, true⟩
    let refused : OramCall .uint64 2 := .entry c 5 true
    let s : OramHost .uint64 2 := ⟨host, { Locoram.make .uint64 2 with secretShare := #v[7, 8] }⟩
    let e : Except Err (Option (Leaf .uint64)) :=
      .error (.runtimeError "Index out of bounds in Locoram::update")
    Trace.Run (OramStep (fun _ _ => 0) 0) ⟨host, .make .uint64 2⟩ [(load, .ok none), (refused, e)] s ∧
      Untouched (c.call (fun _ _ => 0) 0 2 5 true) s ∧
      Trace.Run (OramOnly (fun _ _ => 0) 0) (.make .uint64 2) [(load, .ok none)] s.oram := by
  intro host load c refused s e
  have hload : OramStep (fun _ _ => 0) 0 ⟨host, .make .uint64 2⟩ (load, .ok none) s :=
    .of_run (by simp) rfl
  have hrefused : OramStep (fun _ _ => 0) 0 s (refused, e) s :=
    .of_run (by simp [e]) (c.call_refused (show 2 ≤ (5 : BitVec 64).toNat by decide))
  have hrun := (Trace.Run.single hload).tail hrefused
  obtain ⟨huntouched, hothers⟩ := failed_calls_untouched (fun _ _ => 0) 0 hrun
  refine ⟨hrun, (huntouched _ 5 true).mpr (.inr (.inl (by decide))), hothers fun e he => ?_⟩
  rcases List.mem_cons.mp he with rfl | he
  · trivial
  · obtain rfl := List.mem_singleton.mp he
    exact .inr (.inl (by decide))

end Mpc
