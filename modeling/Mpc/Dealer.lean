import Mpc.Replay

/- P2's own randomness tape (shares.hpp, mpcops.hpp). mpc_random writes what it draws in
   Record mode and reads it back in Replay mode. The operations are run here by a driver,
   which says how a call of mpc_random is made: the plain driver is mpc_random itself
   (`mulBy_plain`), the logging one notes what every call returned and changes nothing else
   (`run_erases`). P2's mpc_mul draws in every mode, its mpc_and only in Online and in Record
   mode, so what a program replays is its recording exactly when it calls neither mpc_and
   nor mpc_or (`replays_exactly_iff`). -/
namespace Mpc
open Fifo LE

/-! Drivers. -/

/-- How a coroutine on the memory `σ` calls mpc_random and everything else. -/
structure Driver (σ : Type) where
  random : Bool → (w : Nat) → Party σ (BitVec w)
  lift : {α : Type} → Party Host α → Party σ α

def Driver.plain : Driver Host := ⟨mpcRandom, id⟩

/-- A host and the values that mpc_random returned there. -/
abbrev Logged := Host × List Word

/-- A host's coroutine, which notes nothing. -/
def Party.unlogged {α : Type} (x : Party Host α) : Party Logged α :=
  ⟨fun s => (x.run s.1).bind fun r => .ret (r.1, (r.2, s.2))⟩

/-- mpc_random, which notes its value. -/
def loggedRandom (ctx : Bool) (w : Nat) : Party Logged (BitVec w) := do
  let out ← (mpcRandom ctx w).unlogged
  let s ← Party.get
  Party.set (s.1, s.2 ++ [⟨w, out⟩])
  return out

def Driver.logging : Driver Logged := ⟨loggedRandom, Party.unlogged⟩

section
variable {σ : Type} (d : Driver σ) {w : Nat}

/-- mpc_mul with the calls of its P2 made by `d`. -/
def mulBy (x y : AShare w) (role : Role) (self : NetPeer) (peerPtr secondPeer : Option NetPeer) :
    Party σ (BitVec w) :=
  if role = .P2 then
    match peerPtr, secondPeer with
    | some p0, some p1 => do
      let X0 ← d.random x.ctx w
      let Y0 ← d.random x.ctx w
      let X1 ← d.random x.ctx w
      let Y1 ← d.random x.ctx w
      let gamma0 := X0 * Y1
      let gamma1 := X1 * Y0
      let c ← d.lift (deref x.ctx)
      if c.randMode = .Online then do
        d.lift (NetPeer.send p0 X0)
        d.lift (NetPeer.send p1 Y0)
        d.lift (NetPeer.send p0 X1)
        d.lift (NetPeer.send p1 Y1)
        d.lift (NetPeer.send p0 gamma0)
        d.lift (NetPeer.send p1 gamma1)
      if c.randMode = .Record then do
        let idx ← d.lift nextMul
        d.lift (writeRecord mulOutP0 idx X0 Y0 gamma0)
        d.lift (writeRecord mulOutP1 idx X1 Y1 gamma1)
      return 0
    | _, _ => return 0
  else d.lift (mpcMul x y role self peerPtr secondPeer)

/-- mpc_and with the calls of its P2 made by `d`. -/
def andBy (x y : XShare w) (role : Role) (self : NetPeer) (peerPtr secondPeer : Option NetPeer) :
    Party σ (BitVec w) :=
  if role = .P2 then
    match peerPtr, secondPeer with
    | some p0, some p1 => do
      let c ← d.lift (deref x.ctx)
      if c.randMode = .Online ∨ c.randMode = .Record then do
        let X0 ← d.random x.ctx w
        let Y0 ← d.random x.ctx w
        let X1 ← d.random x.ctx w
        let Y1 ← d.random x.ctx w
        let gamma0 := X0 &&& Y1
        let gamma1 := X1 &&& Y0
        if c.randMode = .Online then do
          d.lift (NetPeer.send p0 X0)
          d.lift (NetPeer.send p0 Y0)
          d.lift (NetPeer.send p0 gamma0)
          d.lift (NetPeer.send p1 X1)
          d.lift (NetPeer.send p1 Y1)
          d.lift (NetPeer.send p1 gamma1)
        else do
          let idx ← d.lift nextAnd
          d.lift (writeRecord andOutP0 idx X0 Y0 gamma0)
          d.lift (writeRecord andOutP1 idx X1 Y1 gamma1)
      return 0
    | _, _ => return 0
  else d.lift (mpcAnd x y role self peerPtr secondPeer)

/-- `operator*(XShare, XShare)` by `d`. -/
def XShare.andBy (x y : XShare w) : Party σ (XShare w) := do
  if !x.ctx || !y.ctx then d.lift (Party.throw (.runtimeError "XShare::operator* missing ctx"))
  let c ← d.lift (deref x.ctx)
  let result ← Mpc.andBy d x y c.role c.self c.peer0 c.peer1
  return ⟨result, x.ctx⟩

/-- mpc_or by `d`. -/
def orBy (x y : XShare w) : Party σ (BitVec w) := do
  let xorXy := x.xor y
  let andXy ← x.andBy d y
  let orXy := xorXy.xor andXy
  return orXy.val

end

section
variable {w : Nat} {role : Role} {self : NetPeer} {p q : Option NetPeer}

theorem mulBy_plain (x y : AShare w) : mulBy .plain x y role self p q = mpcMul x y role self p q := by
  cases role with
  | P2 => cases p <;> cases q <;> rfl
  | P0 | P1 => rfl

theorem andBy_plain (x y : XShare w) : andBy .plain x y role self p q = mpcAnd x y role self p q := by
  cases role with
  | P2 => cases p <;> cases q <;> rfl
  | P0 | P1 => rfl

end

/-! The log is a ghost. -/

/-- Without the log, `y` is `x`. -/
def Erases {α : Type} (y : Party Logged α) (x : Party Host α) : Prop :=
  ∀ h log, ((y.run (h, log)).bind fun r => .ret (r.1, r.2.1)) = x.run h

namespace Erases
variable {α β : Type} {y : Party Logged α} {x : Party Host α} {g : α → Party Logged β}
  {f : α → Party Host β}

theorem pure (a : α) : Erases (pure a) (pure a) := fun _ _ => rfl

theorem unlogged (x : Party Host α) : Erases x.unlogged x := by
  intro h log
  rw [Party.unlogged, Proc.bind_assoc]
  exact Proc.bind_pure _

theorem bind (hy : Erases y x) (hg : ∀ a, Erases (g a) (f a)) : Erases (y >>= g) (x >>= f) := by
  intro h log
  rw [Party.bind_run, Party.bind_run, ← hy h log, Proc.bind_assoc, Proc.bind_assoc]
  congr 1
  funext r
  obtain ⟨r, h', log'⟩ := r
  cases r with
  | ok a => exact hg a h' log'
  | error e => rfl

theorem ite {c : Prop} [Decidable c] {y' : Party Logged α} {x' : Party Host α} (h : Erases y x)
    (h' : Erases y' x') : Erases (if c then y else y') (if c then x else x') := by
  by_cases hc : c
  · rw [if_pos hc, if_pos hc]
    exact h
  · rw [if_neg hc, if_neg hc]
    exact h'

theorem random (ctx : Bool) (w : Nat) : Erases (loggedRandom ctx w) (mpcRandom ctx w) := by
  intro h log
  rw [loggedRandom, Party.bind_run, Party.unlogged, Proc.bind_assoc, Proc.bind_assoc]
  conv_rhs => rw [← Proc.bind_pure ((mpcRandom ctx w).run h)]
  congr 1
  funext r
  obtain ⟨r, h'⟩ := r
  cases r with
  | ok a => rfl
  | error e => rfl

end Erases

section
variable {w : Nat} {r : Role} {s : NetPeer} {p q : Option NetPeer}

theorem mulBy_erases (x y : AShare w) :
    Erases (mulBy .logging x y r s p q) (mpcMul x y r s p q) := by
  rw [← mulBy_plain]
  cases r with
  | P0 | P1 => exact .unlogged _
  | P2 =>
    cases p with
    | none => exact .pure 0
    | some p0 =>
    cases q with
    | none => exact .pure 0
    | some p1 =>
    apply Erases.bind (.random _ _)
    intro X0
    apply Erases.bind (.random _ _)
    intro Y0
    apply Erases.bind (.random _ _)
    intro X1
    apply Erases.bind (.random _ _)
    intro Y1
    apply Erases.bind (.unlogged _)
    intro c
    -- what follows the sends, whether they are made or not
    have hrecord : ∀ _ : Unit, Erases _ _ := fun _ => Erases.ite (c := c.randMode = .Record)
      (.bind (.unlogged nextMul) fun idx =>
        .bind (.unlogged (writeRecord mulOutP0 idx X0 Y0 (X0 * Y1))) fun _ =>
        .bind (.unlogged (writeRecord mulOutP1 idx X1 Y1 (X1 * Y0))) fun _ => .pure (0 : BitVec w))
      (.pure 0)
    apply Erases.ite _ (hrecord ())
    exact .bind (.unlogged _) fun _ => .bind (.unlogged _) fun _ => .bind (.unlogged _) fun _ =>
      .bind (.unlogged _) fun _ => .bind (.unlogged _) fun _ => .bind (.unlogged _) hrecord

theorem andBy_erases (x y : XShare w) :
    Erases (andBy .logging x y r s p q) (mpcAnd x y r s p q) := by
  rw [← andBy_plain]
  cases r with
  | P0 | P1 => exact .unlogged _
  | P2 =>
    cases p with
    | none => exact .pure 0
    | some p0 =>
    cases q with
    | none => exact .pure 0
    | some p1 =>
    apply Erases.bind (.unlogged _)
    intro c
    apply Erases.ite _ (.pure 0)
    apply Erases.bind (.random _ _)
    intro X0
    apply Erases.bind (.random _ _)
    intro Y0
    apply Erases.bind (.random _ _)
    intro X1
    apply Erases.bind (.random _ _)
    intro Y1
    apply Erases.ite
    · exact .bind (.unlogged _) fun _ => .bind (.unlogged _) fun _ => .bind (.unlogged _) fun _ =>
        .bind (.unlogged _) fun _ => .bind (.unlogged _) fun _ => .bind (.unlogged _) fun _ => .pure 0
    · exact .bind (.unlogged _) fun idx => .bind (.unlogged _) fun _ => .bind (.unlogged _) fun _ =>
        .pure 0

theorem orBy_erases (x y : XShare w) : Erases (orBy .logging x y) (mpcOr x y) := by
  have hand : Erases (x.andBy .logging y) (x.and y) := by
    have hgate : ∀ _ : Unit, Erases _ _ := fun _ =>
      .bind (.unlogged (deref x.ctx)) fun c =>
        .bind (andBy_erases (r := c.role) (s := c.self) (p := c.peer0) (q := c.peer1) x y) fun z =>
          .pure (⟨z, x.ctx⟩ : XShare w)
    apply Erases.ite (.bind (.unlogged _) hgate) (hgate ())
  exact .bind hand fun z => .pure _

end

/-! Programs of P2. -/

inductive Routine where
  | mul | and | or
  deriving DecidableEq

/-- A call of P2: the routine, the width of its type, and its operands from P2's results so far. -/
structure DealerCall where
  routine : Routine
  w : Nat
  pos : 0 < w
  args : List Word → BitVec w × BitVec w

section
variable {σ : Type} (d : Driver σ)

namespace DealerCall

/-- The call by `d`, with the peers of a connected P2. -/
def runBy (c : DealerCall) (x y : BitVec c.w) : Party σ (BitVec c.w) :=
  match c.routine with
  | .mul => mulBy d ⟨x, true⟩ ⟨y, true⟩ .P2 (selfOf .P2) (peer0Of .P2) (peer1Of .P2)
  | .and => andBy d ⟨x, true⟩ ⟨y, true⟩ .P2 (selfOf .P2) (peer0Of .P2) (peer1Of .P2)
  | .or => orBy d ⟨x, true⟩ ⟨y, true⟩

/-- The call itself. -/
def run (c : DealerCall) (x y : BitVec c.w) : Party Host (BitVec c.w) :=
  match c.routine with
  | .mul => mpcMul ⟨x, true⟩ ⟨y, true⟩ .P2 (selfOf .P2) (peer0Of .P2) (peer1Of .P2)
  | .and => mpcAnd ⟨x, true⟩ ⟨y, true⟩ .P2 (selfOf .P2) (peer0Of .P2) (peer1Of .P2)
  | .or => mpcOr ⟨x, true⟩ ⟨y, true⟩

end DealerCall

/-- P2 makes the calls of `prog` behind the results `done`. -/
def dealBy : List DealerCall → List Word → Party σ (List Word)
  | [], done => return done
  | c :: prog, done => do
    let z ← c.runBy d (c.args done).1 (c.args done).2
    dealBy prog (done ++ [⟨c.w, z⟩])

def deal : List DealerCall → List Word → Party Host (List Word)
  | [], done => return done
  | c :: prog, done => do
    let z ← c.run (c.args done).1 (c.args done).2
    deal prog (done ++ [⟨c.w, z⟩])

end

theorem DealerCall.run_erases (c : DealerCall) (x y : BitVec c.w) :
    Erases (c.runBy .logging x y) (c.run x y) := by
  obtain ⟨routine, w, pos, args⟩ := c
  cases routine with
  | mul => exact mulBy_erases (r := .P2) (s := .P0) (p := some .P0) (q := some .P1) ⟨x, true⟩ ⟨y, true⟩
  | and => exact andBy_erases (r := .P2) (s := .P0) (p := some .P0) (q := some .P1) ⟨x, true⟩ ⟨y, true⟩
  | or => exact orBy_erases ⟨x, true⟩ ⟨y, true⟩

/-- A logged program is the program. -/
theorem deal_erases (prog : List DealerCall) (done : List Word) :
    Erases (dealBy .logging prog done) (deal prog done) := by
  induction prog generalizing done with
  | nil => exact .pure done
  | cons c prog ih => exact .bind (c.run_erases _ _) fun z => ih _

/-! Draws. -/

/-- The values of widths `ws` that lie on a tape one behind the other. -/
def drawsOf : List Nat → List Byte → List Word
  | [], _ => []
  | w :: ws, l => ⟨w, dec w (l.take (sizeBytes w))⟩ :: drawsOf ws (l.drop (sizeBytes w))

/-- The bytes of values of widths `ws`. -/
def drawBytes (ws : List Nat) : Nat := (ws.map sizeBytes).sum

section
variable {w : Nat} {ws ws' : List Nat} {l l' : List Byte}

theorem drawBytes_append : drawBytes (ws ++ ws') = drawBytes ws + drawBytes ws' := by
  rw [drawBytes, List.map_append, List.sum_append]
  rfl

theorem drawsOf_append : drawsOf (ws ++ ws') l = drawsOf ws l ++ drawsOf ws' (l.drop (drawBytes ws)) := by
  induction ws generalizing l with
  | nil => rfl
  | cons w ws ih =>
    rw [List.cons_append, drawsOf, drawsOf, ih, List.drop_drop]
    rfl

theorem drawsOf_cons (h : l.length = sizeBytes w) :
    drawsOf (w :: ws) (l ++ l') = ⟨w, dec w l⟩ :: drawsOf ws l' := by
  rw [drawsOf, List.take_left' h, List.drop_left' h]

theorem drawsOf_one (h : l.length = sizeBytes w) : drawsOf [w] l = [⟨w, dec w l⟩] := by
  rw [drawsOf, List.take_of_length_le h.le, drawsOf]

/-- What lies behind the values does not matter. -/
theorem drawsOf_prefix (h : drawBytes ws ≤ l.length) : drawsOf ws (l ++ l') = drawsOf ws l := by
  induction ws generalizing l with
  | nil => rfl
  | cons w ws ih =>
    have hle : sizeBytes w + drawBytes ws ≤ l.length := h
    rw [drawsOf, drawsOf, List.take_append_of_le_length (by omega), List.drop_append_of_le_length (by omega),
      ih (by rw [List.length_drop]; omega)]

end

namespace DealerCall

/-- What the call draws where it draws. -/
def draws (c : DealerCall) : List Nat := List.replicate 4 c.w

/-- What the call draws in Replay mode. -/
def replayDraws (c : DealerCall) : List Nat := if c.routine = .mul then c.draws else []

end DealerCall

/-! One call. -/

section
variable {e : Env} {l : List Byte} {t : Tapes} {log : List Word} {w : Nat}

theorem unlogged_run {α : Type} {x : Party Host α} {h h' : Host} {r : Except Err α}
    (hx : x.run h = .ret (r, h')) : x.unlogged.run (h, log) = .ret (r, (h', log)) := by
  show (x.run h).bind _ = _
  rw [hx]
  rfl

/-- A recorded draw lands on the tape and in the log. -/
theorem random_recording : (loggedRandom true w).run (Host.recording e l t, log) =
    .ret (.ok (e.word w), (Host.recording (e.skip w) (l ++ e.entropy.take (sizeBytes w)) t,
      log ++ [⟨w, e.word w⟩])) := rfl

/-- A replayed draw comes off the tape. -/
theorem random_replaying (h : sizeBytes w ≤ l.length) :
    (loggedRandom true w).run (Host.replaying .P2 e ⟨l, true⟩ t, log) =
      .ret (.ok (dec w (l.take (sizeBytes w))), (Host.replaying .P2 e ⟨l.drop (sizeBytes w), true⟩ t,
        log ++ [⟨w, dec w (l.take (sizeBytes w))⟩])) := by
  have hread : (Host.replaying .P2 e ⟨l, true⟩ t).ctx.randIn.read
      ((Host.replaying .P2 e ⟨l, true⟩ t).garbage w) =
      (l.take (sizeBytes w), ⟨l.drop (sizeBytes w), true⟩) := by
    have hlen := (Host.replaying .P2 e ⟨l, true⟩ t).garbage_length w
    rw [← hlen]
    exact IStream.read_of_le (by rw [hlen]; exact h)
  have hrandom : (mpcRandom true w).run (Host.replaying .P2 e ⟨l, true⟩ t) =
      .ret (.ok (dec w (l.take (sizeBytes w))), Host.replaying .P2 e ⟨l.drop (sizeBytes w), true⟩ t) := by
    have hmode : (Host.replaying .P2 e ⟨l, true⟩ t).ctx.randMode = .Replay := rfl
    simp only [mpcRandom, Party.bind_run, deref_run, Proc.bind_ret, Party.andThen_ok, hmode,
      unassigned, setCtx, Party.get_run, Party.pure_run, Party.set_run, hread]
    rfl
  rw [loggedRandom, Party.bind_run, unlogged_run hrandom]
  rfl

/-- Four draws, as both operations make them. -/
theorem four_recording (w : Nat) (e : Env) (l : List Byte) (t : Tapes) (log : List Word) :
    ∃ (e' : Env) (bytes : List Byte) (X0 Y0 X1 Y1 : BitVec w),
      bytes.length = drawBytes (List.replicate 4 w) ∧
      ∀ {α : Type} (f : BitVec w → BitVec w → BitVec w → BitVec w → Party Logged α),
        (do
          let X0 ← loggedRandom true w
          let Y0 ← loggedRandom true w
          let X1 ← loggedRandom true w
          let Y1 ← loggedRandom true w
          f X0 Y0 X1 Y1).run (Host.recording e l t, log) =
        (f X0 Y0 X1 Y1).run (Host.recording e' (l ++ bytes) t,
          log ++ drawsOf (List.replicate 4 w) bytes) := by
  have hlen : ∀ e : Env, (e.entropy.take (sizeBytes w)).length = sizeBytes w := by
    intro e
    rw [Entropy.take, List.length_map, List.length_range]
  refine ⟨e.skips w 4, e.entropy.take (sizeBytes w) ++ ((e.skips w 1).entropy.take (sizeBytes w) ++
    ((e.skips w 2).entropy.take (sizeBytes w) ++ (e.skips w 3).entropy.take (sizeBytes w))),
    e.draw w 0, e.draw w 1, e.draw w 2, e.draw w 3, ?_, ?_⟩
  · simp only [List.length_append, hlen]
    rfl
  · intro α f
    rw [List.replicate, List.replicate, List.replicate, List.replicate, List.replicate,
      drawsOf_cons (hlen e), drawsOf_cons (hlen (e.skips w 1)), drawsOf_cons (hlen (e.skips w 2)),
      drawsOf_one (hlen (e.skips w 3))]
    simp only [Party.bind_run, random_recording, Proc.bind_ret, Party.andThen_ok, List.append_assoc]
    rfl

variable (e t log) in
/-- Four draws from the tape. -/
theorem four_replaying (h : drawBytes (List.replicate 4 w) ≤ l.length) :
    ∃ X0 Y0 X1 Y1 : BitVec w, ∀ {α : Type} (f : BitVec w → BitVec w → BitVec w → BitVec w → Party Logged α),
      (do
        let X0 ← loggedRandom true w
        let Y0 ← loggedRandom true w
        let X1 ← loggedRandom true w
        let Y1 ← loggedRandom true w
        f X0 Y0 X1 Y1).run (Host.replaying .P2 e ⟨l, true⟩ t, log) =
      (f X0 Y0 X1 Y1).run (Host.replaying .P2 e ⟨l.drop (drawBytes (List.replicate 4 w)), true⟩ t,
        log ++ drawsOf (List.replicate 4 w) l) := by
  have hle : sizeBytes w + (sizeBytes w + (sizeBytes w + (sizeBytes w + 0))) ≤ l.length := h
  refine ⟨dec w (l.take (sizeBytes w)), dec w ((l.drop (sizeBytes w)).take (sizeBytes w)),
    dec w (((l.drop (sizeBytes w)).drop (sizeBytes w)).take (sizeBytes w)),
    dec w ((((l.drop (sizeBytes w)).drop (sizeBytes w)).drop (sizeBytes w)).take (sizeBytes w)), ?_⟩
  intro α f
  rw [Party.bind_run, random_replaying (by omega), Proc.bind_ret, Party.andThen_ok,
    Party.bind_run, random_replaying (by rw [List.length_drop]; omega), Proc.bind_ret, Party.andThen_ok,
    Party.bind_run, random_replaying (by rw [List.length_drop, List.length_drop]; omega), Proc.bind_ret,
    Party.andThen_ok, Party.bind_run,
    random_replaying (by rw [List.length_drop, List.length_drop, List.length_drop]; omega),
    Proc.bind_ret, Party.andThen_ok]
  have hbytes : drawBytes (List.replicate 4 w) = sizeBytes w + sizeBytes w + sizeBytes w + sizeBytes w := by
    show sizeBytes w + (sizeBytes w + (sizeBytes w + (sizeBytes w + 0))) = _
    omega
  rw [hbytes]
  simp only [List.append_assoc, List.drop_drop, List.replicate, drawsOf]
  rfl

variable (e l t log) in
/-- P2 writes two records, which no log sees. -/
theorem records_recording (k : Kind) (a0 b0 c0 a1 b1 c1 z : BitVec w) : ∃ (e' : Env) (t' : Tapes),
    (do
      let idx ← k.next.unlogged
      (writeRecord (k.outTape .P0) idx a0 b0 c0).unlogged
      (writeRecord (k.outTape .P1) idx a1 b1 c1).unlogged
      return z : Party Logged (BitVec w)).run (Host.recording e l t, log) =
      .ret (.ok z, (Host.recording e' l t', log)) := by
  have h0 : (writeRecord (k.outTape .P0) (k.ctr e) a0 b0 c0).run (Host.recording (k.bump e) l t) = _ :=
    writeRecord_recording (by decide) (k.ctr e) ⟨a0, b0, c0⟩
  generalize t.set k .P0 (t k .P0 ++ record (k.ctr e) ⟨a0, b0, c0⟩) = t₀ at h0
  have h1 : (writeRecord (k.outTape .P1) (k.ctr e) a1 b1 c1).run (Host.recording (k.bump e) l t₀) = _ :=
    writeRecord_recording (by decide) (k.ctr e) ⟨a1, b1, c1⟩
  refine ⟨k.bump e, t₀.set k .P1 (t₀ k .P1 ++ record (k.ctr e) ⟨a1, b1, c1⟩), ?_⟩
  rw [Party.bind_run, unlogged_run next_recording, Proc.bind_ret, Party.andThen_ok, Party.bind_run,
    unlogged_run h0, Proc.bind_ret, Party.andThen_ok, Party.bind_run, unlogged_run h1]
  rfl

end

section
variable (e : Env) (l : List Byte) (t : Tapes) (log : List Word)

/-- A recording P2's AND. -/
theorem andBy_recording {w : Nat} (x y : XShare w) (hx : x.ctx = true) :
    ∃ (e' : Env) (t' : Tapes) (bytes : List Byte), bytes.length = drawBytes (List.replicate 4 w) ∧
      (andBy .logging x y .P2 .P0 (some .P0) (some .P1)).run (Host.recording e l t, log) =
        .ret (.ok 0, (Host.recording e' (l ++ bytes) t', log ++ drawsOf (List.replicate 4 w) bytes)) := by
  obtain ⟨e₁, bytes, X0, Y0, X1, Y1, hlen, hdraws⟩ := four_recording w e l t log
  obtain ⟨e', t', hrec⟩ := records_recording e₁ (l ++ bytes) t
    (log ++ drawsOf (List.replicate 4 w) bytes) .and X0 Y0 (X0 &&& Y1) X1 Y1 (X1 &&& Y0) 0
  refine ⟨e', t', bytes, hlen, ?_⟩
  have hctx : ((Driver.logging.lift (deref x.ctx)) : Party Logged MPCContext).run (Host.recording e l t, log) =
      .ret (.ok (Host.recording e l t).ctx, (Host.recording e l t, log)) := by
    rw [hx]
    rfl
  rw [andBy, if_pos rfl]
  show Proc.bind ((Driver.logging.lift (deref x.ctx)).run _) _ = _
  rw [hctx, Proc.bind_ret, Party.andThen_ok, if_pos (.inr rfl), hx]
  refine (hdraws _).trans ?_
  exact hrec

/-- A recorded call draws, and what it drew is on the tape and in the log. -/
theorem DealerCall.record (c : DealerCall) (x y : BitVec c.w) :
    ∃ (z : BitVec c.w) (e' : Env) (t' : Tapes) (bytes : List Byte), bytes.length = drawBytes c.draws ∧
      (c.runBy .logging x y).run (Host.recording e l t, log) =
        .ret (.ok z, (Host.recording e' (l ++ bytes) t', log ++ drawsOf c.draws bytes)) := by
  obtain ⟨routine, w, pos, args⟩ := c
  cases routine with
  | mul =>
    obtain ⟨e₁, bytes, X0, Y0, X1, Y1, hlen, hdraws⟩ := four_recording w e l t log
    obtain ⟨e', t', hrec⟩ := records_recording e₁ (l ++ bytes) t
      (log ++ drawsOf (List.replicate 4 w) bytes) .mul X0 Y0 (X0 * Y1) X1 Y1 (X1 * Y0) 0
    exact ⟨0, e', t', bytes, hlen, (hdraws _).trans hrec⟩
  | and =>
    obtain ⟨e', t', bytes, hlen, hrun⟩ := andBy_recording e l t log
      (⟨x, true⟩ : XShare w) ⟨y, true⟩ rfl
    exact ⟨0, e', t', bytes, hlen, hrun⟩
  | or =>
    obtain ⟨e', t', bytes, hlen, hrun⟩ := andBy_recording e l t log
      (⟨x, true⟩ : XShare w) ⟨y, true⟩ rfl
    refine ⟨x ^^^ y ^^^ 0, e', t', bytes, hlen, ?_⟩
    have hor : (orBy .logging (⟨x, true⟩ : XShare w) ⟨y, true⟩).run (Host.recording e l t, log) =
        (((andBy .logging ⟨x, true⟩ ⟨y, true⟩ .P2 .P0 (some .P0) (some .P1)).run
          (Host.recording e l t, log)).bind
            (Party.andThen fun z => (pure ⟨z, true⟩ : Party Logged (XShare w)))).bind
              (Party.andThen fun z => (pure (x ^^^ y ^^^ z.val) : Party Logged (BitVec w))) := rfl
    rw [hrun] at hor
    exact hor

/-- A replayed call takes what a multiplication drew off the tape. -/
theorem DealerCall.replay (c : DealerCall) (x y : BitVec c.w) (h : drawBytes c.replayDraws ≤ l.length) :
    ∃ z : BitVec c.w, (c.runBy .logging x y).run (Host.replaying .P2 e ⟨l, true⟩ t, log) =
      .ret (.ok z, (Host.replaying .P2 e ⟨l.drop (drawBytes c.replayDraws), true⟩ t,
        log ++ drawsOf c.replayDraws l)) := by
  obtain ⟨routine, w, pos, args⟩ := c
  cases routine with
  | mul =>
    obtain ⟨X0, Y0, X1, Y1, hdraws⟩ := four_replaying e t log h
    exact ⟨0, hdraws _⟩
  | and =>
    refine ⟨0, ?_⟩
    rw [DealerCall.replayDraws, if_neg (by simp), drawsOf, List.append_nil]
    rfl
  | or =>
    refine ⟨x ^^^ y ^^^ 0, ?_⟩
    rw [DealerCall.replayDraws, if_neg (by simp), drawsOf, List.append_nil]
    rfl

end

/-! Programs. -/

/-- What a program draws where it draws. -/
def programDraws (prog : List DealerCall) : List Nat := prog.flatMap DealerCall.draws

/-- What a program draws in Replay mode. -/
def programReplayDraws (prog : List DealerCall) : List Nat := prog.flatMap DealerCall.replayDraws

section
variable {c : DealerCall} {prog : List DealerCall} {done : List Word} {e : Env} {l : List Byte}
  {t : Tapes} {log : List Word}

theorem programDraws_cons : programDraws (c :: prog) = c.draws ++ programDraws prog := rfl

theorem programReplayDraws_cons :
    programReplayDraws (c :: prog) = c.replayDraws ++ programReplayDraws prog := rfl

variable (prog done e l t log) in
theorem program_record : ∃ (r : List Word) (e' : Env) (t' : Tapes) (bytes : List Byte),
    bytes.length = drawBytes (programDraws prog) ∧
    (dealBy .logging prog done).run (Host.recording e l t, log) =
      .ret (.ok r, (Host.recording e' (l ++ bytes) t', log ++ drawsOf (programDraws prog) bytes)) := by
  induction prog generalizing done e l t log with
  | nil =>
    refine ⟨done, e, t, [], rfl, ?_⟩
    rw [List.append_nil, programDraws, List.flatMap_nil, drawsOf, List.append_nil]
    rfl
  | cons c prog ih =>
    obtain ⟨z, e₁, t₁, bytes, hlen, hcall⟩ := c.record e l t log (c.args done).1 (c.args done).2
    obtain ⟨r, e', t', bytes', hlen', hrest⟩ := ih (done ++ [⟨c.w, z⟩]) e₁ (l ++ bytes) t₁
      (log ++ drawsOf c.draws bytes)
    refine ⟨r, e', t', bytes ++ bytes', ?_, ?_⟩
    · rw [List.length_append, hlen, hlen', programDraws_cons, drawBytes_append]
    · have hdraws : drawsOf (programDraws (c :: prog)) (bytes ++ bytes') =
          drawsOf c.draws bytes ++ drawsOf (programDraws prog) bytes' := by
        rw [programDraws_cons, drawsOf_append, drawsOf_prefix hlen.ge, List.drop_left' hlen]
      rw [dealBy, Party.bind_run, hcall, Proc.bind_ret, Party.andThen_ok, hrest, hdraws,
        List.append_assoc, List.append_assoc]

variable (prog done e l t log) in
theorem program_replay (h : drawBytes (programReplayDraws prog) ≤ l.length) :
    ∃ r : List Word, (dealBy .logging prog done).run (Host.replaying .P2 e ⟨l, true⟩ t, log) =
      .ret (.ok r, (Host.replaying .P2 e ⟨l.drop (drawBytes (programReplayDraws prog)), true⟩ t,
        log ++ drawsOf (programReplayDraws prog) l)) := by
  induction prog generalizing done l log with
  | nil =>
    refine ⟨done, ?_⟩
    rw [programReplayDraws, List.flatMap_nil, drawsOf, List.append_nil]
    rfl
  | cons c prog ih =>
    have hbytes : drawBytes (programReplayDraws (c :: prog)) =
        drawBytes c.replayDraws + drawBytes (programReplayDraws prog) := by
      rw [programReplayDraws_cons, drawBytes_append]
    rw [hbytes] at h
    obtain ⟨z, hcall⟩ := c.replay e l t log (c.args done).1 (c.args done).2
      (show drawBytes c.replayDraws ≤ l.length by omega)
    obtain ⟨r, hrest⟩ := ih (done ++ [⟨c.w, z⟩]) (l.drop (drawBytes c.replayDraws))
      (log ++ drawsOf c.replayDraws l) (by rw [List.length_drop]; omega)
    refine ⟨r, ?_⟩
    have hdraws : drawsOf (programReplayDraws (c :: prog)) l = drawsOf c.replayDraws l ++
        drawsOf (programReplayDraws prog) (l.drop (drawBytes c.replayDraws)) := by
      rw [programReplayDraws_cons, drawsOf_append]
    rw [dealBy, Party.bind_run, hcall, Proc.bind_ret, Party.andThen_ok, hrest, hbytes, hdraws,
      List.append_assoc, List.drop_drop]

variable (prog) in
theorem drawBytes_replay_le : drawBytes (programReplayDraws prog) ≤ drawBytes (programDraws prog) := by
  induction prog with
  | nil => exact Nat.le_refl _
  | cons c prog ih =>
    rw [programReplayDraws_cons, programDraws_cons, drawBytes_append, drawBytes_append,
      DealerCall.replayDraws]
    split
    · omega
    · show 0 + _ ≤ _
      omega

theorem replayDraws_eq (h : ∀ c ∈ prog, c.routine = .mul) :
    programReplayDraws prog = programDraws prog := by
  induction prog with
  | nil => rfl
  | cons c prog ih =>
    rw [programReplayDraws_cons, programDraws_cons, DealerCall.replayDraws, if_pos (h c List.mem_cons_self),
      ih fun d hd => h d (List.mem_cons_of_mem c hd)]

/-- A call that is not a multiplication leaves its bytes on the tape. -/
theorem drawBytes_replay_lt (hc : c ∈ prog) (hne : c.routine ≠ .mul) :
    drawBytes (programReplayDraws prog) < drawBytes (programDraws prog) := by
  induction prog with
  | nil => cases hc
  | cons d prog ih =>
    have hle := drawBytes_replay_le prog
    rw [programReplayDraws_cons, programDraws_cons, drawBytes_append, drawBytes_append]
    obtain rfl | hc := List.mem_cons.mp hc
    · have hpos : 0 < drawBytes c.draws := by
        have hw := c.pos
        show 0 < sizeBytes c.w + (sizeBytes c.w + (sizeBytes c.w + (sizeBytes c.w + 0)))
        rw [sizeBytes]
        omega
      rw [DealerCall.replayDraws, if_neg hne]
      show 0 + _ < _
      omega
    · have hlt := ih hc
      have hd : drawBytes d.replayDraws ≤ drawBytes d.draws := by
        rw [DealerCall.replayDraws]
        split
        · exact Nat.le_refl _
        · exact Nat.zero_le _
      omega

end

/-- P2 records `prog` on an empty tape and replays it from that tape: the replay ends, each of
    its calls of mpc_random returned the value that the recording's call at the same place
    wrote, and nothing is left on the tape. -/
def ReplaysExactly (prog : List DealerCall) (e e' : Env) (t t' : Tapes) : Prop :=
  ∃ (r : List Word) (s : Logged) (r' : List Word) (s' : Logged),
    (dealBy .logging prog []).run (Host.recording e [] t, []) = .ret (.ok r, s) ∧
    (dealBy .logging prog []).run (Host.replaying .P2 e' ⟨s.1.ctx.randOut.bytes, true⟩ t', []) =
      .ret (.ok r', s') ∧
    s'.2 <+: s.2 ∧ s'.1.ctx.randIn.bytes = []

/-- What a replay reads and leaves. -/
theorem replay_of_record (prog : List DealerCall) (e e' : Env) (t t' : Tapes) :
    ∃ (bytes : List Byte), bytes.length = drawBytes (programDraws prog) ∧
      (ReplaysExactly prog e e' t t' ↔
        drawsOf (programReplayDraws prog) bytes <+: drawsOf (programDraws prog) bytes ∧
        bytes.drop (drawBytes (programReplayDraws prog)) = []) := by
  obtain ⟨r, e₁, t₁, bytes, hlen, hrec⟩ := program_record prog [] e [] t []
  obtain ⟨r', hrep⟩ := program_replay prog [] e' bytes t' []
    (by rw [hlen]; exact drawBytes_replay_le prog)
  refine ⟨bytes, hlen, ?_⟩
  rw [ReplaysExactly, hrec]
  constructor
  · intro ⟨_, s, _, s', hs, hs', hlog, hend⟩
    obtain ⟨-, rfl⟩ := Prod.mk.inj (Proc.ret.inj hs)
    obtain ⟨-, rfl⟩ := Prod.mk.inj (Proc.ret.inj (hrep.symm.trans hs'))
    exact ⟨hlog, hend⟩
  · intro ⟨hlog, hend⟩
    exact ⟨r, _, r', _, rfl, hrep, hlog, hend⟩

/-- P2's tape replays a program exactly if and only if all its calls are multiplications. -/
theorem replays_exactly_iff (prog : List DealerCall) (e e' : Env) (t t' : Tapes) :
    ReplaysExactly prog e e' t t' ↔ ∀ c ∈ prog, c.routine = .mul := by
  obtain ⟨bytes, hlen, hiff⟩ := replay_of_record prog e e' t t'
  rw [hiff]
  constructor
  · intro ⟨_, hend⟩ c hc
    by_contra hne
    have hlt := drawBytes_replay_lt hc hne
    have hdrop := congrArg List.length hend
    rw [List.length_drop, hlen, List.length_nil] at hdrop
    omega
  · intro hmul
    rw [replayDraws_eq hmul]
    exact ⟨List.prefix_refl _, List.drop_eq_nil_of_le hlen.le⟩

/-- An OR and a product: the product is replayed with the values that the OR drew. -/
theorem replay_of_or_mul : ¬ ReplaysExactly
    [⟨.or, 64, by decide, fun _ => (1, 1)⟩, ⟨.mul, 64, by decide, fun _ => (0, 0)⟩]
    Env.zeros Env.zeros Tapes.empty Tapes.empty := by
  intro hreplays
  obtain ⟨bytes, hlen, hiff⟩ := replay_of_record
    [⟨.or, 64, by decide, fun _ => (1, 1)⟩, ⟨.mul, 64, by decide, fun _ => (0, 0)⟩]
    Env.zeros Env.zeros Tapes.empty Tapes.empty
  obtain ⟨-, hend⟩ := hiff.mp hreplays
  have hdrop := congrArg List.length hend
  rw [List.length_drop, hlen] at hdrop
  exact absurd hdrop (by decide)

end Mpc
