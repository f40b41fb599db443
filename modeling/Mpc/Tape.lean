import Mpc.Circuit

/- Recorded and replayed preprocessing (shares.hpp, mpcops.hpp). P2 in Record mode
   writes every operation's material to a tape for P0 and one for P1, the
   multiplications' on one pair and the ANDs' on another, each record behind the
   value of its counter; P0 and P1 in Replay mode read the material back and
   compare the counter. `record_call` is what one operation writes, `replay_op` a
   replayed operation whose counters agree, `replay_desync` one whose do not. -/
namespace Mpc
open Fifo LE

/-- P0 and P1 compute, P2 only deals. -/
def Role.computes : Role → Bool
  | .P2 => false
  | _ => true

theorem Role.computes_of_ne {p : Role} (hp : p ≠ .P2) : p.computes = true := by
  cases p with
  | P2 => exact absurd rfl hp
  | P0 | P1 => rfl

/-! Tapes. -/

inductive Kind where
  | mul | and
  deriving DecidableEq

/-- The bytes of every tape: of either kind, for P0 and for P1. -/
abbrev Tapes := Kind → Role → List Byte

namespace Tapes

def empty : Tapes := fun _ _ => []

def append (t u : Tapes) : Tapes := fun k p => t k p ++ u k p

theorem append_assoc (t u v : Tapes) : (t.append u).append v = t.append (u.append v) := by
  funext k p
  exact List.append_assoc _ _ _

theorem append_empty (t : Tapes) : t.append empty = t := by
  funext k p
  exact List.append_nil _

/-- The tapes with `l` as `p`'s tape of kind `k`. -/
def set (t : Tapes) (k : Kind) (p : Role) (l : List Byte) : Tapes :=
  fun k' p' => if k' = k ∧ p' = p then l else t k' p'

variable (t : Tapes) (k : Kind) (p : Role) (l l' : List Byte)

@[simp] theorem set_self : t.set k p l k p = l := if_pos ⟨rfl, rfl⟩

@[simp] theorem set_set : (t.set k p l).set k p l' = t.set k p l' := by
  funext k' p'
  unfold set
  split <;> rfl

end Tapes

namespace Kind

def outTape : Kind → Role → OutTape
  | .mul, .P0 => mulOutP0
  | .mul, _ => mulOutP1
  | .and, .P0 => andOutP0
  | .and, _ => andOutP1

def inTape : Kind → Role → InTape
  | .mul, .P0 => mulInP0
  | .mul, _ => mulInP1
  | .and, .P0 => andInP0
  | .and, _ => andInP1

def next : Kind → Party Host (BitVec 64)
  | .mul => nextMul
  | .and => nextAnd

def ctr : Kind → Env → BitVec 64
  | .mul, e => e.mulCtr
  | .and, e => e.andCtr

def bump : Kind → Env → Env
  | .mul, e => { e with mulCtr := e.mulCtr + 1 }
  | .and, e => { e with andCtr := e.andCtr + 1 }

/-- The product in a triple of kind `k`. -/
def prod {w : Nat} : Kind → BitVec w → BitVec w → BitVec w
  | .mul, x, y => x * y
  | .and, x, y => x &&& y

/-- The message of a record with the wrong index. -/
def desync (k : Kind) (p : Role) : String :=
  match k with
  | .mul => "Replay desync in mpc_mul at " ++ (if decide (p = .P0) then "P0" else "P1")
  | .and => "Replay desync in mpc_and at " ++ (if decide (p = .P0) then "P0" else "P1")

end Kind

/-! Contexts in Record and in Replay mode. -/

/-- P2 in Record mode, which has recorded `rand` and the tapes `t`. -/
def Host.recording (e : Env) (rand : List Byte) (t : Tapes) : Host :=
  { Host.online .P2 e with
    ctx := { (Host.online .P2 e).ctx with
      randMode := .Record
      randOut := ⟨rand, true⟩
      mulOutP0 := ⟨t .mul .P0, true⟩
      mulOutP1 := ⟨t .mul .P1, true⟩
      andOutP0 := ⟨t .and .P0, true⟩
      andOutP1 := ⟨t .and .P1, true⟩ } }

/-- The tape files a recording leaves. -/
def Host.files (h : Host) : Tapes := fun k p => ((k.outTape p).get h.ctx).bytes

/-- A party in Replay mode, with the tapes `t` still to read. -/
def Host.replaying (p : Role) (e : Env) (rand : IStream) (t : Tapes) : Host :=
  { Host.online p e with
    ctx := { (Host.online p e).ctx with
      randMode := .Replay
      randIn := rand
      mulInP0 := ⟨t .mul .P0, true⟩
      mulInP1 := ⟨t .mul .P1, true⟩
      andInP0 := ⟨t .and .P0, true⟩
      andInP1 := ⟨t .and .P1, true⟩ } }

section
variable {w : Nat} {e : Env} {rand : List Byte} {t : Tapes} {k : Kind} {p : Role}

theorem mpcRandom_recording : (mpcRandom true w).run (Host.recording e rand t) =
    .ret (.ok (e.word w), Host.recording (e.skip w) (rand ++ e.entropy.take (sizeBytes w)) t) := rfl

theorem next_recording : k.next.run (Host.recording e rand t) =
    .ret (.ok (k.ctr e), Host.recording (k.bump e) rand t) := by
  cases k <;> rfl

theorem writeTape_recording (hp : p ≠ .P2) (x : BitVec w) :
    (writeTape (k.outTape p) x).run (Host.recording e rand t) =
      .ret (.ok (), Host.recording e rand (t.set k p (t k p ++ enc x))) := by
  cases p with
  | P2 => exact absurd rfl hp
  | P0 | P1 => cases k <;> rfl

/-- One party's record. -/
def record (idx : BitVec 64) (m : Material w) : List Byte :=
  enc idx ++ (enc m.X ++ (enc m.Y ++ enc m.gamma))

theorem writeRecord_recording (hp : p ≠ .P2) (idx : BitVec 64) (m : Material w) :
    (writeRecord (k.outTape p) idx m.X m.Y m.gamma).run (Host.recording e rand t) =
      .ret (.ok (), Host.recording e rand (t.set k p (t k p ++ record idx m))) := by
  simp only [writeRecord, Party.bind_run, writeTape_recording hp, Proc.bind_ret, Party.andThen_ok,
    Tapes.set_self, Tapes.set_set, record, List.append_assoc]

variable {i : IStream} {l : List Byte}

theorem next_replaying : k.next.run (Host.replaying p e i t) =
    .ret (.ok (k.ctr e), Host.replaying p (k.bump e) i t) := by
  cases k <;> rfl

/-- A stream that holds the object. -/
theorem read_enc {old : List Byte} (x : BitVec w) (h : old.length = sizeBytes w) :
    IStream.read ⟨enc x ++ l, true⟩ old = (enc x, ⟨l, true⟩) := by
  have hlen : old.length = (enc x).length := h.trans (enc_length x).symm
  rw [IStream.read_of_le (by rw [List.length_append]; omega), hlen, List.take_left, List.drop_left]

theorem readTape_run (t : InTape) (w : Nat) (h : Host) :
    (readTape t w).run h = .ret (.ok (dec w ((t.get h.ctx).read (h.garbage w)).1),
      { h with ctx := t.set ((t.get h.ctx).read (h.garbage w)).2 h.ctx }) := rfl

theorem readTape_replaying (hp : p ≠ .P2) {x : BitVec w} (ht : t k p = enc x ++ l) :
    (readTape (k.inTape p) w).run (Host.replaying p e i t) =
      .ret (.ok x, Host.replaying p e i (t.set k p l)) := by
  have hget : (k.inTape p).get (Host.replaying p e i t).ctx = ⟨enc x ++ l, true⟩ := by
    rw [← ht]
    cases p with
    | P2 => exact absurd rfl hp
    | P0 | P1 => cases k <;> rfl
  have hset : { Host.replaying p e i t with
      ctx := (k.inTape p).set ⟨l, true⟩ (Host.replaying p e i t).ctx } =
      Host.replaying p e i (t.set k p l) := by
    cases p with
    | P2 => exact absurd rfl hp
    | P0 | P1 => cases k <;> rfl
  rw [readTape_run, hget, read_enc x (Host.garbage_length _ w), dec_enc, hset]

/-- A record whose index is the counter's value. -/
theorem readRecord_replaying (hp : p ≠ .P2) (desync : String) {m : Material w}
    (ht : t k p = record (k.ctr e) m ++ l) :
    (readRecord (k.inTape p) k.next desync w).run (Host.replaying p e i t) =
      .ret (.ok (m.X, m.Y, m.gamma), Host.replaying p (k.bump e) i (t.set k p l)) := by
  simp only [record, List.append_assoc] at ht
  rw [readRecord, Party.bind_run, readTape_replaying hp ht, Proc.bind_ret, Party.andThen_ok,
    Party.bind_run, next_replaying, Proc.bind_ret, Party.andThen_ok, if_neg (not_not.mpr rfl)]
  simp only [Party.bind_run, Party.pure_run, Proc.bind_ret, Party.andThen_ok,
    readTape_replaying hp (Tapes.set_self t k p _), Tapes.set_set]

/-- A record with another index. -/
theorem readRecord_desync (hp : p ≠ .P2) (desync : String) {m : Material w} {idx : BitVec 64}
    (ht : t k p = record idx m ++ l) (hidx : idx ≠ k.ctr e) :
    ∃ h, (readRecord (k.inTape p) k.next desync w).run (Host.replaying p e i t) =
      .ret (.error (.runtimeError desync), h) := by
  rw [record, List.append_assoc] at ht
  refine ⟨Host.replaying p (k.bump e) i (t.set k p (enc m.X ++ (enc m.Y ++ enc m.gamma) ++ l)), ?_⟩
  rw [readRecord, Party.bind_run, readTape_replaying hp ht, Proc.bind_ret, Party.andThen_ok,
    Party.bind_run, next_replaying, Proc.bind_ret, Party.andThen_ok, if_pos hidx]
  rfl

end

/-! Recording. -/

/-- What one record for each of P0 and P1 adds to the tapes. -/
def records {w : Nat} (k : Kind) (idx : BitVec 64) (d : Role → Material w) : Tapes :=
  fun k' => if k' = k then tri (record idx (d .P0)) (record idx (d .P1)) [] else fun _ => []

section
variable {w : Nat} {e : Env} {rand : List Byte} {t : Tapes}

@[simp] theorem recording_randMode : (Host.recording e rand t).ctx.randMode = .Record := rfl

theorem append_records (k : Kind) (idx : BitVec 64) (d : Role → Material w) :
    (t.set k .P0 (t k .P0 ++ record idx (d .P0))).set k .P1 (t k .P1 ++ record idx (d .P1)) =
      t.append (records k idx d) := by
  funext k' p
  by_cases hk : k' = k
  · subst hk
    cases p <;> simp [Tapes.set, Tapes.append, records]
  · simp [Tapes.set, Tapes.append, records, hk]

/-- P2 writes an operation's two records behind its counter. -/
theorem writeRecords_recording {α : Type} (k : Kind) (d : Role → Material w) (z : α) :
    (do
      let idx ← k.next
      writeRecord (k.outTape .P0) idx (d .P0).X (d .P0).Y (d .P0).gamma
      writeRecord (k.outTape .P1) idx (d .P1).X (d .P1).Y (d .P1).gamma
      return z : Party Host α).run (Host.recording e rand t) =
      .ret (.ok z, Host.recording (k.bump e) rand (t.append (records k (k.ctr e) d))) := by
  have hne : t.set k .P0 (t k .P0 ++ record (k.ctr e) (d .P0)) k .P1 = t k .P1 :=
    if_neg (by simp)
  simp only [Party.bind_run, next_recording, Proc.bind_ret, Party.andThen_ok, Party.pure_run,
    writeRecord_recording (show Role.P0 ≠ .P2 by decide),
    writeRecord_recording (show Role.P1 ≠ .P2 by decide), hne, append_records]

/-- The material that P2 records: `X0`, `Y0`, `X1` and `Y1` are its draws in this order. -/
def recordDeal (k : Kind) (w : Nat) (e : Env) : Role → Material w :=
  tri ⟨e.draw w 0, e.draw w 1, k.prod (e.draw w 0) (e.draw w 3)⟩
    ⟨e.draw w 2, e.draw w 3, k.prod (e.draw w 2) (e.draw w 1)⟩ ⟨0, 0, 0⟩

/-- P2's draws for one operation. -/
theorem draws_recording (w : Nat) (e : Env) (rand : List Byte) (t : Tapes) : ∃ rand',
    ∀ {α : Type} (f : BitVec w → BitVec w → BitVec w → BitVec w → Party Host α),
      (do
        let X0 ← mpcRandom true w
        let Y0 ← mpcRandom true w
        let X1 ← mpcRandom true w
        let Y1 ← mpcRandom true w
        f X0 Y0 X1 Y1).run (Host.recording e rand t) =
      (f (e.draw w 0) (e.draw w 1) (e.draw w 2) (e.draw w 3)).run
        (Host.recording (e.skips w 4) rand' t) := by
  apply Exists.intro
  intro α f
  simp only [Party.bind_run, mpcRandom_recording, Proc.bind_ret, Party.andThen_ok]
  rfl

variable (e rand t)

theorem mpcMul_P2_recording {x y : AShare w} (hx : x.ctx = true) : ∃ rand',
    (mpcMul x y .P2 .P0 (some .P0) (some .P1)).run (Host.recording e rand t) =
      .ret (.ok 0, Host.recording (Kind.mul.bump (e.skips w 4)) rand'
        (t.append (records .mul e.mulCtr (recordDeal .mul w e)))) := by
  obtain ⟨rand', h⟩ := draws_recording w e rand t
  refine ⟨rand', ?_⟩
  simp only [mpcMul, hx, if_true, h]
  rw [Party.bind_run, deref_run, Proc.bind_ret, Party.andThen_ok]
  simp only [recording_randMode, reduceCtorEq, if_false, if_true]
  exact writeRecords_recording .mul (recordDeal .mul w e) 0

theorem mpcAnd_P2_recording {x y : XShare w} (hx : x.ctx = true) : ∃ rand',
    (mpcAnd x y .P2 .P0 (some .P0) (some .P1)).run (Host.recording e rand t) =
      .ret (.ok 0, Host.recording (Kind.and.bump (e.skips w 4)) rand'
        (t.append (records .and e.andCtr (recordDeal .and w e)))) := by
  obtain ⟨rand', h⟩ := draws_recording w e rand t
  refine ⟨rand', ?_⟩
  simp only [mpcAnd, hx, if_true]
  rw [Party.bind_run, deref_run, Proc.bind_ret, Party.andThen_ok]
  simp only [recording_randMode, reduceCtorEq, if_false, if_true, or_true, h]
  exact writeRecords_recording .and (recordDeal .and w e) 0

end

/-! Multiplications and ANDs from the tapes. -/

section
variable {w : Nat} {e : Env} {i : IStream} {t : Tapes} {p : Role} {l : List Byte} {m : Material w}

theorem mulMaterial_replaying (hp : p ≠ .P2) (ht : t .mul p = record e.mulCtr m ++ l) :
    (mulMaterial true (decide (p = .P0)) .P2 w).run (Host.replaying p e i t) =
      .ret (.ok (m.X, m.Y, m.gamma), Host.replaying p (Kind.mul.bump e) i (t.set .mul p l)) := by
  have h := readRecord_replaying (k := .mul) (i := i) hp (Kind.desync .mul p) ht
  cases p with
  | P2 => exact absurd rfl hp
  | P0 | P1 => exact h

theorem andMaterial_replaying (hp : p ≠ .P2) (ht : t .and p = record e.andCtr m ++ l) :
    (andMaterial true (decide (p = .P0)) .P2 w).run (Host.replaying p e i t) =
      .ret (.ok (m.X, m.Y, m.gamma), Host.replaying p (Kind.and.bump e) i (t.set .and p l)) := by
  have h := readRecord_replaying (k := .and) (i := i) hp (Kind.desync .and p) ht
  cases p with
  | P2 => exact absurd rfl hp
  | P0 | P1 => exact h

theorem mpcMul_P0_replaying {x y : AShare w} (hx : x.ctx = true) (hw : 32 ≤ w)
    (ht : t .mul .P0 = record e.mulCtr m ++ l) :
    (mpcMul x y .P0 .P2 (some .P1) none).run (Host.replaying .P0 e i t) =
      exchangeFirst .P1 (mulMask x.val y.val m) fun a b =>
        (.ok (mulShare x.val y.val m a b),
          Host.replaying .P0 (Kind.mul.bump e) i (t.set .mul .P0 l)) := by
  have hread := mulMaterial_replaying (i := i) (p := .P0) (by decide) ht
  rw [decide_eq_true rfl] at hread
  simp [mpcMul, hx, hread, sumBytes, Nat.not_lt.mpr hw, exchangeFirst, mulMask, mulShare]

theorem mpcMul_P1_replaying {x y : AShare w} (hx : x.ctx = true) (hw : 32 ≤ w)
    (ht : t .mul .P1 = record e.mulCtr m ++ l) :
    (mpcMul x y .P1 .P2 (some .P0) none).run (Host.replaying .P1 e i t) =
      exchangeSecond .P0 (mulMask x.val y.val m) fun a b =>
        (.ok (mulShare x.val y.val m a b),
          Host.replaying .P1 (Kind.mul.bump e) i (t.set .mul .P1 l)) := by
  have hread := mulMaterial_replaying (i := i) (p := .P1) (by decide) ht
  rw [decide_eq_false (by decide)] at hread
  simp [mpcMul, hx, hread, sumBytes, Nat.not_lt.mpr hw, exchangeSecond, mulMask, mulShare]

theorem mpcAnd_P0_replaying {x y : XShare w} (hx : x.ctx = true)
    (ht : t .and .P0 = record e.andCtr m ++ l) :
    (mpcAnd x y .P0 .P2 (some .P1) none).run (Host.replaying .P0 e i t) =
      exchangeFirst .P1 (andMask x.val y.val m) fun a b =>
        (.ok (andShare x.val y.val m a b),
          Host.replaying .P0 (Kind.and.bump e) i (t.set .and .P0 l)) := by
  have hread := andMaterial_replaying (i := i) (p := .P0) (by decide) ht
  rw [decide_eq_true rfl] at hread
  simp [mpcAnd, hx, hread, exchangeFirst, andMask, andShare]

theorem mpcAnd_P1_replaying {x y : XShare w} (hx : x.ctx = true)
    (ht : t .and .P1 = record e.andCtr m ++ l) :
    (mpcAnd x y .P1 .P2 (some .P0) none).run (Host.replaying .P1 e i t) =
      exchangeSecond .P0 (andMask x.val y.val m) fun a b =>
        (.ok (andShare x.val y.val m a b),
          Host.replaying .P1 (Kind.and.bump e) i (t.set .and .P1 l)) := by
  have hread := andMaterial_replaying (i := i) (p := .P1) (by decide) ht
  rw [decide_eq_false (by decide)] at hread
  simp [mpcAnd, hx, hread, exchangeSecond, andMask, andShare]

/-- An OR at a connected party is its AND, whatever the mode. -/
theorem mpcOr_connected {x y : XShare w} (hx : x.ctx = true) (hy : y.ctx = true) {h : Host}
    (hrole : h.ctx.role = p) (hself : h.ctx.self = selfOf p) (h0 : h.ctx.peer0 = peer0Of p)
    (h1 : h.ctx.peer1 = peer1Of p) :
    (mpcOr x y).run h = ((mpcAnd x y p (selfOf p) (peer0Of p) (peer1Of p)).run h).bind
      (Party.andThen fun z => pure (x.val ^^^ y.val ^^^ z)) := by
  simp [mpcOr, XShare.and, XShare.xor, hx, hy, hrole, hself, h0, h1,
    Party.bind_assoc, Party.pure_bind]

end

/-! Operations. -/

/-- An interactive operation on words; multiplication is instantiated at 64 bits. -/
inductive Op where
  | mul
  | and (w : Nat)
  | or (w : Nat)

namespace Op

@[reducible] def width : Op → Nat
  | .mul => 64
  | .and w => w
  | .or w => w

def kind : Op → Kind
  | .mul => .mul
  | .and _ => .and
  | .or _ => .and

/-- The operation's call at party `p` on the shares `x` and `y`. -/
def call : (o : Op) → Role → BitVec o.width → BitVec o.width → Party Host (BitVec o.width)
  | .mul, p, x, y => mpcMul ⟨x, true⟩ ⟨y, true⟩ p (selfOf p) (peer0Of p) (peer1Of p)
  | .and _, p, x, y => mpcAnd ⟨x, true⟩ ⟨y, true⟩ p (selfOf p) (peer0Of p) (peer1Of p)
  | .or _, _, x, y => mpcOr ⟨x, true⟩ ⟨y, true⟩

/-- What two shares hide. -/
def reconstruct : (o : Op) → BitVec o.width → BitVec o.width → BitVec o.width
  | .mul, a, b => a + b
  | .and _, a, b => a ^^^ b
  | .or _, a, b => a ^^^ b

/-- What the operation computes. -/
def eval : (o : Op) → BitVec o.width → BitVec o.width → BitVec o.width
  | .mul, x, y => x * y
  | .and _, x, y => x &&& y
  | .or _, x, y => x ||| y

def mask : (o : Op) → BitVec o.width → BitVec o.width → Material o.width →
    BitVec o.width × BitVec o.width
  | .mul, x, y, m => mulMask x y m
  | .and _, x, y, m => andMask x y m
  | .or _, x, y, m => andMask x y m

def share : (o : Op) → BitVec o.width → BitVec o.width → Material o.width → BitVec o.width →
    BitVec o.width → BitVec o.width
  | .mul, x, y, m, a, b => mulShare x y m a b
  | .and _, x, y, m, a, b => andShare x y m a b
  | .or _, x, y, m, a, b => x ^^^ y ^^^ andShare x y m a b

/-- P2's environment after recording the operation. -/
def after (o : Op) (e : Env) : Env := o.kind.bump (e.skips o.width 4)

/-- The material P2 records for the operation. -/
def deal (o : Op) (e : Env) : Role → Material o.width := recordDeal o.kind o.width e

/-- What recording the operation adds to the tapes. -/
def tapes (o : Op) (e : Env) : Tapes := records o.kind (o.kind.ctr e) (o.deal e)

end Op

section
variable (o : Op) (x y : BitVec o.width) {e : Env} {rand : List Byte} {i : IStream} {t : Tapes}
  {l : List Byte} {m : Material o.width}

theorem Op.tapes_self {p : Role} (hp : p ≠ .P2) :
    o.tapes e o.kind p = record (o.kind.ctr e) (o.deal e p) := by
  rw [Op.tapes, records, if_pos rfl]
  cases p with
  | P2 => exact absurd rfl hp
  | P0 | P1 => rfl

theorem Op.tapes_ne {k : Kind} (hk : k ≠ o.kind) (p : Role) : o.tapes e k p = [] := by
  rw [Op.tapes, records, if_neg hk]

variable (e rand t) in
theorem record_call : ∃ r rand', (o.call .P2 x y).run (Host.recording e rand t) =
    .ret (.ok r, Host.recording (o.after e) rand' (t.append (o.tapes e))) := by
  cases o with
  | mul =>
    obtain ⟨rand', h⟩ := mpcMul_P2_recording e rand t (x := ⟨x, true⟩) (y := ⟨y, true⟩) rfl
    exact ⟨0, rand', h⟩
  | and w =>
    obtain ⟨rand', h⟩ := mpcAnd_P2_recording e rand t (x := ⟨x, true⟩) (y := ⟨y, true⟩) rfl
    exact ⟨0, rand', h⟩
  | or w =>
    obtain ⟨rand', h⟩ := mpcAnd_P2_recording e rand t (x := ⟨x, true⟩) (y := ⟨y, true⟩) rfl
    refine ⟨x ^^^ y ^^^ 0, rand', ?_⟩
    rw [Op.call, mpcOr_connected (p := .P2) rfl rfl rfl rfl rfl rfl, selfOf, peer0Of, peer1Of, h]
    rfl

theorem replay_call_P0 (ht : t o.kind .P0 = record (o.kind.ctr e) m ++ l) :
    (o.call .P0 x y).run (Host.replaying .P0 e i t) =
      exchangeFirst .P1 (o.mask x y m) fun a b =>
        (.ok (o.share x y m a b), Host.replaying .P0 (o.kind.bump e) i (t.set o.kind .P0 l)) := by
  cases o with
  | mul => exact mpcMul_P0_replaying rfl (by decide) ht
  | and w => exact mpcAnd_P0_replaying rfl ht
  | or w =>
    rw [Op.call, mpcOr_connected (p := .P0) rfl rfl rfl rfl rfl rfl]
    have h := mpcAnd_P0_replaying (x := ⟨x, true⟩) (y := ⟨y, true⟩) (i := i) rfl ht
    exact congrArg (Proc.bind · _) h

theorem replay_call_P1 (ht : t o.kind .P1 = record (o.kind.ctr e) m ++ l) :
    (o.call .P1 x y).run (Host.replaying .P1 e i t) =
      exchangeSecond .P0 (o.mask x y m) fun a b =>
        (.ok (o.share x y m a b), Host.replaying .P1 (o.kind.bump e) i (t.set o.kind .P1 l)) := by
  cases o with
  | mul => exact mpcMul_P1_replaying rfl (by decide) ht
  | and w => exact mpcAnd_P1_replaying rfl ht
  | or w =>
    rw [Op.call, mpcOr_connected (p := .P1) rfl rfl rfl rfl rfl rfl]
    have h := mpcAnd_P1_replaying (x := ⟨x, true⟩) (y := ⟨y, true⟩) (i := i) rfl ht
    exact congrArg (Proc.bind · _) h

/-- A record with another index ends a party's call. -/
theorem replay_desync {p : Role} (hp : p ≠ .P2) {idx : BitVec 64}
    (ht : t o.kind p = record idx m ++ l) (hidx : idx ≠ o.kind.ctr e) :
    ∃ h, (o.call p x y).run (Host.replaying p e i t) =
      .ret (.error (.runtimeError (o.kind.desync p)), h) := by
  cases o with
  | mul =>
    obtain ⟨h, hread⟩ := readRecord_desync (i := i) hp (Kind.desync .mul p) ht hidx
    refine ⟨h, ?_⟩
    cases p with
    | P2 => exact absurd rfl hp
    | P0 | P1 => exact congrArg (Proc.bind · _) hread
  | and w =>
    obtain ⟨h, hread⟩ := readRecord_desync (i := i) hp (Kind.desync .and p) ht hidx
    refine ⟨h, ?_⟩
    cases p with
    | P2 => exact absurd rfl hp
    | P0 | P1 => exact congrArg (Proc.bind · _) hread
  | or w =>
    obtain ⟨h, hread⟩ := readRecord_desync (i := i) hp (Kind.desync .and p) ht hidx
    refine ⟨h, ?_⟩
    rw [Op.call, mpcOr_connected (p := p) rfl rfl rfl rfl rfl rfl]
    cases p with
    | P2 => exact absurd rfl hp
    | P0 | P1 => exact congrArg (fun a => (Proc.bind a _).bind _) hread

/-- The shares that P0 and P1 compute from a triple and each other's masked shares hide
    the operation's result. -/
theorem share_reconstruct (x y : Role → BitVec o.width) :
    o.reconstruct
        (o.share (x .P0) (y .P0) (o.deal e .P0) (o.mask (x .P1) (y .P1) (o.deal e .P1)).1
          (o.mask (x .P1) (y .P1) (o.deal e .P1)).2)
        (o.share (x .P1) (y .P1) (o.deal e .P1) (o.mask (x .P0) (y .P0) (o.deal e .P0)).1
          (o.mask (x .P0) (y .P0) (o.deal e .P0)).2) =
      o.eval (o.reconstruct (x .P0) (x .P1)) (o.reconstruct (y .P0) (y .P1)) := by
  cases o with
  | mul =>
    have h := Masked.share_add_share (AddMonoidHom.mul (R := BitVec 64)) (x .P0) (x .P1)
      (e.draw 64 0) (e.draw 64 2) (y .P0) (y .P1) (e.draw 64 1) (e.draw 64 3)
    simp only [Masked.share, AddMonoidHom.mul_apply] at h
    simp only [Op.eval, Op.reconstruct, ← h, Op.share, Op.mask, Op.deal, recordDeal, Op.kind,
      Kind.prod, mulShare, mulMask, tri_P0, tri_P1]
    ring
  | and w => exact andResult_xor (x := fun p => ⟨x p, true⟩) (y := fun p => ⟨y p, true⟩) e
  | or w => exact orResult_xor (x := fun p => ⟨x p, true⟩) (y := fun p => ⟨y p, true⟩) e

/-- P0 and P1 replay an operation whose records they find behind their counters; P2 is idle. -/
theorem replay_op (x y : Role → BitVec o.width) {e : Role → Env} {e2 : Env} {i : Role → IStream}
    {t : Role → Tapes} {l : Role → List Byte}
    (ht : ∀ p, p ≠ .P2 → t p o.kind p = record (o.kind.ctr (e p)) (o.deal e2 p) ++ l p) :
    ∃ v, PartyRun (fun p => if p.computes then o.call p (x p) (y p) else pure 0)
      (fun p => Host.replaying p (e p) (i p) (t p))
      (gateResult (o.deal e2) (fun p => o.mask (x p) (y p) (o.deal e2 p))
        (fun p => o.share (x p) (y p)) 0)
      (fun p => Host.replaying p (if p.computes then o.kind.bump (e p) else e p) (i p)
        (if p.computes then (t p).set o.kind p (l p) else t p)) v := by
  obtain ⟨v, h⟩ : ∃ v, Queued _ _ _ _ v := ⟨_, queued_swap (fun p => o.mask (x p) (y p) (o.deal e2 p))
    (fun p a b => ((.ok (o.share (x p) (y p) (o.deal e2 p) a b),
      Host.replaying p (o.kind.bump (e p)) (i p) ((t p).set o.kind p (l p))) : Except Err _ × Host))
    (.ok 0, Host.replaying .P2 (e .P2) (i .P2) (t .P2)) (fun _ => [])⟩
  refine ⟨v, ?_⟩
  apply PartyRun.of_queued (replay_call_P0 o _ _ (ht .P0 (by decide)))
    (replay_call_P1 o _ _ (ht .P1 (by decide))) rfl
  convert h using 1
  · funext p
    cases p <;> rfl
  · exact eq_tri rfl rfl rfl

/-- The three parties run an operation online. -/
theorem online_op (x y : Role → BitVec o.width) (e : Role → Env) :
    ∃ (z : Role → BitVec o.width) (e' : Role → Env) (v : Role → List (Role × List Byte)),
      PartyRun (fun p => o.call p (x p) (y p)) (fun p => Host.online p (e p)) z
        (fun p => Host.online p (e' p)) v ∧
      o.reconstruct (z .P0) (z .P1) =
        o.eval (o.reconstruct (x .P0) (x .P1)) (o.reconstruct (y .P0) (y .P1)) := by
  cases o with
  | mul =>
    exact ⟨_, _, _, mpcMul_run (x := fun p => ⟨x p, true⟩) (y := fun p => ⟨y p, true⟩)
      (fun _ => rfl) (by decide) e, mulResult_add (e .P2)⟩
  | and w =>
    exact ⟨_, _, _, mpcAnd_run (x := fun p => ⟨x p, true⟩) (y := fun p => ⟨y p, true⟩)
      (fun _ => rfl) e, andResult_xor (e .P2)⟩
  | or w =>
    exact ⟨_, _, _, mpcOr_run (x := fun p => ⟨x p, true⟩) (y := fun p => ⟨y p, true⟩)
      (fun _ => rfl) (fun _ => rfl) e, orResult_xor (e .P2)⟩

end

end Mpc
