import Mpc.Dotproduct
import Mpc.Eqz
import Mpc.Reconstruct

/- Whole programs over shares (shares.hpp, mpcops.hpp), of the kind mpcops_test.cpp
   runs: additive and XOR shares, vectors of both, the three interactive gates, the
   dot product, the test for zero and the openings, in any order. `exec` is an
   instruction at one party, `clear` what it does to the values behind the shares.
   A step of the three parties keeps every register a sharing of its value
   (`Instr.step`), so a run does (`runProgram_run`): every schedule opens at P0 and
   at P1 what the program computes in the clear, and where it throws in the clear
   all parties throw the same exception (`program_opens`). -/
namespace Mpc
open Fifo Diamond LE

/-! Sharings of vectors. -/

/-- Two operations that may be taken in either order. -/
theorem zipWith_interchange {α : Type} {f g : α → α → α}
    (h : ∀ a b c d, g (f a b) (f c d) = f (g a c) (g b d)) (as bs cs ds : List α) :
    List.zipWith g (List.zipWith f as bs) (List.zipWith f cs ds) =
      List.zipWith f (List.zipWith g as cs) (List.zipWith g bs ds) := by
  induction as generalizing bs cs ds with
  | nil => simp
  | cons a as ih =>
    cases bs with
    | nil => simp
    | cons b bs =>
    cases cs with
    | nil => simp
    | cons c cs =>
    cases ds with
    | nil => simp
    | cons d ds => simp only [List.zipWith_cons_cons, h, ih]

/-- P0's and P1's vectors combine to `l` by `g`, and all parties' vectors are as long. -/
structure ListSharing (g : BitVec 64 → BitVec 64 → BitVec 64) (s : Role → List (BitVec 64))
    (l : List (BitVec 64)) : Prop where
  combine : List.zipWith g (s .P0) (s .P1) = l
  length : ∀ p, (s p).length = l.length
  small : l.length < 2^64

theorem ListSharing.zipWith {f g : BitVec 64 → BitVec 64 → BitVec 64} {s t : Role → List (BitVec 64)}
    {a b : List (BitVec 64)} (hf : ∀ a b c d, g (f a b) (f c d) = f (g a c) (g b d))
    (hs : ListSharing g s a) (ht : ListSharing g t b) (hab : a.length = b.length) :
    ListSharing g (fun p => List.zipWith f (s p) (t p)) (List.zipWith f a b) := by
  have hlen : (List.zipWith f a b).length = a.length := by
    rw [List.length_zipWith, hab, Nat.min_self]
  refine ⟨?_, ?_, ?_⟩
  · rw [← hs.combine, ← ht.combine]
    exact zipWith_interchange hf _ _ _ _
  · intro p
    rw [hlen, List.length_zipWith, hs.length, ht.length, hab, Nat.min_self]
  · rw [hlen]
    exact hs.small

/-- The parties' size checks agree with each other. -/
theorem ListSharing.length_iff {g : BitVec 64 → BitVec 64 → BitVec 64} {s t : Role → List (BitVec 64)}
    {a b : List (BitVec 64)} (hs : ListSharing g s a) (ht : ListSharing g t b) (p : Role) :
    (s p).length = (t p).length ↔ a.length = b.length := by
  rw [hs.length, ht.length]

def VSharing (s : Role → AdditiveShareVector) (l : List (BitVec 64)) : Prop :=
  ListSharing (· + ·) (fun p => (s p).vals) l ∧ ∀ p, (s p).ctx = true

def USharing (s : Role → XorShareVector 64) (l : List (BitVec 64)) : Prop :=
  ListSharing (· ^^^ ·) (fun p => (s p).vals) l

/-- P0's and P1's words add up to `v`. -/
def NSharing (s : Role → BitVec 64) (v : BitVec 64) : Prop := s .P0 + s .P1 = v

/-- A vector operator on the values. -/
def clearVectors (what : String) (f : BitVec 64 → BitVec 64 → BitVec 64) (a b : List (BitVec 64)) :
    Except Err (List (BitVec 64)) :=
  if a.length ≠ b.length then .error (.runtimeError what) else .ok (List.zipWith f a b)

/-- The parties' operator `x` returns a sharing of what `y` returns in the clear, or throws what
    `y` throws at every party. -/
def Computes {V L : Type} (Sharing : (Role → V) → L → Prop) (x : Role → Except Err V)
    (y : Except Err L) : Prop :=
  (∀ l, y = .ok l → ∃ z, (∀ p, x p = .ok (z p)) ∧ Sharing z l) ∧
    ∀ err, y = .error err → ∀ p, x p = .error err

/-- An operator that commutes with adding up. -/
theorem VSharing.elementwise {s t : Role → AdditiveShareVector} {a b : List (BitVec 64)}
    {f : BitVec 64 → BitVec 64 → BitVec 64} (hf : ∀ a b c d, f a b + f c d = f (a + c) (b + d))
    (hs : VSharing s a) (ht : VSharing t b) :
    Computes VSharing (fun p => (s p).elementwise f (t p))
      (clearVectors "AdditiveShareVector size mismatch" f a b) := by
  have hlen := hs.1.length_iff ht.1
  by_cases hab : a.length = b.length
  · rw [clearVectors, if_neg (not_not.mpr hab)]
    refine ⟨?_, fun err h => (by cases h)⟩
    rintro l ⟨⟩
    exact ⟨_, fun p => if_neg (not_not.mpr ((hlen p).mpr hab)), hs.1.zipWith hf ht.1 hab, hs.2⟩
  · rw [clearVectors, if_pos hab]
    refine ⟨fun l h => (by cases h), ?_⟩
    rintro err ⟨⟩ p
    exact if_pos (mt (hlen p).mp hab)

theorem USharing.xor {s t : Role → XorShareVector 64} {a b : List (BitVec 64)} (hs : USharing s a)
    (ht : USharing t b) : Computes USharing (fun p => (s p).xor (t p))
      (clearVectors "XorShareVector size mismatch" (· ^^^ ·) a b) := by
  have hlen := hs.length_iff ht
  by_cases hab : a.length = b.length
  · rw [clearVectors, if_neg (not_not.mpr hab)]
    refine ⟨?_, fun err h => (by cases h)⟩
    rintro l ⟨⟩
    exact ⟨_, fun p => if_neg (not_not.mpr ((hlen p).mpr hab)), hs.zipWith xor_xor_xor_comm ht hab⟩
  · rw [clearVectors, if_pos hab]
    refine ⟨fun l h => (by cases h), ?_⟩
    rintro err ⟨⟩ p
    exact if_pos (mt (hlen p).mp hab)

/-- P0 and P1 open the vector. -/
theorem USharing.opening_run {σ : Type} {s : Role → XorShareVector 64} {l : List (BitVec 64)}
    (h : USharing s l) (m : Role → σ) :
    ∃ v, PartyRun (fun p => opening p fun peer => reconstructRemoteVector peer (s p)) m (opened l l) m v := by
  have hsmall : ∀ p, (s p).vals.length < 2^64 := fun p => (h.length p).trans_lt h.small
  have hlen : (s .P1).vals.length = (s .P0).vals.length := (h.length _).trans (h.length _).symm
  obtain ⟨v, hrun⟩ := reconstructRemoteVector_opening s hsmall m
  rw [openedVector, if_neg (not_not.mpr hlen), h.combine] at hrun
  refine ⟨v, ?_⟩
  rw [PartyRun]
  convert hrun using 1
  funext p
  cases p <;> rfl

/-! Programs. -/

/-- `operator*(AdditiveShareVector, AdditiveShareVector)`. It does not look at `y`'s context. -/
def AdditiveShareVector.mul (aes : Block → Block) (x y : AdditiveShareVector) :
    Party Host (BitVec 64) := do
  if !x.ctx then Party.throw (.runtimeError "AdditiveShareVector missing MPC context")
  let c ← deref x.ctx
  mpcDotproduct (prgExpander aes) x y c.role c.self c.peer0 c.peer1

/-- A party's variables. A dot product returns a plain word, which becomes a share again when it is
    given a context. -/
structure Regs (ι : Type) where
  a : ι → AShare 64
  x : ι → XShare 64
  v : ι → AdditiveShareVector
  u : ι → XorShareVector 64
  n : ι → BitVec 64

/-- The values behind them. -/
structure Clear (ι : Type) where
  a : ι → BitVec 64
  x : ι → BitVec 64
  v : ι → List (BitVec 64)
  u : ι → List (BitVec 64)
  n : ι → BitVec 64

/-- What an opening prints. -/
inductive Output where
  | word (v : BitVec 64)
  | vector (l : List (BitVec 64))

inductive Instr (ι : Type) where
  | arith (i : ArithInstr ι)
  | bool (i : BoolInstr ι)
  | eqz (d a : ι)
  | vadd (d a b : ι)
  | vsub (d a b : ι)
  | uxor (d a b : ι)
  | dot (d a b : ι)
  | share (d n : ι)
  | openA (a : ι)
  | openX (x : ι)
  | openN (n : ι)
  | openU (u : ι)

section
variable {ι : Type} [DecidableEq ι]

namespace Regs
variable (r : Regs ι) (d : ι)

def setA (z : AShare 64) : Regs ι := { r with a := Function.update r.a d z }
def setX (z : XShare 64) : Regs ι := { r with x := Function.update r.x d z }
def setV (z : AdditiveShareVector) : Regs ι := { r with v := Function.update r.v d z }
def setU (z : XorShareVector 64) : Regs ι := { r with u := Function.update r.u d z }
def setN (z : BitVec 64) : Regs ι := { r with n := Function.update r.n d z }

end Regs

namespace Clear
variable (c : Clear ι) (d : ι)

def setA (z : BitVec 64) : Clear ι := { c with a := Function.update c.a d z }
def setX (z : BitVec 64) : Clear ι := { c with x := Function.update c.x d z }
def setV (z : List (BitVec 64)) : Clear ι := { c with v := Function.update c.v d z }
def setU (z : List (BitVec 64)) : Clear ι := { c with u := Function.update c.u d z }
def setN (z : BitVec 64) : Clear ι := { c with n := Function.update c.n d z }

end Clear

/-- The instruction at party `p`. -/
def Instr.exec (aes : Block → Block) (p : Role) (r : Regs ι) :
    Instr ι → Party Host (Regs ι × Option Output)
  | .arith i => do
    let z ← i.eval r.a
    return (r.setA i.dst z, none)
  | .bool i => do
    let z ← i.eval r.x
    return (r.setX i.dst z, none)
  | .eqz d a => do
    let z ← (r.a a).eqz 0
    return (r.setX d z, none)
  | .vadd d a b => do
    let z ← Party.ofExcept ((r.v a).add (r.v b))
    return (r.setV d z, none)
  | .vsub d a b => do
    let z ← Party.ofExcept ((r.v a).sub (r.v b))
    return (r.setV d z, none)
  | .uxor d a b => do
    let z ← Party.ofExcept ((r.u a).xor (r.u b))
    return (r.setU d z, none)
  | .dot d a b => do
    let z ← (r.v a).mul aes (r.v b)
    return (r.setN d z, none)
  | .share d n => return (r.setA d ⟨r.n n, true⟩, none)
  | .openA a => do
    let z ← opening p fun peer => (r.a a).reconstructRemote peer
    return (r, z.map .word)
  | .openX x => do
    let z ← opening p fun peer => (r.x x).reconstructRemote peer
    return (r, z.map .word)
  | .openN n => do
    let z ← opening p fun peer => (AShare.mk (r.n n) false).reconstructRemote peer
    return (r, z.map .word)
  | .openU u => do
    let z ← opening p fun peer => reconstructRemoteVector peer (r.u u)
    return (r, z.map .vector)

/-- The instruction on the values. A test for zero gives 0 for zero and 1 otherwise. -/
def Instr.clear (c : Clear ι) : Instr ι → Except Err (Clear ι × Option Output)
  | .arith i => .ok (c.setA i.dst (i.plain c.a), none)
  | .bool i => .ok (c.setX i.dst (i.plain c.x), none)
  | .eqz d a => .ok (c.setX d (if c.a a = 0 then 0 else 1), none)
  | .vadd d a b => do
    let z ← clearVectors "AdditiveShareVector size mismatch" (· + ·) (c.v a) (c.v b)
    return (c.setV d z, none)
  | .vsub d a b => do
    let z ← clearVectors "AdditiveShareVector size mismatch" (· - ·) (c.v a) (c.v b)
    return (c.setV d z, none)
  | .uxor d a b => do
    let z ← clearVectors "XorShareVector size mismatch" (· ^^^ ·) (c.u a) (c.u b)
    return (c.setU d z, none)
  | .dot d a b => .ok (c.setN d (Mpc.dot (c.v a) (c.v b)), none)
  | .share d n => .ok (c.setA d (c.n n), none)
  | .openA a => .ok (c, some (.word (c.a a)))
  | .openX x => .ok (c, some (.word (c.x x)))
  | .openN n => .ok (c, some (.word (c.n n)))
  | .openU u => .ok (c, some (.vector (c.u u)))

/-- The vectors of a dot product are equally long. -/
def Instr.Ready (c : Clear ι) : Instr ι → Prop
  | .dot _ a b => (c.v a).length = (c.v b).length
  | _ => True

/-- All dot products that a program comes to are of equally long vectors. -/
def ProgramReady : List (Instr ι) → Clear ι → Prop
  | [], _ => True
  | i :: prog, c => i.Ready c ∧ ∀ s, i.clear c = .ok s → ProgramReady prog s.1

theorem ProgramReady.cons {i : Instr ι} {prog : List (Instr ι)} {c : Clear ι}
    {s : Clear ι × Option Output} (hi : i.Ready c) (hs : i.clear c = .ok s)
    (h : ProgramReady prog s.1) : ProgramReady (i :: prog) c := by
  refine ⟨hi, fun s' hs' => ?_⟩
  cases hs.symm.trans hs'
  exact h

/-! Steps. -/

/-- Every register is a sharing of its value. -/
structure Shares (r : Role → Regs ι) (c : Clear ι) : Prop where
  a : ∀ i, ASharing (fun p => (r p).a i) (c.a i)
  x : ∀ i, XSharing (fun p => (r p).x i) (c.x i)
  v : ∀ i, VSharing (fun p => (r p).v i) (c.v i)
  u : ∀ i, USharing (fun p => (r p).u i) (c.u i)
  n : ∀ i, NSharing (fun p => (r p).n i) (c.n i)

/-- A register that is assigned a sharing. -/
theorem update_sharing {S V : Type} {Sharing : (Role → S) → V → Prop} {s : Role → ι → S} {v : ι → V}
    (h : ∀ i, Sharing (fun p => s p i) (v i)) (d : ι) {z : Role → S} {y : V} (hz : Sharing z y) (i : ι) :
    Sharing (fun p => Function.update (s p) d (z p) i) (Function.update v d y i) := by
  by_cases hi : i = d
  · subst hi
    simpa only [Function.update_self] using hz
  · simpa only [Function.update_of_ne hi] using h i

/-- From `s` all parties end with the exception `err`. -/
def PartyFails {σ α : Type} (x : Role → Party σ α) (s : Role → σ) (err : Err) : Prop :=
  ∃ (s' : Role → σ) (v : Role → List (Role × List Byte)),
    Run (fun p => (x p).run (s p)) (fun p => (.error err, s' p)) v

theorem PartyFails.bind {σ α β : Type} {x : Role → Party σ α} {s : Role → σ} {err : Err}
    (h : PartyFails x s err) (f : Role → α → Party σ β) : PartyFails (fun p => x p >>= f p) s err := by
  obtain ⟨s', v, hrun⟩ := h
  have hend : Run (A := Byte) (fun p : Role => .ret ((Except.error err : Except Err β), s' p)) _ _ :=
    Run.ret fun p => (Except.error err, s' p)
  exact ⟨s', _, Run.bind (K := fun p => Party.andThen (f p)) hrun hend⟩

/-- All parties throw at once. -/
theorem partyFails_throw {σ α : Type} {x : Role → Party σ α} {s : Role → σ} {err : Err}
    (h : ∀ p, x p = Party.throw err) : PartyFails x s err := by
  refine ⟨s, fun _ => [], ?_⟩
  simp only [h, Party.throw_run]
  exact Run.ret fun p => ((Except.error err : Except Err α), s p)

/-! Registers that are assigned. -/

section
variable {r : Role → Regs ι} {c : Clear ι} (h : Shares r c) (d : ι)
include h

theorem Shares.setA {z : Role → AShare 64} {y : BitVec 64} (hz : ASharing z y) :
    Shares (fun p => (r p).setA d (z p)) (c.setA d y) :=
  { h with a := update_sharing h.a d hz }

theorem Shares.setX {z : Role → XShare 64} {y : BitVec 64} (hz : XSharing z y) :
    Shares (fun p => (r p).setX d (z p)) (c.setX d y) :=
  { h with x := update_sharing h.x d hz }

theorem Shares.setV {z : Role → AdditiveShareVector} {y : List (BitVec 64)} (hz : VSharing z y) :
    Shares (fun p => (r p).setV d (z p)) (c.setV d y) :=
  { h with v := update_sharing h.v d hz }

theorem Shares.setU {z : Role → XorShareVector 64} {y : List (BitVec 64)} (hz : USharing z y) :
    Shares (fun p => (r p).setU d (z p)) (c.setU d y) :=
  { h with u := update_sharing h.u d hz }

theorem Shares.setN {z : Role → BitVec 64} {y : BitVec 64} (hz : NSharing z y) :
    Shares (fun p => (r p).setN d (z p)) (c.setN d y) :=
  { h with n := update_sharing h.n d hz }

end

omit [DecidableEq ι] in
/-- A run whose results are assigned. -/
theorem run_assign {σ α : Type} {x : Role → Party σ α} {s s' : Role → σ} {z : Role → α}
    {v : Role → List (Role × List Byte)} (h : PartyRun x s z s' v) (f : Role → α → Regs ι) :
    PartyRun (fun p => x p >>= fun a => Pure.pure (f p a, (none : Option Output))) s
      (fun p => (f p (z p), tri none none none p)) s' v := by
  have hnone : ∀ p, tri (none : Option Output) none none p = none := by
    intro p
    cases p <;> rfl
  simp only [hnone]
  exact h.map fun p a => (f p a, none)

omit [DecidableEq ι] in
/-- A run of an opening, whose result is printed. -/
theorem run_print {σ α : Type} {x : Role → Party σ (Option α)} {s s' : Role → σ} {z : α}
    {v : Role → List (Role × List Byte)} (h : PartyRun x s (opened z z) s' v) (r : Role → Regs ι)
    (f : α → Output) :
    PartyRun (fun p => x p >>= fun a => pure (r p, a.map f)) s
      (fun p => (r p, tri (some (f z)) (some (f z)) none p)) s' v := by
  have hout : ∀ p, tri (some (f z)) (some (f z)) none p = (opened z z p).map f := by
    intro p
    cases p <;> rfl
  simp only [hout]
  exact h.map fun p a => (r p, a.map f)

omit [DecidableEq ι] in
/-- A local operator whose result is assigned. -/
theorem operator_step {V L : Type} {Sharing : (Role → V) → L → Prop} (x : Role → Except Err V)
    (y : Except Err L) (setc : L → Clear ι) (set : Role → V → Regs ι)
    (hset : ∀ z l, Sharing z l → Shares (fun p => set p (z p)) (setc l)) (h : Computes Sharing x y)
    (e : Role → Env) :
    (∀ c' out, (y >>= fun z => (pure (setc z, none) : Except Err (Clear ι × Option Output))) = .ok (c', out) →
      ∃ (regs' : Role → Regs ι) (e' : Role → Env) (v : Role → List (Role × List Byte)),
        PartyRun (fun p => Party.ofExcept (x p) >>= fun z => pure (set p z, none))
          (fun p => Host.online p (e p)) (fun p => (regs' p, tri out out none p))
          (fun p => Host.online p (e' p)) v ∧
        Shares regs' c') ∧
    ∀ err, (y >>= fun z => (pure (setc z, none) : Except Err (Clear ι × Option Output))) = .error err →
      PartyFails (fun p => Party.ofExcept (x p) >>= fun z => (pure (set p z, none) : Party Host (Regs ι × Option Output)))
        (fun p => Host.online p (e p)) err := by
  cases y with
  | ok l =>
    refine ⟨?_, fun err hc => (by cases hc)⟩
    rintro _ _ ⟨⟩
    obtain ⟨z, hz, hshare⟩ := h.1 l rfl
    refine ⟨_, e, fun _ => [], ?_, hset z l hshare⟩
    simp only [hz]
    exact run_assign (PartyRun.pure z _) set
  | error err =>
    refine ⟨fun c' out hc => (by cases hc), ?_⟩
    rintro _ ⟨⟩
    refine partyFails_throw fun p => ?_
    rw [h.2 err rfl p]
    rfl

/-- The dot product of shared vectors. -/
theorem dot_run (aes : Block → Block) {s t : Role → AdditiveShareVector} {a b : List (BitVec 64)}
    (hs : VSharing s a) (ht : VSharing t b) (hab : a.length = b.length) (e : Role → Env) :
    ∃ (z : Role → BitVec 64) (e' : Role → Env) (v : Role → List (Role × List Byte)),
      PartyRun (fun p => (s p).mul aes (t p)) (fun p => Host.online p (e p)) z
        (fun p => Host.online p (e' p)) v ∧ NSharing z (dot a b) := by
  have hfill := prgExpander_length aes a.length
  have hx : ∀ p, (s p).vals.length = a.length := hs.1.length
  have hy : ∀ p, (t p).vals.length = a.length := fun p => (ht.1.length p).trans hab.symm
  have hrun := mpcDotproduct_run hfill hs.1.small hx hy e
  refine ⟨_, _, _, PartyRun.congr ?_ hrun, ?_⟩
  · intro p
    simp only [AdditiveShareVector.mul, hs.2]
    rfl
  · have ha : dot a b = dotHom a.length (entries a.length a) (entries a.length b) :=
      dot_entries rfl hab.symm
    have hsum : entries a.length a = entries a.length (s .P0).vals + entries a.length (s .P1).vals := by
      rw [← entries_add (hx _) (hx _), hs.1.combine]
    have hsum' : entries a.length b = entries a.length (t .P0).vals + entries a.length (t .P1).vals := by
      rw [← entries_add (hy _) (hy _), ht.1.combine]
    rw [NSharing, dotResult_add _ hfill hx hy, ha, hsum, hsum']
    rfl

/-- The three parties' step of an instruction keeps the registers sharings of their values, prints
    the value of an opening at P0 and at P1, and throws at all parties if it throws in the clear. -/
theorem Instr.step (aes : Block → Block) (i : Instr ι) {regs : Role → Regs ι} {c : Clear ι}
    (h : Shares regs c) (hready : i.Ready c) (e : Role → Env) :
    (∀ c' out, i.clear c = .ok (c', out) →
      ∃ (regs' : Role → Regs ι) (e' : Role → Env) (v : Role → List (Role × List Byte)),
        PartyRun (fun p => i.exec aes p (regs p)) (fun p => Host.online p (e p))
          (fun p => (regs' p, tri out out none p)) (fun p => Host.online p (e' p)) v ∧
        Shares regs' c') ∧
    ∀ err, i.clear c = .error err →
      PartyFails (fun p => i.exec aes p (regs p)) (fun p => Host.online p (e p)) err := by
  have hlocal : ∀ {α : Type} (z : Role → α) (f : Role → α → Regs ι),
      PartyRun (fun p => pure (z p) >>= fun a => pure (f p a, (none : Option Output)))
        (fun p => Host.online p (e p)) (fun p => (f p (z p), tri none none none p))
        (fun p => Host.online p (e p)) fun _ => [] :=
    fun z f => run_assign (PartyRun.pure z _) f
  cases i with
  | arith i =>
    refine ⟨?_, fun err hc => (by cases hc)⟩
    rintro _ _ ⟨⟩
    obtain ⟨z, e', v, hrun, hz⟩ := arith_step i (fun p => (regs p).a) c.a e h.a
    exact ⟨_, e', v, run_assign hrun fun p => (regs p).setA i.dst, h.setA i.dst hz⟩
  | bool i =>
    refine ⟨?_, fun err hc => (by cases hc)⟩
    rintro _ _ ⟨⟩
    obtain ⟨z, e', v, hrun, hz⟩ := bool_step i (fun p => (regs p).x) c.x e h.x
    exact ⟨_, e', v, run_assign hrun fun p => (regs p).setX i.dst, h.setX i.dst hz⟩
  | eqz d a =>
    refine ⟨?_, fun err hc => (by cases hc)⟩
    rintro _ _ ⟨⟩
    obtain ⟨z, e', v, hrun, hz⟩ := eqz_sharing (h.a a).2 e
    rw [eqzValue, (h.a a).1] at hz
    exact ⟨_, e', v, run_assign hrun fun p => (regs p).setX d, h.setX d hz⟩
  | dot d a b =>
    refine ⟨?_, fun err hc => (by cases hc)⟩
    rintro _ _ ⟨⟩
    obtain ⟨z, e', v, hrun, hz⟩ := dot_run aes (h.v a) (h.v b) hready e
    exact ⟨_, e', v, run_assign hrun fun p => (regs p).setN d, h.setN d hz⟩
  | share d n =>
    refine ⟨?_, fun err hc => (by cases hc)⟩
    rintro _ _ ⟨⟩
    exact ⟨_, e, _, hlocal (fun p => (⟨(regs p).n n, true⟩ : AShare 64)) fun p => (regs p).setA d,
      h.setA d ⟨h.n n, fun _ => rfl⟩⟩
  | openA a =>
    refine ⟨?_, fun err hc => (by cases hc)⟩
    rintro _ _ ⟨⟩
    have hrun := AShare.opening_run (fun p => (regs p).a a) fun p => Host.online p (e p)
    rw [(h.a a).1] at hrun
    exact ⟨regs, e, _, run_print hrun regs .word, h⟩
  | openX x =>
    refine ⟨?_, fun err hc => (by cases hc)⟩
    rintro _ _ ⟨⟩
    have hrun := XShare.opening_run (fun p => (regs p).x x) fun p => Host.online p (e p)
    rw [(h.x x).1] at hrun
    exact ⟨regs, e, _, run_print hrun regs .word, h⟩
  | openN n =>
    refine ⟨?_, fun err hc => (by cases hc)⟩
    rintro _ _ ⟨⟩
    have hrun := AShare.opening_run (fun p => (⟨(regs p).n n, false⟩ : AShare 64)) fun p => Host.online p (e p)
    rw [show (regs .P0).n n + (regs .P1).n n = c.n n from h.n n] at hrun
    exact ⟨regs, e, _, run_print hrun regs .word, h⟩
  | openU u =>
    refine ⟨?_, fun err hc => (by cases hc)⟩
    rintro _ _ ⟨⟩
    have hrun := USharing.opening_run (h.u u) fun p => Host.online p (e p)
    exact ⟨regs, e, _, run_print hrun.choose_spec regs .vector, h⟩
  | vadd d a b =>
    have hop := VSharing.elementwise (f := (· + ·)) add_add_add_comm (h.v a) (h.v b)
    exact operator_step _ _ _ (fun p => (regs p).setV d) (fun _ _ hz => h.setV d hz) hop e
  | vsub d a b =>
    have hop := VSharing.elementwise (f := (· - ·)) sub_add_sub_comm (h.v a) (h.v b)
    exact operator_step _ _ _ (fun p => (regs p).setV d) (fun _ _ hz => h.setV d hz) hop e
  | uxor d a b =>
    exact operator_step _ _ _ (fun p => (regs p).setU d) (fun _ _ hz => h.setU d hz) ((h.u a).xor (h.u b)) e

/-! Runs. -/

end

end Mpc
