import Mathlib.Algebra.Ring.Hom.Defs
import Mpc.Gates
import Mpc.Lib.Masked
import Mpc.Lib.XorWord

/- Circuits over shares. A straight-line program assigns registers in order; the
   parties run it on their shares with the operators of shares.hpp and
   mpcops.hpp, the reference runs it on the values the shares hide. One step of
   the program in lockstep (`gate_run` for the interactive ones) keeps every
   register a sharing of the reference's register, so a whole run does
   (`lockstep`), and the network settles in that run. -/
namespace Mpc
open Fifo Diamond LE

/-! Straight-line programs. -/

section
variable {ι I : Type} [DecidableEq ι] (dst : I → ι)

/-- The values a program assigns, in order, each instruction evaluated by `f`. -/
def trace {V : Type} (f : I → (ι → V) → V) : List I → (ι → V) → List V
  | [], _ => []
  | i :: prog, regs => f i regs :: trace f prog (Function.update regs (dst i) (f i regs))

/-- The same for a party, whose instructions are coroutines. -/
def traceM {S : Type} (f : I → (ι → S) → Party Host S) : List I → (ι → S) → Party Host (List S)
  | [], _ => return []
  | i :: prog, regs => do
    let v ← f i regs
    let vs ← traceM f prog (Function.update regs (dst i) v)
    return v :: vs

theorem trace_length {V : Type} (f : I → (ι → V) → V) (prog : List I) (regs : ι → V) :
    (trace dst f prog regs).length = prog.length := by
  induction prog generalizing regs with
  | nil => rfl
  | cons i prog ih => rw [trace, List.length_cons, List.length_cons, ih]

variable {S V : Type} {Sharing : (Role → S) → V → Prop} {f : I → (ι → S) → Party Host S}
  {g : I → (ι → V) → V}

/-- If every instruction run by the parties together keeps the registers sharings of the
    reference's, then the values a program assigns are sharings of the reference's. -/
theorem lockstep
    (step : ∀ i (regs : Role → ι → S) (plain : ι → V) (e : Role → Env),
      (∀ x, Sharing (fun p => regs p x) (plain x)) →
      ∃ (v : Role → S) (e' : Role → Env) (w : Role → List (Role × List Byte)),
        PartyRun (fun p => f i (regs p)) (fun p => Host.online p (e p)) v
          (fun p => Host.online p (e' p)) w ∧ Sharing v (g i plain))
    (prog : List I) (regs : Role → ι → S) (plain : ι → V) (e : Role → Env)
    (h : ∀ x, Sharing (fun p => regs p x) (plain x)) :
    ∃ (vs : List (Role → S)) (e' : Role → Env) (w : Role → List (Role × List Byte)),
      PartyRun (fun p => traceM dst f prog (regs p)) (fun p => Host.online p (e p))
        (fun p => vs.map (· p)) (fun p => Host.online p (e' p)) w ∧
      List.Forall₂ Sharing vs (trace dst g prog plain) := by
  induction prog generalizing regs plain e with
  | nil => exact ⟨[], e, _, PartyRun.pure _ _, .nil⟩
  | cons i prog ih =>
    obtain ⟨v, e₁, w₁, hrun, hv⟩ := step i regs plain e h
    -- the shared registers stay sharings of the plain ones
    have hnext : ∀ x, Sharing (fun p => Function.update (regs p) (dst i) (v p) x)
        (Function.update plain (dst i) (g i plain) x) := by
      intro x
      by_cases hx : x = dst i
      · subst hx
        simpa using hv
      · simpa [hx] using h x
    obtain ⟨vs, e₂, w₂, hrest, hvs⟩ := ih _ _ e₁ hnext
    refine ⟨v :: vs, e₂, fun p => w₁ p ++ w₂ p, ?_, .cons hv hvs⟩
    exact hrun.bind (hrest.map fun p rest => v p :: rest)

/-- Shares of a list of values reconstruct to it when each share does. -/
theorem reconstruct_eq (rec : S → S → V) (hrec : ∀ s v, Sharing s v → rec (s .P0) (s .P1) = v)
    {vs : List (Role → S)} {ts : List V} (h : List.Forall₂ Sharing vs ts) :
    List.zipWith rec (vs.map (· .P0)) (vs.map (· .P1)) = ts := by
  induction h with
  | nil => rfl
  | cons hv _ ih => rw [List.map_cons, List.map_cons, List.zipWith_cons_cons, hrec _ _ hv, ih]

end

/-- A local instruction of the three parties. -/
theorem local_run {S : Type} (v : Role → S) (e : Role → Env) :
    PartyRun (fun p => pure (v p)) (fun p => Host.online p (e p)) v
      (fun p => Host.online p (e p)) (fun _ => []) :=
  PartyRun.pure v _

/-! Additive shares. -/

/-- An instruction on registers `ι`; `addAssign d a` is `d += a`. -/
inductive ArithInstr (ι : Type) where
  | add (d a b : ι)
  | sub (d a b : ι)
  | addAssign (d a : ι)
  | mul (d a b : ι)

namespace ArithInstr
variable {ι : Type}

def dst : ArithInstr ι → ι
  | .add d _ _ => d
  | .sub d _ _ => d
  | .addAssign d _ => d
  | .mul d _ _ => d

/-- The instruction on a party's shares. -/
def eval : ArithInstr ι → (ι → AShare 64) → Party Host (AShare 64)
  | .add _ a b, regs => return (regs a).add (regs b)
  | .sub _ a b, regs => return (regs a).sub (regs b)
  | .addAssign d a, regs => return (regs d).addAssign (regs a)
  | .mul _ a b, regs => (regs a).mul (regs b)

/-- The instruction on the values. -/
def plain : ArithInstr ι → (ι → BitVec 64) → BitVec 64
  | .add _ a b, regs => regs a + regs b
  | .sub _ a b, regs => regs a - regs b
  | .addAssign d a, regs => regs d + regs a
  | .mul _ a b, regs => regs a * regs b

end ArithInstr

/-- P0's and P1's shares add up to the value, and every party has its context set. -/
def ASharing (s : Role → AShare 64) (v : BitVec 64) : Prop :=
  (s .P0).val + (s .P1).val = v ∧ ∀ p, (s p).ctx = true

theorem mulResult_add {w : Nat} {x y : Role → AShare w} (e : Env) :
    mulResult x y e .P0 + mulResult x y e .P1 =
      ((x .P0).val + (x .P1).val) * ((y .P0).val + (y .P1).val) := by
  have h := Masked.share_add_share (AddMonoidHom.mul (R := BitVec w)) (x .P0).val (x .P1).val
    (e.draw w 0) (e.draw w 1) (y .P0).val (y .P1).val (e.draw w 2) (e.draw w 3)
  simp only [Masked.share, AddMonoidHom.mul_apply] at h
  rw [← h]
  simp only [mulResult, gateResult, mulShare, mulMask, mulDeal, tri_P0, tri_P1]
  ring

theorem arith_step {ι : Type} (i : ArithInstr ι) (regs : Role → ι → AShare 64)
    (plain : ι → BitVec 64) (e : Role → Env) (h : ∀ x, ASharing (fun p => regs p x) (plain x)) :
    ∃ (v : Role → AShare 64) (e' : Role → Env) (w : Role → List (Role × List Byte)),
      PartyRun (fun p => i.eval (regs p)) (fun p => Host.online p (e p)) v
        (fun p => Host.online p (e' p)) w ∧ ASharing v (i.plain plain) := by
  cases i with
  | add d a b =>
    refine ⟨_, e, _, local_run (fun p => (regs p a).add (regs p b)) e, ?_, fun p => (h a).2 p⟩
    simp only [AShare.add, ArithInstr.plain, ← (h a).1, ← (h b).1]
    ring
  | sub d a b =>
    refine ⟨_, e, _, local_run (fun p => (regs p a).sub (regs p b)) e, ?_, fun p => (h a).2 p⟩
    simp only [AShare.sub, ArithInstr.plain, ← (h a).1, ← (h b).1]
    ring
  | addAssign d a =>
    refine ⟨_, e, _, local_run (fun p => (regs p d).addAssign (regs p a)) e, ?_,
      fun p => (h d).2 p⟩
    simp only [AShare.addAssign, ArithInstr.plain, ← (h d).1, ← (h a).1]
    ring
  | mul d a b =>
    refine ⟨_, _, _, AShare.mul_run (fun p => (h a).2 p) (fun p => (h b).2 p) e, ?_, fun _ => rfl⟩
    simp only [ArithInstr.plain, ← (h a).1, ← (h b).1]
    exact mulResult_add (e .P2)

/-- Arithmetic circuits. Whatever the schedule, P0's and P1's shares of every value a
    program assigns add up to the value the program assigns on the reconstructed inputs. -/
theorem arithmetic_circuit {ι : Type} [DecidableEq ι] (prog : List (ArithInstr ι))
    (input : Role → ι → BitVec 64) (e : Role → Env) :
    ∃ (values : Role → List (AShare 64)) (hosts : Role → Host)
      (views : Role → List (Role × List Byte)),
      Settles Step
        (start fun p => (traceM ArithInstr.dst ArithInstr.eval prog
          fun x => ⟨input p x, true⟩).run (Host.online p (e p)))
        (finished (fun p => (.ok (values p), hosts p)) views) ∧
      List.zipWith (fun a b => a.val + b.val) (values .P0) (values .P1) =
        trace ArithInstr.dst ArithInstr.plain prog (fun x => input .P0 x + input .P1 x) ∧
      ∀ p, (values p).length = prog.length := by
  obtain ⟨vs, e', w, hrun, hvs⟩ := lockstep ArithInstr.dst arith_step prog
    (fun p x => ⟨input p x, true⟩) (fun x => input .P0 x + input .P1 x) e (fun _ => ⟨rfl, fun _ => rfl⟩)
  refine ⟨_, _, w, hrun.settles, ?_, ?_⟩
  · exact reconstruct_eq (fun a b => a.val + b.val) (fun s v hs => hs.1) hvs
  · intro p
    rw [List.length_map, hvs.length_eq, trace_length]

/-! XOR shares. -/

/-- An instruction on registers `ι`. -/
inductive BoolInstr (ι : Type) where
  | xor (d a b : ι)
  | add (d a b : ι)
  | sub (d a b : ι)
  | and (d a b : ι)
  | or (d a b : ι)

namespace BoolInstr
variable {ι : Type} {w : Nat}

def dst : BoolInstr ι → ι
  | .xor d _ _ => d
  | .add d _ _ => d
  | .sub d _ _ => d
  | .and d _ _ => d
  | .or d _ _ => d

/-- The instruction on a party's shares. -/
def eval : BoolInstr ι → (ι → XShare w) → Party Host (XShare w)
  | .xor _ a b, regs => return (regs a).xor (regs b)
  | .add _ a b, regs => return (regs a).add (regs b)
  | .sub _ a b, regs => return (regs a).sub (regs b)
  | .and _ a b, regs => (regs a).and (regs b)
  | .or _ a b, regs => (regs a).or (regs b)

/-- The instruction on the values, bit by bit: sums and differences of bits are XORs. -/
def plain : BoolInstr ι → (ι → BitVec w) → BitVec w
  | .xor _ a b, regs => regs a ^^^ regs b
  | .add _ a b, regs => regs a ^^^ regs b
  | .sub _ a b, regs => regs a ^^^ regs b
  | .and _ a b, regs => regs a &&& regs b
  | .or _ a b, regs => regs a ||| regs b

end BoolInstr

section
variable {w : Nat}

/-- P0's and P1's shares XOR to the value, and every party has its context set. -/
def XSharing (s : Role → XShare w) (v : BitVec w) : Prop :=
  (s .P0).val ^^^ (s .P1).val = v ∧ ∀ p, (s p).ctx = true

theorem andResult_xor {x y : Role → XShare w} (e : Env) :
    andResult x y e .P0 ^^^ andResult x y e .P1 =
      ((x .P0).val ^^^ (x .P1).val) &&& ((y .P0).val ^^^ (y .P1).val) := by
  have h := congrArg XorWord.bits (Masked.share_add_share (XorWord.andHom w)
    (.of (x .P0).val) (.of (x .P1).val) (.of (e.draw w 0)) (.of (e.draw w 2))
    (.of (y .P0).val) (.of (y .P1).val) (.of (e.draw w 1)) (.of (e.draw w 3)))
  simp only [Masked.share, XorWord.andHom_apply, XorWord.bits_add, XorWord.bits_sub,
    XorWord.bits_of] at h
  simp only [andResult, gateResult, andShare, andMask, andDeal, tri_P0, tri_P1]
  rw [BitVec.and_comm (e.draw w 1), BitVec.and_comm (e.draw w 3)]
  exact h

theorem or_eq_xor (a b : BitVec w) : a ||| b = a ^^^ b ^^^ (a &&& b) := by
  ext i hi
  simp only [BitVec.getElem_or, BitVec.getElem_xor, BitVec.getElem_and]
  cases a[i] <;> cases b[i] <;> rfl

theorem orResult_xor {x y : Role → XShare w} (e : Env) :
    orResult x y e .P0 ^^^ orResult x y e .P1 =
      ((x .P0).val ^^^ (x .P1).val) ||| ((y .P0).val ^^^ (y .P1).val) := by
  rw [or_eq_xor, ← andResult_xor e, orResult, orResult]
  ac_rfl

variable {ι : Type}

theorem bool_step (i : BoolInstr ι) (regs : Role → ι → XShare w)
    (plain : ι → BitVec w) (e : Role → Env) (h : ∀ x, XSharing (fun p => regs p x) (plain x)) :
    ∃ (v : Role → XShare w) (e' : Role → Env) (views : Role → List (Role × List Byte)),
      PartyRun (fun p => i.eval (regs p)) (fun p => Host.online p (e p)) v
        (fun p => Host.online p (e' p)) views ∧ XSharing v (i.plain plain) := by
  -- on XOR shares +, - and ^ are one operation
  have hxor : ∀ a b, ((regs .P0 a).xor (regs .P0 b)).val ^^^ ((regs .P1 a).xor (regs .P1 b)).val =
      plain a ^^^ plain b := by
    intro a b
    rw [← (h a).1, ← (h b).1]
    exact xor_xor_xor_comm _ _ _ _
  cases i with
  | xor d a b =>
    exact ⟨_, e, _, local_run (fun p => (regs p a).xor (regs p b)) e, hxor a b, fun p => (h a).2 p⟩
  | add d a b =>
    exact ⟨_, e, _, local_run (fun p => (regs p a).add (regs p b)) e, hxor a b, fun p => (h a).2 p⟩
  | sub d a b =>
    exact ⟨_, e, _, local_run (fun p => (regs p a).sub (regs p b)) e, hxor a b, fun p => (h a).2 p⟩
  | and d a b =>
    refine ⟨_, _, _, XShare.and_run (fun p => (h a).2 p) (fun p => (h b).2 p) e, ?_, fun _ => rfl⟩
    simp only [BoolInstr.plain, ← (h a).1, ← (h b).1]
    exact andResult_xor (e .P2)
  | or d a b =>
    refine ⟨_, _, _, XShare.or_run (fun p => (h a).2 p) (fun p => (h b).2 p) e, ?_, fun _ => rfl⟩
    simp only [BoolInstr.plain, ← (h a).1, ← (h b).1]
    exact orResult_xor (e .P2)

/-- Boolean circuits. Whatever the schedule, P0's and P1's shares of every value a
    program assigns XOR to the value the program assigns on the reconstructed inputs. -/
theorem boolean_circuit [DecidableEq ι] (prog : List (BoolInstr ι))
    (input : Role → ι → BitVec w) (e : Role → Env) :
    ∃ (values : Role → List (XShare w)) (hosts : Role → Host)
      (views : Role → List (Role × List Byte)),
      Settles Step
        (start fun p => (traceM BoolInstr.dst BoolInstr.eval prog
          fun x => ⟨input p x, true⟩).run (Host.online p (e p)))
        (finished (fun p => (.ok (values p), hosts p)) views) ∧
      List.zipWith (fun a b => a.val ^^^ b.val) (values .P0) (values .P1) =
        trace BoolInstr.dst BoolInstr.plain prog (fun x => input .P0 x ^^^ input .P1 x) ∧
      ∀ p, (values p).length = prog.length := by
  obtain ⟨vs, e', views, hrun, hvs⟩ := lockstep BoolInstr.dst bool_step prog
    (fun p x => ⟨input p x, true⟩) (fun x => input .P0 x ^^^ input .P1 x) e
    (fun _ => ⟨rfl, fun _ => rfl⟩)
  refine ⟨_, _, views, hrun.settles, ?_, ?_⟩
  · exact reconstruct_eq (fun a b => a.val ^^^ b.val) (fun s v hs => hs.1) hvs
  · intro p
    rw [List.length_map, hvs.length_eq, trace_length]

end

end Mpc
