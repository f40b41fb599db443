import Mpc.Lib.Dial
import Mpc.Shares

/- How the three processes come up (network.hpp, main.cpp, mpcops_test.cpp,
   locoram_test.cpp). P2 waits for P0 on port 9000 and for P1 on port 9001, P0 waits
   for P1 on port 9100; who connects tries again until it is accepted. In whatever
   order the processes are started and run, nobody is left waiting, and the contexts
   that they make of their sockets are the ones the protocols run on
   (`startup_contexts`). -/
namespace Mpc
open Dial Diamond

/-- `make_server`, `accept_on`: the acceptor goes out of scope with the function. -/
def makeServer (port : Nat) : List (Op Nat) := [.listen port, .accept port true]

/-- `connect_with_retry` throws at the attempt `max_tries`, if that is positive. -/
def givesUp (maxTries : Int) (attempt : Nat) : Bool := 0 < maxTries ∧ maxTries ≤ attempt

/-- run_p0, run_p1 and run_p2 in main.cpp, where P2's acceptors stay open. -/
def mainScript : Role → List (Op Nat)
  | .P0 => .connect 9000 :: makeServer 9100
  | .P1 => [.connect 9001, .connect 9100]
  | .P2 => [.listen 9000, .listen 9001, .accept 9000 false, .accept 9001 false]

/-- run_p0, run_p1 and run_p2 in the tests. -/
def testScript : Role → List (Op Nat)
  | .P0 => .connect 9000 :: makeServer 9100
  | .P1 => [.connect 9001, .connect 9100]
  | .P2 => makeServer 9000 ++ makeServer 9001

/-- The context that a process makes of its sockets. -/
def makeContext (mulCtr andCtr : BitVec 64) : Role → List NetPeer → Option MPCContext
  | .P0, [self, peer] => some (.make .P0 self (some peer) none mulCtr andCtr)
  | .P1, [self, peer] => some (.make .P1 self (some peer) none mulCtr andCtr)
  | .P2, [p0, p1] => some (.make .P2 p0 (some p0) (some p1) mulCtr andCtr)
  | _, _ => none

section
variable {script : Role → List (Op Nat)}

theorem startup_once (h : script = mainScript ∨ script = testScript) : Once (start script) := by
  refine once_start ?_ ?_ ?_
  · intro p p' a hp hp'
    obtain rfl | rfl := h <;> cases p <;> cases p' <;>
      simp [mainScript, testScript, makeServer] at hp hp' ⊢ <;> omega
  · intro p p' a hp hp'
    obtain rfl | rfl := h <;> cases p <;> cases p' <;>
      simp [mainScript, testScript, makeServer] at hp hp' ⊢ <;> omega
  · intro p a
    obtain rfl | rfl := h <;> cases p <;>
      simp [mainScript, testScript, makeServer, List.count_cons] <;> grind

/-- One run. -/
theorem startup_run (h : script = mainScript ∨ script = testScript) :
    ∃ F : Hosts Role Nat, Steps Step 9 (start script) F ∧ (∀ p, F.script p = []) ∧
      F.socks .P0 = [.P2, .P1] ∧ F.socks .P1 = [.P2, .P0] ∧ F.socks .P2 = [.P0, .P1] := by
  obtain rfl | rfl := h
  · refine ⟨_, .head ⟨.P2, rfl⟩ (.head ⟨.P2, rfl⟩ (.head ⟨.P0, rfl⟩ (.head ⟨.P1, rfl⟩ (.head ⟨.P2, rfl⟩
      (.head ⟨.P2, rfl⟩ (.head ⟨.P0, rfl⟩ (.head ⟨.P1, rfl⟩ (.head ⟨.P0, rfl⟩ (.refl _))))))))), ?_, rfl, rfl, rfl⟩
    intro p
    cases p <;> rfl
  · refine ⟨_, .head ⟨.P2, rfl⟩ (.head ⟨.P0, rfl⟩ (.head ⟨.P2, rfl⟩ (.head ⟨.P2, rfl⟩ (.head ⟨.P1, rfl⟩
      (.head ⟨.P2, rfl⟩ (.head ⟨.P0, rfl⟩ (.head ⟨.P1, rfl⟩ (.head ⟨.P0, rfl⟩ (.refl _))))))))), ?_, rfl, rfl, rfl⟩
    intro p
    cases p <;> rfl

/-- The processes come up. Wherever any order of their steps and any number of refused connections has
    brought them, nine or fewer steps bring them all up, the sockets that they have are the first of
    those they come up with, nothing happens any more only when all are up, and then the context of each
    is the one that the protocols run on. -/
theorem startup_contexts (hscript : script = mainScript ∨ script = testScript) {n : Nat} {t t' : Role → Nat}
    {N : Hosts Role Nat} (h : Steps (Try (givesUp (-1))) n (start script, t) (N, t')) :
    ∃ F : Hosts Role Nat, (∃ m, m ≤ 9 ∧ Steps Step m N F) ∧ (∀ p, F.script p = []) ∧
      (∀ p, N.socks p <+: F.socks p) ∧ (Stuck (Try (givesUp (-1))) (N, t') ↔ N = F) ∧
      ∀ p e, makeContext e.mulCtr e.andCtr p (F.socks p) = some (Host.online p e).ctx := by
  obtain ⟨F, hrun, hF, h0, h1, h2⟩ := startup_run hscript
  obtain ⟨hrest, hsocks, hend⟩ := tries_come_up (startup_once hscript) hrun hF h
  refine ⟨F, hrest, hF, hsocks, hend, fun p e => ?_⟩
  cases p with
  | P0 => rw [h0]; rfl
  | P1 => rw [h1]; rfl
  | P2 => rw [h2]; rfl

end

/-- P0 is refused twice, P2 listens, P0 is through. -/
theorem startup_contexts_refused : ∃ F N : Hosts Role Nat, N.socks .P0 = [.P2] ∧
    (∃ m, m ≤ 9 ∧ Steps Step m N F) ∧ makeContext 0 0 .P0 (F.socks .P0) = some (Host.online .P0 Env.zeros).ctx := by
  have h : ∃ N t', Steps (Try (givesUp (-1))) 4 (start mainScript, fun _ => 0) (N, t') ∧ N.socks .P0 = [.P2] :=
    ⟨_, _, .head (.refused (p := .P0) rfl rfl rfl) (.head (.refused (p := .P0) rfl rfl rfl)
      (.head (.act (p := .P2) rfl) (.head (.act (p := .P0) rfl) (.refl _)))), rfl⟩
  obtain ⟨N, t', hsteps, hN⟩ := h
  obtain ⟨F, hrest, -, -, -, hctx⟩ := startup_contexts (.inl rfl) hsteps
  exact ⟨F, N, hN, hrest, hctx .P0 Env.zeros⟩

end Mpc
