import Mpc.Network
import Mpc.Lib.Outcome

/- Where a party's coroutine can end, whatever the other parties send it. `x.Always s Q`
   says that every end of `x` on the memory `s` satisfies `Q`, a predicate of the result
   (a value or an exception) and the memory; the rules follow the monad. -/
namespace Mpc
open Fifo

namespace Party
variable {σ α β : Type} {x : Party σ α} {f : α → Party σ β} {s s' : σ}
  {v : List (Role × List LE.Byte)} {r : Except Err α}

/-- On the memory `s` the coroutine receives `v` and ends in `r` and `s'`. -/
def Ends (x : Party σ α) (s : σ) (v : List (Role × List LE.Byte)) (r : Except Err α) (s' : σ) : Prop :=
  (x.run s).Ends v (r, s')

/-- All ends of the coroutine on the memory `s`. -/
def Always (x : Party σ α) (s : σ) (Q : Except Err α → σ → Prop) : Prop :=
  ∀ v r s', x.Ends s v r s' → Q r s'

/-- What holds where a step ended, given `Q` for what follows its value. -/
def Then (f : α → Party σ β) (Q : Except Err β → σ → Prop) : Except Err α → σ → Prop
  | .ok a, s => (f a).Always s Q
  | .error e, s => Q (.error e) s

theorem always_bind {Q : Except Err β → σ → Prop} (h : x.Always s (Then f Q)) :
    (x >>= f).Always s Q := by
  intro v r s' hend
  obtain ⟨⟨r₁, s₁⟩, v₁, v₂, rfl, h₁, h₂⟩ := Proc.ends_bind.mp hend
  have hthen := h v₁ r₁ s₁ h₁
  cases r₁ with
  | ok a => exact hthen v₂ r s' h₂
  | error e =>
    obtain ⟨-, hr⟩ := Proc.ends_ret.mp h₂
    obtain ⟨rfl, rfl⟩ := Prod.mk.inj hr
    exact hthen

theorem Always.mono {Q Q' : Except Err α → σ → Prop} (h : x.Always s Q)
    (hQ : ∀ r s', Q r s' → Q' r s') : x.Always s Q' :=
  fun v r s' hend => hQ r s' (h v r s' hend)

theorem always_congr {y : Party σ α} (h : x.run s = y.run s') {Q : Except Err α → σ → Prop} :
    x.Always s Q ↔ y.Always s' Q := by
  simp only [Always, Ends, h]

/-- A coroutine that ends at once. -/
theorem always_of_run {Q : Except Err α → σ → Prop} (h : x.run s = .ret (r, s')) :
    x.Always s Q ↔ Q r s' := by
  constructor
  · intro hall
    exact hall [] r s' (by rw [Ends, h]; exact .ret _)
  · intro hQ v r' s'' hend
    rw [Ends, h] at hend
    obtain ⟨-, hr⟩ := Proc.ends_ret.mp hend
    obtain ⟨rfl, rfl⟩ := Prod.mk.inj hr
    exact hQ

theorem always_orUndefined {o : Option α} {Q : Except Err α → σ → Prop}
    (hsome : ∀ a, o = some a → Q (.ok a) s) (hnone : o = none → Q (.error .undefined) s) :
    (Party.orUndefined o).Always s Q := by
  cases o with
  | some a => exact (always_of_run rfl).mpr (hsome a rfl)
  | none => exact (always_of_run rfl).mpr (hnone rfl)

/-- A received vector leaves the memory alone, whatever it holds. -/
theorem recvVector_always {peer : NetPeer} {w : Nat} {Q : Except Err (List (BitVec w)) → σ → Prop}
    (h : ∀ vec, Q (.ok vec) s) : (NetPeer.recvVector peer w).Always s Q := by
  intro v r s' hend
  rw [Ends, NetPeer.recvVector_run, NetPeer.recvVec, Proc.ends_recv] at hend
  obtain ⟨l, v', -, -, hend⟩ := hend
  split at hend
  · obtain ⟨l', v'', -, -, hend⟩ := Proc.ends_recv.mp hend
    obtain ⟨rfl, rfl⟩ := Prod.mk.inj (Proc.ends_ret.mp hend).2
    exact h _
  · obtain ⟨rfl, rfl⟩ := Prod.mk.inj (Proc.ends_ret.mp hend).2
    exact h _

/-! What a coroutine never changes. -/

/-- Wherever the coroutine ends, `g` of the memory is what it was. -/
def Keeps {γ : Type} (g : σ → γ) (x : Party σ α) : Prop := ∀ s, x.Always s fun _ s' => g s' = g s

section
variable {γ : Type} {g : σ → γ}

theorem Keeps.bind (hx : Keeps g x) (hf : ∀ a, Keeps g (f a)) : Keeps g (x >>= f) := by
  intro s
  refine always_bind ((hx s).mono fun r s₁ h => ?_)
  cases r with
  | ok a => exact (hf a s₁).mono fun _ _ h' => h'.trans h
  | error e => exact h

/-- A step that ends at once. -/
theorem Keeps.of_run (h : ∀ s, ∃ r s', x.run s = .ret (r, s') ∧ g s' = g s) : Keeps g x := by
  intro s
  obtain ⟨r, s', hrun, hg⟩ := h s
  exact (always_of_run hrun).mpr hg

theorem Keeps.pure (a : α) : Keeps g (pure a : Party σ α) := .of_run fun s => ⟨_, s, rfl, rfl⟩

theorem Keeps.orUndefined (o : Option α) : Keeps g (Party.orUndefined o) :=
  fun _ => always_orUndefined (fun _ _ => rfl) fun _ => rfl

theorem Keeps.ofExcept (e : Except Err α) : Keeps g (Party.ofExcept e) := by
  cases e with
  | ok a => exact .pure a
  | error e => exact .of_run fun s => ⟨_, s, rfl, rfl⟩

theorem Keeps.recvVector (peer : NetPeer) (w : Nat) : Keeps g (NetPeer.recvVector peer w) :=
  fun _ => recvVector_always fun _ => rfl

end

end Party

/-- A received vector is a length and that many elements. -/
theorem NetPeer.ends_recvVec {β : Type} {w : Nat} {peer : NetPeer} {k : List (BitVec w) → Wire β}
    {vec : List (BitVec w)} (hlen : vec.length < 2^64) {v : List (Role × List LE.Byte)} {a : β}
    (h : (k vec).Ends v a) :
    (NetPeer.recvVec peer w k).Ends ((NetPeer.vecFrames vec).map (peer, ·) ++ v) a := by
  have hdec : (LE.dec 64 (LE.enc (BitVec.ofNat 64 vec.length))).toNat = vec.length := by
    rw [LE.dec_enc]
    exact Nat.mod_eq_of_lt hlen
  rw [NetPeer.recvVec, NetPeer.vecFrames]
  by_cases hpos : 0 < vec.length
  · have hvec : NetPeer.vecOf w vec.length (NetPeer.vecBytes vec) = vec := by
      simpa using NetPeer.vecOf_vecBytes vec []
    rw [if_pos hpos]
    refine .recv (LE.enc_length _) ?_
    rw [hdec, if_pos hpos]
    exact .recv (NetPeer.vecBytes_length vec) (by rw [hvec]; exact h)
  · obtain rfl : vec = [] := List.eq_nil_of_length_eq_zero (by omega)
    rw [if_neg hpos]
    refine .recv (LE.enc_length _) ?_
    rw [hdec, if_neg hpos]
    exact h

end Mpc
