import Mpc.Lib.Fifo

/- What one process can do, whatever the others send. `Proc.Ends p v a` says that `p`
   returns `a` when the messages it receives are `v`. A process of a network ends on
   what the network has shown it (`Ends.of_steps`), so what holds of all ends of a
   process holds in every network and for every schedule. -/
namespace Fifo
open Diamond

section
variable {P A β γ : Type}

/-- The process returns `a` when it receives the messages `v`. -/
inductive Proc.Ends : Proc P A β → List (P × List A) → β → Prop
  | ret (a : β) : Ends (.ret a) [] a
  | send {q : P} {m : List A} {k : Proc P A β} {v : List (P × List A)} {a : β} :
    Ends k v a → Ends (.send q m k) v a
  | recv {q : P} {n : Nat} {k : List A → Proc P A β} {l : List A} {v : List (P × List A)} {a : β} :
    l.length = n → Ends (k l) v a → Ends (.recv q n k) ((q, l) :: v) a

namespace Proc
variable {p : Proc P A β} {v : List (P × List A)} {a : β}

theorem ends_ret {b : β} : Ends (.ret b : Proc P A β) v a ↔ v = [] ∧ a = b := by
  constructor
  · intro h
    cases h with
    | ret => exact ⟨rfl, rfl⟩
  · rintro ⟨rfl, rfl⟩
    exact .ret _

theorem ends_send {q : P} {m : List A} : Ends (.send q m p) v a ↔ Ends p v a := by
  constructor
  · intro h
    cases h with
    | send h => exact h
  · exact .send

theorem ends_sends {ms : List (P × List A)} : Ends (.sends ms p) v a ↔ Ends p v a := by
  induction ms with
  | nil => rfl
  | cons m ms ih => rw [Proc.sends_cons, ends_send, ih]

theorem ends_recv {q : P} {n : Nat} {k : List A → Proc P A β} :
    Ends (.recv q n k) v a ↔ ∃ l v', v = (q, l) :: v' ∧ l.length = n ∧ Ends (k l) v' a := by
  constructor
  · intro h
    cases h with
    | recv hl h => exact ⟨_, _, rfl, hl, h⟩
  · rintro ⟨l, v', rfl, hl, h⟩
    exact .recv hl h

/-- A composition ends where its second part does from an end of the first. -/
theorem ends_bind {f : β → Proc P A γ} {c : γ} :
    Ends (p.bind f) v c ↔ ∃ b v₁ v₂, v = v₁ ++ v₂ ∧ Ends p v₁ b ∧ Ends (f b) v₂ c := by
  constructor
  · intro h
    induction p generalizing v with
    | ret b => exact ⟨b, [], v, rfl, .ret b, h⟩
    | send q m k ih =>
      obtain ⟨b, v₁, v₂, hv, h₁, h₂⟩ := ih (ends_send.mp h)
      exact ⟨b, v₁, v₂, hv, .send h₁, h₂⟩
    | recv q n k ih =>
      obtain ⟨l, v', rfl, hl, h'⟩ := ends_recv.mp h
      obtain ⟨b, v₁, v₂, rfl, h₁, h₂⟩ := ih l h'
      exact ⟨b, (q, l) :: v₁, v₂, rfl, .recv hl h₁, h₂⟩
  · rintro ⟨b, v₁, v₂, rfl, h₁, h₂⟩
    induction h₁ with
    | ret => exact h₂
    | send _ ih => exact .send (ih h₂)
    | recv hl _ ih => exact .recv hl (ih h₂)

/-- What a process receives fixes where it ends. -/
theorem Ends.unique {b : β} (h : Ends p v a) (h' : Ends p v b) : a = b := by
  induction h with
  | ret => exact (ends_ret.mp h').2.symm
  | send _ ih => exact ih (ends_send.mp h')
  | recv hl _ ih =>
    obtain ⟨l, v', hv, -, h'⟩ := ends_recv.mp h'
    obtain ⟨hm, rfl⟩ := List.cons.inj hv
    rw [(Prod.mk.inj hm).2] at ih
    exact ih h'

end Proc

end

variable {P A β : Type} [DecidableEq P]

/-- Along a run what a party has received, and then receives, takes its process to its ends. -/
theorem Proc.Ends.before {n : Nat} {N N' : Net P A β} (h : Steps Step n N N') {p : P}
    {v : List (P × List A)} {a : β} (hend : (N'.proc p).Ends v a) :
    ∃ w, N'.view p = N.view p ++ w ∧ (N.proc p).Ends (w ++ v) a := by
  induction h with
  | refl => exact ⟨[], (List.append_nil _).symm, hend⟩
  | head hstep _ ih =>
    obtain ⟨w, hview, hend⟩ := ih hend
    obtain ⟨p', hfire⟩ := hstep
    rcases fire_cases hfire with ⟨q, m, k, e, rfl⟩ | ⟨q, n, k, e, hn, rfl⟩
    · refine ⟨w, hview, ?_⟩
      by_cases hp : p = p'
      · subst hp
        simp only [Net.sent, Function.update_self] at hend
        rw [e]
        exact .send hend
      · simpa only [Net.sent, Function.update_of_ne hp] using hend
    · by_cases hp : p = p'
      · subst hp
        simp only [Net.received, Function.update_self] at hend hview
        rw [e]
        exact ⟨_, by rw [hview, List.append_assoc], .recv (List.length_take_of_le hn) hend⟩
      · simp only [Net.received, Function.update_of_ne hp] at hend hview
        exact ⟨w, hview, hend⟩

/-- A party that returned in a run ended on what the run has shown it. -/
theorem Proc.Ends.of_steps {n : Nat} {a : P → Proc P A β} {N : Net P A β}
    (h : Steps Step n (start a) N) {p : P} {r : β} (hr : N.proc p = .ret r) :
    (a p).Ends (N.view p) r := by
  obtain ⟨w, hview, hend⟩ := Proc.Ends.before h (hr ▸ Proc.Ends.ret r)
  rw [List.append_nil] at hend
  rw [hview]
  exact hend

end Fifo
