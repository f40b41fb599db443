import Mpc.Lib.Fifo

/- How much one process sends another. `Proc.Moves q Q x n m` says that on its way to any
   end the process sends `q` exactly `n` symbols and takes `m` from it, and that what it
   returns satisfies `Q`. What is on a stream and what is still to come on either side of it
   balance along a run (`step_balanced`), so processes that move different amounts can not
   come to an end with empty streams (`Run.balanced`). -/
namespace Fifo
open Diamond

section
variable {P A β γ : Type} {q : P} {Q : β → Prop} {Q' : γ → Prop} {n m n' m' : Nat}

inductive Proc.Moves (q : P) (Q : β → Prop) : Proc P A β → Nat → Nat → Prop
  | ret {b : β} : Q b → Moves q Q (.ret b) 0 0
  | send {l : List A} {k : Proc P A β} {n m : Nat} :
    Moves q Q k n m → Moves q Q (.send q l k) (l.length + n) m
  | sendOther {r : P} {l : List A} {k : Proc P A β} {n m : Nat} :
    r ≠ q → Moves q Q k n m → Moves q Q (.send r l k) n m
  | recv {c : Nat} {k : List A → Proc P A β} {n m : Nat} :
    (∀ l, l.length = c → Moves q Q (k l) n m) → Moves q Q (.recv q c k) n (c + m)
  | recvOther {r : P} {c : Nat} {k : List A → Proc P A β} {n m : Nat} :
    r ≠ q → (∀ l, l.length = c → Moves q Q (k l) n m) → Moves q Q (.recv r c k) n m

namespace Proc.Moves
variable {x : Proc P A β} {f : β → Proc P A γ}

/-- A message of known length. -/
theorem send_of {l : List A} {c : Nat} (hl : l.length = c) (h : Moves q Q x n m) :
    Moves q Q (.send q l x) (c + n) m := hl ▸ .send h

theorem inv_ret {b : β} (h : Moves q Q (.ret b : Proc P A β) n m) : n = 0 ∧ m = 0 := by
  cases h with
  | ret _ => exact ⟨rfl, rfl⟩

theorem inv_send {r : P} {l : List A} (h : Moves q Q (.send r l x) n m) :
    (r = q ∧ ∃ n', n = l.length + n' ∧ Moves q Q x n' m) ∨ (r ≠ q ∧ Moves q Q x n m) := by
  cases h with
  | send h => exact .inl ⟨rfl, _, rfl, h⟩
  | sendOther hr h => exact .inr ⟨hr, h⟩

theorem inv_recv {r : P} {c : Nat} {k : List A → Proc P A β} (h : Moves q Q (.recv r c k) n m) :
    (r = q ∧ ∃ m', m = c + m' ∧ ∀ l, l.length = c → Moves q Q (k l) n m') ∨
    (r ≠ q ∧ ∀ l, l.length = c → Moves q Q (k l) n m) := by
  cases h with
  | recv h => exact .inl ⟨rfl, _, rfl, h⟩
  | recvOther hr h => exact .inr ⟨hr, h⟩

/-- What two processes move one after the other adds up. -/
theorem bind (hx : Moves q Q x n m) (hf : ∀ b, Q b → Moves q Q' (f b) n' m') :
    Moves q Q' (x.bind f) (n + n') (m + m') := by
  induction hx with
  | ret hb =>
    rw [Nat.zero_add, Nat.zero_add]
    exact hf _ hb
  | send _ ih =>
    rw [Nat.add_assoc]
    exact .send ih
  | sendOther hr _ ih => exact .sendOther hr ih
  | recv _ ih =>
    rw [Nat.add_assoc]
    exact .recv ih
  | recvOther hr _ ih => exact .recvOther hr ih

end Proc.Moves

end

section
variable {P A β : Type} [DecidableEq P] {p q : P} {Q Q' : β → Prop} {n m : Nat} {N N' : Net P A β}

/-- What `p` sent `q` and `q` took, against `n` symbols that were to be sent and `m` that were
    to be taken: the rest is on the stream. -/
def Balanced (p q : P) (Q Q' : β → Prop) (n m : Nat) (N : Net P A β) : Prop :=
  ∃ out back int forth, (N.proc p).Moves q Q out back ∧ (N.proc q).Moves p Q' forth int ∧
    (N.chan p q).length + out + m = int + n

section
variable {a r : P} {l : List A} {k : Proc P A β} {c : Nat} {K : List A → Proc P A β}

theorem sent_proc_self : (N.sent a r l k).proc a = k := Function.update_self ..

theorem sent_proc_ne (h : p ≠ a) : (N.sent a r l k).proc p = N.proc p := Function.update_of_ne h ..

theorem sent_chan : (N.sent a r l k).chan p q =
    if p = a ∧ q = r then N.chan a r ++ l else N.chan p q := setChan_apply ..

theorem received_proc_self : (N.received a r c K).proc a = K ((N.chan r a).take c) :=
  Function.update_self ..

theorem received_proc_ne (h : p ≠ a) : (N.received a r c K).proc p = N.proc p :=
  Function.update_of_ne h ..

theorem received_chan_eq : (N.received a r c K).chan p q =
    if p = r ∧ q = a then (N.chan r a).drop c else N.chan p q := setChan_apply ..

/-- A step of the sender. -/
theorem balanced_fire_left (hpq : p ≠ q) (hN : Balanced p q Q Q' n m N) (h : fire p N = some N') :
    Balanced p q Q Q' n m N' := by
  obtain ⟨out, back, int, forth, hp, hq, hsum⟩ := hN
  obtain ⟨r, l, k, hproc, rfl⟩ | ⟨r, c, K, hproc, hc, rfl⟩ := fire_cases h
  · rw [hproc] at hp
    obtain ⟨rfl, out', rfl, hk⟩ | ⟨hr, hk⟩ := hp.inv_send
    · refine ⟨out', back, int, forth, by rw [sent_proc_self]; exact hk,
        by rw [sent_proc_ne hpq.symm]; exact hq, ?_⟩
      rw [sent_chan, if_pos ⟨rfl, rfl⟩, List.length_append]
      omega
    · refine ⟨out, back, int, forth, by rw [sent_proc_self]; exact hk,
        by rw [sent_proc_ne hpq.symm]; exact hq, ?_⟩
      rw [sent_chan, if_neg (fun h => hr h.2.symm)]
      exact hsum
  · rw [hproc] at hp
    have hlen : ((N.chan r p).take c).length = c := List.length_take_of_le hc
    have hchan : (N.received p r c K).chan p q = N.chan p q := by
      rw [received_chan_eq, if_neg (fun h => hpq h.2.symm)]
    obtain ⟨rfl, back', rfl, hk⟩ | ⟨_, hk⟩ := hp.inv_recv
    · exact ⟨out, back', int, forth, by rw [received_proc_self]; exact hk _ hlen,
        by rw [received_proc_ne hpq.symm]; exact hq, by rw [hchan]; exact hsum⟩
    · exact ⟨out, back, int, forth, by rw [received_proc_self]; exact hk _ hlen,
        by rw [received_proc_ne hpq.symm]; exact hq, by rw [hchan]; exact hsum⟩

/-- A step of the receiver. -/
theorem balanced_fire_right (hpq : p ≠ q) (hN : Balanced p q Q Q' n m N) (h : fire q N = some N') :
    Balanced p q Q Q' n m N' := by
  obtain ⟨out, back, int, forth, hp, hq, hsum⟩ := hN
  obtain ⟨r, l, k, hproc, rfl⟩ | ⟨r, c, K, hproc, hc, rfl⟩ := fire_cases h
  · rw [hproc] at hq
    have hchan : (N.sent q r l k).chan p q = N.chan p q := by
      rw [sent_chan, if_neg (fun h => hpq h.1)]
    obtain ⟨rfl, forth', rfl, hk⟩ | ⟨_, hk⟩ := hq.inv_send
    · exact ⟨out, back, int, forth', by rw [sent_proc_ne hpq]; exact hp,
        by rw [sent_proc_self]; exact hk, by rw [hchan]; exact hsum⟩
    · exact ⟨out, back, int, forth, by rw [sent_proc_ne hpq]; exact hp,
        by rw [sent_proc_self]; exact hk, by rw [hchan]; exact hsum⟩
  · rw [hproc] at hq
    have hlen : ((N.chan r q).take c).length = c := List.length_take_of_le hc
    obtain ⟨rfl, int', rfl, hk⟩ | ⟨hr, hk⟩ := hq.inv_recv
    · refine ⟨out, back, int', forth, by rw [received_proc_ne hpq]; exact hp,
        by rw [received_proc_self]; exact hk _ hlen, ?_⟩
      rw [received_chan_eq, if_pos ⟨rfl, rfl⟩, List.length_drop]
      omega
    · refine ⟨out, back, int, forth, by rw [received_proc_ne hpq]; exact hp,
        by rw [received_proc_self]; exact hk _ hlen, ?_⟩
      rw [received_chan_eq, if_neg (fun h => hr h.1.symm)]
      exact hsum

end

theorem step_balanced (hpq : p ≠ q) (hN : Balanced p q Q Q' n m N) (h : Step N N') :
    Balanced p q Q Q' n m N' := by
  obtain ⟨a, ha⟩ := h
  by_cases hap : a = p
  · subst hap
    exact balanced_fire_left hpq hN ha
  by_cases haq : a = q
  · subst haq
    exact balanced_fire_right hpq hN ha
  -- another party touches neither process, nor the stream between them
  obtain ⟨out, back, int, forth, hp, hq, hsum⟩ := hN
  obtain ⟨r, l, k, -, rfl⟩ | ⟨r, c, K, -, -, rfl⟩ := fire_cases ha
  · refine ⟨out, back, int, forth, by rw [sent_proc_ne (Ne.symm hap)]; exact hp,
      by rw [sent_proc_ne (Ne.symm haq)]; exact hq, ?_⟩
    rw [sent_chan, if_neg (fun h => hap h.1.symm)]
    exact hsum
  · refine ⟨out, back, int, forth, by rw [received_proc_ne (Ne.symm hap)]; exact hp,
      by rw [received_proc_ne (Ne.symm haq)]; exact hq, ?_⟩
    rw [received_chan_eq, if_neg (fun h => haq h.2.symm)]
    exact hsum

theorem steps_balanced (hpq : p ≠ q) {i : Nat} (h : Steps Step i N N')
    (hN : Balanced p q Q Q' n m N) : Balanced p q Q Q' n m N' := by
  induction h with
  | refl _ => exact hN
  | head hs _ ih => exact ih (step_balanced hpq hN hs)

/-- In a complete run a process takes all that another sends it. -/
theorem Run.balanced (hpq : p ≠ q) {x : P → Proc P A β} {res : P → β} {v : P → List (P × List A)}
    (h : Run x res v) {back forth : Nat} (hp : (x p).Moves q Q n back)
    (hq : (x q).Moves p Q' forth m) : n = m := by
  obtain ⟨i, hi⟩ := h
  have hstart : Balanced p q Q Q' n m (start x) := ⟨n, back, m, forth, hp, hq, by
    show 0 + n + m = m + n
    omega⟩
  obtain ⟨out, _, int, _, hp', hq', hsum⟩ := steps_balanced hpq hi hstart
  obtain ⟨rfl, -⟩ := hp'.inv_ret
  obtain ⟨-, rfl⟩ := hq'.inv_ret
  have hend : 0 + 0 + m = 0 + n := hsum
  omega

end
end Fifo
