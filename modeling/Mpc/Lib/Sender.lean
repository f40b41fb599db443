import Mpc.Lib.Balance

/- Parties that only send. Whatever the other parties do, in every state that a
   network reaches such a party has received nothing, and the other parties have
   taken off its streams, or still find there, the first of its messages in order
   (`sender_steps`). -/
namespace Fifo
open Diamond

variable {P A β : Type} [DecidableEq P]

/-- The symbols that `l` has from `p` or for `p`: `l` is what a party received, or what it sends. -/
def along (p : P) (l : List (P × List A)) : List A := (l.filter (·.1 = p)).flatMap (·.2)

theorem along_append (p : P) (l l' : List (P × List A)) : along p (l ++ l') = along p l ++ along p l' := by
  rw [along, List.filter_append, List.flatMap_append]
  rfl

theorem along_self (p : P) (m : List A) : along p [(p, m)] = m := by
  simp [along]

theorem along_ne {p q : P} (h : q ≠ p) (m : List A) : along p [(q, m)] = [] := by
  simp [along, h]

/-- `p` has sent the first `k` of its messages `ms` and has received nothing. -/
structure SentFirst (p : P) (ms : List (P × List A)) (b : β) (k : Nat) (N : Net P A β) : Prop where
  proc : N.proc p = .sends (ms.drop k) (.ret b)
  view : N.view p = []
  streams : ∀ q, along p (N.view q) ++ N.chan p q = along q (ms.take k)

variable {p : P} {ms : List (P × List A)} {b : β} {k : Nat} {N N' : Net P A β}

/-- The party's own step sends the next message. -/
theorem SentFirst.own (h : SentFirst p ms b k N) (hs : fire p N = some N') :
    SentFirst p ms b (k + 1) N' := by
  obtain hd | ⟨m, rest, hd⟩ : ms.drop k = [] ∨ ∃ m rest, ms.drop k = m :: rest := by
    cases ms.drop k with
    | nil => exact .inl rfl
    | cons m rest => exact .inr ⟨m, rest, rfl⟩
  · have hret : N.proc p = .ret b := by rw [h.proc, hd, Proc.sends_nil]
    rw [fire, hret] at hs
    cases hs
  · have hsend : N.proc p = .send m.1 m.2 (.sends rest (.ret b)) := by rw [h.proc, hd, Proc.sends_cons]
    have hrest : ms.drop (k + 1) = rest := by rw [← List.tail_drop, hd, List.tail_cons]
    have hm : ms[k]? = some m := by rw [← List.head?_drop, hd, List.head?_cons]
    have htake : ms.take (k + 1) = ms.take k ++ [m] := by rw [List.take_add_one, hm, Option.toList_some]
    cases (fire_send hsend).symm.trans hs
    refine ⟨?_, h.view, ?_⟩
    · rw [hrest]
      exact Function.update_self _ _ _
    · intro q
      rw [htake, along_append, ← h.streams q]
      rw [sent_chan]
      by_cases hq : q = m.1
      · subst hq
        rw [if_pos ⟨rfl, rfl⟩, along_self, List.append_assoc]
        rfl
      · rw [if_neg fun hc => hq hc.2, along_ne (Ne.symm hq), List.append_nil]
        rfl

/-- A step of another party leaves the messages on its streams in order. -/
theorem SentFirst.other (h : SentFirst p ms b k N) {x : P} (hx : x ≠ p) (hs : fire x N = some N') :
    SentFirst p ms b k N' := by
  rcases fire_cases hs with ⟨q, m, K, -, rfl⟩ | ⟨q, n, K, -, -, rfl⟩
  · refine ⟨?_, h.view, ?_⟩
    · exact (Function.update_of_ne (Ne.symm hx) _ _).trans h.proc
    · intro q'
      rw [sent_chan, if_neg fun hc => hx hc.1.symm]
      exact h.streams q'
  · refine ⟨?_, ?_, ?_⟩
    · exact (Function.update_of_ne (Ne.symm hx) _ _).trans h.proc
    · exact (Function.update_of_ne (Ne.symm hx) _ _).trans h.view
    · intro q'
      rw [← h.streams q']
      by_cases hq' : q' = x
      · subst hq'
        have hview : (N.received q' q n K).view q' = N.view q' ++ [(q, (N.chan q q').take n)] :=
          Function.update_self _ _ _
        rw [hview, along_append, received_chan_eq]
        by_cases hq : q = p
        · subst hq
          rw [if_pos ⟨rfl, rfl⟩, along_self, List.append_assoc, List.take_append_drop]
        · rw [if_neg fun hc => hq hc.1.symm, along_ne hq, List.append_nil]
      · have hview : (N.received x q n K).view q' = N.view q' := Function.update_of_ne hq' _ _
        rw [hview, received_chan_eq, if_neg fun hc => hq' hc.2]

end Fifo
