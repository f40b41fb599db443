/- Reducing a list in rounds that combine neighbours. `pass` is one round, which
   carries an odd last element over, and `rounds` repeats it while more than one
   element is left. For an associative operation with a right unit the rounds end
   in the fold of the list (`rounds_eq`), whatever its length. -/
namespace PairFold

variable {α : Type} (op : α → α → α)

/-- One round: neighbours are combined, an odd last element is kept. -/
def pass : List α → List α
  | [] => []
  | [a] => [a]
  | a :: b :: l => op a b :: pass l

/-- At most `n` rounds, while more than one element is left. -/
def rounds : Nat → List α → List α
  | 0, l => l
  | n+1, l => if 1 < l.length then rounds n (pass op l) else l

theorem pass_length : ∀ l : List α, (pass op l).length = (l.length + 1) / 2
  | [] => by simp only [pass, List.length_nil]
  | [_] => by simp only [pass, List.length_singleton]
  | _ :: _ :: l => by
    simp only [pass, List.length_cons, pass_length l]
    omega

theorem foldr_pass (hassoc : ∀ a b c, op (op a b) c = op a (op b c)) (z : α) :
    ∀ l : List α, (pass op l).foldr op z = l.foldr op z
  | [] => rfl
  | [_] => rfl
  | a :: b :: l => by
    rw [pass, List.foldr_cons, foldr_pass hassoc z l, hassoc, List.foldr_cons, List.foldr_cons]

theorem rounds_eq (hassoc : ∀ a b c, op (op a b) c = op a (op b c)) {z : α} (hz : ∀ a, op a z = a)
    {n : Nat} {l : List α} (hne : l ≠ []) (hn : l.length ≤ n + 1) :
    rounds op n l = [l.foldr op z] := by
  have hone : ∀ {l : List α}, l ≠ [] → l.length ≤ 1 → l = [l.foldr op z] := by
    intro l hne hl
    match l, hne, hl with
    | [a], _, _ => rw [List.foldr_cons, List.foldr_nil, hz]
  induction n generalizing l with
  | zero =>
    show l = _
    exact hone hne (by omega)
  | succ n ih =>
    rw [rounds]
    by_cases h : 1 < l.length
    -- a pass halves the list and keeps the fold
    · have hlen := pass_length op l
      have hne' : pass op l ≠ [] := by
        intro he
        rw [he, List.length_nil] at hlen
        omega
      rw [if_pos h, ih hne' (by omega), foldr_pass op hassoc]
    · rw [if_neg h]
      exact hone hne (by omega)

end PairFold
