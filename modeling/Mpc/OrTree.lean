import Mpc.Circuit
import Mpc.Lib.PairFold

/- The OR tree of mpc_eqz. `AndCalls` says that the three parties' coroutines are one
   sequence of mpc_and calls: the k-th call of every party is on its shares of the
   operands of the k-th gate, and all continue with what that gate returns. The relation
   is closed under bind (`AndCalls.bind`), it gives the run on the network with P2's k-th
   material received in the k-th gate (`AndCalls.run`, `received_from_P2`), and every OR
   takes one element off a level, so a tree over L leaves is L - 1 calls whatever L and
   whatever P2's leaves (`orTree_andCalls`). -/
namespace Mpc
open Fifo Diamond LE

section
variable {w : Nat} {α β : Type}

/-! Sequences of mpc_and calls. -/

/-- The parties' operands of one AND. -/
structure AndGate (w : Nat) where
  x : Role → XShare w
  y : Role → XShare w

/-- From the environments `e` the coroutines `prog` make the calls of mpc_and on `gates`, in that
    order at every party and no others, and return `r` in the environments `e'`. -/
inductive AndCalls : (Role → Party Host α) → (Role → Env) → List (AndGate w) → (Role → α) →
    (Role → Env) → Prop
  | done {prog : Role → Party Host α} {e : Role → Env} {r : Role → α} :
    (∀ p, (prog p).run (Host.online p (e p)) = .ret (.ok (r p), Host.online p (e p))) →
    AndCalls prog e [] r e
  | call {prog : Role → Party Host α} {k : Role → BitVec w → Party Host α} {e e' : Role → Env}
    {g : AndGate w} {gates : List (AndGate w)} {r : Role → α} :
    (∀ p, (g.x p).ctx = true) →
    (∀ p, (prog p).run (Host.online p (e p)) =
      (mpcAnd (g.x p) (g.y p) p (selfOf p) (peer0Of p) (peer1Of p) >>= k p).run (Host.online p (e p))) →
    AndCalls (fun p => k p (andResult g.x g.y (e .P2) p)) (afterGate e w) gates r e' →
    AndCalls prog e (g :: gates) r e'

theorem AndCalls.pure (r : Role → α) (e : Role → Env) :
    AndCalls (w := w) (fun p => Pure.pure (r p)) e [] r e :=
  .done fun _ => rfl

theorem AndCalls.congr {x x' : Role → Party Host α} {e e' : Role → Env} {gates : List (AndGate w)}
    {r : Role → α} (hx : ∀ p, (x p).run (Host.online p (e p)) = (x' p).run (Host.online p (e p)))
    (h : AndCalls x' e gates r e') : AndCalls x e gates r e' := by
  cases h with
  | done hret => exact .done fun p => (hx p).trans (hret p)
  | call hctx hprog hrest => exact .call hctx (fun p => (hx p).trans (hprog p)) hrest

theorem AndCalls.bind {x : Role → Party Host α} {f : Role → α → Party Host β} {e e₁ e₂ : Role → Env}
    {gates gates' : List (AndGate w)} {r : Role → α} {s : Role → β} (h : AndCalls x e gates r e₁)
    (h' : AndCalls (fun p => f p (r p)) e₁ gates' s e₂) :
    AndCalls (fun p => x p >>= f p) e (gates ++ gates') s e₂ := by
  induction h with
  | done hret =>
    refine AndCalls.congr ?_ h'
    intro p
    rw [Party.bind_run, hret p, Proc.bind_ret, Party.andThen_ok]
  | call hctx hprog _ ih =>
    refine .call (k := fun p z => _ >>= f p) hctx ?_ (ih h')
    intro p
    rw [Party.bind_run, hprog p, ← Party.bind_run, Party.bind_assoc]

/-! What the parties receive. -/

/-- The views of the gates one after the other, from the environments `e`. -/
def gatesViews : List (AndGate w) → (Role → Env) → Role → List (Role × List Byte)
  | [], _, _ => []
  | g :: gates, e, p => andViews g.x g.y (e .P2) p ++ gatesViews gates (afterGate e w) p

theorem AndCalls.run {prog : Role → Party Host α} {e e' : Role → Env} {gates : List (AndGate w)}
    {r : Role → α} (h : AndCalls prog e gates r e') :
    PartyRun prog (fun p => Host.online p (e p)) r (fun p => Host.online p (e' p))
      (gatesViews gates e) := by
  induction h with
  | done hret => exact PartyRun.congr hret (PartyRun.pure _ _)
  | call hctx hprog _ ih => exact PartyRun.congr hprog ((mpcAnd_run hctx _).bind ih)

theorem Env.skips_add (e : Env) (a b : Nat) : (e.skips w a).skips w b = e.skips w (a + b) := by
  induction b with
  | zero => rfl
  | succ b ih => exact congrArg (Env.skip · w) ih

/-- Only P2 draws, four words for each call. -/
theorem AndCalls.env {prog : Role → Party Host α} {e e' : Role → Env} {gates : List (AndGate w)}
    {r : Role → α} (h : AndCalls prog e gates r e') :
    e' = tri (e .P0) (e .P1) ((e .P2).skips w (4 * gates.length)) := by
  induction h with
  | done =>
    funext p
    cases p <;> rfl
  | @call _ _ e _ g gates _ _ _ _ ih =>
    have hskips : ((e .P2).skips w 4).skips w (4 * gates.length) =
        (e .P2).skips w (4 * (gates.length + 1)) := by
      rw [Env.skips_add]
      congr 1
      omega
    rw [ih, List.length_cons, ← hskips]
    rfl

/-- The material of the first `n` calls of mpc_and, as the messages P2 sends to `p`. -/
def triples (w : Nat) (e : Env) (p : Role) : Nat → List (List Byte)
  | 0 => []
  | n+1 => (andDeal e w p).messages ++ triples w (e.skips w 4) p n

/-- P0 and P1 receive from P2 the triples it deals, the k-th one in the k-th gate. -/
theorem received_from_P2 (gates : List (AndGate w)) (e : Role → Env) {p : Role} (hp : p ≠ .P2) :
    ((gatesViews gates e p).filter (·.1 = .P2)).map (·.2) = triples w (e .P2) p gates.length := by
  induction gates generalizing e with
  | nil => rfl
  | cons g gates ih =>
    have hview : ((andViews g.x g.y (e .P2) p).filter (·.1 = .P2)).map (·.2) =
        (andDeal (e .P2) w p).messages := by
      cases p with
      | P0 => rfl
      | P1 => rfl
      | P2 => exact absurd rfl hp
    rw [gatesViews, List.filter_append, List.map_append, hview, ih]
    rfl

/-! The tree. -/

/-- An OR is one call of mpc_and. -/
theorem XShare.or_andCalls {x y : Role → XShare w} (hx : ∀ p, (x p).ctx = true)
    (hy : ∀ p, (y p).ctx = true) (e : Role → Env) :
    AndCalls (fun p => (x p).or (y p)) e [⟨x, y⟩] (fun p => ⟨orResult x y (e .P2) p, true⟩)
      (afterGate e w) := by
  refine .call (k := fun p z => Pure.pure ⟨(x p).val ^^^ (y p).val ^^^ z, true⟩) hx ?_ (.pure _ _)
  intro p
  simp [XShare.or, mpcOr, XShare.and, XShare.xor, hx, hy, Proc.bind_assoc, Party.andThen_bind]
  rfl

/-- A level makes a call for each pair of neighbours. -/
theorem orLevel_andCalls (vs : List (Role → XShare w)) (ts : List (BitVec w)) (e : Role → Env)
    (h : List.Forall₂ XSharing vs ts) :
    ∃ (us : List (Role → XShare w)) (gates : List (AndGate w)) (e' : Role → Env),
      AndCalls (fun p => orLevel (vs.map (· p))) e gates (fun p => us.map (· p)) e' ∧
      gates.length + us.length = vs.length ∧
      List.Forall₂ XSharing us (PairFold.pass (· ||| ·) ts) := by
  match vs, ts, h with
  | [], [], _ => exact ⟨[], [], e, .pure _ e, rfl, .nil⟩
  | [a], [t], h => exact ⟨[a], [], e, .pure _ e, rfl, h⟩
  | a :: b :: vs, t :: u :: ts, .cons ha (.cons hb h) =>
    have hor := XShare.or_andCalls ha.2 hb.2 e
    obtain ⟨us, gates, e', hcalls, hlen, hus⟩ := orLevel_andCalls vs ts (afterGate e w) h
    let c : Role → XShare w := fun p => ⟨orResult a b (e .P2) p, true⟩
    have hc : XSharing c (t ||| u) := by
      refine ⟨?_, fun _ => rfl⟩
      show orResult a b (e .P2) .P0 ^^^ orResult a b (e .P2) .P1 = t ||| u
      rw [orResult_xor, ha.1, hb.1]
    have hnext := hcalls.bind (f := fun p next => Pure.pure (c p :: next)) (.pure _ e')
    refine ⟨c :: us, _, e', hor.bind hnext, ?_, .cons hc hus⟩
    simp only [List.length_append, List.length_cons, List.length_nil]
    omega

/-- The rounds make a call for each element they take off the level. -/
theorem orRounds_andCalls (n : Nat) (vs : List (Role → XShare w)) (ts : List (BitVec w))
    (e : Role → Env) (h : List.Forall₂ XSharing vs ts) :
    ∃ (us : List (Role → XShare w)) (gates : List (AndGate w)) (e' : Role → Env),
      AndCalls (fun p => orRounds n (vs.map (· p))) e gates (fun p => us.map (· p)) e' ∧
      gates.length + us.length = vs.length ∧
      List.Forall₂ XSharing us (PairFold.rounds (· ||| ·) n ts) := by
  induction n generalizing vs ts e with
  | zero => exact ⟨vs, [], e, .pure _ e, Nat.zero_add _, h⟩
  | succ n ih =>
    have hlen := h.length_eq
    by_cases hl : 1 < ts.length
    · obtain ⟨us, gates₁, e₁, hlevel, hlen₁, hus⟩ := orLevel_andCalls vs ts e h
      obtain ⟨zs, gates₂, e₂, hrest, hlen₂, hzs⟩ := ih us _ e₁ hus
      refine ⟨zs, gates₁ ++ gates₂, e₂, AndCalls.congr ?_ (hlevel.bind hrest), ?_, ?_⟩
      · intro p
        simp only [orRounds, List.length_map, hlen, if_pos hl]
      · rw [List.length_append]
        omega
      · rw [PairFold.rounds, if_pos hl]
        exact hzs
    · refine ⟨vs, [], e, AndCalls.congr ?_ (.pure (fun p => vs.map (· p)) e), Nat.zero_add _, ?_⟩
      · intro p
        simp only [orRounds, List.length_map, hlen, if_neg hl]
      · rw [PairFold.rounds, if_neg hl]
        exact h

/-- The tree leaves one element, a sharing of the OR of all leaves, after one call less than
    there are leaves. -/
theorem orTree_andCalls (vs : List (Role → XShare w)) (ts : List (BitVec w)) (e : Role → Env)
    (h : List.Forall₂ XSharing vs ts) (hne : ts ≠ []) :
    ∃ (u : Role → XShare w) (gates : List (AndGate w)) (e' : Role → Env),
      AndCalls (fun p => orTree (vs.map (· p))) e gates (fun p => [u p]) e' ∧
      gates.length + 1 = vs.length ∧
      XSharing u (ts.foldr (· ||| ·) 0#w) := by
  obtain ⟨us, gates, e', hcalls, hlen, hus⟩ := orRounds_andCalls vs.length vs ts e h
  rw [PairFold.rounds_eq _ BitVec.or_assoc (fun _ => BitVec.or_zero) hne
    (by rw [h.length_eq]; omega)] at hus
  match us, hus with
  | [u], .cons hu .nil =>
    refine ⟨u, gates, e', AndCalls.congr ?_ hcalls, hlen, hu⟩
    intro p
    rw [orTree, List.length_map]

/-- The tree on the network. -/
theorem orTree_run (vs : List (Role → XShare w)) (ts : List (BitVec w)) (e : Role → Env)
    (h : List.Forall₂ XSharing vs ts) (hne : ts ≠ []) :
    ∃ (u : Role → XShare w) (e' : Role → Env) (views : Role → List (Role × List Byte)),
      PartyRun (fun p => orTree (vs.map (· p))) (fun p => Host.online p (e p))
        (fun p => [u p]) (fun p => Host.online p (e' p)) views ∧
      XSharing u (ts.foldr (· ||| ·) 0#w) := by
  obtain ⟨u, gates, e', hcalls, -, hu⟩ := orTree_andCalls vs ts e h hne
  exact ⟨u, e', gatesViews gates e, hcalls.run, hu⟩

end

/-- The level the parties start from: P0's and P1's shares of the leaves, and P2's dummies. -/
def treeLeaves (leaves : List (BitVec 64 × BitVec 64)) : Role → List (XShare 64) :=
  tri (leaves.map fun l => ⟨l.1, true⟩) (leaves.map fun l => ⟨l.2, true⟩)
    (List.replicate leaves.length ⟨0, true⟩)

/-- For any number of leaves the tree ends with one element, a sharing of the OR of the leaves. In
    every schedule each party makes one call of mpc_and less than there are leaves, the k-th calls of
    the three parties are one gate, and in it P0 and P1 receive the k-th triple P2 deals. -/
theorem orTree_correct {leaves : List (BitVec 64 × BitVec 64)} (hne : leaves ≠ []) (e : Role → Env) :
    ∃ (u : Role → XShare 64) (gates : List (AndGate 64)) (e' : Role → Env),
      AndCalls (fun p => orTree (treeLeaves leaves p)) e gates (fun p => [u p]) e' ∧
      gates.length = leaves.length - 1 ∧
      Settles Step (start fun p => (orTree (treeLeaves leaves p)).run (Host.online p (e p)))
        (finished (fun p => (.ok [u p], Host.online p (e' p))) (gatesViews gates e)) ∧
      e' = tri (e .P0) (e .P1) ((e .P2).skips 64 (4 * (leaves.length - 1))) ∧
      (∀ p, p ≠ .P2 → ((gatesViews gates e p).filter (·.1 = .P2)).map (·.2) =
        triples 64 (e .P2) p (leaves.length - 1)) ∧
      (u .P0).val ^^^ (u .P1).val = (leaves.map fun l => l.1 ^^^ l.2).foldr (· ||| ·) 0 := by
  let vs : List (Role → XShare 64) := leaves.map fun l => tri ⟨l.1, true⟩ ⟨l.2, true⟩ ⟨0, true⟩
  have hvs : ∀ p, vs.map (· p) = treeLeaves leaves p := by
    intro p
    rw [List.map_map]
    cases p with
    | P0 => rfl
    | P1 => rfl
    | P2 => exact List.map_const'
  have hshare : List.Forall₂ XSharing vs (leaves.map fun l => l.1 ^^^ l.2) := by
    rw [List.forall₂_map_left_iff, List.forall₂_map_right_iff, List.forall₂_same]
    intro l _
    exact ⟨rfl, fun p => by cases p <;> rfl⟩
  obtain ⟨u, gates, e', hcalls, hlen, hu⟩ :=
    orTree_andCalls vs _ e hshare (mt List.map_eq_nil_iff.mp hne)
  have hcount : gates.length = leaves.length - 1 := by
    rw [List.length_map] at hlen
    omega
  simp only [hvs] at hcalls
  refine ⟨u, gates, e', hcalls, hcount, hcalls.run.settles, ?_, fun p hp => ?_, hu.1⟩
  · rw [hcalls.env, hcount]
  · rw [received_from_P2 gates e hp, hcount]

theorem orTree_correct_three :
    ∃ (u : Role → XShare 64) (gates : List (AndGate 64)), gates.length = 2 ∧
      (u .P0).val ^^^ (u .P1).val = 7 := by
  have hne : [((9 : BitVec 64), (8 : BitVec 64)), (2, 0), (0, 4)] ≠ [] := List.cons_ne_nil _ _
  obtain ⟨u, gates, -, -, hcount, -, -, -, hu⟩ := orTree_correct hne fun _ => Env.zeros
  exact ⟨u, gates, hcount, hu⟩

end Mpc
