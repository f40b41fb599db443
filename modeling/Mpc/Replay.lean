import Mpc.Tape

/- Recorded programs. A program is a list of operations whose operands are
   computed from the party's earlier results. The tapes P2 records for a program are
   the records of its operations in order (`record_calls`); `calls_run` carries an
   invariant of the parties' memories along a program, each operation's result correct
   for the operands before it. With the invariant that a replaying party's counters
   keep their distance to P2's and its tapes are what P2 recorded for the rest, P0 and
   P1 replay any program behind equal counters, and any other ends in a desync at the
   first operation whose counters differ. -/
namespace Mpc
open Fifo Diamond LE

/-! Programs. -/

/-- A word of some width. -/
abbrev Word := Σ w, BitVec w

/-- An operation, and its operands at each party from that party's results so far. -/
structure Call where
  op : Op
  args : Role → List Word → BitVec op.width × BitVec op.width

/-- Party `p` runs `prog` behind the results `done`. -/
def runCalls (p : Role) : List Call → List Word → Party Host (List Word)
  | [], done => return done
  | c :: prog, done => do
    let z ← c.op.call p (c.args p done).1 (c.args p done).2
    runCalls p prog (done ++ [⟨c.op.width, z⟩])

theorem runCalls_append (p : Role) (prog prog' : List Call) (done : List Word) :
    runCalls p (prog ++ prog') done = runCalls p prog done >>= runCalls p prog' := by
  induction prog generalizing done with
  | nil => rfl
  | cons c prog ih => simp only [List.cons_append, runCalls, Party.bind_assoc, ih]

/-- Every operation's results at P0 and P1 reconstruct to what it computes on the
    reconstructed operands. -/
def Correct (prog : List Call) (r : Role → List Word) : Prop :=
  ∀ (n : Nat) (c : Call), prog[n]? = some c →
    let args := fun p => c.args p ((r p).take n)
    ∃ z0 z1, (r .P0)[n]? = some ⟨c.op.width, z0⟩ ∧ (r .P1)[n]? = some ⟨c.op.width, z1⟩ ∧
      c.op.reconstruct z0 z1 = c.op.eval (c.op.reconstruct (args .P0).1 (args .P1).1)
        (c.op.reconstruct (args .P0).2 (args .P1).2)

/-! Running a program operation by operation. -/

section
variable {prog : List Call} {c : Call} {r : Role → List Word}

theorem Correct.append (h : Correct prog r) {z : Role → BitVec c.op.width}
    (hlen : ∀ p, p ≠ .P2 → (r p).length = prog.length) {r' : Role → List Word}
    (hr : ∀ p, p ≠ .P2 → r' p = r p ++ [⟨c.op.width, z p⟩])
    (hz : c.op.reconstruct (z .P0) (z .P1) =
      c.op.eval (c.op.reconstruct (c.args .P0 (r .P0)).1 (c.args .P1 (r .P1)).1)
        (c.op.reconstruct (c.args .P0 (r .P0)).2 (c.args .P1 (r .P1)).2)) :
    Correct (prog ++ [c]) r' := by
  have h0 := hlen .P0 (by decide)
  have h1 := hlen .P1 (by decide)
  intro n d hd
  simp only [hr .P0 (by decide), hr .P1 (by decide)]
  rcases Nat.lt_or_ge n prog.length with hn | hn
  · rw [List.getElem?_append_left hn] at hd
    simpa only [List.getElem?_append_left (h0 ▸ hn), List.getElem?_append_left (h1 ▸ hn),
      List.take_append_of_le_length (Nat.le_of_lt (h0 ▸ hn)),
      List.take_append_of_le_length (Nat.le_of_lt (h1 ▸ hn))] using h n d hd
  · obtain rfl : n = prog.length := by
      have hlt := (List.getElem?_eq_some_iff.mp hd).1
      simp only [List.length_append, List.length_singleton] at hlt
      omega
    obtain rfl : c = d := by simpa using hd
    refine ⟨z .P0, z .P1, by simp [← h0], by simp [← h1], ?_⟩
    simpa [List.take_left' h0, List.take_left' h1] using hz

end

/-- The parties in `on` run `prog`, the others are idle. -/
def program (on : Role → Bool) (prog : List Call) (p : Role) : Party Host (List Word) :=
  if on p then runCalls p prog [] else pure []

theorem program_append (on : Role → Bool) (prog prog' : List Call) :
    program on (prog ++ prog') = fun p => program on prog p >>= fun done =>
      if on p then runCalls p prog' done else pure [] := by
  funext p
  by_cases hp : on p
  · simp only [program, hp, if_true, runCalls_append]
  · simp only [program, hp]
    rfl

theorem program_snoc (on : Role → Bool) (prog : List Call) (c : Call) :
    program on (prog ++ [c]) = fun p => program on prog p >>= fun done =>
      (if on p then c.op.call p (c.args p done).1 (c.args p done).2 else pure 0) >>= fun z =>
        pure (if on p then done ++ [⟨c.op.width, z⟩] else []) := by
  rw [program_append]
  funext p
  by_cases hp : on p
  · simp only [hp, if_true]
    rfl
  · simp only [hp]
    rfl

/-- If every operation of a program, run by the parties in `on` together, is correct and
    keeps the invariant `I` of their memories, so does the program. -/
theorem calls_run (on : Role → Bool) (hon : ∀ p, p ≠ .P2 → on p = true)
    (I : List Call → (Role → Host) → Prop) (whole : List Call) {s : Role → Host} (hI : I [] s)
    (step : ∀ (prog : List Call) (c : Call) (s : Role → Host) (x y : Role → BitVec c.op.width),
      prog ++ [c] <+: whole → I prog s →
      ∃ (z : Role → BitVec c.op.width) (s' : Role → Host) (v : Role → List (Role × List Byte)),
        PartyRun (fun p => if on p then c.op.call p (x p) (y p) else pure 0) s z s' v ∧
        c.op.reconstruct (z .P0) (z .P1) =
          c.op.eval (c.op.reconstruct (x .P0) (x .P1)) (c.op.reconstruct (y .P0) (y .P1)) ∧
        I (prog ++ [c]) s')
    (prog : List Call) (hprog : prog <+: whole) :
    ∃ (r : Role → List Word) (s' : Role → Host) (v : Role → List (Role × List Byte)),
      PartyRun (program on prog) s r s' v ∧ Correct prog r ∧ I prog s' ∧
      ∀ p, p ≠ .P2 → (r p).length = prog.length := by
  induction prog using List.reverseRecOn with
  | nil =>
    refine ⟨fun _ => [], s, _, PartyRun.congr ?_ (PartyRun.pure (fun _ => []) s), ?_, hI, fun _ _ => rfl⟩
    · intro p
      simp only [program, runCalls]
      split <;> rfl
    · intro n c hc
      simp at hc
  | append_singleton prog c ih =>
    obtain ⟨r, s', v, hrun, hr, hI', hlen⟩ := ih ((List.prefix_append prog [c]).trans hprog)
    obtain ⟨z, s'', v', hstep, hz, hI''⟩ :=
      step prog c s' (fun p => (c.args p (r p)).1) (fun p => (c.args p (r p)).2) hprog hI'
    refine ⟨fun p => if on p then r p ++ [⟨c.op.width, z p⟩] else [], s'', fun p => v p ++ v' p,
      ?_, ?_, hI'', ?_⟩
    · rw [program_snoc]
      exact hrun.bind (hstep.map _)
    · refine hr.append hlen (z := z) ?_ hz
      intro p hp
      simp only [hon p hp, if_true]
    · intro p hp
      simp [hon p hp, hlen p hp]

/-! Recording. -/

/-- P2's environment after recording `prog`. -/
def afterCalls (prog : List Call) (e : Env) : Env := prog.foldl (fun e c => c.op.after e) e

/-- What recording `prog` writes. -/
def tapesOf : List Call → Env → Tapes
  | [], _ => .empty
  | c :: prog, e => (c.op.tapes e).append (tapesOf prog (c.op.after e))

theorem afterCalls_append (prog prog' : List Call) (e : Env) :
    afterCalls (prog ++ prog') e = afterCalls prog' (afterCalls prog e) := List.foldl_append

theorem tapesOf_append (prog prog' : List Call) (e : Env) :
    tapesOf (prog ++ prog') e = (tapesOf prog e).append (tapesOf prog' (afterCalls prog e)) := by
  induction prog generalizing e with
  | nil => rfl
  | cons c prog ih =>
    rw [List.cons_append, tapesOf, tapesOf, ih, Tapes.append_assoc]
    rfl

theorem record_calls (prog : List Call) (done : List Word) (e : Env) (rand : List Byte) (t : Tapes) :
    ∃ r rand', (runCalls .P2 prog done).run (Host.recording e rand t) =
      .ret (.ok r, Host.recording (afterCalls prog e) rand' (t.append (tapesOf prog e))) := by
  induction prog generalizing done e rand t with
  | nil => exact ⟨done, rand, by rw [tapesOf, Tapes.append_empty]; rfl⟩
  | cons c prog ih =>
    obtain ⟨z, rand', hc⟩ := record_call c.op (c.args .P2 done).1 (c.args .P2 done).2 e rand t
    obtain ⟨r, rand'', hr⟩ := ih (done ++ [⟨c.op.width, z⟩]) (c.op.after e) rand' (t.append (c.op.tapes e))
    refine ⟨r, rand'', ?_⟩
    rw [runCalls, Party.bind_run, hc, Proc.bind_ret, Party.andThen_ok, hr, Tapes.append_assoc]
    rfl

/-! Counters. -/

/-- How many operations of `prog` use the counter of `k`. -/
def uses (k : Kind) (prog : List Call) : BitVec 64 := BitVec.ofNat 64 (prog.countP (·.op.kind = k))

theorem uses_append (k : Kind) (prog : List Call) (c : Call) :
    uses k (prog ++ [c]) = uses k prog + if k = c.op.kind then 1 else 0 := by
  rw [uses, List.countP_append, BitVec.ofNat_add, List.countP_singleton]
  by_cases hk : k = c.op.kind
  · simp [uses, hk]
  · simp [uses, hk, Ne.symm hk]

theorem ctr_bump (k k' : Kind) (e : Env) : k.ctr (k'.bump e) = k.ctr e + if k = k' then 1 else 0 := by
  cases k <;> cases k' <;> simp [Kind.ctr, Kind.bump]

theorem ctr_after (k : Kind) (o : Op) (e : Env) :
    k.ctr (o.after e) = k.ctr e + if k = o.kind then 1 else 0 := by
  rw [Op.after, ctr_bump]
  cases k <;> rfl

theorem ctr_afterCalls (k : Kind) (prog : List Call) (e : Env) :
    k.ctr (afterCalls prog e) = k.ctr e + uses k prog := by
  induction prog using List.reverseRecOn with
  | nil => exact (BitVec.add_zero _).symm
  | append_singleton prog c ih =>
    rw [afterCalls_append, uses_append, ← BitVec.add_assoc, ← ih]
    exact ctr_after k c.op _

/-! Replaying. -/

/-- P0 and P1 have replayed `prog` of the recording of `whole`: their counters have moved
    with P2's, and what is left on their tapes is what P2 wrote after `prog`. -/
def Replayed (whole : List Call) (e : Role → Env) (i : Role → IStream) (prog : List Call)
    (s : Role → Host) : Prop :=
  ∃ (e' : Role → Env) (t : Role → Tapes), s = (fun p => Host.replaying p (e' p) (i p) (t p)) ∧
    ∀ p k, p ≠ .P2 → k.ctr (e' p) = k.ctr (e p) + uses k prog ∧
      tapesOf whole (e .P2) k p = tapesOf prog (e .P2) k p ++ t p k p

variable {whole prog : List Call} {c : Call} {e : Role → Env} {i : Role → IStream} {s : Role → Host}

/-- What a party that has replayed `prog` finds on its tapes, the next operation being `c`. -/
theorem tapes_next (hpre : prog ++ [c] <+: whole) {k : Kind} {p : Role} {l : List Byte}
    (ht : tapesOf whole (e .P2) k p = tapesOf prog (e .P2) k p ++ l) :
    ∃ l', l = c.op.tapes (afterCalls prog (e .P2)) k p ++ l' ∧
      tapesOf whole (e .P2) k p = tapesOf (prog ++ [c]) (e .P2) k p ++ l' := by
  obtain ⟨rest, rfl⟩ := hpre
  have hc : ∀ k p, tapesOf (prog ++ [c]) (e .P2) k p = tapesOf prog (e .P2) k p ++
      c.op.tapes (afterCalls prog (e .P2)) k p := by
    intro k p
    rw [tapesOf_append, tapesOf, tapesOf, Tapes.append_empty]
    rfl
  refine ⟨tapesOf rest (afterCalls (prog ++ [c]) (e .P2)) k p, ?_, ?_⟩
  · rw [tapesOf_append, Tapes.append, hc, List.append_assoc] at ht
    exact (List.append_cancel_left ht).symm
  · rw [tapesOf_append, Tapes.append]

/-- The next call `c` of the program, at equal counters, finds P2's records of it. -/
theorem replay_step (hpre : prog ++ [c] <+: whole)
    (hctr : ∀ p, p ≠ .P2 → c.op.kind.ctr (e p) = c.op.kind.ctr (e .P2))
    (h : Replayed whole e i prog s) (x y : Role → BitVec c.op.width) :
    ∃ (z : Role → BitVec c.op.width) (s' : Role → Host) (v : Role → List (Role × List Byte)),
      PartyRun (fun p => if p.computes then c.op.call p (x p) (y p) else pure 0) s z s' v ∧
      c.op.reconstruct (z .P0) (z .P1) =
        c.op.eval (c.op.reconstruct (x .P0) (x .P1)) (c.op.reconstruct (y .P0) (y .P1)) ∧
      Replayed whole e i (prog ++ [c]) s' := by
  obtain ⟨e', t, rfl, hs⟩ := h
  have hnext : ∀ p k, p ≠ .P2 → ∃ l', t p k p = c.op.tapes (afterCalls prog (e .P2)) k p ++ l' ∧
      tapesOf whole (e .P2) k p = tapesOf (prog ++ [c]) (e .P2) k p ++ l' :=
    fun p k hp => tapes_next hpre (hs p k hp).2
  choose! l hl hwhole using hnext
  have ht : ∀ p, p ≠ .P2 → t p c.op.kind p =
      record (c.op.kind.ctr (e' p)) (c.op.deal (afterCalls prog (e .P2)) p) ++ l p c.op.kind := by
    intro p hp
    rw [hl p _ hp, (hs p _ hp).1, hctr p hp, ← ctr_afterCalls, Op.tapes_self _ hp]
  obtain ⟨v, hrun⟩ := replay_op c.op x y (i := i) ht
  refine ⟨_, _, v, hrun, share_reconstruct c.op x y, _, _, rfl, ?_⟩
  intro p k hp
  simp only [Role.computes_of_ne hp, if_true]
  refine ⟨by rw [ctr_bump, (hs p k hp).1, uses_append, BitVec.add_assoc], ?_⟩
  by_cases hk : k = c.op.kind
  · subst hk
    rw [Tapes.set_self]
    exact hwhole p _ hp
  · have hkeep : (t p).set c.op.kind p (l p c.op.kind) k p = l p k := by
      rw [Tapes.set, if_neg (fun h => hk h.1), hl p k hp, Op.tapes_ne _ hk, List.nil_append]
    rw [hkeep]
    exact hwhole p k hp

/-- P0 and P1 replay `prog` from P2's files `files`. -/
def replayNet (prog : List Call) (e : Role → Env) (i : Role → IStream) (files : Tapes) :
    Net Role Byte (Except Err (List Word) × Host) :=
  start fun p => (program Role.computes prog p).run (Host.replaying p (e p) (i p) files)

/-- P0 and P1 replay `prog` of the recording of `whole` when the counters it uses agree. -/
theorem replay_calls (hpre : prog <+: whole)
    (hctr : ∀ c ∈ prog, ∀ p, p ≠ .P2 → c.op.kind.ctr (e p) = c.op.kind.ctr (e .P2)) :
    ∃ (r : Role → List Word) (s : Role → Host) (v : Role → List (Role × List Byte)),
      PartyRun (program Role.computes prog)
        (fun p => Host.replaying p (e p) (i p) (tapesOf whole (e .P2))) r s v ∧
      Correct prog r ∧ Replayed whole e i prog s := by
  have h0 : Replayed whole e i [] fun p => Host.replaying p (e p) (i p) (tapesOf whole (e .P2)) :=
    ⟨e, _, rfl, fun p k _ => ⟨(BitVec.add_zero _).symm, rfl⟩⟩
  obtain ⟨r, s, v, hrun, hr, hs, -⟩ := calls_run Role.computes (fun _ => Role.computes_of_ne)
    (Replayed whole e i) prog h0
    (fun prog' c s x y hp h => replay_step (hp.trans hpre)
      (hctr c (hp.subset (List.mem_append_right _ (List.mem_singleton_self c)))) h x y)
    prog (List.prefix_refl prog)
  exact ⟨r, s, v, hrun, hr, hs⟩

theorem online_calls (prog : List Call) (e : Role → Env) :
    ∃ (r : Role → List Word) (s : Role → Host) (v : Role → List (Role × List Byte)),
      PartyRun (fun p => runCalls p prog []) (fun p => Host.online p (e p)) r s v ∧
      Correct prog r := by
  obtain ⟨r, s, v, hrun, hr, -, -⟩ := calls_run (fun _ => true) (fun _ _ => rfl)
    (fun _ s => ∃ e' : Role → Env, s = fun p => Host.online p (e' p)) prog ⟨e, rfl⟩
    (by
      rintro prog' c s x y - ⟨e', rfl⟩
      obtain ⟨z, e'', v, hrun, hz⟩ := online_op c.op x y e'
      exact ⟨z, _, v, hrun, hz, e'', rfl⟩)
    prog (List.prefix_refl prog)
  exact ⟨r, s, v, hrun, hr⟩

/-- Replayed preprocessing. Let every party's counters start from the same values. P2 in
    Record mode is at `Host.recording (e2 n) (rand n) (tapes n)` after `n` operations, operation
    `n` having added its records behind the counter's value. P0 and P1 in Replay mode with the
    whole recording then run the first `n` operations, whatever the schedule, without an
    exception: their counters are P2's, what they have taken off their own tapes is what P2
    had written after `n` operations, and every result is correct, as it is online. -/
theorem replay_equivalent (prog : List Call) (e : Role → Env) (i : Role → IStream)
    (hctr : ∀ p k, Kind.ctr k (e p) = Kind.ctr k (e .P2)) :
    (∃ (e2 : Nat → Env) (rand : Nat → List Byte) (tapes : Nat → Tapes),
      (∀ n, ∃ r, (runCalls .P2 (prog.take n) []).run (Host.recording (e .P2) [] .empty) =
        .ret (.ok r, Host.recording (e2 n) (rand n) (tapes n))) ∧
      (∀ n c, prog[n]? = some c → tapes (n+1) = (tapes n).append (c.op.tapes (e2 n))) ∧
      ∀ n, ∃ (r : Role → List Word) (e' : Role → Env) (unread : Role → Tapes)
          (v : Role → List (Role × List Byte)),
        Settles Step (replayNet (prog.take n) e i (tapes prog.length))
          (finished (fun p => (.ok (r p), Host.replaying p (e' p) (i p) (unread p))) v) ∧
        Correct (prog.take n) r ∧
        (∀ p k, p ≠ .P2 → k.ctr (e' p) = k.ctr (e2 n) ∧
          tapes prog.length k p = tapes n k p ++ unread p k p) ∧
        (prog.length ≤ n → ∀ p k, p ≠ .P2 → unread p k p = [])) ∧
    ∃ (r : Role → List Word) (hosts : Role → Host) (v : Role → List (Role × List Byte)),
      Settles Step (start fun p => (runCalls p prog []).run (Host.online p (e p)))
        (finished (fun p => (.ok (r p), hosts p)) v) ∧ Correct prog r := by
  have hrec : ∀ n, ∃ rand', ∃ r, (runCalls .P2 (prog.take n) []).run
      (Host.recording (e .P2) [] .empty) = .ret (.ok r, Host.recording
        (afterCalls (prog.take n) (e .P2)) rand' (tapesOf (prog.take n) (e .P2))) := by
    intro n
    obtain ⟨r, rand', h⟩ := record_calls (prog.take n) [] (e .P2) [] .empty
    exact ⟨rand', r, h⟩
  choose rand hrec using hrec
  obtain ⟨ro, so, vo, hrun, hro⟩ := online_calls prog e
  refine ⟨⟨_, rand, _, hrec, ?_, ?_⟩, ro, so, vo, hrun.settles, hro⟩
  · intro n c hc
    rw [List.take_add_one, hc, Option.toList_some, tapesOf_append, tapesOf, tapesOf, Tapes.append_empty]
  · intro n
    obtain ⟨r, s, v, hrun, hr, e', t, rfl, hs⟩ := replay_calls (i := i) (List.take_prefix n prog)
      (fun c _ p _ => hctr p c.op.kind)
    rw [List.take_length]
    refine ⟨r, e', t, v, hrun.settles, hr, ?_, ?_⟩
    · intro p k hp
      obtain ⟨hk, ht⟩ := hs p k hp
      exact ⟨by rw [hk, hctr, ctr_afterCalls], ht⟩
    · intro hn p k hp
      have ht := (hs p k hp).2
      rw [List.take_of_length_le hn] at ht
      exact List.append_right_eq_self.mp ht.symm

/-- The first element of a list without a property. -/
theorem split_at_first {α : Type} {P : α → Prop} {l : List α} (h : ¬ ∀ a ∈ l, P a) :
    ∃ before a after, l = before ++ a :: after ∧ (∀ b ∈ before, P b) ∧ ¬ P a := by
  induction l with
  | nil => exact absurd (fun a ha => absurd ha List.not_mem_nil) h
  | cons a l ih =>
    by_cases ha : P a
    · have hl : ¬ ∀ b ∈ l, P b := fun hl => h (List.forall_mem_cons.mpr ⟨ha, hl⟩)
      obtain ⟨before, b, after, rfl, hbefore, hb⟩ := ih hl
      exact ⟨a :: before, b, after, rfl, List.forall_mem_cons.mpr ⟨ha, hbefore⟩, hb⟩
    · exact ⟨[], a, l, rfl, fun b hb => absurd hb List.not_mem_nil, ha⟩

/-- The first operation at whose counter P0 or P1 differs from P2 ends that party's replay. -/
theorem replay_reaches_desync {rest : List Call} {p : Role} (hwhole : whole = prog ++ c :: rest)
    (hbefore : ∀ d ∈ prog, ∀ p, p ≠ .P2 → d.op.kind.ctr (e p) = d.op.kind.ctr (e .P2))
    (hp : p ≠ .P2) (hctr : c.op.kind.ctr (e p) ≠ c.op.kind.ctr (e .P2)) :
    ∃ n N h, Steps Step n (replayNet whole e i (tapesOf whole (e .P2))) N ∧
      N.proc p = .ret (.error (.runtimeError (Kind.desync c.op.kind p)), h) := by
  subst hwhole
  have hnext : prog ++ [c] <+: prog ++ c :: rest := ⟨rest, by rw [List.append_assoc]; rfl⟩
  obtain ⟨r, s, v, hrun, -, e', t, rfl, hs⟩ :=
    replay_calls (i := i) ((List.prefix_append prog [c]).trans hnext) hbefore
  obtain ⟨n, hn⟩ := hrun.reach fun p => Party.andThen fun done =>
    if p.computes then runCalls p (c :: rest) done else pure []
  -- the record the party finds next is P2's record of `c`, behind P2's counter
  obtain ⟨l, hl, -⟩ := tapes_next hnext (hs p c.op.kind hp).2
  rw [Op.tapes_self _ hp] at hl
  have hidx : c.op.kind.ctr (afterCalls prog (e .P2)) ≠ c.op.kind.ctr (e' p) := by
    rw [ctr_afterCalls, (hs p c.op.kind hp).1]
    exact fun h => hctr (add_right_cancel h).symm
  obtain ⟨h, hcall⟩ := replay_desync c.op (c.args p (r p)).1 (c.args p (r p)).2 (i := i p)
    hp hl hidx
  rw [replayNet, program_append]
  refine ⟨n, _, h, hn, ?_⟩
  simp only [Party.andThen_ok, Role.computes_of_ne hp, if_true, runCalls, Party.bind_run, hcall,
    Proc.bind_ret, Party.andThen_error]

/-- A program of a multiplication, an AND of bytes and an OR of 32-bit words. -/
def sampleCalls : List Call :=
  [⟨.mul, fun _ _ => (3, 4)⟩, ⟨.and 8, fun _ _ => (5, 6)⟩, ⟨.or 32, fun _ _ => (9, 10)⟩]

theorem replay_equivalent_three : ∃ (tapes : Tapes) (r : Role → List Word) (e' : Role → Env)
    (unread : Role → Tapes) (v : Role → List (Role × List Byte)),
    Settles Step (replayNet sampleCalls (fun _ => Env.zeros) (fun _ => .closed) tapes)
      (finished (fun p => (.ok (r p), Host.replaying p (e' p) .closed (unread p))) v) ∧
    Correct sampleCalls r ∧ ∀ p k, p ≠ .P2 → unread p k p = [] := by
  obtain ⟨⟨e2, rand, tapes, -, -, h⟩, -⟩ :=
    replay_equivalent sampleCalls (fun _ => Env.zeros) (fun _ => .closed) (fun _ _ => rfl)
  obtain ⟨r, e', unread, v, hsettles, hr, -, hend⟩ := h 3
  exact ⟨tapes 3, r, e', unread, v, hsettles, hr, hend (by decide)⟩

/-- A recording of `prog` by P2 returns, and P0 and P1 never throw a desync from its files. -/
def NeverDesyncs (prog : List Call) (e : Role → Env) (i : Role → IStream) : Prop :=
  ∃ r rec, (runCalls .P2 prog []).run (Host.recording (e .P2) [] .empty) = .ret (.ok r, rec) ∧
    ∀ n N, Steps Step n (replayNet prog e i rec.files) N →
      ∀ p k h, N.proc p ≠ .ret (.error (.runtimeError (Kind.desync k p)), h)

theorem not_neverDesyncs {rest : List Call} {p : Role}
    (hbefore : ∀ d ∈ prog, ∀ p, p ≠ .P2 → d.op.kind.ctr (e p) = d.op.kind.ctr (e .P2))
    (hp : p ≠ .P2) (hctr : c.op.kind.ctr (e p) ≠ c.op.kind.ctr (e .P2)) :
    ¬ NeverDesyncs (prog ++ c :: rest) e i := by
  rintro ⟨r, rec, hrec, hnever⟩
  obtain ⟨r2, rand', hrec'⟩ := record_calls (prog ++ c :: rest) [] (e .P2) [] .empty
  obtain rfl : _ = rec := by
    have h := hrec'.symm.trans hrec
    simp only [Proc.ret.injEq, Prod.mk.injEq] at h
    exact h.2
  obtain ⟨n, N, h, hN, hret⟩ := replay_reaches_desync (i := i) rfl hbefore hp hctr
  exact hnever n N hN p c.op.kind h hret

/-- A replay throws no desync exactly when the counters that the operations of the program
    use agree: those the constructors left at P0 and P1 with the one they left at P2. -/
theorem neverDesyncs_iff (prog : List Call) (e : Role → Env) (i : Role → IStream) :
    NeverDesyncs prog e i ↔
      ∀ c ∈ prog, ∀ p, p ≠ .P2 → c.op.kind.ctr (e p) = c.op.kind.ctr (e .P2) := by
  constructor
  · intro hnever
    by_contra hne
    obtain ⟨before, c, rest, rfl, hbefore, hc⟩ := split_at_first hne
    push Not at hc
    obtain ⟨p, hp, hctr⟩ := hc
    exact not_neverDesyncs hbefore hp hctr hnever
  · intro hctr
    obtain ⟨r2, rand', hrec⟩ := record_calls prog [] (e .P2) [] .empty
    obtain ⟨r, s, v, hrun, hr, -⟩ := replay_calls (i := i) (List.prefix_refl prog) hctr
    refine ⟨r2, _, hrec, ?_⟩
    intro n N hn p k h hp
    -- a party that has returned in some reachable state has returned what the run returns
    have hret := returns_of_settles hrun.settles hn hp
    simp at hret

/-- One multiplication, with `mul_ctr` 1 in P0's memory and 0 in P2's. -/
theorem replay_desyncs : ¬ NeverDesyncs [⟨.mul, fun _ _ => (3, 4)⟩]
    (tri { Env.zeros with mulCtr := 1 } Env.zeros Env.zeros) (fun _ => .closed) :=
  not_neverDesyncs (p := .P0) (fun d hd => absurd hd List.not_mem_nil) (by decide) (by decide)

end Mpc
