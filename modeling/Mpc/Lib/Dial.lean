import Mathlib.Logic.Function.Basic
import Mpc.Lib.Diamond

/- Processes that come up over sockets. A process runs a script of operations: it
   listens on a port, waits for a connection there, or connects to a port, again and
   again until somebody listens. `Op.act` is what an operation does to the sockets of
   its process and to its port. Where every port is listened on once and connected to
   once (`Once`), operations of different processes that can go on are about different
   ports, so they commute and one run that comes up speaks for all of them, however
   often connections are refused (`tries_come_up`). -/
namespace Dial
open Diamond

/-- An operation on ports of the type `A`. After an accept the acceptor may be closed. -/
inductive Op (A : Type) where
  | listen (a : A)
  | accept (a : A) (close : Bool)
  | connect (a : A)
  deriving DecidableEq

variable {P A : Type}

def Op.port : Op A → A
  | .listen a => a
  | .accept a _ => a
  | .connect a => a

/-- Every process's script and the other ends of its sockets, and for each port that is listened on the
    listener and the connections it has not accepted. -/
structure Hosts (P A : Type) where
  script : P → List (Op A)
  socks : P → List P
  port : A → Option (P × List P)

def start (script : P → List (Op A)) : Hosts P A := ⟨script, fun _ => [], fun _ => none⟩

variable [DecidableEq P] [DecidableEq A]

/-- The sockets of `p` and the port after an operation, when it can go on. A connection is made when
    somebody listens, whether or not it is accepted yet; a port that is taken cannot be listened on. -/
def Op.act (p : P) : Op A → List P → Option (P × List P) → Option (List P × Option (P × List P))
  | .listen _, socks, none => some (socks, some (p, []))
  | .accept _ close, socks, some (q, c :: backlog) =>
    if q = p then some (socks ++ [c], if close then none else some (q, backlog)) else none
  | .connect _, socks, some (q, backlog) => some (socks ++ [q], some (q, backlog ++ [p]))
  | _, _, _ => none

/-- The next operation of `p`, when it can go on. -/
def fire (p : P) (N : Hosts P A) : Option (Hosts P A) :=
  match N.script p with
  | [] => none
  | op :: ops => (op.act p (N.socks p) (N.port op.port)).map fun r =>
    ⟨Function.update N.script p ops, Function.update N.socks p r.1, Function.update N.port op.port r.2⟩

def Step (N N' : Hosts P A) : Prop := ∃ p, fire p N = some N'

theorem fire_op {p : P} {N : Hosts P A} {op : Op A} {ops : List (Op A)} (h : N.script p = op :: ops)
    {socks : List P} {port : Option (P × List P)}
    (hact : op.act p (N.socks p) (N.port op.port) = some (socks, port)) :
    fire p N = some ⟨Function.update N.script p ops, Function.update N.socks p socks,
      Function.update N.port op.port port⟩ := by
  simp only [fire, h, hact, Option.map_some]

theorem fire_cases {p : P} {N N' : Hosts P A} (h : fire p N = some N') :
    ∃ op ops socks port, N.script p = op :: ops ∧ op.act p (N.socks p) (N.port op.port) = some (socks, port) ∧
      N' = ⟨Function.update N.script p ops, Function.update N.socks p socks,
        Function.update N.port op.port port⟩ := by
  cases hs : N.script p with
  | nil => simp [fire, hs] at h
  | cons op ops =>
    cases hact : op.act p (N.socks p) (N.port op.port) with
    | none => simp [fire, hs, hact] at h
    | some r =>
      rw [fire_op hs hact] at h
      exact ⟨op, ops, r.1, r.2, rfl, hact, (Option.some.inj h).symm⟩

omit [DecidableEq A] in
/-- What an operation needs: a free port, an own port with a connection, or a port with a listener. -/
theorem act_cases {p : P} {op : Op A} {socks s : List P} {port r : Option (P × List P)}
    (h : op.act p socks port = some (s, r)) :
    (∃ a, op = .listen a ∧ port = none ∧ s = socks ∧ r = some (p, [])) ∨
    (∃ a close c backlog, op = .accept a close ∧ port = some (p, c :: backlog) ∧ s = socks ++ [c] ∧
      (r = none ∨ r = some (p, backlog))) ∨
    ∃ a q backlog, op = .connect a ∧ port = some (q, backlog) ∧ s = socks ++ [q] ∧
      r = some (q, backlog ++ [p]) := by
  cases op with
  | listen a =>
    cases port with
    | none =>
      cases h
      exact .inl ⟨a, rfl, rfl, rfl, rfl⟩
    | some port => cases h
  | accept a close =>
    cases port with
    | none => cases h
    | some port =>
      obtain ⟨q, backlog⟩ := port
      cases backlog with
      | nil => cases h
      | cons c backlog =>
        by_cases hq : q = p
        · subst hq
          simp only [Op.act, if_true, Option.some.injEq, Prod.mk.injEq] at h
          obtain ⟨rfl, rfl⟩ := h
          refine .inr (.inl ⟨a, close, c, backlog, rfl, rfl, rfl, ?_⟩)
          cases close
          · exact .inr rfl
          · exact .inl rfl
        · simp [Op.act, hq] at h
  | connect a =>
    cases port with
    | none => cases h
    | some port =>
      cases h
      exact .inr (.inr ⟨a, port.1, port.2, rfl, rfl, rfl, rfl⟩)

/-! Ports that are used once. -/

/-- No port is listened on by two processes or connected to twice, and none that has a connection
    waiting is connected to again. -/
structure Once (N : Hosts P A) : Prop where
  listens : ∀ p p' a, .listen a ∈ N.script p → .listen a ∈ N.script p' → p = p'
  connects : ∀ p p' a, .connect a ∈ N.script p → .connect a ∈ N.script p' → p = p'
  connect : ∀ p a, (N.script p).count (.connect a) ≤ 1
  waiting : ∀ a q c backlog, N.port a = some (q, c :: backlog) → ∀ p, .connect a ∉ N.script p

omit [DecidableEq A] in
/-- Scripts only get shorter. -/
theorem script_subset {p : P} {N : Hosts P A} {op : Op A} {ops : List (Op A)} (h : N.script p = op :: ops)
    (p' : P) : Function.update N.script p ops p' <:+ N.script p' := by
  by_cases hp : p' = p
  · subst hp
    rw [Function.update_self, h]
    exact List.suffix_cons op ops
  · have hsame : Function.update N.script p ops p' = N.script p' := Function.update_of_ne hp _ _
    exact hsame ▸ List.suffix_rfl

theorem Once.step {N N' : Hosts P A} (h : Once N) (hs : Step N N') : Once N' := by
  obtain ⟨p, hp⟩ := hs
  obtain ⟨op, ops, socks, port, hscript, hact, rfl⟩ := fire_cases hp
  have hsub : ∀ {p' op'}, op' ∈ Function.update N.script p ops p' → op' ∈ N.script p' :=
    fun hmem => (script_subset hscript _).subset hmem
  refine ⟨fun p₁ p₂ a h₁ h₂ => h.listens p₁ p₂ a (hsub h₁) (hsub h₂),
    fun p₁ p₂ a h₁ h₂ => h.connects p₁ p₂ a (hsub h₁) (hsub h₂), fun p' a => ?_, ?_⟩
  · exact Nat.le_trans ((script_subset hscript p').sublist.count_le _) (h.connect p' a)
  · intro a q c backlog hport p' hmem
    have hmem' : .connect a ∈ N.script p' := hsub hmem
    have hport' : Function.update N.port op.port port a = some (q, c :: backlog) := hport
    by_cases ha : a = op.port
    · subst ha
      rw [Function.update_self] at hport'
      subst hport'
      obtain ⟨a, rfl, -, -, hr⟩ | ⟨a, close, c', backlog', rfl, hold, -, hr⟩ | ⟨a, q', backlog', rfl, hold, -, hr⟩ :=
        act_cases hact
      · simp at hr
      · exact h.waiting a p c' backlog' hold p' hmem'
      · -- the one connection to the port is the one that `p` has just made
        have hp' : p' = p := h.connects p' p a hmem' (by rw [hscript]; exact List.mem_cons_self)
        subst hp'
        have hcount := h.connect p' a
        rw [hscript, List.count_cons_self] at hcount
        have htail : .connect a ∈ ops := by
          have hmem'' : .connect a ∈ Function.update N.script p' ops p' := hmem
          rwa [Function.update_self] at hmem''
        have hpos : 0 < ops.count (.connect a) := List.count_pos_iff.mpr htail
        omega
    · rw [Function.update_of_ne ha] at hport'
      exact h.waiting a q c backlog hport' p' hmem'

/-- Two processes that can go on are at different ports. -/
theorem Once.ports_ne {N : Hosts P A} (h : Once N) {p p' : P} (hpp : p ≠ p') {op op' : Op A}
    {ops ops' : List (Op A)} {s s' : List P} {r r' : Option (P × List P)} (hs : N.script p = op :: ops)
    (hs' : N.script p' = op' :: ops') (hact : op.act p (N.socks p) (N.port op.port) = some (s, r))
    (hact' : op'.act p' (N.socks p') (N.port op'.port) = some (s', r')) : op.port ≠ op'.port := by
  intro hport
  have hmem : op ∈ N.script p := by
    rw [hs]
    exact List.mem_cons_self
  have hmem' : op' ∈ N.script p' := by
    rw [hs']
    exact List.mem_cons_self
  rw [← hport] at hact'
  obtain ⟨a, rfl, hold, -, -⟩ | ⟨a, close, c, backlog, rfl, hold, -, -⟩ | ⟨a, q, backlog, rfl, hold, -, -⟩ :=
    act_cases hact <;>
  obtain ⟨a', rfl, hold', -, -⟩ | ⟨a', close', c', backlog', rfl, hold', -, -⟩ |
    ⟨a', q', backlog', rfl, hold', -, -⟩ := act_cases hact'
  all_goals
    have ha : a = a' := hport
    subst ha
    have hboth := hold.symm.trans hold'
  -- both listen, both accept, one connects to a waiting port, both connect; else the port is free and taken
  · exact hpp (h.listens p p' a hmem hmem')
  · cases hboth
  · cases hboth
  · cases hboth
  · exact hpp (Prod.mk.inj (Option.some.inj hboth)).1
  · exact h.waiting a p c backlog hold p' hmem'
  · cases hboth
  · exact h.waiting a p' c' backlog' hold' p hmem
  · exact hpp (h.connects p p' a hmem hmem')

theorem closes : Closes fun N N' : Hosts P A => Once N ∧ Step N N' := by
  rintro N N₁ N₂ ⟨h, p, h₁⟩ ⟨-, p', h₂⟩
  by_cases hpp : p = p'
  · subst hpp
    exact .inl (Option.some.inj (h₁.symm.trans h₂))
  · obtain ⟨op, ops, s, r, hs, hact, rfl⟩ := fire_cases h₁
    obtain ⟨op', ops', s', r', hs', hact', rfl⟩ := fire_cases h₂
    have hport : op.port ≠ op'.port := h.ports_ne hpp hs hs' hact hact'
    refine .inr ⟨⟨Function.update (Function.update N.script p ops) p' ops',
      Function.update (Function.update N.socks p s) p' s',
      Function.update (Function.update N.port op.port r) op'.port r'⟩, ⟨h.step ⟨p, h₁⟩, p', ?_⟩, h.step ⟨p', h₂⟩, p, ?_⟩
    · refine fire_op ((Function.update_of_ne (Ne.symm hpp) _ _).trans hs') ?_
      show op'.act p' (Function.update N.socks p s p') (Function.update N.port op.port r op'.port) = _
      rw [Function.update_of_ne (Ne.symm hpp), Function.update_of_ne (Ne.symm hport), hact']
    · rw [Function.update_comm hpp, Function.update_comm hpp, Function.update_comm hport]
      refine fire_op ((Function.update_of_ne hpp _ _).trans hs) ?_
      show op.act p (Function.update N.socks p' s' p) (Function.update N.port op'.port r' op.port) = _
      rw [Function.update_of_ne hpp, Function.update_of_ne hport, hact]

omit [DecidableEq P] in
theorem once_start {script : P → List (Op A)}
    (hlisten : ∀ p p' a, .listen a ∈ script p → .listen a ∈ script p' → p = p')
    (hconnect : ∀ p p' a, .connect a ∈ script p → .connect a ∈ script p' → p = p')
    (hcount : ∀ p a, (script p).count (.connect a) ≤ 1) : Once (start script) :=
  ⟨hlisten, hconnect, hcount, fun _ _ _ _ h => (by cases h)⟩

theorem settles {N F : Hosts P A} (h : Once N) {n : Nat} (hrun : Steps Step n N F) (hF : Stuck Step F) :
    Settles Step N F :=
  settles_of_run_within (fun _ _ hN hs => hN.step hs) closes h hrun hF

/-- Sockets stay. -/
theorem socks_prefix {n : Nat} {N N' : Hosts P A} (h : Steps Step n N N') (p : P) :
    N.socks p <+: N'.socks p := by
  induction h with
  | refl N => exact List.prefix_rfl
  | @head _ s _ _ hs _ ih =>
    refine List.IsPrefix.trans ?_ ih
    obtain ⟨p', hp'⟩ := hs
    obtain ⟨op, ops, socks, port, -, hact, rfl⟩ := fire_cases hp'
    show s.socks p <+: Function.update s.socks p' socks p
    by_cases hp : p = p'
    · subst hp
      rw [Function.update_self]
      obtain ⟨-, -, -, rfl, -⟩ | ⟨-, -, -, -, -, -, rfl, -⟩ | ⟨-, -, -, -, -, rfl, -⟩ := act_cases hact
      · exact List.prefix_rfl
      · exact List.prefix_append _ _
      · exact List.prefix_append _ _
    · have hsame : Function.update s.socks p' socks p = s.socks p := Function.update_of_ne hp _ _
      exact hsame ▸ List.prefix_rfl

/-! Refused connections. -/

/-- A step of processes that try again. A connection to a port that nobody listens on is refused; the
    process counts its attempts and tries again, unless it gives up. -/
inductive Try (givesUp : Nat → Bool) : Hosts P A × (P → Nat) → Hosts P A × (P → Nat) → Prop where
  | act {N N' : Hosts P A} {t : P → Nat} {p : P} (h : fire p N = some N') :
      Try givesUp (N, t) (N', Function.update t p 0)
  | refused {N : Hosts P A} {t : P → Nat} {p : P} {a : A} {ops : List (Op A)}
      (hs : N.script p = .connect a :: ops) (hport : N.port a = none) (h : givesUp (t p + 1) = false) :
      Try givesUp (N, t) (N, Function.update t p (t p + 1))

/-- A run of attempts is a run of the operations that went on. -/
theorem tries_steps {givesUp : Nat → Bool} {n : Nat} {s s' : Hosts P A × (P → Nat)}
    (h : Steps (Try givesUp) n s s') : ∃ m, Steps Step m s.1 s'.1 := by
  induction h with
  | refl s => exact ⟨0, .refl s.1⟩
  | head hs _ ih =>
    obtain ⟨m, hm⟩ := ih
    cases hs with
    | act h => exact ⟨m + 1, .head ⟨_, h⟩ hm⟩
    | refused hs hport h => exact ⟨m, hm⟩

/-- Processes of which one run comes up. In every state that attempts lead to, what is missing to come
    up is a run without refusals, every process's sockets are the first of those it comes up with, and
    nothing can happen any more exactly when all have come up. -/
theorem tries_come_up {givesUp : Nat → Bool} {N F : Hosts P A} (h : Once N) {k : Nat} (hrun : Steps Step k N F)
    (hF : ∀ p, F.script p = []) {n : Nat} {t t' : P → Nat} {N' : Hosts P A}
    (htries : Steps (Try givesUp) n (N, t) (N', t')) :
    (∃ m, m ≤ k ∧ Steps Step m N' F) ∧ (∀ p, N'.socks p <+: F.socks p) ∧
      (Stuck (Try givesUp) (N', t') ↔ N' = F) := by
  have hstuck : Stuck Step F := by
    rintro F' ⟨p, hp⟩
    simp [fire, hF p] at hp
  have hset := settles h hrun hstuck
  obtain ⟨m, hm⟩ := tries_steps htries
  obtain ⟨k', -, -, hall⟩ := settles h hrun hstuck
  -- runs that come up are equally long
  have hk : k' - k = 0 := by
    obtain ⟨-, hrest⟩ := hall k F hrun
    generalize k' - k = j at hrest
    cases hrest with
    | refl => rfl
    | head hs _ => exact absurd hs (hstuck _)
  obtain ⟨-, hrest⟩ := hall m N' hm
  refine ⟨⟨k' - m, by omega, hrest⟩, socks_prefix hrest, ?_, ?_⟩
  · intro hend
    refine hset.stuck_eq hm ?_
    rintro N'' ⟨p, hp⟩
    exact hend _ (.act hp)
  · rintro rfl s' hs
    cases hs with
    | act hp => exact hstuck _ ⟨_, hp⟩
    | refused hs hport _ => cases (hF _).symm.trans hs

end Dial
