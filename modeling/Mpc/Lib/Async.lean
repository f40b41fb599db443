import Mpc.Lib.Fifo

/- Coroutines that await several operands at once, on reliable FIFO byte streams. A
   task awaits a list of operands, each a sequence of writes to one party or of reads
   from one party; a step is one write or one read of any operand (`Step`), and the task
   goes on when all its operands are done. A step is in order when no earlier operand of
   the list still uses the same stream at the same end (`OrderedStep`). Steps in order
   close (`orderedStep_closes`), and one schedule of them runs the operands one after
   the other (`Task.seq`), so a network whose sequential form has a complete run settles
   in that run's results under every schedule in order (`settles_of_seq`). -/
namespace Async
open Diamond Fifo

/-- The reads to come, given what was read before, and the value they end with. -/
inductive Reader (A V : Type) where
  | done (v : V)
  | read (n : Nat) (k : List A → Reader A V)

/-- What is left of one operand: writes to `q`, which end with `v`, or reads from `q`. -/
inductive Operand (P A V : Type) where
  | writes (q : P) (ms : List (List A)) (v : V)
  | reads (q : P) (r : Reader A V)

/-- A coroutine: it returns, or awaits all of `ops` and goes on with their values. -/
inductive Task (P A V β : Type) where
  | ret (b : β)
  | all (ops : List (Operand P A V)) (k : List V → Task P A V β)

section
variable {P A V β : Type}

namespace Operand

/-- The other end of the operand's stream, and whether the operand writes to it. -/
def port : Operand P A V → P × Bool
  | writes q _ _ => (q, true)
  | reads q _ => (q, false)

/-- The value of a finished operand. -/
def value : Operand P A V → Option V
  | writes _ [] v => some v
  | writes _ (_ :: _) _ => none
  | reads _ (.done v) => some v
  | reads _ (.read _ _) => none

end Operand

/-- The operands' values, when all are finished. -/
def values : List (Operand P A V) → Option (List V)
  | [] => some []
  | o :: ops => o.value.bind fun v => (values ops).map fun vs => v :: vs

/-- A task past the operands that are already finished. -/
def Task.resume : Task P A V β → Task P A V β
  | .ret b => .ret b
  | .all ops k =>
    match values ops with
    | some vs => (k vs).resume
    | none => .all ops k

def Task.result : Task P A V β → Option β
  | .ret b => some b
  | .all _ _ => none

theorem Task.result_eq_some {t : Task P A V β} {b : β} : t.result = some b ↔ t = .ret b := by
  cases t with
  | ret b' => simp [Task.result]
  | all ops k => simp [Task.result]

theorem resume_all {ops : List (Operand P A V)} (k : List V → Task P A V β) (h : values ops = none) :
    (Task.all ops k).resume = .all ops k := by
  rw [Task.resume, h]

theorem resume_resume (t : Task P A V β) : t.resume.resume = t.resume := by
  induction t with
  | ret b => rfl
  | all ops k ih =>
    cases h : values ops with
    | some vs =>
      rw [Task.resume, h]
      exact ih vs
    | none => rw [resume_all k h, resume_all k h]

theorem values_eq_none_of_mem {ops : List (Operand P A V)} {o : Operand P A V} (h : o ∈ ops)
    (ho : o.value = none) : values ops = none := by
  induction ops with
  | nil => exact absurd h List.not_mem_nil
  | cons o' ops ih =>
    rcases List.mem_cons.mp h with rfl | h
    · rw [values, ho]
      rfl
    · rw [values, ih h]
      cases o'.value <;> rfl

end

/-! Networks. -/

structure Net (P A V β : Type) where
  task : P → Task P A V β
  chan : P → P → List A

section
variable {P A V β : Type} [DecidableEq P]

/-- The next write or read of an operand of `p`, when it can take place. -/
def Operand.step (p : P) (c : P → P → List A) : Operand P A V → Option (Operand P A V × (P → P → List A))
  | .writes _ [] _ => none
  | .writes q (m :: ms) v => some (.writes q ms v, setChan c p q (c p q ++ m))
  | .reads _ (.done _) => none
  | .reads q (.read n k) =>
    if n ≤ (c q p).length then
      some (.reads q (k ((c q p).take n)), setChan c q p ((c q p).drop n))
    else none

/-- A step of operand `j` of party `p`, when it can take one. -/
def fire (p : P) (j : Nat) (N : Net P A V β) : Option (Net P A V β) :=
  match N.task p with
  | .ret _ => none
  | .all ops k => ops[j]?.bind fun o => (o.step p N.chan).map fun r =>
      ⟨Function.update N.task p (Task.all (ops.set j r.1) k).resume, r.2⟩

/-- Some operand takes a step. -/
def Step (N N' : Net P A V β) : Prop := ∃ p j, fire p j N = some N'

/-- No earlier operand of `p` still uses operand `j`'s end of its stream. -/
def InOrder (p : P) (j : Nat) (N : Net P A V β) : Prop :=
  ∀ ops k, N.task p = .all ops k → ∀ i o o', i < j → ops[i]? = some o → ops[j]? = some o' →
    o.port = o'.port → o.value ≠ none

/-- An operand takes a step in order. -/
def OrderedStep (N N' : Net P A V β) : Prop := ∃ p j, InOrder p j N ∧ fire p j N = some N'

theorem fire_cases {p : P} {j : Nat} {N N' : Net P A V β} (h : fire p j N = some N') :
    ∃ ops k o o' c, N.task p = .all ops k ∧ ops[j]? = some o ∧ o.step p N.chan = some (o', c) ∧
      N' = ⟨Function.update N.task p (Task.all (ops.set j o') k).resume, c⟩ := by
  unfold fire at h
  cases ht : N.task p with
  | ret b => rw [ht] at h; simp at h
  | all ops k =>
    rw [ht] at h
    simp only [Option.bind_eq_some_iff, Option.map_eq_some_iff] at h
    obtain ⟨o, ho, ⟨o', c⟩, hstep, rfl⟩ := h
    exact ⟨ops, k, o, o', c, rfl, ho, hstep, rfl⟩

theorem fire_all {p : P} {j : Nat} {N : Net P A V β} {ops : List (Operand P A V)}
    {k : List V → Task P A V β} {o o' : Operand P A V} {c : P → P → List A}
    (ht : N.task p = .all ops k) (ho : ops[j]? = some o) (hstep : o.step p N.chan = some (o', c)) :
    fire p j N = some ⟨Function.update N.task p (Task.all (ops.set j o') k).resume, c⟩ := by
  simp only [fire, ht, ho, hstep, Option.bind_some, Option.map_some]

end

/-! Steps in order close. -/

section
variable {P A V β : Type} [DecidableEq P] {p p' : P} {c c₁ c₂ : P → P → List A}
  {o o' o₁ o₂ : Operand P A V}

theorem Operand.step_cases (h : o.step p c = some (o₁, c₁)) :
    (∃ q m ms v, o = .writes q (m :: ms) v ∧ o₁ = .writes q ms v ∧ c₁ = setChan c p q (c p q ++ m)) ∨
    (∃ q n k, o = .reads q (.read n k) ∧ n ≤ (c q p).length ∧ o₁ = .reads q (k ((c q p).take n)) ∧
      c₁ = setChan c q p ((c q p).drop n)) := by
  match o with
  | .writes q [] v => simp [Operand.step] at h
  | .writes q (m :: ms) v =>
    simp only [Operand.step, Option.some.injEq, Prod.mk.injEq] at h
    exact .inl ⟨q, m, ms, v, rfl, h.1.symm, h.2.symm⟩
  | .reads q (.done v) => simp [Operand.step] at h
  | .reads q (.read n k) =>
    simp only [Operand.step] at h
    split at h
    · next hn =>
      simp only [Option.some.injEq, Prod.mk.injEq] at h
      exact .inr ⟨q, n, k, rfl, hn, h.1.symm, h.2.symm⟩
    · simp at h

theorem Operand.step_value (h : o.step p c = some (o₁, c₁)) : o.value = none := by
  rcases Operand.step_cases h with ⟨q, m, ms, v, rfl, -, -⟩ | ⟨q, n, k, rfl, -, -, -⟩
  · rfl
  · rfl

theorem Operand.step_port (h : o.step p c = some (o₁, c₁)) : o₁.port = o.port := by
  rcases Operand.step_cases h with ⟨q, m, ms, v, rfl, rfl, -⟩ | ⟨q, n, k, rfl, -, rfl, -⟩
  · rfl
  · rfl

theorem Operand.step_read {q : P} {n : Nat} {k : List A → Reader A V} (hn : n ≤ (c q p).length) :
    (Operand.reads q (.read n k)).step p c =
      some (.reads q (k ((c q p).take n)), setChan c q p ((c q p).drop n)) := if_pos hn

/-- A write and a read, also of one stream. -/
theorem write_read_comm {q q' : P} (m : List A) (ms : List (List A)) (v : V) {n : Nat}
    {k : List A → Reader A V}
    (hn : n ≤ (c q' p').length) :
    ∃ c', (Operand.reads q' (.read n k)).step p' (setChan c p q (c p q ++ m)) =
        some (.reads q' (k ((c q' p').take n)), c') ∧
      (Operand.writes q (m :: ms) v).step p (setChan c q' p' ((c q' p').drop n)) =
        some (.writes q ms v, c') := by
  by_cases hs : q' = p ∧ p' = q
  · obtain ⟨rfl, rfl⟩ := hs
    have h1 : setChan c q' p' (c q' p' ++ m) q' p' = c q' p' ++ m := by
      rw [setChan_apply, if_pos ⟨rfl, rfl⟩]
    have h2 : setChan c q' p' ((c q' p').drop n) q' p' = (c q' p').drop n := by
      rw [setChan_apply, if_pos ⟨rfl, rfl⟩]
    refine ⟨setChan c q' p' ((c q' p').drop n ++ m), ?_, ?_⟩
    · rw [Operand.step_read (by rw [h1, List.length_append]; omega), h1,
        List.take_append_of_le_length hn, List.drop_append_of_le_length hn, setChan_setChan]
    · rw [Operand.step, h2, setChan_setChan]
  · have h1 : setChan c p q (c p q ++ m) q' p' = c q' p' := by
      rw [setChan_apply, if_neg hs]
    have h2 : setChan c q' p' ((c q' p').drop n) p q = c p q := by
      rw [setChan_apply, if_neg (fun h => hs ⟨h.1.symm, h.2.symm⟩)]
    refine ⟨setChan (setChan c p q (c p q ++ m)) q' p' ((c q' p').drop n), ?_, ?_⟩
    · rw [Operand.step_read (by rw [h1]; exact hn), h1]
    · rw [Operand.step, h2, setChan_comm c _ _ fun h => hs ⟨h.1.symm, h.2.symm⟩]

/-- Steps of operands at different ends of streams. -/
theorem Operand.step_comm (h : o.step p c = some (o₁, c₁)) (h' : o'.step p' c = some (o₂, c₂))
    (hne : ¬ (p = p' ∧ o.port = o'.port)) :
    ∃ c', o'.step p' c₁ = some (o₂, c') ∧ o.step p c₂ = some (o₁, c') := by
  rcases Operand.step_cases h with ⟨q, m, ms, v, rfl, rfl, rfl⟩ | ⟨q, n, k, rfl, hn, rfl, rfl⟩ <;>
    rcases Operand.step_cases h' with ⟨q', m', ms', v', rfl, rfl, rfl⟩ | ⟨q', n', k', rfl, hn', rfl, rfl⟩
  · have hs : ¬ (p = p' ∧ q = q') := fun h => hne ⟨h.1, by rw [Operand.port, Operand.port, h.2]⟩
    have h1 : setChan c p q (c p q ++ m) p' q' = c p' q' := by
      rw [setChan_apply, if_neg (fun h => hs ⟨h.1.symm, h.2.symm⟩)]
    have h2 : setChan c p' q' (c p' q' ++ m') p q = c p q := by
      rw [setChan_apply, if_neg hs]
    simp only [Operand.step, h1, h2]
    exact ⟨_, rfl, by rw [setChan_comm c _ _ hs]⟩
  · exact write_read_comm m ms v hn'
  · obtain ⟨c', hread, hwrite⟩ := write_read_comm (p := p') (q := q') m' ms' v' hn
    exact ⟨c', hwrite, hread⟩
  · have hs : ¬ (q = q' ∧ p = p') := fun h => hne ⟨h.2, by rw [Operand.port, Operand.port, h.1]⟩
    have h1 : setChan c q p ((c q p).drop n) q' p' = c q' p' := by
      rw [setChan_apply, if_neg (fun h => hs ⟨h.1.symm, h.2.symm⟩)]
    have h2 : setChan c q' p' ((c q' p').drop n') q p = c q p := by
      rw [setChan_apply, if_neg hs]
    simp only [Operand.step, h1, h2, if_pos hn, if_pos hn']
    exact ⟨_, rfl, by rw [setChan_comm c _ _ hs]⟩

omit [DecidableEq P] in
/-- A task one of whose operands is unfinished waits. -/
theorem resume_waits {ops : List (Operand P A V)} (k : List V → Task P A V β) {j : Nat}
    (ho : ops[j]? = some o) (hv : o.value = none) : (Task.all ops k).resume = .all ops k :=
  resume_all k (values_eq_none_of_mem (List.mem_of_getElem? ho) hv)

/-- Two operands of one party, at different ends of streams, can step in either order. -/
theorem fire_self {i j : Nat} {N N₁ N₂ : Net P A V β} (hij : i < j) (hj : InOrder p j N)
    (h₁ : fire p i N = some N₁) (h₂ : fire p j N = some N₂) :
    ∃ N', fire p j N₁ = some N' ∧ fire p i N₂ = some N' := by
  obtain ⟨ops, k, a, a', ca, ht, ha, hstep, rfl⟩ := fire_cases h₁
  obtain ⟨ops', k', b, b', cb, ht', hb, hstep', rfl⟩ := fire_cases h₂
  obtain ⟨rfl, rfl⟩ : ops = ops' ∧ k = k' := by simpa using ht.symm.trans ht'
  have hport : ¬ (p = p ∧ a.port = b.port) :=
    fun h => hj ops k ht i a b hij ha hb h.2 (Operand.step_value hstep)
  obtain ⟨c', hb', ha'⟩ := Operand.step_comm hstep hstep' hport
  have hbi : (ops.set i a')[j]? = some b := by rw [List.getElem?_set_ne (by omega), hb]
  have haj : (ops.set j b')[i]? = some a := by rw [List.getElem?_set_ne (by omega), ha]
  have hwaits₁ := resume_waits k hbi (Operand.step_value hstep')
  have hwaits₂ := resume_waits k haj (Operand.step_value hstep)
  refine ⟨_, fire_all ((Function.update_self p _ N.task).trans hwaits₁) hbi hb', ?_⟩
  rw [fire_all ((Function.update_self p _ N.task).trans hwaits₂) haj ha', List.set_comm _ _ (by omega),
    Function.update_idem, Function.update_idem]

/-- Steps of two parties. -/
theorem fire_other (hp : p ≠ p') {i j : Nat} {N N₁ N₂ : Net P A V β} (h₁ : fire p i N = some N₁)
    (h₂ : fire p' j N = some N₂) : ∃ N', fire p' j N₁ = some N' ∧ fire p i N₂ = some N' := by
  obtain ⟨ops, k, a, a', ca, ht, ha, hstep, rfl⟩ := fire_cases h₁
  obtain ⟨ops', k', b, b', cb, ht', hb, hstep', rfl⟩ := fire_cases h₂
  obtain ⟨c', hb', ha'⟩ := Operand.step_comm hstep hstep' (fun h => hp h.1)
  refine ⟨_, fire_all ((Function.update_of_ne hp.symm _ _).trans ht') hb hb', ?_⟩
  rw [fire_all ((Function.update_of_ne hp _ _).trans ht) ha ha', Function.update_comm hp]

/-- A step of another party keeps a step in order. -/
theorem inOrder_other (hp : p ≠ p') {i j : Nat} {N N' : Net P A V β} (hi : InOrder p i N)
    (h : fire p' j N = some N') : InOrder p i N' := by
  obtain ⟨ops, k, a, a', c, -, -, -, rfl⟩ := fire_cases h
  intro ops' k' ht
  exact hi ops' k' ((Function.update_of_ne hp _ _).symm.trans ht)

/-- A step of another operand keeps a step in order. -/
theorem inOrder_self {i j : Nat} {N N' N₂ : Net P A V β} (hij : i ≠ j) (hi : InOrder p i N)
    (h : fire p j N = some N') (h₂ : fire p i N = some N₂) : InOrder p i N' := by
  obtain ⟨ops, k, a, a', c, ht, ha, hstep, rfl⟩ := fire_cases h
  obtain ⟨ops', k', b, b', cb, ht', hb, hstep', -⟩ := fire_cases h₂
  obtain ⟨rfl, rfl⟩ : ops = ops' ∧ k = k' := by simpa using ht.symm.trans ht'
  have hbj : (ops.set j a')[i]? = some b := by rw [List.getElem?_set_ne (by omega), hb]
  intro ops' k' ht' l o o' hl ho ho' hport
  have hwaits := (Function.update_self p _ N.task).trans (resume_waits k hbj (Operand.step_value hstep'))
  obtain ⟨rfl, rfl⟩ : ops.set j a' = ops' ∧ k = k' := by simpa using hwaits.symm.trans ht'
  rw [hbj, Option.some.injEq] at ho'
  subst ho'
  by_cases hlj : l = j
  · -- operand `j` has stepped, so it was not at the end of `i`'s stream
    subst hlj
    rw [List.getElem?_set_self (List.getElem?_eq_some_iff.mp ha).1, Option.some.injEq] at ho
    subst ho
    rw [Operand.step_port hstep] at hport
    exact absurd (Operand.step_value hstep) (hi ops k ht l a b hl ha hb hport)
  · rw [List.getElem?_set_ne (Ne.symm hlj)] at ho
    exact hi ops k ht l o b hl ho hb hport

theorem orderedStep_closes : Closes (OrderedStep (P := P) (A := A) (V := V) (β := β)) := by
  rintro N N₁ N₂ ⟨p, i, hi, h₁⟩ ⟨p', j, hj, h₂⟩
  by_cases hp : p = p'
  · subst hp
    rcases Nat.lt_trichotomy i j with hij | rfl | hij
    · obtain ⟨N', h, h'⟩ := fire_self hij hj h₁ h₂
      exact .inr ⟨N', ⟨p, j, inOrder_self (by omega) hj h₁ h₂, h⟩,
        ⟨p, i, inOrder_self (by omega) hi h₂ h₁, h'⟩⟩
    · exact .inl (Option.some.inj (h₁.symm.trans h₂))
    · obtain ⟨N', h, h'⟩ := fire_self hij hi h₂ h₁
      exact .inr ⟨N', ⟨p, j, inOrder_self (by omega) hj h₁ h₂, h'⟩,
        ⟨p, i, inOrder_self (by omega) hi h₂ h₁, h⟩⟩
  · obtain ⟨N', h, h'⟩ := fire_other hp h₁ h₂
    exact .inr ⟨N', ⟨p', j, inOrder_other (Ne.symm hp) hj h₁, h⟩, ⟨p, i, inOrder_other hp hi h₂, h'⟩⟩

end

/-! The operands one after the other. -/

section
variable {P A V β : Type}

def Reader.seq (q : P) : Reader A V → (V → Proc P A β) → Proc P A β
  | .done v, f => f v
  | .read n k, f => .recv q n fun l => (k l).seq q f

def Operand.seq : Operand P A V → (V → Proc P A β) → Proc P A β
  | .writes q ms v, f => .sends (ms.map (q, ·)) (f v)
  | .reads q r, f => r.seq q f

def seqAll : List (Operand P A V) → (List V → Proc P A β) → Proc P A β
  | [], f => f []
  | o :: ops, f => o.seq fun v => seqAll ops fun vs => f (v :: vs)

/-- The task with the operands of every list run in their order. -/
def Task.seq : Task P A V β → Proc P A β
  | .ret b => .ret b
  | .all ops k => seqAll ops fun vs => (k vs).seq

theorem Operand.seq_value {o : Operand P A V} {v : V} (h : o.value = some v)
    (f : V → Proc P A β) : o.seq f = f v := by
  match o with
  | .writes q [] v' => rw [← Option.some.inj h]; rfl
  | .writes q (m :: ms) v' => exact absurd h (by simp [Operand.value])
  | .reads q (.done v') => rw [← Option.some.inj h]; rfl
  | .reads q (.read n k) => exact absurd h (by simp [Operand.value])

theorem seqAll_append {ds : List (Operand P A V)} {vs : List V} (h : values ds = some vs)
    (ops : List (Operand P A V)) (f : List V → Proc P A β) :
    seqAll (ds ++ ops) f = seqAll ops fun ws => f (vs ++ ws) := by
  induction ds generalizing vs f with
  | nil =>
    obtain rfl : [] = vs := by simpa [values] using h
    rfl
  | cons d ds ih =>
    simp only [values, Option.bind_eq_some_iff, Option.map_eq_some_iff] at h
    obtain ⟨v, hv, vs', hvs, rfl⟩ := h
    rw [List.cons_append, seqAll, Operand.seq_value hv, ih hvs]
    rfl

theorem seq_resume (t : Task P A V β) : t.resume.seq = t.seq := by
  induction t with
  | ret b => rfl
  | all ops k ih =>
    cases h : values ops with
    | none => rw [resume_all k h]
    | some vs =>
      rw [Task.resume, h]
      have hall := seqAll_append h [] fun ws => (k ws).seq
      simp only [List.append_nil, seqAll] at hall
      exact (ih vs).trans hall.symm

/-- The operands before the first unfinished one. -/
theorem values_eq_none {ops : List (Operand P A V)} (h : values ops = none) :
    ∃ ds vs o rest, ops = ds ++ o :: rest ∧ values ds = some vs ∧ o.value = none := by
  induction ops with
  | nil => simp [values] at h
  | cons o ops ih =>
    cases ho : o.value with
    | none => exact ⟨[], [], o, ops, rfl, rfl, ho⟩
    | some v =>
      have hops : values ops = none := by simpa [values, ho] using h
      obtain ⟨ds, vs, o', rest, rfl, hds, ho'⟩ := ih hops
      exact ⟨o :: ds, v :: vs, o', rest, rfl, by simp [values, ho, hds], ho'⟩

theorem resume_eq_all {t : Task P A V β} {ops : List (Operand P A V)} {k : List V → Task P A V β}
    (h : t.resume = .all ops k) : values ops = none := by
  induction t with
  | ret b => simp [Task.resume] at h
  | all ops' k' ih =>
    cases hv : values ops' with
    | some vs =>
      rw [Task.resume, hv] at h
      exact ih vs h
    | none =>
      rw [resume_all k' hv, Task.all.injEq] at h
      exact h.1 ▸ hv

end

section
variable {P A V β : Type} [DecidableEq P]

/-- Every task resumed, at the start; every stream empty. -/
def start (t : P → Task P A V β) : Net P A V β := ⟨fun p => (t p).resume, fun _ _ => []⟩

/-- Every party has returned and every stream is empty. -/
def finished (r : P → β) : Net P A V β := ⟨fun p => .ret (r p), fun _ _ => []⟩

theorem finished_stuck (r : P → β) : Stuck OrderedStep (finished (A := A) (V := V) r) := by
  rintro N ⟨p, j, -, h⟩
  simp [fire, finished] at h

/-- `M` is `N` with the operands of every list in their order. -/
structure Matches (M : Fifo.Net P A β) (N : Net P A V β) : Prop where
  proc : ∀ p, M.proc p = (N.task p).seq
  resumed : ∀ p, (N.task p).resume = N.task p
  chan : M.chan = N.chan

omit [DecidableEq P] in
theorem start_matches (t : P → Task P A V β) : Matches (Fifo.start fun p => (t p).seq) (start t) where
  proc p := (seq_resume (t p)).symm
  resumed p := resume_resume (t p)
  chan := rfl

omit [DecidableEq P] in
/-- A task that waits is at the first unfinished operand of its list. -/
theorem seq_waits {t : Task P A V β} {ops : List (Operand P A V)} {k : List V → Task P A V β}
    (h : t.resume = .all ops k) :
    ∃ ds o rest, ∃ f : V → Proc P A β, ops = ds ++ o :: rest ∧ (∀ d ∈ ds, d.value ≠ none) ∧
      o.value = none ∧ ∀ o', (Task.all (ds ++ o' :: rest) k).seq = o'.seq f := by
  obtain ⟨ds, vs, o, rest, rfl, hds, ho⟩ := values_eq_none (resume_eq_all h)
  refine ⟨ds, o, rest, fun v => seqAll rest fun ws => (k (vs ++ v :: ws)).seq, rfl, ?_, ho, ?_⟩
  · intro d hd hnone
    rw [values_eq_none_of_mem hd hnone] at hds
    simp at hds
  · intro o'
    rw [Task.seq, seqAll_append hds]
    rfl

theorem Operand.seq_send {o : Operand P A V} (ho : o.value = none) {f : V → Proc P A β} {p q : P}
    {m : List A} {K : Proc P A β} (c : P → P → List A) (h : o.seq f = .send q m K) :
    ∃ o', o.step p c = some (o', setChan c p q (c p q ++ m)) ∧ K = o'.seq f := by
  match o with
  | .writes q' (m' :: ms) v =>
    simp only [Operand.seq, List.map_cons, Proc.sends_cons, Proc.send.injEq] at h
    obtain ⟨rfl, rfl, rfl⟩ := h
    exact ⟨.writes q' ms v, rfl, rfl⟩
  | .reads q' (.read n k) => simp [Operand.seq, Reader.seq] at h
  | .writes q' [] v => simp [Operand.value] at ho
  | .reads q' (.done v) => simp [Operand.value] at ho

theorem Operand.seq_recv {o : Operand P A V} (ho : o.value = none) {f : V → Proc P A β} {p q : P}
    {n : Nat} {K : List A → Proc P A β} {c : P → P → List A} (h : o.seq f = .recv q n K)
    (hn : n ≤ (c q p).length) :
    ∃ o', o.step p c = some (o', setChan c q p ((c q p).drop n)) ∧ K ((c q p).take n) = o'.seq f := by
  match o with
  | .writes q' (m' :: ms) v => simp [Operand.seq] at h
  | .reads q' (.read n' k) =>
    simp only [Operand.seq, Reader.seq, Proc.recv.injEq] at h
    obtain ⟨rfl, rfl, rfl⟩ := h
    exact ⟨_, Operand.step_read hn, rfl⟩
  | .writes q' [] v => simp [Operand.value] at ho
  | .reads q' (.done v) => simp [Operand.value] at ho

/-- The first unfinished operand of a list steps in order. -/
theorem step_first {N : Net P A V β} {p : P} {ds rest : List (Operand P A V)} {o o' : Operand P A V}
    {k : List V → Task P A V β} {c : P → P → List A} (ht : N.task p = .all (ds ++ o :: rest) k)
    (hds : ∀ d ∈ ds, d.value ≠ none) (hstep : o.step p N.chan = some (o', c)) :
    OrderedStep N ⟨Function.update N.task p (Task.all (ds ++ o' :: rest) k).resume, c⟩ := by
  have ho : (ds ++ o :: rest)[ds.length]? = some o := by simp
  have hset : (ds ++ o :: rest).set ds.length o' = ds ++ o' :: rest := by simp
  refine ⟨p, ds.length, ?_, ?_⟩
  · intro ops k' ht' i a b hi ha hb hport
    obtain ⟨rfl, rfl⟩ : ds ++ o :: rest = ops ∧ k = k' := by simpa using ht.symm.trans ht'
    rw [List.getElem?_append_left hi] at ha
    exact hds a (List.mem_of_getElem? ha)
  · rw [fire_all ht ho hstep, hset]

theorem Matches.update {M : Fifo.Net P A β} {N : Net P A V β} (h : Matches M N) (p : P) (t : Task P A V β)
    (c : P → P → List A) (v : P → List (P × List A)) :
    Matches ⟨Function.update M.proc p t.seq, c, v⟩ ⟨Function.update N.task p t.resume, c⟩ where
  proc a := by
    by_cases ha : a = p
    · subst ha
      simp only [Function.update_self, seq_resume]
    · simp only [Function.update_of_ne ha]
      exact h.proc a
  resumed a := by
    by_cases ha : a = p
    · subst ha
      simp only [Function.update_self, resume_resume]
    · simp only [Function.update_of_ne ha]
      exact h.resumed a
  chan := rfl

/-- A step of the sequential form is a step in order. -/
theorem Matches.step {M M' : Fifo.Net P A β} {N : Net P A V β} (h : Matches M N) (hs : Fifo.Step M M') :
    ∃ N', OrderedStep N N' ∧ Matches M' N' := by
  obtain ⟨p, hp⟩ := hs
  cases ht : N.task p with
  | ret b =>
    have hret : M.proc p = .ret b := (h.proc p).trans (by rw [ht]; rfl)
    simp [Fifo.fire, hret] at hp
  | all ops k =>
    obtain ⟨ds, o, rest, f, rfl, hds, ho, hf⟩ := seq_waits ((h.resumed p).trans ht)
    have hproc : M.proc p = o.seq f := (h.proc p).trans (by rw [ht]; exact hf o)
    rcases Fifo.fire_cases hp with ⟨q, m, K, e, rfl⟩ | ⟨q, n, K, e, hn, rfl⟩
    · obtain ⟨o', hstep, rfl⟩ := Operand.seq_send ho N.chan (hproc.symm.trans e)
      refine ⟨_, step_first ht hds hstep, ?_⟩
      rw [Fifo.Net.sent, h.chan, ← hf o']
      exact h.update p _ _ _
    · rw [h.chan] at hn
      obtain ⟨o', hstep, hK⟩ := Operand.seq_recv ho (hproc.symm.trans e) hn
      refine ⟨_, step_first ht hds hstep, ?_⟩
      rw [Fifo.Net.received, h.chan, hK, ← hf o']
      exact h.update p _ _ _

theorem Matches.steps {n : Nat} {M M' : Fifo.Net P A β} (hs : Steps Fifo.Step n M M') :
    ∀ {N : Net P A V β}, Matches M N → ∃ N', Steps OrderedStep n N N' ∧ Matches M' N' := by
  induction hs with
  | refl M => exact fun h => ⟨_, .refl _, h⟩
  | head hstep _ ih =>
    intro N h
    obtain ⟨N₁, hstep₁, h₁⟩ := h.step hstep
    obtain ⟨N', hrest, h'⟩ := ih h₁
    exact ⟨N', .head hstep₁ hrest, h'⟩

omit [DecidableEq P] in
/-- A network in which the sequential form has returned has returned. -/
theorem Matches.eq_finished {r : P → β} {v : P → List (P × List A)} {N : Net P A V β}
    (h : Matches (Fifo.finished r v) N) : N = finished r := by
  have htask : ∀ p, N.task p = .ret (r p) := by
    intro p
    have hseq : Proc.ret (r p) = (N.task p).seq := h.proc p
    cases ht : N.task p with
    | ret b =>
      rw [ht, Task.seq, Proc.ret.injEq] at hseq
      rw [hseq]
    | all ops k =>
      obtain ⟨ds, o, rest, f, rfl, -, ho, hf⟩ := seq_waits ((h.resumed p).trans ht)
      rw [ht, hf o] at hseq
      match o with
      | .writes q (m :: ms) v => simp [Operand.seq] at hseq
      | .reads q (.read n k) => simp [Operand.seq, Reader.seq] at hseq
      | .writes q [] v => simp [Operand.value] at ho
      | .reads q (.done v) => simp [Operand.value] at ho
  obtain ⟨task, chan⟩ := N
  have hchan : (fun _ _ => []) = chan := h.chan
  rw [finished, ← hchan, show task = fun p => .ret (r p) from funext htask]

/-- When the operands one after the other have a complete run, every schedule in order
    ends in the same results. -/
theorem settles_of_seq {t : P → Task P A V β} {r : P → β} {v : P → List (P × List A)}
    (h : Run (fun p => (t p).seq) r v) : Settles OrderedStep (start t) (finished r) := by
  obtain ⟨n, hn⟩ := h
  obtain ⟨N, hrun, hN⟩ := Matches.steps hn (start_matches t)
  rw [hN.eq_finished] at hrun
  exact settles_of_run orderedStep_closes hrun (finished_stuck r)

/-! Parties that have returned. -/

theorem step_result {p : P} {b : β} {N N' : Net P A V β} (h : Step N N') (hp : N.task p = .ret b) :
    N'.task p = .ret b := by
  obtain ⟨q, j, hq⟩ := h
  obtain ⟨ops, k, o, o', c, ht, -, -, rfl⟩ := fire_cases hq
  have hne : p ≠ q := by
    rintro rfl
    rw [hp] at ht
    simp at ht
  exact (Function.update_of_ne hne _ _).trans hp

theorem OrderedStep.step {N N' : Net P A V β} (h : OrderedStep N N') : Step N N' :=
  let ⟨p, j, _, hfire⟩ := h
  ⟨p, j, hfire⟩

theorem steps_result {p : P} {b : β} {n : Nat} {N N' : Net P A V β} (h : Steps OrderedStep n N N')
    (hp : N.task p = .ret b) : N'.task p = .ret b := by
  induction h with
  | refl _ => exact hp
  | head hs _ ih => exact ih (step_result hs.step hp)

/-- What a party returns on the way is what it returns in the settled state. -/
theorem result_of_settles {N N' : Net P A V β} {r : P → β} {n : Nat} {p : P} {b : β}
    (h : Settles OrderedStep N (finished r)) (hn : Steps OrderedStep n N N')
    (hp : N'.task p = .ret b) : b = r p := by
  obtain ⟨k, -, -, hall⟩ := h
  have hend := steps_result (hall n N' hn).2 hp
  simpa [finished] using hend.symm

/-- The network after the steps of `sched`, each of one operand of one party. -/
def follow : List (P × Nat) → Net P A V β → Option (Net P A V β)
  | [], N => some N
  | (p, j) :: sched, N => (fire p j N).bind (follow sched)

theorem follow_steps {sched : List (P × Nat)} {N N' : Net P A V β} (h : follow sched N = some N') :
    Steps Step sched.length N N' := by
  induction sched generalizing N with
  | nil =>
    rw [← Option.some.inj h]
    exact .refl _
  | cons move sched ih =>
    obtain ⟨p, j⟩ := move
    simp only [follow, Option.bind_eq_some_iff] at h
    obtain ⟨N₁, hfire, hrest⟩ := h
    exact .head ⟨p, j, hfire⟩ (ih hrest)

end

end Async
