import Mathlib.Logic.Function.Basic
import Mathlib.Tactic.Convert
import Mpc.Lib.Diamond

/- Deterministic processes on reliable FIFO byte streams. A process is a tree of
   blocking sends and receives; a network gives every party one process and
   every ordered pair of parties one stream. A send appends its symbols to the
   stream; a receive of `n` symbols waits until `n` are there and takes them off
   the front, whatever messages they were sent in. The network also keeps what
   each party has received (`view`), which no process reads.

   Each stream has one writer and one reader, so steps of different parties
   close (`fire_comm`) and a network settles in one state (`Run.settles`). A run
   of a sequential composition is built from runs of its parts that leave every
   stream empty (`Run.bind`). -/
namespace Fifo
open Diamond

inductive Proc (P A β : Type) where
  | ret (b : β)
  | send (q : P) (m : List A) (k : Proc P A β)
  | recv (q : P) (n : Nat) (k : List A → Proc P A β)

def Proc.bind {P A β γ : Type} : Proc P A β → (β → Proc P A γ) → Proc P A γ
  | .ret b, f => f b
  | .send q m k, f => .send q m (k.bind f)
  | .recv q n k, f => .recv q n (fun l => (k l).bind f)

section
variable {P A β γ : Type}

@[simp] theorem Proc.bind_ret (b : β) (f : β → Proc P A γ) : (Proc.ret b).bind f = f b := rfl

@[simp] theorem Proc.bind_send (q : P) (m : List A) (k : Proc P A β) (f : β → Proc P A γ) :
    (Proc.send q m k).bind f = .send q m (k.bind f) := rfl

@[simp] theorem Proc.bind_recv (q : P) (n : Nat) (k : List A → Proc P A β)
    (f : β → Proc P A γ) : (Proc.recv q n k).bind f = .recv q n (fun l => (k l).bind f) := rfl

/-- Sends of the messages `ms` in order, then `k`. -/
def Proc.sends (ms : List (P × List A)) (k : Proc P A β) : Proc P A β :=
  ms.foldr (fun m k => .send m.1 m.2 k) k

@[simp] theorem Proc.sends_nil (k : Proc P A β) : Proc.sends [] k = k := rfl

@[simp] theorem Proc.sends_cons (m : P × List A) (ms : List (P × List A)) (k : Proc P A β) :
    Proc.sends (m :: ms) k = .send m.1 m.2 (Proc.sends ms k) := rfl

@[simp] theorem Proc.bind_sends (ms : List (P × List A)) (k : Proc P A β) (f : β → Proc P A γ) :
    (Proc.sends ms k).bind f = Proc.sends ms (k.bind f) := by
  induction ms with
  | nil => rfl
  | cons m ms ih => rw [Proc.sends_cons, Proc.bind_send, ih, Proc.sends_cons]

theorem Proc.bind_assoc {δ : Type} (x : Proc P A β) (f : β → Proc P A γ)
    (g : γ → Proc P A δ) : (x.bind f).bind g = x.bind (fun b => (f b).bind g) := by
  induction x with
  | ret b => rfl
  | send q m k ih => simp only [Proc.bind_send, ih]
  | recv q n k ih => simp only [Proc.bind_recv, ih]

theorem Proc.bind_pure (x : Proc P A β) : x.bind .ret = x := by
  induction x with
  | ret b => rfl
  | send q m k ih => rw [Proc.bind_send, ih]
  | recv q n k ih => simp only [Proc.bind_recv, ih]

end

/-- A network: `chan p q` is what `p` sent to `q` and `q` has not taken yet. -/
structure Net (P A β : Type) where
  proc : P → Proc P A β
  chan : P → P → List A
  view : P → List (P × List A)

variable {P A β γ : Type} [DecidableEq P]

/-- The stream from `p` to `q` replaced by `l`. -/
def setChan (c : P → P → List A) (p q : P) (l : List A) : P → P → List A :=
  Function.update c p (Function.update (c p) q l)

theorem setChan_apply (c : P → P → List A) (p q a b : P) (l : List A) :
    setChan c p q l a b = if a = p ∧ b = q then l else c a b := by
  unfold setChan
  by_cases ha : a = p
  · subst ha
    by_cases hb : b = q
    · subst hb; simp
    · simp [hb]
  · simp [ha]

namespace Net

/-- `p` has appended `m` to its stream to `q` and goes on with `k`. -/
def sent (N : Net P A β) (p q : P) (m : List A) (k : Proc P A β) : Net P A β :=
  { N with proc := Function.update N.proc p k, chan := setChan N.chan p q (N.chan p q ++ m) }

/-- `p` has taken `n` symbols off the stream from `q` and goes on with `k` of them. -/
def received (N : Net P A β) (p q : P) (n : Nat) (k : List A → Proc P A β) : Net P A β :=
  { proc := Function.update N.proc p (k ((N.chan q p).take n))
    chan := setChan N.chan q p ((N.chan q p).drop n)
    view := Function.update N.view p (N.view p ++ [(q, (N.chan q p).take n)]) }

end Net

/-- One step of party `p`, when it can take one. -/
def fire (p : P) (N : Net P A β) : Option (Net P A β) :=
  match N.proc p with
  | .ret _ => none
  | .send q m k => some (N.sent p q m k)
  | .recv q n k => if n ≤ (N.chan q p).length then some (N.received p q n k) else none

/-- Some party takes a step. -/
def Step (N N' : Net P A β) : Prop := ∃ p, fire p N = some N'

theorem fire_cases {p : P} {N N' : Net P A β} (h : fire p N = some N') :
    (∃ q m k, N.proc p = .send q m k ∧ N' = N.sent p q m k) ∨
    (∃ q n k, N.proc p = .recv q n k ∧ n ≤ (N.chan q p).length ∧ N' = N.received p q n k) := by
  unfold fire at h
  cases hp : N.proc p with
  | ret b => rw [hp] at h; simp at h
  | send q m k =>
    rw [hp] at h
    exact .inl ⟨q, m, k, rfl, by simpa using h.symm⟩
  | recv q n k =>
    rw [hp] at h
    simp only at h
    split at h
    · next hn => exact .inr ⟨q, n, k, rfl, hn, by simpa using h.symm⟩
    · simp at h

theorem fire_send {p q : P} {m : List A} {k : Proc P A β} {N : Net P A β}
    (h : N.proc p = .send q m k) : fire p N = some (N.sent p q m k) := by
  simp only [fire, h]

theorem fire_recv {p q : P} {n : Nat} {k : List A → Proc P A β} {N : Net P A β}
    (h : N.proc p = .recv q n k) (hn : n ≤ (N.chan q p).length) :
    fire p N = some (N.received p q n k) := by
  simp only [fire, h, if_pos hn]

/-! Steps of two parties commute. -/

section
variable {N : Net P A β} {p p' q q' : P}

theorem setChan_comm (c : P → P → List A) {a b a' b' : P} (l l' : List A)
    (h : ¬ (a = a' ∧ b = b')) :
    setChan (setChan c a b l) a' b' l' = setChan (setChan c a' b' l') a b l := by
  funext x y
  simp only [setChan_apply]
  by_cases h1 : x = a ∧ y = b
  · have h2 : ¬ (x = a' ∧ y = b') := fun h2 => h ⟨h1.1 ▸ h2.1, h1.2 ▸ h2.2⟩
    simp only [if_pos h1, if_neg h2]
  · simp only [if_neg h1]

theorem setChan_setChan (c : P → P → List A) (a b : P) (l l' : List A) :
    setChan (setChan c a b l) a b l' = setChan c a b l' := by
  funext x y
  simp only [setChan_apply]
  split <;> rfl

theorem sent_sent (hpp : p ≠ p') (m m' : List A) (k k' : Proc P A β) :
    (N.sent p q m k).sent p' q' m' k' = (N.sent p' q' m' k').sent p q m k := by
  have h1 : setChan N.chan p q (N.chan p q ++ m) p' q' = N.chan p' q' := by
    rw [setChan_apply, if_neg (fun h => hpp h.1.symm)]
  have h2 : setChan N.chan p' q' (N.chan p' q' ++ m') p q = N.chan p q := by
    rw [setChan_apply, if_neg (fun h => hpp h.1)]
  simp only [Net.sent, h1, h2, Function.update_comm hpp,
    setChan_comm N.chan _ _ (fun h : p = p' ∧ q = q' => hpp h.1)]

theorem received_received (hpp : p ≠ p') (n n' : Nat) (k k' : List A → Proc P A β) :
    (N.received p q n k).received p' q' n' k' = (N.received p' q' n' k').received p q n k := by
  have h1 : ∀ l, setChan N.chan q p l q' p' = N.chan q' p' := by
    intro l; rw [setChan_apply, if_neg (fun h => hpp h.2.symm)]
  have h2 : ∀ l, setChan N.chan q' p' l q p = N.chan q p := by
    intro l; rw [setChan_apply, if_neg (fun h => hpp h.2)]
  simp only [Net.received, h1, h2, Function.update_comm hpp,
    Function.update_of_ne hpp, Function.update_of_ne hpp.symm,
    setChan_comm N.chan _ _ (fun h : q = q' ∧ p = p' => hpp h.2)]

/-- A send to the reader of a stream leaves the symbols it is about to take in front. -/
theorem sent_received (hpp : p ≠ p') (m : List A) (k : Proc P A β) (n : Nat)
    (k' : List A → Proc P A β) (hn : n ≤ (N.chan q' p').length) :
    (N.sent p q m k).received p' q' n k' = (N.received p' q' n k').sent p q m k := by
  by_cases hs : q' = p ∧ p' = q
  · obtain ⟨rfl, rfl⟩ := hs
    have h1 : setChan N.chan q' p' (N.chan q' p' ++ m) q' p' = N.chan q' p' ++ m := by
      rw [setChan_apply, if_pos ⟨rfl, rfl⟩]
    have h2 : setChan N.chan q' p' ((N.chan q' p').drop n) q' p' = (N.chan q' p').drop n := by
      rw [setChan_apply, if_pos ⟨rfl, rfl⟩]
    simp only [Net.sent, Net.received, h1, h2, List.take_append_of_le_length hn,
      List.drop_append_of_le_length hn, setChan_setChan, Function.update_comm hpp]
  · have h1 : setChan N.chan p q (N.chan p q ++ m) q' p' = N.chan q' p' := by
      rw [setChan_apply, if_neg hs]
    have h2 : setChan N.chan q' p' ((N.chan q' p').drop n) p q = N.chan p q := by
      rw [setChan_apply, if_neg (fun h => hs ⟨h.1.symm, h.2.symm⟩)]
    simp only [Net.sent, Net.received, h1, h2, Function.update_comm hpp,
      setChan_comm N.chan _ _ (fun h : p = q' ∧ q = p' => hs ⟨h.1.symm, h.2.symm⟩)]

theorem sent_chan_length (m : List A) (k : Proc P A β) :
    (N.chan q' p').length ≤ ((N.sent p q m k).chan q' p').length := by
  simp only [Net.sent, setChan_apply]
  split
  · next h => rw [h.1, h.2, List.length_append]; omega
  · exact Nat.le_refl _

theorem received_chan (hpp : p ≠ p') (n : Nat) (k : List A → Proc P A β) :
    (N.received p q n k).chan q' p' = N.chan q' p' := by
  simp only [Net.received, setChan_apply]
  rw [if_neg (fun h => hpp h.2.symm)]

end

theorem fire_comm {p p' : P} (hpp : p ≠ p') {N N₁ N₂ : Net P A β} (h₁ : fire p N = some N₁)
    (h₂ : fire p' N = some N₂) : ∃ N', fire p' N₁ = some N' ∧ fire p N₂ = some N' := by
  have keep : ∀ (c : Proc P A β), Function.update N.proc p c p' = N.proc p' :=
    fun c => Function.update_of_ne hpp.symm c N.proc
  have keep' : ∀ (c : Proc P A β), Function.update N.proc p' c p = N.proc p :=
    fun c => Function.update_of_ne hpp c N.proc
  rcases fire_cases h₁ with ⟨q, m, k, e, rfl⟩ | ⟨q, n, k, e, hn, rfl⟩ <;>
    rcases fire_cases h₂ with ⟨q', m', k', e', rfl⟩ | ⟨q', n', k', e', hn', rfl⟩
  · refine ⟨_, fire_send ((keep _).trans e'), ?_⟩
    rw [fire_send ((keep' _).trans e), sent_sent hpp]
  · refine ⟨_, fire_recv ((keep _).trans e') (Nat.le_trans hn' (sent_chan_length m k)), ?_⟩
    rw [fire_send ((keep' _).trans e), sent_received hpp m k n' k' hn']
  · refine ⟨_, fire_send ((keep _).trans e'), ?_⟩
    rw [fire_recv ((keep' _).trans e) (Nat.le_trans hn (sent_chan_length m' k')),
      sent_received hpp.symm m' k' n k hn]
  · refine ⟨_, fire_recv ((keep _).trans e') (by rwa [received_chan hpp]), ?_⟩
    rw [fire_recv ((keep' _).trans e) (by rwa [received_chan hpp.symm]),
      received_received hpp]

theorem step_closes : Closes (Step (P := P) (A := A) (β := β)) := by
  rintro N N₁ N₂ ⟨p, h₁⟩ ⟨p', h₂⟩
  by_cases hpp : p = p'
  · subst hpp
    exact .inl (Option.some.inj (h₁.symm.trans h₂))
  · obtain ⟨N', h, h'⟩ := fire_comm hpp h₁ h₂
    exact .inr ⟨N', ⟨p', h⟩, ⟨p, h'⟩⟩

/-! Complete runs. -/

/-- Every party at the start of its process, every stream empty. -/
def start (a : P → Proc P A β) : Net P A β := ⟨a, fun _ _ => [], fun _ => []⟩

/-- Every party has returned, every stream is empty; `v` is what each party received. -/
def finished (r : P → β) (v : P → List (P × List A)) : Net P A β :=
  ⟨fun p => .ret (r p), fun _ _ => [], v⟩

theorem finished_stuck (r : P → β) (v : P → List (P × List A)) :
    Stuck Step (finished r v) := by
  rintro N ⟨p, h⟩
  simp [fire, finished] at h

/-- Some schedule takes the processes `a` to the results `r` with the views `v`,
    nothing left on any stream. -/
def Run (a : P → Proc P A β) (r : P → β) (v : P → List (P × List A)) : Prop :=
  ∃ n, Steps Step n (start a) (finished r v)

theorem Run.settles {a : P → Proc P A β} {r : P → β} {v : P → List (P × List A)}
    (h : Run a r v) : Settles Step (start a) (finished r v) := by
  obtain ⟨n, hn⟩ := h
  exact settles_of_run step_closes hn (finished_stuck r v)

/-- Two complete runs of the same processes return the same and show the same. -/
theorem Run.unique {a : P → Proc P A β} {r r' : P → β} {v v' : P → List (P × List A)}
    (h : Run a r v) (h' : Run a r' v') : r = r' ∧ v = v' := by
  obtain ⟨n, hn⟩ := h'
  have e := h.settles.stuck_eq hn (finished_stuck r' v')
  simp only [finished, Net.mk.injEq, true_and] at e
  refine ⟨?_, e.2.symm⟩
  funext p
  have := congrFun e.1 p
  simpa using this.symm

theorem Run.ret (r : P → β) : Run (A := A) (fun p => .ret (r p)) r (fun _ => []) :=
  ⟨0, .refl _⟩

/-- The network with every party's process continued by `K`. -/
def Net.bind (N : Net P A β) (K : P → β → Proc P A γ) : Net P A γ :=
  ⟨fun p => (N.proc p).bind (K p), N.chan, N.view⟩

/-- The network with `v` received before. -/
def Net.after (v : P → List (P × List A)) (N : Net P A β) : Net P A β :=
  { N with view := fun p => v p ++ N.view p }

theorem fire_bind {p : P} {N N' : Net P A β} (K : P → β → Proc P A γ)
    (h : fire p N = some N') : fire p (N.bind K) = some (N'.bind K) := by
  have up : ∀ c : Proc P A β, (fun a => (Function.update N.proc p c a).bind (K a)) =
      Function.update (fun a => (N.proc a).bind (K a)) p (c.bind (K p)) := by
    intro c
    funext a
    by_cases ha : a = p
    · subst ha; simp
    · simp [ha]
  rcases fire_cases h with ⟨q, m, k, e, rfl⟩ | ⟨q, n, k, e, hn, rfl⟩
  · rw [fire_send (q := q) (m := m) (k := k.bind (K p)) (by simp [Net.bind, e])]
    simp [Net.bind, Net.sent, up]
  · rw [fire_recv (q := q) (n := n) (k := fun l => (k l).bind (K p)) (by simp [Net.bind, e]) hn]
    simp [Net.bind, Net.received, up]

theorem fire_after {p : P} {N N' : Net P A β} (v : P → List (P × List A))
    (h : fire p N = some N') : fire p (N.after v) = some (N'.after v) := by
  rcases fire_cases h with ⟨q, m, k, e, rfl⟩ | ⟨q, n, k, e, hn, rfl⟩
  · rw [fire_send (N := N.after v) e]
    rfl
  · rw [fire_recv (N := N.after v) e hn]
    simp only [Net.after, Net.received, Option.some.injEq, Net.mk.injEq, true_and]
    funext a
    by_cases ha : a = p
    · subst ha; simp
    · simp [ha]

/-- A complete run of the first parts, the rest still to come. -/
theorem Run.reach {a : P → Proc P A β} {r : P → β} {v : P → List (P × List A)} (h : Run a r v)
    (K : P → β → Proc P A γ) :
    ∃ n, Steps Step n (start fun p => (a p).bind (K p)) ⟨fun p => K p (r p), fun _ _ => [], v⟩ := by
  obtain ⟨n, hn⟩ := h
  have lift : ∀ N N' : Net P A β, Step N N' → Step (N.bind K) (N'.bind K) :=
    fun _ _ ⟨p, hp⟩ => ⟨p, fire_bind K hp⟩
  exact ⟨n, hn.map (fun N => N.bind K) lift⟩

/-- Sequential composition: a complete run of the first parts, then one of the rest. -/
theorem Run.bind {a : P → Proc P A β} {r : P → β} {v w : P → List (P × List A)}
    {K : P → β → Proc P A γ} {s : P → γ} (h : Run a r v) (h' : Run (fun p => K p (r p)) s w) :
    Run (fun p => (a p).bind (K p)) s (fun p => v p ++ w p) := by
  obtain ⟨n, hn⟩ := h.reach K
  obtain ⟨m, hm⟩ := h'
  have later : ∀ N N' : Net P A γ, Step N N' → Step (N.after v) (N'.after v) :=
    fun _ _ ⟨p, hp⟩ => ⟨p, fire_after v hp⟩
  have hrest := hm.map (Net.after v) later
  refine ⟨n + m, hn.trans ?_⟩
  simpa [Net.after, start, finished] using hrest

/-! Parties that have returned. -/

/-- A party that has returned takes no more steps. -/
theorem step_ret {p : P} {b : β} {N N' : Net P A β} (h : Step N N') (hp : N.proc p = .ret b) :
    N'.proc p = .ret b := by
  obtain ⟨q, hq⟩ := h
  have hne : p ≠ q := by
    rintro rfl
    simp [fire, hp] at hq
  rcases fire_cases hq with ⟨r, m, k, -, rfl⟩ | ⟨r, n, k, -, -, rfl⟩
  · exact (Function.update_of_ne hne _ _).trans hp
  · exact (Function.update_of_ne hne _ _).trans hp

theorem steps_ret {p : P} {b : β} {n : Nat} {N N' : Net P A β} (h : Steps Step n N N')
    (hp : N.proc p = .ret b) : N'.proc p = .ret b := by
  induction h with
  | refl N => exact hp
  | head hs _ ih => exact ih (step_ret hs hp)

/-- In a network that settles, what a party returns on the way is what it returns. -/
theorem returns_of_settles {N N' : Net P A β} {r : P → β} {v : P → List (P × List A)} {n : Nat} {p : P}
    {b : β} (h : Settles Step N (finished r v)) (hn : Steps Step n N N') (hp : N'.proc p = .ret b) :
    b = r p := by
  obtain ⟨k, -, -, hall⟩ := h
  have hret := steps_ret (hall n N' hn).2 hp
  simpa [finished] using hret.symm

/-! Executing a network message by message. While every receive takes exactly one
    message, a stream is the queue of the messages on it. -/

/-- The processes `a` with the messages `c` on the streams and `v` received have a
    complete run that returns `r` with the views `w`. -/
def Queued (a : P → Proc P A β) (c : P → P → List (List A)) (v : P → List (P × List A))
    (r : P → β) (w : P → List (P × List A)) : Prop :=
  ∃ n, Steps Step n ⟨a, fun p q => (c p q).flatten, v⟩ (finished r w)

theorem Run.of_queued {a : P → Proc P A β} {r : P → β} {w : P → List (P × List A)}
    (h : Queued a (fun _ _ => []) (fun _ => []) r w) : Run a r w := h

theorem Queued.congr {a a' : P → Proc P A β} {c c' : P → P → List (List A)}
    {v v' : P → List (P × List A)} {r : P → β} {w : P → List (P × List A)} (ha : ∀ p, a p = a' p)
    (hc : ∀ p q, c p q = c' p q) (hv : ∀ p, v p = v' p) (h : Queued a' c' v' r w) :
    Queued a c v r w := by
  rw [funext ha, funext hv, show c = c' from funext fun p => funext (hc p)]
  exact h

theorem Queued.done {a : P → Proc P A β} {c : P → P → List (List A)} {v : P → List (P × List A)}
    {r : P → β} {w : P → List (P × List A)} (ha : ∀ p, a p = .ret (r p)) (hc : ∀ p q, c p q = [])
    (hv : ∀ p, v p = w p) : Queued a c v r w :=
  Queued.congr ha hc hv ⟨0, .refl _⟩

section
variable {a : P → Proc P A β} {c : P → P → List (List A)} {v : P → List (P × List A)}
  {r : P → β} {w : P → List (P × List A)} {q : P}

/-- Party `p` sends. -/
theorem Queued.send (p : P) {m : List A} {k : Proc P A β} (ha : a p = .send q m k)
    (h : Queued (Function.update a p k)
      (Function.update c p (Function.update (c p) q (c p q ++ [m]))) v r w) :
    Queued a c v r w := by
  obtain ⟨n, hn⟩ := h
  refine ⟨n + 1, .head ⟨p, fire_send (N := ⟨a, _, v⟩) ha⟩ ?_⟩
  convert hn using 1
  simp only [Net.sent, Net.mk.injEq, true_and, and_true]
  funext x y
  rw [setChan_apply]
  by_cases hx : x = p
  · subst hx
    by_cases hy : y = q
    · subst hy; simp
    · simp [hy]
  · simp [hx]

/-- Party `p` sends the messages `ms`. -/
theorem Queued.sends (p : P) {ms : List (P × List A)} {k : Proc P A β} (ha : a p = Proc.sends ms k)
    (h : Queued (Function.update a p k)
      (Function.update c p fun q => c p q ++ (ms.filter (·.1 = q)).map (·.2)) v r w) :
    Queued a c v r w := by
  induction ms generalizing a c with
  | nil =>
    refine Queued.congr ?_ ?_ (fun _ => rfl) h
    · intro x
      by_cases hx : x = p
      · subst hx; simpa using ha
      · simp [hx]
    · intro x y
      by_cases hx : x = p
      · subst hx; simp
      · simp [hx]
  -- the first message joins its stream's end, the rest follow it there
  | cons m ms ih =>
    have hs : a p = .send m.1 m.2 (Proc.sends ms k) := ha
    refine Queued.send p hs (ih (by simp) (Queued.congr ?_ ?_ (fun _ => rfl) h))
    · intro x
      simp
    · intro x y
      by_cases hx : x = p
      · subst hx
        by_cases hy : m.1 = y
        · subst hy; simp
        · simp [hy, Ne.symm hy]
      · simp [hx]

/-- Party `p` receives the first message queued for it by `q`. -/
theorem Queued.recv (p : P) {n : Nat} {k : List A → Proc P A β} {m : List A}
    {ms : List (List A)} (ha : a p = .recv q n k) (hc : c q p = m :: ms) (hm : m.length = n)
    (h : Queued (Function.update a p (k m)) (Function.update c q (Function.update (c q) p ms))
      (Function.update v p (v p ++ [(q, m)])) r w) :
    Queued a c v r w := by
  obtain ⟨j, hj⟩ := h
  have hf : (c q p).flatten = m ++ ms.flatten := by rw [hc]; rfl
  have hn : n ≤ (c q p).flatten.length := by rw [hf, List.length_append]; omega
  refine ⟨j + 1, .head ⟨p, fire_recv (N := ⟨a, _, v⟩) ha hn⟩ ?_⟩
  convert hj using 1
  simp only [Net.received, Net.mk.injEq, hf, List.take_left' hm, List.drop_left' hm, true_and,
    and_true]
  funext x y
  rw [setChan_apply]
  by_cases hx : x = q
  · subst hx
    by_cases hy : y = p
    · subst hy; simp
    · simp [hy]
  · simp [hx]

end

/-! Interleavings. -/

section
variable {α : Type} {f : α → Bool}

/-- The interleaving of two lists that takes from the first one at each `true`. -/
def merge : List Bool → List α → List α → List α
  | _, [], bs => bs
  | _, as, [] => as
  | [], as, bs => as ++ bs
  | true :: w, a :: as, bs => a :: merge w as bs
  | false :: w, as, b :: bs => b :: merge w as bs

/-- An interleaving keeps the order of what comes from one list only. -/
theorem merge_filter (w : List Bool) {as bs : List α} (h : as.filter f = [] ∨ bs.filter f = []) :
    (merge w as bs).filter f = as.filter f ++ bs.filter f := by
  fun_induction merge w as bs with
  | case1 w bs => rfl
  | case2 w as has => rw [List.filter_nil, List.append_nil]
  | case3 as bs has hbs => rw [List.filter_append]
  | case4 w a as bs hbs ih =>
    have htail : as.filter f = [] ∨ bs.filter f = [] :=
      h.imp_left fun ha => List.filter_eq_nil_iff.mpr fun x hx =>
        List.filter_eq_nil_iff.mp ha x (List.mem_cons_of_mem a hx)
    rw [List.filter_cons, List.filter_cons, ih htail]
    split <;> rfl
  | case5 w as b bs has ih =>
    have htail : as.filter f = [] ∨ bs.filter f = [] :=
      h.imp_right fun hb => List.filter_eq_nil_iff.mpr fun x hx =>
        List.filter_eq_nil_iff.mp hb x (List.mem_cons_of_mem b hx)
    rw [List.filter_cons, List.filter_cons, ih htail]
    split
    · next hb =>
      -- what passes the filter is in the second list, so nothing of the first does
      have hnil : as.filter f = [] := h.resolve_right (by simp [hb])
      rw [hnil, List.nil_append, List.nil_append]
    · rfl

end

end Fifo
