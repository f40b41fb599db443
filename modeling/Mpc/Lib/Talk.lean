import Mpc.Lib.Fifo

/- Typed messages on streams. A `Talk` is a process that exchanges whole values of a
   family of types; a `Codec` says how a party writes a value to a stream and how it
   reads one off it. `Talk.encode` is the process on the streams. A step of talks is
   a number of steps of their encodings (`encodes_step`), so a network of talks that
   comes to an end, all parties having returned or waiting for what nobody sent, ends
   there on the streams in every schedule (`encode_settles`). -/
namespace Fifo
open Diamond

/-- A process whose messages are values of the types `T`. -/
inductive Talk (P : Type) {T : Type} (Val : T → Type) (γ : Type) where
  | ret (c : γ)
  | send (q : P) (t : T) (v : Val t) (k : Talk P Val γ)
  | recv (q : P) (t : T) (k : Val t → Talk P Val γ)

/-! Reading off a stream. -/

section
variable {P A β : Type}

/-- `x` takes exactly the symbols `l` off the stream from `q` and goes on as `y`. -/
inductive Takes (q : P) : Proc P A β → List A → Proc P A β → Prop where
  | done (x : Proc P A β) : Takes q x [] x
  | recv {n : Nat} {k : List A → Proc P A β} {m l : List A} {y : Proc P A β} (hm : m.length = n)
      (h : Takes q (k m) l y) : Takes q (.recv q n k) (m ++ l) y

variable [DecidableEq P]

theorem setChan_self (c : P → P → List A) (p q : P) : setChan c p q (c p q) = c := by
  funext a b
  rw [setChan_apply]
  split
  · next h => rw [h.1, h.2]
  · rfl

/-- A party takes the front of a stream. -/
theorem Takes.steps {p q : P} {x y : Proc P A β} {l : List A} (h : Takes q x l y) (rest : List A)
    (N : Net P A β) (hp : N.proc p = x) (hc : N.chan q p = l ++ rest) :
    ∃ n N', Steps Step n N N' ∧ N'.proc = Function.update N.proc p y ∧ N'.chan = setChan N.chan q p rest := by
  induction h generalizing N with
  | done x =>
    refine ⟨0, N, .refl N, ?_, ?_⟩
    · rw [← hp, Function.update_eq_self]
    · rw [← show N.chan q p = rest from hc, setChan_self]
  | @recv n k m l y hm h ih =>
    have hc' : N.chan q p = m ++ (l ++ rest) := by rw [hc, List.append_assoc]
    have hn : n ≤ (N.chan q p).length := by
      rw [hc', List.length_append]
      omega
    have htake : (N.chan q p).take n = m := by rw [hc', List.take_left' hm]
    have hdrop : (N.chan q p).drop n = l ++ rest := by rw [hc', List.drop_left' hm]
    have hproc : (N.received p q n k).proc p = k m := by
      rw [← htake]
      exact Function.update_self _ _ _
    have hchan : (N.received p q n k).chan q p = l ++ rest := by
      rw [← hdrop]
      exact (setChan_apply _ _ _ _ _ _).trans (if_pos ⟨rfl, rfl⟩)
    obtain ⟨j, N', hsteps, hproc', hchan'⟩ := ih _ hproc hchan
    refine ⟨j + 1, N', .head ⟨p, fire_recv hp hn⟩ hsteps, ?_, ?_⟩
    · rw [hproc']
      exact Function.update_idem _ _ _
    · rw [hchan']
      exact setChan_setChan _ _ _ _ _

/-- A party writes buffers to a stream. -/
theorem sends_steps {p q : P} (ms : List (List A)) {k : Proc P A β} (N : Net P A β)
    (hp : N.proc p = .sends (ms.map (q, ·)) k) :
    ∃ n N', Steps Step n N N' ∧ N'.proc = Function.update N.proc p k ∧
      N'.chan = setChan N.chan p q (N.chan p q ++ ms.flatten) := by
  induction ms generalizing N with
  | nil =>
    refine ⟨0, N, .refl N, ?_, ?_⟩
    · rw [← show N.proc p = k from hp, Function.update_eq_self]
    · rw [List.flatten_nil, List.append_nil, setChan_self]
  | cons m ms ih =>
    have hproc : (N.sent p q m (.sends (ms.map (q, ·)) k)).proc p = .sends (ms.map (q, ·)) k :=
      Function.update_self _ _ _
    have hchan : (N.sent p q m (.sends (ms.map (q, ·)) k)).chan p q = N.chan p q ++ m :=
      (setChan_apply _ _ _ _ _ _).trans (if_pos ⟨rfl, rfl⟩)
    obtain ⟨j, N', hsteps, hproc', hchan'⟩ := ih _ hproc
    refine ⟨j + 1, N', .head ⟨p, fire_send hp⟩ hsteps, ?_, ?_⟩
    · rw [hproc']
      exact Function.update_idem _ _ _
    · rw [hchan', hchan, List.flatten_cons, List.append_assoc]
      exact setChan_setChan _ _ _ _ _

end

/-! Codecs. -/

/-- How parties put values on streams. A reader takes exactly what a writer wrote of a value that
    fits, whatever comes behind it, and does not go on before the first symbol. -/
structure Codec (P A : Type) {T : Type} (Val : T → Type) (β : Type) where
  Fits (t : T) : Val t → Prop
  writes (t : T) : Val t → List (List A)
  read (p q : P) (t : T) (k : Val t → Proc P A β) : Proc P A β
  takes : ∀ (p q : P) (t : T) (v : Val t) (k : Val t → Proc P A β), Fits t v →
    Takes q (read p q t k) (writes t v).flatten (k v)
  waits : ∀ (p q : P) (t : T) (k : Val t → Proc P A β), ∃ n k', read p q t k = .recv q (n + 1) k'

variable {P A T β γ : Type} {Val : T → Type} [DecidableEq P]

/-- The talk of party `p` on the streams. -/
def Talk.encode (c : Codec P A Val β) (p : P) (done : γ → β) : Talk P Val γ → Proc P A β
  | .ret r => .ret (done r)
  | .send q t v k => .sends ((c.writes t v).map (q, ·)) (k.encode c p done)
  | .recv q t k => c.read p q t fun v => (k v).encode c p done

/-- The symbols of a list of values. -/
def Codec.stream (c : Codec P A Val β) (ms : List (Σ t, Val t)) : List A :=
  ms.flatMap fun m => (c.writes m.1 m.2).flatten

/-- A network of talks: `chan p q` are the values that `p` sent to `q` and `q` has not taken yet. -/
structure Talks (P : Type) {T : Type} (Val : T → Type) (γ : Type) where
  proc : P → Talk P Val γ
  chan : P → P → List (Σ t, Val t)

def Talks.start (a : P → Talk P Val γ) : Talks P Val γ := ⟨a, fun _ _ => []⟩

/-- The queue from `p` to `q` replaced by `l`. -/
def Talks.setChan (N : Talks P Val γ) (p q : P) (l : List (Σ t, Val t)) : P → P → List (Σ t, Val t) :=
  Function.update N.chan p (Function.update (N.chan p) q l)

/-- A party sends a value that fits, or takes the first value of a queue, which is of the type that it
    is waiting for. -/
inductive Talks.Step (Fits : (t : T) → Val t → Prop) : Talks P Val γ → Talks P Val γ → Prop where
  | send {N : Talks P Val γ} {p q : P} {t : T} {v : Val t} {k : Talk P Val γ}
      (hp : N.proc p = .send q t v k) (hv : Fits t v) :
      Talks.Step Fits N ⟨Function.update N.proc p k, N.setChan p q (N.chan p q ++ [⟨t, v⟩])⟩
  | recv {N : Talks P Val γ} {p q : P} {t : T} {v : Val t} {k : Val t → Talk P Val γ} {ms : List (Σ t, Val t)}
      (hp : N.proc p = .recv q t k) (hc : N.chan q p = ⟨t, v⟩ :: ms) :
      Talks.Step Fits N ⟨Function.update N.proc p (k v), N.setChan q p ms⟩

/-- Every party has returned or waits for a value that nobody sent. -/
def Talks.Over (N : Talks P Val γ) : Prop :=
  ∀ p, (∃ r, N.proc p = .ret r) ∨ ∃ q t k, N.proc p = .recv q t k ∧ N.chan q p = []

/-! Refinement. -/

/-- The streams `M` of the talks `N`. -/
structure Encodes (c : Codec P A Val β) (done : P → γ → β) (N : Talks P Val γ) (M : Net P A β) : Prop where
  proc : ∀ p, M.proc p = (N.proc p).encode c p (done p)
  chan : ∀ p q, M.chan p q = c.stream (N.chan p q)
  fits : ∀ p q, ∀ m ∈ N.chan p q, c.Fits m.1 m.2

section
variable {c : Codec P A Val β} {done : P → γ → β} {N N' : Talks P Val γ} {M M' : Net P A β}

omit [DecidableEq P] in
theorem encodes_start (a : P → Talk P Val γ) :
    Encodes c done (Talks.start a) (start fun p => (a p).encode c p (done p)) :=
  ⟨fun _ => rfl, fun _ _ => rfl, fun _ _ _ hm => (by cases hm)⟩

theorem Talks.setChan_apply (p q a b : P) (l : List (Σ t, Val t)) :
    N.setChan p q l a b = if a = p ∧ b = q then l else N.chan a b := by
  unfold Talks.setChan
  by_cases ha : a = p
  · subst ha
    by_cases hb : b = q
    · subst hb
      simp only [Function.update_self, and_self, if_true]
    · simp only [Function.update_self, Function.update_of_ne hb, hb, and_false, if_false]
  · simp only [Function.update_of_ne ha, ha, false_and, if_false]

/-- The talks after a party's step, and their streams after it. -/
theorem Encodes.update (h : Encodes c done N M) {p a b : P} {x : Talk P Val γ} {ms : List (Σ t, Val t)}
    (hproc : M'.proc = Function.update M.proc p (x.encode c p (done p)))
    (hchan : M'.chan = setChan M.chan a b (c.stream ms)) (hfits : ∀ m ∈ ms, c.Fits m.1 m.2) :
    Encodes c done ⟨Function.update N.proc p x, N.setChan a b ms⟩ M' := by
  refine ⟨fun p' => ?_, fun a' b' => ?_, fun a' b' => ?_⟩
  · rw [hproc]
    by_cases hp : p' = p
    · subst hp
      simp only [Function.update_self]
    · simp only [Function.update_of_ne hp, h.proc]
  · show _ = c.stream (N.setChan a b ms a' b')
    rw [hchan, setChan_apply, Talks.setChan_apply, h.chan]
    split <;> rfl
  · show ∀ m ∈ N.setChan a b ms a' b', _
    rw [Talks.setChan_apply]
    split
    · exact hfits
    · exact h.fits a' b'

/-- A step of the talks on the streams. -/
theorem encodes_step (hs : N.Step c.Fits N') (h : Encodes c done N M) :
    ∃ n M', Steps Step n M M' ∧ Encodes c done N' M' := by
  cases hs with
  | @send p q t v k hp hv =>
    have hM : M.proc p = .sends ((c.writes t v).map (q, ·)) (k.encode c p (done p)) := by
      rw [h.proc, hp, Talk.encode]
    obtain ⟨n, M', hsteps, hproc, hchan⟩ := sends_steps _ M hM
    refine ⟨n, M', hsteps, h.update hproc ?_ ?_⟩
    · rw [hchan, h.chan]
      simp only [Codec.stream, List.flatMap_append, List.flatMap_cons, List.flatMap_nil, List.append_nil]
    · intro m hm
      rcases List.mem_append.mp hm with hm | hm
      · exact h.fits p q m hm
      · rw [List.mem_singleton.mp hm]
        exact hv
  | @recv p q t v k ms hp hc =>
    have hM : M.proc p = c.read p q t fun v => (k v).encode c p (done p) := by
      rw [h.proc, hp, Talk.encode]
    have hfront : M.chan q p = (c.writes t v).flatten ++ c.stream ms := by
      rw [h.chan, hc]
      rfl
    have hfits : ∀ m ∈ (⟨t, v⟩ : Σ t, Val t) :: ms, c.Fits m.1 m.2 := by
      rw [← hc]
      exact h.fits q p
    obtain ⟨n, M', hsteps, hproc, hchan⟩ :=
      (c.takes p q t v _ (hfits _ List.mem_cons_self)).steps _ M hM hfront
    exact ⟨n, M', hsteps, h.update hproc hchan fun m hm => hfits m (List.mem_cons_of_mem _ hm)⟩

theorem encodes_steps {n : Nat} (hs : Steps (Talks.Step c.Fits) n N N') (h : Encodes c done N M) :
    ∃ n M', Steps Step n M M' ∧ Encodes c done N' M' := by
  induction hs generalizing M with
  | refl N => exact ⟨0, M, .refl M, h⟩
  | head hs _ ih =>
    obtain ⟨n, M₁, hsteps, h₁⟩ := encodes_step hs h
    obtain ⟨n', M₂, hsteps', h₂⟩ := ih h₁
    exact ⟨n + n', M₂, hsteps.trans hsteps', h₂⟩

/-- Talks that are over are over on the streams. -/
theorem Encodes.stuck (h : Encodes c done N M) (hN : N.Over) : Stuck Step M := by
  rintro M' ⟨p, hp⟩
  obtain ⟨r, hr⟩ | ⟨q, t, k, hk, hc⟩ := hN p
  · have hret : M.proc p = .ret (done p r) := by rw [h.proc, hr, Talk.encode]
    simp [fire, hret] at hp
  · obtain ⟨n, k', hwait⟩ := c.waits p q t fun v => (k v).encode c p (done p)
    have hM : M.proc p = .recv q (n + 1) k' := by rw [h.proc, hk, Talk.encode, hwait]
    have hempty : M.chan q p = [] := by
      rw [h.chan, hc]
      rfl
    simp [fire, hM, hempty] at hp

/-- Where the talks end, the streams end in every schedule. -/
theorem encode_settles {a : P → Talk P Val γ} {n : Nat} (hs : Steps (Talks.Step c.Fits) n (Talks.start a) N) (hN : N.Over)
    (done : P → γ → β) :
    ∃ M, Settles Step (start fun p => (a p).encode c p (done p)) M ∧ Encodes c done N M := by
  obtain ⟨n, M, hsteps, hM⟩ := encodes_steps hs (encodes_start a)
  exact ⟨M, settles_of_run step_closes hsteps (hM.stuck hN), hM⟩

end

end Fifo
