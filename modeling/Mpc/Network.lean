import Mpc.Lib.Fifo
import Mpc.Lib.LittleEndian

/- The three parties and their sockets (network.hpp). A coroutine of one party
   is a `Party σ α`: it runs on that party's own memory `σ`, awaits sends and
   receives on its sockets, and ends with a value, with an exception, or in an
   access C++ leaves undefined; the memory survives an exception. A `NetPeer` is
   named by the role at its other end, since each pair of parties has one socket.

   Co-awaited lists (`a && b && …`) are sequenced in their written order unless a
   function takes the order as an argument. -/
namespace Mpc
open Fifo LE

inductive Role where
  | P0 | P1 | P2
  deriving DecidableEq, Repr

/-- How a coroutine ends without a value. -/
inductive Err where
  | runtimeError (what : String)
  | undefined
  deriving DecidableEq, Repr

abbrev Wire (α : Type) := Proc Role Byte α

/-- A coroutine of one party on its memory `σ`. -/
structure Party (σ α : Type) where
  run : σ → Wire (Except Err α × σ)

namespace Party
variable {σ α β : Type}

/-- What follows a step that ended in `r`: an exception passes through. -/
def andThen (f : α → Party σ β) : Except Err α × σ → Wire (Except Err β × σ)
  | (.ok a, s) => (f a).run s
  | (.error e, s) => .ret (.error e, s)

instance : Monad (Party σ) where
  pure a := ⟨fun s => .ret (.ok a, s)⟩
  bind x f := ⟨fun s => (x.run s).bind (andThen f)⟩

@[simp] theorem andThen_ok (f : α → Party σ β) (a : α) (s : σ) :
    andThen f (.ok a, s) = (f a).run s := rfl

@[simp] theorem andThen_error (f : α → Party σ β) (e : Err) (s : σ) :
    andThen f (.error e, s) = .ret (.error e, s) := rfl

@[simp] theorem pure_run (a : α) (s : σ) : (pure a : Party σ α).run s = .ret (.ok a, s) := rfl

@[simp] theorem bind_run (x : Party σ α) (f : α → Party σ β) (s : σ) :
    (x >>= f).run s = (x.run s).bind (andThen f) := rfl

theorem andThen_bind {γ : Type} (f : α → Party σ β) (g : β → Party σ γ) (r : Except Err α × σ) :
    (andThen f r).bind (andThen g) = andThen (fun a => f a >>= g) r := by
  match r with
  | (.ok a, s) => rfl
  | (.error e, s) => rfl

theorem bind_assoc {γ : Type} (x : Party σ α) (f : α → Party σ β) (g : β → Party σ γ) :
    x >>= f >>= g = x >>= fun a => f a >>= g := by
  show Party.mk _ = Party.mk _
  congr 1
  funext s
  simp only [bind_run, Proc.bind_assoc, andThen_bind]

theorem pure_bind (a : α) (f : α → Party σ β) : pure a >>= f = f a := rfl

def get : Party σ σ := ⟨fun s => .ret (.ok s, s)⟩
def set (s' : σ) : Party σ Unit := ⟨fun _ => .ret (.ok (), s')⟩
def throw (e : Err) : Party σ α := ⟨fun s => .ret (.error e, s)⟩

/-- A value that an access outside its object leaves undefined. -/
def orUndefined : Option α → Party σ α
  | some a => pure a
  | none => throw .undefined

def ofExcept : Except Err α → Party σ α
  | .ok a => pure a
  | .error e => throw e

@[simp] theorem get_run (s : σ) : (get : Party σ σ).run s = .ret (.ok s, s) := rfl
@[simp] theorem set_run (s s' : σ) : (set s' : Party σ Unit).run s = .ret (.ok (), s') := rfl
@[simp] theorem throw_run (e : Err) (s : σ) :
    (throw e : Party σ α).run s = .ret (.error e, s) := rfl

/-- What follows a step that is known to end with a value. -/
theorem bind_of_ok {x : Party σ α} {s s' : σ} {a : α} (h : x.run s = .ret (.ok a, s')) (f : α → Party σ β) :
    (x >>= f).run s = (f a).run s' := by
  rw [bind_run, h, Proc.bind_ret, andThen_ok]

theorem bind_of_error {x : Party σ α} {s s' : σ} {e : Err} (h : x.run s = .ret (.error e, s'))
    (f : α → Party σ β) : (x >>= f).run s = .ret (.error e, s') := by
  rw [bind_run, h, Proc.bind_ret, andThen_error]

/-- `async_write` of a buffer. -/
def asyncWrite (peer : Role) (m : List Byte) : Party σ Unit :=
  ⟨fun s => .send peer m (.ret (.ok (), s))⟩

/-- `async_read` that fills a buffer of `n` bytes. -/
def asyncRead (peer : Role) (n : Nat) : Party σ (List Byte) :=
  ⟨fun s => .recv peer n (fun l => .ret (.ok l, s))⟩

@[simp] theorem asyncWrite_run (peer : Role) (m : List Byte) (s : σ) :
    (asyncWrite peer m : Party σ Unit).run s = .send peer m (.ret (.ok (), s)) := rfl

@[simp] theorem asyncRead_run (peer : Role) (n : Nat) (s : σ) :
    (asyncRead peer n : Party σ (List Byte)).run s = .recv peer n (fun l => .ret (.ok l, s)) := rfl

end Party

/-! NetPeer: values travel as their object representation, vectors behind their length. -/

abbrev NetPeer := Role

namespace NetPeer
variable {σ : Type} {w : Nat}

def send (peer : NetPeer) (value : BitVec w) : Party σ Unit := Party.asyncWrite peer (enc value)

def recv (peer : NetPeer) (w : Nat) : Party σ (BitVec w) := do
  let l ← Party.asyncRead peer (sizeBytes w)
  return dec w l

/-- The elements of a vector in memory. -/
def vecBytes (vec : List (BitVec w)) : List Byte := vec.flatMap enc

/-- The `n` elements a buffer holds. -/
def vecOf (w : Nat) : Nat → List Byte → List (BitVec w)
  | 0, _ => []
  | n+1, l => dec w (l.take (sizeBytes w)) :: vecOf w n (l.drop (sizeBytes w))

def sendVector (peer : NetPeer) (vec : List (BitVec w)) : Party σ Unit := do
  let sz := BitVec.ofNat 64 vec.length
  send peer sz
  if 0 < sz.toNat then Party.asyncWrite peer (vecBytes vec)

def recvVector (peer : NetPeer) (w : Nat) : Party σ (List (BitVec w)) := do
  let sz ← recv peer 64
  if 0 < sz.toNat then
    let l ← Party.asyncRead peer (sizeBytes w * sz.toNat)
    return vecOf w sz.toNat l
  else return []

theorem vecBytes_length (vec : List (BitVec w)) : (vecBytes vec).length = sizeBytes w * vec.length := by
  induction vec with
  | nil => rfl
  | cons x vec ih =>
    rw [vecBytes, List.flatMap_cons, List.length_append, enc_length, ← vecBytes, ih,
      List.length_cons, Nat.mul_succ, Nat.add_comm]

theorem vecOf_vecBytes (vec : List (BitVec w)) (l : List Byte) :
    vecOf w vec.length (vecBytes vec ++ l) = vec := by
  induction vec with
  | nil => rfl
  | cons x vec ih =>
    have e : vecBytes (x :: vec) ++ l = enc x ++ (vecBytes vec ++ l) := by
      simp [vecBytes, List.append_assoc]
    rw [e, List.length_cons, vecOf, List.take_left' (enc_length x), List.drop_left' (enc_length x),
      dec_enc, ih]

theorem vecOf_length (w n : Nat) (l : List Byte) : (vecOf w n l).length = n := by
  induction n generalizing l with
  | zero => rfl
  | succ n ih => rw [vecOf, List.length_cons, ih]

theorem vecBytes_vecOf (hw : w = 8 * sizeBytes w) {n : Nat} {l : List Byte} (hl : l.length = n * sizeBytes w) :
    vecBytes (vecOf w n l) = l := by
  induction n generalizing l with
  | zero =>
    have hnil : l = [] := List.eq_nil_of_length_eq_zero (by omega)
    rw [hnil]
    rfl
  | succ n ih =>
    rw [Nat.succ_mul] at hl
    have htake : (l.take (sizeBytes w)).length = sizeBytes w := by
      rw [List.length_take]
      omega
    have hdrop : (l.drop (sizeBytes w)).length = n * sizeBytes w := by
      rw [List.length_drop]
      omega
    show enc (dec w (l.take (sizeBytes w))) ++ vecBytes (vecOf w n (l.drop (sizeBytes w))) = l
    rw [enc_dec hw htake, ih hdrop, List.take_append_drop]

theorem vecBytes_inj {a b : List (BitVec w)} (hl : a.length = b.length)
    (h : vecBytes a = vecBytes b) : a = b := by
  have ha := vecOf_vecBytes a []
  rw [hl, h, vecOf_vecBytes] at ha
  exact ha.symm

@[simp] theorem send_run (peer : NetPeer) (value : BitVec w) (s : σ) :
    (send peer value : Party σ Unit).run s = .send peer (enc value) (.ret (.ok (), s)) := rfl

@[simp] theorem recv_run (peer : NetPeer) (w : Nat) (s : σ) :
    (recv peer w : Party σ (BitVec w)).run s =
      .recv peer (sizeBytes w) (fun l => .ret (.ok (dec w l), s)) := rfl

/-! Vectors on a stream. -/

/-- The messages of a vector: its length, then its elements if there are any. -/
def vecFrames (vec : List (BitVec w)) : List (List Byte) :=
  if 0 < vec.length then [enc (BitVec.ofNat 64 vec.length), vecBytes vec]
  else [enc (BitVec.ofNat 64 vec.length)]

theorem vecFrames_append_inj {a b a' b' : List (BitVec w)} (hl : a.length = a'.length)
    (hl' : b.length = b'.length) (h : vecFrames a ++ vecFrames b = vecFrames a' ++ vecFrames b') :
    a = a' ∧ b = b' := by
  have hone : ∀ {c c' : List (BitVec w)}, c.length = c'.length → vecFrames c = vecFrames c' →
      c = c' := by
    intro c c' hc hf
    by_cases hpos : 0 < c.length
    · rw [vecFrames, vecFrames, if_pos hpos, if_pos (hc ▸ hpos)] at hf
      exact vecBytes_inj hc (List.cons.inj (List.cons.inj hf).2).1
    · rw [List.eq_nil_of_length_eq_zero (show c.length = 0 by omega),
        List.eq_nil_of_length_eq_zero (show c'.length = 0 by omega)]
  have hframes : (vecFrames a).length = (vecFrames a').length := by
    simp only [vecFrames, hl]
    split <;> rfl
  obtain ⟨h1, h2⟩ := List.append_inj h hframes
  exact ⟨hone hl h1, hone hl' h2⟩

/-- A received vector, then `k` of it. -/
def recvVec {β : Type} (peer : NetPeer) (w : Nat) (k : List (BitVec w) → Wire β) : Wire β :=
  .recv peer 8 fun l =>
    if 0 < (dec 64 l).toNat then
      .recv peer (sizeBytes w * (dec 64 l).toNat) fun l' => k (vecOf w (dec 64 l).toNat l')
    else k []

/-- `(peer << vec) && (peer' << vec')`, the writes of the two sides interleaved by `order`. -/
def sendVectors (order : List Bool) (peer peer' : NetPeer) (vec vec' : List (BitVec w)) :
    Party σ Unit :=
  ⟨fun s => .sends (merge order ((vecFrames vec).map (peer, ·)) ((vecFrames vec').map (peer', ·)))
    (.ret (.ok (), s))⟩

theorem sendVector_run (peer : NetPeer) (vec : List (BitVec w)) (hn : vec.length < 2^64) (s : σ) :
    (sendVector peer vec : Party σ Unit).run s =
      .sends ((vecFrames vec).map (peer, ·)) (.ret (.ok (), s)) := by
  have e : (BitVec.ofNat 64 vec.length).toNat = vec.length := Nat.mod_eq_of_lt hn
  simp only [sendVector, vecFrames, e]
  split <;> rfl

theorem recvVector_run (peer : NetPeer) (w : Nat) (s : σ) :
    (recvVector peer w : Party σ (List (BitVec w))).run s =
      recvVec peer w fun vec => .ret (.ok vec, s) := by
  simp only [recvVector, recvVec, Party.bind_run, recv_run, Proc.bind_recv, Proc.bind_ret,
    Party.andThen_ok]
  congr 1
  funext l
  split <;> rfl

theorem recvVec_bind {β γ : Type} (peer : NetPeer) (w : Nat) (k : List (BitVec w) → Wire β)
    (f : β → Wire γ) : (recvVec peer w k).bind f = recvVec peer w fun vec => (k vec).bind f := by
  simp only [recvVec, Proc.bind_recv]
  congr 1
  funext l
  split <;> rfl

end NetPeer

section
variable {β : Type} {w : Nat} {a : Role → Wire β} {c : Role → Role → List (List Byte)}
  {v : Role → List (Role × List Byte)} {r : Role → β} {q : Role}
  {views : Role → List (Role × List Byte)}
open NetPeer

/-- Party `p` receives the vector queued for it by `q`. -/
theorem queued_recvVec (p : Role) {k : List (BitVec w) → Wire β} {vec : List (BitVec w)}
    {m : List (List Byte)} (hn : vec.length < 2^64) (ha : a p = recvVec q w k)
    (hc : c q p = vecFrames vec ++ m)
    (h : Queued (Function.update a p (k vec)) (Function.update c q (Function.update (c q) p m))
      (Function.update v p (v p ++ (vecFrames vec).map (q, ·))) r views) :
    Queued a c v r views := by
  have e : (dec 64 (enc (BitVec.ofNat 64 vec.length))).toNat = vec.length := by
    rw [dec_enc]
    exact Nat.mod_eq_of_lt hn
  by_cases hpos : 0 < vec.length
  · rw [vecFrames, if_pos hpos] at hc h
    refine Queued.recv p ha hc (enc_length _) ?_
    have hk : vecOf w vec.length (vecBytes vec) = vec := by
      simpa using vecOf_vecBytes vec []
    have hc' : Function.update c q (Function.update (c q) p (vecBytes vec :: m)) q p =
        vecBytes vec :: m := by simp
    refine Queued.recv (q := q) (n := sizeBytes w * vec.length) (k := fun l' => k (vecOf w vec.length l'))
      p ?_ hc' (vecBytes_length vec) ?_
    · simp only [Function.update_self, e, if_pos hpos]
    · rw [hk]
      simpa using h
  · have hz : vec = [] := List.eq_nil_of_length_eq_zero (by omega)
    subst hz
    rw [vecFrames, if_neg hpos] at hc h
    refine Queued.recv p ha hc (enc_length _) ?_
    simp only [e, if_neg hpos]
    exact h

-- `queued_recvVec` matches on it, so unification must not look inside
attribute [irreducible] NetPeer.recvVec

end

/-! Runs of the three parties. -/

/-- One thing for each party. -/
def tri {α : Type} (a b c : α) : Role → α
  | .P0 => a
  | .P1 => b
  | .P2 => c

section
variable {α : Type} (a b c : α)

@[simp] theorem tri_P0 : tri a b c .P0 = a := rfl
@[simp] theorem tri_P1 : tri a b c .P1 = b := rfl
@[simp] theorem tri_P2 : tri a b c .P2 = c := rfl

theorem filter_map_self (q : Role) (l : List (List Byte)) :
    ((l.map (q, ·)).filter (·.1 = q)).map (·.2) = l := by
  simp [List.filter_map, Function.comp_def]

theorem filter_ne {q q' : Role} (h : q ≠ q') (l : List (List Byte)) :
    (l.map (q, ·)).filter (·.1 = q') = [] := by
  simp [h]

theorem filter_map_ne {q q' : Role} (h : q ≠ q') (l : List (List Byte)) :
    ((l.map (q, ·)).filter (·.1 = q')).map (·.2) = [] := by
  rw [filter_ne h, List.map_nil]

theorem tri_eta (f : Role → α) : tri (f .P0) (f .P1) (f .P2) = f := by
  funext p; cases p <;> rfl

theorem eq_tri {f : Role → α} {a b c : α} (h0 : f .P0 = a) (h1 : f .P1 = b) (h2 : f .P2 = c) :
    f = tri a b c := by
  rw [← h0, ← h1, ← h2, tri_eta]

end

/-- Messages to P0 and to P1, interleaved by `order`, reach each of them in their order. -/
theorem merge_messages (order : List Bool) (m0 m1 : List (List Byte)) (q : Role) :
    ((merge order (m0.map (Role.P0, ·)) (m1.map (Role.P1, ·))).filter (·.1 = q)).map (·.2) =
      tri m0 m1 [] q := by
  cases q with
  | P0 =>
    rw [merge_filter order (.inr (filter_ne (by decide) m1)), List.map_append, filter_map_self,
      filter_map_ne (by decide), List.append_nil, tri_P0]
  | P1 =>
    rw [merge_filter order (.inl (filter_ne (by decide) m0)), List.map_append, filter_map_self,
      filter_map_ne (by decide), List.nil_append, tri_P1]
  | P2 =>
    rw [merge_filter order (.inl (filter_ne (by decide) m0)), List.map_append,
      filter_map_ne (by decide), filter_map_ne (by decide), List.append_nil, tri_P2]

/-- P2 sends P0 and P1 a vector each, in any order of the two sides' writes. -/
theorem Run.deliver {β : Type} {w : Nat} (order : List Bool) {vec0 vec1 : List (BitVec w)}
    (h0 : vec0.length < 2^64) (h1 : vec1.length < 2^64) {k0 k1 : List (BitVec w) → Wire β}
    {r0 r1 : β} (hk0 : k0 vec0 = .ret r0) (hk1 : k1 vec1 = .ret r1) (r2 : β) :
    Run (tri (NetPeer.recvVec .P2 w k0) (NetPeer.recvVec .P2 w k1)
        (.sends (merge order ((NetPeer.vecFrames vec0).map (Role.P0, ·))
          ((NetPeer.vecFrames vec1).map (Role.P1, ·))) (.ret r2)))
      (tri r0 r1 r2)
      (tri ((NetPeer.vecFrames vec0).map (Role.P2, ·)) ((NetPeer.vecFrames vec1).map (Role.P2, ·)) []) := by
  have h : Queued (tri (NetPeer.recvVec .P2 w k0) (NetPeer.recvVec .P2 w k1) (.ret r2))
      (tri (fun _ => []) (fun _ => [])
        (tri (NetPeer.vecFrames vec0) (NetPeer.vecFrames vec1) [])) (fun _ => []) (tri r0 r1 r2)
      (tri ((NetPeer.vecFrames vec0).map (Role.P2, ·)) ((NetPeer.vecFrames vec1).map (Role.P2, ·)) []) := by
    refine queued_recvVec (q := .P2) .P0 h0 rfl (List.append_nil _).symm ?_
    refine queued_recvVec (q := .P2) .P1 h1 rfl (List.append_nil _).symm ?_
    refine Queued.done ?_ ?_ ?_
    · intro p
      cases p
      · exact hk0
      · exact hk1
      · rfl
    · intro p q
      cases p <;> cases q <;> rfl
    · intro p
      cases p <;> rfl
  refine Run.of_queued (Queued.sends .P2 rfl (Queued.congr ?_ ?_ (fun _ => rfl) h))
  · intro p
    cases p <;> rfl
  · intro p q
    cases p
    · rfl
    · rfl
    · rw [Function.update_self, List.nil_append]
      exact merge_messages order _ _ q

section
variable {σ α β : Type}

/-- The parties' coroutines `x` on the memories `s` have a complete run that
    returns `r`, leaves the memories `s'` and shows the parties `v`. -/
def PartyRun (x : Role → Party σ α) (s : Role → σ) (r : Role → α) (s' : Role → σ)
    (v : Role → List (Role × List Byte)) : Prop :=
  Run (fun p => (x p).run (s p)) (fun p => (.ok (r p), s' p)) v

theorem PartyRun.bind {x : Role → Party σ α} {f : Role → α → Party σ β} {s s' s'' : Role → σ}
    {r : Role → α} {t : Role → β} {v w : Role → List (Role × List Byte)}
    (h : PartyRun x s r s' v) (h' : PartyRun (fun p => f p (r p)) s' t s'' w) :
    PartyRun (fun p => x p >>= f p) s t s'' (fun p => v p ++ w p) :=
  Run.bind (K := fun p => Party.andThen (f p)) h h'

/-- A run of the network of the three coroutines `a0`, `a1`, `a2`. -/
theorem PartyRun.of_queued {x : Role → Party σ α} {s s' : Role → σ} {r : Role → α}
    {v : Role → List (Role × List Byte)} {a0 a1 a2 : Wire (Except Err α × σ)}
    (h0 : (x .P0).run (s .P0) = a0) (h1 : (x .P1).run (s .P1) = a1)
    (h2 : (x .P2).run (s .P2) = a2)
    (h : Queued (tri a0 a1 a2) (fun _ _ => []) (fun _ => []) (fun p => (.ok (r p), s' p)) v) :
    PartyRun x s r s' v := by
  have e : (fun p => (x p).run (s p)) = tri a0 a1 a2 := eq_tri h0 h1 h2
  rw [PartyRun, e]
  exact Run.of_queued h

theorem PartyRun.congr {x x' : Role → Party σ α} {s s' : Role → σ} {r : Role → α}
    {v : Role → List (Role × List Byte)} (hx : ∀ p, (x p).run (s p) = (x' p).run (s p))
    (h : PartyRun x' s r s' v) : PartyRun x s r s' v := by
  rw [PartyRun, funext hx]
  exact h

theorem PartyRun.pure (r : Role → α) (s : Role → σ) :
    PartyRun (fun p => Pure.pure (r p)) s r s (fun _ => []) :=
  Run.ret (fun p => (Except.ok (r p), s p))

theorem PartyRun.map {x : Role → Party σ α} {s s' : Role → σ} {r : Role → α}
    {v : Role → List (Role × List Byte)} (h : PartyRun x s r s' v) (f : Role → α → β) :
    PartyRun (fun p => x p >>= fun a => Pure.pure (f p a)) s (fun p => f p (r p)) s' v := by
  have h' := h.bind (f := fun p a => Pure.pure (f p a)) (PartyRun.pure _ s')
  simp only [List.append_nil] at h'
  exact h'

end

end Mpc
