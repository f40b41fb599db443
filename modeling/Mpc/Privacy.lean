import Mathlib.Algebra.BigOperators.Fin
import Mathlib.Algebra.Ring.Hom.Defs
import Mathlib.Data.Matrix.Mul
import Mpc.Gates
import Mpc.Lib.Masked
import Mpc.Lib.XorWord

/- What a semi-honest P0 or P1 learns from a multiplication, an AND or a dot
   product: P2's randomness is four words (four vectors for the dot product), and
   `viewCount` is the number of its choices under which a party receives a given
   view. Each gate's view is an encoding of `Masked.view`, so `Masked` says when
   two choices of the other party's shares have the same counts: P2 hands out the
   cross products without re-randomising them, and the counts agree exactly when
   the share of the second operand is the same (`view_counts_iff`). -/
namespace Mpc
open Fifo LE

/-! Counting views. -/

section
variable {Ω α : Type}

/-- The number of choices under which the parties' run shows `p` the view `t`. -/
noncomputable def viewCount (x : Role → Party Host α) (e : Ω → Role → Env) (p : Role)
    (t : List (Role × List Byte)) : Nat :=
  {ρ | ∃ r s' v, PartyRun x (fun q => Host.online q (e ρ q)) r s' v ∧ v p = t}.ncard

/-- `p` sees every view equally often in `x` and in `x'`. -/
def SameViews (x x' : Role → Party Host α) (e : Ω → Role → Env) (p : Role) : Prop :=
  ∀ t, viewCount x e p t = viewCount x' e p t

theorem viewCount_eq {x : Role → Party Host α} {e : Ω → Role → Env} {p : Role}
    {f : Ω → List (Role × List Byte)}
    (hf : ∀ ρ, ∃ r s' v, PartyRun x (fun q => Host.online q (e ρ q)) r s' v ∧ v p = f ρ)
    (t : List (Role × List Byte)) : viewCount x e p t = {ρ | f ρ = t}.ncard := by
  rw [viewCount]
  congr 1
  ext ρ
  obtain ⟨r, s', v, hrun, hv⟩ := hf ρ
  constructor
  · rintro ⟨r', s'', v', hrun', rfl⟩
    show f ρ = v' p
    rw [← hv, (Run.unique hrun hrun').2]
  · intro h
    exact ⟨r, s', v, hrun, hv.trans h⟩

/-- Two runs that show `p` encodings of `Masked.view` for the shares `x`, `y` and `x'`, `y'`. -/
theorem sameViews_iff {V W S : Type} [AddCommGroup V] [AddCommGroup W] [AddCommGroup S]
    (B : V →+ W →+ S) {x x' : Role → Party Host α} {e : Ω → Role → Env} {p : Role}
    (masks : Ω ≃ (V × W) × V × W) {encode : (V × W) × S × V × W → List (Role × List Byte)}
    (hencode : Function.Injective encode) {a a' : V} {b b' : W}
    (h : ∀ ρ, ∃ r s' v, PartyRun x (fun q => Host.online q (e ρ q)) r s' v ∧
      v p = encode (Masked.view B a b (masks ρ)))
    (h' : ∀ ρ, ∃ r s' v, PartyRun x' (fun q => Host.online q (e ρ q)) r s' v ∧
      v p = encode (Masked.view B a' b' (masks ρ))) :
    SameViews x x' e p ↔ ∀ c, B c (b - b') = 0 := by
  have hinj : ∀ a b, Function.Injective fun ρ => encode (Masked.view B a b (masks ρ)) := fun a b =>
    hencode.comp ((Masked.view_injective B a b).comp masks.injective)
  have hrange : ∀ a b, Set.range (fun ρ => encode (Masked.view B a b (masks ρ))) =
      Set.image encode (Set.range (Masked.view B a b)) := by
    intro a b
    rw [← Set.range_comp]
    exact masks.surjective.range_comp (encode ∘ Masked.view B a b)
  calc SameViews x x' e p
      ↔ ∀ t, {ρ | encode (Masked.view B a b (masks ρ)) = t}.ncard =
          {ρ | encode (Masked.view B a' b' (masks ρ)) = t}.ncard := by
        refine forall_congr' fun t => ?_
        rw [viewCount_eq h, viewCount_eq h']
    _ ↔ Set.image encode (Set.range (Masked.view B a b)) =
          Set.image encode (Set.range (Masked.view B a' b')) := by
        rw [Masked.ncard_fiber_eq_iff (hinj a b) (hinj a' b'), hrange, hrange]
    _ ↔ ∀ c, B c (b - b') = 0 := by
        rw [hencode.image_injective.eq_iff, Masked.range_view_eq_iff]

end

/-! P2's randomness. -/

/-- Four draws of P2, in the order it makes them. -/
abbrev Draws (A : Type) := A × A × A × A

/-- The entropy that returns the bytes `l`. -/
def Entropy.tape (l : List Byte) : Entropy := ⟨fun i => l.getD i 0, 0⟩

theorem Entropy.after_eq (e : Entropy) (n k : Nat) :
    e.after n k = { e with drawn := e.drawn + n * k } := by
  induction k with
  | zero => rfl
  | succ k ih => rw [Entropy.after, ih, Entropy.advance, Nat.mul_succ, Nat.add_assoc]

theorem Entropy.tape_take (l : List Byte) (n k : Nat) (h : n * k + n ≤ l.length) :
    ((Entropy.tape l).after n k).take n = (l.drop (n * k)).take n := by
  apply List.ext_getElem
  · simp only [Entropy.take, List.length_map, List.length_range, List.length_take, List.length_drop]
    omega
  · intro i h1 h2
    have hi : i < n := by simpa [Entropy.take] using h1
    have hb : n * k + i < l.length := by omega
    simp [Entropy.take, Entropy.after_eq, Entropy.tape, List.getD_eq_getElem?_getD, hb]

/-- The bytes of four draws that `f` images. -/
def Draws.bytes {A : Type} (f : A → List Byte) (ρ : Draws A) : List Byte :=
  f ρ.1 ++ (f ρ.2.1 ++ (f ρ.2.2.1 ++ f ρ.2.2.2))

theorem Draws.tape_take {A : Type} {f : A → List Byte} {n : Nat} (hf : ∀ a, (f a).length = n)
    (ρ : Draws A) :
    let e := Entropy.tape (Draws.bytes f ρ)
    (e.after n 0).take n = f ρ.1 ∧ (e.after n 1).take n = f ρ.2.1 ∧
      (e.after n 2).take n = f ρ.2.2.1 ∧ (e.after n 3).take n = f ρ.2.2.2 := by
  have hlen : (Draws.bytes f ρ).length = n + (n + (n + n)) := by
    simp only [Draws.bytes, List.length_append, hf]
  have h1 : (Draws.bytes f ρ).drop (n * 1) = f ρ.2.1 ++ (f ρ.2.2.1 ++ f ρ.2.2.2) := by
    rw [Nat.mul_one, Draws.bytes, List.drop_left' (hf _)]
  have h2 : (Draws.bytes f ρ).drop (n * 2) = f ρ.2.2.1 ++ f ρ.2.2.2 := by
    rw [show n * 2 = n * 1 + n by omega, ← List.drop_drop, h1, List.drop_left' (hf _)]
  have h3 : (Draws.bytes f ρ).drop (n * 3) = f ρ.2.2.2 := by
    rw [show n * 3 = n * 2 + n by omega, ← List.drop_drop, h2, List.drop_left' (hf _)]
  refine ⟨?_, ?_, ?_, ?_⟩
  · rw [Entropy.tape_take _ _ _ (by omega), Nat.mul_zero, List.drop_zero, Draws.bytes,
      List.take_left' (hf _)]
  · rw [Entropy.tape_take _ _ _ (by omega), h1, List.take_left' (hf _)]
  · rw [Entropy.tape_take _ _ _ (by omega), h2, List.take_left' (hf _)]
  · rw [Entropy.tape_take _ _ _ (by omega), h3, ← hf ρ.2.2.2, List.take_length]

/-- The environments with P2's entropy replaced by the bytes `l`. -/
def dealing (e : Role → Env) (l : List Byte) : Role → Env :=
  Function.update e .P2 { e .P2 with entropy := .tape l }

/-- The environments in which P2 draws the words `ρ`. -/
def drawWords {w : Nat} (e : Role → Env) (ρ : Draws (BitVec w)) : Role → Env :=
  dealing e (Draws.bytes enc ρ)

theorem Env.skips_entropy (e : Env) (w k : Nat) :
    (e.skips w k).entropy = e.entropy.after (sizeBytes w) k := by
  induction k with
  | zero => rfl
  | succ k ih => rw [Env.skips, Env.skip, ih, Entropy.after, Entropy.skip]

/-- P2's words are the draws on its tape. -/
theorem draw_drawWords {w : Nat} (e : Role → Env) (ρ : Draws (BitVec w)) :
    let e2 := drawWords e ρ .P2
    e2.draw w 0 = ρ.1 ∧ e2.draw w 1 = ρ.2.1 ∧ e2.draw w 2 = ρ.2.2.1 ∧ e2.draw w 3 = ρ.2.2.2 := by
  obtain ⟨h0, h1, h2, h3⟩ := Draws.tape_take (enc_length (w := w)) ρ
  simp only [Env.draw, Env.word, Entropy.word, Env.skips_entropy, drawWords, dealing, Function.update_self,
    h0, h1, h2, h3, dec_enc, and_self]

/-- The other of P0 and P1. -/
def peerOf : Role → Role
  | .P0 => .P1
  | .P1 => .P0
  | .P2 => .P2

/-! Multiplication and AND. -/

section
variable {w : Nat}

/-- Multiplication as a biadditive map. -/
def mulHom (w : Nat) : BitVec w →+ BitVec w →+ BitVec w :=
  Masked.biadditive (· * ·) add_mul mul_add

/-- The parties multiply the shares `s`. -/
def mulParties (s : Role → BitVec w × BitVec w) : Role → Party Host (BitVec w) := fun p =>
  mpcMul ⟨(s p).1, true⟩ ⟨(s p).2, true⟩ p (selfOf p) (peer0Of p) (peer1Of p)

/-- The parties AND the shares `s`. -/
def andParties (s : Role → BitVec w × BitVec w) : Role → Party Host (BitVec w) := fun p =>
  mpcAnd ⟨(s p).1, true⟩ ⟨(s p).2, true⟩ p (selfOf p) (peer0Of p) (peer1Of p)

/-- P2's draws as the masks of party `p` and of the other, in a multiplication. -/
def mulMasks (A : Type) : Role → Draws A ≃ (A × A) × A × A
  | .P1 => ⟨fun (a, b, c, d) => ((b, d), a, c), fun ((b, d), a, c) => (a, b, c, d),
      fun _ => rfl, fun _ => rfl⟩
  | _ => ⟨fun (a, b, c, d) => ((a, c), b, d), fun ((a, c), b, d) => (a, b, c, d),
      fun _ => rfl, fun _ => rfl⟩

/-- P2's draws as the masks of party `p` and of the other, in an AND. -/
def andMasks (A : Type) : Role → Draws A ≃ (A × A) × A × A
  | .P1 => ⟨fun (a, b, c, d) => ((c, d), a, b), fun ((c, d), a, b) => (a, b, c, d),
      fun _ => rfl, fun _ => rfl⟩
  | _ => ⟨fun (a, b, c, d) => ((a, b), c, d), fun ((a, b), c, d) => (a, b, c, d),
      fun _ => rfl, fun _ => rfl⟩

/-- The view of a gate as bytes on the streams from P2 and from `peer`. -/
def encodeView (peer : Role) (t : (BitVec w × BitVec w) × BitVec w × BitVec w × BitVec w) :
    List (Role × List Byte) :=
  gateView ⟨t.1.1, t.1.2, t.2.1⟩ peer t.2.2

theorem encodeView_injective (peer : Role) : Function.Injective (encodeView (w := w) peer) := by
  rintro ⟨⟨a, b⟩, c, d, f⟩ ⟨⟨a', b'⟩, c', d', f'⟩ h
  simp only [encodeView, gateView, List.cons.injEq, Prod.mk.injEq, true_and, and_true,
    enc_injective.eq_iff] at h
  obtain ⟨rfl, rfl, rfl, rfl, rfl⟩ := h
  rfl

theorem mul_view (hw : 32 ≤ w) (e : Role → Env) {p : Role} (hp : p ≠ .P2)
    (s : Role → BitVec w × BitVec w) (ρ : Draws (BitVec w)) :
    ∃ r s' v, PartyRun (mulParties s) (fun q => Host.online q (drawWords e ρ q)) r s' v ∧
      v p = encodeView (peerOf p) (Masked.view (mulHom w) (s (peerOf p)).1 (s (peerOf p)).2
        (mulMasks _ p ρ)) := by
  refine ⟨_, _, _, mpcMul_run (fun _ => rfl) hw _, ?_⟩
  obtain ⟨h0, h1, h2, h3⟩ := draw_drawWords e ρ
  have hd : mulDeal (drawWords e ρ .P2) w = tri ⟨ρ.1, ρ.2.2.1, ρ.1 * ρ.2.2.2⟩
      ⟨ρ.2.1, ρ.2.2.2, ρ.2.1 * ρ.2.2.1⟩ ⟨0, 0, 0⟩ := by
    rw [mulDeal, h0, h1, h2, h3, mul_comm ρ.2.2.1]
  rw [mulViews, hd]
  cases p with
  | P2 => exact absurd rfl hp
  | P0 | P1 => rfl

/-- What `p` sees of a multiplication hides the other's first share, not its second. -/
theorem mul_sameViews_iff (hw : 32 ≤ w) (e : Role → Env) {p : Role} (hp : p ≠ .P2)
    (s : Role → BitVec w × BitVec w) (c c' : BitVec w × BitVec w) :
    SameViews (mulParties (Function.update s (peerOf p) c))
      (mulParties (Function.update s (peerOf p) c'))
      (drawWords (w := w) e) p ↔ c.2 = c'.2 := by
  have h := mul_view hw e hp (Function.update s (peerOf p) c)
  have h' := mul_view hw e hp (Function.update s (peerOf p) c')
  rw [Function.update_self] at h h'
  refine (sameViews_iff (mulHom w) (mulMasks _ p) (encodeView_injective (peerOf p)) h h').trans ?_
  constructor
  · intro hz
    have h1 := hz 1
    rw [mulHom, Masked.biadditive_apply, one_mul] at h1
    exact sub_eq_zero.mp h1
  · intro hc a
    rw [mulHom, Masked.biadditive_apply, hc, sub_self, mul_zero]

/-- The view of a gate on words under XOR. -/
def encodeXorView (peer : Role) (t : (XorWord w × XorWord w) × XorWord w × XorWord w × XorWord w) :
    List (Role × List Byte) :=
  encodeView (w := w) peer t

theorem and_view (e : Role → Env) {p : Role} (hp : p ≠ .P2)
    (s : Role → BitVec w × BitVec w) (ρ : Draws (XorWord w)) :
    ∃ r s' v, PartyRun (andParties s) (fun q => Host.online q (drawWords (w := w) e ρ q)) r s' v ∧
      v p = encodeXorView (peerOf p) (Masked.view (XorWord.andHom w) (.of (s (peerOf p)).1)
        (.of (s (peerOf p)).2) (andMasks _ p ρ)) := by
  refine ⟨_, _, _, mpcAnd_run (fun _ => rfl) _, ?_⟩
  obtain ⟨h0, h1, h2, h3⟩ := draw_drawWords (w := w) e ρ
  have hd : andDeal (drawWords (w := w) e ρ .P2) w =
      tri ⟨ρ.1.bits, ρ.2.1.bits, ρ.1.bits &&& ρ.2.2.2.bits⟩
        ⟨ρ.2.2.1.bits, ρ.2.2.2.bits, ρ.2.2.1.bits &&& ρ.2.1.bits⟩ ⟨0, 0, 0⟩ := by
    rw [andDeal, h0, h1, h2, h3]
    rfl
  rw [andViews, hd]
  cases p with
  | P2 => exact absurd rfl hp
  | P0 | P1 => rfl

/-- What `p` sees of an AND hides the other's first share, not its second. -/
theorem and_sameViews_iff (e : Role → Env) {p : Role} (hp : p ≠ .P2)
    (s : Role → BitVec w × BitVec w) (c c' : BitVec w × BitVec w) :
    SameViews (andParties (Function.update s (peerOf p) c))
      (andParties (Function.update s (peerOf p) c'))
      (drawWords (w := w) e) p ↔ c.2 = c'.2 := by
  have h := and_view e hp (Function.update s (peerOf p) c)
  have h' := and_view e hp (Function.update s (peerOf p) c')
  rw [Function.update_self] at h h'
  have hinj : Function.Injective (encodeXorView (w := w) (peerOf p)) :=
    encodeView_injective (w := w) (peerOf p)
  refine (sameViews_iff (XorWord.andHom w) (andMasks _ p) hinj h h').trans ?_
  constructor
  · intro hz
    have h1 := hz (.of (BitVec.allOnes w))
    rw [XorWord.andHom_apply, XorWord.bits_of, BitVec.allOnes_and, XorWord.of_bits] at h1
    exact XorWord.of_injective (sub_eq_zero.mp h1)
  · intro hc a
    rw [hc, sub_self, map_zero]

end

/-! The dot product of uniform vectors. -/

section
variable {n : Nat}

/-- The dot product as a biadditive map. -/
def dotHom (n : Nat) : (Fin n → BitVec 64) →+ (Fin n → BitVec 64) →+ BitVec 64 :=
  Masked.biadditive (fun a b => ∑ i, a i * b i)
    (fun a a' b => by simp only [Pi.add_apply, add_mul, Finset.sum_add_distrib])
    (fun a b b' => by simp only [Pi.add_apply, mul_add, Finset.sum_add_distrib])

theorem dot_ofFn (a b : Fin n → BitVec 64) : dot (List.ofFn a) (List.ofFn b) = dotHom n a b := by
  rw [dotHom, Masked.biadditive_apply]
  induction n with
  | zero => rfl
  | succ n ih => rw [List.ofFn_succ, List.ofFn_succ, dot_cons, ih, Fin.sum_univ_succ]

/-- The vector of the elements `a`. -/
def vec (a : Fin n → BitVec 64) : List (BitVec 64) := List.ofFn a

@[simp] theorem vec_length (a : Fin n → BitVec 64) : (vec a).length = n := List.length_ofFn

theorem vec_inj {a b : Fin n → BitVec 64} (h : vec a = vec b) : a = b := List.ofFn_injective h

theorem zipWith_vec (a b : Fin n → BitVec 64) :
    List.zipWith (· + ·) (vec a) (vec b) = vec (a + b) := by
  apply List.ext_getElem
  · simp
  · intro i h1 h2
    simp [vec]

/-- The parties take the dot product of the shares `s`, with P2's vectors uniform. -/
def dotParties (s : Role → (Fin n → BitVec 64) × (Fin n → BitVec 64)) :
    Role → Party Host (BitVec 64) := fun p =>
  mpcDotproduct (uniformExpander n) ⟨vec (s p).1, true⟩ ⟨vec (s p).2, true⟩ p (selfOf p) (peer0Of p)
    (peer1Of p)

/-- The environments in which P2 draws the vectors `ρ`. -/
def drawVectors (e : Role → Env) (ρ : Draws (Fin n → BitVec 64)) : Role → Env :=
  dealing e (Draws.bytes (fun v => NetPeer.vecBytes (vec v)) ρ)

/-- The view of a dot product as bytes on the streams. -/
def encodeDotView (peer : Role) (t : ((Fin n → BitVec 64) × (Fin n → BitVec 64)) × BitVec 64 ×
    (Fin n → BitVec 64) × (Fin n → BitVec 64)) : List (Role × List Byte) :=
  dotView ⟨NetPeer.vecBytes (vec t.1.1), NetPeer.vecBytes (vec t.1.2), t.2.1⟩ peer
    (vec t.2.2.1, vec t.2.2.2)

theorem encodeDotView_injective (peer : Role) : Function.Injective (encodeDotView (n := n) peer) := by
  rintro ⟨⟨a, b⟩, c, d, f⟩ ⟨⟨a', b'⟩, c', d', f'⟩ h
  simp only [encodeDotView, dotView, DotMaterial.messages, List.map_cons, List.map_nil,
    List.cons_append, List.nil_append, List.cons.injEq, Prod.mk.injEq, true_and,
    enc_injective.eq_iff] at h
  obtain ⟨ha, hb, rfl, hm⟩ := h
  have hpair : Function.Injective fun l : List Byte => (peer, l) := fun _ _ h => (Prod.mk.inj h).2
  have hlen : ∀ u v : Fin n → BitVec 64, (vec u).length = (vec v).length := by simp
  obtain ⟨hd, hf⟩ := NetPeer.vecFrames_append_inj (hlen _ _) (hlen _ _) (List.map_injective_iff.mpr hpair hm)
  rw [vec_inj (NetPeer.vecBytes_inj (hlen _ _) ha), vec_inj (NetPeer.vecBytes_inj (hlen _ _) hb),
    vec_inj hd, vec_inj hf]

theorem fill_vec (v : Fin n → BitVec 64) :
    (uniformExpander n).fill n (NetPeer.vecBytes (vec v)) = vec v := by
  have h := NetPeer.vecOf_vecBytes (vec v) []
  rwa [vec_length, List.append_nil] at h

theorem dot_view (hn : n < 2^64) (e : Role → Env) {p : Role} (hp : p ≠ .P2)
    (s : Role → (Fin n → BitVec 64) × (Fin n → BitVec 64)) (ρ : Draws (Fin n → BitVec 64)) :
    ∃ r s' v, PartyRun (dotParties s) (fun q => Host.online q (drawVectors e ρ q)) r s' v ∧
      v p = encodeDotView (peerOf p) (Masked.view (dotHom n) (s (peerOf p)).1 (s (peerOf p)).2
        (mulMasks _ p ρ)) := by
  refine ⟨_, _, _, mpcDotproduct_run (n := n) (fun l => NetPeer.vecOf_length _ _ _) hn
    (fun _ => vec_length _) (fun _ => vec_length _) _, ?_⟩
  have hlen : ∀ v : Fin n → BitVec 64, (NetPeer.vecBytes (vec v)).length = 8 * n := by
    intro v
    rw [NetPeer.vecBytes_length, vec_length]
    rfl
  obtain ⟨h0, h1, h2, h3⟩ := Draws.tape_take hlen ρ
  have hd : dotDeal (uniformExpander n) n (drawVectors e ρ .P2) =
      tri ⟨NetPeer.vecBytes (vec ρ.1), NetPeer.vecBytes (vec ρ.2.2.1), dotHom n ρ.1 ρ.2.2.2⟩
        ⟨NetPeer.vecBytes (vec ρ.2.1), NetPeer.vecBytes (vec ρ.2.2.2), dotHom n ρ.2.1 ρ.2.2.1⟩
        ⟨[], [], 0⟩ := by
    have hs : ∀ k, (drawVectors e ρ .P2).seed (uniformExpander n).seedLen k =
        ((Entropy.tape (Draws.bytes (fun v => NetPeer.vecBytes (vec v)) ρ)).after (8 * n) k).take
          (8 * n) := fun _ => rfl
    simp only [dotDeal, hs, h0, h1, h2, h3, fill_vec]
    rw [← dot_ofFn, ← dot_ofFn]
    rfl
  have hmask : ∀ (u v X Y : Fin n → BitVec 64) (g : BitVec 64), dotMask (uniformExpander n) n (vec u)
      (vec v) ⟨NetPeer.vecBytes (vec X), NetPeer.vecBytes (vec Y), g⟩ = (vec (u + X), vec (v + Y)) := by
    intro u v X Y g
    simp only [dotMask, fill_vec, zipWith_vec]
  simp only [dotViews, hd]
  cases p with
  | P2 => exact absurd rfl hp
  | P0 | P1 =>
    simp only [tri_P0, tri_P1, hmask]
    rfl

/-- What `p` sees of a dot product hides the other's first share, not its second. -/
theorem dot_sameViews_iff (hn : n < 2^64) (e : Role → Env) {p : Role} (hp : p ≠ .P2)
    (s : Role → (Fin n → BitVec 64) × (Fin n → BitVec 64))
    (c c' : (Fin n → BitVec 64) × (Fin n → BitVec 64)) :
    SameViews (dotParties (Function.update s (peerOf p) c))
      (dotParties (Function.update s (peerOf p) c')) (drawVectors (n := n) e) p ↔ c.2 = c'.2 := by
  have h := dot_view hn e hp (Function.update s (peerOf p) c)
  have h' := dot_view hn e hp (Function.update s (peerOf p) c')
  rw [Function.update_self] at h h'
  refine (sameViews_iff (dotHom n) (mulMasks _ p) (encodeDotView_injective (peerOf p)) h h').trans ?_
  constructor
  · intro hz
    funext i
    have hi := hz (Pi.single i 1)
    simp only [dotHom, Masked.biadditive_apply, Pi.single_apply, ite_mul, one_mul, zero_mul,
      Finset.sum_ite_eq', Finset.mem_univ, if_true, Pi.sub_apply] at hi
    exact sub_eq_zero.mp hi
  · intro hc a
    rw [hc, sub_self, map_zero]

end

/-! Views and the other party's shares. -/

/-- A party's views of a multiplication, an AND and a dot product of uniform vectors have the
    same counts for two choices of the other's shares exactly when these agree on the second
    operand. -/
theorem view_counts_iff (e : Role → Env) {p : Role} (hp : p ≠ .P2) {n : Nat} (hn : n < 2^64) :
    (∀ (s : Role → BitVec 64 × BitVec 64) (c c' : BitVec 64 × BitVec 64),
      SameViews (mulParties (Function.update s (peerOf p) c))
        (mulParties (Function.update s (peerOf p) c')) (drawWords (w := 64) e) p ↔ c.2 = c'.2) ∧
    (∀ (s : Role → BitVec 64 × BitVec 64) (c c' : BitVec 64 × BitVec 64),
      SameViews (andParties (Function.update s (peerOf p) c))
        (andParties (Function.update s (peerOf p) c')) (drawWords (w := 64) e) p ↔ c.2 = c'.2) ∧
    (∀ (s : Role → (Fin n → BitVec 64) × (Fin n → BitVec 64))
      (c c' : (Fin n → BitVec 64) × (Fin n → BitVec 64)),
      SameViews (dotParties (Function.update s (peerOf p) c))
        (dotParties (Function.update s (peerOf p) c')) (drawVectors (n := n) e) p ↔ c.2 = c'.2) :=
  ⟨mul_sameViews_iff (by decide) e hp, and_sameViews_iff e hp, dot_sameViews_iff hn e hp⟩

theorem view_counts_iff_P0 :
    SameViews (mulParties (w := 64) (Function.update (fun _ => (3, 5)) .P1 (7, 1)))
      (mulParties (Function.update (fun _ => (3, 5)) .P1 (9, 1)))
      (drawWords (w := 64) fun _ => Env.zeros) .P0 :=
  ((view_counts_iff (n := 2) (fun _ => Env.zeros) (p := .P0) (by decide) (by decide)).1 _ _ _).mpr rfl

/-- P0 tells P1's second shares 0 and 1 apart. -/
theorem mul_views_differ :
    ¬ ∀ t, viewCount (mulParties (w := 64) (Function.update (fun _ => (0, 0)) .P1 (0, 0)))
      (drawWords (w := 64) fun _ => Env.zeros) .P0 t =
      viewCount (mulParties (w := 64) (Function.update (fun _ => (0, 0)) .P1 (0, 1)))
      (drawWords (w := 64) fun _ => Env.zeros) .P0 t := by
  intro h
  have h01 := (mul_sameViews_iff (by decide) (fun _ => Env.zeros) (p := .P0) (by decide)
    (fun _ => (0, 0)) (0, 0) (0, 1)).mp h
  exact absurd h01 (by decide)

end Mpc
