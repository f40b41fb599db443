import Mpc.Mod128

/- The mixed dot product of a vector of `mX` and a vector of scalars (types.hpp). The
   template takes every arithmetic scalar type and casts each scalar to a byte before
   it multiplies, so it is the homogeneous product with the low bytes of the scalars.
   It is the homogeneous product with the scalars themselves exactly when what the cast
   drops adds up to 0 modulo 2^128; for a fixed scalar vector and every `mX` vector,
   exactly when every scalar is below 256 (`mixedDot_exact_iff`). -/
namespace Mpc
open LE

/-- The unsigned integral types `Scalar` stands for. -/
inductive UIntType where
  | uint8T | uint16T | uint32T | uint64T
  deriving DecidableEq

def UIntType.bits : UIntType → Nat
  | uint8T => 8
  | uint16T => 16
  | uint32T => 32
  | uint64T => 64

theorem UIntType.bits_le (τ : UIntType) : τ.bits ≤ 64 := by
  cases τ <;> decide

section
variable {w : Nat}

/-- `static_cast<uint8_t>`. -/
def castByte (s : BitVec w) : Byte := s.setWidth 8

/-- The accumulator of the mixed dot product. -/
def mixedLoop (a : List MX) (b : List (BitVec w)) : MX :=
  (a.zip b).foldl (fun acc p => acc + p.1 * castByte p.2) 0

/-- Mixed dot product (`vector<mX> * vector<Scalar>`). -/
def mixedDot (a : List MX) (b : List (BitVec w)) : Except Err MX :=
  if a.length ≠ b.length then .error (.runtimeError "dot (mX,Scalar): size mismatch")
  else .ok (mixedLoop a b)

/-- Symmetric version (`vector<Scalar> * vector<mX>`). -/
def mixedDotSymm (a : List (BitVec w)) (b : List MX) : Except Err MX := mixedDot b a

/-- A scalar zero-extended to a block. -/
def MX.ofScalar (s : BitVec w) : MX := ⟨mmSetEpi64x 0 (s.setWidth 64)⟩

/-- What the cast to a byte drops of a scalar. -/
def castLoss (s : BitVec w) : Nat := s.toNat / 256 * 256

theorem castByte_add_loss (s : BitVec w) : (castByte s).toNat + castLoss s = s.toNat := by
  rw [castByte, BitVec.toNat_setWidth, castLoss]
  exact Nat.mod_add_div' s.toNat 256

theorem castLoss_eq_zero (s : BitVec w) : castLoss s = 0 ↔ s.toNat < 256 := by
  rw [castLoss]
  omega

/-- The loop is the homogeneous one on the bytes the scalars are cast to. -/
theorem mixedLoop_eq (a : List MX) (b : List (BitVec w)) :
    mixedLoop a b = dotLoop a (b.map fun s => MX.ofByte (castByte s)) := by
  rw [mixedLoop, dotLoop, List.zip_map_right, List.foldl_map]
  rfl

theorem MX.value_ofScalar (hw : w ≤ 64) (s : BitVec w) : (MX.ofScalar s).value = s.toNat := by
  rw [value, ofScalar, halvesValue_set, BitVec.toNat_setWidth_of_le hw]
  simp

/-- The sum over the products of values with scalars read by `f`. -/
def scaledSum (f : BitVec w → Nat) (a : List MX) (b : List (BitVec w)) : Nat :=
  (List.zipWith (fun x s => x.value * f s) a b).sum

theorem scaledSum_add (f g : BitVec w → Nat) (a : List MX) (b : List (BitVec w)) :
    scaledSum (fun s => f s + g s) a b = scaledSum f a b + scaledSum g a b := by
  induction a generalizing b with
  | nil => rfl
  | cons x a ih =>
    cases b with
    | nil => rfl
    | cons s b =>
      have h := ih b
      simp only [scaledSum, List.zipWith_cons_cons, List.sum_cons] at h ⊢
      rw [h]
      ring

theorem scaledSum_eq_zero {f : BitVec w → Nat} {b : List (BitVec w)} (h : ∀ s ∈ b, f s = 0)
    (a : List MX) : scaledSum f a b = 0 := by
  refine List.sum_eq_zero fun p hp => ?_
  rw [← List.map_uncurry_zip_eq_zipWith] at hp
  obtain ⟨⟨x, s⟩, hmem, rfl⟩ := List.mem_map.mp hp
  show x.value * f s = 0
  rw [h s (List.of_mem_zip hmem).2, Nat.mul_zero]

/-- The value of the mixed loop: the low bytes of the scalars are multiplied. -/
theorem value_mixedLoop (a : List MX) (b : List (BitVec w)) :
    (mixedLoop a b).value = scaledSum (fun s => (castByte s).toNat) a b % 2^128 := by
  rw [mixedLoop_eq, MX.value_dotLoop, List.zipWith_map_right]
  simp only [MX.value_ofByte]
  rfl

/-- The value of the homogeneous loop on the zero-extended scalars. -/
theorem value_dotLoop_scalars (hw : w ≤ 64) (a : List MX) (b : List (BitVec w)) :
    (dotLoop a (b.map MX.ofScalar)).value = scaledSum BitVec.toNat a b % 2^128 := by
  rw [MX.value_dotLoop, List.zipWith_map_right]
  simp only [MX.value_ofScalar hw]
  rfl

/-- The two loops agree exactly when what the casts drop adds up to 0 modulo 2^128. -/
theorem mixedLoop_eq_dotLoop (hw : w ≤ 64) (a : List MX) (b : List (BitVec w)) :
    mixedLoop a b = dotLoop a (b.map MX.ofScalar) ↔ 2^128 ∣ scaledSum castLoss a b := by
  have hsplit : scaledSum BitVec.toNat a b =
      scaledSum (fun s => (castByte s).toNat) a b + scaledSum castLoss a b := by
    rw [← scaledSum_add]
    simp only [castByte_add_loss]
  rw [← MX.value_injective.eq_iff, value_mixedLoop, value_dotLoop_scalars hw, hsplit]
  have hmod := Nat.modEq_iff_dvd' (n := 2^128)
    (Nat.le_add_right (scaledSum (fun s => (castByte s).toNat) a b) (scaledSum castLoss a b))
  rw [Nat.add_sub_cancel_left] at hmod
  exact hmod

theorem mixedDot_ok {a : List MX} {b : List (BitVec w)} (h : a.length = b.length) :
    mixedDot a b = .ok (mixedLoop a b) := if_neg (not_not.mpr h)

theorem mixedDot_throws (a : List MX) (b : List (BitVec w)) :
    (∃ e, mixedDot a b = .error e) ↔ a.length ≠ b.length := by
  constructor
  · intro h hlen
    obtain ⟨e, he⟩ := h
    rw [mixedDot_ok hlen] at he
    cases he
  · intro h
    exact ⟨_, if_pos h⟩

/-- Both overloads give the homogeneous product with the zero-extended scalars, the sum
    of the products modulo 2^128, and throw exactly on vectors of different lengths. -/
def MixedExact (a : List MX) (b : List (BitVec w)) : Prop :=
  (a.length = b.length → ∃ d, mixedDot a b = .ok d ∧ mixedDotSymm b a = .ok d ∧
    dotProduct a (b.map MX.ofScalar) = .ok d ∧ d.value = scaledSum BitVec.toNat a b % 2^128) ∧
  ((∃ e, mixedDot a b = .error e) ↔ a.length ≠ b.length) ∧
  ((∃ e, mixedDotSymm b a = .error e) ↔ a.length ≠ b.length)

theorem mixedExact_iff (hw : w ≤ 64) (a : List MX) (b : List (BitVec w)) :
    MixedExact a b ↔ (a.length = b.length → 2^128 ∣ scaledSum castLoss a b) := by
  have hhom : a.length = b.length →
      dotProduct a (b.map MX.ofScalar) = .ok (dotLoop a (b.map MX.ofScalar)) := by
    intro h
    exact dotProduct_ok (by rw [List.length_map, h])
  constructor
  · intro h hlen
    obtain ⟨d, hmixed, -, hdot, -⟩ := h.1 hlen
    rw [mixedDot_ok hlen] at hmixed
    rw [hhom hlen] at hdot
    apply (mixedLoop_eq_dotLoop hw a b).mp
    rw [Except.ok.inj hmixed, Except.ok.inj hdot]
  · intro h
    refine ⟨fun hlen => ?_, mixedDot_throws a b, mixedDot_throws a b⟩
    have heq := (mixedLoop_eq_dotLoop hw a b).mpr (h hlen)
    refine ⟨mixedLoop a b, mixedDot_ok hlen, mixedDot_ok hlen, ?_, ?_⟩
    · rw [heq]
      exact hhom hlen
    · rw [heq]
      exact value_dotLoop_scalars hw a b

/-! A vector that picks one scalar. -/

theorem scaledSum_zeros (f : BitVec w → Nat) (n : Nat) (b : List (BitVec w)) :
    scaledSum f (List.replicate n 0) b = 0 := by
  induction n generalizing b with
  | zero => rfl
  | succ n ih =>
    cases b with
    | nil => rfl
    | cons s b =>
      have h : scaledSum f (List.replicate (n + 1) 0) (s :: b) =
          (0 : MX).value * f s + scaledSum f (List.replicate n 0) b := rfl
      have hzero : (0 : MX).value = 0 := by decide
      rw [h, ih, hzero, Nat.zero_mul]

theorem scaledSum_single (f : BitVec w → Nat) (x : MX) (s : BitVec w) (pre post : List (BitVec w)) :
    scaledSum f (List.replicate pre.length 0 ++ x :: List.replicate post.length 0)
      (pre ++ s :: post) = x.value * f s := by
  have hpre : (List.replicate pre.length (0 : MX)).length = pre.length := List.length_replicate
  calc scaledSum f (List.replicate pre.length 0 ++ x :: List.replicate post.length 0)
        (pre ++ s :: post)
      = scaledSum f (List.replicate pre.length 0) pre +
          (x.value * f s + scaledSum f (List.replicate post.length 0) post) := by
        rw [scaledSum, List.zipWith_append hpre, List.sum_append]
        rfl
    _ = x.value * f s := by rw [scaledSum_zeros, scaledSum_zeros, Nat.zero_add, Nat.add_zero]

/-- A scalar above a byte fails with the vector that is 1 at its place. -/
theorem byte_of_mixedExact (hw : w ≤ 64) {b : List (BitVec w)} (h : ∀ a, MixedExact a b) :
    ∀ s ∈ b, s.toNat < 256 := by
  intro s hs
  obtain ⟨pre, post, rfl⟩ := List.append_of_mem hs
  let a : List MX := List.replicate pre.length 0 ++ ⟨1⟩ :: List.replicate post.length 0
  have hlen : a.length = (pre ++ s :: post).length := by
    simp only [a, List.length_append, List.length_cons, List.length_replicate]
  have hdvd := (mixedExact_iff hw a _).mp (h a) hlen
  have hone : (⟨1⟩ : MX).value = 1 := by decide
  rw [scaledSum_single, hone, Nat.one_mul] at hdvd
  have hlt : castLoss s < 2^128 := by
    calc castLoss s ≤ s.toNat := Nat.div_mul_le_self s.toNat 256
      _ < 2^w := s.isLt
      _ ≤ 2^64 := Nat.pow_le_pow_right (by decide) hw
      _ < 2^128 := by decide
  exact (castLoss_eq_zero s).mp (Nat.eq_zero_of_dvd_of_lt hdvd hlt)

end

/-- For every scalar type the mixed product is exact on `a` and `b` if and only if what
    the casts drop adds up to 0 modulo 2^128, on `b` and every `a` if and only if all
    scalars of `b` are bytes, and it throws on vectors of different lengths only. -/
theorem mixedDot_exact_iff (τ : UIntType) :
    (∀ (a : List MX) (b : List (BitVec τ.bits)),
      MixedExact a b ↔ (a.length = b.length → 2^128 ∣ scaledSum castLoss a b)) ∧
    (∀ b : List (BitVec τ.bits), (∀ a, MixedExact a b) ↔ ∀ s ∈ b, s.toNat < 256) ∧
    (∀ (a : List MX) (b : List (BitVec τ.bits)),
      ((∃ e, mixedDot a b = .error e) ↔ a.length ≠ b.length) ∧
      ((∃ e, mixedDotSymm b a = .error e) ↔ a.length ≠ b.length)) := by
  refine ⟨mixedExact_iff τ.bits_le, fun b => ⟨byte_of_mixedExact τ.bits_le, fun h a => ?_⟩,
    fun a b => ⟨mixedDot_throws a b, mixedDot_throws a b⟩⟩
  apply (mixedExact_iff τ.bits_le a b).mpr
  intro _
  rw [scaledSum_eq_zero fun s hs => (castLoss_eq_zero s).mpr (h s hs)]
  exact Nat.dvd_zero _

/-- The 16-bit scalar 256 counts as 0. -/
theorem mixedDot_uint16_256 :
    ¬ MixedExact [MX.ofHalves 0 1] [(256 : BitVec UIntType.uint16T.bits)] := by
  rw [mixedExact_iff UIntType.uint16T.bits_le]
  decide

end Mpc
