import Mpc.Types
import Mpc.Lib.Halves
import Mathlib.Algebra.BigOperators.Group.Finset.Basic

/- 128-bit modular arithmetic (types.hpp). A block is two 64-bit halves; sums, differences
   and products are computed on the halves, and `mX` wraps the results as operators,
   also with a byte on either side. On the numbers the halves spell these are the
   operations modulo 2^128, so the dot product of two vectors is the sum of the
   products modulo 2^128 (`mod128_exact`). -/
namespace Mpc
open LE

/-! Blocks and their halves. -/

/-- `_mm_cvtsi128_si64`. -/
def mmCvtsi128Si64 (a : Block) : BitVec 64 := a.extractLsb' 0 64

/-- `_mm_extract_epi64(a, 1)`. -/
def mmExtractEpi64 (a : Block) : BitVec 64 := a.extractLsb' 64 64

/-- `_mm_set_epi64x`. -/
def mmSetEpi64x (hi lo : BitVec 64) : Block := hi ++ lo

/-- 128-bit multiplication mod 2^128, on `unsigned __int128`. -/
def mul128Mod2_128 (a b : Block) : Block :=
  let aLo := mmCvtsi128Si64 a
  let aHi := mmExtractEpi64 a
  let bLo := mmCvtsi128Si64 b
  let bHi := mmExtractEpi64 b
  let lo : BitVec 128 := aLo.setWidth 128 * bLo.setWidth 128
  let mid1 : BitVec 128 := aLo.setWidth 128 * bHi.setWidth 128
  let mid2 : BitVec 128 := aHi.setWidth 128 * bLo.setWidth 128
  let r := lo + ((mid1 + mid2) <<< 64)
  mmSetEpi64x ((r >>> 64).setWidth 64) (r.setWidth 64)

/-- 128-bit addition mod 2^128. -/
def add128Mod2_128 (a b : Block) : Block :=
  let aLo := mmCvtsi128Si64 a
  let aHi := mmExtractEpi64 a
  let bLo := mmCvtsi128Si64 b
  let bHi := mmExtractEpi64 b
  let lo := aLo + bLo
  let carry : BitVec 64 := if lo < aLo then 1 else 0
  let hi := aHi + bHi + carry
  mmSetEpi64x hi lo

/-- 128-bit subtraction mod 2^128. -/
def sub128Mod2_128 (a b : Block) : Block :=
  let aLo := mmCvtsi128Si64 a
  let aHi := mmExtractEpi64 a
  let bLo := mmCvtsi128Si64 b
  let bHi := mmExtractEpi64 b
  let lo := aLo - bLo
  let borrow : BitVec 64 := if aLo < bLo then 1 else 0
  let hi := aHi - bHi - borrow
  mmSetEpi64x hi lo

theorem add128_eq (a b : Block) : add128Mod2_128 a b = a + b :=
  Halves.add_eq (w := 64) a b

theorem sub128_eq (a b : Block) : sub128Mod2_128 a b = a - b :=
  Halves.sub_eq (w := 64) a b

/-- The two 64-bit casts of an `unsigned __int128` are its halves. -/
theorem mmSetEpi64x_casts (r : Block) :
    mmSetEpi64x ((r >>> 64).setWidth 64) (r.setWidth 64) = r := by
  have hhi : (r >>> 64).setWidth 64 = Halves.hi (w := 64) r := by
    apply BitVec.eq_of_toNat_eq
    rw [BitVec.toNat_setWidth, BitVec.toNat_ushiftRight, Halves.hi, BitVec.extractLsb'_toNat]
  have hlo : r.setWidth 64 = Halves.lo (w := 64) r := by
    apply BitVec.eq_of_toNat_eq
    rw [BitVec.toNat_setWidth, Halves.lo, BitVec.extractLsb'_toNat, Nat.shiftRight_zero]
  rw [hhi, hlo]
  exact Halves.join_hi_lo (w := 64) r

theorem mul128_eq (a b : Block) : mul128Mod2_128 a b = a * b := by
  rw [mul128Mod2_128, mmSetEpi64x_casts]
  exact Halves.mul_eq (w := 64) a b

/-- The number the two halves of a block spell. -/
def halvesValue (a : Block) : Nat := (mmExtractEpi64 a).toNat * 2^64 + (mmCvtsi128Si64 a).toNat

theorem halvesValue_eq (a : Block) : halvesValue a = a.toNat := by
  calc halvesValue a = (Halves.join (Halves.hi (w := 64) a) (Halves.lo (w := 64) a)).toNat :=
        (Halves.toNat_join _ _).symm
    _ = a.toNat := by rw [Halves.join_hi_lo]

theorem halvesValue_set (hi lo : BitVec 64) :
    halvesValue (mmSetEpi64x hi lo) = hi.toNat * 2^64 + lo.toNat := by
  rw [halvesValue_eq]
  exact Halves.toNat_join hi lo

/-! `mX`. -/

structure MX where
  v : Block
  deriving DecidableEq

namespace MX

def ofHalves (hi lo : BitVec 64) : MX := ⟨mmSetEpi64x hi lo⟩

def lo (x : MX) : BitVec 64 := mmCvtsi128Si64 x.v
def hi (x : MX) : BitVec 64 := mmExtractEpi64 x.v

instance : Add MX := ⟨fun x other => ⟨add128Mod2_128 x.v other.v⟩⟩
instance : Sub MX := ⟨fun x other => ⟨sub128Mod2_128 x.v other.v⟩⟩
instance : Mul MX := ⟨fun x other => ⟨mul128Mod2_128 x.v other.v⟩⟩

/-! Compound assignments: the object afterwards. -/

def addAssign (x other : MX) : MX := { x with v := add128Mod2_128 x.v other.v }
def subAssign (x other : MX) : MX := { x with v := sub128Mod2_128 x.v other.v }
def mulAssign (x other : MX) : MX := { x with v := mul128Mod2_128 x.v other.v }

/-! A byte as the right operand. -/

instance : HMul MX Byte MX := ⟨fun x s => ⟨mul128Mod2_128 x.v (mmSetEpi64x 0 (s.setWidth 64))⟩⟩
instance : HAdd MX Byte MX := ⟨fun x s => ⟨add128Mod2_128 x.v (mmSetEpi64x 0 (s.setWidth 64))⟩⟩
instance : HSub MX Byte MX := ⟨fun x s => ⟨sub128Mod2_128 x.v (mmSetEpi64x 0 (s.setWidth 64))⟩⟩

/-! A byte as the left operand. -/

instance : HMul Byte MX MX := ⟨fun s x => x * s⟩
instance : HAdd Byte MX MX := ⟨fun s x => x + s⟩
instance : HSub Byte MX MX := ⟨fun s x => ⟨sub128Mod2_128 (mmSetEpi64x 0 (s.setWidth 64)) x.v⟩⟩

/-! Bitwise operators, and the comparison by `_mm_testz_si128`. -/

instance : AndOp MX := ⟨fun x other => ⟨x.v &&& other.v⟩⟩
instance : OrOp MX := ⟨fun x other => ⟨x.v ||| other.v⟩⟩
instance : XorOp MX := ⟨fun x other => ⟨x.v ^^^ other.v⟩⟩
instance : Complement MX := ⟨fun x => ⟨x.v ^^^ BitVec.allOnes 128⟩⟩

def andAssign (x other : MX) : MX := { x with v := x.v &&& other.v }
def orAssign (x other : MX) : MX := { x with v := x.v ||| other.v }
def xorAssign (x other : MX) : MX := { x with v := x.v ^^^ other.v }

def eq (x other : MX) : Bool :=
  let cmp := x.v ^^^ other.v
  cmp &&& cmp == 0#128

def ne (x other : MX) : Bool := !x.eq other

/-- `set_zero`. -/
instance : Zero MX := ⟨⟨0⟩⟩

/-- The number a value stands for. -/
def value (x : MX) : Nat := halvesValue x.v

@[simp] theorem v_add (x y : MX) : (x + y).v = x.v + y.v := add128_eq _ _
@[simp] theorem v_sub (x y : MX) : (x - y).v = x.v - y.v := sub128_eq _ _
@[simp] theorem v_mul (x y : MX) : (x * y).v = x.v * y.v := mul128_eq _ _
@[simp] theorem v_zero : (0 : MX).v = 0 := rfl

theorem value_eq (x : MX) : x.value = x.v.toNat := halvesValue_eq x.v

theorem value_injective : Function.Injective value := by
  intro x y h
  rw [value_eq, value_eq] at h
  exact congrArg MX.mk (BitVec.eq_of_toNat_eq h)

theorem value_add (x y : MX) : (x + y).value = (x.value + y.value) % 2^128 := by
  rw [value_eq, v_add, BitVec.toNat_add, value_eq, value_eq]

theorem value_sub (x y : MX) : (x - y).value = (x.value + 2^128 - y.value) % 2^128 := by
  have hy := y.v.isLt
  rw [value_eq, v_sub, BitVec.toNat_sub, value_eq, value_eq]
  congr 1
  omega

theorem value_mul (x y : MX) : (x * y).value = x.value * y.value % 2^128 := by
  rw [value_eq, v_mul, BitVec.toNat_mul, value_eq, value_eq]

theorem value_and (x y : MX) : (x &&& y).value = x.value &&& y.value := by
  rw [value_eq, value_eq, value_eq]
  exact BitVec.toNat_and x.v y.v

theorem value_or (x y : MX) : (x ||| y).value = x.value ||| y.value := by
  rw [value_eq, value_eq, value_eq]
  exact BitVec.toNat_or x.v y.v

theorem value_xor (x y : MX) : (x ^^^ y).value = x.value ^^^ y.value := by
  rw [value_eq, value_eq, value_eq]
  exact BitVec.toNat_xor x.v y.v

theorem value_not (x : MX) : (~~~x).value = 2^128 - 1 - x.value := by
  calc (~~~x).value = (x.v ^^^ BitVec.allOnes 128).toNat := value_eq _
    _ = 2^128 - 1 - x.value := by rw [BitVec.xor_allOnes, BitVec.toNat_not, value_eq]

/-- A byte widened to a block. -/
def ofByte (s : Byte) : MX := ⟨mmSetEpi64x 0 (s.setWidth 64)⟩

theorem value_ofByte (s : Byte) : (ofByte s).value = s.toNat := by
  rw [value, ofByte, halvesValue_set, BitVec.toNat_setWidth_of_le (by decide)]
  simp

theorem add_byte (x : MX) (s : Byte) : x + s = x + ofByte s := rfl
theorem sub_byte (x : MX) (s : Byte) : x - s = x - ofByte s := rfl
theorem mul_byte (x : MX) (s : Byte) : x * s = x * ofByte s := rfl
theorem byte_add (s : Byte) (x : MX) : s + x = x + ofByte s := rfl
theorem byte_mul (s : Byte) (x : MX) : s * x = x * ofByte s := rfl
theorem byte_sub (s : Byte) (x : MX) : s - x = ofByte s - x := rfl

theorem eq_iff (x y : MX) : x.eq y = true ↔ x = y := by
  rw [eq, BitVec.and_self, beq_iff_eq, BitVec.xor_eq_zero_iff]
  constructor
  · intro h
    exact congrArg MX.mk h
  · intro h
    rw [h]

end MX

/-! The vector templates, for any element type. -/

section
variable {T : Type}

/-- Elementwise vector addition. -/
def vecSum [Add T] (a b : List T) : Except Err (List T) :=
  if a.length ≠ b.length then .error (.runtimeError "operator+: size mismatch")
  else .ok (List.zipWith (· + ·) a b)

/-- The accumulator of the homogeneous dot product. -/
def dotLoop [Zero T] [Add T] [Mul T] (a b : List T) : T :=
  (a.zip b).foldl (fun acc p => acc + p.1 * p.2) 0

/-- Homogeneous dot product (`vector<T> * vector<T>`). -/
def dotProduct [Zero T] [Add T] [Mul T] (a b : List T) : Except Err T :=
  if a.length ≠ b.length then .error (.runtimeError "dot: size mismatch") else .ok (dotLoop a b)

/-- On machine words the templates are the ones of the share vectors. -/
theorem dotProduct_words {w : Nat} (a b : List (BitVec w)) : dotProduct a b = vecMul a b := rfl

theorem vecSum_words {w : Nat} (a b : List (BitVec w)) : vecSum a b = vecAdd a b := rfl

theorem vecSum_ok [Add T] {a b : List T} (h : a.length = b.length) :
    vecSum a b = .ok (List.zipWith (· + ·) a b) := if_neg (not_not.mpr h)

theorem dotProduct_ok [Zero T] [Add T] [Mul T] {a b : List T} (h : a.length = b.length) :
    dotProduct a b = .ok (dotLoop a b) := if_neg (not_not.mpr h)

/-- A homomorphism of the element types passes through the dot product. -/
theorem dotLoop_hom {S : Type} [Zero T] [Add T] [Mul T] [Zero S] [Add S] [Mul S] (f : T → S)
    (h0 : f 0 = 0) (hadd : ∀ x y, f (x + y) = f x + f y) (hmul : ∀ x y, f (x * y) = f x * f y)
    (a b : List T) : f (dotLoop a b) = dotLoop (a.map f) (b.map f) := by
  rw [dotLoop, dotLoop, ← h0, List.zip_map, List.foldl_map]
  exact (List.foldl_hom f fun x p => by rw [hadd, hmul]; rfl).symm

end

/-! The dot product in a commutative semiring. -/

section
variable {R : Type} [CommSemiring R]

theorem dotLoop_eq_sum (a b : List R) : dotLoop a b = (List.zipWith (· * ·) a b).sum := by
  rw [dotLoop, List.sum_eq_foldl, ← List.map_uncurry_zip_eq_zipWith, List.foldl_map]
  rfl

theorem dotLoop_comm (a b : List R) : dotLoop a b = dotLoop b a := by
  rw [dotLoop_eq_sum, dotLoop_eq_sum, List.zipWith_comm_of_comm mul_comm]

theorem dotLoop_cons (x y : R) (a b : List R) :
    dotLoop (x :: a) (y :: b) = x * y + dotLoop a b := by
  rw [dotLoop_eq_sum, dotLoop_eq_sum, List.zipWith_cons_cons, List.sum_cons]

theorem dotLoop_nil_right (a : List R) : dotLoop a [] = 0 := by
  rw [dotLoop, List.zip_nil_right, List.foldl_nil]

/-- Linearity in the first argument. -/
theorem dotLoop_linear (c c' : R) {a a' : List R} (b : List R) (h : a.length = a'.length) :
    dotLoop (List.zipWith (· + ·) (a.map (c * ·)) (a'.map (c' * ·))) b =
      c * dotLoop a b + c' * dotLoop a' b := by
  induction a generalizing a' b with
  | nil =>
    obtain rfl : a' = [] := List.eq_nil_of_length_eq_zero h.symm
    show (0 : R) = c * 0 + c' * 0
    ring
  | cons x a ih =>
    cases a' with
    | nil => exact absurd h (Nat.succ_ne_zero _)
    | cons x' a' =>
      cases b with
      | nil =>
        rw [dotLoop_nil_right, dotLoop_nil_right, dotLoop_nil_right]
        ring
      | cons y b =>
        rw [List.map_cons, List.map_cons, List.zipWith_cons_cons, dotLoop_cons, dotLoop_cons,
          dotLoop_cons, ih b (Nat.succ.inj h)]
        ring

end

/-! The dot product of `mX` vectors. -/

theorem MX.v_dotLoop (a b : List MX) :
    (dotLoop a b).v = dotLoop (a.map MX.v) (b.map MX.v) :=
  dotLoop_hom MX.v MX.v_zero MX.v_add MX.v_mul a b

theorem MX.v_injective : Function.Injective MX.v := fun _ _ h => congrArg MX.mk h

/-- The dot product is the sum of the products modulo 2^128. -/
theorem MX.value_dotLoop (a b : List MX) :
    (dotLoop a b).value = (List.zipWith (fun x y => x.value * y.value) a b).sum % 2^128 := by
  have hv : ∀ l : List MX, l.map MX.v = (l.map MX.value).map (BitVec.ofNat 128) := by
    intro l
    rw [List.map_map]
    refine List.map_congr_left fun x _ => ?_
    rw [Function.comp_apply, MX.value_eq, BitVec.ofNat_toNat, BitVec.setWidth_eq]
  have hnat : dotLoop (a.map MX.value) (b.map MX.value) =
      (List.zipWith (fun x y => x.value * y.value) a b).sum := by
    rw [dotLoop_eq_sum, List.zipWith_map]
  rw [MX.value_eq, MX.v_dotLoop, hv a, hv b,
    ← dotLoop_hom (BitVec.ofNat 128) rfl (fun x y => BitVec.ofNat_add x y)
      (fun x y => BitVec.ofNat_mul x y), BitVec.toNat_ofNat, hnat]

theorem MX.dotLoop_comm (a b : List MX) : dotLoop a b = dotLoop b a := by
  apply MX.v_injective
  rw [MX.v_dotLoop, MX.v_dotLoop]
  exact Mpc.dotLoop_comm _ _

theorem MX.dotLoop_linear (c c' : MX) {a a' : List MX} (b : List MX) (h : a.length = a'.length) :
    dotLoop (List.zipWith (· + ·) (a.map (c * ·)) (a'.map (c' * ·))) b =
      c * dotLoop a b + c' * dotLoop a' b := by
  have hmap : (List.zipWith (· + ·) (a.map (c * ·)) (a'.map (c' * ·))).map MX.v =
      List.zipWith (· + ·) ((a.map MX.v).map (c.v * ·)) ((a'.map MX.v).map (c'.v * ·)) := by
    simp only [List.map_zipWith, List.zipWith_map, MX.v_add, MX.v_mul]
  have hlen : (a.map MX.v).length = (a'.map MX.v).length := by
    rw [List.length_map, List.length_map, h]
  apply MX.v_injective
  rw [MX.v_dotLoop, hmap, MX.v_add, MX.v_mul, MX.v_mul, MX.v_dotLoop, MX.v_dotLoop]
  exact Mpc.dotLoop_linear c.v c'.v _ hlen

/-- The three functions on two halves, every operator, compound assignment and byte
    overload, and the dot product of vectors of any length are the arithmetic of the
    integers modulo 2^128. -/
theorem mod128_exact :
    (∀ ah al bh bl : BitVec 64,
      let a := ah.toNat * 2^64 + al.toNat
      let b := bh.toNat * 2^64 + bl.toNat
      halvesValue (add128Mod2_128 (mmSetEpi64x ah al) (mmSetEpi64x bh bl)) = (a + b) % 2^128 ∧
      halvesValue (sub128Mod2_128 (mmSetEpi64x ah al) (mmSetEpi64x bh bl)) =
        (a + 2^128 - b) % 2^128 ∧
      halvesValue (mul128Mod2_128 (mmSetEpi64x ah al) (mmSetEpi64x bh bl)) = a * b % 2^128) ∧
    (∀ x y : MX,
      (x + y).value = (x.value + y.value) % 2^128 ∧
      (x - y).value = (x.value + 2^128 - y.value) % 2^128 ∧
      (x * y).value = x.value * y.value % 2^128 ∧
      x.addAssign y = x + y ∧ x.subAssign y = x - y ∧ x.mulAssign y = x * y ∧
      (x.eq y = true ↔ x.value = y.value) ∧ (x.ne y = true ↔ x.value ≠ y.value)) ∧
    (∀ x y : MX,
      (x &&& y).value = x.value &&& y.value ∧ (x ||| y).value = x.value ||| y.value ∧
      (x ^^^ y).value = x.value ^^^ y.value ∧ (~~~x).value = 2^128 - 1 - x.value ∧
      x.andAssign y = x &&& y ∧ x.orAssign y = x ||| y ∧ x.xorAssign y = x ^^^ y) ∧
    (∀ (x : MX) (s : Byte),
      (x + s).value = (x.value + s.toNat) % 2^128 ∧ (s + x).value = (s.toNat + x.value) % 2^128 ∧
      (x - s).value = (x.value + 2^128 - s.toNat) % 2^128 ∧
      (s - x).value = (s.toNat + 2^128 - x.value) % 2^128 ∧
      (x * s).value = x.value * s.toNat % 2^128 ∧ (s * x).value = s.toNat * x.value % 2^128) ∧
    (∀ a b : List MX, a.length = b.length → ∃ d, dotProduct a b = .ok d ∧
      d.value = (List.zipWith (fun x y => x.value * y.value) a b).sum % 2^128) ∧
    (∀ a b : List MX, dotProduct a b = dotProduct b a) ∧
    (∀ (c c' : MX) (a a' b : List MX), a.length = b.length → a'.length = b.length →
      ∃ s d d', vecSum (a.map (c * ·)) (a'.map (c' * ·)) = .ok s ∧
        dotProduct a b = .ok d ∧ dotProduct a' b = .ok d' ∧
        dotProduct s b = .ok (c * d + c' * d') ∧ dotProduct b s = .ok (c * d + c' * d')) := by
  refine ⟨fun ah al bh bl => ?_, fun x y => ?_, fun x y => ?_, fun x s => ?_, fun a b h => ?_,
    fun a b => ?_, fun c c' a a' b h h' => ?_⟩
  · have hadd := MX.value_add ⟨mmSetEpi64x ah al⟩ ⟨mmSetEpi64x bh bl⟩
    have hsub := MX.value_sub ⟨mmSetEpi64x ah al⟩ ⟨mmSetEpi64x bh bl⟩
    have hmul := MX.value_mul ⟨mmSetEpi64x ah al⟩ ⟨mmSetEpi64x bh bl⟩
    rw [← halvesValue_set ah al, ← halvesValue_set bh bl]
    exact ⟨hadd, hsub, hmul⟩
  · have heq : x.eq y = true ↔ x.value = y.value := by
      rw [MX.eq_iff, MX.value_injective.eq_iff]
    refine ⟨MX.value_add x y, MX.value_sub x y, MX.value_mul x y, rfl, rfl, rfl, heq, ?_⟩
    rw [MX.ne, Bool.not_eq_true', ← Bool.not_eq_true, heq]
  · exact ⟨MX.value_and x y, MX.value_or x y, MX.value_xor x y, MX.value_not x, rfl, rfl, rfl⟩
  · have hs := MX.value_ofByte s
    refine ⟨?_, ?_, ?_, ?_, ?_, ?_⟩
    · rw [MX.add_byte, MX.value_add, hs]
    · rw [MX.byte_add, MX.value_add, hs, Nat.add_comm]
    · rw [MX.sub_byte, MX.value_sub, hs]
    · rw [MX.byte_sub, MX.value_sub, hs]
    · rw [MX.mul_byte, MX.value_mul, hs]
    · rw [MX.byte_mul, MX.value_mul, hs, Nat.mul_comm]
  · exact ⟨dotLoop a b, dotProduct_ok h, MX.value_dotLoop a b⟩
  · by_cases h : a.length = b.length
    · rw [dotProduct_ok h, dotProduct_ok h.symm, MX.dotLoop_comm]
    · rw [dotProduct, dotProduct, if_pos h, if_pos (Ne.symm h)]
  · have hmap : (a.map (c * ·)).length = (a'.map (c' * ·)).length := by
      rw [List.length_map, List.length_map, h, h']
    have hlen : (List.zipWith (· + ·) (a.map (c * ·)) (a'.map (c' * ·))).length = b.length := by
      rw [List.length_zipWith, hmap, Nat.min_self, List.length_map, h']
    have hlin := MX.dotLoop_linear c c' b (h.trans h'.symm)
    refine ⟨_, _, _, vecSum_ok hmap, dotProduct_ok h, dotProduct_ok h', ?_, ?_⟩
    · rw [dotProduct_ok hlen, hlin]
    · rw [dotProduct_ok hlen.symm, MX.dotLoop_comm, hlin]

end Mpc
