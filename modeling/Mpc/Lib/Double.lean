import Mathlib.Algebra.Order.Floor.Div
import Mathlib.Algebra.Order.Round
import Mathlib.Analysis.Convex.SpecificFunctions.Basic
import Mathlib.Analysis.SpecialFunctions.Log.Base
import Mathlib.Data.Int.Log
import Mathlib.Data.Rat.Floor

/- Double-precision numbers as rationals with a significand of 53 bits, of which no
   exponent is too large or too small. A rounding is `Faithful` when no double lies
   between the exact value and the result; `roundBy` rounds the significand in any
   direction and is faithful (`roundBy_faithful`), so everything that follows from
   faithfulness holds of rounding to nearest (`rnd`) and of a `Log2` that is only known
   to return one of the two doubles next to the logarithm. The ceiling of such a
   logarithm is exact for numbers up to `2^48` (`ceil_log2`): behind a power of two `2^k`
   the next integer's logarithm is at least `k + 2^(-k)`, which is a double as long as
   `k` is at most 47. -/
namespace Double

/-- A number with a significand of 53 bits. -/
def IsDouble (x : ℚ) : Prop := ∃ m e : ℤ, |m| ≤ 2^53 ∧ x = m * 2^e

/-! Rounding. -/

section
variable {K : Type} [Field K] [LinearOrder K]

/-- No double lies between `x` and its rounding `y`. -/
structure Faithful (x : K) (y : ℚ) : Prop where
  isDouble : IsDouble y
  le : ∀ d, IsDouble d → (d : K) ≤ x → d ≤ y
  ge : ∀ d, IsDouble d → x ≤ (d : K) → y ≤ d

variable [IsStrictOrderedRing K] [FloorRing K]

/-- The exponent of the last of the 53 bits of `x`. -/
def place (x : K) : ℤ := Int.log 2 x - 52

/-- `x` with its significand rounded by `r`. -/
def roundBy (r : K → ℤ) (x : K) : ℚ := r (x / 2^place x) * 2^place x

theorem place_bounds {x : K} (hx : 0 < x) : 2^52 ≤ x / 2^place x ∧ x / 2^place x < 2^53 := by
  have hu : (0 : K) < 2^place x := zpow_pos (by norm_num) _
  have hlow := Int.zpow_log_le_self (b := 2) (by norm_num) hx
  have hhigh := Int.lt_zpow_succ_log_self (b := 2) (by norm_num) x
  push_cast at hlow hhigh
  have hsum : Int.log 2 x = 52 + place x := by
    rw [place]
    ring
  rw [hsum] at hlow hhigh
  constructor
  · rw [le_div_iff₀ hu, ← zpow_natCast, ← zpow_add₀ (by norm_num)]
    exact_mod_cast hlow
  · rw [div_lt_iff₀ hu, ← zpow_natCast, ← zpow_add₀ (by norm_num)]
    refine lt_of_lt_of_eq hhigh (congrArg _ ?_)
    push_cast
    ring

/-- A double that is not a multiple of `2^p` is less than `2^(p+52)`. -/
theorem IsDouble.multiple {d : ℚ} (hd : IsDouble d) (p : ℤ) : (∃ n : ℤ, d = n * 2^p) ∨ d ≤ 2^52 * 2^p := by
  obtain ⟨m, e, hm, rfl⟩ := hd
  rcases le_or_gt p e with hpe | hpe
  · obtain ⟨k, rfl⟩ : ∃ k : ℕ, e = p + k := ⟨(e - p).toNat, by omega⟩
    refine .inl ⟨m * 2^k, ?_⟩
    push_cast
    rw [zpow_add₀ (by norm_num), zpow_natCast]
    ring
  · right
    have hm' : (m : ℚ) ≤ 2^53 := by exact_mod_cast (le_abs_self m).trans hm
    have hpow : (2 : ℚ)^e ≤ 2^(p-1) := zpow_le_zpow_right₀ (by norm_num) (by omega)
    calc (m : ℚ) * 2^e ≤ 2^53 * 2^e := mul_le_mul_of_nonneg_right hm' (zpow_nonneg (by norm_num) _)
      _ ≤ 2^53 * 2^(p-1) := mul_le_mul_of_nonneg_left hpow (by norm_num)
      _ = 2^52 * 2^p := by
        rw [zpow_sub_one₀ (by norm_num)]
        ring

variable {r : K → ℤ} (hr : ∀ q, ⌊q⌋ ≤ r q ∧ r q ≤ ⌈q⌉)
include hr

theorem roundBy_zero : roundBy r 0 = 0 := by
  have h := hr 0
  rw [Int.floor_zero, Int.ceil_zero] at h
  have h0 : r 0 = 0 := le_antisymm h.2 h.1
  rw [roundBy, zero_div, h0, Int.cast_zero, zero_mul]

/-- Rounding the significand to an integer next to it is faithful. -/
theorem roundBy_faithful {x : K} (hx : 0 ≤ x) : Faithful x (roundBy r x) := by
  rcases hx.eq_or_lt with rfl | hx
  · rw [roundBy_zero hr]
    exact ⟨⟨0, 0, by norm_num, by norm_num⟩, fun d _ h => by exact_mod_cast h, fun d _ h => by exact_mod_cast h⟩
  obtain ⟨hlow, hhigh⟩ := place_bounds hx
  obtain ⟨hfloor, hceil⟩ := hr (x / 2^place x)
  have hu : (0 : K) < 2^place x := zpow_pos (by norm_num) _
  have hu' : (0 : ℚ) < 2^place x := zpow_pos (by norm_num) _
  have hmin : 2^52 ≤ r (x / 2^place x) := (Int.le_floor.mpr (by exact_mod_cast hlow)).trans hfloor
  have hmax : r (x / 2^place x) ≤ 2^53 := hceil.trans (Int.ceil_le.mpr (by exact_mod_cast hhigh.le))
  have hcast : ∀ n : ℤ, (((n : ℚ) * 2^place x : ℚ) : K) = n * 2^place x := fun n => by push_cast; rfl
  refine ⟨⟨_, _, by rw [abs_of_nonneg (by omega)]; exact hmax, rfl⟩, ?_, ?_⟩
  · intro d hd hdx
    obtain ⟨n, rfl⟩ | hsmall := hd.multiple (place x)
    · rw [hcast, ← le_div_iff₀ hu] at hdx
      have hn : n ≤ r (x / 2^place x) := (Int.le_floor.mpr hdx).trans hfloor
      exact mul_le_mul_of_nonneg_right (by exact_mod_cast hn) hu'.le
    · exact hsmall.trans (mul_le_mul_of_nonneg_right (by exact_mod_cast hmin) hu'.le)
  · intro d hd hxd
    -- a double behind `x` is a multiple, or `x` is the least number with its place
    obtain ⟨n, rfl⟩ : ∃ n : ℤ, d = n * 2^place x := by
      obtain h | hsmall := hd.multiple (place x)
      · exact h
      · refine ⟨2^52, le_antisymm (by exact_mod_cast hsmall) ?_⟩
        have hle : (((2^52 : ℤ) : ℚ) * 2^place x : ℚ) ≤ (d : K) := by
          rw [hcast]
          refine le_trans ?_ hxd
          rw [← le_div_iff₀ hu]
          exact_mod_cast hlow
        exact_mod_cast hle
    rw [hcast, ← div_le_iff₀ hu] at hxd
    have hn : r (x / 2^place x) ≤ n := hceil.trans (Int.ceil_le.mpr hxd)
    exact mul_le_mul_of_nonneg_right (by exact_mod_cast hn) hu'.le

end

/-! Rounding to nearest. -/

/-- The nearest integer, of two the even one. -/
def roundEven (q : ℚ) : ℤ :=
  let n := ⌊q⌋
  if q - n < 1 / 2 then n
  else if 1 / 2 < q - n then n + 1
  else if n % 2 = 0 then n else n + 1

/-- A number as a double. -/
def rnd (x : ℚ) : ℚ := if x < 0 then -roundBy roundEven (-x) else roundBy roundEven x

theorem roundEven_between (q : ℚ) : ⌊q⌋ ≤ roundEven q ∧ roundEven q ≤ ⌈q⌉ := by
  by_cases hq : q = ⌊q⌋
  · have hr : roundEven q = ⌊q⌋ := by
      rw [roundEven, if_pos]
      linarith
    rw [hr]
    exact ⟨le_refl _, Int.floor_le_ceil q⟩
  · have hlt : ⌊q⌋ < ⌈q⌉ := by
      refine Int.lt_ceil.mpr (lt_of_le_of_ne (Int.floor_le q) ?_)
      exact fun h => hq h.symm
    simp only [roundEven]
    split_ifs <;> omega

theorem rnd_faithful {x : ℚ} (hx : 0 ≤ x) : Faithful x (rnd x) := by
  rw [rnd, if_neg (not_lt.mpr hx)]
  exact roundBy_faithful roundEven_between hx

example : rnd (2^53 + 1) = 2^53 ∧ rnd (2^53 + 3) = 2^53 + 4 := by decide +kernel

/-! Exact values. -/

theorem isDouble_natCast {n : ℕ} (h : n ≤ 2^53) : IsDouble n := by
  refine ⟨n, 0, ?_, by simp⟩
  rw [abs_of_nonneg (by omega)]
  exact_mod_cast h

theorem IsDouble.mul_zpow {x : ℚ} (h : IsDouble x) (k : ℤ) : IsDouble (x * 2^k) := by
  obtain ⟨m, e, hm, rfl⟩ := h
  refine ⟨m, e + k, hm, ?_⟩
  rw [zpow_add₀ (by norm_num), mul_assoc]

theorem IsDouble.div_two_pow {x : ℚ} (h : IsDouble x) (k : ℕ) : IsDouble (x / 2^k) := by
  have hmul := h.mul_zpow (-k)
  rwa [zpow_neg, zpow_natCast, ← div_eq_mul_inv] at hmul

theorem isDouble_two_pow (k : ℕ) : IsDouble (2^k) := by
  have hmul := (isDouble_natCast (show 1 ≤ 2^53 by norm_num)).mul_zpow k
  rwa [Nat.cast_one, one_mul, zpow_natCast] at hmul

/-- A double is its own rounding. -/
theorem Faithful.eq {x y : ℚ} (h : Faithful x y) (hx : IsDouble x) : y = x :=
  le_antisymm (h.ge x hx (by simp)) (h.le x hx (by simp))

theorem rnd_of_isDouble {x : ℚ} (hx : 0 ≤ x) (h : IsDouble x) : rnd x = x := (rnd_faithful hx).eq h

theorem rnd_nonneg {x : ℚ} (hx : 0 ≤ x) : 0 ≤ rnd x :=
  (rnd_faithful hx).le 0 ⟨0, 0, by norm_num, by norm_num⟩ (by simpa using hx)

theorem floor_rnd_of_le_half {x : ℚ} (hx : 0 ≤ x) (h : x ≤ 1 / 2) : ⌊rnd x⌋ = 0 := by
  have hd : IsDouble (1 / 2) := by
    have h1 := (isDouble_natCast (show 1 ≤ 2^53 by norm_num)).div_two_pow 1
    rwa [Nat.cast_one, pow_one] at h1
  have hle := (rnd_faithful hx).ge _ hd (by simpa using h)
  rw [Int.floor_eq_zero_iff]
  exact ⟨rnd_nonneg hx, by linarith⟩

/-- The whole part of a quotient of small numbers survives the rounding. -/
theorem floor_rnd_div {n m : ℕ} (hm : 0 < m) (hn : n ≤ 2^51) (hm' : m ≤ 2^51) :
    ⌊rnd ((n : ℚ) / m)⌋ = (n / m : ℕ) := by
  have hm0 : (0 : ℚ) < m := by exact_mod_cast hm
  have hpos : (0 : ℚ) ≤ (n : ℚ) / m := by positivity
  have hf := rnd_faithful hpos
  have hdiv := Nat.div_add_mod n m
  have hmod := Nat.mod_lt n hm
  have hle : n / m ≤ n := Nat.div_le_self n m
  rw [Int.floor_eq_iff]
  constructor
  · have hd : IsDouble ((n / m : ℕ) : ℚ) := isDouble_natCast (by omega)
    have := hf.le _ hd (by simpa using Nat.cast_div_le)
    exact_mod_cast this
  · -- `q + 1 - 2^(-j)` is a double between the quotient and the next whole number
    obtain ⟨j, hj, hj'⟩ : ∃ j, m ≤ 2^j ∧ 2^j ≤ 2 * m := by
      refine ⟨Nat.clog 2 m, Nat.le_pow_clog (by norm_num) m, ?_⟩
      rcases Nat.eq_or_lt_of_le hm with h1 | h1
      · rw [← h1]
        norm_num
      · have := Nat.pow_pred_clog_lt_self (b := 2) (by norm_num) h1
        obtain ⟨c, hc⟩ : ∃ c, Nat.clog 2 m = c + 1 := ⟨Nat.clog 2 m - 1, by
          have := Nat.clog_pos (b := 2) (by norm_num) h1
          omega⟩
        rw [hc, Nat.pred_succ] at this
        rw [hc, Nat.pow_succ]
        omega
    have hpow : (0 : ℚ) < 2^j := by positivity
    have hd : IsDouble ((((n / m + 1) * 2^j - 1 : ℕ) : ℚ) / 2^j) := by
      refine (isDouble_natCast ?_).div_two_pow j
      have hmul : (n / m + 1) * 2^j ≤ (n / m + 1) * (2 * m) := Nat.mul_le_mul_left _ hj'
      have hsum : (n / m + 1) * (2 * m) = 2 * (m * (n / m)) + 2 * m := by ring
      omega
    have hone : 1 ≤ (n / m + 1) * 2^j := Nat.mul_pos (Nat.succ_pos _) (by positivity)
    have hge := hf.ge _ hd (by
      rw [Rat.cast_id, Nat.cast_sub hone, div_le_div_iff₀ hm0 hpow]
      push_cast
      have hn' : (n : ℚ) + 1 ≤ (n / m : ℕ) * m + m := by
        have : n + 1 ≤ n / m * m + m := by
          rw [Nat.mul_comm]
          omega
        exact_mod_cast this
      have hmj : (m : ℚ) ≤ 2^j := by exact_mod_cast hj
      nlinarith)
    refine lt_of_le_of_lt hge ?_
    rw [Nat.cast_sub hone, div_lt_iff₀ hpow, Int.cast_natCast]
    push_cast
    linarith

/-- A quotient by a power of two is exact. -/
theorem rnd_div_two_pow {x : ℚ} (hx : 0 ≤ x) (h : IsDouble x) (k : ℕ) : rnd (x / 2^k) = x / 2^k :=
  rnd_of_isDouble (by positivity) (h.div_two_pow k)

theorem ceil_div (n : ℕ) {m : ℕ} (hm : 0 < m) : ⌈(n : ℚ) / m⌉ = (n ⌈/⌉ m : ℕ) := by
  have hm0 : (0 : ℚ) < m := by exact_mod_cast hm
  have hle : n ≤ m * (n ⌈/⌉ m) := (ceilDiv_le_iff_le_mul hm).mp (le_refl _)
  have hlt : m * (n ⌈/⌉ m) < n + m := by
    have := Nat.mul_div_le (n + m - 1) m
    rw [Nat.ceilDiv_eq_add_pred_div]
    omega
  rw [Int.ceil_eq_iff, lt_div_iff₀ hm0, div_le_iff₀ hm0, Int.cast_natCast]
  constructor
  · have : (m : ℚ) * (n ⌈/⌉ m : ℕ) < n + m := by exact_mod_cast hlt
    linarith
  · have : (n : ℚ) ≤ m * (n ⌈/⌉ m : ℕ) := by exact_mod_cast hle
    linarith

/-! Logarithms. -/

/-- A `log2` that returns one of the doubles next to the logarithm. -/
structure Log2 where
  log2 : ℚ → ℚ
  faithful : ∀ x : ℚ, 1 ≤ x → Faithful (Real.logb 2 (x : ℝ)) (log2 x)

namespace Log2

theorem logb_nonneg {x : ℚ} (hx : 1 ≤ x) : 0 ≤ Real.logb 2 (x : ℝ) :=
  Real.logb_nonneg (by norm_num) (by exact_mod_cast hx)

/-- The double below the logarithm. -/
noncomputable def down : Log2 where
  log2 := fun x => roundBy Int.floor (Real.logb 2 (x : ℝ))
  faithful := fun _ hx => roundBy_faithful (fun q => ⟨le_refl _, Int.floor_le_ceil q⟩) (logb_nonneg hx)

variable (lib : Log2)

theorem nonneg {x : ℚ} (hx : 1 ≤ x) : 0 ≤ lib.log2 x :=
  (lib.faithful x hx).le 0 ⟨0, 0, by norm_num, by norm_num⟩ (by simpa using logb_nonneg hx)

theorem ceil_le {x : ℚ} (hx : 1 ≤ x) {c : ℕ} (hc : c ≤ 2^53) (h : x ≤ 2^c) : ⌈lib.log2 x⌉ ≤ c := by
  refine Int.ceil_le.mpr ((lib.faithful x hx).ge c (isDouble_natCast hc) ?_)
  have hx0 : (0 : ℝ) < x := by exact_mod_cast lt_of_lt_of_le one_pos hx
  rw [Real.logb_le_iff_le_rpow (by norm_num) hx0, Rat.cast_natCast, Real.rpow_natCast]
  exact_mod_cast h

/-- Behind `2^k` the logarithm is at least `k + 2^(-k)`. -/
theorem lt_ceil {x : ℚ} {k : ℕ} (hk : k ≤ 47) (h : 2^k + 1 ≤ x) : k < ⌈lib.log2 x⌉ := by
  have hx : 1 ≤ x := by
    have hpow : (0 : ℚ) < 2^k := by positivity
    linarith
  have hd : IsDouble (((k * 2^k + 1 : ℕ) : ℚ) / 2^k) := by
    refine (isDouble_natCast ?_).div_two_pow k
    have hpow : 2^k ≤ 2^47 := Nat.pow_le_pow_right (by norm_num) hk
    calc k * 2^k + 1 ≤ 47 * 2^47 + 1 := by
          have := Nat.mul_le_mul hk hpow
          omega
      _ ≤ 2^53 := by norm_num
  have hp : (0 : ℝ) < 2^k := by positivity
  have hle := (lib.faithful x hx).le _ hd (by
    have hx0 : (0 : ℝ) < x := by exact_mod_cast lt_of_lt_of_le one_pos hx
    have hsplit : ((((k * 2^k + 1 : ℕ) : ℚ) / 2^k : ℚ) : ℝ) = k + (2^k)⁻¹ := by
      push_cast
      field_simp
    rw [hsplit, Real.le_logb_iff_rpow_le (by norm_num) hx0, Real.rpow_add (by norm_num), Real.rpow_natCast]
    -- 2^p is at most 1 + p for p = 2^(-k)
    have hbern : (2 : ℝ)^((2^k : ℝ)⁻¹) ≤ 1 + (2^k)⁻¹ := by
      have := rpow_one_add_le_one_add_mul_self (s := 1) (by norm_num) (p := (2^k : ℝ)⁻¹) (by positivity)
        (inv_le_one_of_one_le₀ (one_le_pow₀ (by norm_num)))
      rwa [one_add_one_eq_two, mul_one] at this
    have hx' : (2 : ℝ)^k + 1 ≤ x := by exact_mod_cast h
    calc (2 : ℝ)^k * 2^((2^k : ℝ)⁻¹) ≤ 2^k * (1 + (2^k)⁻¹) := mul_le_mul_of_nonneg_left hbern hp.le
      _ = 2^k + 1 := by field_simp
      _ ≤ x := hx')
  refine Int.lt_ceil.mpr (lt_of_lt_of_le ?_ hle)
  have hp' : (0 : ℚ) < 2^k := by positivity
  rw [lt_div_iff₀ hp']
  push_cast
  linarith

theorem log2_two_pow {k : ℕ} (hk : k ≤ 2^53) : lib.log2 (2^k) = k := by
  have hlog : Real.logb 2 ((2^k : ℚ) : ℝ) = k := by
    push_cast
    rw [Real.logb_pow, Real.logb_self_eq_one (by norm_num), mul_one]
  have hf := lib.faithful (2^k) (one_le_pow₀ (by norm_num))
  rw [hlog] at hf
  exact le_antisymm (hf.ge k (isDouble_natCast hk) (by simp)) (hf.le k (isDouble_natCast hk) (by simp))

/-- Up to `2^48` the ceiling of the logarithm is exact. -/
theorem ceil_log2 {n : ℕ} (hn : 0 < n) (hmax : n ≤ 2^48) : ⌈lib.log2 n⌉ = Nat.clog 2 n := by
  have hn1 : (1 : ℚ) ≤ n := by exact_mod_cast hn
  have hclog : Nat.clog 2 n ≤ 48 := (Nat.clog_le_iff_le_pow (by norm_num)).mpr hmax
  apply le_antisymm
  · refine lib.ceil_le hn1 (by omega) ?_
    exact_mod_cast Nat.le_pow_clog (by norm_num) n
  · cases hc : Nat.clog 2 n with
    | zero => exact Int.ceil_nonneg (lib.nonneg hn1)
    | succ k =>
      have hlt : 2^k < n := by
        rw [← Nat.lt_clog_iff_pow_lt (by norm_num)]
        omega
      have := lib.lt_ceil (show k ≤ 47 by omega) (x := n) (by exact_mod_cast hlt)
      push_cast
      omega

end Log2

end Double
