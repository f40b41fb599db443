import Mathlib.Data.BitVec
import Mathlib.Tactic.Ring

/- Double-width words as two halves. `hi` and `lo` take a word apart, `join` puts it
   together; `add`, `sub` and `mul` compute on the halves with a carry, a borrow and
   the three partial products that reach the word. They are the word's own
   operations (`add_eq`, `sub_eq`, `mul_eq`). -/
namespace Halves

section
variable {w : Nat}

def hi (v : BitVec (w + w)) : BitVec w := v.extractLsb' w w
def lo (v : BitVec (w + w)) : BitVec w := v.extractLsb' 0 w
def join (h l : BitVec w) : BitVec (w + w) := h ++ l

@[simp] theorem hi_join (h l : BitVec w) : hi (join h l) = h := BitVec.extractLsb'_append_eq_left
@[simp] theorem lo_join (h l : BitVec w) : lo (join h l) = l := BitVec.extractLsb'_append_eq_right

theorem toNat_join (h l : BitVec w) : (join h l).toNat = h.toNat * 2^w + l.toNat := by
  rw [join, BitVec.toNat_append, Nat.shiftLeft_eq, Nat.mul_comm,
    Nat.two_pow_add_eq_or_of_lt l.isLt, Nat.or_comm, Nat.or_comm]

theorem join_hi_lo (v : BitVec (w + w)) : join (hi v) (lo v) = v := by
  apply BitVec.eq_of_toNat_eq
  have hv : v.toNat / 2^w < 2^w := Nat.div_lt_of_lt_mul (by rw [← Nat.pow_add]; exact v.isLt)
  calc (join (hi v) (lo v)).toNat = v.toNat / 2^w % 2^w * 2^w + v.toNat % 2^w := by
        rw [toNat_join, hi, lo, BitVec.extractLsb'_toNat, BitVec.extractLsb'_toNat,
          Nat.shiftRight_eq_div_pow, Nat.shiftRight_zero]
    _ = v.toNat := by rw [Nat.mod_eq_of_lt hv, Nat.div_add_mod']

/-- A word is given by its two halves. -/
theorem ext_halves {u v : BitVec (w + w)} (hh : hi u = hi v) (hl : lo u = lo v) : u = v := by
  rw [← join_hi_lo u, ← join_hi_lo v, hh, hl]

/-- The number two halves spell. -/
theorem join_eq_ofNat (x : Nat) :
    join (BitVec.ofNat w (x / 2^w)) (BitVec.ofNat w x) = BitVec.ofNat (w + w) x := by
  apply BitVec.eq_of_toNat_eq
  calc (join (BitVec.ofNat w (x / 2^w)) (BitVec.ofNat w x)).toNat
      = x / 2^w % 2^w * 2^w + x % 2^w := by rw [toNat_join, BitVec.toNat_ofNat, BitVec.toNat_ofNat]
    _ = x % (2^w * 2^w) := by rw [Nat.mod_mul, Nat.mul_comm, Nat.add_comm]
    _ = (BitVec.ofNat (w + w) x).toNat := by rw [BitVec.toNat_ofNat, Nat.pow_add]

/-! Sum and difference. -/

/-- The carry out of a sum that came to `l`, from one of its operands. -/
def carry (l a : BitVec w) : BitVec w := if l < a then 1 else 0

def add (a b : BitVec (w + w)) : BitVec (w + w) :=
  join (hi a + hi b + carry (lo a + lo b) (lo a)) (lo a + lo b)

def sub (a b : BitVec (w + w)) : BitVec (w + w) :=
  join (hi a - hi b - carry (lo a) (lo b)) (lo a - lo b)

/-- The wrapped sum is below an operand exactly when there was a carry. -/
theorem carry_eq (a b : BitVec w) :
    carry (a + b) a = BitVec.ofNat w ((a.toNat + b.toNat) / 2^w) := by
  have ha := a.isLt
  have hb := b.isLt
  unfold carry
  by_cases h : a.toNat + b.toNat < 2^w
  · have hlt : ¬ a + b < a := by
      rw [BitVec.lt_def, BitVec.toNat_add, Nat.mod_eq_of_lt h]
      omega
    rw [if_neg hlt, Nat.div_eq_of_lt h]
    rfl
  · have hmod : (a.toNat + b.toNat) % 2^w = a.toNat + b.toNat - 2^w := by
      rw [Nat.mod_eq_sub_mod (by omega), Nat.mod_eq_of_lt (by omega)]
    have hlt : a + b < a := by
      rw [BitVec.lt_def, BitVec.toNat_add, hmod]
      omega
    have hdiv : (a.toNat + b.toNat) / 2^w = 1 := by
      apply Nat.div_eq_of_lt_le <;> omega
    rw [if_pos hlt, hdiv]
    rfl

theorem add_eq (a b : BitVec (w + w)) : add a b = a + b := by
  have hpos : 0 < 2^w := Nat.two_pow_pos w
  have ha : a.toNat = (hi a).toNat * 2^w + (lo a).toNat := by
    rw [← toNat_join, join_hi_lo]
  have hb : b.toNat = (hi b).toNat * 2^w + (lo b).toNat := by
    rw [← toNat_join, join_hi_lo]
  have hx : a.toNat + b.toNat =
      (lo a).toNat + (lo b).toNat + ((hi a).toNat + (hi b).toNat) * 2^w := by
    rw [ha, hb]
    ring
  have hlo : lo a + lo b = BitVec.ofNat w (a.toNat + b.toNat) := by
    apply BitVec.eq_of_toNat_eq
    rw [BitVec.toNat_add, BitVec.toNat_ofNat, hx, Nat.add_mul_mod_self_right]
  have hhi : hi a + hi b + carry (lo a + lo b) (lo a) =
      BitVec.ofNat w ((a.toNat + b.toNat) / 2^w) := by
    rw [carry_eq, hx, Nat.add_mul_div_right _ _ hpos, Nat.add_comm (_ / _), BitVec.ofNat_add,
      BitVec.ofNat_add, BitVec.ofNat_toNat, BitVec.ofNat_toNat, BitVec.setWidth_eq,
      BitVec.setWidth_eq]
  rw [add, hhi, hlo, join_eq_ofNat, BitVec.ofNat_add, BitVec.ofNat_toNat, BitVec.ofNat_toNat,
    BitVec.setWidth_eq, BitVec.setWidth_eq]

/-- A difference wraps above its minuend exactly when there is a borrow. -/
theorem carry_sub (a b : BitVec w) : carry a (a - b) = carry a b := by
  have ha := a.isLt
  have hb := b.isLt
  have h : a < a - b ↔ a < b := by
    rw [BitVec.lt_def, BitVec.lt_def, BitVec.toNat_sub]
    by_cases hab : a.toNat < b.toNat
    · rw [Nat.mod_eq_of_lt (by omega)]
      omega
    · have hx : 2^w - b.toNat + a.toNat = a.toNat - b.toNat + 2^w := by omega
      rw [hx, Nat.add_mod_right, Nat.mod_eq_of_lt (by omega)]
      omega
  simp only [carry, h]

/-- Adding the subtrahend back carries where the difference borrowed. -/
theorem sub_eq (a b : BitVec (w + w)) : sub a b = a - b := by
  have hl : lo a - lo b + lo b = lo a := sub_add_cancel _ _
  rw [eq_sub_iff_add_eq, ← add_eq]
  apply ext_halves
  · rw [add, hi_join, sub, hi_join, lo_join, hl, carry_sub]
    ring
  · rw [add, lo_join, sub, lo_join, hl]

/-! Product. -/

/-- The product from the three partial products that reach the word. -/
def mul (a b : BitVec (w + w)) : BitVec (w + w) :=
  (lo a).setWidth (w + w) * (lo b).setWidth (w + w) +
    (((lo a).setWidth (w + w) * (hi b).setWidth (w + w) +
      (hi a).setWidth (w + w) * (lo b).setWidth (w + w)) <<< w)

theorem eq_halves (a : BitVec (w + w)) :
    a = (hi a).setWidth (w + w) * BitVec.ofNat (w + w) (2^w) + (lo a).setWidth (w + w) := by
  calc a = join (hi a) (lo a) := (join_hi_lo a).symm
    _ = BitVec.ofNat (w + w) ((hi a).toNat * 2^w + (lo a).toNat) := by
        rw [← toNat_join, BitVec.ofNat_toNat, BitVec.setWidth_eq]
    _ = (hi a).setWidth (w + w) * BitVec.ofNat (w + w) (2^w) + (lo a).setWidth (w + w) := by
        rw [BitVec.ofNat_add, BitVec.ofNat_mul, BitVec.ofNat_toNat, BitVec.ofNat_toNat]

/-- The high halves' product falls outside the word. -/
theorem shift_mul_shift (w : Nat) :
    BitVec.ofNat (w + w) (2^w) * BitVec.ofNat (w + w) (2^w) = 0 := by
  rw [← BitVec.ofNat_mul, ← Nat.pow_add]
  exact BitVec.eq_of_toNat_eq (Nat.mod_self _)

theorem mul_eq (a b : BitVec (w + w)) : mul a b = a * b := by
  have hz := shift_mul_shift w
  have hs : ∀ x : BitVec (w + w), x <<< w = x * BitVec.ofNat (w + w) (2^w) := by
    intro x
    apply BitVec.eq_of_toNat_eq
    rw [BitVec.toNat_shiftLeft, Nat.shiftLeft_eq, BitVec.toNat_mul, BitVec.toNat_ofNat,
      Nat.mul_mod_mod]
  conv_rhs => rw [eq_halves a, eq_halves b]
  rw [mul, hs]
  generalize BitVec.ofNat (w + w) (2^w) = m at *
  generalize (hi a).setWidth (w + w) = ha, (lo a).setWidth (w + w) = la
  generalize (hi b).setWidth (w + w) = hb, (lo b).setWidth (w + w) = lb
  calc la * lb + (la * hb + ha * lb) * m
      = la * lb + (la * hb + ha * lb) * m + ha * hb * 0 := by ring
    _ = la * lb + (la * hb + ha * lb) * m + ha * hb * (m * m) := by rw [hz]
    _ = (ha * m + la) * (hb * m + lb) := by ring

end
end Halves
