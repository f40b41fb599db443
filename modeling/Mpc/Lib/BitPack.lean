import Mpc.Lib.LittleEndian

/- Bits packed eight to a byte. `bit` reads a bit of a byte string, `setBit` sets one,
   and `pack` sets the bits of a predicate in a buffer of zeros. A packed buffer holds
   the predicate in its first bits (`bit_pack`) and zeros in the rest. -/
namespace BitPack
open LE

/-- Bit `i` of a buffer; a byte outside it reads as zero. -/
def bit (bytes : List Byte) (i : Nat) : Bool := ((bytes.getD (i >>> 3) 0 >>> (i &&& 7)) &&& 1) != 0

/-- `bytes[i >> 3] |= 1 << (i & 7)`. -/
def setBit (bytes : List Byte) (i : Nat) : List Byte := bytes.modify (i >>> 3) (· ||| 1#8 <<< (i &&& 7))

/-- The loop that sets bit `i` for each `i < n` with `f i`. -/
def fill (f : Nat → Bool) (n : Nat) (bytes : List Byte) : List Byte :=
  (List.range n).foldl (fun bytes i => if f i then setBit bytes i else bytes) bytes

/-- The loop on a buffer of zeros that has room for `n` bits. -/
def pack (n : Nat) (f : Nat → Bool) : List Byte := fill f n (List.replicate ((n + 7) / 8) 0)

theorem byte_and_one (x : Byte) (i : Nat) : ((x >>> i) &&& 1 != 0) = x.getLsbD i := by
  have hbit : (x >>> i) &&& 1 = if x.getLsbD i then 1 else 0 := by
    rw [show (1 : Byte) = BitVec.twoPow 8 0 by decide, BitVec.and_twoPow, BitVec.getLsbD_ushiftRight,
      Nat.add_zero]
    rfl
  rw [hbit]
  cases x.getLsbD i <;> decide

theorem bit_eq (bytes : List Byte) (i : Nat) :
    bit bytes i = (bytes.getD (i / 8) 0).getLsbD (i % 8) := by
  rw [bit, byte_and_one, Nat.shiftRight_eq_div_pow, show (7 : Nat) = 2^3 - 1 by decide,
    Nat.and_two_pow_sub_one_eq_mod]

theorem setBit_length (bytes : List Byte) (i : Nat) : (setBit bytes i).length = bytes.length :=
  List.length_modify _ _ _

theorem bit_setBit {bytes : List Byte} {i : Nat} (hi : i < 8 * bytes.length) (j : Nat) :
    bit (setBit bytes i) j = (bit bytes j || decide (j = i)) := by
  rw [bit_eq, bit_eq, setBit, Nat.shiftRight_eq_div_pow, show (7 : Nat) = 2^3 - 1 by decide,
    Nat.and_two_pow_sub_one_eq_mod, List.getD_eq_getElem?_getD, List.getD_eq_getElem?_getD,
    List.getElem?_modify]
  have hlt : i / 2^3 < bytes.length := by omega
  have hmod : i % 8 < 8 := Nat.mod_lt _ (by decide)
  by_cases hbyte : i / 2^3 = j / 8
  · have hsame : decide (i % 2^3 = j % 8) = decide (j = i) := decide_eq_decide.mpr (by omega)
    simp only [if_pos hbyte]
    rw [← hbyte, List.getElem?_eq_getElem hlt, ← BitVec.twoPow_eq, ← hsame]
    simp [BitVec.getLsbD_twoPow, hmod]
  · have hne : j ≠ i := by omega
    simp only [if_neg hbyte, decide_eq_false hne, Bool.or_false]
    rw [id_map']

theorem fill_succ (f : Nat → Bool) (n : Nat) (bytes : List Byte) :
    fill f (n+1) bytes = if f n then setBit (fill f n bytes) n else fill f n bytes := by
  rw [fill, List.range_succ, List.foldl_append]
  rfl

theorem fill_length (f : Nat → Bool) (n : Nat) (bytes : List Byte) :
    (fill f n bytes).length = bytes.length := by
  induction n with
  | zero => rfl
  | succ n ih =>
    rw [fill_succ]
    split
    · rw [setBit_length, ih]
    · exact ih

theorem bit_fill (f : Nat → Bool) {n : Nat} {bytes : List Byte} (hn : n ≤ 8 * bytes.length) (j : Nat) :
    bit (fill f n bytes) j = (bit bytes j || (decide (j < n) && f j)) := by
  -- bits below n are filled in, one for each step
  induction n with
  | zero => simp [fill]
  | succ n ih =>
    have hlt : n < 8 * (fill f n bytes).length := by rw [fill_length]; omega
    rw [fill_succ]
    split
    · next hf =>
      rw [bit_setBit hlt, ih (by omega)]
      by_cases hj : j = n
      · subst hj
        simp [hf]
      · have hiff : j < n + 1 ↔ j < n := by omega
        simp [hj, hiff]
    · next hf =>
      rw [ih (by omega)]
      by_cases hj : j = n
      · subst hj
        simp [hf]
      · have hiff : j < n + 1 ↔ j < n := by omega
        simp [hiff]

theorem pack_length (n : Nat) (f : Nat → Bool) : (pack n f).length = (n + 7) / 8 := by
  rw [pack, fill_length, List.length_replicate]

/-- The bits of a packed buffer. -/
theorem bit_pack (n : Nat) (f : Nat → Bool) (j : Nat) : bit (pack n f) j = (decide (j < n) && f j) := by
  have hzero : bit (List.replicate ((n + 7) / 8) 0) j = false := by
    rw [bit_eq, List.getD_eq_getElem?_getD, List.getElem?_replicate]
    split <;> simp
  rw [pack, bit_fill f (by rw [List.length_replicate]; omega), hzero, Bool.false_or]

/-- A packed buffer depends on the bits it holds only. -/
theorem pack_congr {n : Nat} {f g : Nat → Bool} (h : ∀ i, i < n → f i = g i) : pack n f = pack n g := by
  rw [pack, pack, fill, fill]
  refine List.foldl_ext _ _ _ fun bytes i hi => ?_
  rw [h i (List.mem_range.mp hi)]

end BitPack
