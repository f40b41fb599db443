import Mathlib.Data.BitVec
import Mathlib.Tactic.Ring

/- Little-endian images of fixed-width words. `bytes n x` is the `n`-byte image
   of a natural, `value` reads one back, and `enc`/`dec` are the two for a word
   of `w` bits in the `sizeBytes w` bytes an object of that width occupies. Reading
   back an image gives the word (`dec_enc`), an image determines its word
   (`enc_injective`), and bytes that a word fills are its image (`enc_dec`). -/
namespace LE

abbrev Byte := BitVec 8

/-- The `n` low bytes of `x`, least significant first. -/
def bytes : Nat → Nat → List Byte
  | 0, _ => []
  | n+1, x => BitVec.ofNat 8 x :: bytes n (x / 256)

/-- The natural a byte string spells, least significant byte first. -/
def value : List Byte → Nat
  | [] => 0
  | b :: l => b.toNat + 256 * value l

@[simp] theorem bytes_length (n x : Nat) : (bytes n x).length = n := by
  induction n generalizing x with
  | zero => rfl
  | succ n ih => simp only [bytes, List.length_cons, ih]

theorem value_bytes (n x : Nat) : value (bytes n x) = x % 256^n := by
  induction n generalizing x with
  | zero => simp [bytes, value, Nat.mod_one]
  | succ n ih =>
    calc value (bytes (n+1) x) = x % 256 + 256 * (x / 256 % 256^n) := by
          rw [bytes, value, ih, BitVec.toNat_ofNat]
      _ = x % (256 * 256^n) := Nat.mod_mul.symm
      _ = x % 256^(n+1) := by rw [Nat.mul_comm, ← Nat.pow_succ]

/-- The bytes an object of `w` bits occupies. -/
def sizeBytes (w : Nat) : Nat := (w + 7) / 8

/-- The object representation of a word. -/
def enc {w : Nat} (x : BitVec w) : List Byte := bytes (sizeBytes w) x.toNat

/-- The word an object representation holds. -/
def dec (w : Nat) (l : List Byte) : BitVec w := BitVec.ofNat w (value l)

@[simp] theorem enc_length {w : Nat} (x : BitVec w) : (enc x).length = sizeBytes w :=
  bytes_length _ _

theorem two_pow_le_sizeBytes (w : Nat) : 2^w ≤ 256^sizeBytes w := by
  have h : w ≤ 8 * sizeBytes w := by unfold sizeBytes; omega
  calc 2^w ≤ 2^(8 * sizeBytes w) := Nat.pow_le_pow_right (by decide) h
    _ = 256^sizeBytes w := by rw [Nat.pow_mul]

@[simp] theorem dec_enc {w : Nat} (x : BitVec w) : dec w (enc x) = x := by
  apply BitVec.eq_of_toNat_eq
  have hx := x.isLt
  rw [dec, enc, value_bytes, BitVec.toNat_ofNat,
    Nat.mod_eq_of_lt (Nat.lt_of_lt_of_le hx (two_pow_le_sizeBytes w)), Nat.mod_eq_of_lt hx]

theorem bytes_value (l : List Byte) : bytes l.length (value l) = l := by
  induction l with
  | nil => rfl
  | cons b l ih =>
    have hb := b.isLt
    have hlow : BitVec.ofNat 8 (b.toNat + 256 * value l) = b := by
      apply BitVec.eq_of_toNat_eq
      rw [BitVec.toNat_ofNat]
      omega
    have hhigh : (b.toNat + 256 * value l) / 256 = value l := by omega
    rw [List.length_cons, bytes, value, hlow, hhigh, ih]

theorem value_lt (l : List Byte) : value l < 256^l.length := by
  induction l with
  | nil => exact Nat.one_pos
  | cons b l ih =>
    have hb := b.isLt
    rw [value, List.length_cons, Nat.pow_succ]
    omega

/-- An image of the right length is the image of the word it holds, if the word fills its bytes. -/
theorem enc_dec {w : Nat} (hw : w = 8 * sizeBytes w) {l : List Byte} (hl : l.length = sizeBytes w) :
    enc (dec w l) = l := by
  have hlt : value l < 2^w := by
    calc value l < 256^l.length := value_lt l
      _ = 2^(8 * sizeBytes w) := by rw [hl, Nat.pow_mul]
      _ = 2^w := by rw [← hw]
  rw [enc, dec, BitVec.toNat_ofNat, Nat.mod_eq_of_lt hlt, ← hl, bytes_value]

theorem enc_injective {w : Nat} : Function.Injective (enc (w := w)) :=
  Function.LeftInverse.injective dec_enc

end LE
