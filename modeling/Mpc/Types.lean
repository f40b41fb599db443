import Mpc.Network

/- 128-bit blocks and vectors of words (types.hpp), and the PRG on blocks
   (dpf/prg.h, prg.hpp). AES is an arbitrary function on blocks. Vector operators
   throw on a size mismatch and otherwise work element by element. -/
namespace Mpc
open LE

abbrev Block := BitVec 128

/-! Low bits of a block. The masks `lsb128_mask[bits]` are the numbers `bits`. -/

/-- Whether every bit of the mask is set in the block. -/
def getLsb (block : Block) (bits : Block) : Byte :=
  if (block &&& bits) ^^^ bits = 0 then 1 else 0

def clearLsb (block : Block) (bits : Block) : Block := block &&& ~~~bits

def setLsb (block : Block) (val : Bool) : Block :=
  clearLsb block 0b01 ||| (if val then 0b01 else 0b00)

def setLsbs (block : Block) (bit0 bit1 : Bool) : Block :=
  clearLsb block 0b11 ||| BitVec.ofNat 128 ((if bit0 then 1 else 0) + 2 * (if bit1 then 1 else 0))

def xorIf (block1 block2 : Block) (flag : Bool) : Block :=
  block1 ^^^ (block2 &&& (if flag then BitVec.allOnes 128 else 0))

/-! Vector operators. -/

section
variable {w : Nat}

def vecXor (a b : List (BitVec w)) : Except Err (List (BitVec w)) :=
  if a.length ≠ b.length then .error (.runtimeError "operator+: size mismatch")
  else .ok (List.zipWith (· ^^^ ·) a b)

def vecAdd (a b : List (BitVec w)) : Except Err (List (BitVec w)) :=
  if a.length ≠ b.length then .error (.runtimeError "operator+: size mismatch")
  else .ok (List.zipWith (· + ·) a b)

/-- The accumulator of `a * b`. -/
def dot (a b : List (BitVec w)) : BitVec w := (a.zip b).foldl (fun acc p => acc + p.1 * p.2) 0

/-- The dot product `a * b`. -/
def vecMul (a b : List (BitVec w)) : Except Err (BitVec w) :=
  if a.length ≠ b.length then .error (.runtimeError "dot: size mismatch") else .ok (dot a b)

/-- The accumulator of `a & b`: it XORs the integer products. -/
def xorDot (a b : List (BitVec w)) : BitVec w := (a.zip b).foldl (fun acc p => acc ^^^ p.1 * p.2) 0

/-- The product `a & b`. -/
def vecAnd (a b : List (BitVec w)) : Except Err (BitVec w) :=
  if a.length ≠ b.length then .error (.runtimeError "dot: size mismatch") else .ok (xorDot a b)

@[simp] theorem dot_nil (b : List (BitVec w)) : dot [] b = 0 := rfl

/-- An accumulator can be added at the end. -/
theorem foldl_acc {α β : Type} (op : β → β → β) [Std.Associative op] {z : β} (hz : ∀ x, op x z = x)
    (f : α → β) (l : List α) (acc : β) :
    l.foldl (fun acc p => op acc (f p)) acc = op acc (l.foldl (fun acc p => op acc (f p)) z) := by
  calc l.foldl (fun acc p => op acc (f p)) acc
      = (l.map f).foldl op (op acc z) := by rw [List.foldl_map, hz]
    _ = op acc ((l.map f).foldl op z) := List.foldl_assoc
    _ = op acc (l.foldl (fun acc p => op acc (f p)) z) := by rw [List.foldl_map]

theorem dot_cons (x y : BitVec w) (a b : List (BitVec w)) :
    dot (x :: a) (y :: b) = x * y + dot a b := by
  rw [dot, List.zip_cons_cons, List.foldl_cons, foldl_acc (· + ·) BitVec.add_zero]
  exact congrArg (· + dot a b) (BitVec.zero_add _)

theorem xorDot_cons (x y : BitVec w) (a b : List (BitVec w)) :
    xorDot (x :: a) (y :: b) = x * y ^^^ xorDot a b := by
  rw [xorDot, List.zip_cons_cons, List.foldl_cons, foldl_acc (· ^^^ ·) fun _ => BitVec.xor_zero]
  exact congrArg (· ^^^ xorDot a b) BitVec.zero_xor

theorem xor_xor_xor_comm (a b c d : BitVec w) : (a ^^^ b) ^^^ (c ^^^ d) = (a ^^^ c) ^^^ (b ^^^ d) := by
  ac_rfl

variable {a b : List (BitVec w)} (h : a.length = b.length)
include h

theorem vecXor_ok : vecXor a b = .ok (List.zipWith (· ^^^ ·) a b) := if_neg (not_not.mpr h)
theorem vecAdd_ok : vecAdd a b = .ok (List.zipWith (· + ·) a b) := if_neg (not_not.mpr h)
theorem vecMul_ok : vecMul a b = .ok (dot a b) := if_neg (not_not.mpr h)
theorem vecAnd_ok : vecAnd a b = .ok (xorDot a b) := if_neg (not_not.mpr h)

end

/-! The PRG. -/

/-- Output block `c` of `dpf::PRG` on `seed`. -/
def prgBlock (aes : Block → Block) (seed : Block) (c : Nat) : Block :=
  aes (seed ^^^ BitVec.ofNat 128 c) ^^^ BitVec.ofNat 128 c ^^^ seed

/-- `dpf::PRG`: `len` blocks from counter `frm` on. -/
def prg (aes : Block → Block) (seed : Block) (len frm : Nat) : List Block :=
  (List.range len).map (fun i => prgBlock aes seed (frm + i))

/-- The loop of `fill_vector_with_prg`: two words a block while the vector has room. -/
def emitWords (w : Nat) : List Block → Nat → List (BitVec w)
  | _, 0 => []
  | [], n+1 => 0 :: emitWords w [] n
  | b :: _, 1 => [((b.extractLsb' 0 64).setWidth w)]
  | b :: buf, n+2 =>
    (b.extractLsb' 0 64).setWidth w :: (b.extractLsb' 64 64).setWidth w :: emitWords w buf n

/-- `crypto::fill_vector_with_prg` on a vector of `n` words. The PRG gets the block
    count as a uint32_t; blocks it does not reach stay zero. -/
def fillVectorWithPrg (aes : Block → Block) (w n : Nat) (seed : Block) : List (BitVec w) :=
  let blocks := (n + 1) / 2
  let filled := prg aes seed (blocks % 2^32) 0
  emitWords w (filled ++ List.replicate (blocks - filled.length) 0) n

end Mpc
