import Mathlib.Algebra.Group.MinimalAxioms
import Mathlib.Data.BitVec
import Mpc.Lib.Masked

/- Words under XOR. `XorWord w` is `BitVec w` with XOR as its addition: an abelian
   group in which every element is its own negative, on which bitwise AND is
   biadditive (`andHom`). -/

/-- A word of `w` bits, added by XOR. -/
def XorWord (w : Nat) : Type := BitVec w

namespace XorWord
variable {w : Nat}

def of (x : BitVec w) : XorWord w := x
def bits (x : XorWord w) : BitVec w := x

instance : Zero (XorWord w) := ⟨of 0⟩
instance : Add (XorWord w) := ⟨fun x y => of (x.bits ^^^ y.bits)⟩
instance : Neg (XorWord w) := ⟨fun x => x⟩

@[simp] theorem of_bits (x : XorWord w) : of x.bits = x := rfl
@[simp] theorem bits_of (x : BitVec w) : (of x).bits = x := rfl
@[simp] theorem bits_zero : (0 : XorWord w).bits = 0 := rfl
@[simp] theorem bits_add (x y : XorWord w) : (x + y).bits = x.bits ^^^ y.bits := rfl

theorem of_xor (x y : BitVec w) : of (x ^^^ y) = of x + of y := rfl

instance : AddCommGroup (XorWord w) :=
  { AddGroup.ofLeftAxioms (G := XorWord w) (fun x y z => BitVec.xor_assoc x y z)
      (fun x => BitVec.zero_xor (x := x)) (fun x => BitVec.xor_self (x := x)) with
    add_comm := fun x y => BitVec.xor_comm x y }

@[simp] theorem bits_neg (x : XorWord w) : (-x).bits = x.bits := rfl

theorem bits_sub (x y : XorWord w) : (x - y).bits = x.bits ^^^ y.bits := by
  rw [sub_eq_add_neg, bits_add, bits_neg]

theorem of_injective : Function.Injective (of (w := w)) := fun _ _ h => h

theorem and_xor (x y z : BitVec w) : x &&& (y ^^^ z) = (x &&& y) ^^^ (x &&& z) := by
  ext i hi
  simp only [BitVec.getElem_and, BitVec.getElem_xor]
  exact Bool.and_xor_distrib_left _ _ _

theorem xor_and (x y z : BitVec w) : (x ^^^ y) &&& z = (x &&& z) ^^^ (y &&& z) := by
  rw [BitVec.and_comm, and_xor, BitVec.and_comm z, BitVec.and_comm z]

/-- AND as a biadditive map. -/
def andHom (w : Nat) : XorWord w →+ XorWord w →+ XorWord w :=
  Masked.biadditive (fun x y => of (x.bits &&& y.bits)) (fun _ _ _ => xor_and _ _ _)
    (fun _ _ _ => and_xor _ _ _)

@[simp] theorem andHom_apply (x y : XorWord w) : andHom w x y = of (x.bits &&& y.bits) := rfl

end XorWord
