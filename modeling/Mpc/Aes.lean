import Mpc.Dpf.Key

/- The constructor of an AES key (aes.h, dpf/aes.h). A PRG key that a program declares
   and never assigns is not unassigned memory: the constructor expands a fixed user key
   into its round keys. `expandAssist` is the macro of that name, with the instructions
   it uses as their manual has them. Whatever the user key is, the four words of a round
   key are those of the one before, each XORed with the word in front of it, the first
   with the substituted and rotated last word and the round's constant (`roundKey_succ`). -/
namespace Mpc
open LE

/-! The substitution of bytes. -/

def xtime (a : Byte) : Byte := (a <<< 1) ^^^ (if a.msb then 0x1b else 0)

/-- The product in the field of 256 elements. -/
def gfMul (a b : Byte) : Byte :=
  (List.range 8).foldl (fun r i => if b.getLsbD i then r ^^^ xtime^[i] a else r) 0

/-- The inverse, the power 2 + 4 + … + 128; of 0 it is 0. -/
def gfInv (a : Byte) : Byte :=
  ((List.range 7).foldl (fun (r : Byte × Byte) _ =>
    (gfMul r.1 (gfMul r.2 r.2), gfMul r.2 r.2)) (1, a)).1

def sBox (a : Byte) : Byte :=
  let b := gfInv a
  b ^^^ b.rotateLeft 1 ^^^ b.rotateLeft 2 ^^^ b.rotateLeft 3 ^^^ b.rotateLeft 4 ^^^ 0x63

/-! Words of a block. -/

def wordAt (x : Block) (i : Nat) : BitVec 32 := x.extractLsb' (32 * i) 32

/-- The block of four words, the lowest first. -/
def ofWords (a b c d : BitVec 32) : Block := d ++ c ++ b ++ a

def subWord (x : BitVec 32) : BitVec 32 :=
  sBox (x.extractLsb' 24 8) ++ sBox (x.extractLsb' 16 8) ++ sBox (x.extractLsb' 8 8) ++ sBox (x.extractLsb' 0 8)

/-- `_mm_aeskeygenassist_si128`. -/
def mmAeskeygenassistSi128 (a : Block) (imm : Byte) : Block :=
  let x1 := subWord (wordAt a 1)
  let x3 := subWord (wordAt a 3)
  ofWords x1 (x1.rotateRight 8 ^^^ imm.setWidth 32) x3 (x3.rotateRight 8 ^^^ imm.setWidth 32)

/-- `_mm_shuffle_ps`: two words of `a` and two of `b`. -/
def mmShufflePs (a b : Block) (imm : Nat) : Block :=
  ofWords (wordAt a (imm % 4)) (wordAt a (imm / 4 % 4)) (wordAt b (imm / 16 % 4)) (wordAt b (imm / 64 % 4))

/-- `_mm_shuffle_epi32`. -/
def mmShuffleEpi32 (a : Block) (imm : Nat) : Block := mmShufflePs a a imm

/-! The constructor. -/

/-- `EXPAND_ASSIST(v1, v2, v3, v1, shuff_const, aes_const)`: the new `v1` and `v3`. -/
def expandAssist (v1 v3 : Block) (shuffConst : Nat) (aesConst : Byte) : Block × Block :=
  let v2 := mmAeskeygenassistSi128 v1 aesConst
  let v3 := mmShufflePs v3 v1 16
  let v1 := v1 ^^^ v3
  let v3 := mmShufflePs v3 v1 140
  let v1 := v1 ^^^ v3
  let v2 := mmShuffleEpi32 v2 shuffConst
  (v1 ^^^ v2, v3)

/-- The constants of the ten rounds. -/
def aesConsts : List Byte := [1, 2, 4, 8, 16, 32, 64, 128, 27, 54]

/-- The variables `x0` and `x2` when `rd_key[i]` has been set. -/
def expandState (userkey : Block) : Nat → Block × Block
  | 0 => (userkey, 0)
  | i+1 => expandAssist (expandState userkey i).1 (expandState userkey i).2 255 (aesConsts.getD i 0)

/-- `rd_key[i]`. -/
def roundKey (userkey : Block) (i : Nat) : Block := (expandState userkey i).1

/-- The default of `AES_KEY(userkey)`. -/
def defaultUserkey : Block := (597349 : BitVec 64) ++ (121379 : BitVec 64)

/-- `rounds`. -/
def aesRounds : BitVec 32 := 10

/-- The object that `AES_KEY(userkey)` makes in memory whose last twelve bytes, which belong to no field,
    are `padding`. -/
def aesKeyBytes (userkey : Block) (padding : List Byte) : List Byte :=
  (List.range 11).flatMap (fun i => enc (roundKey userkey i)) ++ (enc aesRounds ++ padding)

theorem aesKeyBytes_length (userkey : Block) {padding : List Byte} (h : padding.length = 12) :
    (aesKeyBytes userkey padding).length = 192 := by
  have hkeys : ((List.range 11).flatMap fun i => enc (roundKey userkey i)).length = 176 := by
    simp [List.length_flatMap, enc_length, sizeBytes]
  have hrounds : (enc aesRounds).length = 4 := enc_length _
  rw [aesKeyBytes, List.length_append, List.length_append, hkeys, hrounds, h]

/-! The key schedule. -/

section
variable (a b c d : BitVec 32) (x y : Block) (i : Nat)

@[simp] theorem wordAt_ofWords : wordAt (ofWords a b c d) 0 = a ∧ wordAt (ofWords a b c d) 1 = b ∧
    wordAt (ofWords a b c d) 2 = c ∧ wordAt (ofWords a b c d) 3 = d := by
  refine ⟨?_, ?_, ?_, ?_⟩
  all_goals
    apply BitVec.eq_of_getLsbD_eq
    intro k hk
    simp only [wordAt, ofWords, BitVec.getLsbD_extractLsb', BitVec.getLsbD_append, hk, decide_true, Bool.true_and]
    grind

@[simp] theorem wordAt_xor : wordAt (x ^^^ y) i = wordAt x i ^^^ wordAt y i := BitVec.extractLsb'_xor

end

/-- What the first word of a round key is XORed with. -/
def scheduleCore (last : BitVec 32) (aesConst : Byte) : BitVec 32 :=
  (subWord last).rotateRight 8 ^^^ aesConst.setWidth 32

section
variable (v1 : Block) {v3 : Block}

/-- The two shuffles XOR every word with all words in front of it. -/
theorem expandAssist_shuffles (h : wordAt v3 0 = 0) :
    let s := mmShufflePs v3 v1 16
    let s' := mmShufflePs s (v1 ^^^ s) 140
    wordAt s' 0 = 0 ∧ wordAt (v1 ^^^ s ^^^ s') 0 = wordAt v1 0 ∧
      ∀ i, i < 3 → wordAt (v1 ^^^ s ^^^ s') (i+1) = wordAt v1 (i+1) ^^^ wordAt (v1 ^^^ s ^^^ s') i := by
  intro s s'
  have hs : s = ofWords 0 0 (wordAt v1 1) (wordAt v1 0) := by
    rw [← h]
    rfl
  have hs' : s' = ofWords 0 (wordAt v1 0) (wordAt v1 0) (wordAt v1 2 ^^^ wordAt v1 1) := by
    show ofWords (wordAt s 0) (wordAt s 3) (wordAt (v1 ^^^ s) 0) (wordAt (v1 ^^^ s) 2) = _
    simp [hs]
  rw [hs, hs']
  refine ⟨by simp, by simp, ?_⟩
  intro i hi
  obtain rfl | rfl | rfl : i = 0 ∨ i = 1 ∨ i = 2 := by omega
  · simp
  · simp [BitVec.xor_assoc]
  · simp only [Nat.reduceAdd, wordAt_xor, wordAt_ofWords]
    rw [BitVec.xor_assoc, BitVec.xor_assoc, BitVec.xor_comm (wordAt v1 0), BitVec.xor_assoc]

theorem expandAssist_words (h : wordAt v3 0 = 0) (aesConst : Byte) :
    let r := expandAssist v1 v3 255 aesConst
    wordAt r.2 0 = 0 ∧ wordAt r.1 0 = wordAt v1 0 ^^^ scheduleCore (wordAt v1 3) aesConst ∧
      ∀ i, i < 3 → wordAt r.1 (i+1) = wordAt v1 (i+1) ^^^ wordAt r.1 i := by
  intro r
  obtain ⟨hzero, hfirst, hnext⟩ := expandAssist_shuffles v1 h
  -- the last word of what the key assist gives, in all four places
  have hcore : mmShuffleEpi32 (mmAeskeygenassistSi128 v1 aesConst) 255 = ofWords (scheduleCore (wordAt v1 3) aesConst)
      (scheduleCore (wordAt v1 3) aesConst) (scheduleCore (wordAt v1 3) aesConst)
      (scheduleCore (wordAt v1 3) aesConst) := by
    show ofWords (wordAt (mmAeskeygenassistSi128 v1 aesConst) 3) _ _ _ = _
    simp [mmAeskeygenassistSi128, scheduleCore]
  have hr : r.1 = v1 ^^^ mmShufflePs v3 v1 16 ^^^ mmShufflePs (mmShufflePs v3 v1 16) (v1 ^^^ mmShufflePs v3 v1 16) 140 ^^^
      ofWords (scheduleCore (wordAt v1 3) aesConst) (scheduleCore (wordAt v1 3) aesConst)
        (scheduleCore (wordAt v1 3) aesConst) (scheduleCore (wordAt v1 3) aesConst) := by
    rw [← hcore]
    rfl
  generalize hv : v1 ^^^ mmShufflePs v3 v1 16 ^^^ mmShufflePs (mmShufflePs v3 v1 16) (v1 ^^^ mmShufflePs v3 v1 16) 140 = v
    at hfirst hnext hr
  have hword : ∀ i, i < 4 → wordAt r.1 i = wordAt v i ^^^ scheduleCore (wordAt v1 3) aesConst := by
    intro i hi
    rw [hr, wordAt_xor]
    obtain rfl | rfl | rfl | rfl : i = 0 ∨ i = 1 ∨ i = 2 ∨ i = 3 := by omega
    all_goals simp
  refine ⟨hzero, ?_, ?_⟩
  · rw [hword 0 (by decide), hfirst]
  · intro i hi
    rw [hword (i+1) (by omega), hword i (by omega), hnext i hi, BitVec.xor_assoc]

end

/-- The round keys of every user key are its key schedule. -/
theorem roundKey_succ (userkey : Block) (i : Nat) :
    wordAt (roundKey userkey (i+1)) 0 = wordAt (roundKey userkey i) 0 ^^^
      scheduleCore (wordAt (roundKey userkey i) 3) (aesConsts.getD i 0) ∧
    ∀ j, j < 3 → wordAt (roundKey userkey (i+1)) (j+1) =
      wordAt (roundKey userkey i) (j+1) ^^^ wordAt (roundKey userkey (i+1)) j := by
  have hzero : ∀ i, wordAt (expandState userkey i).2 0 = 0 := by
    intro i
    induction i with
    | zero =>
      show wordAt 0 0 = 0
      decide
    | succ i ih => exact (expandAssist_words _ ih _).1
  exact (expandAssist_words _ (hzero i) _).2

/-- The first round key of the standard's example. -/
example : roundKey 0x3c4fcf098815f7aba6d2ae2816157e2b 1 = 0x05766c2a3939a323b12c548817fefaa0 := by decide +kernel

end Mpc
