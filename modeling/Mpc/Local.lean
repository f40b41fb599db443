import Mpc.Files
import Mpc.Oram.Keys

/- Programs that run alone (dpf/dpf.h as dpf/preproc.cpp and dpf/dpf.cpp use it). They draw
   random words, print, generate keys and evaluate them into their own arrays. The leaves
   fill whole blocks, so that dpf.h generates and evaluates as dpf.hpp does; what it prints
   on the way is part of the program's output. A full evaluation of `2^k` items prints the
   same whatever the key (`leftOnly_full`), and leaves the key's leaves and flags in the
   arrays whatever they held (`evalOutput_run`). -/
namespace Mpc
open LE Fifo BinTree

/-! Output. -/

def decimal (x : BitVec 64) : String := toString x.toNat

def printLine (line : String) : Local Unit := do
  let m ← Party.get
  Party.set { m with out := m.out ++ [line] }

/-- `arc4random_buf` of an `uint64_t`. -/
def randomWord : Local (BitVec 64) := do
  let m ← Party.get
  Party.set { m with entropy := m.entropy.skip 64 }
  return m.entropy.word 64

section
variable (aes : AesKey → Block → Block) {τ : LeafT}

/-! Keys. -/

/-- `dpf_key::gen`, which draws the roots. -/
def genKeys (prgkey : AesKey) (nitems target : Nat) (val : Leaf τ) : Local (DpfKey τ × DpfKey τ) := do
  if nitems ≤ target then Party.throw (.runtimeError "target point out of range")
  let m ← Party.get
  let root := m.entropy.take 32
  Party.set { m with entropy := m.entropy.advance 32 }
  printLine "default_make_finalizer"
  Party.ofExcept (gen aes prgkey nitems target val (dec 128 (root.take 16), dec 128 (root.drop 16)))

/-! Evaluation. -/

/-- The arrays `output` and `_t` of an evaluation. -/
abbrev OutputArrays (τ : LeafT) (nitems : Nat) := Vector (Leaf τ) nitems × Vector Byte nitems

/-- `new leaf_t[nitems]` and `new uint8_t[nitems]`. -/
def Machine.newOutput (m : Machine) (τ : LeafT) (nitems : Nat) (output t : String) : OutputArrays τ nitems :=
  (Vector.ofFn fun j => dec τ.bitsPerLeaf ((List.range τ.sizeof).map fun k => m.uninit output (τ.sizeof * j + k)),
    Vector.ofFn fun j => m.uninit t j)

/-- The arrays in blocks. -/
def OutputArrays.buffers {nitems : Nat} (o : OutputArrays τ nitems) : Buffers where
  nodes := fun i => (o.1.toList.getD (i / τ.nodesPerLeaf) 0).extractLsb' (128 * (i % τ.nodesPerLeaf)) 128
  flags := fun i => o.2.toList.getD i 0
  nodeRoom := nitems * τ.sizeof / 16
  flagRoom := nitems

/-- Whether a layer of `__evalinterval` ends with a parent of which it makes the left child only. -/
def leftOnly (key : DpfKey τ) (N fromNode layer : Nat) : Bool :=
  let nextbit := inputBit key.inputBits layer fromNode
  let nodesInPrevLayer := N ⌈/⌉ 2^(key.depth - layer)
  let nodesInCurLayer := N ⌈/⌉ 2^(key.depth - layer - 1)
  let rounds := predSize nodesInPrevLayer - nextbit
  decide (nextbit + rounds < nodesInPrevLayer) && !decide (nextbit + 2 * rounds < predSize nodesInCurLayer)

/-- `__evalinterval` of all items into the arrays `old`, with what it prints. -/
def evalOutput (key : DpfKey τ) {nitems : Nat} (old : OutputArrays τ nitems) : Local (OutputArrays τ nitems) := do
  printLine ("nodes_per_leaf = " ++ toString τ.nodesPerLeaf)
  let m ← Party.get
  let layers := (List.range key.depth).filter (leftOnly key (τ.nodesInInterval 0 (predSize nitems)) 0)
  Party.set { m with out := m.out ++ layers.map fun _ => "else" }
  let b ← Party.orUndefined (evalInterval aes key 0 (predSize nitems) old.buffers)
  return (Vector.ofFn fun j => leafAt τ b.nodes j, Vector.ofFn fun j => b.flags j)

end

/-! A machine on its way through a program. -/

/-- The machine `m` with entropy `e`, files `F` and the lines `L` printed. -/
def during (m : Machine) (e : Entropy) (F : String → Option (List Byte)) (L : List String) : Machine :=
  { m with entropy := e, files := F, out := L }

section
variable {m : Machine} {e : Entropy} {F : String → Option (List Byte)} {L : List String} {f : String} {τ : LeafT}

theorem printLine_run (line : String) :
    (printLine line).run (during m e F L) = .ret (.ok (), during m e F (L ++ [line])) := rfl

theorem randomWord_run :
    randomWord.run (during m e F L) = .ret (.ok (e.word 64), during m (e.skip 64) F L) := rfl

theorem content_during {l : List Byte} (hread : m.readable f = true) (hF : F f = some l) :
    (during m e F L).content f = some l := (if_pos hread).trans hF

theorem genKeys_run (aes : AesKey → Block → Block) (prgkey : AesKey) {nitems target : Nat}
    (htarget : target < nitems) (val : Leaf τ) : ∃ k0 k1, PointKeys aes nitems target val k0 k1 ∧
      (genKeys aes prgkey nitems target val).run (during m e F L) =
        .ret (.ok (k0, k1), during m (e.advance 32) F (L ++ ["default_make_finalizer"])) := by
  obtain ⟨k0, k1, hgen, hkeys⟩ := gen_keys aes prgkey val
    (dec 128 ((e.take 32).take 16), dec 128 ((e.take 32).drop 16)) htarget
  refine ⟨k0, k1, hkeys, ?_⟩
  unfold genKeys
  rw [if_neg (by omega)]
  simp only [Party.bind_run, Party.get_run, Party.set_run, Proc.bind_ret, Party.andThen_ok]
  show Party.andThen _ (.ok (), during m (e.advance 32) F (L ++ ["default_make_finalizer"])) = _
  rw [Party.andThen_ok, local_ofExcept_run]
  exact congrArg (fun r => Proc.ret (r, during m (e.advance 32) F (L ++ ["default_make_finalizer"]))) hgen

theorem genKeys_refused (aes : AesKey → Block → Block) (prgkey : AesKey) {nitems target : Nat}
    (htarget : nitems ≤ target) (val : Leaf τ) (m : Machine) :
    (genKeys aes prgkey nitems target val).run m = .ret (.error (.runtimeError "target point out of range"), m) := by
  rw [genKeys, if_pos htarget]
  rfl

/-- A loop of which one round prints. -/
theorem flatMap_single {α : Type} {g : α → List String} {l : List α} {t : α} (hl : l.Nodup) (ht : t ∈ l)
    (h : ∀ i ∈ l, i ≠ t → g i = []) : l.flatMap g = g t := by
  induction l with
  | nil => cases ht
  | cons i l ih =>
    obtain ⟨hi, hnodup⟩ := List.nodup_cons.mp hl
    rw [List.flatMap_cons]
    by_cases hit : i = t
    · subst hit
      have hnil : l.flatMap g = [] :=
        List.flatMap_eq_nil_iff.mpr fun j hj => h j (List.mem_cons_of_mem _ hj) fun hji => hi (hji ▸ hj)
      rw [hnil, List.append_nil]
    · rw [h i (List.mem_cons_self ..) hit, List.nil_append]
      exact ih hnodup ((List.mem_cons.mp ht).resolve_left (Ne.symm hit)) fun j hj =>
        h j (List.mem_cons_of_mem _ hj)

/-! Leaves of whole blocks. -/

theorem nodes_eq (hτ : τ.isPacked = false) (n : Nat) : τ.nodes n = n := by
  rw [LeafT.nodes, τ.leavesPerNode_eq_one hτ, ceilDiv_one]

theorem fits_of_whole (hτ : τ.isPacked = false) {n : Nat} (hn : 0 < n) : τ.Fits n 0 := by
  refine ⟨hn, ?_⟩
  have hbits := τ.leaf_bits
  rw [τ.leavesPerNode_eq_one hτ, LeafT.bitsPerLeaf] at hbits
  have hsize : τ.sizeof = 16 * τ.nodesPerLeaf := by omega
  have hmul : n * (16 * τ.nodesPerLeaf) = n * τ.nodesPerLeaf * 16 := by ring
  rw [nodes_eq hτ, hsize, hmul, Nat.mul_div_cancel _ (by decide)]
  exact Nat.le_add_right ..

theorem depth_two_pow (hτ : τ.isPacked = false) (k : Nat) : τ.depth (2^k) = k := by
  rw [LeafT.depth, τ.leavesPerNode_eq_one hτ, ceilDiv_one, Nat.clog_pow _ _ (by decide)]

/-- On all of `2^k` items every parent has two children. -/
theorem leftOnly_full {key : DpfKey τ} {k l : Nat} (hdepth : key.depth = k) (hl : l < k) :
    leftOnly key (2^k) 0 l = false := by
  have hbit : inputBit key.inputBits l 0 = 0 := by simp [inputBit]
  have hprev : 2^k ⌈/⌉ 2^(k - l) = 2^l := by
    rw [ceilDiv_two_pow, Nat.sub_sub_self hl.le]
  have hcur : 2^k ⌈/⌉ 2^(k - l - 1) = 2 * 2^l := by
    rw [ceilDiv_two_pow, show k - (k - l - 1) = l + 1 by omega, Nat.pow_succ, Nat.mul_comm]
  have hpos := Nat.two_pow_pos l
  have hpred : ∀ n, 0 < n → predSize n = n - 1 := fun n hn => if_neg hn.ne'
  simp only [leftOnly, hdepth, hbit, hprev, hcur, hpred _ hpos, hpred (2 * 2^l) (by omega), Nat.sub_zero, Nat.zero_add]
  rw [Bool.and_eq_false_iff]
  right
  simp only [Bool.not_eq_false', decide_eq_true_eq]
  omega

theorem evalOutput_run (aes : AesKey → Block → Block) (hτ : τ.isPacked = false) {key : DpfKey τ} {k : Nat}
    (hn : key.nitems = 2^k) (hcw : key.cw.length = k) (old : OutputArrays τ (2^k)) :
    (evalOutput aes key old).run (during m e F L) = .ret (.ok (keyLeaves aes key (2^k), keyFlags aes key (2^k)),
      during m e F (L ++ ["nodes_per_leaf = " ++ toString τ.nodesPerLeaf])) := by
  have hpos := Nat.two_pow_pos k
  have hdepth : key.depth = k := by rw [DpfKey.depth, hn, depth_two_pow hτ]
  have hpred : predSize (2^k) = 2^k - 1 := if_neg hpos.ne'
  have hN : τ.nodesInInterval 0 (predSize (2^k)) = 2^k := by
    rw [hpred, LeafT.nodesInInterval_full _ hpos, nodes_eq hτ]
  have hlayers : (List.range key.depth).filter (leftOnly key (τ.nodesInInterval 0 (predSize (2^k))) 0) = [] := by
    rw [hN, List.filter_eq_nil_iff]
    intro l hl
    rw [leftOnly_full hdepth (by rw [← hdepth]; exact List.mem_range.mp hl)]
    exact Bool.false_ne_true
  obtain ⟨b', hrun, hout, hfl, -⟩ := evalInterval_full aes key (hn ▸ hpos) (by omega) (b := old.buffers)
    (by rw [hn]; exact (fits_of_whole hτ hpos).nodes) (by rw [hn]; exact (nodes_eq hτ _).le)
  rw [hn, ← hpred] at hrun
  have hleaves : (Vector.ofFn fun j : Fin (2^k) => leafAt τ b'.nodes j) = keyLeaves aes key (2^k) := by
    apply Vector.ext
    intro x hx
    rw [keyLeaves, Vector.getElem_ofFn, Vector.getElem_ofFn]
    exact leafAt_of_node τ fun j hj => hout _ j (by rw [hn]; exact τ.div_lt_nodes hx) hj
  have hflags : (Vector.ofFn fun j : Fin (2^k) => b'.flags j) = keyFlags aes key (2^k) := by
    apply Vector.ext
    intro i hi
    rw [keyFlags, Vector.getElem_ofFn, Vector.getElem_ofFn, if_pos (by rw [nodes_eq hτ]; exact hi)]
    exact hfl i (by rw [hn, nodes_eq hτ]; exact hi)
  unfold evalOutput
  rw [Party.bind_of_ok (printLine_run _)]
  simp only [Party.bind_run, Party.get_run, Party.set_run, Proc.bind_ret, Party.andThen_ok, hlayers, hrun]
  rw [← hleaves, ← hflags, List.map_nil]
  show Proc.ret (_, during m e F (L ++ [_] ++ [])) = _
  rw [List.append_nil]

end

end Mpc
