import Mpc.Eqz
import Mpc.Local
import Mpc.ShareAll

/- The preprocessing program (dpf/preproc.cpp with dpf/dpf.h, dpf/shares.h). It makes two
   keys for the point 555 whose value is whatever an unassigned variable holds, splits 555
   into two shares, and puts a key and a share into each of two files; what it loads back
   it evaluates on all items, and the leaves go through two more files. At the end it
   compares a masked sum with its mask bit by bit. For every size and whatever the random
   bytes, the memory and the other files are, it prints that the shares reconstruct 555,
   that the outputs differ at 555 or nowhere, before and after the files, and that the sum
   is zero (`main_prints`). -/
namespace Mpc
open LE NetPeer Fifo

namespace Preproc

/-- `leaf_t`. -/
def leafT : LeafT := .array 4 (by decide)

/-! Output. -/

def hex (x : BitVec 64) : String := String.ofList (Nat.toDigits 16 x.toNat)

def showBlock (b : Block) : String :=
  "[0x" ++ (hex (b.extractLsb' 64 64) ++ (", 0x" ++ (hex (b.extractLsb' 0 64) ++ "]")))

/-- `operator<<` of a leaf. -/
def showLeaf (a : Leaf leafT) : String :=
  "\x7b " ++ (", ".intercalate ((List.range 4).map fun i => showBlock (a.extractLsb' (128 * i) 128)) ++ " \x7d")

/-- `m128i_equal`. -/
def m128iEqual (a b : Block) : Bool :=
  (List.range 16).all fun i => a.extractLsb' (8 * i) 8 == b.extractLsb' (8 * i) 8

/-- `operator==` of leaves. -/
def leafEqual (a b : Leaf leafT) : Bool :=
  (List.range 4).all fun i => m128iEqual (a.extractLsb' (128 * i) 128) (b.extractLsb' (128 * i) 128)

/-! Keys and shares. -/

variable (aes : AesKey → Block → Block)

/-- `share`. -/
def shareOut (secret : BitVec 64) (n : Nat) : Local (List (Share 64)) := do
  let m ← Party.get
  match share secret n m.entropy with
  | some (shares, entropy) =>
    Party.set { m with entropy := entropy }
    return shares
  | none => Party.throw (.runtimeError "n >= 2")

/-- `main` up to the loaded keys. -/
def keyFiles (prgkey : AesKey) (nitems : Nat) (targetValue : Leaf leafT) :
    Local (DpfKey leafT × DpfKey leafT) := do
  let (dpfkey0, dpfkey1) ← genKeys aes prgkey nitems 555 targetValue
  let shares ← shareOut 555 2
  let share0 ← Party.orUndefined shares[0]?
  let share1 ← Party.orUndefined shares[1]?
  printLine ("Shares: " ++ String.join (shares.map fun s => decimal s.value ++ " "))
  printLine ("Reconstructed secret: " ++ decimal (reconstruct shares))
  saveDpfKey dpfkey0 share0.value "dpfkey0.bin"
  saveDpfKey dpfkey1 share1.value "dpfkey1.bin"
  let (loaded0, share0Loaded) ← loadDpfKey leafT "dpfkey0.bin"
  let (loaded1, share1Loaded) ← loadDpfKey leafT "dpfkey1.bin"
  printLine ("Loaded share0: " ++ decimal share0Loaded)
  printLine ("Loaded share1: " ++ decimal share1Loaded)
  printLine ("rec = " ++ decimal (share0Loaded + share1Loaded))
  return (loaded0, loaded1)

/-! Outputs. -/

/-- The comparisons of item `j`. -/
def compareAt (output0 output1 loadedOuts0 loadedOuts1 : List (Leaf leafT)) (j : Nat) : Local Unit := do
  let a ← Party.orUndefined output0[j]?
  let b ← Party.orUndefined output1[j]?
  if !leafEqual a b then
    printLine ("Inequality at: " ++ toString j)
    printLine (showLeaf a ++ (" <> " ++ showLeaf b))
  let c ← Party.orUndefined loadedOuts0[j]?
  let d ← Party.orUndefined loadedOuts1[j]?
  if !leafEqual c d then
    printLine ("Inequality (loaded) at: " ++ toString j)
    printLine (showLeaf a ++ (" <> " ++ showLeaf b))

/-- The comparisons of `nitems` items. -/
def compareAll (output0 output1 loadedOuts0 loadedOuts1 : List (Leaf leafT)) : Nat → Local Unit
  | 0 => return ()
  | j+1 => do
    compareAll output0 output1 loadedOuts0 loadedOuts1 j
    compareAt output0 output1 loadedOuts0 loadedOuts1 j

/-- `main` from the loaded keys to the comparisons. -/
def outputFiles (loaded0 loaded1 : DpfKey leafT) (nitems : Nat) : Local Unit := do
  let m ← Party.get
  let (output0, _) ← evalOutput aes loaded0 (m.newOutput leafT nitems "output0" "_t0")
  let (output1, _) ← evalOutput aes loaded1 (m.newOutput leafT nitems "output1" "_t1")
  let output0 := output0.toList
  let output1 := output1.toList
  saveArray "output0.bin" output0
  saveArray "output1.bin" output1
  let (loadedOuts0, nitems) ← loadArray leafT.bitsPerLeaf "output0.bin" (BitVec.ofNat 64 nitems)
  let (loadedOuts1, nitems) ← loadArray leafT.bitsPerLeaf "output1.bin" nitems
  compareAll output0 output1 loadedOuts0 loadedOuts1 nitems.toNat

/-! The test for zero. -/

/-- The end of `main`: is `a0 + a1` zero? -/
def eqzTest (a0 a1 : BitVec 64) : Local Unit := do
  let r ← randomWord
  let r0 ← randomWord
  let r1 := r ^^^ r0
  let r0Ashare ← randomWord
  let r1Ashare := r - r0Ashare
  printLine ("XOR:       " ++ decimal (r0 ^^^ r1))
  printLine ("Additive:  " ++ decimal (r0Ashare + r1Ashare))
  let c := a0 + a1 + r0Ashare + r1Ashare
  let eqz := (List.range 64).foldl
    (fun eqz i => eqz &&& (1 - (bitOf c i ^^^ (bitOf r0 i ^^^ bitOf r1 i)))) (1 : BitVec 64)
  printLine ("EQZ = " ++ decimal eqz)

/-- `main` for `log2(nitems)`. A shift by 64 or more is undefined. -/
def main (logNitems : Nat) : Local Nat := do
  if 64 ≤ logNitems then Party.throw .undefined
  let nitems := 2^logNitems
  let m ← Party.get
  newArray nitems leafT.sizeof
  newArray nitems leafT.sizeof
  newArray nitems 1
  newArray nitems 1
  let (loaded0, loaded1) ← keyFiles aes (m.newKey "prgkey") nitems (m.unset "target_value" leafT.bitsPerLeaf)
  outputFiles aes loaded0 loaded1 nitems
  eqzTest 335530 (-335530)
  return 0

section
variable {m : Machine} {e : Entropy} {F : String → Option (List Byte)} {L : List String} {f : String}

/-! Leaves. -/

/-- Words are equal when their parts are. -/
theorem eq_of_parts {w k n : Nat} (hw : w ≤ n * k) {a b : BitVec w}
    (h : ∀ i, i < k → a.extractLsb' (n * i) n = b.extractLsb' (n * i) n) : a = b := by
  apply BitVec.eq_of_getLsbD_eq
  intro i hi
  have hn : 0 < n := by
    rcases Nat.eq_zero_or_pos n with rfl | hn
    · omega
    · exact hn
  have hpart := congrArg (fun x => x.getLsbD (i % n)) (h (i / n) ((Nat.div_lt_iff_lt_mul hn).mpr (by
    rw [Nat.mul_comm]; omega)))
  simpa [BitVec.getLsbD_extractLsb', Nat.mod_lt i hn, Nat.div_add_mod] using hpart

theorem m128iEqual_iff (a b : Block) : m128iEqual a b = true ↔ a = b := by
  constructor
  · intro h
    apply eq_of_parts (n := 8) (k := 16) (by decide)
    intro i hi
    exact eq_of_beq (List.all_eq_true.mp h i (List.mem_range.mpr hi))
  · rintro rfl
    simp [m128iEqual]

theorem leafEqual_iff (a b : Leaf leafT) : leafEqual a b = true ↔ a = b := by
  constructor
  · intro h
    apply eq_of_parts (n := 128) (k := 4) (by decide)
    intro i hi
    exact (m128iEqual_iff _ _).mp (List.all_eq_true.mp h i (List.mem_range.mpr hi))
  · rintro rfl
    simp [leafEqual, m128iEqual_iff]

/-! Keys and shares. -/

theorem share_two (secret : BitVec 64) (e : Entropy) :
    share secret 2 e = some ([⟨e.word 64⟩, ⟨secret - e.word 64⟩], e.skip 64) := by
  simp [share, shareLoop]

theorem shareOut_run (secret : BitVec 64) : (shareOut secret 2).run (during m e F L) =
    .ret (.ok [⟨e.word 64⟩, ⟨secret - e.word 64⟩], during m (e.skip 64) F L) := by
  unfold shareOut
  rw [Party.bind_of_ok (Party.get_run _),
    show share secret 2 (during m e F L).entropy = _ from share_two secret e]
  rfl

/-- What is printed of the shares `s0` and `s1`. -/
def keyLines (s0 s1 : BitVec 64) : List String :=
  ["default_make_finalizer", "Shares: " ++ (decimal s0 ++ " " ++ (decimal s1 ++ " ")),
    "Reconstructed secret: " ++ decimal (s0 + s1), "Loaded share0: " ++ decimal s0,
    "Loaded share1: " ++ decimal s1, "rec = " ++ decimal (s0 + s1)]

theorem saveDpfKey_during (hw : m.writable f = true) (key : DpfKey leafT) (s : BitVec 64) :
    (saveDpfKey key s f).run (during m e F L) =
      .ret (.ok (), during m e (Function.update F f (some (keyFile key s))) L) :=
  saveDpfKey_ok (m := during m e F L) hw key s

theorem loadDpfKey_during {key : DpfKey leafT} {s : BitVec 64} (hr : m.readable f = true)
    (hF : F f = some (keyFile key s)) (hn : key.nitems < 2^64) (hcw : key.cw.length < 2^59)
    (hroom : m.room (16 * key.cw.length) = true) :
    (loadDpfKey leafT f).run (during m e F L) = .ret (.ok (key, s), during m e F L) :=
  loadDpfKey_keyFile (content_during hr hF) hn hcw hroom

/-- The files that the program writes. -/
def fileNames : List String := ["dpfkey0.bin", "dpfkey1.bin", "output0.bin", "output1.bin"]

/-- The machine can write and read the files and can hold all arrays of `2^logNitems` items. -/
structure Ready (m : Machine) (logNitems : Nat) : Prop where
  readable : ∀ f ∈ fileNames, m.readable f = true
  writable : ∀ f ∈ fileNames, m.writable f = true
  size : logNitems < 57
  leaves : m.room (2^logNitems * leafT.sizeof) = true
  flags : m.room (2^logNitems * 1) = true
  words : m.room (16 * logNitems) = true

theorem keyFiles_run (aes : AesKey → Block → Block) (prgkey : AesKey) {k : Nat} (hk : 10 ≤ k) (hm : Ready m k)
    (val : Leaf leafT) : ∃ k0 k1 s0 s1 e', PointKeys aes (2^k) 555 val k0 k1 ∧ s0 + s1 = 555 ∧
      (keyFiles aes prgkey (2^k) val).run (during m e F L) = .ret (.ok (k0, k1), during m e'
        (Function.update (Function.update F "dpfkey0.bin" (some (keyFile k0 s0))) "dpfkey1.bin"
          (some (keyFile k1 s1))) (L ++ keyLines s0 s1)) := by
  have h555 : 555 < 2^k := Nat.lt_of_lt_of_le (by decide) (Nat.pow_le_pow_right (by decide) hk)
  have hsize := hm.size
  have h64 : 2^k < 2^64 := Nat.pow_lt_pow_right (by decide) (by omega)
  obtain ⟨k0, k1, hkeys, hgen⟩ := genKeys_run (m := m) (e := e) (F := F) (L := L) aes prgkey h555 val
  have hcw0 : k0.cw.length = k := hkeys.cw0.trans (depth_two_pow rfl k)
  have hcw1 : k1.cw.length = k := hkeys.cw1.trans (depth_two_pow rfl k)
  have hn0 := hkeys.nitems0
  have hn1 := hkeys.nitems1
  let s0 := (e.advance 32).word 64
  let s1 := 555 - s0
  refine ⟨k0, k1, s0, s1, (e.advance 32).skip 64, hkeys, add_sub_cancel _ _, ?_⟩
  have hname : ∀ {f : String}, f ∈ fileNames → m.writable f = true ∧ m.readable f = true :=
    fun h => ⟨hm.writable _ h, hm.readable _ h⟩
  obtain ⟨hw0, hr0⟩ := hname (f := "dpfkey0.bin") (by decide)
  obtain ⟨hw1, hr1⟩ := hname (f := "dpfkey1.bin") (by decide)
  have hload0 : ∀ {e L} {F : String → Option (List Byte)}, F "dpfkey0.bin" = some (keyFile k0 s0) →
      (loadDpfKey leafT "dpfkey0.bin").run (during m e F L) = .ret (.ok (k0, s0), during m e F L) :=
    fun hF => loadDpfKey_during hr0 hF (by omega) (by omega) (by rw [hcw0]; exact hm.words)
  have hload1 : ∀ {e L} {F : String → Option (List Byte)}, F "dpfkey1.bin" = some (keyFile k1 s1) →
      (loadDpfKey leafT "dpfkey1.bin").run (during m e F L) = .ret (.ok (k1, s1), during m e F L) :=
    fun hF => loadDpfKey_during hr1 hF (by omega) (by omega) (by rw [hcw1]; exact hm.words)
  have hne : "dpfkey0.bin" ≠ "dpfkey1.bin" := by decide
  have hlines : L ++ ["default_make_finalizer"] ++
      ["Shares: " ++ String.join ([(⟨s0⟩ : Share 64), ⟨s1⟩].map fun s => decimal s.value ++ " ")] ++
      ["Reconstructed secret: " ++ decimal (reconstruct [(⟨s0⟩ : Share 64), ⟨s1⟩])] ++
      ["Loaded share0: " ++ decimal s0] ++ ["Loaded share1: " ++ decimal s1] ++
      ["rec = " ++ decimal (s0 + s1)] = L ++ keyLines s0 s1 := by
    simp [keyLines, reconstruct, String.join]
  unfold keyFiles
  rw [Party.bind_of_ok hgen, Party.bind_of_ok (shareOut_run _)]
  simp only [List.getElem?_cons_zero, List.getElem?_cons_succ, Party.orUndefined, Party.pure_bind]
  simp only [Party.bind_run, printLine_run, saveDpfKey_during hw0, saveDpfKey_during hw1, Proc.bind_ret,
    Party.andThen_ok]
  rw [hload0 ((Function.update_of_ne hne _ _).trans (Function.update_self ..)), Proc.bind_ret, Party.andThen_ok,
    Party.bind_of_ok (hload1 (Function.update_self ..))]
  simp only [Party.bind_run, printLine_run, Proc.bind_ret, Party.andThen_ok, Party.pure_run]
  rw [← hlines]

/-! Outputs. -/

/-- What is printed of item `j` with leaves `a` and `b`, before and after the files. -/
def itemLines (j : Nat) (a b : Leaf leafT) : List String :=
  if a = b then []
  else ["Inequality at: " ++ toString j, showLeaf a ++ (" <> " ++ showLeaf b),
    "Inequality (loaded) at: " ++ toString j, showLeaf a ++ (" <> " ++ showLeaf b)]

theorem compareAt_run {a b : Leaf leafT} {o0 o1 : List (Leaf leafT)} {j : Nat} (h0 : o0[j]? = some a)
    (h1 : o1[j]? = some b) :
    (compareAt o0 o1 o0 o1 j).run (during m e F L) = .ret (.ok (), during m e F (L ++ itemLines j a b)) := by
  unfold compareAt
  simp only [h0, h1, Party.orUndefined, Party.pure_bind]
  by_cases hab : a = b
  · have heq : leafEqual a b = true := (leafEqual_iff a b).mpr hab
    rw [itemLines, if_pos hab, List.append_nil, heq]
    rfl
  · have hne : leafEqual a b = false := Bool.eq_false_iff.mpr fun h => hab ((leafEqual_iff a b).mp h)
    simp only [hne, Bool.not_false, if_true, Party.bind_run, printLine_run, Proc.bind_ret, Party.andThen_ok,
      itemLines, if_neg hab, List.append_assoc]
    rfl

/-- Every item is compared in turn. -/
theorem compareAll_run {o0 o1 : List (Leaf leafT)} {a b : Nat → Leaf leafT} {n : Nat}
    (h0 : ∀ j, j < n → o0[j]? = some (a j)) (h1 : ∀ j, j < n → o1[j]? = some (b j)) :
    (compareAll o0 o1 o0 o1 n).run (during m e F L) =
      .ret (.ok (), during m e F (L ++ (List.range n).flatMap fun j => itemLines j (a j) (b j))) := by
  induction n with
  | zero =>
    rw [List.range_zero, List.flatMap_nil, List.append_nil]
    rfl
  | succ n ih =>
    have hrun := ih (fun j hj => h0 j (by omega)) (fun j hj => h1 j (by omega))
    rw [compareAll, Party.bind_of_ok hrun, compareAt_run (h0 n (by omega)) (h1 n (by omega)), List.range_succ,
      List.flatMap_append, List.flatMap_singleton, List.append_assoc]

theorem saveArray_during (hw : m.writable f = true) (data : List (Leaf leafT)) :
    (saveArray f data).run (during m e F L) =
      .ret (.ok (), during m e (Function.update F f (some (arrayFile data))) L) :=
  saveArray_ok (m := during m e F L) hw data

theorem loadArray_during {k : Nat} (hm : Ready m k) {data : List (Leaf leafT)} (hlen : data.length = 2^k)
    (hr : m.readable f = true) (hF : F f = some (arrayFile data)) (nitems : BitVec 64) :
    (loadArray leafT.bitsPerLeaf f nitems).run (during m e F L) =
      .ret (.ok (data, BitVec.ofNat 64 (2^k)), during m e F L) := by
  have hsize := hm.size
  have hpow : 2^k ≤ 2^56 := Nat.pow_le_pow_right (by decide) (by omega)
  have hbytes : sizeBytes leafT.bitsPerLeaf = 64 := rfl
  rw [← hlen]
  refine loadArray_arrayFile (content_during hr hF) ?_ ?_ (by omega) nitems
  · rw [hbytes]
    omega
  · rw [hlen]
    exact hm.leaves

theorem outputFiles_run {aes : AesKey → Block → Block} {k0 k1 : DpfKey leafT} {k : Nat} {val : Leaf leafT}
    (hk : 10 ≤ k) (hm : Ready m k) (hkeys : PointKeys aes (2^k) 555 val k0 k1) :
    ∃ out0 out1 : Vector (Leaf leafT) (2^k), ∃ h : 555 < 2^k,
      out0 = keyLeaves aes k0 (2^k) ∧ out1 = keyLeaves aes k1 (2^k) ∧
      (∀ x (hx : x < 2^k), out0[x] ^^^ out1[x] = if x = 555 then val else 0) ∧
      (outputFiles aes k0 k1 (2^k)).run (during m e F L) = .ret (.ok (), during m e
        (Function.update (Function.update F "output0.bin" (some (arrayFile out0.toList))) "output1.bin"
          (some (arrayFile out1.toList)))
        (L ++ (["nodes_per_leaf = 4", "nodes_per_leaf = 4"] ++ itemLines 555 out0[555] out1[555]))) := by
  have h555 : 555 < 2^k := Nat.lt_of_lt_of_le (by decide) (Nat.pow_le_pow_right (by decide) hk)
  have hleaves : ∀ x (hx : x < 2^k), (keyLeaves aes k0 (2^k))[x] ^^^ (keyLeaves aes k1 (2^k))[x] =
      if x = 555 then val else 0 := fun x hx => hkeys.leaves_xor hx
  have heval0 : ∀ old, (evalOutput aes k0 old).run (during m e F L) = .ret (.ok (keyLeaves aes k0 (2^k),
      keyFlags aes k0 (2^k)), during m e F (L ++ ["nodes_per_leaf = 4"])) :=
    evalOutput_run aes rfl hkeys.nitems0 (hkeys.cw0.trans (depth_two_pow rfl k))
  have heval1 : ∀ L old, (evalOutput aes k1 old).run (during m e F L) = .ret (.ok (keyLeaves aes k1 (2^k),
      keyFlags aes k1 (2^k)), during m e F (L ++ ["nodes_per_leaf = 4"])) :=
    fun L => evalOutput_run aes rfl hkeys.nitems1 (hkeys.cw1.trans (depth_two_pow rfl k))
  refine ⟨keyLeaves aes k0 (2^k), keyLeaves aes k1 (2^k), h555, rfl, rfl, hleaves, ?_⟩
  generalize keyLeaves aes k0 (2^k) = out0 at hleaves heval0
  generalize keyLeaves aes k1 (2^k) = out1 at hleaves heval1
  have hw0 := hm.writable "output0.bin" (by decide)
  have hw1 := hm.writable "output1.bin" (by decide)
  have hr0 := hm.readable "output0.bin" (by decide)
  have hr1 := hm.readable "output1.bin" (by decide)
  have hne : "output0.bin" ≠ "output1.bin" := by decide
  have hcount : (BitVec.ofNat 64 (2^k)).toNat = 2^k := by
    have hsize := hm.size
    exact Nat.mod_eq_of_lt (Nat.pow_lt_pow_right (by decide) (by omega))
  have hval : ∀ (out : Vector (Leaf leafT) (2^k)) j (hj : j < 2^k), out.toList.getD j 0 = out[j] := by
    intro out j hj
    rw [List.getD_eq_getElem?_getD, List.getElem?_eq_getElem (by rwa [Vector.length_toList]), Option.getD_some,
      Vector.getElem_toList]
  have hget : ∀ (out : Vector (Leaf leafT) (2^k)) j, j < 2^k → out.toList[j]? = some (out.toList.getD j 0) := by
    intro out j hj
    rw [hval out j hj, List.getElem?_eq_getElem (by rwa [Vector.length_toList]), Vector.getElem_toList]
  have hlines : (List.range (2^k)).flatMap (fun j => itemLines j (out0.toList.getD j 0) (out1.toList.getD j 0)) =
      itemLines 555 out0[555] out1[555] := by
    rw [flatMap_single List.nodup_range (List.mem_range.mpr h555), hval out0 555 h555, hval out1 555 h555]
    intro j hj hne
    have hlt := List.mem_range.mp hj
    have hzero := hleaves j hlt
    rw [if_neg hne] at hzero
    exact if_pos (by rw [hval out0 j hlt, hval out1 j hlt, BitVec.xor_eq_zero_iff.mp hzero])
  unfold outputFiles
  rw [Party.bind_of_ok (Party.get_run _), Party.bind_of_ok (heval0 _), Party.bind_of_ok (heval1 _ _)]
  simp only [Party.bind_run, saveArray_during hw0, saveArray_during hw1, Proc.bind_ret, Party.andThen_ok]
  rw [loadArray_during hm out0.length_toList hr0 ((Function.update_of_ne hne _ _).trans (Function.update_self ..)),
    Proc.bind_ret, Party.andThen_ok,
    Party.bind_of_ok (loadArray_during hm out1.length_toList hr1 (Function.update_self ..) _), hcount,
    compareAll_run (hget out0) (hget out1), hlines]
  simp only [List.append_assoc]
  rfl

/-! The test for zero. -/

/-- A conjunction of the complements of bits. -/
theorem foldl_and_bits {g : Nat → BitVec 64} {l : List Nat} (h : ∀ i ∈ l, g i = 0#64 ∨ g i = 1#64) :
    l.foldl (fun eqz i => eqz &&& (1 - g i)) (1 : BitVec 64) = if ∀ i ∈ l, g i = 0#64 then 1 else 0 := by
  -- from an accumulator that is a bit
  have hfold : ∀ l : List Nat, (∀ i ∈ l, g i = 0#64 ∨ g i = 1#64) →
      l.foldl (fun eqz i => eqz &&& (1 - g i)) (0 : BitVec 64) = 0 ∧
      l.foldl (fun eqz i => eqz &&& (1 - g i)) (1 : BitVec 64) = if ∀ i ∈ l, g i = 0#64 then 1 else 0 := by
    intro l
    induction l with
    | nil => simp
    | cons i l ih =>
      intro h
      obtain ⟨hzero, hone⟩ := ih fun j hj => h j (List.mem_cons_of_mem _ hj)
      rw [List.foldl_cons, List.foldl_cons]
      obtain hi | hi := h i (List.mem_cons_self ..)
      · have h1 : (1 : BitVec 64) &&& (1 - 0#64) = 1 := by decide
        have h0 : (0 : BitVec 64) &&& (1 - 0#64) = 0 := by decide
        rw [hi, h1, h0, hone]
        refine ⟨hzero, if_congr ?_ rfl rfl⟩
        simp [hi]
      · have h1 : (1 : BitVec 64) &&& (1 - 1#64) = 0 := by decide
        have h0 : (0 : BitVec 64) &&& (1 - 1#64) = 0 := by decide
        rw [hi, h1, h0, hzero, if_neg]
        · exact ⟨rfl, rfl⟩
        · intro hall
          have := hall i (List.mem_cons_self ..)
          rw [hi] at this
          exact absurd this (by decide)
  exact (hfold l h).2

theorem eqzTest_run (a0 a1 : BitVec 64) : ∃ r e', (eqzTest a0 a1).run (during m e F L) = .ret (.ok (),
    during m e' F (L ++ ["XOR:       " ++ decimal r, "Additive:  " ++ decimal r,
      "EQZ = " ++ decimal (if a0 + a1 = 0 then 1 else 0)])) := by
  obtain ⟨r, hr⟩ : ∃ r, r = e.word 64 := ⟨_, rfl⟩
  obtain ⟨r0, hr0⟩ : ∃ r0, r0 = (e.skip 64).word 64 := ⟨_, rfl⟩
  obtain ⟨r0A, hr0A⟩ : ∃ r0A, r0A = ((e.skip 64).skip 64).word 64 := ⟨_, rfl⟩
  refine ⟨r, ((e.skip 64).skip 64).skip 64, ?_⟩
  have hxor : r0 ^^^ (r ^^^ r0) = r := by
    rw [BitVec.xor_comm r, ← BitVec.xor_assoc, BitVec.xor_self, BitVec.zero_xor]
  have hsum : a0 + a1 + r0A + (r - r0A) = a0 + a1 + r := by rw [add_assoc (a0 + a1), add_sub_cancel]
  -- the bits that differ are the bits of the masked sum against the mask
  have hfold : (List.range 64).foldl (fun eqz i => eqz &&& (1 - (bitOf (a0 + a1 + r) i ^^^
      (bitOf r0 i ^^^ bitOf (r ^^^ r0) i)))) (1 : BitVec 64) = if a0 + a1 = 0 then 1 else 0 := by
    have hbit : ∀ i, bitOf (a0 + a1 + r) i ^^^ (bitOf r0 i ^^^ bitOf (r ^^^ r0) i) = bitOf ((a0 + a1 + r) ^^^ r) i := by
      intro i
      rw [← bitOf_xor r0, hxor, ← bitOf_xor]
    simp only [hbit]
    rw [foldl_and_bits fun i _ => bitOf_eq_zero_or_one _ i]
    refine if_congr ?_ rfl rfl
    rw [bitOf_eq_zero, BitVec.xor_eq_zero_iff]
    exact add_eq_right
  unfold eqzTest
  rw [Party.bind_of_ok randomWord_run, ← hr, Party.bind_of_ok randomWord_run, ← hr0,
    Party.bind_of_ok randomWord_run, ← hr0A]
  dsimp only
  rw [Party.bind_of_ok (printLine_run _), Party.bind_of_ok (printLine_run _), hxor, add_sub_cancel, hsum, hfold,
    printLine_run]
  simp only [List.append_assoc, List.cons_append, List.nil_append]

/-! The program. -/

/-- What `main` prints where the shares are `s0` and `s1`, the outputs at 555 `a` and `b`, and the mask `r`. -/
def mainLines (s0 s1 : BitVec 64) (a b : Leaf leafT) (r : BitVec 64) : List String :=
  ["default_make_finalizer", "Shares: " ++ (decimal s0 ++ " " ++ (decimal s1 ++ " ")), "Reconstructed secret: 555",
    "Loaded share0: " ++ decimal s0, "Loaded share1: " ++ decimal s1, "rec = 555", "nodes_per_leaf = 4",
    "nodes_per_leaf = 4"] ++ itemLines 555 a b ++
  ["XOR:       " ++ decimal r, "Additive:  " ++ decimal r, "EQZ = 1"]

/-- The files `F` with those of the program. -/
def mainFiles (F : String → Option (List Byte)) (k0 k1 : DpfKey leafT) (s0 s1 : BitVec 64)
    (out0 out1 : List (Leaf leafT)) : String → Option (List Byte) :=
  Function.update (Function.update (Function.update (Function.update F "dpfkey0.bin" (some (keyFile k0 s0)))
    "dpfkey1.bin" (some (keyFile k1 s1))) "output0.bin" (some (arrayFile out0))) "output1.bin" (some (arrayFile out1))

theorem newArrays_run {k : Nat} (hm : Ready m k) :
    (newArray (2^k) leafT.sizeof).run m = .ret (.ok (), m) ∧ (newArray (2^k) 1).run m = .ret (.ok (), m) := by
  have hsize := hm.size
  have hpow : 2^k ≤ 2^56 := Nat.pow_le_pow_right (by decide) (by omega)
  refine ⟨newArray_ok ?_ hm.leaves, newArray_ok (by omega) hm.flags⟩
  rw [show leafT.sizeof = 64 from rfl]
  omega

/-- The arrays can be had. -/
theorem main_run (aes : AesKey → Block → Block) {k : Nat} (hm : Ready m k) : (main aes k).run m =
    (keyFiles aes (m.newKey "prgkey") (2^k) (m.unset "target_value" leafT.bitsPerLeaf) >>= fun keys => do
      outputFiles aes keys.1 keys.2 (2^k)
      eqzTest 335530 (-335530)
      return 0).run m := by
  obtain ⟨hleaves, hflags⟩ := newArrays_run hm
  have hsize := hm.size
  unfold main
  rw [if_neg (by omega), Party.bind_of_ok (Party.get_run _), Party.bind_of_ok hleaves, Party.bind_of_ok hleaves,
    Party.bind_of_ok hflags, Party.bind_of_ok hflags]

/-- The program on a machine that has the files and the room. Below `2^10` items the point is out of range
    and nothing is printed or written. From there on it ends well and prints that the shares reconstruct 555,
    that the outputs differ at 555 if the unassigned value is not zero and nowhere else, before and after
    the files, and that the sum is zero; its files hold two keys for 555, shares of 555 and the keys' leaves,
    and all other files are as they were. -/
theorem main_prints (aes : AesKey → Block → Block) {k : Nat} (hm : Ready m k) :
    (k < 10 → (main aes k).run m = .ret (.error (.runtimeError "target point out of range"), m)) ∧
    (10 ≤ k → ∃ k0 k1 s0 s1 r m', ∃ out0 out1 : Vector (Leaf leafT) (2^k), ∃ h : 555 < 2^k,
      (main aes k).run m = .ret (.ok 0, m') ∧
      PointKeys aes (2^k) 555 (m.unset "target_value" leafT.bitsPerLeaf) k0 k1 ∧ s0 + s1 = 555 ∧
      out0 = keyLeaves aes k0 (2^k) ∧ out1 = keyLeaves aes k1 (2^k) ∧
      (∀ x (hx : x < 2^k), out0[x] ^^^ out1[x] =
        if x = 555 then m.unset "target_value" leafT.bitsPerLeaf else 0) ∧
      m'.out = m.out ++ mainLines s0 s1 out0[555] out1[555] r ∧
      m'.files "dpfkey0.bin" = some (keyFile k0 s0) ∧ m'.files "dpfkey1.bin" = some (keyFile k1 s1) ∧
      m'.files "output0.bin" = some (arrayFile out0.toList) ∧
      m'.files "output1.bin" = some (arrayFile out1.toList) ∧
      ∀ f, f ∉ fileNames → m'.files f = m.files f) := by
  rw [main_run aes hm]
  constructor
  · intro hk
    have hle : 2^k ≤ 2^9 := Nat.pow_le_pow_right (by decide) (by omega)
    have hout : 2^k ≤ 555 := by omega
    rw [Party.bind_run, keyFiles, Party.bind_of_error (genKeys_refused aes _ hout _ _), Proc.bind_ret,
      Party.andThen_error]
  · intro hk
    obtain ⟨k0, k1, s0, s1, e1, hkeys, hs, hrun1⟩ := keyFiles_run (m := m) (e := m.entropy) (F := m.files)
      (L := m.out) aes (m.newKey "prgkey") hk hm (m.unset "target_value" leafT.bitsPerLeaf)
    obtain ⟨out0, out1, h555, hout0, hout1, hout, hrun2⟩ := outputFiles_run (m := m) (e := e1)
      (F := Function.update (Function.update m.files "dpfkey0.bin" (some (keyFile k0 s0))) "dpfkey1.bin"
        (some (keyFile k1 s1))) (L := m.out ++ keyLines s0 s1) hk hm hkeys
    obtain ⟨r, e2, hrun3⟩ := eqzTest_run (m := m) (e := e1)
      (F := mainFiles m.files k0 k1 s0 s1 out0.toList out1.toList)
      (L := m.out ++ keyLines s0 s1 ++
        (["nodes_per_leaf = 4", "nodes_per_leaf = 4"] ++ itemLines 555 out0[555] out1[555])) 335530 (-335530)
    have hstart : (keyFiles aes (m.newKey "prgkey") (2^k) (m.unset "target_value" leafT.bitsPerLeaf)).run m =
        _ := hrun1
    refine ⟨k0, k1, s0, s1, r, during m e2 (mainFiles m.files k0 k1 s0 s1 out0.toList out1.toList)
      (m.out ++ mainLines s0 s1 out0[555] out1[555] r), out0, out1, h555, ?_, hkeys, hs, hout0, hout1, hout, rfl, rfl,
      rfl, rfl, rfl, ?_⟩
    · rw [Party.bind_of_ok hstart, Party.bind_of_ok hrun2, Party.bind_run, ← mainFiles, hrun3, Proc.bind_ret,
        Party.andThen_ok]
      have h555' : decimal 555 = "555" := by rfl
      have hzero : (335530 : BitVec 64) + -335530 = 0 := by decide
      have hone : decimal 1 = "1" := by rfl
      simp only [during, keyLines, mainLines, hs, h555', hzero, if_true, hone, List.append_assoc, List.cons_append,
        List.nil_append]
      rfl
    · intro f hf
      simp only [fileNames, List.mem_cons, List.not_mem_nil, or_false, not_or] at hf
      simp only [during, mainFiles, Function.update_of_ne hf.1, Function.update_of_ne hf.2.1, Function.update_of_ne hf.2.2.1,
        Function.update_of_ne hf.2.2.2]

end

/-- With `2^10` items, in a directory that has a file `log`. -/
theorem main_prints_ten : ∃ m', (main (fun _ b => b) 10).run (.zeros []) = .ret (.ok 0, m') ∧
    m'.files "log" = some [] := by
  have hm : Ready (.zeros []) 10 := ⟨fun _ _ => rfl, fun _ _ => rfl, by decide, rfl, rfl, rfl⟩
  obtain ⟨-, -, -, -, -, m', -, -, -, hrun, -, -, -, -, -, -, -, -, -, -, hfiles⟩ :=
    (main_prints (fun _ b => b) hm).2 (Nat.le_refl 10)
  exact ⟨m', hrun, (hfiles "log" (by decide)).trans rfl⟩

end Preproc

end Mpc
