import Mpc.Aes
import Mpc.Dpf.Decode
import Mpc.Shares

/- Key and array files (dpf/preproc.cpp). A key file holds the fields of a DPF key as
   they lie in memory and behind them an additive share of its point, an array file a
   count and that many elements. The reader never looks at the state of its stream, so a
   file that is too short leaves in place what the memory held (`loadDpfKey_run`). What
   was saved last under a name comes back whole, whatever has been saved under other
   names since and whatever the reader's memory held (`files_keep`). -/
namespace Mpc
open LE NetPeer Fifo

/-- A process that is alone: its file system, its heap, the variables that were never
    assigned, what arc4random_buf will return, and the lines it has printed. -/
structure Machine where
  files : String → Option (List Byte)
  readable : String → Bool
  writable : String → Bool
  room : Nat → Bool
  uninit : String → Nat → Byte
  entropy : Entropy
  out : List String

abbrev Local := Party Machine

namespace Machine

/-- The machine with the file `filename`. -/
def put (m : Machine) (filename : String) (l : List Byte) : Machine :=
  { m with files := Function.update m.files filename (some l) }

/-- What a file that can be read holds. -/
def content (m : Machine) (filename : String) : Option (List Byte) :=
  if m.readable filename then m.files filename else none

/-- The `n` bytes of the unassigned object `name`. -/
def garbage (m : Machine) (name : String) (n : Nat) : List Byte := (List.range n).map (m.uninit name)

/-- The unassigned word `name`. -/
def unset (m : Machine) (name : String) (w : Nat) : BitVec w := dec w (m.garbage name (sizeBytes w))

/-- A new `AES_KEY` `name`, which its constructor fills up to the padding. -/
def newKeyBytes (m : Machine) (name : String) : List Byte :=
  aesKeyBytes defaultUserkey ((List.range 12).map fun i => m.uninit name (180 + i))

def newKey (m : Machine) (name : String) : AesKey := dec (192 * 8) (m.newKeyBytes name)

@[simp] theorem garbage_length (m : Machine) (name : String) (n : Nat) : (m.garbage name n).length = n := by
  rw [garbage, List.length_map, List.length_range]

@[simp] theorem newKeyBytes_length (m : Machine) (name : String) : (m.newKeyBytes name).length = 192 :=
  aesKeyBytes_length _ (by rw [List.length_map, List.length_range])

theorem put_self (m : Machine) (f : String) (l : List Byte) : (m.put f l).files f = some l :=
  Function.update_self ..

theorem put_of_ne (m : Machine) {f g : String} (l : List Byte) (h : g ≠ f) : (m.put f l).files g = m.files g :=
  Function.update_of_ne h ..

theorem put_put (m : Machine) (f : String) (l l' : List Byte) : (m.put f l).put f l' = m.put f l' := by
  simp only [put, Function.update_idem]

end Machine

/-! Streams on files. -/

/-- `std::ofstream ofs(filename, std::ios::binary)`, which empties the file. -/
def openOut (filename what : String) : Local OStream := do
  let m ← Party.get
  if m.writable filename then
    Party.set (m.put filename [])
    return ⟨[], true⟩
  else Party.throw (.runtimeError what)

/-- `ofs.close()`. -/
def closeOut (filename : String) (ofs : OStream) : Local Unit := do
  let m ← Party.get
  Party.set (m.put filename ofs.bytes)

/-- `std::ifstream ifs(filename, std::ios::binary)`. -/
def openIn (filename what : String) : Local IStream := do
  let m ← Party.get
  match m.content filename with
  | some l => return ⟨l, true⟩
  | none => Party.throw (.runtimeError what)

/-- `ifs.read` into the unassigned word `name`. -/
def readWord (ifs : IStream) (name : String) (w : Nat) : Local (BitVec w × IStream) := do
  let m ← Party.get
  let r := ifs.read (m.garbage name (sizeBytes w))
  return (dec w r.1, r.2)

/-- The blocks that `16 * n` bytes hold. -/
def blocksOf (n : Nat) (l : List Byte) : Vector Block n := ⟨(vecOf 128 n l).toArray, vecOf_length 128 n l⟩

/-! Keys. -/

/-- `save_dpf_key`. -/
def saveDpfKey {τ : LeafT} (key : DpfKey τ) (shareVal : BitVec 64) (filename : String) : Local Unit := do
  let ofs ← openOut filename "Failed to open file for writing"
  let ofs := ofs.write (enc (BitVec.ofNat 64 key.nitems))
  let ofs := ofs.write (enc key.root)
  let ofs := ofs.write (enc (BitVec.ofNat 64 key.cw.length))
  let ofs := ofs.write (vecBytes key.cw)
  let ofs := ofs.write (vecBytes key.finalizer.toList)
  let ofs := ofs.write (enc key.prgkey)
  let ofs := ofs.write (enc shareVal)
  closeOut filename ofs

/-- `load_dpf_key`. A new vector holds zeros, and a new PRG key is the default of its constructor. -/
def loadDpfKey (τ : LeafT) (filename : String) : Local (DpfKey τ × BitVec 64) := do
  let ifs ← openIn filename "Failed to open file for reading"
  let (nitems, ifs) ← readWord ifs "nitems" 64
  let (root, ifs) ← readWord ifs "root" 128
  let (cwSize, ifs) ← readWord ifs "cw_size" 64
  let m ← Party.get
  Party.ofExcept (allocBlocks (fun n => m.room (16 * n)) cwSize.toNat)
  let (cw, ifs) := ifs.read (List.replicate (16 * cwSize.toNat) 0)
  let (finalizer, ifs) := ifs.read (m.garbage "finalizer" (16 * τ.nodesPerLeaf))
  let (prgkey, ifs) := ifs.read (m.newKeyBytes "prgkey")
  let (shareVal, _) ← readWord ifs "share_val" 64
  return (⟨nitems.toNat, root, vecOf 128 cwSize.toNat cw, blocksOf τ.nodesPerLeaf finalizer,
    dec (192 * 8) prgkey⟩, shareVal)

/-! Arrays. -/

/-- `new T[n]` for elements of `size` bytes. -/
def newArray (n size : Nat) : Local Unit := do
  let m ← Party.get
  if 2^63 ≤ n * size then Party.throw (.runtimeError "std::bad_array_new_length")
  else if m.room (n * size) then return ()
  else Party.throw (.runtimeError "std::bad_alloc")

/-- `save_array` of a whole array. -/
def saveArray {w : Nat} (filename : String) (data : List (BitVec w)) : Local Unit := do
  let ofs ← openOut filename ("Failed to open file for writing: " ++ filename)
  let ofs := ofs.write (enc (BitVec.ofNat 64 data.length))
  let ofs := ofs.write (vecBytes data)
  closeOut filename ofs

/-- `load_array`, whose count is read over the caller's `nitems`. -/
def loadArray (w : Nat) (filename : String) (nitems : BitVec 64) : Local (List (BitVec w) × BitVec 64) := do
  let ifs ← openIn filename ("Failed to open file for reading: " ++ filename)
  let (count, ifs) := ifs.read (enc nitems)
  let nitems := dec 64 count
  newArray nitems.toNat (sizeBytes w)
  let m ← Party.get
  let (data, _) := ifs.read (m.garbage "data" (nitems.toNat * sizeBytes w))
  return (vecOf w nitems.toNat data, nitems)

/-! Reads. -/

namespace IStream

/-- A read fills the memory from its start on, as far as the file goes. -/
theorem read_fst (l old : List Byte) :
    (IStream.read ⟨l, true⟩ old).1 = l.take old.length ++ old.drop l.length := by
  by_cases h : old.length ≤ l.length
  · rw [read_of_le h, List.drop_eq_nil_of_le h, List.append_nil]
  · rw [List.take_of_length_le (by omega)]
    exact congrArg Prod.fst ((if_pos rfl).trans (if_neg h))

theorem read_length (i : IStream) (old : List Byte) : (i.read old).1.length = old.length := by
  obtain ⟨l, good⟩ := i
  cases good with
  | false => rfl
  | true =>
    rw [read_fst, List.length_append, List.length_take, List.length_drop]
    omega

/-- Two reads one after the other are one read into both objects. -/
theorem read_append (i : IStream) (a b : List Byte) :
    (i.read (a ++ b)).1 = (i.read a).1 ++ ((i.read a).2.read b).1 := by
  obtain ⟨l, good⟩ := i
  cases good with
  | false => rfl
  | true =>
    by_cases ha : a.length ≤ l.length
    · rw [read_of_le ha, read_fst, read_fst, List.length_append, List.take_add, List.append_assoc,
        List.length_drop, List.drop_append, List.drop_eq_nil_of_le ha, List.nil_append]
    · have hshort : IStream.read ⟨l, true⟩ a = (l ++ a.drop l.length, ⟨[], false⟩) :=
        (if_pos rfl).trans (if_neg ha)
      have hb : (IStream.read ⟨[], false⟩ b).1 = b := rfl
      rw [hshort, hb, read_fst, List.length_append, List.take_of_length_le (by omega), List.append_assoc,
        List.drop_append_of_le_length (by omega)]

end IStream

/-! What is in a file. -/

/-- The content of a key's file. -/
def keyFile {τ : LeafT} (key : DpfKey τ) (shareVal : BitVec 64) : List Byte := serializeDpfKey key ++ enc shareVal

/-- The content of an array's file. -/
def arrayFile {w : Nat} (data : List (BitVec w)) : List Byte :=
  enc (BitVec.ofNat 64 data.length) ++ vecBytes data

/-- The bytes of an object that held `old` when the file `l` was read into it. -/
def overlay (l old : List Byte) : List Byte := l.take old.length ++ old.drop l.length

theorem overlay_self {l old : List Byte} (h : l.length = old.length) : overlay l old = l := by
  rw [overlay, h, List.drop_length, List.append_nil, ← h, List.take_length]

/-- The variables of `load_dpf_key` before the reads, with `n` correction words. -/
def keyMemory (m : Machine) (τ : LeafT) (n : Nat) : List Byte :=
  m.garbage "nitems" 8 ++ (m.garbage "root" 16 ++ (m.garbage "cw_size" 8 ++ (List.replicate (16 * n) 0 ++
    (m.garbage "finalizer" (16 * τ.nodesPerLeaf) ++ (m.newKeyBytes "prgkey" ++ m.garbage "share_val" 8)))))

section
variable {m : Machine} {τ : LeafT} {w : Nat} {f what : String} {l : List Byte}

theorem openOut_ok (h : m.writable f = true) :
    (openOut f what).run m = .ret (.ok ⟨[], true⟩, m.put f []) := by
  unfold openOut
  rw [Party.bind_of_ok (Party.get_run _), if_pos h]
  rfl

theorem openOut_refused (h : m.writable f = false) :
    (openOut f what).run m = .ret (.error (.runtimeError what), m) := by
  unfold openOut
  rw [Party.bind_of_ok (Party.get_run _), h]
  rfl

theorem openIn_ok (h : m.content f = some l) :
    (openIn f what).run m = .ret (.ok ⟨l, true⟩, m) := by
  unfold openIn
  rw [Party.bind_of_ok (Party.get_run _), h]
  rfl

theorem readWord_run (ifs : IStream) (name : String) (w : Nat) (m : Machine) :
    (readWord ifs name w).run m = .ret (.ok (dec w (ifs.read (m.garbage name (sizeBytes w))).1,
      (ifs.read (m.garbage name (sizeBytes w))).2), m) := rfl

theorem local_ofExcept_run {α : Type} (x : Except Err α) (m : Machine) :
    (Party.ofExcept x : Local α).run m = .ret (x, m) := by
  cases x <;> rfl

/-- The file of a key, out of the bytes of its fields. -/
theorem keyFile_fields {a b c d e g h : List Byte} {n : Nat} (ha : a.length = 8) (hb : b.length = 16)
    (hc : c.length = 8) (hd : d.length = 16 * n) (he : e.length = 16 * τ.nodesPerLeaf) (hg : g.length = 192)
    (hh : h.length = 8) (hn : (dec 64 c).toNat = n) :
    keyFile (⟨(dec 64 a).toNat, dec 128 b, vecOf 128 n d, blocksOf τ.nodesPerLeaf e, dec (192 * 8) g⟩ : DpfKey τ)
      (dec 64 h) = a ++ (b ++ (c ++ (d ++ (e ++ (g ++ h))))) := by
  have hblocks : (blocksOf τ.nodesPerLeaf e).toList = vecOf 128 τ.nodesPerLeaf e := rfl
  simp only [keyFile, serializeDpfKey, BitVec.ofNat_toNat, BitVec.setWidth_eq, vecOf_length, hblocks]
  rw [← vecBytes, ← vecBytes, ← hn, BitVec.ofNat_toNat, BitVec.setWidth_eq, enc_dec rfl ha, enc_dec rfl hb,
    enc_dec rfl hc, enc_dec rfl hg, enc_dec rfl hh, vecBytes_vecOf rfl (by rw [hd, hn, Nat.mul_comm]; rfl),
    vecBytes_vecOf rfl (by rw [he, Nat.mul_comm]; rfl)]
  simp only [List.append_assoc]

/-- A key file is read over the variables. A load fails only where the vector for the correction words
    cannot be had, however short the file is. -/
theorem loadDpfKey_run (h : m.content f = some l) : ∃ n key s,
    (loadDpfKey τ f).run m = .ret ((allocBlocks (fun n => m.room (16 * n)) n).map fun _ => (key, s), m) ∧
      keyFile key s = overlay l (keyMemory m τ n) ∧ key.nitems < 2^64 ∧ key.cw.length = n ∧ n < 2^64 ∧
      (32 ≤ l.length → n = (cwSizeAt l).toNat) := by
  let r1 := IStream.read ⟨l, true⟩ (m.garbage "nitems" 8)
  let r2 := r1.2.read (m.garbage "root" 16)
  let r3 := r2.2.read (m.garbage "cw_size" 8)
  let n := (dec 64 r3.1).toNat
  let r4 := r3.2.read (List.replicate (16 * n) 0)
  let r5 := r4.2.read (m.garbage "finalizer" (16 * τ.nodesPerLeaf))
  let r6 := r5.2.read (m.newKeyBytes "prgkey")
  let r7 := r6.2.read (m.garbage "share_val" 8)
  refine ⟨n, ⟨(dec 64 r1.1).toNat, dec 128 r2.1, vecOf 128 n r4.1, blocksOf τ.nodesPerLeaf r5.1,
    dec (192 * 8) r6.1⟩, dec 64 r7.1, ?_, ?_, BitVec.isLt _, vecOf_length _ _ _, BitVec.isLt _, ?_⟩
  · unfold loadDpfKey
    simp only [Party.bind_run, openIn_ok h, Proc.bind_ret, Party.andThen_ok, readWord_run, Party.get_run,
      local_ofExcept_run]
    show Party.andThen _ (allocBlocks (fun n => m.room (16 * n)) n, m) = _
    cases allocBlocks (fun n => m.room (16 * n)) n <;> rfl
  · have hlen : ∀ (i : IStream) {old : List Byte} {k : Nat}, old.length = k → (i.read old).1.length = k :=
      fun i _ _ h => (i.read_length _).trans h
    rw [keyFile_fields (hlen _ (by simp)) (hlen _ (by simp)) (hlen _ (by simp)) (hlen _ List.length_replicate)
      (hlen _ (by simp)) (hlen _ (by simp)) (hlen _ (by simp)) rfl, overlay, ← IStream.read_fst, keyMemory]
    simp only [IStream.read_append]
    rfl
  · intro hhead
    have hread : r3.1 = (l.drop 24).take 8 := by
      have hlen1 : (m.garbage "nitems" 8).length ≤ l.length := by
        rw [Machine.garbage_length]
        omega
      have hlen2 : (m.garbage "root" 16).length ≤ (l.drop 8).length := by
        rw [Machine.garbage_length, List.length_drop]
        omega
      have hlen3 : (m.garbage "cw_size" 8).length ≤ (l.drop 24).length := by
        rw [Machine.garbage_length, List.length_drop]
        omega
      have h1 : r1 = (l.take 8, ⟨l.drop 8, true⟩) := by
        simpa using IStream.read_of_le hlen1
      have h2 : r2 = ((l.drop 8).take 16, ⟨l.drop 24, true⟩) := by
        simpa [r2, h1] using IStream.read_of_le hlen2
      simpa [r3, h2] using congrArg Prod.fst (IStream.read_of_le hlen3)
    exact congrArg (fun b => (dec 64 b).toNat) hread

theorem keyFile_length (key : DpfKey τ) (s : BitVec 64) :
    (keyFile key s).length = 232 + 16 * key.cw.length + 16 * τ.nodesPerLeaf := by
  rw [keyFile, List.length_append, serialize_length, enc_length]
  show _ + 8 = _
  omega

theorem keyMemory_length (m : Machine) (τ : LeafT) (n : Nat) :
    (keyMemory m τ n).length = 232 + 16 * n + 16 * τ.nodesPerLeaf := by
  simp only [keyMemory, List.length_append, Machine.garbage_length, Machine.newKeyBytes_length,
    List.length_replicate]
  omega

theorem cwSizeAt_keyFile (key : DpfKey τ) (s : BitVec 64) :
    cwSizeAt (keyFile key s) = BitVec.ofNat 64 key.cw.length := by
  have hdrop : (keyFile key s).drop 24 = enc (BitVec.ofNat 64 key.cw.length) ++ (key.cw.flatMap enc ++
      (key.finalizer.toList.flatMap enc ++ (enc key.prgkey ++ enc s))) := by
    simp only [keyFile, serializeDpfKey, List.append_assoc]
    rw [← List.append_assoc]
    apply List.drop_left'
    rw [List.length_append, enc_length, enc_length]
    rfl
  have h8 : (enc (BitVec.ofNat 64 key.cw.length)).length = 8 := enc_length _
  rw [cwSizeAt, hdrop, List.take_left' h8, dec_enc]

/-- A key file gives the key and the share back. -/
theorem keyFile_inj {key key' : DpfKey τ} {s s' : BitVec 64} (hn : key.nitems < 2^64) (hcw : key.cw.length < 2^64)
    (hn' : key'.nitems < 2^64) (hcw' : key'.cw.length < 2^64) (h : keyFile key s = keyFile key' s') :
    key = key' ∧ s = s' := by
  have hkey := deserialize_serialize key hn hcw (enc s)
  rw [← keyFile, h, keyFile, deserialize_serialize key' hn' hcw', Option.some.injEq, Prod.mk.injEq] at hkey
  exact ⟨hkey.1.symm, (enc_injective hkey.2).symm⟩

/-- A new vector of `n` blocks can be had. -/
theorem allocBlocks_ok {room : Nat → Bool} {n : Nat} (hmax : n < 2^59) (hroom : room n = true) :
    allocBlocks room n = .ok () := by
  rw [allocBlocks, if_neg (by omega), if_pos hroom]

theorem loadDpfKey_keyFile {key : DpfKey τ} {s : BitVec 64} (h : m.content f = some (keyFile key s))
    (hn : key.nitems < 2^64) (hcw : key.cw.length < 2^59) (hroom : m.room (16 * key.cw.length) = true) :
    (loadDpfKey τ f).run m = .ret (.ok (key, s), m) := by
  obtain ⟨n, key', s', hrun, hfile, hn', hcw', hlt, hsize⟩ := loadDpfKey_run (τ := τ) h
  have hlen := keyFile_length key s
  have hcount : n = key.cw.length := by
    rw [hsize (by omega), cwSizeAt_keyFile]
    exact Nat.mod_eq_of_lt (by omega)
  rw [overlay_self (by rw [hlen, keyMemory_length, hcount])] at hfile
  obtain ⟨rfl, rfl⟩ := keyFile_inj hn' (by omega) hn (by omega) hfile
  rw [hrun, hcount, allocBlocks_ok hcw hroom]
  rfl

theorem saveDpfKey_ok (h : m.writable f = true) (key : DpfKey τ) (s : BitVec 64) :
    (saveDpfKey key s f).run m = .ret (.ok (), m.put f (keyFile key s)) := by
  unfold saveDpfKey
  rw [Party.bind_of_ok (openOut_ok h)]
  simp only [closeOut, OStream.write, Party.bind_run, Party.get_run, Proc.bind_ret, Party.andThen_ok, Party.set_run,
    Machine.put_put, if_true, List.nil_append, List.append_assoc, keyFile, serializeDpfKey]
  rfl

theorem saveDpfKey_refused (h : m.writable f = false) (key : DpfKey τ) (s : BitVec 64) :
    (saveDpfKey key s f).run m = .ret (.error (.runtimeError "Failed to open file for writing"), m) := by
  unfold saveDpfKey
  rw [Party.bind_of_error (openOut_refused h)]

/-! Arrays. -/

theorem newArray_ok {n size : Nat} (hmax : n * size < 2^63) (hroom : m.room (n * size) = true) :
    (newArray n size).run m = .ret (.ok (), m) := by
  unfold newArray
  rw [Party.bind_of_ok (Party.get_run _), if_neg (by omega), if_pos hroom]
  rfl

theorem saveArray_ok (h : m.writable f = true) (data : List (BitVec w)) :
    (saveArray f data).run m = .ret (.ok (), m.put f (arrayFile data)) := by
  unfold saveArray
  rw [Party.bind_of_ok (openOut_ok h)]
  simp only [closeOut, OStream.write, Party.bind_run, Party.get_run, Proc.bind_ret, Party.andThen_ok, Party.set_run,
    Machine.put_put, if_true, List.nil_append, arrayFile]

theorem saveArray_refused (h : m.writable f = false) (data : List (BitVec w)) :
    (saveArray f data).run m =
      .ret (.error (.runtimeError ("Failed to open file for writing: " ++ f)), m) := by
  unfold saveArray
  rw [Party.bind_of_error (openOut_refused h)]

theorem loadArray_arrayFile {data : List (BitVec w)} (h : m.content f = some (arrayFile data))
    (hmax : data.length * sizeBytes w < 2^63) (hroom : m.room (data.length * sizeBytes w) = true)
    (h64 : data.length < 2^64) (nitems : BitVec 64) :
    (loadArray w f nitems).run m = .ret (.ok (data, BitVec.ofNat 64 data.length), m) := by
  have hcount : IStream.read ⟨arrayFile data, true⟩ (enc nitems) =
      (enc (BitVec.ofNat 64 data.length), ⟨vecBytes data, true⟩) := by
    have hlen : (enc nitems).length = (enc (BitVec.ofNat 64 data.length)).length := by rw [enc_length, enc_length]
    rw [IStream.read_of_le (by rw [arrayFile, List.length_append]; omega), arrayFile, hlen, List.take_left,
      List.drop_left]
  have hdata : (IStream.read ⟨vecBytes data, true⟩ (m.garbage "data" (data.length * sizeBytes w))).1 =
      vecBytes data := by
    have hlen : (vecBytes data).length = (m.garbage "data" (data.length * sizeBytes w)).length := by
      rw [vecBytes_length, Machine.garbage_length, Nat.mul_comm]
    rw [IStream.read_of_le hlen.ge, ← hlen, List.take_length]
  have hn : (BitVec.ofNat 64 data.length).toNat = data.length := Nat.mod_eq_of_lt h64
  have hvec := vecOf_vecBytes data []
  rw [List.append_nil] at hvec
  unfold loadArray
  rw [Party.bind_of_ok (openIn_ok h)]
  simp only [hcount, dec_enc, hn]
  rw [Party.bind_of_ok (newArray_ok hmax hroom), Party.bind_of_ok (Party.get_run _)]
  simp only [hdata, hvec]
  rfl

end

/-! Saves one after the other. -/

/-- What a file is saved from. -/
inductive Saved where
  | key {τ : LeafT} (key : DpfKey τ) (shareVal : BitVec 64)
  | array {w : Nat} (data : List (BitVec w))

namespace Saved

def save (filename : String) : Saved → Local Unit
  | .key k s => saveDpfKey k s filename
  | .array data => saveArray filename data

def bytes : Saved → List Byte
  | .key k s => keyFile k s
  | .array data => arrayFile data

/-- The exception where the file cannot be written. -/
def refused (filename : String) : Saved → Err
  | .key .. => .runtimeError "Failed to open file for writing"
  | .array _ => .runtimeError ("Failed to open file for writing: " ++ filename)

/-- `r` can hold it. -/
def Fits (r : Machine) : Saved → Prop
  | .key k _ => k.nitems < 2^64 ∧ k.cw.length < 2^59 ∧ r.room (16 * k.cw.length) = true
  | @array w data => data.length < 2^64 ∧ data.length * sizeBytes w < 2^63 ∧
      r.room (data.length * sizeBytes w) = true

/-- `r` loads it from `filename`, an array whatever the caller's count was. -/
def Loads (r : Machine) (filename : String) : Saved → Prop
  | @key τ k s => (loadDpfKey τ filename).run r = .ret (.ok (k, s), r)
  | @array w data => ∀ nitems,
      (loadArray w filename nitems).run r = .ret (.ok (data, BitVec.ofNat 64 data.length), r)

end Saved

/-- The saves of a program. -/
def saveAll : List (String × Saved) → Local Unit
  | [] => return ()
  | (filename, x) :: rest => do
    x.save filename
    saveAll rest

/-- The machine after saves. -/
def Machine.putAll (m : Machine) (ops : List (String × Saved)) : Machine :=
  ops.foldl (fun m q => m.put q.1 q.2.bytes) m

/-- How saves end of which `rest` were not made. -/
def endOf : List (String × Saved) → Except Err Unit
  | [] => .ok ()
  | (filename, x) :: _ => .error (x.refused filename)

section
variable {m : Machine} {τ : LeafT} {f : String} {l : List Byte}

namespace Saved

theorem save_ok (x : Saved) (h : m.writable f = true) : (x.save f).run m = .ret (.ok (), m.put f x.bytes) := by
  cases x with
  | key k s => exact saveDpfKey_ok h k s
  | array data => exact saveArray_ok h data

theorem save_refused (x : Saved) (h : m.writable f = false) :
    (x.save f).run m = .ret (.error (x.refused f), m) := by
  cases x with
  | key k s => exact saveDpfKey_refused h k s
  | array data => exact saveArray_refused h data

theorem loads {x : Saved} (h : m.content f = some x.bytes) (hfits : x.Fits m) : x.Loads m f := by
  cases x with
  | key k s => exact loadDpfKey_keyFile h hfits.1 hfits.2.1 hfits.2.2
  | array data => exact loadArray_arrayFile h hfits.2.1 hfits.2.2 hfits.1

end Saved

theorem saveAll_run (ops : List (String × Saved)) (m : Machine) : ∃ done rest, ops = done ++ rest ∧
    (∀ q ∈ done, m.writable q.1 = true) ∧ (∀ q ∈ rest.head?, m.writable q.1 = false) ∧
    (saveAll ops).run m = .ret (endOf rest, m.putAll done) := by
  induction ops generalizing m with
  | nil => exact ⟨[], [], rfl, by simp, by simp, rfl⟩
  | cons q ops ih =>
    obtain ⟨f, x⟩ := q
    cases hw : m.writable f with
    | false =>
      refine ⟨[], (f, x) :: ops, rfl, by simp, by simpa using hw, ?_⟩
      rw [saveAll, Party.bind_of_error (x.save_refused hw)]
      rfl
    | true =>
      obtain ⟨done, rest, rfl, hdone, hrest, hrun⟩ := ih (m.put f x.bytes)
      refine ⟨(f, x) :: done, rest, rfl, List.forall_mem_cons.mpr ⟨hw, hdone⟩, hrest, ?_⟩
      rw [saveAll, Party.bind_of_ok (x.save_ok hw), hrun]
      rfl

theorem putAll_of_not_mem {ops : List (String × Saved)} (h : ∀ q ∈ ops, q.1 ≠ f) (m : Machine) :
    (m.putAll ops).files f = m.files f := by
  induction ops generalizing m with
  | nil => rfl
  | cons q ops ih =>
    have hf := h q (List.mem_cons_self ..)
    have hrest := ih (fun q hq => h q (List.mem_cons_of_mem _ hq)) (m.put q.1 q.2.bytes)
    exact hrest.trans (m.put_of_ne _ hf.symm)

theorem putAll_last {done post : List (String × Saved)} {x : Saved} (h : ∀ q ∈ post, q.1 ≠ f) (m : Machine) :
    (m.putAll (done ++ (f, x) :: post)).files f = some x.bytes := by
  rw [Machine.putAll, List.foldl_append, List.foldl_cons]
  exact (putAll_of_not_mem h _).trans (Machine.put_self _ f _)

/-- Saves in any order to any names. They go through up to the first that is refused, whose exception they
    end with. The files with other names are untouched, and what was saved last under a name is loaded whole
    by every process that finds the file as it was left, whatever its memory holds. -/
theorem files_keep (ops : List (String × Saved)) (m : Machine) : ∃ done rest m', ops = done ++ rest ∧
    (saveAll ops).run m = .ret (endOf rest, m') ∧ (∀ q ∈ rest.head?, m.writable q.1 = false) ∧
    (∀ f, (∀ q ∈ done, q.1 ≠ f) → m'.files f = m.files f) ∧
    ∀ pre f x post, done = pre ++ (f, x) :: post → (∀ q ∈ post, q.1 ≠ f) → ∀ r : Machine,
      r.readable f = true → r.files f = m'.files f → x.Fits r → x.Loads r f := by
  obtain ⟨done, rest, hops, -, hrest, hrun⟩ := saveAll_run ops m
  refine ⟨done, rest, _, hops, hrun, hrest, fun f hf => putAll_of_not_mem hf m, ?_⟩
  rintro pre f x post rfl hpost r hread hfile hfits
  have hcontent : r.content f = some x.bytes := by
    rw [Machine.content, if_pos hread, hfile, putAll_last hpost]
  exact Saved.loads hcontent hfits

theorem keyFile_take (key : DpfKey τ) (s : BitVec 64) :
    (keyFile key s).take 24 = enc (BitVec.ofNat 64 key.nitems) ++ enc key.root := by
  have h24 : (enc (BitVec.ofNat 64 key.nitems) ++ enc key.root).length = 24 := by
    rw [List.length_append, enc_length, enc_length]
    rfl
  simp only [keyFile, serializeDpfKey, List.append_assoc]
  rw [← List.append_assoc, List.take_left' h24]

/-- The file of a save that was cut off behind the count of correction words is loaded without complaint:
    the items, the root and the count are the key's, and whatever is missing is what the memory held. -/
theorem load_cut_key {key : DpfKey τ} {s : BitVec 64} (h : m.content f = some l) (hl : l <+: keyFile key s)
    (hcut : 32 ≤ l.length) (hn : key.nitems < 2^64) (hcw : key.cw.length < 2^59)
    (hroom : m.room (16 * key.cw.length) = true) : ∃ key' s', (loadDpfKey τ f).run m = .ret (.ok (key', s'), m) ∧
      key'.nitems = key.nitems ∧ key'.root = key.root ∧ key'.cw.length = key.cw.length ∧
      keyFile key' s' = l ++ (keyMemory m τ key.cw.length).drop l.length := by
  obtain ⟨n, key', s', hrun, hfile, hn', hcw', -, hsize⟩ := loadDpfKey_run (τ := τ) h
  obtain ⟨rest, hrest⟩ := hl
  have hcount : n = key.cw.length := by
    have hsame : cwSizeAt l = cwSizeAt (keyFile key s) := by
      rw [cwSizeAt, cwSizeAt, ← hrest, List.drop_append_of_le_length (by omega),
        List.take_append_of_le_length (by rw [List.length_drop]; omega)]
    rw [hsize hcut, hsame, cwSizeAt_keyFile]
    exact Nat.mod_eq_of_lt (by omega)
  have hle : l.length ≤ (keyMemory m τ n).length := by
    have hlen := congrArg List.length hrest
    rw [List.length_append, keyFile_length] at hlen
    rw [keyMemory_length, hcount]
    omega
  rw [overlay, List.take_of_length_le hle, hcount] at hfile
  -- the items and the root are within the part that is there
  have hhead : (keyFile key' s').take 24 = (keyFile key s).take 24 := by
    rw [hfile, ← hrest, List.take_append_of_le_length (by omega), List.take_append_of_le_length (by omega)]
  rw [keyFile_take, keyFile_take] at hhead
  obtain ⟨hitems, hroot⟩ := List.append_inj hhead (by rw [enc_length, enc_length])
  have hitems' := congrArg BitVec.toNat (enc_injective hitems)
  rw [BitVec.toNat_ofNat, BitVec.toNat_ofNat, Nat.mod_eq_of_lt hn', Nat.mod_eq_of_lt hn] at hitems'
  refine ⟨key', s', ?_, hitems', enc_injective hroot, hcw'.trans hcount, hfile⟩
  rw [hrun, hcount, allocBlocks_ok hcw hroom]
  rfl

end

/-- A machine with zeros in its memory and the file `l` under every name. -/
def Machine.zeros (l : List Byte) : Machine :=
  ⟨fun _ => some l, fun _ => true, fun _ => true, fun _ => true, fun _ _ => 0, ⟨fun _ => 0, 0⟩, []⟩

/-- The file of a key of three items that ends behind the count. -/
def cutFile : List Byte := (keyFile (⟨3, 7, [5], #v[9], 0⟩ : DpfKey .uint64) 4).take 32

theorem load_cut_key_three : ∃ key' s',
    (loadDpfKey .uint64 "dpfkey0.bin").run (.zeros cutFile) = .ret (.ok (key', s'), .zeros cutFile) ∧
      key'.nitems = 3 ∧ key'.root = 7 ∧ key'.cw.length = 1 := by
  have hcut : cutFile.length = 32 := by
    rw [cutFile, List.length_take, keyFile_length]
    rfl
  obtain ⟨key', s', hrun, hitems, hroot, hcw, -⟩ := load_cut_key (m := .zeros cutFile) (f := "dpfkey0.bin") rfl
    (List.take_prefix _ _) hcut.ge (show 3 < 2^64 by decide) (show 1 < 2^59 by decide) rfl
  exact ⟨key', s', hrun, hitems, hroot, hcw⟩

end Mpc
