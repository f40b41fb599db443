import Mpc.Dpf.Serialize
import Mpc.Dpf.Sizes

/- The key decoder on arbitrary buffers (dpf.hpp). `deserialize_dpf_key` gets the length of
   its buffer and never looks at it: it reads on, a vector of as many correction words as
   the buffer says in between. Here an allocation that fails is an exception and a read
   behind the buffer is undefined.

   What comes out of a buffer that holds a whole key is that key (`decode_serialize`), but a
   shorter buffer is read behind its end, and the number of correction words need not
   fit the number of items (`decode_safe_iff`). The items are whatever 64 bits the buffer
   starts with, so the depth they ask for is the one of Sizes.lean. -/
namespace Mpc
open LE Loop Double

/-- A read of the buffer. -/
def inBuffer {α : Type} : Option α → Except Err α
  | some a => .ok a
  | none => .error .undefined

theorem inBuffer_some {α β : Type} (a : α) (f : α → Except Err β) : (inBuffer (some a) >>= f) = f a := rfl

theorem inBuffer_bind_ok {α β : Type} {x : Option α} {f : α → Except Err β} {b : β}
    (h : (inBuffer x >>= f) = .ok b) : ∃ a, x = some a ∧ f a = .ok b := by
  cases x with
  | none => cases h
  | some a => exact ⟨a, rfl, h⟩

/-- `std::vector<node_t> cw(n)`. Which sizes below the largest can be had is up to the
    environment, `room`. -/
def allocBlocks (room : Nat → Bool) (n : Nat) : Except Err Unit :=
  if 2^59 - 1 < n then .error (.runtimeError "cannot create std::vector larger than max_size()")
  else if room n then .ok ()
  else .error (.runtimeError "std::bad_alloc")

/-- `deserialize_dpf_key` behind the allocation. -/
def decodeBlocks (τ : LeafT) (nitems : BitVec 64) (root : Block) (cwSize : Nat) (ptr : List Byte) :
    Except Err (DpfKey τ × List Byte) := do
  let (cw, ptr) ← inBuffer (deserializeBlocks cwSize ptr)
  let (finalizer, ptr) ← inBuffer (deserializeBlocks τ.nodesPerLeaf ptr)
  let (prgkey, ptr) ← inBuffer (deserializeBytes (192 * 8) ptr)
  return (⟨nitems.toNat, root, cw.toList, finalizer, prgkey⟩, ptr)

/-- `deserialize_dpf_key` on the buffer `data`: the key and what the cursor leaves of it. -/
def decodeDpfKey (room : Nat → Bool) (τ : LeafT) (data : List Byte) :
    Except Err (DpfKey τ × List Byte) := do
  let (nitems, ptr) ← inBuffer (deserializeBytes 64 data)
  let (root, ptr) ← inBuffer (deserializeBytes 128 ptr)
  let (cwSize, ptr) ← inBuffer (deserializeBytes 64 ptr)
  allocBlocks room cwSize.toNat
  decodeBlocks τ nitems root cwSize.toNat ptr

section
variable {w n : Nat} {ptr : List Byte}

/-! Cursors on arbitrary bytes. -/

theorem deserializeBytes_ok (h : sizeBytes w ≤ ptr.length) :
    deserializeBytes w ptr = some (dec w (ptr.take (sizeBytes w)), ptr.drop (sizeBytes w)) := if_pos h

theorem deserializeBytes_short (h : ptr.length < sizeBytes w) : deserializeBytes w ptr = none :=
  if_neg (Nat.not_le_of_lt h)

theorem deserializeBytes_sound (hw : w = 8 * sizeBytes w) {x : BitVec w} {rest : List Byte}
    (h : deserializeBytes w ptr = some (x, rest)) : enc x ++ rest = ptr := by
  rw [deserializeBytes] at h
  split at h
  · next hle =>
    obtain ⟨hx, hrest⟩ := Prod.mk.inj (Option.some.inj h)
    rw [← hx, ← hrest, enc_dec hw (List.length_take_of_le hle), List.take_append_drop]
  · cases h

theorem deserializeBlocks_ok (h : 16 * n ≤ ptr.length) :
    ∃ blocks, deserializeBlocks n ptr = some (blocks, ptr.drop (16 * n)) := by
  induction n with
  | zero => exact ⟨#v[], by rw [Nat.mul_zero, List.drop_zero]; rfl⟩
  | succ n ih =>
    obtain ⟨blocks, hblocks⟩ := ih (by omega)
    have hlen : sizeBytes 128 ≤ (ptr.drop (16 * n)).length := by
      rw [List.length_drop]
      show 16 ≤ _
      omega
    refine ⟨blocks.push (dec 128 ((ptr.drop (16 * n)).take (sizeBytes 128))), ?_⟩
    simp only [deserializeBlocks, hblocks, Option.bind_eq_bind, Option.bind_some,
      deserializeBytes_ok hlen, List.drop_drop]
    rfl

theorem deserializeBlocks_short (h : ptr.length < 16 * n) : deserializeBlocks n ptr = none := by
  induction n with
  | zero => exact absurd h (Nat.not_lt_zero _)
  | succ n ih =>
    rcases Nat.lt_or_ge ptr.length (16 * n) with hlt | hge
    · rw [deserializeBlocks, ih hlt]
      rfl
    · obtain ⟨blocks, hblocks⟩ := deserializeBlocks_ok hge
      have hlen : (ptr.drop (16 * n)).length < sizeBytes 128 := by
        rw [List.length_drop]
        show _ < 16
        omega
      simp only [deserializeBlocks, hblocks, Option.bind_eq_bind, Option.bind_some,
        deserializeBytes_short hlen, Option.bind_none]

theorem deserializeBlocks_sound {blocks : Vector Block n} {rest : List Byte}
    (h : deserializeBlocks n ptr = some (blocks, rest)) : blocks.toList.flatMap enc ++ rest = ptr := by
  induction n generalizing rest with
  | zero =>
    obtain ⟨hb, hrest⟩ := Prod.mk.inj (Option.some.inj h)
    rw [← hb, ← hrest]
    rfl
  | succ n ih =>
    rw [deserializeBlocks] at h
    cases hinit : deserializeBlocks n ptr with
    | none =>
      rw [hinit] at h
      cases h
    | some r =>
      obtain ⟨init, rest'⟩ := r
      simp only [hinit, Option.bind_eq_bind, Option.bind_some] at h
      cases hlast : deserializeBytes 128 rest' with
      | none =>
        rw [hlast] at h
        cases h
      | some r =>
        obtain ⟨last, rest''⟩ := r
        rw [hlast] at h
        obtain ⟨hb, hrest⟩ := Prod.mk.inj (Option.some.inj h)
        rw [← hb, ← hrest, Vector.toList_push, List.flatMap_append, List.append_assoc, ← ih hinit,
          ← deserializeBytes_sound rfl hlast]
        simp

end

section
variable {τ : LeafT} {nitems : BitVec 64} {root : Block} {n : Nat} {ptr : List Byte}

theorem decodeBlocks_ok (h : 16 * n + 16 * τ.nodesPerLeaf + 192 ≤ ptr.length) :
    ∃ key rest, decodeBlocks τ nitems root n ptr = .ok (key, rest) ∧ key.nitems = nitems.toNat ∧
      key.cw.length = n := by
  obtain ⟨cw, hcw⟩ := deserializeBlocks_ok (show 16 * n ≤ ptr.length by omega)
  obtain ⟨finalizer, hfin⟩ := deserializeBlocks_ok
    (show 16 * τ.nodesPerLeaf ≤ (ptr.drop (16 * n)).length by rw [List.length_drop]; omega)
  have hprg : sizeBytes (192 * 8) ≤ ((ptr.drop (16 * n)).drop (16 * τ.nodesPerLeaf)).length := by
    rw [List.length_drop, List.length_drop]
    show 192 ≤ _
    omega
  refine ⟨⟨nitems.toNat, root, cw.toList, finalizer, dec (192 * 8)
    (((ptr.drop (16 * n)).drop (16 * τ.nodesPerLeaf)).take (sizeBytes (192 * 8)))⟩,
    ((ptr.drop (16 * n)).drop (16 * τ.nodesPerLeaf)).drop (sizeBytes (192 * 8)), ?_, rfl,
    Vector.length_toList⟩
  simp only [decodeBlocks, hcw, hfin, deserializeBytes_ok hprg, inBuffer_some]
  rfl

theorem decodeBlocks_short (h : ptr.length < 16 * n + 16 * τ.nodesPerLeaf + 192) :
    decodeBlocks τ nitems root n ptr = .error .undefined := by
  rcases Nat.lt_or_ge ptr.length (16 * n) with hlt | hcw
  · simp only [decodeBlocks, deserializeBlocks_short hlt]
    rfl
  obtain ⟨cw, hcw⟩ := deserializeBlocks_ok hcw
  rcases Nat.lt_or_ge (ptr.drop (16 * n)).length (16 * τ.nodesPerLeaf) with hlt | hfin
  · simp only [decodeBlocks, hcw, deserializeBlocks_short hlt, inBuffer_some]
    rfl
  obtain ⟨finalizer, hfin⟩ := deserializeBlocks_ok hfin
  have hprg : ((ptr.drop (16 * n)).drop (16 * τ.nodesPerLeaf)).length < sizeBytes (192 * 8) := by
    rw [List.length_drop, List.length_drop]
    show _ < 192
    omega
  simp only [decodeBlocks, hcw, hfin, deserializeBytes_short hprg, inBuffer_some]
  rfl

/-- What the blocks decode to is what the cursor ran over. -/
theorem decodeBlocks_sound {key : DpfKey τ} {rest : List Byte}
    (h : decodeBlocks τ nitems root n ptr = .ok (key, rest)) :
    serializeDpfKey key ++ rest = enc nitems ++ (enc root ++ (enc (BitVec.ofNat 64 n) ++ ptr)) := by
  obtain ⟨⟨cw, ptr₁⟩, hcw, h⟩ := inBuffer_bind_ok h
  obtain ⟨⟨finalizer, ptr₂⟩, hfin, h⟩ := inBuffer_bind_ok h
  obtain ⟨⟨prgkey, ptr₃⟩, hprg, h⟩ := inBuffer_bind_ok h
  obtain ⟨hkey, hrest⟩ := Prod.mk.inj (Except.ok.inj h)
  rw [← hkey, ← hrest, ← deserializeBlocks_sound hcw, ← deserializeBlocks_sound hfin,
    ← deserializeBytes_sound rfl hprg]
  simp only [serializeDpfKey, BitVec.ofNat_toNat, BitVec.setWidth_eq, Vector.length_toList,
    List.append_assoc]

end

section
variable {room : Nat → Bool} {τ : LeafT} {data : List Byte}

/-- A buffer that this decoder takes is decoded alike where the allocation is left out. -/
theorem deserialize_of_decode {r : DpfKey τ × List Byte} (h : decodeDpfKey room τ data = .ok r) :
    deserializeDpfKey τ data = some r := by
  obtain ⟨⟨nitems, ptr₁⟩, hnitems, h⟩ := inBuffer_bind_ok h
  obtain ⟨⟨root, ptr₂⟩, hroot, h⟩ := inBuffer_bind_ok h
  obtain ⟨⟨cwSize, ptr₃⟩, hsize, h⟩ := inBuffer_bind_ok h
  have hblocks : decodeBlocks τ nitems root cwSize.toNat ptr₃ = .ok r := by
    change (allocBlocks room cwSize.toNat >>= fun _ => _) = _ at h
    cases halloc : allocBlocks room cwSize.toNat with
    | error e =>
      rw [halloc] at h
      cases h
    | ok u =>
      rw [halloc] at h
      exact h
  obtain ⟨⟨cw, ptr₄⟩, hcw, h⟩ := inBuffer_bind_ok hblocks
  obtain ⟨⟨finalizer, ptr₅⟩, hfin, h⟩ := inBuffer_bind_ok h
  obtain ⟨⟨prgkey, ptr₆⟩, hprg, h⟩ := inBuffer_bind_ok h
  simp only [deserializeDpfKey, hnitems, hroot, hsize, hcw, hfin, hprg, Option.bind_eq_bind,
    Option.bind_some]
  exact congrArg some (Except.ok.inj h)

end

/-! The counts of a buffer. -/

/-- The number of items a buffer claims. -/
def nitemsAt (data : List Byte) : BitVec 64 := dec 64 (data.take 8)

/-- The number of correction words a buffer claims. -/
def cwSizeAt (data : List Byte) : BitVec 64 := dec 64 ((data.drop 24).take 8)

/-- The key with further correction words. -/
def DpfKey.extended {τ : LeafT} (key : DpfKey τ) (words : List Block) : DpfKey τ :=
  { key with cw := key.cw ++ words }

/-- Full-domain evaluation reads no correction word that is not there: whatever words stood behind the
    last, it would be the same. For up to `2^48` items it is defined in all buffers of the sizes it
    needs. -/
structure DpfKey.EvaluatesInRange {τ : LeafT} (lib : Log2) (key : DpfKey τ) : Prop where
  same : ∀ (aes : AesKey → Block → Block) (words : List Block) (b : Buffers),
    evalIntervalDouble lib aes (key.extended words) 0 (predSize key.nitems) b =
      evalIntervalDouble lib aes key 0 (predSize key.nitems) b
  defined : key.nitems ≤ 2^48 → ∀ (aes : AesKey → Block → Block) (b : Buffers),
    τ.nodes key.nitems * τ.nodesPerLeaf ≤ b.nodeRoom → τ.nodes key.nitems ≤ b.flagRoom →
    (evalIntervalDouble lib aes key 0 (predSize key.nitems) b).isSome

/-- What comes of a buffer is harmless: an exception, or a key that the buffer starts with,
    with as many correction words as its tree is deep. -/
def SafelyDecoded {τ : LeafT} (lib : Log2) (data : List Byte) : Except Err (DpfKey τ × List Byte) → Prop
  | .error (.runtimeError _) => True
  | .error .undefined => False
  | .ok (key, rest) => serializeDpfKey key ++ rest = data ∧
      τ.depthDouble lib key.nitems = some key.cw.length ∧ key.EvaluatesInRange lib

section
variable {lib : Log2} {aes : AesKey → Block → Block} {τ : LeafT} {key : DpfKey τ}

/-- A layer reads its own correction word only. -/
theorem evalLayerDouble_extended {depth nbits base N fromNode l : Nat} (hl : l < key.cw.length)
    (words : List Block) : evalLayerDouble aes (key.extended words) depth nbits base N fromNode l =
      evalLayerDouble aes key depth nbits base N fromNode l := by
  have hcw : (key.extended words).cw[l]? = key.cw[l]? := List.getElem?_append_left hl
  funext st
  rw [evalLayerDouble, hcw]
  rfl

theorem evalIntervalDouble_extended (h : τ.depthDouble lib key.nitems = some key.cw.length)
    (words : List Block) (from_ to_ : Nat) (b : Buffers) :
    evalIntervalDouble lib aes (key.extended words) from_ to_ b =
      evalIntervalDouble lib aes key from_ to_ b := by
  have hloop : ∀ nbits base N fromNode st,
      forUp (evalLayerDouble aes (key.extended words) key.cw.length nbits base N fromNode) key.cw.length st =
        forUp (evalLayerDouble aes key key.cw.length nbits base N fromNode) key.cw.length st :=
    fun nbits base N fromNode => forUp_congr fun l hl => evalLayerDouble_extended hl words
  have hnitems : (key.extended words).nitems = key.nitems := rfl
  simp only [evalIntervalDouble, expandLayersDouble, hnitems, h, Option.bind_eq_bind, Option.bind_some,
    hloop]
  rfl

theorem DpfKey.evaluatesInRange (h : τ.depthDouble lib key.nitems = some key.cw.length) :
    key.EvaluatesInRange lib where
  same _ words b := evalIntervalDouble_extended h words 0 _ b
  defined := by
    intro hmax aes b hnodes hflags
    obtain ⟨hn, hcw⟩ := (τ.depthDouble_iff lib hmax).mp h
    obtain ⟨b', hrun, -⟩ := evalInterval_full aes key hn hcw.ge hnodes hflags
    have hpred : predSize key.nitems = key.nitems - 1 := if_neg hn.ne'
    rw [hpred, evalIntervalDouble_full lib (.inl ⟨hn, hmax⟩), hrun]
    rfl

end

section
variable (lib : Log2) (room : Nat → Bool) (τ : LeafT) {data : List Byte}

theorem decodeDpfKey_short (h : data.length < 32) :
    decodeDpfKey room τ data = .error .undefined := by
  rcases Nat.lt_or_ge data.length (sizeBytes 64) with hlt | hnitems
  · simp only [decodeDpfKey, deserializeBytes_short hlt]
    rfl
  rcases Nat.lt_or_ge (data.drop (sizeBytes 64)).length (sizeBytes 128) with hlt | hroot
  · simp only [decodeDpfKey, deserializeBytes_ok hnitems, deserializeBytes_short hlt, inBuffer_some]
    rfl
  have hsize : ((data.drop (sizeBytes 64)).drop (sizeBytes 128)).length < sizeBytes 64 := by
    rw [List.length_drop, List.length_drop]
    show _ - 8 - 16 < 8
    omega
  simp only [decodeDpfKey, deserializeBytes_ok hnitems, deserializeBytes_ok hroot,
    deserializeBytes_short hsize, inBuffer_some]
  rfl

theorem decodeDpfKey_counts (h : 32 ≤ data.length) :
    decodeDpfKey room τ data = (allocBlocks room (cwSizeAt data).toNat >>= fun _ =>
      decodeBlocks τ (nitemsAt data) (dec 128 ((data.drop 8).take 16)) (cwSizeAt data).toNat
        (data.drop 32)) := by
  have hnitems : sizeBytes 64 ≤ data.length := by
    show 8 ≤ _
    omega
  have hroot : sizeBytes 128 ≤ (data.drop (sizeBytes 64)).length := by
    rw [List.length_drop]
    show 16 ≤ _ - 8
    omega
  have hsize : sizeBytes 64 ≤ ((data.drop (sizeBytes 64)).drop (sizeBytes 128)).length := by
    rw [List.length_drop, List.length_drop]
    show 8 ≤ _ - 8 - 16
    omega
  simp only [decodeDpfKey, deserializeBytes_ok hnitems, deserializeBytes_ok hroot,
    deserializeBytes_ok hsize, inBuffer_some]
  rw [List.drop_drop, List.drop_drop]
  rfl

/-- The head of a buffer is its number of items, its root and its number of correction words. -/
theorem enc_counts (h : 32 ≤ data.length) :
    enc (nitemsAt data) ++ (enc (dec 128 ((data.drop 8).take 16)) ++ (enc (cwSizeAt data) ++
      data.drop 32)) = data := by
  have hnitems : enc (nitemsAt data) = data.take 8 := enc_dec rfl (List.length_take_of_le (by omega))
  have hroot : enc (dec 128 ((data.drop 8).take 16)) = (data.drop 8).take 16 :=
    enc_dec rfl (List.length_take_of_le (by rw [List.length_drop]; show 16 ≤ _; omega))
  have hsize : enc (cwSizeAt data) = (data.drop 24).take 8 :=
    enc_dec rfl (List.length_take_of_le (by rw [List.length_drop]; show 8 ≤ _; omega))
  calc enc (nitemsAt data) ++ (enc (dec 128 ((data.drop 8).take 16)) ++ (enc (cwSizeAt data) ++
        data.drop 32))
    _ = data.take 8 ++ ((data.drop 8).take 16 ++ ((data.drop 24).take 8 ++ (data.drop 24).drop 8)) := by
      rw [hnitems, hroot, hsize, List.drop_drop]
    _ = data.take 8 ++ ((data.drop 8).take 16 ++ (data.drop 8).drop 16) := by
      rw [List.take_append_drop, List.drop_drop]
    _ = data := by rw [List.take_append_drop, List.take_append_drop]

theorem allocBlocks_cases (n : Nat) :
    (n < 2^59 ∧ room n = true ∧ allocBlocks room n = .ok ()) ∨
    ((2^59 ≤ n ∨ room n = false) ∧ ∃ what, allocBlocks room n = .error (.runtimeError what)) := by
  rw [allocBlocks]
  by_cases hmax : 2^59 - 1 < n
  · rw [if_pos hmax]
    exact .inr ⟨.inl (by omega), _, rfl⟩
  rw [if_neg hmax]
  cases hroom : room n with
  | true => exact .inl ⟨by omega, rfl, rfl⟩
  | false => exact .inr ⟨.inr rfl, _, rfl⟩

/-- The blocks are decoded safely exactly when the rest of the key is there and the correction
    words are as many as the items ask for. -/
theorem decodeBlocks_safe_iff (hhead : 32 ≤ data.length) :
    SafelyDecoded lib data (decodeBlocks τ (nitemsAt data) (dec 128 ((data.drop 8).take 16))
      (cwSizeAt data).toNat (data.drop 32)) ↔
    224 + 16 * (cwSizeAt data).toNat + 16 * τ.nodesPerLeaf ≤ data.length ∧
      τ.depthDouble lib (nitemsAt data).toNat = some (cwSizeAt data).toNat := by
  have hdrop : (data.drop 32).length = data.length - 32 := List.length_drop
  rcases Nat.lt_or_ge (data.drop 32).length (16 * (cwSizeAt data).toNat + 16 * τ.nodesPerLeaf + 192)
    with hlt | hle
  · rw [decodeBlocks_short hlt]
    constructor
    · intro h
      exact h.elim
    · intro h
      omega
  obtain ⟨key, rest, hdec, hnitems, hcw⟩ := decodeBlocks_ok hle
  have hsound := decodeBlocks_sound hdec
  rw [BitVec.ofNat_toNat, BitVec.setWidth_eq, enc_counts hhead] at hsound
  rw [hdec, ← hnitems, ← hcw]
  constructor
  · intro h
    obtain ⟨-, hdepth, -⟩ := h
    exact ⟨by omega, hdepth⟩
  · intro h
    exact ⟨hsound, h.2, DpfKey.evaluatesInRange h.2⟩

/-- The decoder refuses nothing but an allocation: a buffer is decoded safely exactly when
    its head is there, and either no vector of the size it claims can be had, or the rest of
    the key is there too and the number of correction words is the one its items ask for. -/
theorem decode_safe_iff :
    SafelyDecoded lib data (decodeDpfKey room τ data) ↔ 32 ≤ data.length ∧
    (2^59 ≤ (cwSizeAt data).toNat ∨ room (cwSizeAt data).toNat = false ∨
      (224 + 16 * (cwSizeAt data).toNat + 16 * τ.nodesPerLeaf ≤ data.length ∧
        τ.depthDouble lib (nitemsAt data).toNat = some (cwSizeAt data).toNat)) := by
  rcases Nat.lt_or_ge data.length 32 with hshort | hhead
  · rw [decodeDpfKey_short room τ hshort]
    constructor
    · intro h
      exact h.elim
    · intro h
      omega
  rw [decodeDpfKey_counts room τ hhead, and_iff_right hhead]
  obtain ⟨hmax, hroom, halloc⟩ | ⟨hfull, what, halloc⟩ := allocBlocks_cases room (cwSizeAt data).toNat
  · rw [halloc, hroom]
    have hblocks := decodeBlocks_safe_iff lib τ hhead
    constructor
    · intro h
      exact .inr (.inr (hblocks.mp h))
    · intro h
      obtain h | h | h := h
      · omega
      · cases h
      · exact hblocks.mpr h
  · rw [halloc]
    constructor
    · intro _
      exact hfull.imp_right .inl
    · intro _
      trivial

variable {τ} in
/-- A key sent by a peer that holds one comes back whole. -/
theorem decode_serialize {key : DpfKey τ} (hn : key.nitems < 2^64) (hmax : key.cw.length < 2^59)
    (hroom : room key.cw.length = true) (rest : List Byte) :
    decodeDpfKey room τ (serializeDpfKey key ++ rest) = .ok (key, rest) := by
  have hn' : (BitVec.ofNat 64 key.nitems).toNat = key.nitems := Nat.mod_eq_of_lt hn
  have hcw' : (BitVec.ofNat 64 key.cw.length).toNat = key.cw.length := Nat.mod_eq_of_lt (by omega)
  have halloc : allocBlocks room (BitVec.ofNat 64 key.cw.length).toNat = .ok () := by
    obtain ⟨-, -, h⟩ | ⟨h | h, -⟩ := allocBlocks_cases room (BitVec.ofNat 64 key.cw.length).toNat
    · exact h
    · omega
    · rw [hcw', hroom] at h
      cases h
  have hblocks : ∀ ptr, deserializeBlocks (BitVec.ofNat 64 key.cw.length).toNat
      (key.cw.flatMap enc ++ ptr) = some (⟨key.cw.toArray, hcw'.symm⟩, ptr) :=
    deserializeBlocks_enc ⟨key.cw.toArray, hcw'.symm⟩
  simp only [serializeDpfKey, List.append_assoc, decodeDpfKey, deserializeBytes_enc, inBuffer_some,
    halloc]
  show decodeBlocks τ _ _ _ _ = _
  simp only [decodeBlocks, hblocks, deserializeBlocks_enc, deserializeBytes_enc, inBuffer_some, hn']
  rfl

/-- An empty buffer is read behind its end, and eight items without a correction word are
    taken for a key. -/
theorem decode_of_eight_items :
    ¬ SafelyDecoded Log2.down [] (decodeDpfKey (fun _ => true) .uint64 []) ∧
    ¬ SafelyDecoded Log2.down (serializeDpfKey (⟨8, 0, [], #v[0], 0⟩ : DpfKey .uint64))
      (decodeDpfKey (fun _ => true) .uint64 (serializeDpfKey (⟨8, 0, [], #v[0], 0⟩ : DpfKey .uint64))) := by
  constructor
  · rw [decodeDpfKey_short _ _ (by decide)]
    exact id
  · have hkey : decodeDpfKey (fun _ => true) .uint64
        (serializeDpfKey (⟨8, 0, [], #v[0], 0⟩ : DpfKey .uint64) ++ []) = .ok (⟨8, 0, [], #v[0], 0⟩, []) :=
      decode_serialize (fun _ => true) (by decide) (by decide) rfl []
    rw [List.append_nil] at hkey
    rw [hkey]
    intro ⟨_, hdepth, _⟩
    obtain ⟨-, hcount⟩ := (LeafT.uint64.depthDouble_iff Log2.down (by decide)).mp hdepth
    exact absurd hcount (by decide)

end
end Mpc
