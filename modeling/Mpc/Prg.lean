import Mpc.Dotproduct
import Mpc.Mod128
import Mpc.Lib.Loop

/- Seed expansion in place (prg.hpp, dpf/prg.h). `fillVector` follows the source on the
   buffers it writes: the generator makes three passes over the first `len` blocks of a
   zeroed buffer, and the words of the buffer go to the vector while it has room. Sizes
   are size_t and the generator takes its block count as a uint32_t, so it reaches the
   first `blocks mod 2^32` blocks only. `seedExpands_iff`: every word is the one the seed
   determines, shorter vectors are prefixes and the masks cover what is sent, for every
   seed and block function, exactly for vectors of less than 2^33 - 1 elements. -/
namespace Mpc
open LE Loop

/-- The counter block of block `i`. -/
def counterBlock (frm i : Nat) : Block := mmSetEpi64x 0 (BitVec.ofNat 64 (frm + i))

/-- `dpf::PRG` into `outbuf`. -/
def prgInto (aes : Block → Block) (seed : Block) (outbuf : List Block) (len frm : Nat) : List Block :=
  let outbuf := forModify (fun i _ => seed ^^^ counterBlock frm i) len outbuf
  -- AES_ecb_encrypt_blks
  let outbuf := forModify (fun _ blk => aes blk) len outbuf
  forModify (fun i blk => blk ^^^ counterBlock frm i ^^^ seed) len outbuf

section
variable {w : Nat}

/-- One pass of the loop over the blocks, on the vector and `idx`. -/
def emitBlock (s : List (BitVec w) × Nat) (b : Block) : List (BitVec w) × Nat :=
  if s.2 < s.1.length then
    let lo := mmCvtsi128Si64 b
    let hi := mmExtractEpi64 b
    let vec := s.1.set s.2 (lo.setWidth w)
    if s.2 + 1 < vec.length then (vec.set (s.2 + 1) (hi.setWidth w), s.2 + 2) else (vec, s.2 + 1)
  else s

/-- The block count `(vec.size() + 1) / 2`. -/
def blockCount (size : Nat) : Nat := (size + 1) % 2^64 / 2

/-- `crypto::fill_vector_with_prg`. -/
def fillVector (aes : Block → Block) (vec : List (BitVec w)) (seed : Block) : List (BitVec w) :=
  let blocks := blockCount vec.length
  let buf := prgInto aes seed (List.replicate blocks 0) (blocks % 2^32) 0
  (buf.foldl emitBlock (vec, 0)).1

/-- Word `i` of a block stream, from its block: the low half for even `i`. -/
def blockWord (w : Nat) (b : Block) (i : Nat) : BitVec w :=
  if i % 2 = 0 then (mmCvtsi128Si64 b).setWidth w else (mmExtractEpi64 b).setWidth w

/-- Word `i` of the expansion of `seed`. -/
def prgWord (aes : Block → Block) (w : Nat) (seed : Block) (i : Nat) : BitVec w :=
  blockWord w (prgBlock aes seed (i / 2)) i

/-! What the loops leave. -/

theorem counterBlock_eq {i : Nat} (h : i < 2^64) : counterBlock 0 i = BitVec.ofNat 128 i := by
  apply BitVec.eq_of_toNat_eq
  have hval : (counterBlock 0 i).toNat = halvesValue (counterBlock 0 i) := (halvesValue_eq _).symm
  rw [hval, counterBlock, halvesValue_set, Nat.zero_add, BitVec.toNat_ofNat, BitVec.toNat_ofNat,
    Nat.mod_eq_of_lt h, Nat.mod_eq_of_lt (by omega)]
  simp

theorem prgInto_zeros (aes : Block → Block) (seed : Block) {blocks len : Nat} (hlen : len ≤ 2^64) :
    prgInto aes seed (List.replicate blocks 0) len 0 =
      (List.range blocks).map fun c => if c < len then prgBlock aes seed c else 0 := by
  apply List.ext_getElem?
  intro i
  rw [prgInto, forModify_getElem?, forModify_getElem?, forModify_getElem?, List.getElem?_replicate,
    List.getElem?_map]
  by_cases hi : i < blocks
  · rw [List.getElem?_range hi]
    by_cases hl : i < len
    · simp only [hi, hl, if_true, Option.map_some, counterBlock_eq (Nat.lt_of_lt_of_le hl hlen)]
      rfl
    · simp only [hi, hl, if_true, if_false, Option.map_some]
  · rw [List.getElem?_eq_none (by rw [List.length_range]; omega)]
    simp only [hi, if_false, Option.map_none, ite_self]

/-- One block goes to the two places of its index, as far as the vector has them. -/
theorem emitBlock_spec (vec : List (BitVec w)) (k : Nat) (b : Block) :
    (emitBlock (vec, min (2 * k) vec.length) b).2 = min (2 * (k + 1)) vec.length ∧
    ∀ i : Nat, (emitBlock (vec, min (2 * k) vec.length) b).1[i]? =
      if i / 2 = k then vec[i]?.map fun _ => blockWord w b i else vec[i]? := by
  by_cases h : 2 * k < vec.length
  · have hmin : min (2 * k) vec.length = 2 * k := Nat.min_eq_left (by omega)
    have hlo : blockWord w b (2 * k) = (mmCvtsi128Si64 b).setWidth w := if_pos (by omega)
    have hhi : blockWord w b (2 * k + 1) = (mmExtractEpi64 b).setWidth w := if_neg (by omega)
    rw [hmin, emitBlock, if_pos h]
    by_cases h2 : 2 * k + 1 < vec.length
    · simp only [List.length_set, h2, if_true]
      refine ⟨by omega, fun i => ?_⟩
      rw [List.getElem?_set, List.getElem?_set, List.length_set]
      obtain rfl | rfl | ⟨h0, h1⟩ : i = 2 * k ∨ i = 2 * k + 1 ∨ (i ≠ 2 * k ∧ i ≠ 2 * k + 1) := by omega
      · rw [if_neg (by omega), if_pos rfl, if_pos h, if_pos (by omega), List.getElem?_eq_getElem h,
          Option.map_some, hlo]
      · rw [if_pos rfl, if_pos h2, if_pos (by omega), List.getElem?_eq_getElem h2,
          Option.map_some, hhi]
      · rw [if_neg (Ne.symm h1), if_neg (Ne.symm h0), if_neg (by omega)]
    · simp only [List.length_set, h2, if_false]
      refine ⟨by omega, fun i => ?_⟩
      rw [List.getElem?_set]
      obtain rfl | rfl | ⟨h0, h1⟩ : i = 2 * k ∨ i = 2 * k + 1 ∨ (i ≠ 2 * k ∧ i ≠ 2 * k + 1) := by omega
      · rw [if_pos rfl, if_pos h, if_pos (by omega), List.getElem?_eq_getElem h, Option.map_some, hlo]
      · rw [if_neg (by omega), List.getElem?_eq_none (by omega), Option.map_none, ite_self]
      · rw [if_neg (Ne.symm h0), if_neg (by omega)]
  · have hmin : min (2 * k) vec.length = vec.length := Nat.min_eq_right (by omega)
    rw [hmin, emitBlock, if_neg (Nat.lt_irrefl _)]
    refine ⟨by omega, fun i => ?_⟩
    by_cases hi : i / 2 = k
    · have hnone : vec[i]? = none := List.getElem?_eq_none (by omega)
      rw [hnone, Option.map_none, ite_self]
    · rw [if_neg hi]

/-- The words of the blocks, as far as they reach, and the old words behind them. -/
theorem foldl_emitBlock (buf : List Block) (vec : List (BitVec w)) :
    buf.foldl emitBlock (vec, 0) =
      (vec.mapIdx fun i v => (buf[i / 2]?).elim v fun b => blockWord w b i,
        min (2 * buf.length) vec.length) := by
  induction buf using List.reverseRecOn with
  | nil =>
    have hid : (vec.mapIdx fun _ v => v) = vec := by
      apply List.ext_getElem?
      intro i
      rw [List.getElem?_mapIdx, Option.map_id']
    exact Prod.ext hid.symm (Nat.zero_min _).symm
  | append_singleton buf b ih =>
    let cur := vec.mapIdx fun i v => (buf[i / 2]?).elim v fun b => blockWord w b i
    have hlen : cur.length = vec.length := List.length_mapIdx
    obtain ⟨hidx, hget⟩ := emitBlock_spec cur buf.length b
    rw [hlen] at hidx hget
    rw [List.foldl_append, ih, List.foldl_cons, List.foldl_nil]
    apply Prod.ext
    · apply List.ext_getElem?
      intro i
      rw [hget i, List.getElem?_mapIdx, List.getElem?_mapIdx]
      by_cases hi : i / 2 = buf.length
      · rw [if_pos hi, Option.map_map, hi, List.getElem?_concat_length]
        rfl
      · rw [if_neg hi, List.getElem?_append]
        by_cases hb : i / 2 < buf.length
        · rw [if_pos hb]
        · have hold : buf[i / 2]? = none := List.getElem?_eq_none (by omega)
          have hnew : [b][i / 2 - buf.length]? = none :=
            List.getElem?_eq_none (by rw [List.length_singleton]; omega)
          rw [if_neg hb, hold, hnew]
    · rw [hidx, List.length_append, List.length_singleton]

theorem blockWord_zero (i : Nat) : blockWord w 0 i = 0 := by
  simp [blockWord, mmCvtsi128Si64, mmExtractEpi64]

/-- What the function leaves in a vector, word by word. -/
theorem fillVector_eq (aes : Block → Block) (vec : List (BitVec w)) (seed : Block) :
    fillVector aes vec seed = vec.mapIdx fun i v =>
      if i / 2 < blockCount vec.length then
        if i / 2 < blockCount vec.length % 2^32 then prgWord aes w seed i else 0
      else v := by
  have hreach : blockCount vec.length % 2^32 ≤ 2^64 :=
    Nat.le_trans (Nat.mod_lt _ (by decide)).le (by decide)
  rw [fillVector, foldl_emitBlock, prgInto_zeros aes seed hreach]
  apply List.ext_getElem?
  intro i
  rw [List.getElem?_mapIdx, List.getElem?_mapIdx]
  congr 1
  funext v
  rw [List.getElem?_map]
  by_cases hb : i / 2 < blockCount vec.length
  · rw [List.getElem?_range hb, if_pos hb]
    by_cases hl : i / 2 < blockCount vec.length % 2^32
    · rw [if_pos hl, Option.map_some, if_pos hl]
      rfl
    · rw [if_neg hl, Option.map_some, if_neg hl]
      exact blockWord_zero i
  · rw [List.getElem?_eq_none (by rw [List.length_range]; omega), if_neg hb]
    rfl

theorem fillVector_length (aes : Block → Block) (vec : List (BitVec w)) (seed : Block) :
    (fillVector aes vec seed).length = vec.length := by
  rw [fillVector_eq, List.length_mapIdx]

/-- The vector is filled exactly when the words the generator does not reach are those left there. -/
theorem fillVector_fills (aes : Block → Block) (seed : Block) {n : Nat} {vec : List (BitVec w)}
    (hlen : vec.length = n) :
    (∀ i < n, (fillVector aes vec seed)[i]? = some (prgWord aes w seed i)) ↔
      ∀ i < n, blockCount n % 2^32 ≤ i / 2 →
        prgWord aes w seed i = if i / 2 < blockCount n then 0 else vec.getD i 0 := by
  have hle : blockCount n % 2^32 ≤ blockCount n := Nat.mod_le _ _
  have hword : ∀ i < n, ((fillVector aes vec seed)[i]? = some (prgWord aes w seed i) ↔
      (blockCount n % 2^32 ≤ i / 2 →
        prgWord aes w seed i = if i / 2 < blockCount n then 0 else vec.getD i 0)) := by
    intro i hi
    have hget : vec[i]? = some (vec.getD i 0) := by
      rw [List.getD_eq_getElem?_getD, List.getElem?_eq_getElem (hlen ▸ hi), Option.getD_some]
    rw [fillVector_eq, List.getElem?_mapIdx, hget, Option.map_some, Option.some_inj, hlen]
    by_cases hl : i / 2 < blockCount n % 2^32
    · rw [if_pos (Nat.lt_of_lt_of_le hl hle), if_pos hl]
      exact iff_of_true rfl fun h => absurd hl (Nat.not_lt.mpr h)
    · rw [if_neg hl]
      constructor
      · intro h _
        exact h.symm
      · intro h
        exact (h (Nat.not_lt.mp hl)).symm
  constructor
  · intro h i hi
    exact (hword i hi).mp (h i hi)
  · intro h i hi
    exact (hword i hi).mpr (h i hi)

/-- Below 2^33 - 1 words the block count is no more than a uint32_t holds. -/
theorem fillVector_short (aes : Block → Block) {vec : List (BitVec w)} (h : vec.length < 2^33 - 1)
    (seed : Block) : fillVector aes vec seed = vec.mapIdx fun i _ => prgWord aes w seed i := by
  apply List.ext_getElem?
  intro i
  by_cases hi : i < vec.length
  · have hfill := (fillVector_fills aes seed (rfl : vec.length = vec.length)).mpr fun j hj hle => by
      rw [blockCount] at hle
      omega
    rw [hfill i hi, List.getElem?_mapIdx, List.getElem?_eq_getElem hi]
    rfl
  · rw [List.getElem?_eq_none (by rw [fillVector_length]; omega),
      List.getElem?_eq_none (by rw [List.length_mapIdx]; omega)]

/-- The shorter of two vectors below 2^33 - 1 words is filled as the longer one begins. -/
theorem fillVector_prefix (aes : Block → Block) {vec vec' : List (BitVec w)}
    (hle : vec.length ≤ vec'.length) (h : vec'.length < 2^33 - 1) (seed : Block) :
    fillVector aes vec seed <+: fillVector aes vec' seed := by
  rw [List.prefix_iff_getElem?]
  intro i hi
  rw [fillVector_length] at hi
  rw [fillVector_short aes h]
  simp only [fillVector_short aes (Nat.lt_of_le_of_lt hle h)]
  rw [List.getElem?_mapIdx, List.getElem?_eq_getElem (Nat.lt_of_lt_of_le hi hle),
    List.getElem_mapIdx]
  rfl

/-! The expansion of the parties' vectors. -/

theorem emitWords_getElem? (buf : List Block) (n i : Nat) :
    (emitWords w buf n)[i]? = if i < n then some (blockWord w (buf.getD (i / 2) 0) i) else none := by
  fun_induction emitWords w buf n generalizing i with
  | case1 => rfl
  | case2 n ih =>
    cases i with
    | zero =>
      rw [if_pos (Nat.succ_pos n), List.getD_nil, blockWord_zero]
      rfl
    | succ i =>
      rw [List.getElem?_cons_succ, ih i, List.getD_nil, List.getD_nil, blockWord_zero, blockWord_zero]
      simp
  | case3 b buf =>
    cases i with
    | zero => rfl
    | succ i => simp
  | case4 b buf n ih =>
    cases i with
    | zero => rfl
    | succ i =>
      cases i with
      | zero => simp [blockWord, mmExtractEpi64]
      | succ i =>
        have hdiv : (i + 1 + 1) / 2 = i / 2 + 1 := by omega
        have hmod : (i + 1 + 1) % 2 = i % 2 := by omega
        rw [List.getElem?_cons_succ, List.getElem?_cons_succ, ih i, hdiv, List.getD_cons_succ,
          blockWord, blockWord, hmod]
        simp

/-- On a fresh vector the function is the expansion the parties of a dot product use. -/
theorem fillVector_zeros (aes : Block → Block) (seed : Block) {n : Nat} (hn : n + 1 < 2^64) :
    fillVector aes (List.replicate n (0 : BitVec w)) seed = fillVectorWithPrg aes w n seed := by
  have hlen : (List.replicate n (0 : BitVec w)).length = n := List.length_replicate
  have hblocks : blockCount n = (n + 1) / 2 := by
    rw [blockCount, Nat.mod_eq_of_lt hn]
  apply List.ext_getElem?
  intro i
  rw [fillVector_eq, hlen, hblocks, List.getElem?_mapIdx, List.getElem?_replicate, fillVectorWithPrg,
    emitWords_getElem?]
  by_cases hi : i < n
  · have hb : i / 2 < (n + 1) / 2 := by omega
    rw [if_pos hi, if_pos hi, Option.map_some, if_pos hb]
    congr 1
    have hreach : (prg aes seed ((n + 1) / 2 % 2^32) 0).length = (n + 1) / 2 % 2^32 := by
      rw [prg, List.length_map, List.length_range]
    by_cases hl : i / 2 < (n + 1) / 2 % 2^32
    · have hget : (prg aes seed ((n + 1) / 2 % 2^32) 0)[i / 2]? = some (prgBlock aes seed (i / 2)) := by
        rw [prg, List.getElem?_map, List.getElem?_range hl, Option.map_some, Nat.zero_add]
      rw [if_pos hl, List.getD_eq_getElem?_getD, List.getElem?_append_left (hreach.symm ▸ hl), hget]
      rfl
    · have hp : (prg aes seed ((n + 1) / 2 % 2^32) 0).length ≤ i / 2 :=
        hreach.le.trans (Nat.not_lt.mp hl)
      have hrest : i / 2 - (prg aes seed ((n + 1) / 2 % 2^32) 0).length <
          (n + 1) / 2 - (prg aes seed ((n + 1) / 2 % 2^32) 0).length := by omega
      rw [if_neg hl, List.getD_eq_getElem?_getD, List.getElem?_append_right hp,
        List.getElem?_replicate, if_pos hrest, Option.getD_some, blockWord_zero]
  · rw [if_neg hi, if_neg hi]
    rfl

/-- The masks P0, P1 and P2 expand in a dot product are the stream of the seed. -/
theorem prgExpander_fill (aes : Block → Block) {n : Nat} (h : n < 2^33 - 1) (seed : List Byte) :
    (prgExpander aes).fill n seed = (List.range n).map (prgWord aes 64 (dec 128 seed)) := by
  have hlen : (List.replicate n (0 : BitVec 64)).length = n := List.length_replicate
  calc (prgExpander aes).fill n seed
      = fillVector aes (List.replicate n 0) (dec 128 seed) := (fillVector_zeros aes _ (by omega)).symm
    _ = (List.replicate n (0 : BitVec 64)).mapIdx fun i _ => prgWord aes 64 (dec 128 seed) i :=
        fillVector_short aes (by rw [hlen]; exact h) _
    _ = (List.range n).map (prgWord aes 64 (dec 128 seed)) := by
        apply List.ext_getElem?
        intro i
        rw [List.getElem?_mapIdx, List.getElem?_replicate, List.getElem?_map]
        by_cases hi : i < n
        · rw [if_pos hi, List.getElem?_range hi, Option.map_some, Option.map_some]
        · rw [if_neg hi, List.getElem?_eq_none (by rw [List.length_range]; omega), Option.map_none,
            Option.map_none]

end

/-! Lengths for which the expansion is right. -/

/-- The expansion of `seed` to `n` words: element `i` is word `i` of the stream whatever the
    vector held, every vector of at most `n` words is expanded to a prefix of it, and a
    vector of `n` words is sent with a word of the stream on each element. -/
structure SeedExpands (aes : Block → Block) (seed : Block) (w n : Nat) : Prop where
  fills : ∀ vec : List (BitVec w), vec.length = n →
    ∀ i < n, (fillVector aes vec seed)[i]? = some (prgWord aes w seed i)
  stable : ∀ vec vec' : List (BitVec w), vec.length ≤ n → vec'.length = n →
    fillVector aes vec seed <+: fillVector aes vec' seed
  covers : ∀ vals : List (BitVec w), vals.length = n →
    ∃ sent, vecAdd vals (fillVector aes (List.replicate n 0) seed) = .ok sent ∧
      ∀ i < n, sent[i]? = vals[i]?.map (· + prgWord aes w seed i)

theorem seedExpands_short (aes : Block → Block) (seed : Block) (w : Nat) {n : Nat}
    (h : n < 2^33 - 1) : SeedExpands aes seed w n where
  fills := by
    intro vec hlen i hi
    rw [fillVector_short aes (hlen ▸ h), List.getElem?_mapIdx, List.getElem?_eq_getElem (hlen ▸ hi)]
    rfl
  stable := by
    intro vec vec' hle hlen
    exact fillVector_prefix aes (hlen ▸ hle) (hlen ▸ h) seed
  covers := by
    intro vals hlen
    have hzeros : (List.replicate n (0 : BitVec w)).length = n := List.length_replicate
    refine ⟨_, vecAdd_ok (by rw [fillVector_length, hzeros, hlen]), fun i hi => ?_⟩
    rw [fillVector_short aes (hzeros.symm ▸ h), List.getElem?_zipWith, List.getElem?_mapIdx,
      List.getElem?_eq_getElem (hlen ▸ hi), List.getElem?_eq_getElem (hzeros.symm ▸ hi)]
    rfl

/-- Under bitwise complement as block function every block of the stream is all ones. -/
theorem prgBlock_not (seed : Block) (c : Nat) :
    prgBlock (fun b => ~~~b) seed c = BitVec.allOnes 128 := by
  rw [prgBlock]
  apply BitVec.eq_of_getLsbD_eq
  intro i hi
  simp only [BitVec.getLsbD_xor, BitVec.getLsbD_not, BitVec.getLsbD_allOnes, hi, decide_true,
    Bool.true_and]
  cases seed.getLsbD i <;> cases (BitVec.ofNat 128 c).getLsbD i <;> rfl

theorem prgWord_not_ne_zero {w : Nat} (hw : 0 < w) (seed : Block) (i : Nat) :
    prgWord (fun b => ~~~b) w seed i ≠ 0 := by
  intro h
  have hbit : (prgWord (fun b => ~~~b) w seed i).getLsbD 0 = true := by
    rw [prgWord, prgBlock_not, blockWord]
    split <;> simp [mmCvtsi128Si64, mmExtractEpi64, hw]
  rw [h] at hbit
  simp at hbit

/-- From 2^33 - 1 words on the generator misses an element, which stays zero. -/
theorem not_seedExpands {w n : Nat} (hw : 0 < w) (hn : n < 2^64) (h : 2^33 - 1 ≤ n) (seed : Block) :
    ¬ SeedExpands (fun b => ~~~b) seed w n := by
  intro hexp
  have hzeros : (List.replicate n (0 : BitVec w)).length = n := List.length_replicate
  have hfill := (fillVector_fills _ seed hzeros).mp (hexp.fills _ hzeros)
  have hmiss : 2 * (blockCount n % 2^32) < n := by
    rw [blockCount]
    omega
  have hword := hfill _ hmiss (by omega)
  have hzero : (List.replicate n (0 : BitVec w)).getD (2 * (blockCount n % 2^32)) 0 = 0 := by
    rw [List.getD_eq_getElem?_getD, List.getElem?_replicate, if_pos hmiss, Option.getD_some]
  rw [hzero, ite_self] at hword
  exact prgWord_not_ne_zero hw seed _ hword

/-- Seed expansion is right for every block function and seed exactly for vectors of less
    than 2^33 - 1 words; in a given vector exactly when the words beyond those the generator
    reaches are what it leaves there. -/
theorem seedExpands_iff {w n : Nat} (hw : 0 < w) (hn : n < 2^64) :
    ((∀ aes seed, SeedExpands aes seed w n) ↔ n < 2^33 - 1) ∧
    ∀ (aes : Block → Block) (seed : Block) (vec : List (BitVec w)), vec.length = n →
      ((∀ i < n, (fillVector aes vec seed)[i]? = some (prgWord aes w seed i)) ↔
        ∀ i < n, blockCount n % 2^32 ≤ i / 2 →
          prgWord aes w seed i = if i / 2 < blockCount n then 0 else vec.getD i 0) := by
  refine ⟨⟨fun h => ?_, fun h aes seed => seedExpands_short aes seed w h⟩, fun aes seed vec hlen => ?_⟩
  · by_contra hge
    exact not_seedExpands hw hn (Nat.not_lt.mp hge) 0 (h _ 0)
  · exact fillVector_fills aes seed hlen

theorem seedExpands_iff_five : SeedExpands (fun b => ~~~b) 0 64 5 :=
  (seedExpands_iff (by decide) (by decide)).1.mpr (by decide) _ _

theorem not_seedExpands_2_33 : ¬ SeedExpands (fun b => ~~~b) 0 64 (2^33 - 1) :=
  not_seedExpands (by decide) (by decide) (by decide) 0

end Mpc
