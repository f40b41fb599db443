import Mpc.Lib.Split
import Mpc.Privacy

/- Shares of a word among `n` parties (dpf/shares.h). `share` draws `n - 1` words and
   ends with what is missing to the secret; it is the split of the drawn words
   (`share_eq`), and the bytes that arc4random_buf returns spell these words one to one
   (`exists_tape`). So the shares reconstruct the secret, and all but one of them are
   compatible with every secret in one way (`share_private`). -/
namespace Mpc
open LE NetPeer

/-- `Share`. -/
structure Share (w : Nat) where
  value : BitVec w

section
variable {w : Nat}

/-- The loop of `share`: `n` random shares and their sum. -/
def shareLoop (w : Nat) : Nat → BitVec w → Entropy → List (Share w) × BitVec w × Entropy
  | 0, sum, e => ([], sum, e)
  | n+1, sum, e =>
    let s := e.word w
    let rest := shareLoop w n (sum + s) (e.skip w)
    (⟨s⟩ :: rest.1, rest.2)

/-- `share`. Less than two shares fail the assertion. -/
def share (secret : BitVec w) (n : Nat) (e : Entropy) : Option (List (Share w) × Entropy) :=
  if 2 ≤ n then
    let r := shareLoop w (n - 1) 0 e
    some (r.1 ++ [⟨secret - r.2.1⟩], r.2.2)
  else none

/-- `reconstruct`. -/
def reconstruct (shares : List (Share w)) : BitVec w :=
  shares.foldl (fun sum s => sum + s.value) 0

/-! Shares as a split. -/

/-- The words that are drawn. -/
def drawn (w : Nat) (e : Entropy) (i : Nat) : BitVec w := (e.after (sizeBytes w) i).word w

theorem after_skip (e : Entropy) (w i : Nat) :
    (e.skip w).after (sizeBytes w) i = e.after (sizeBytes w) (i + 1) := by
  rw [Entropy.after_eq, Entropy.after_eq, Entropy.skip, Entropy.advance, Nat.mul_succ, Nat.add_assoc,
    Nat.add_comm (sizeBytes w)]

theorem shareLoop_eq (n : Nat) (sum : BitVec w) (e : Entropy) : shareLoop w n sum e =
    (List.ofFn fun i : Fin n => ⟨drawn w e i⟩, sum + ∑ i : Fin n, drawn w e i, e.after (sizeBytes w) n) := by
  induction n generalizing sum e with
  | zero => simp [shareLoop, Entropy.after]
  | succ n ih =>
    have hnext : ∀ i, drawn w (e.skip w) i = drawn w e (i + 1) := by
      intro i
      rw [drawn, after_skip, drawn]
    simp only [shareLoop, ih, hnext, after_skip]
    rw [List.ofFn_succ, Fin.sum_univ_succ, ← add_assoc]
    rfl

theorem share_eq (secret : BitVec w) {m : Nat} (hm : 1 ≤ m) (e : Entropy) : share secret (m + 1) e =
    some ((List.ofFn fun i => ⟨Split.split secret (fun i : Fin m => drawn w e i) i⟩), e.after (sizeBytes w) m) := by
  have hlast : Split.split secret (fun i : Fin m => drawn w e i) (Fin.last m) =
      secret - ∑ i : Fin m, drawn w e i := by
    simp [Split.split]
  rw [share, if_pos (by omega), Nat.add_sub_cancel, shareLoop_eq]
  simp only [zero_add]
  rw [List.ofFn_succ', List.concat_eq_append, hlast]
  simp only [Split.split_castSucc]

theorem reconstruct_ofFn {n : Nat} (f : Fin n → BitVec w) :
    reconstruct (List.ofFn fun i => ⟨f i⟩) = ∑ i, f i := by
  have hsum : ∀ (l : List (Share w)) (a : BitVec w),
      l.foldl (fun sum s => sum + s.value) a = a + (l.map (·.value)).sum := by
    intro l
    induction l with
    | nil => simp
    | cons s l ih => simp [ih, add_assoc]
  rw [reconstruct, hsum, zero_add, List.map_ofFn, List.sum_ofFn]
  rfl

/-! The bytes of the drawn words. -/

theorem vecOf_getElem (w : Nat) {n i : Nat} (l : List Byte) (hi : i < n) :
    (vecOf w n l)[i]? = some (dec w ((l.drop (sizeBytes w * i)).take (sizeBytes w))) := by
  induction n generalizing l i with
  | zero => omega
  | succ n ih =>
    cases i with
    | zero => simp [vecOf]
    | succ i =>
      rw [vecOf, List.getElem?_cons_succ, ih _ (by omega), List.drop_drop, Nat.mul_succ, Nat.add_comm]

theorem drawn_tape {m i : Nat} (hi : i < m) {l : List Byte} (hl : l.length = m * sizeBytes w) :
    (vecOf w m l)[i]? = some (drawn w (Entropy.tape l) i) := by
  have hle : sizeBytes w * i + sizeBytes w ≤ l.length := by
    rw [hl, ← Nat.mul_succ, Nat.mul_comm]
    exact Nat.mul_le_mul_right _ hi
  rw [vecOf_getElem w l hi, drawn, Entropy.word, Entropy.tape_take l _ _ hle]

/-- One run of arc4random_buf draws given words. -/
theorem exists_tape (hw : w = 8 * sizeBytes w) {m : Nat} (masks : Fin m → BitVec w) :
    ∃! l : List Byte, l.length = m * sizeBytes w ∧ ∀ i : Fin m, drawn w (Entropy.tape l) i = masks i := by
  have hof : ∀ {l : List Byte}, l.length = m * sizeBytes w →
      (∀ i : Fin m, drawn w (Entropy.tape l) i = masks i) → vecOf w m l = List.ofFn masks := by
    intro l hl hmasks
    apply List.ext_getElem?
    intro i
    by_cases hi : i < m
    · rw [drawn_tape hi hl, hmasks ⟨i, hi⟩, List.getElem?_ofFn, dif_pos hi]
    · rw [List.getElem?_eq_none (by rw [vecOf_length]; omega), List.getElem?_eq_none (by simp; omega)]
  have hlen : (vecBytes (List.ofFn masks)).length = m * sizeBytes w := by
    rw [vecBytes_length, List.length_ofFn, Nat.mul_comm]
  refine ⟨vecBytes (List.ofFn masks), ⟨hlen, fun i => ?_⟩, ?_⟩
  · have hvec : vecOf w m (vecBytes (List.ofFn masks)) = List.ofFn masks := by
      have h := vecOf_vecBytes (List.ofFn masks) []
      rwa [List.length_ofFn, List.append_nil] at h
    have hget := drawn_tape i.isLt hlen
    rw [hvec, List.getElem?_ofFn, dif_pos i.isLt] at hget
    exact (Option.some.inj hget).symm
  · rintro l ⟨hl, hmasks⟩
    rw [← vecBytes_vecOf hw hl, hof hl hmasks]

/-- All shares but the `j`th. -/
theorem shares_iff {n j : Nat} (hj : j < n) (f : Fin n → BitVec w) (v : Nat → BitVec w) :
    (∀ i, i < n → i ≠ j → (List.ofFn fun i => (⟨f i⟩ : Share w))[i]? = some ⟨v i⟩) ↔
      ∀ i : Fin n, i ≠ ⟨j, hj⟩ → f i = v i := by
  constructor
  · intro h i hi
    have hget := h i i.isLt fun hij => hi (Fin.ext hij)
    rw [List.getElem?_ofFn, dif_pos i.isLt] at hget
    exact congrArg Share.value (Option.some.inj hget)
  · intro h i hi hij
    rw [List.getElem?_ofFn, dif_pos hi, h ⟨i, hi⟩ fun hc => hij (Fin.mk.inj hc)]

/-- Shares among `n` parties. Whatever arc4random_buf returns, they are `n` shares that reconstruct the
    secret; and for any secret, any values of all shares but the `j`th are drawn by exactly one run of
    bytes, so that `n - 1` parties together see all shares equally often whatever the secret is. -/
theorem share_private (hw : w = 8 * sizeBytes w) (secret : BitVec w) {n : Nat} (hn : 2 ≤ n) :
    (∀ e, ∃ shares e', share secret n e = some (shares, e') ∧ shares.length = n ∧ reconstruct shares = secret) ∧
    ∀ j, j < n → ∀ v : Nat → BitVec w, ∃! l : List Byte, l.length = (n - 1) * sizeBytes w ∧
      ∃ shares e', share secret n (Entropy.tape l) = some (shares, e') ∧
        ∀ i, i < n → i ≠ j → shares[i]? = some ⟨v i⟩ := by
  obtain ⟨m, rfl⟩ : ∃ m, n = m + 1 := ⟨n - 1, by omega⟩
  have hm : 1 ≤ m := by omega
  refine ⟨fun e => ⟨_, _, share_eq secret hm e, List.length_ofFn, ?_⟩, fun j hj v => ?_⟩
  · rw [reconstruct_ofFn, Split.sum_split]
  · obtain ⟨masks, hmasks, honly⟩ := Split.split_existsUnique secret ⟨j, hj⟩ fun i => v i
    obtain ⟨l, ⟨hl, hdrawn⟩, hone⟩ := exists_tape hw masks
    refine ⟨l, ⟨hl, _, _, share_eq secret hm _, (shares_iff hj _ v).mpr ?_⟩, ?_⟩
    · rw [show (fun i : Fin m => drawn w (Entropy.tape l) i) = masks from funext hdrawn]
      exact hmasks
    · rintro l' ⟨hl', shares, e', hshare, hv⟩
      rw [share_eq secret hm, Option.some.injEq, Prod.mk.injEq] at hshare
      obtain ⟨rfl, -⟩ := hshare
      exact hone l' ⟨hl', fun i => congrFun (honly _ ((shares_iff hj _ v).mp hv)) i⟩

end

/-- Of 555 for two parties, the first share is 7 for one run of eight bytes. -/
theorem share_private_two : ∃! l : List Byte, l.length = (2 - 1) * sizeBytes 64 ∧
    ∃ shares e', share (555 : BitVec 64) 2 (Entropy.tape l) = some (shares, e') ∧
      ∀ i, i < 2 → i ≠ 1 → shares[i]? = some ⟨7⟩ :=
  (share_private rfl (555 : BitVec 64) (by decide)).2 1 (by decide) fun _ => 7

end Mpc
