import Mpc.Oram.Run

/- What an ORAM stores: the XOR of P0's and P1's `secretShare`. An update XORs its
   value into its entry, a read changes no share (`step_entry`), so after any
   sequence of operations an entry is its initial value and all values written to
   it (`entry_after`). -/
namespace Mpc
open LE

section
variable {τ : LeafT} {nitems : Nat}

/-- What an operation writes to entry `j`. -/
def OramOp.writes (j : Nat) : OramOp τ nitems → Leaf τ
  | .update alpha targetValue .. => if j = alpha then targetValue else 0
  | _ => 0

/-- The values written to entry `j`. -/
def written (j : Nat) (ops : List (OramOp τ nitems)) : Leaf τ :=
  ops.foldr (fun op acc => op.writes j ^^^ acc) 0

/-- The value the parties share. -/
def System.entry (s : System τ nitems) (j : Fin nitems) : Leaf τ :=
  (s.oram .P0).secretShare.get j ^^^ (s.oram .P1).secretShare.get j

variable {aes : AesKey → Block → Block} (s : System τ nitems)

theorem afterRead_secretShare (loc : Locoram τ nitems) (first : Leaf τ) (key : Option (DpfKey .uint64)) :
    (loc.afterRead aes first key).secretShare = loc.secretShare := by
  cases key <;> rfl

/-- Reads change no share. -/
theorem read_secretShare {op : OramOp τ nitems} (h : op.isRead = true) (p : Role) :
    ((op.step aes s).2.oram p).secretShare = (s.oram p).secretShare := by
  cases op with
  | readAShare rho index order => exact afterRead_secretShare _ _ _
  | readXShare rho index order => exact afterRead_secretShare _ _ _
  | _ => cases h

variable (aes) in
/-- An update applies the halves of one `gen` at P0 and P1. -/
theorem update_secretShare (alpha : Fin nitems) (targetValue : Leaf τ) (idx : Role → Fin nitems)
    (index value : Role → BitVec 64) (order : List Bool) :
    let s' := (OramOp.step aes s (.update alpha targetValue idx index value order)).2
    ∃ prgkey root k0 k1, gen aes prgkey nitems alpha targetValue root = .ok (k0, k1) ∧
      PointKeys aes nitems alpha targetValue k0 k1 ∧
      (s'.oram .P0).secretShare =
        .zipWith (· ^^^ ·) (s.oram .P0).secretShare (keyLeaves aes k0 nitems) ∧
      (s'.oram .P1).secretShare =
        .zipWith (· ^^^ ·) (s.oram .P1).secretShare (keyLeaves aes k1 nitems) := by
  obtain ⟨k0, k1, hdealt, hkeys⟩ :=
    dealt_keys aes (s.env .P2) nitems alpha targetValue τ.sizeof alpha.isLt
  have hkey := s.key_dealt hdealt
  refine ⟨_, _, k0, k1, hdealt, hkeys, ?_, ?_⟩
  · simp only [OramOp.step, hkey]
    rfl
  · simp only [OramOp.step, hkey]
    rfl

theorem step_entry {op : OramOp τ nitems} (h : op.isLoad = false) (j : Fin nitems) :
    (op.step aes s).2.entry j = s.entry j ^^^ op.writes j := by
  cases op with
  | setShare party share => cases h
  | update alpha targetValue idx index value order =>
    obtain ⟨_, _, k0, k1, _, hkeys, h0, h1⟩ :=
      update_secretShare aes s alpha targetValue idx index value order
    have hleaves := hkeys.leaves_xor j.isLt
    -- both shares move by a key's leaves, which meet in the value
    calc OramOp.step aes s (.update alpha targetValue idx index value order) |>.2.entry j
        = (s.oram .P0).secretShare.get j ^^^ (keyLeaves aes k0 nitems).get j ^^^
            ((s.oram .P1).secretShare.get j ^^^ (keyLeaves aes k1 nitems).get j) := by
          rw [System.entry, h0, h1, get_xor, get_xor]
      _ = s.entry j ^^^ ((keyLeaves aes k0 nitems).get j ^^^ (keyLeaves aes k1 nitems).get j) := by
          rw [System.entry]
          ac_rfl
      _ = s.entry j ^^^ OramOp.writes j (.update alpha targetValue idx index value order) :=
          congrArg (s.entry j ^^^ ·) hleaves
  | readAShare rho index order =>
    rw [System.entry, read_secretShare s rfl, read_secretShare s rfl]
    exact BitVec.xor_zero.symm
  | readXShare rho index order =>
    rw [System.entry, read_secretShare s rfl, read_secretShare s rfl]
    exact BitVec.xor_zero.symm

theorem entry_after {ops : List (OramOp τ nitems)} (h : ∀ op ∈ ops, op.isLoad = false)
    (j : Fin nitems) : (s.after aes ops).entry j = s.entry j ^^^ written j ops := by
  induction ops generalizing s with
  | nil => exact BitVec.xor_zero.symm
  | cons op ops ih =>
    have hop := h op List.mem_cons_self
    calc (s.after aes (op :: ops)).entry j
        = ((op.step aes s).2.after aes ops).entry j := by rw [System.after_cons]
      _ = (op.step aes s).2.entry j ^^^ written j ops :=
        ih _ fun op' h' => h op' (List.mem_cons_of_mem op h')
      _ = s.entry j ^^^ (op.writes j ^^^ written j ops) := by rw [step_entry s hop, BitVec.xor_assoc]
      _ = s.entry j ^^^ written j (op :: ops) := rfl

theorem make_entry_after (env : Role → Env) {ops : List (OramOp τ nitems)}
    (h : ∀ op ∈ ops, op.isLoad = false) (j : Fin nitems) :
    ((System.make τ nitems env).after aes ops).entry j = written j ops := by
  have hzero : (System.make τ nitems env).entry j = 0 := by
    unfold System.entry
    exact BitVec.xor_self
  rw [entry_after _ h, hzero]
  exact BitVec.zero_xor

end

/-- Updates accumulate exactly: in every run on loaded shares an entry ends as its initial value
    and all values written to it, reads change no share, and P0 and P1 apply the two halves of one
    `gen`. -/
theorem updates_accumulate (aes : AesKey → Block → Block) {τ : LeafT} {nitems spare : Nat}
    (hsized : Sized τ nitems spare) (env : Role → Env) (init : Role → Vector (Leaf τ) nitems)
    (ops : List (OramOp τ nitems)) (hops : ∀ op ∈ ops, op.isLoad = false)
    (hreads : ReadsAfterUpdate false ops) :
    let s := System.make τ nitems env
    let prog := .setShare .P0 (init .P0) :: .setShare .P1 (init .P1) :: ops
    let state := fun k => s.after aes (prog.take k)
    s.Ends aes spare prog ∧
    (∀ j : Fin nitems, (s.after aes prog).entry j =
      (init .P0).get j ^^^ (init .P1).get j ^^^ written j ops) ∧
    (∀ k (hk : k < prog.length), prog[k].isRead = true → ∀ p,
      ((state (k+1)).oram p).secretShare = ((state k).oram p).secretShare) ∧
    ∀ k (hk : k < prog.length) alpha targetValue idx index value order,
      prog[k] = .update alpha targetValue idx index value order →
      ∃ prgkey root k0 k1, gen aes prgkey nitems alpha targetValue root = .ok (k0, k1) ∧
        ((state (k+1)).oram .P0).secretShare =
          .zipWith (· ^^^ ·) ((state k).oram .P0).secretShare (keyLeaves aes k0 nitems) ∧
        ((state (k+1)).oram .P1).secretShare =
          .zipWith (· ^^^ ·) ((state k).oram .P1).secretShare (keyLeaves aes k1 nitems) := by
  intro s prog state
  refine ⟨make_ends hsized env hreads, ?_, ?_, ?_⟩
  · intro j
    have hinit : (s.after aes [.setShare .P0 (init .P0), .setShare .P1 (init .P1)]).entry j =
        (init .P0).get j ^^^ (init .P1).get j := rfl
    have happ : s.after aes prog =
        (s.after aes [.setShare .P0 (init .P0), .setShare .P1 (init .P1)]).after aes ops := rfl
    rw [happ, entry_after _ hops, hinit]
  · intro k hk hread p
    simp only [state, s.after_take_succ aes hk]
    exact read_secretShare _ hread p
  · intro k hk alpha targetValue idx index value order hop
    obtain ⟨prgkey, root, k0, k1, hgen, -, h0, h1⟩ :=
      update_secretShare aes (state k) alpha targetValue idx index value order
    refine ⟨prgkey, root, k0, k1, hgen, ?_, ?_⟩
    · simp only [state, s.after_take_succ aes hk, hop]
      exact h0
    · simp only [state, s.after_take_succ aes hk, hop]
      exact h1

/-- Nine bytes, of which the last is loaded at P1 and written once. -/
theorem updates_accumulate_last :
    let ops : List (OramOp .uint8 9) := [.update 8 7 (fun _ => 0) (fun _ => 0) (tri 3 4 0) []]
    let init := tri (.replicate 9 0) (.replicate 9 1) (.replicate 9 0)
    ∀ j : Fin 9, ((System.make .uint8 9 fun _ => Env.zeros).after (fun _ b => b)
      (.setShare .P0 (init .P0) :: .setShare .P1 (init .P1) :: ops)).entry j =
        (init .P0).get j ^^^ (init .P1).get j ^^^ written j ops := by
  intro ops init
  have hsized : Sized .uint8 9 1 :=
    ⟨by decide, by decide, rfl, ⟨by decide, by decide⟩, ⟨by decide, by decide⟩⟩
  exact (updates_accumulate (fun _ b => b) hsized (fun _ => Env.zeros) init ops
    (by simp [ops, OramOp.isLoad]) trivial).2.1

end Mpc
