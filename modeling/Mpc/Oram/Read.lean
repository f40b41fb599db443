import Mpc.Oram.Copies
import Mpc.Oram.Database
import Mpc.Oram.Selection

/- What reads return. As long as no share is loaded, a party answers with the product
   of its blind and its selection and with its cancellation term (`answer_eq`). The
   XOR of both parties' (`own`) changes by an update's leaves times the selections
   the parties have by then, and by an XShare read by the first update's value; the
   point of a read makes no difference to it (`step_own`). So a read returns its
   entry exactly when these changes are what was written to the entry
   (`read_returns_entry_iff`). -/
namespace Mpc
open LE XorWord Select

section
variable {τ : LeafT} {nitems : Nat} {aes : AesKey → Block → Block}

/-! One party's answer. -/

theorem false_xorDot {b : Vector (Leaf τ) nitems} (hb : ∃ y, Chooses b y) :
    xorDot (Vector.replicate nitems (0 : Leaf τ)).toList b.toList = 0 := by
  obtain ⟨y, hy⟩ := hb
  have hzero : words (Vector.replicate nitems (0 : Leaf τ)) = fun _ => 0 := by
    funext i
    exact congrArg of (Vector.getElem_replicate i.isLt)
  apply of_injective
  rw [of_xorDot _ hy, hzero, pick_zero]
  rfl

theorem xor_false (a : Vector (Leaf τ) nitems) :
    List.zipWith (· ^^^ ·) a.toList (Vector.replicate nitems (0 : Leaf τ)).toList = a.toList := by
  apply List.ext_getElem
  · simp
  · intro i h1 h2
    simp

/-- A party that has no copies and whose share is its blind answers with its own product. -/
theorem answer_eq {loc : Locoram τ nitems} (h : loc.Uncopied) (hblind : loc.secretShare = loc.blind)
    (hsbv : ∃ y, Chooses loc.sbvBlind y) :
    loc.answer = xorDot loc.blind.toList loc.sbvBlind.toList ^^^ loc.cancellationTerm := by
  rw [Locoram.answer, h.peer, h.sbvPeer, h.sbv, hblind, xor_false, false_xorDot hsbv]
  exact congrArg (· ^^^ _) BitVec.xor_zero

/-! Two parties' ORAMs. -/

def own (l0 l1 : Locoram τ nitems) : Leaf τ :=
  xorDot l0.blind.toList l0.sbvBlind.toList ^^^ l0.cancellationTerm ^^^
    (xorDot l1.blind.toList l1.sbvBlind.toList ^^^ l1.cancellationTerm)

variable (l0 l1 : Locoram τ nitems) {y0 y1 : Fin nitems → Bool}

theorem of_own (h0 : Chooses l0.sbvBlind y0) (h1 : Chooses l1.sbvBlind y1) :
    of (own l0 l1) = ownTerm (words l0.blind) (words l1.blind) y0 y1 (of l0.cancellationTerm)
      (of l1.cancellationTerm) := by
  rw [own, ownTerm, of_xor, of_xor, of_xor, of_xorDot _ h0, of_xorDot _ h1]

theorem own_update (h0 : Chooses l0.sbvBlind y0) (h1 : Chooses l1.sbvBlind y1)
    (index value index' value' : XShare 64) (k0 k1 : DpfKey τ) :
    own (l0.afterUpdate aes index value (some k0)) (l1.afterUpdate aes index' value' (some k1)) =
      own l0 l1 ^^^ (xorDot (keyLeaves aes k0 nitems).toList l0.sbvBlind.toList ^^^
        xorDot (keyLeaves aes k1 nitems).toList l1.sbvBlind.toList) := by
  apply of_injective
  have hafter := of_own (l0.afterUpdate aes index value (some k0))
    (l1.afterUpdate aes index' value' (some k1)) h0 h1
  rw [hafter, l0.afterUpdate_words, l1.afterUpdate_words, ownTerm_write, of_xor, of_xor,
    of_own l0 l1 h0 h1, of_xorDot _ h0, of_xorDot _ h1]
  rfl

/-- Whatever the keys of a read are. -/
theorem own_read (h0 : Chooses l0.sbvBlind y0) (h1 : Chooses l1.sbvBlind y1) (k0 k1 : DpfKey .uint64)
    (first0 first1 : Leaf τ) :
    own (l0.afterRead aes first0 (some k0)) (l1.afterRead aes first1 (some k1)) =
      own l0 l1 ^^^ (first0 ^^^ first1) := by
  obtain ⟨f0, hf0⟩ : ∃ f, Chooses (selection τ nitems aes k0) f := selection_chooses k0
  obtain ⟨f1, hf1⟩ : ∃ f, Chooses (selection τ nitems aes k1) f := selection_chooses k1
  apply of_injective
  have hafter := of_own (l0.afterRead aes first0 (some k0)) (l1.afterRead aes first1 (some k1))
    (h0.xor hf0) (h1.xor hf1)
  have hown := ownTerm_select (words l0.blind) (words l1.blind) y0 y1 f0 f1
    (of l0.cancellationTerm) (of l1.cancellationTerm) (of first0) (of first1) xorWord_two
  rw [hafter, l0.afterRead_term first0 hf0, l1.afterRead_term first1 hf1, of_xor, of_own l0 l1 h0 h1]
  exact hown

/-! Operations. -/

variable (aes)

/-- The point of a read. -/
def OramOp.point : OramOp τ nitems → Option (Fin nitems)
  | .readAShare rho .. => some rho
  | .readXShare rho .. => some rho
  | _ => none

/-- What an operation adds to the parties' own products and terms. -/
def OramOp.adds (s : System τ nitems) : OramOp τ nitems → Leaf τ
  | .update alpha targetValue .. =>
    xorDot (s.leaves aes alpha targetValue .P0).toList (s.oram .P0).sbvBlind.toList ^^^
      xorDot (s.leaves aes alpha targetValue .P1).toList (s.oram .P1).sbvBlind.toList
  | .readXShare .. => (s.oram .P0).firstVal ^^^ (s.oram .P1).firstVal
  | _ => 0

/-- What a sequence of operations adds. -/
def System.added (s : System τ nitems) : List (OramOp τ nitems) → Leaf τ
  | [] => 0
  | op :: ops => op.adds aes s ^^^ (op.step aes s).2.added ops

variable {aes} {s : System τ nitems}

theorem step_own (h : s.Boolean) (op : OramOp τ nitems) :
    own ((op.step aes s).2.oram .P0) ((op.step aes s).2.oram .P1) =
      own (s.oram .P0) (s.oram .P1) ^^^ op.adds aes s := by
  obtain ⟨y0, h0⟩ := h .P0
  obtain ⟨y1, h1⟩ := h .P1
  cases op with
  | setShare party share =>
    cases party <;> exact BitVec.xor_zero.symm
  | update alpha targetValue idx index value order =>
    obtain ⟨k0, k1, hdealt, -⟩ :=
      dealt_keys aes (s.env .P2) nitems alpha targetValue τ.sizeof alpha.isLt
    simp only [OramOp.step, OramOp.adds, System.leaves, s.key_dealt hdealt]
    exact own_update _ _ h0 h1 _ _ _ _ k0 k1
  | readAShare rho index order =>
    obtain ⟨k0, k1, hdealt, -⟩ := dealt_keys aes (s.env .P2) nitems rho (1 : Leaf .uint64) 0 rho.isLt
    simp only [OramOp.step, OramOp.adds, s.key_dealt hdealt]
    -- an additive read adds nothing of its own
    calc own ((s.oram .P0).afterRead aes 0 (some k0)) ((s.oram .P1).afterRead aes 0 (some k1))
        = own (s.oram .P0) (s.oram .P1) ^^^ (0 ^^^ 0) := own_read _ _ h0 h1 k0 k1 0 0
      _ = own (s.oram .P0) (s.oram .P1) ^^^ 0 := congrArg (_ ^^^ ·) BitVec.xor_self
  | readXShare rho index order =>
    obtain ⟨k0, k1, hdealt, -⟩ := dealt_keys aes (s.env .P2) nitems rho (1 : Leaf .uint64) 0 rho.isLt
    simp only [OramOp.step, OramOp.adds, s.key_dealt hdealt]
    exact own_read ((s.oram .P0).noteRead ⟨index .P0, true⟩) ((s.oram .P1).noteRead ⟨index .P1, true⟩)
      h0 h1 k0 k1 _ _

theorem own_after (h : s.Boolean) (ops : List (OramOp τ nitems)) :
    own ((s.after aes ops).oram .P0) ((s.after aes ops).oram .P1) =
      own (s.oram .P0) (s.oram .P1) ^^^ s.added aes ops := by
  induction ops generalizing s with
  | nil => exact BitVec.xor_zero.symm
  | cons op ops ih =>
    calc own ((s.after aes (op :: ops)).oram .P0) ((s.after aes (op :: ops)).oram .P1)
        = own ((op.step aes s).2.oram .P0) ((op.step aes s).2.oram .P1) ^^^
            (op.step aes s).2.added aes ops := ih (step_boolean h op)
      _ = own (s.oram .P0) (s.oram .P1) ^^^ (op.adds aes s ^^^ (op.step aes s).2.added aes ops) := by
          rw [step_own h, BitVec.xor_assoc]

/-- A read in a state with no loaded share. -/
theorem read_own (hnew : ∀ p, (s.oram p).Uncopied) (h : s.Boolean)
    (hblind : ∀ p, (s.oram p).secretShare = (s.oram p).blind) {op : OramOp τ nitems}
    {rho : Fin nitems} (hop : op.point = some rho) :
    (op.step aes s).1 .P0 ^^^ (op.step aes s).1 .P1 =
      own ((op.step aes s).2.oram .P0) ((op.step aes s).2.oram .P1) := by
  have hload : op.isLoad = false := by
    cases op with
    | setShare party share => cases hop
    | _ => rfl
  have hanswer : ∀ p, (op.step aes s).1 p = ((op.step aes s).2.oram p).answer := by
    intro p
    cases op with
    | readAShare rho index order => rfl
    | readXShare rho index order => rfl
    | _ => cases hop
  have heq : ∀ p, ((op.step aes s).2.oram p).answer =
      xorDot ((op.step aes s).2.oram p).blind.toList ((op.step aes s).2.oram p).sbvBlind.toList ^^^
        ((op.step aes s).2.oram p).cancellationTerm := fun p =>
    answer_eq (uncopied_step hnew op p) (step_blinded hload (hblind p)) (step_boolean h op p)
  rw [hanswer, hanswer, heq .P0, heq .P1]
  rfl

theorem make_own (env : Role → Env) :
    own ((System.make τ nitems env).oram .P0) ((System.make τ nitems env).oram .P1) = 0 := by
  unfold own
  exact BitVec.xor_self

section
variable (env : Role → Env) {ops : List (OramOp τ nitems)} (hops : ∀ op ∈ ops, op.isLoad = false)
  {k : Nat} (hk : k < ops.length)
include hops hk

variable (aes) in
/-- A read returns what has been added, whatever its point is. -/
theorem read_added {rho : Fin nitems} (hop : ops[k].point = some rho) :
    let s := System.make τ nitems env
    let r := (ops[k].step aes (s.after aes (ops.take k))).1
    r .P0 ^^^ r .P1 = s.added aes (ops.take (k+1)) := by
  intro s r
  have hnew : ∀ p, (s.oram p).Uncopied := fun p => Locoram.Uncopied.make
  have htake : ∀ op ∈ ops.take k, op.isLoad = false := fun op h => hops op (List.mem_of_mem_take h)
  have hbool : s.Boolean := make_boolean env
  calc r .P0 ^^^ r .P1
      = own ((ops[k].step aes (s.after aes (ops.take k))).2.oram .P0)
          ((ops[k].step aes (s.after aes (ops.take k))).2.oram .P1) :=
        read_own (uncopied_after hnew _) (boolean_after hbool _) (fun p => blinded_after htake rfl) hop
    _ = own ((s.after aes (ops.take (k+1))).oram .P0) ((s.after aes (ops.take (k+1))).oram .P1) := by
        rw [s.after_take_succ aes hk]
    _ = 0 ^^^ s.added aes (ops.take (k+1)) := by rw [own_after hbool, make_own]
    _ = s.added aes (ops.take (k+1)) := BitVec.zero_xor

end

/-! Runs whose reads come after their updates. -/

def OramOp.isUpdate : OramOp τ nitems → Bool
  | .update .. => true
  | _ => false

def OramOp.isXShareRead : OramOp τ nitems → Bool
  | .readXShare .. => true
  | _ => false

/-- The value of the update that comes first. -/
def firstWritten : List (OramOp τ nitems) → Leaf τ
  | .update _ _ _ _ value _ :: _ => (value .P0).setWidth τ.bitsPerLeaf ^^^ (value .P1).setWidth τ.bitsPerLeaf
  | _ => 0

theorem firstVal_append (loc loc' : Locoram τ nitems) (h : loc.updateVals ≠ []) {values : List (XShare 64)}
    (happ : loc'.updateVals = loc.updateVals ++ values) : loc'.firstVal = loc.firstVal := by
  obtain ⟨v, vs, hv⟩ := List.exists_cons_of_ne_nil h
  rw [Locoram.firstVal, Locoram.firstVal, happ, hv]
  rfl

/-- Updates behind the first do not change what a read takes for the first value. -/
theorem firstVal_updates {updates : List (OramOp τ nitems)} (h : ∀ op ∈ updates, op.isUpdate = true)
    {p : Role} (hne : (s.oram p).updateVals ≠ []) :
    ((s.after aes updates).oram p).firstVal = (s.oram p).firstVal := by
  induction updates generalizing s with
  | nil => rfl
  | cons op ops ih =>
    have hop := h op (List.mem_cons_self ..)
    have hrest := fun op' hop' => h op' (List.mem_cons_of_mem _ hop')
    cases op with
    | update alpha targetValue idx index value order =>
      have hvals : (((OramOp.update alpha targetValue idx index value order).step aes s).2.oram p).updateVals =
          (s.oram p).updateVals ++ [⟨value p, true⟩] := Locoram.afterUpdate_updateVals ..
      have hstep := ih (s := ((OramOp.update alpha targetValue idx index value order).step aes s).2) hrest (by
        rw [hvals]
        exact List.append_ne_nil_of_left_ne_nil hne _)
      exact hstep.trans (firstVal_append _ _ hne hvals)
    | _ => cases hop

/-- Updates add nothing as long as nothing has been selected. -/
theorem added_updates {updates : List (OramOp τ nitems)} (h : ∀ op ∈ updates, op.isUpdate = true)
    (hsbv : ∀ p, (s.oram p).sbvBlind = .replicate nitems 0) : s.added aes updates = 0 := by
  induction updates generalizing s with
  | nil => rfl
  | cons op ops ih =>
    have hop := h op (List.mem_cons_self ..)
    have hrest := fun op' hop' => h op' (List.mem_cons_of_mem _ hop')
    cases op with
    | update alpha targetValue idx index value order =>
      have hnext := ih (s := ((OramOp.update alpha targetValue idx index value order).step aes s).2) hrest fun p =>
        ((s.oram p).afterUpdate_sbvBlind ..).trans (hsbv p)
      rw [System.added, hnext]
      simp only [OramOp.adds, hsbv, xorDot_false]
      rw [BitVec.xor_self]
      exact BitVec.xor_zero
    | _ => cases hop

/-- Every XShare read adds the first value, and every second one takes it out again. -/
theorem added_reads {reads : List (OramOp τ nitems)} (h : ∀ op ∈ reads, op.isRead = true) :
    s.added aes reads = if reads.countP OramOp.isXShareRead % 2 = 1 then
      (s.oram .P0).firstVal ^^^ (s.oram .P1).firstVal else 0 := by
  induction reads generalizing s with
  | nil => rfl
  | cons op ops ih =>
    have hop := h op (List.mem_cons_self ..)
    have hrest := ih (s := (op.step aes s).2) fun op' hop' => h op' (List.mem_cons_of_mem _ hop')
    have hkept : ∀ p, ((op.step aes s).2.oram p).firstVal = (s.oram p).firstVal := by
      intro p
      cases op with
      | readAShare rho index order =>
        exact congrArg (fun vals => Locoram.firstVal { s.oram p with updateVals := vals })
          (Locoram.afterRead_updateVals ..)
      | readXShare rho index order =>
        exact congrArg (fun vals => Locoram.firstVal { s.oram p with updateVals := vals })
          (((s.oram p).noteRead ⟨index p, true⟩).afterRead_updateVals ..)
      | _ => cases hop
    rw [System.added, hrest, hkept, hkept, List.countP_cons]
    generalize ops.countP OramOp.isXShareRead = n
    cases op with
    | readAShare rho index order => exact BitVec.zero_xor
    | readXShare rho index order =>
      show _ ^^^ _ = if (n + 1) % 2 = 1 then _ else _
      rcases Nat.mod_two_eq_zero_or_one n with hn | hn
      · rw [if_neg (by omega), if_pos (by omega)]
        exact BitVec.xor_zero
      · rw [if_pos hn, if_neg (by omega)]
        exact BitVec.xor_self
    | _ => cases hop

theorem added_append (ops ops' : List (OramOp τ nitems)) :
    s.added aes (ops ++ ops') = s.added aes ops ^^^ (s.after aes ops).added aes ops' := by
  induction ops generalizing s with
  | nil => exact BitVec.zero_xor.symm
  | cons op ops ih =>
    rw [List.cons_append, System.added, System.added, ih, BitVec.xor_assoc]
    rfl

/-- Updates of new ORAMs leave the parties the shares of the first one's value. -/
theorem firstVal_written (env : Role → Env) {updates : List (OramOp τ nitems)}
    (h : ∀ op ∈ updates, op.isUpdate = true) :
    (((System.make τ nitems env).after aes updates).oram .P0).firstVal ^^^
      (((System.make τ nitems env).after aes updates).oram .P1).firstVal = firstWritten updates := by
  cases updates with
  | nil => exact BitVec.xor_self
  | cons op ops =>
    have hop := h op (List.mem_cons_self ..)
    have hrest := fun op' hop' => h op' (List.mem_cons_of_mem _ hop')
    cases op with
    | update alpha targetValue idx index value order =>
      have hvals : ∀ p, (((OramOp.update alpha targetValue idx index value order).step aes
          (.make τ nitems env)).2.oram p).updateVals = [⟨value p, true⟩] := fun p =>
        Locoram.afterUpdate_updateVals ..
      have hval : ∀ p, (((System.make τ nitems env).after aes
          (.update alpha targetValue idx index value order :: ops)).oram p).firstVal =
            (value p).setWidth τ.bitsPerLeaf := by
        intro p
        rw [System.after_cons, firstVal_updates hrest (by rw [hvals]; exact List.cons_ne_nil _ _),
          Locoram.firstVal, hvals]
      rw [hval, hval]
      rfl
    | _ => cases hop

variable (aes) in
/-- From new ORAMs updates and then reads add the first update's value for an odd number of XShare reads, and
    nothing for an even one. -/
theorem added_updates_reads (env : Role → Env) {updates reads : List (OramOp τ nitems)}
    (hupdates : ∀ op ∈ updates, op.isUpdate = true) (hreads : ∀ op ∈ reads, op.isRead = true) :
    (System.make τ nitems env).added aes (updates ++ reads) =
      if reads.countP OramOp.isXShareRead % 2 = 1 then firstWritten updates else 0 := by
  rw [added_append, added_updates hupdates fun _ => rfl, added_reads hreads, firstVal_written env hupdates]
  exact BitVec.zero_xor

end

/-- In every run from new ORAMs a read at `rho` returns the entry at `rho` of that moment exactly
    when what the operations up to it have added is what has been written to the entry. Where all
    updates came before the reads, that is when the entry is the first update's value and the number
    of XShare reads so far is odd, or the entry is 0 and the number even. -/
theorem read_returns_entry_iff (aes : AesKey → Block → Block) {nitems : Nat} (spare : Nat)
    (h8 : 8 ≤ nitems) (heven : nitems % 2 = 0) (h64 : nitems < 2^64) (env : Role → Env)
    (ops : List (OramOp .uint64 nitems)) (hops : ∀ op ∈ ops, op.isLoad = false)
    (hreads : ReadsAfterUpdate false ops) :
    let s := System.make .uint64 nitems env
    let state := fun k => s.after aes (ops.take k)
    s.Ends aes spare ops ∧
    ∀ k (hk : k < ops.length) (rho : Fin nitems), ops[k].point = some rho →
      ∃ r, (s.run aes ops).1[k]? = some r ∧
        (r .P0 ^^^ r .P1 = (state k).entry rho ↔
          s.added aes (ops.take (k+1)) = written rho (ops.take k)) ∧
        ∀ updates reads, ops.take (k+1) = updates ++ reads → (∀ op ∈ updates, op.isUpdate = true) →
          (∀ op ∈ reads, op.isRead = true) →
          (r .P0 ^^^ r .P1 = (state k).entry rho ↔ (state k).entry rho =
            if reads.countP OramOp.isXShareRead % 2 = 1 then firstWritten updates else 0) := by
  intro s state
  refine ⟨make_ends (sized_even h8 heven h64 spare) env hreads, ?_⟩
  intro k hk rho hop
  refine ⟨_, s.run_result aes hk, ?_⟩
  have htake : ∀ op ∈ ops.take k, op.isLoad = false := fun op h => hops op (List.mem_of_mem_take h)
  have hentry : (state k).entry rho = written rho (ops.take k) := make_entry_after env htake rho
  have hread := read_added aes env hops hk hop
  refine ⟨by rw [hread, hentry], ?_⟩
  intro updates reads htake hupdates hreads
  rw [hread, htake, added_updates_reads aes env hupdates hreads]
  exact eq_comm

/-- A write to entry 2 and a read of it. -/
theorem read_returns_written :
    let ops : List (OramOp .uint64 8) :=
      [.update 2 100 (fun _ => 0) (fun _ => 0) (tri 0 100 0) [], .readXShare 2 (fun _ => 0) []]
    let s := System.make .uint64 8 fun _ => Env.zeros
    ∃ r, (s.run (fun _ b => b) ops).1[1]? = some r ∧
      r .P0 ^^^ r .P1 = (s.after (fun _ b => b) (ops.take 1)).entry 2 := by
  intro ops s
  obtain ⟨r, hr, hread⟩ := (read_returns_entry_iff (fun _ b => b) 0 (by decide) (by decide) (by decide)
    (fun _ => Env.zeros) ops (by simp [ops, OramOp.isLoad]) ⟨rfl, trivial⟩).2 1 (by decide) 2 rfl
  refine ⟨r, hr, hread.1.mpr ?_⟩
  have hupdates : ∀ op ∈ ops.take 1, op.isUpdate = true := by simp [ops, OramOp.isUpdate]
  have hreads : ∀ op ∈ ops.drop 1, op.isRead = true := by simp [ops, OramOp.isRead]
  exact added_updates_reads _ _ hupdates hreads

/-- A write to entry 2 and a read of entry 5, where nothing has been written. -/
theorem read_returns_other_entry :
    let ops : List (OramOp .uint64 8) :=
      [.update 2 100 (fun _ => 0) (fun _ => 0) (tri 0 100 0) [], .readXShare 5 (fun _ => 0) []]
    let s := System.make .uint64 8 fun _ => Env.zeros
    ReadsAfterUpdate false ops ∧ s.Ends (fun _ b => b) 0 ops ∧
    ∃ r, (s.run (fun _ b => b) ops).1[1]? = some r ∧
      r .P0 ^^^ r .P1 ≠ (s.after (fun _ b => b) (ops.take 1)).entry 5 := by
  intro ops s
  have hops : ∀ op ∈ ops, op.isLoad = false := by simp [ops, OramOp.isLoad]
  have hreads : ReadsAfterUpdate false ops := ⟨rfl, trivial⟩
  refine ⟨hreads, make_ends (sized_even (by decide) (by decide) (by decide) 0) _ hreads, ?_⟩
  refine ⟨_, s.run_result _ (by decide), ?_⟩
  have hread := read_added (fun _ b => b) (fun _ => Env.zeros) hops (k := 1) (by decide) rfl
  have hentry : (s.after (fun _ b => b) (ops.take 1)).entry 5 = 0 :=
    (make_entry_after _ (fun op h => hops op (List.mem_of_mem_take h)) 5).trans (by decide)
  rw [hentry]
  intro h
  have hupdates : ∀ op ∈ ops.take 1, op.isUpdate = true := by simp [ops, OramOp.isUpdate]
  have hafter : ∀ op ∈ ops.drop 1, op.isRead = true := by simp [ops, OramOp.isRead]
  have hadded := added_updates_reads (fun _ b => b) (fun _ => Env.zeros) hupdates hafter
  exact absurd (hadded.symm.trans (hread.symm.trans h)) (by decide)

end Mpc
