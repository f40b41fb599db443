import Mathlib.Algebra.BigOperators.Fin
import Mpc.Dpf.Interval
import Mpc.Lib.Select
import Mpc.Lib.XorWord
import Mpc.Oram.Run

/- Selection vectors. The flags of a key are 0 or 1, so every sbv vector of a run
   has the words 0 and 1 for Booleans (`Chooses`, `boolean_after`), and a product
   with it under `&` is `Select.pick` in the group of words under XOR (`of_xorDot`).
   The selections of a read's two keys differ in one entry, that of the point's
   node (`selection_pair`), which is the point's own entry for item 0 only
   (`slotVector_selects_iff`). -/
namespace Mpc
open XorWord Select LE

section
variable {w n : Nat}

theorem xorWord_two (x : XorWord w) : x + x = 0 := BitVec.xor_self

/-- The words of a vector. -/
def words (a : Vector (BitVec w) n) (i : Fin n) : XorWord w := of (a.get i)

theorem words_zipWith (a b : Vector (BitVec w) n) :
    words (.zipWith (· ^^^ ·) a b) = fun i => words a i + words b i := by
  funext i
  exact congrArg of (get_xor a b i)

/-- The words of `b` are 0 and 1 for the Booleans `y`. -/
def Chooses (b : Vector (BitVec w) n) (y : Fin n → Bool) : Prop :=
  ∀ i, b.get i = if y i then 1 else 0

/-- A product with a Boolean vector adds the chosen words. -/
theorem of_xorDot (a : Vector (BitVec w) n) {b : Vector (BitVec w) n} {y : Fin n → Bool}
    (hb : Chooses b y) : of (xorDot a.toList b.toList) = pick y (words a) := by
  have hlist : ∀ (m : Nat) (f g : Fin m → BitVec w),
      of (xorDot (List.ofFn f) (List.ofFn g)) = ∑ i, of (f i * g i) := by
    intro m
    induction m with
    | zero => intro f g; rfl
    | succ m ih =>
      intro f g
      rw [List.ofFn_succ, List.ofFn_succ, xorDot_cons, of_xor, ih, Fin.sum_univ_succ]
  have hofFn : ∀ c : Vector (BitVec w) n, c.toList = List.ofFn c.get := by
    intro c
    apply List.ext_getElem
    · simp
    · intro i h1 h2
      simp
      rfl
  rw [hofFn a, hofFn b, hlist]
  unfold pick words
  apply Finset.sum_congr rfl
  intro i _
  rw [hb i]
  split
  · exact congrArg of (BitVec.mul_one (a.get i))
  · exact congrArg of BitVec.mul_zero

theorem xorDot_false (a : Vector (BitVec w) n) :
    xorDot a.toList (Vector.replicate n (0 : BitVec w)).toList = 0 := by
  have hzero : Chooses (Vector.replicate n (0 : BitVec w)) fun _ => false := fun i =>
    Vector.getElem_replicate i.isLt
  apply of_injective
  rw [of_xorDot a hzero, pick_false]
  rfl

theorem xor_ite (c d : Bool) : (if c then (1 : BitVec w) else 0) ^^^ (if d then 1 else 0) =
    if c ^^ d then 1 else 0 := by
  cases c with
  | false => cases d <;> exact BitVec.zero_xor
  | true =>
    cases d with
    | false => exact BitVec.xor_zero
    | true => exact BitVec.xor_self

theorem Chooses.xor {b b' : Vector (BitVec w) n} {y y' : Fin n → Bool} (h : Chooses b y)
    (h' : Chooses b' y') : Chooses (.zipWith (· ^^^ ·) b b') fun i => y i ^^ y' i := by
  intro i
  rw [get_xor, h i, h' i, xor_ite]

/-! The flags of keys. -/

variable {aes : AesKey → Block → Block} {τ : LeafT} {nitems : Nat} {key k0 k1 : DpfKey .uint64}

theorem setWidth_flagOf (c : Bool) : (flagOf c).setWidth w = if c then 1 else 0 := by
  cases c with
  | false => exact BitVec.setWidth_zero w 8
  | true =>
    apply BitVec.eq_of_toNat_eq
    rw [flagOf_true, BitVec.toNat_setWidth]
    rfl

theorem selection_of_flags {f : Fin nitems → Bool}
    (hf : ∀ i : Fin nitems, (keyFlags aes key nitems).get i = flagOf (f i)) :
    Chooses (selection τ nitems aes key) f := by
  intro i
  have hi : (selection τ nitems aes key).get i = ((keyFlags aes key nitems).get i).setWidth τ.bitsPerLeaf :=
    Vector.getElem_map _ i.isLt
  rw [hi, hf i, setWidth_flagOf]

theorem selection_chooses (key : DpfKey .uint64) : ∃ f, Chooses (selection τ nitems aes key) f := by
  have hflag : ∀ i : Fin nitems, ∃ c, (keyFlags aes key nitems).get i = flagOf c := fun i =>
    keyFlags_flag key i.isLt
  choose f hf using hflag
  exact ⟨f, selection_of_flags hf⟩

/-- The two selections of a read differ in the entry with the number of the point's node. -/
theorem selection_pair {rho : Fin nitems} (h : PointKeys aes nitems rho (1 : Leaf .uint64) k0 k1) :
    ∃ f0 f1, Chooses (selection τ nitems aes k0) f0 ∧ Chooses (selection τ nitems aes k1) f1 ∧
      ∀ i : Fin nitems, (f0 i ^^ f1 i) = decide (i.val = rho / 2) := by
  have hflag0 : ∀ i : Fin nitems, ∃ c, (keyFlags aes k0 nitems).get i = flagOf c := fun i =>
    keyFlags_flag k0 i.isLt
  have hflag1 : ∀ i : Fin nitems, ∃ c, (keyFlags aes k1 nitems).get i = flagOf c := fun i =>
    keyFlags_flag k1 i.isLt
  choose f0 hf0 using hflag0
  choose f1 hf1 using hflag1
  refine ⟨f0, f1, selection_of_flags hf0, selection_of_flags hf1, ?_⟩
  intro i
  have hxor : flagOf (f0 i ^^ f1 i) = if i.val = rho / 2 then 1 else 0 := by
    rw [← flagOf_xor, ← hf0 i, ← hf1 i]
    exact h.flags_xor rho.isLt i.isLt
  by_cases hi : i.val = rho / 2
  · rw [if_pos hi] at hxor
    rw [decide_eq_true hi, ← flagOf_ne_zero (f0 i ^^ f1 i), hxor]
    rfl
  · rw [if_neg hi] at hxor
    rw [decide_eq_false hi, ← flagOf_ne_zero (f0 i ^^ f1 i), hxor]
    rfl

/-! Slots. -/

/-- The vector `w` of a read: the flags of the evaluated key, as words. -/
def slotVector (aes : AesKey → Block → Block) (spare : Nat) (key : DpfKey .uint64) (n : Nat) :
    Option (Vector (BitVec 64) n) := do
  let (_, flags) ← evalAll aes spare key n
  return flags.map (·.setWidth 64)

theorem evalAll_fits {key : DpfKey τ} {spare : Nat} {r : Vector (Leaf τ) nitems × Vector Byte nitems}
    (h : evalAll aes spare key nitems = some r) (hpos : 0 < nitems) (hn : key.nitems = nitems)
    (hcw : key.cw.length = key.depth) : τ.Fits nitems spare := by
  subst hn
  have hpred : predSize key.nitems = key.nitems - 1 := if_neg (Nat.pos_iff_ne_zero.mp hpos)
  rw [evalAll, hpred, Option.bind_eq_bind, Option.bind_eq_some_iff] at h
  obtain ⟨b', hrun, -⟩ := h
  refine ⟨hpos, (fullDomain_isSome_iff hpos hcw ?_).mp (Option.isSome_iff_exists.mpr ⟨b', hrun⟩)⟩
  exact τ.nodes_le key.nitems

theorem slotVector_xor {spare rho : Nat} (hfits : LeafT.uint64.Fits n spare) (hrho : rho < n)
    (h : PointKeys aes n rho (1 : Leaf .uint64) k0 k1) :
    ∃ w0 w1, slotVector aes spare k0 n = some w0 ∧ slotVector aes spare k1 n = some w1 ∧
      ∀ i (hi : i < n), w0[i] ^^^ w1[i] = if i = rho / 2 then 1 else 0 := by
  have hcw0 : k0.cw.length = k0.depth := h.cw0.trans (congrArg LeafT.uint64.depth h.nitems0).symm
  have hcw1 : k1.cw.length = k1.depth := h.cw1.trans (congrArg LeafT.uint64.depth h.nitems1).symm
  refine ⟨(keyFlags aes k0 n).map (·.setWidth 64), (keyFlags aes k1 n).map (·.setWidth 64), ?_, ?_, ?_⟩
  · rw [slotVector, evalAll_eq hfits h.nitems0 hcw0]
    rfl
  · rw [slotVector, evalAll_eq hfits h.nitems1 hcw1]
    rfl
  · intro i hi
    rw [Vector.getElem_map, Vector.getElem_map, ← BitVec.setWidth_xor, h.flags_xor hrho hi]
    show BitVec.setWidth 64 (if i = rho / 2 then 1 else 0) = _
    split <;> rfl

/-- The vectors that a read builds from its two keys select the point's slot exactly when they are
    defined and the point is item 0: flag `i` belongs to the items `2 i` and `2 i + 1`. -/
theorem slotVector_selects_iff (aes : AesKey → Block → Block) (prgkey : AesKey) (spare : Nat)
    (root : Block × Block) {n rho : Nat} (hrho : rho < n) :
    ∃ k0 k1, gen aes prgkey n rho (1 : Leaf .uint64) root = .ok (k0, k1) ∧
      ((∃ w0 w1, slotVector aes spare k0 n = some w0 ∧ slotVector aes spare k1 n = some w1 ∧
          ∀ i (hi : i < n), w0[i] ^^^ w1[i] = if i = rho then 1 else 0) ↔
        LeafT.uint64.Fits n spare ∧ rho = 0) := by
  obtain ⟨k0, k1, hgen, hkeys⟩ := gen_keys aes prgkey (1 : Leaf .uint64) root hrho
  have hcw0 : k0.cw.length = k0.depth :=
    hkeys.cw0.trans (congrArg LeafT.uint64.depth hkeys.nitems0).symm
  refine ⟨k0, k1, hgen, ?_⟩
  constructor
  · rintro ⟨w0, w1, h0, h1, hslot⟩
    have hfits : LeafT.uint64.Fits n spare := by
      have hdefined := h0
      rw [slotVector, Option.bind_eq_bind, Option.bind_eq_some_iff] at hdefined
      obtain ⟨r, hr, -⟩ := hdefined
      exact evalAll_fits hr (by omega) hkeys.nitems0 hcw0
    refine ⟨hfits, ?_⟩
    obtain ⟨v0, v1, h0', h1', hxor⟩ := slotVector_xor hfits hrho hkeys
    obtain rfl : w0 = v0 := Option.some.inj (h0.symm.trans h0')
    obtain rfl : w1 = v1 := Option.some.inj (h1.symm.trans h1')
    -- at the point itself the wanted entry is 1, and the real one is 1 in its node only
    have hpoint := (hslot rho hrho).symm.trans (hxor rho hrho)
    rw [if_pos rfl] at hpoint
    split at hpoint
    · omega
    · exact absurd hpoint (by decide)
  · rintro ⟨hfits, rfl⟩
    exact slotVector_xor hfits hrho hkeys

theorem slotVector_selects_zero :
    ∃ k0 k1, gen (fun _ b => b) 0 8 0 (1 : Leaf .uint64) (0, 0) = .ok (k0, k1) ∧
      ((∃ w0 w1, slotVector (fun _ b => b) 0 k0 8 = some w0 ∧ slotVector (fun _ b => b) 0 k1 8 = some w1 ∧
          ∀ i (hi : i < 8), w0[i] ^^^ w1[i] = if i = 0 then 1 else 0) ↔
        LeafT.uint64.Fits 8 0 ∧ 0 = 0) :=
  slotVector_selects_iff (fun _ b => b) 0 0 (0, 0) (by decide)

/-- With eight items and the point 5 that the code fixes, entry 2 is set instead of entry 5. -/
theorem slotVector_misses :
    ∃ k0 k1, gen (fun _ b => b) 0 8 5 (1 : Leaf .uint64) (0, 0) = .ok (k0, k1) ∧
      ∃ w0 w1, slotVector (fun _ b => b) 0 k0 8 = some w0 ∧ slotVector (fun _ b => b) 0 k1 8 = some w1 ∧
        w0[2] ^^^ w1[2] = 1 ∧ ¬ ∀ i (hi : i < 8), w0[i] ^^^ w1[i] = if i = 5 then 1 else 0 := by
  obtain ⟨k0, k1, hgen, hkeys⟩ := gen_keys (fun _ b => b) 0 (1 : Leaf .uint64) (0, 0) (show 5 < 8 by decide)
  obtain ⟨w0, w1, h0, h1, hxor⟩ := slotVector_xor
    (show LeafT.uint64.Fits 8 0 from ⟨by decide, by decide⟩) (show 5 < 8 by decide) hkeys
  refine ⟨k0, k1, hgen, w0, w1, h0, h1, hxor 2 (by decide), ?_⟩
  intro hslot
  have hpoint := (hslot 2 (by decide)).symm.trans (hxor 2 (by decide))
  exact absurd hpoint (by decide)

/-! The words of an ORAM after an operation. -/

section
variable (loc : Locoram τ nitems)

theorem Locoram.afterUpdate_words (index value : XShare 64) (key : DpfKey τ) :
    words (loc.afterUpdate aes index value (some key)).blind =
      fun i => words loc.blind i + words (keyLeaves aes key nitems) i :=
  words_zipWith _ _

theorem Locoram.afterRead_term (first : Leaf τ) {f : Fin nitems → Bool}
    (hf : Chooses (selection τ nitems aes key) f) :
    of (loc.afterRead aes first (some key)).cancellationTerm =
      of loc.cancellationTerm + (pick f (words loc.blind) + of first) := by
  rw [← of_xorDot _ hf]
  rfl

end

/-! Runs. -/

/-- The sbv vectors of every party are Boolean. -/
def System.Boolean (s : System τ nitems) : Prop := ∀ p, ∃ y, Chooses (s.oram p).sbvBlind y

theorem Locoram.afterRead_chooses {loc : Locoram τ nitems} (h : ∃ y, Chooses loc.sbvBlind y)
    (first : Leaf τ) (key : Option (DpfKey .uint64)) :
    ∃ y, Chooses (loc.afterRead aes first key).sbvBlind y := by
  cases key with
  | none => exact h
  | some k =>
    obtain ⟨y, hy⟩ := h
    obtain ⟨f, hf⟩ : ∃ f, Chooses (selection τ nitems aes k) f := selection_chooses k
    exact ⟨_, hy.xor hf⟩

theorem Locoram.afterUpdate_sbvBlind (loc : Locoram τ nitems) (index value : XShare 64)
    (key : Option (DpfKey τ)) : (loc.afterUpdate aes index value key).sbvBlind = loc.sbvBlind := by
  cases key <;> rfl

theorem step_boolean {s : System τ nitems} (h : s.Boolean) (op : OramOp τ nitems) :
    (op.step aes s).2.Boolean := by
  intro p
  cases op with
  | setShare party share =>
    show ∃ y, Chooses (Function.update s.oram party _ p).sbvBlind y
    by_cases hp : p = party
    · subst hp
      rw [Function.update_self]
      exact h p
    · rw [Function.update_of_ne hp]
      exact h p
  | update alpha targetValue idx index value order =>
    show ∃ y, Chooses ((s.oram p).afterUpdate aes _ _ _).sbvBlind y
    rw [Locoram.afterUpdate_sbvBlind]
    exact h p
  | readAShare rho index order => exact Locoram.afterRead_chooses (h p) _ _
  | readXShare rho index order =>
    have hnote : ∃ y, Chooses ((s.oram p).noteRead ⟨index p, true⟩).sbvBlind y := h p
    exact Locoram.afterRead_chooses hnote _ _

theorem make_boolean (env : Role → Env) : (System.make τ nitems env).Boolean := fun _ =>
  ⟨fun _ => false, fun i => Vector.getElem_replicate i.isLt⟩

theorem boolean_after {s : System τ nitems} (h : s.Boolean) (ops : List (OramOp τ nitems)) :
    (s.after aes ops).Boolean := by
  induction ops generalizing s with
  | nil => exact h
  | cons op ops ih => exact ih (step_boolean h op)

end

end Mpc
