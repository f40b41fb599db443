import Mathlib.Algebra.Order.Floor.Div
import Mathlib.Algebra.Order.Ring.Nat
import Mathlib.GroupTheory.GroupAction.Ring
import Mathlib.Logic.Function.Basic

/- Complete binary trees unfolded from a root. `node l m` is node `m` of layer `l`,
   child `m % 2` of node `m / 2` above it.

   The first part expands an interval of `N` nodes in one array of `N` cells:
   layers alternate between the cells from 0 on and those from `N / 2` on.
   `halves_disjoint` says that no child overwrites a parent still to be read, so a
   layer is the function `filled` of the memory. A layer has `⌈N / 2^k⌉` cells
   wherever the interval starts; it holds all ancestors of an interval that is
   `Aligned` (`layers_window`), and in any other the last node descends from a cell
   that one layer leaves as it was (`layers_missed`). The second part is about two
   trees with one `child` and different roots: if a step keeps a relation towards a
   path and closes the gap off it, then the trees agree off the path (`node_pair`). -/
namespace BinTree

variable {α : Type} (child : Nat → Nat → α → α) (root : α)

def node : Nat → Nat → α
  | 0, _ => root
  | l+1, m => child l (m % 2) (node l (m / 2))

variable {child root} in
/-- A node is made by the children of the layers above it. -/
theorem node_congr {child' : Nat → Nat → α → α} {l : Nat}
    (h : ∀ l', l' < l → child' l' = child l') (m : Nat) :
    node child' root l m = node child root l m := by
  induction l generalizing m with
  | zero => rfl
  | succ l ih =>
    rw [node, node, h l (Nat.lt_succ_self l), ih fun l' hl' => h l' (Nat.lt_succ_of_lt hl')]

theorem div_two_pow_succ (A k : Nat) : A / 2^(k+1) = A / 2^k / 2 := by
  rw [Nat.pow_succ, Nat.div_div_eq_div_mul]

variable {child root} in
/-- A node depends on one child of each layer only. -/
theorem node_path_congr {child' : Nat → Nat → α → α} {depth : Nat} (m : Nat)
    (h : ∀ l k, depth = l + (k+1) → child' l (m / 2^k % 2) = child l (m / 2^k % 2)) :
    node child' root depth m = node child root depth m := by
  have hpath : ∀ l k, depth = l + k →
      node child' root l (m / 2^k) = node child root l (m / 2^k) := by
    intro l
    induction l with
    | zero => exact fun _ _ => rfl
    | succ l ih =>
      intro k hk
      rw [node, node, h l k (by omega), ← div_two_pow_succ, ih (k+1) (by omega)]
  have hleaf := hpath depth 0 rfl
  rwa [Nat.pow_zero, Nat.div_one] at hleaf

/-! Layers of `⌈N / 2^k⌉` nodes, `k` layers above the last. -/

theorem ceilDiv_two_pow_succ (N k : Nat) : N ⌈/⌉ 2^(k+1) = (N ⌈/⌉ 2^k + 1) / 2 := by
  have hle : ∀ c, N ⌈/⌉ 2^(k+1) ≤ c ↔ (N ⌈/⌉ 2^k + 1) / 2 ≤ c := by
    intro c
    have hk : 0 < 2^k := Nat.two_pow_pos k
    have hk' : 0 < 2^(k+1) := Nat.two_pow_pos (k+1)
    rw [ceilDiv_le_iff_le_mul hk', Nat.pow_succ, Nat.mul_assoc, ← ceilDiv_le_iff_le_mul hk]
    omega
  exact Nat.le_antisymm ((hle _).mpr (Nat.le_refl _)) ((hle _).mp (Nat.le_refl _))

theorem ceilDiv_two_pow_zero (N : Nat) : N ⌈/⌉ 2^0 = N := by
  rw [Nat.pow_zero, ceilDiv_one]

theorem ceilDiv_two_pow_pos {N : Nat} (hN : 0 < N) (k : Nat) : 0 < N ⌈/⌉ 2^k := by
  induction k with
  | zero => rwa [ceilDiv_two_pow_zero]
  | succ k ih => rw [ceilDiv_two_pow_succ]; omega

theorem ceilDiv_two_pow_le (N k : Nat) : 2 * (N ⌈/⌉ 2^(k+1)) ≤ N + 1 := by
  induction k with
  | zero => rw [ceilDiv_two_pow_succ, ceilDiv_two_pow_zero]; omega
  | succ k ih => rw [ceilDiv_two_pow_succ]; omega

theorem ceilDiv_two_pow_eq_one {N k : Nat} (hN : 0 < N) (hk : N ≤ 2^k) : N ⌈/⌉ 2^k = 1 := by
  have h1 : N ⌈/⌉ 2^k ≤ 1 := by
    rw [ceilDiv_le_iff_le_mul (Nat.two_pow_pos k), Nat.mul_one]
    exact hk
  have h2 := ceilDiv_two_pow_pos hN k
  omega

theorem ceilDiv_two_pow (k j : Nat) : 2^k ⌈/⌉ 2^j = 2^(k - j) := by
  rcases Nat.lt_or_ge k j with hlt | hle
  · have hpow : 2^k ≤ 2^j := Nat.pow_le_pow_right (by omega) hlt.le
    rw [ceilDiv_two_pow_eq_one (Nat.two_pow_pos k) hpow, Nat.sub_eq_zero_of_le hlt.le, Nat.pow_zero]
  · obtain ⟨d, rfl⟩ := Nat.exists_eq_add_of_le hle
    refine eq_of_forall_ge_iff fun c => ?_
    rw [ceilDiv_le_iff_le_mul (Nat.two_pow_pos j), Nat.pow_add, Nat.add_sub_cancel_left,
      Nat.mul_le_mul_left_iff (Nat.two_pow_pos j)]

/-! One layer. -/

/-- The cell of node `m` of a layer in half `h`. -/
def cell (N h m : Nat) : Nat := h * (N / 2) + m

/-- No child of node `q` lands on a later node of its layer. -/
theorem halves_disjoint {N k q j : Nat} (hq : q < j) (hj : j < N ⌈/⌉ 2^(k+1)) :
    cell N ((k+1) % 2) j ≠ cell N (k % 2) (2*q) ∧ cell N ((k+1) % 2) j ≠ cell N (k % 2) (2*q+1) := by
  unfold cell
  have hP := ceilDiv_two_pow_le N k
  rcases Nat.mod_two_eq_zero_or_one k with hk | hk
  · have hk' : (k+1) % 2 = 1 := by omega
    rw [hk, hk']
    omega
  · -- the next layer is not the last, so this one has at most `⌈N/4⌉` nodes
    have hk' : (k+1) % 2 = 0 := by omega
    obtain ⟨k', rfl⟩ : ∃ k', k = k' + 1 := ⟨k - 1, by omega⟩
    have hP' := ceilDiv_two_pow_le N k'
    rw [ceilDiv_two_pow_succ] at hj
    rw [hk, hk']
    omega

theorem cell_lt {N k m : Nat} (hN : 0 < N) (hm : m < N ⌈/⌉ 2^k) : cell N (k % 2) m < N := by
  unfold cell
  rcases Nat.mod_two_eq_zero_or_one k with hk | hk
  · have hle : N ⌈/⌉ 2^k ≤ N := by
      cases k with
      | zero => rw [ceilDiv_two_pow_zero]
      | succ k =>
        have := ceilDiv_two_pow_le N k
        omega
    rw [hk]
    omega
  · obtain ⟨k', rfl⟩ : ∃ k', k = k' + 1 := ⟨k - 1, by omega⟩
    have := ceilDiv_two_pow_le N k'
    rw [hk]
    omega

/-- The memory once the first `c` cells of a layer are filled from the layer above. The layer
    starts in child `bit` of its first parent. -/
def filled (N k l bit c : Nat) (mem : Nat → α) (p : Nat) : α :=
  if cell N (k % 2) 0 ≤ p ∧ p < cell N (k % 2) c then
    let i := p - cell N (k % 2) 0 + bit
    child l (i % 2) (mem (cell N ((k+1) % 2) (i / 2)))
  else mem p

/-- The number of cells that a layer fills: a parent that is not there has no children. -/
def filledSize (N k bit : Nat) : Nat := min (N ⌈/⌉ 2^k) (2 * (N ⌈/⌉ 2^(k+1)) - bit)

variable {child root} {N k l bit c i j : Nat} {mem : Nat → α}

theorem filled_zero : filled child N k l bit 0 mem = mem := by
  funext p
  have h : ¬ (cell N (k % 2) 0 ≤ p ∧ p < cell N (k % 2) 0) := by omega
  rw [filled, if_neg h]

theorem filled_cell (hi : i < c) : filled child N k l bit c mem (cell N (k % 2) i) =
    child l ((i + bit) % 2) (mem (cell N ((k+1) % 2) ((i + bit) / 2))) := by
  have hin : cell N (k % 2) 0 ≤ cell N (k % 2) i ∧ cell N (k % 2) i < cell N (k % 2) c := by
    unfold cell
    omega
  have hsub : cell N (k % 2) i - cell N (k % 2) 0 = i := by
    unfold cell
    omega
  rw [filled, if_pos hin, hsub]

theorem filled_other {p : Nat} (hp : ∀ i, i < c → p ≠ cell N (k % 2) i) :
    filled child N k l bit c mem p = mem p := by
  refine if_neg fun h => ?_
  unfold cell at h
  refine hp (p - k % 2 * (N / 2)) (by omega) ?_
  unfold cell
  omega

theorem filled_succ : filled child N k l bit (c+1) mem =
    Function.update (filled child N k l bit c mem) (cell N (k % 2) c)
      (child l ((c + bit) % 2) (mem (cell N ((k+1) % 2) ((c + bit) / 2)))) := by
  funext p
  by_cases hc : p = cell N (k % 2) c
  · subst hc
    rw [Function.update_self, filled_cell (Nat.lt_succ_self c)]
  · rw [Function.update_of_ne hc]
    by_cases hp : ∃ i, i < c ∧ p = cell N (k % 2) i
    · obtain ⟨i, hi, rfl⟩ := hp
      rw [filled_cell hi, filled_cell (Nat.lt_succ_of_lt hi)]
    · rw [filled_other fun i hi h => hp ⟨i, hi, h⟩, filled_other fun i hi h => ?_]
      by_cases hic : i = c
      · exact hc (hic ▸ h)
      · exact hp ⟨i, by omega, h⟩

/-- The parents of the cells still to be filled are in place. -/
theorem filled_parent (hc : c ≤ 2*j) (hj : j < N ⌈/⌉ 2^(k+1)) :
    filled child N k l bit c mem (cell N ((k+1) % 2) j) = mem (cell N ((k+1) % 2) j) := by
  apply filled_other
  intro i hi
  obtain ⟨h0, h1⟩ := halves_disjoint (show i / 2 < j by omega) hj
  rcases Nat.mod_two_eq_zero_or_one i with h | h
  · rwa [show 2 * (i / 2) = i by omega] at h0
  · rwa [show 2 * (i / 2) + 1 = i by omega] at h1

/-! All layers. The first node of the last layer is `A`: a layer `k` above the last starts in
    child `A / 2^k % 2` of its first parent. -/

variable (child root) in
/-- The memory after `l` of `depth` layers. -/
def layers (A N depth : Nat) (mem : Nat → α) : Nat → Nat → α
  | 0 => Function.update mem (cell N (depth % 2) 0) root
  | l+1 =>
    let k := depth - l - 1
    let bit := A / 2^k % 2
    filled child N k l bit (filledSize N k bit) (layers A N depth mem l)

/-- The nodes `A`, …, `A + N - 1` of the last layer have no more ancestors in any layer than the
    layer has cells. -/
def Aligned (A N depth : Nat) : Prop := ∀ k, k ≤ depth → A % 2^k + N ≤ 2^k * (N ⌈/⌉ 2^k)

instance (A N depth : Nat) : Decidable (Aligned A N depth) := Nat.decidableBallLE _ _

/-- The number of the last ancestor `k` layers up, counted from the first. -/
def lastCell (A N k : Nat) : Nat := (A + N - 1) / 2^k - A / 2^k

theorem aligned_zero (N depth : Nat) : Aligned 0 N depth := by
  intro k _
  rw [Nat.zero_mod, Nat.zero_add]
  exact (ceilDiv_le_iff_le_mul (Nat.two_pow_pos k)).mp (Nat.le_refl _)

section
variable {A depth : Nat}

/-- The parent of cell `m` of a layer. -/
theorem parent_eq (A k m : Nat) : (A / 2^k + m) / 2 = A / 2^(k+1) + (m + A / 2^k % 2) / 2 := by
  rw [div_two_pow_succ]
  omega

theorem parent_mod (A k m : Nat) : (A / 2^k + m) % 2 = (m + A / 2^k % 2) % 2 := by omega

theorem lastCell_succ (hN : 0 < N) (A k : Nat) :
    lastCell A N (k+1) = (lastCell A N k + A / 2^k % 2) / 2 := by
  have hle : A / 2^k ≤ (A + N - 1) / 2^k := Nat.div_le_div_right (by omega)
  unfold lastCell
  rw [div_two_pow_succ, div_two_pow_succ]
  omega

/-- `N` nodes from `A` on reach to cell `m` of the layer `k` above. -/
theorem le_lastCell_iff (hN : 0 < N) (A k m : Nat) :
    m ≤ lastCell A N k ↔ 2^k * m < A % 2^k + N := by
  have hk := Nat.two_pow_pos k
  have hdiv := Nat.div_add_mod A (2^k)
  have hle : A / 2^k ≤ (A + N - 1) / 2^k := Nat.div_le_div_right (by omega)
  have hiff : m + A / 2^k ≤ (A + N - 1) / 2^k ↔ (m + A / 2^k) * 2^k ≤ A + N - 1 :=
    Nat.le_div_iff_mul_le hk
  have hmul : (m + A / 2^k) * 2^k = 2^k * m + 2^k * (A / 2^k) := by
    rw [Nat.add_mul, Nat.mul_comm m, Nat.mul_comm (A / 2^k)]
  unfold lastCell
  omega

theorem lastCell_lt_iff (hN : 0 < N) (A k c : Nat) :
    lastCell A N k < c ↔ A % 2^k + N ≤ 2^k * c := by
  have h := le_lastCell_iff hN A k c
  omega

theorem lastCell_zero (hN : 0 < N) (A : Nat) : lastCell A N 0 = N - 1 := by
  unfold lastCell
  rw [Nat.pow_zero, Nat.div_one, Nat.div_one]
  omega

/-- A cell with a parent is filled from it. -/
theorem layers_succ {k l m : Nat} (hl : depth = l + (k+1)) (hm : m < N ⌈/⌉ 2^k)
    (hp : (m + A / 2^k % 2) / 2 < N ⌈/⌉ 2^(k+1)) :
    layers child root A N depth mem (l+1) (cell N (k % 2) m) =
      child l ((m + A / 2^k % 2) % 2)
        (layers child root A N depth mem l (cell N ((k+1) % 2) ((m + A / 2^k % 2) / 2))) := by
  have hk : depth - l - 1 = k := by omega
  have hlt : m < filledSize N k (A / 2^k % 2) := by
    unfold filledSize
    omega
  rw [layers, hk]
  exact filled_cell hlt

variable (child root mem) in
/-- The first cell holds the ancestor of `A`. -/
theorem layers_first (hN : 0 < N) (hA : A < 2^depth) {l k : Nat} (hl : depth = l + k) :
    layers child root A N depth mem l (cell N (k % 2) 0) = node child root l (A / 2^k) := by
  induction l generalizing k with
  | zero =>
    obtain rfl : depth = k := by omega
    rw [layers, Function.update_self, Nat.div_eq_of_lt hA]
    rfl
  | succ l ih =>
    have hC := ceilDiv_two_pow_pos hN k
    have hP := ceilDiv_two_pow_pos hN (k+1)
    have hmod : (0 + A / 2^k % 2) % 2 = A / 2^k % 2 := by omega
    have hdiv : (0 + A / 2^k % 2) / 2 = 0 := by omega
    rw [layers_succ (k := k) (by omega) hC (by omega), hmod, hdiv, ih (k := k+1) (by omega), node,
      div_two_pow_succ]

variable (child root mem) in
/-- On an aligned interval every layer holds all ancestors of the interval. -/
theorem layers_window (hN : 0 < N) (hA : A + N ≤ 2^depth) (h : Aligned A N depth) {l k m : Nat}
    (hl : depth = l + k) (hm : m ≤ lastCell A N k) :
    layers child root A N depth mem l (cell N (k % 2) m) = node child root l (A / 2^k + m) := by
  induction l generalizing k m with
  | zero =>
    obtain rfl : depth = k := by omega
    have hlast : lastCell A N depth = 0 := by
      rw [lastCell, Nat.div_eq_of_lt (show A + N - 1 < 2^depth by omega), Nat.zero_sub]
    obtain rfl : m = 0 := by omega
    exact layers_first child root mem hN (by omega) hl
  | succ l ih =>
    have hup := lastCell_succ hN A k
    have hC := (lastCell_lt_iff hN A k _).mpr (h k (by omega))
    have hP := (lastCell_lt_iff hN A (k+1) _).mpr (h (k+1) (by omega))
    rw [layers_succ (k := k) (by omega) (by omega) (by omega), ih (k := k+1) (by omega) (by omega),
      ← parent_eq, ← parent_mod]
    rfl

/-- A step of the layers that leaves the cell of the interval's last ancestor as it was. -/
structure Missed (A N k : Nat) : Prop where
  unfilled : filledSize N k (A / 2^k % 2) ≤ lastCell A N k
  below : ∀ k', k' ≤ k → A % 2^k' + N ≤ 2^k' * (N ⌈/⌉ 2^k')

/-- An interval that is not aligned has a layer in which the last cell is missed. -/
theorem exists_missed (hN : 0 < N) (h : ¬ Aligned A N depth) :
    ∃ k l, depth = l + (k+1) ∧ Missed A N k := by
  classical
  have hfail : ∃ k, k ≤ depth ∧ ¬ A % 2^k + N ≤ 2^k * (N ⌈/⌉ 2^k) := by
    unfold Aligned at h
    push Not at h
    obtain ⟨k, hk, hlt⟩ := h
    exact ⟨k, hk, by omega⟩
  -- the lowest layer that is too narrow; the one below it is not
  obtain ⟨hle, hnarrow⟩ := Nat.find_spec hfail
  have hmin : ∀ k', k' < Nat.find hfail → A % 2^k' + N ≤ 2^k' * (N ⌈/⌉ 2^k') := by
    intro k' hk'
    have hnot := Nat.find_min hfail hk'
    by_contra hcon
    exact hnot ⟨by omega, hcon⟩
  generalize Nat.find hfail = k at hle hnarrow hmin
  cases k with
  | zero =>
    refine absurd ?_ hnarrow
    rw [ceilDiv_two_pow_zero, Nat.pow_zero, Nat.mod_one]
    omega
  | succ k =>
    refine ⟨k, depth - (k+1), by omega, ?_, fun k' hk' => hmin k' (by omega)⟩
    have hup := lastCell_succ hN A k
    have hC := (lastCell_lt_iff hN A k _).mpr (hmin k (by omega))
    have hP : ¬ lastCell A N (k+1) < N ⌈/⌉ 2^(k+1) := fun hlt =>
      hnarrow ((lastCell_lt_iff hN A (k+1) _).mp hlt)
    have hsize := ceilDiv_two_pow_succ N k
    unfold filledSize
    omega

/-- The first `l` layers depend on their own children only. -/
theorem layers_congr {child' : Nat → Nat → α → α} {l : Nat} (hchild : ∀ l', l' < l → child' l' = child l') :
    layers child' root A N depth mem l = layers child root A N depth mem l := by
  induction l with
  | zero => rfl
  | succ l ih =>
    rw [layers, layers, ih fun l' hl' => hchild l' (by omega)]
    funext p
    simp only [filled, hchild l (by omega)]

/-- What the missed cell becomes does not depend on the layer's children. -/
theorem layers_missed {child' : Nat → Nat → α → α} (hN : 0 < N) {k l : Nat}
    (hl : depth = l + (k+1)) (hmissed : Missed A N k)
    (hchild : ∀ l', l' < depth → l' ≠ l → child' l' = child l') :
    layers child' root A N depth mem depth (cell N 0 (N - 1)) =
      layers child root A N depth mem depth (cell N 0 (N - 1)) := by
  have hbefore : layers child' root A N depth mem l = layers child root A N depth mem l :=
    layers_congr fun l' hl' => hchild l' (by omega) (by omega)
  -- down the last cells, `d` layers below the one that missed its last cell
  have hafter : ∀ d k', k' + d = k →
      layers child' root A N depth mem (l + 1 + d) (cell N (k' % 2) (lastCell A N k')) =
        layers child root A N depth mem (l + 1 + d) (cell N (k' % 2) (lastCell A N k')) := by
    intro d
    induction d with
    | zero =>
      intro k' hk'
      obtain rfl : k' = k := hk'
      have hk : depth - l - 1 = k' := by omega
      have hother : ∀ i, i < filledSize N k' (A / 2^k' % 2) →
          cell N (k' % 2) (lastCell A N k') ≠ cell N (k' % 2) i := by
        intro i hi
        have := hmissed.unfilled
        unfold cell
        omega
      rw [Nat.add_zero, layers, layers, hk, filled_other hother, filled_other hother,
        hbefore]
    | succ d ih =>
      rintro k' hk'
      have hup := lastCell_succ hN A k'
      have hC := (lastCell_lt_iff hN A k' _).mpr (hmissed.below k' (by omega))
      have hP := (lastCell_lt_iff hN A (k'+1) _).mpr (hmissed.below (k'+1) (by omega))
      have hlayer : l + 1 + (d + 1) = l + 1 + d + 1 := by omega
      rw [hlayer, layers_succ (k := k') (by omega) hC (by omega),
        layers_succ (k := k') (by omega) hC (by omega), ← hup, ih (k'+1) (by omega),
        hchild _ (by omega) (by omega)]
  have h := hafter k 0 (by omega)
  rwa [lastCell_zero hN, show l + 1 + k = depth by omega] at h

end

/-! Two trees that differ along a path. -/

/-- `On l` relates the two trees' nodes on the path to leaf `target` of layer `depth`. When a step
    keeps it towards the path and makes the other children equal, the trees are related on the
    path and equal off it. -/
theorem node_pair {child : Nat → Nat → α → α} {r r' : α} (On : Nat → α → α → Prop)
    {depth target : Nat} (hroot : On 0 r r')
    (hstep : ∀ l a b, l < depth → On l a b →
      let bit := target / 2^(depth - l - 1) % 2
      On (l+1) (child l bit a) (child l bit b) ∧ child l (1 - bit) a = child l (1 - bit) b)
    {l : Nat} (hl : l ≤ depth) (htarget : target < 2^depth) (m : Nat) (hm : m < 2^l) :
    (m = target / 2^(depth - l) → On l (node child r l m) (node child r' l m)) ∧
    (m ≠ target / 2^(depth - l) → node child r l m = node child r' l m) := by
  induction l generalizing m with
  | zero =>
    have h0 : m = 0 := by omega
    have ht : target / 2^(depth - 0) = 0 := Nat.div_eq_of_lt htarget
    rw [ht]
    exact ⟨fun _ => hroot, fun h => absurd h0 h⟩
  | succ l ih =>
    have hm' : m / 2 < 2^l := by
      rw [Nat.pow_succ] at hm
      omega
    obtain ⟨hon, hoff⟩ := ih (by omega) (m / 2) hm'
    have hk : depth - l = (depth - (l+1)) + 1 := by omega
    have hup : target / 2^(depth - l) = target / 2^(depth - (l+1)) / 2 := by
      rw [hk, Nat.pow_succ, Nat.div_div_eq_div_mul]
    have hk' : depth - l - 1 = depth - (l+1) := by omega
    rw [hup] at hon hoff
    simp only [node]
    -- a node off the path has a parent on it or off it
    by_cases hpar : m / 2 = target / 2^(depth - (l+1)) / 2
    · obtain ⟨hkeep, hlose⟩ := hstep l _ _ (by omega) (hon hpar)
      rw [hk'] at hkeep hlose
      refine ⟨?_, ?_⟩
      · intro h
        rw [h] at hkeep ⊢
        exact hkeep
      · intro h
        have hbit : m % 2 = 1 - target / 2^(depth - (l+1)) % 2 := by omega
        rw [hbit]
        exact hlose
    · refine ⟨fun h => absurd (congrArg (· / 2) h) hpar, ?_⟩
      intro _
      rw [hoff hpar]

end BinTree
