import Mathlib.Algebra.Order.Group.Multiset
import Mathlib.Data.Multiset.Range
import Mathlib.Logic.Equiv.Basic
import Mathlib.Order.Basic
import Mathlib.Tactic.Common

/-!
# Binary min-heaps

A heap of `n` elements lies in the first `n` places of an array; the children of
place `i` are at `2 * i + 1` and `2 * i + 2`.  Here the array is a function on
positions, so that nothing has to be said about its bounds, and the elements are
compared by a key in a linear order, ties being left open.

## Main definitions

* `contents f n` — the multiset of the first `n` elements.
* `HeapOrder key f n` — no element has a smaller key than its parent.
* `siftUp`, `siftDown` — moving one element up or down to where it belongs.
* `UpOrder`, `DownOrder` — the heap order, but for the element being moved.

## Main results

* `HeapOrder.root_le` — the root has the smallest key.
* `siftUp_order`, `siftDown_order`, `siftUp_contents`, `siftDown_contents` —
  moving the element restores the order and loses nothing.
* `push_order`, `push_contents`, `pop_order`, `pop_contents` — insertion and removal.
-/

namespace MinHeap

variable {ε κ : Type*} [LinearOrder κ]

/-! ### Exchanging two elements -/

/-- The array with two places exchanged. -/
def exchange (f : ℕ → ε) (i j : ℕ) : ℕ → ε := f ∘ Equiv.swap i j

@[simp] theorem exchange_left (f : ℕ → ε) (i j : ℕ) : exchange f i j i = f j := by
  simp [exchange]

@[simp] theorem exchange_right (f : ℕ → ε) (i j : ℕ) : exchange f i j j = f i := by
  simp [exchange]

theorem exchange_of_ne (f : ℕ → ε) {i j k : ℕ} (hi : k ≠ i) (hj : k ≠ j) :
    exchange f i j k = f k := by
  simp [exchange, Equiv.swap_apply_of_ne_of_ne hi hj]

/-- The first `n` elements. -/
def contents (f : ℕ → ε) (n : ℕ) : Multiset ε := (Multiset.range n).map f

theorem contents_succ (f : ℕ → ε) (n : ℕ) : contents f (n + 1) = f n ::ₘ contents f n := by
  simp [contents]

theorem mem_contents {f : ℕ → ε} {n : ℕ} {x : ε} : x ∈ contents f n ↔ ∃ i < n, f i = x := by
  simp [contents]

theorem contents_congr {f g : ℕ → ε} {n : ℕ} (h : ∀ i < n, f i = g i) :
    contents f n = contents g n :=
  Multiset.map_congr rfl fun i hi => h i (Multiset.mem_range.mp hi)

theorem contents_exchange (f : ℕ → ε) {n i j : ℕ} (hi : i < n) (hj : j < n) :
    contents (exchange f i j) n = contents f n := by
  -- exchanging two positions below `n` permutes the positions below `n`
  have hrange : (Multiset.range n).map (Equiv.swap i j) = Multiset.range n := by
    apply (Multiset.Nodup.ext ((Multiset.nodup_range n).map (Equiv.injective _))
      (Multiset.nodup_range n)).mpr
    intro k
    rw [Multiset.mem_map, Multiset.mem_range]
    constructor
    · rintro ⟨m, hm, rfl⟩
      rw [Multiset.mem_range] at hm
      by_cases hmi : m = i
      · rw [hmi, Equiv.swap_apply_left]
        exact hj
      · by_cases hmj : m = j
        · rw [hmj, Equiv.swap_apply_right]
          exact hi
        · rwa [Equiv.swap_apply_of_ne_of_ne hmi hmj]
    · intro hk
      refine ⟨Equiv.swap i j k, ?_, Equiv.swap_apply_self i j k⟩
      rw [Multiset.mem_range]
      by_cases hki : k = i
      · rwa [hki, Equiv.swap_apply_left]
      · by_cases hkj : k = j
        · rwa [hkj, Equiv.swap_apply_right]
        · rwa [Equiv.swap_apply_of_ne_of_ne hki hkj]
  rw [contents, exchange, ← Multiset.map_map, hrange, contents]

/-! ### The heap order -/

variable (key : ε → κ)

/-- No element has a smaller key than its parent. -/
def HeapOrder (f : ℕ → ε) (n : ℕ) : Prop :=
  ∀ i, 0 < i → i < n → key (f ((i - 1) / 2)) ≤ key (f i)

variable {key}

/-- **The root has the smallest key.** -/
theorem HeapOrder.root_le {f : ℕ → ε} {n : ℕ} (h : HeapOrder key f n) :
    ∀ i < n, key (f 0) ≤ key (f i) := by
  intro i
  induction i using Nat.strong_induction_on with
  | _ i ih =>
    intro hi
    by_cases h0 : i = 0
    · rw [h0]
    · have hparent : (i - 1) / 2 < i := by omega
      exact (ih _ hparent (hparent.trans hi)).trans (h i (Nat.pos_of_ne_zero h0) hi)

theorem HeapOrder.root_le_contents {f : ℕ → ε} {n : ℕ} (h : HeapOrder key f n) {x : ε}
    (hx : x ∈ contents f n) : key (f 0) ≤ key x := by
  obtain ⟨i, hi, rfl⟩ := mem_contents.mp hx
  exact h.root_le i hi

/-! ### Moving an element up -/

variable (key)

/-- The element at `i` moves up while its key is below its parent's. -/
def siftUp (f : ℕ → ε) (i : ℕ) : ℕ → ε :=
  if i = 0 then f
  else if key (f i) < key (f ((i - 1) / 2)) then
    siftUp (exchange f ((i - 1) / 2) i) ((i - 1) / 2)
  else f
termination_by i

/-- The heap order, but for the element at `i`, which may be too small. -/
structure UpOrder (f : ℕ → ε) (n i : ℕ) : Prop where
  off : ∀ j, 0 < j → j < n → j ≠ i → key (f ((j - 1) / 2)) ≤ key (f j)
  skip : ∀ j, 0 < j → j < n → (j - 1) / 2 = i → 0 < i → key (f ((i - 1) / 2)) ≤ key (f j)

variable {key}

theorem UpOrder.of_parent_le {f : ℕ → ε} {n i : ℕ} (h : UpOrder key f n i)
    (hi : 0 < i → key (f ((i - 1) / 2)) ≤ key (f i)) : HeapOrder key f n := by
  intro j h0 hj
  by_cases hji : j = i
  · rw [hji]
    exact hi (hji ▸ h0)
  · exact h.off j h0 hj hji

/-- One exchange moves the place that may be too small up to the parent. -/
theorem UpOrder.exchange {f : ℕ → ε} {n i : ℕ} (h : UpOrder key f n i) (h0 : 0 < i)
    (hi : i < n) (hlt : key (f i) < key (f ((i - 1) / 2))) :
    UpOrder key (exchange f ((i - 1) / 2) i) n ((i - 1) / 2) := by
  generalize hp : (i - 1) / 2 = p at hlt ⊢
  have hpi : p < i := by omega
  constructor
  · intro j hj0 hjn hjp
    by_cases hji : j = i
    · subst hji
      rw [hp, exchange_left, exchange_right]
      exact hlt.le
    · have hold := h.off j hj0 hjn hji
      rw [exchange_of_ne f hjp hji]
      by_cases hparent : (j - 1) / 2 = p
      · -- a sibling of the element moved
        rw [hparent, exchange_left]
        rw [hparent] at hold
        exact hlt.le.trans hold
      · by_cases hchild : (j - 1) / 2 = i
        · rw [hchild, exchange_right, ← hp]
          exact h.skip j hj0 hjn hchild h0
        · rwa [exchange_of_ne f hparent hchild]
  · intro j hj0 hjn hjp hp0
    have hgrand : key (f ((p - 1) / 2)) ≤ key (f p) := h.off p hp0 (hpi.trans hi) hpi.ne
    rw [exchange_of_ne f (by omega) (by omega)]
    by_cases hji : j = i
    · rwa [hji, exchange_right]
    · have hold := h.off j hj0 hjn hji
      rw [exchange_of_ne f (by omega) hji]
      rw [hjp] at hold
      exact hgrand.trans hold

theorem siftUp_order {f : ℕ → ε} {n i : ℕ} (hi : i < n) (h : UpOrder key f n i) :
    HeapOrder key (siftUp key f i) n := by
  induction i using Nat.strong_induction_on generalizing f with
  | _ i ih =>
    rw [siftUp]
    split
    · next h0 => exact h.of_parent_le fun hpos => absurd h0 hpos.ne'
    · next h0 =>
      split
      · next hlt =>
        have hparent : (i - 1) / 2 < i := by omega
        exact ih _ hparent (hparent.trans hi) (h.exchange (Nat.pos_of_ne_zero h0) hi hlt)
      · next hlt => exact h.of_parent_le fun _ => not_lt.mp hlt

theorem siftUp_contents (f : ℕ → ε) {n i : ℕ} (hi : i < n) :
    contents (siftUp key f i) n = contents f n := by
  induction i using Nat.strong_induction_on generalizing f with
  | _ i ih =>
    rw [siftUp]
    split
    · rfl
    · split
      · have hparent : (i - 1) / 2 < i := by omega
        rw [ih _ hparent _ (hparent.trans hi), contents_exchange f (hparent.trans hi) hi]
      · rfl

/-! ### Moving an element down -/

variable (key)

/-- `c`, if it is the place of an element with a smaller key than the one at `m`;
otherwise `m`. -/
def smaller (f : ℕ → ε) (n c m : ℕ) : ℕ := if c < n ∧ key (f c) < key (f m) then c else m

/-- The place of the smallest of the element at `i` and its children. -/
def smallest (f : ℕ → ε) (n i : ℕ) : ℕ :=
  smaller key f n (i * 2 + 2) (smaller key f n (i * 2 + 1) i)

theorem smaller_cases (f : ℕ → ε) (n c m : ℕ) :
    smaller key f n c m = m ∨
      (smaller key f n c m = c ∧ c < n ∧ key (f c) < key (f m)) := by
  unfold smaller
  split
  · next h => exact Or.inr ⟨rfl, h⟩
  · exact Or.inl rfl

theorem smallest_cases (f : ℕ → ε) (n i : ℕ) :
    smallest key f n i = i ∨
      (smallest key f n i < n ∧ (smallest key f n i - 1) / 2 = i ∧ i < smallest key f n i ∧
        key (f (smallest key f n i)) < key (f i)) := by
  unfold smallest
  rcases smaller_cases key f n (i * 2 + 1) i with hl | ⟨hl, hln, hlt⟩
  · rcases smaller_cases key f n (i * 2 + 2) i with hr | ⟨hr, hrn, hrt⟩
    · rw [hl, hr]
      exact Or.inl rfl
    · rw [hl, hr]
      exact Or.inr ⟨hrn, by omega, by omega, hrt⟩
  · rcases smaller_cases key f n (i * 2 + 2) (i * 2 + 1) with hr | ⟨hr, hrn, hrt⟩
    · rw [hl, hr]
      exact Or.inr ⟨hln, by omega, by omega, hlt⟩
    · rw [hl, hr]
      exact Or.inr ⟨hrn, by omega, by omega, hrt.trans hlt⟩

theorem smallest_le_child {f : ℕ → ε} {n i j : ℕ} (hj : j < n) (h0 : 0 < j)
    (hparent : (j - 1) / 2 = i) : key (f (smallest key f n i)) ≤ key (f j) := by
  have hchild : j = i * 2 + 1 ∨ j = i * 2 + 2 := by omega
  have hleft : j = i * 2 + 1 → key (f (smaller key f n (i * 2 + 1) i)) ≤ key (f j) := by
    intro he
    unfold smaller
    split
    · rw [he]
    · next hl => exact not_lt.mp fun hlt => hl ⟨he ▸ hj, he ▸ hlt⟩
  unfold smallest
  rw [smaller]
  split
  · next hr =>
    rcases hchild with he | he
    · exact hr.2.le.trans (hleft he)
    · rw [he]
  · next hr =>
    rcases hchild with he | he
    · exact hleft he
    · exact not_lt.mp fun hlt => hr ⟨he ▸ hj, he ▸ hlt⟩

/-- The element at `i` moves down while a child has a smaller key. -/
def siftDown (f : ℕ → ε) (n i : ℕ) : ℕ → ε :=
  if _h : smallest key f n i = i then f
  else siftDown (exchange f (smallest key f n i) i) n (smallest key f n i)
termination_by n - i
decreasing_by
  rcases smallest_cases key f n i with he | ⟨hlt, -, hgt, -⟩
  · exact absurd he _h
  · omega

/-- The heap order, but for the element at `i`, which may be too big. -/
structure DownOrder (f : ℕ → ε) (n i : ℕ) : Prop where
  off : ∀ j, 0 < j → j < n → (j - 1) / 2 ≠ i → key (f ((j - 1) / 2)) ≤ key (f j)
  skip : ∀ j, 0 < j → j < n → (j - 1) / 2 = i → 0 < i → key (f ((i - 1) / 2)) ≤ key (f j)

variable {key}

/-- One exchange moves the place that may be too big down to the smaller child. -/
theorem DownOrder.exchange {f : ℕ → ε} {n i : ℕ} (h : DownOrder key f n i)
    (hne : smallest key f n i ≠ i) :
    DownOrder key (exchange f (smallest key f n i) i) n (smallest key f n i) := by
  have hmin := fun j => smallest_le_child key (f := f) (n := n) (i := i) (j := j)
  rcases smallest_cases key f n i with he | ⟨hm, hparent, him, hlt⟩
  · exact absurd he hne
  generalize smallest key f n i = m at hmin hm hparent him hlt ⊢
  constructor
  · intro j hj0 hjn hjm
    by_cases hji : (j - 1) / 2 = i
    · -- the other child, or the element moved up
      rw [hji, exchange_right]
      by_cases hj : j = m
      · rw [hj, exchange_left]
        exact hlt.le
      · rw [exchange_of_ne f hj (by omega)]
        exact hmin j hjn hj0 hji
    · rw [exchange_of_ne f hjm hji]
      by_cases hj : j = i
      · subst hj
        rw [exchange_right]
        exact h.skip m (by omega) hm hparent (by omega)
      · rw [exchange_of_ne f (by omega) hj]
        exact h.off j hj0 hjn hji
  · intro j hj0 hjn hjm hm0
    rw [hparent, exchange_right, exchange_of_ne f (by omega) (by omega)]
    have hold := h.off j hj0 hjn (by omega)
    rwa [hjm] at hold

theorem siftDown_order {f : ℕ → ε} {n i : ℕ} (h : DownOrder key f n i) :
    HeapOrder key (siftDown key f n i) n := by
  induction hd : n - i using Nat.strong_induction_on generalizing f i with
  | _ d ih =>
    rw [siftDown]
    split
    · next hself =>
      intro j h0 hj
      by_cases hparent : (j - 1) / 2 = i
      · have hmin := smallest_le_child key (f := f) hj h0 hparent
        rwa [hself, ← hparent] at hmin
      · exact h.off j h0 hj hparent
    · next hself =>
      rcases smallest_cases key f n i with he | ⟨hlt, -, hgt, -⟩
      · exact absurd he hself
      · exact ih _ (by omega) (h.exchange hself) rfl

theorem siftDown_contents (f : ℕ → ε) (n i : ℕ) :
    contents (siftDown key f n i) n = contents f n := by
  induction hd : n - i using Nat.strong_induction_on generalizing f i with
  | _ d ih =>
    rw [siftDown]
    split
    · rfl
    · next hself =>
      rcases smallest_cases key f n i with he | ⟨hlt, -, hgt, -⟩
      · exact absurd he hself
      · rw [ih _ (by omega) _ _ rfl, contents_exchange f hlt (hgt.trans hlt)]

/-! ### Insertion and removal -/

variable (key)

/-- The heap of `n` elements with one more. -/
def push (f : ℕ → ε) (n : ℕ) (e : ε) : ℕ → ε := siftUp key (Function.update f n e) n

/-- The heap of `n + 1` elements without its root. -/
def pop (f : ℕ → ε) (n : ℕ) : ℕ → ε := siftDown key (Function.update f 0 (f n)) n 0

variable {key}

theorem contents_update (f : ℕ → ε) (n : ℕ) (e : ε) :
    contents (Function.update f n e) n = contents f n :=
  contents_congr fun _ hi => Function.update_of_ne hi.ne _ _

variable (key) in
theorem push_contents (f : ℕ → ε) (n : ℕ) (e : ε) :
    contents (push key f n e) (n + 1) = e ::ₘ contents f n := by
  rw [push, siftUp_contents _ (Nat.lt_succ_self n), contents_succ, Function.update_self,
    contents_update]

theorem push_order {f : ℕ → ε} {n : ℕ} (h : HeapOrder key f n) (e : ε) :
    HeapOrder key (push key f n e) (n + 1) := by
  refine siftUp_order (Nat.lt_succ_self n) ⟨?_, ?_⟩
  · intro j h0 hj hjn
    rw [Function.update_of_ne (by omega), Function.update_of_ne hjn]
    exact h j h0 (by omega)
  · intro j h0 hj hparent hn
    omega

variable (key) in
/-- What removal leaves is the contents without the root. -/
theorem pop_contents (f : ℕ → ε) (n : ℕ) :
    f 0 ::ₘ contents (pop key f n) n = contents f (n + 1) := by
  rw [pop, siftDown_contents, contents_succ]
  cases n with
  | zero => rfl
  | succ n =>
    -- the last element takes the root's place
    have hrest : ∀ g : ℕ → ε, contents g (n + 1)
        = g 0 ::ₘ contents (fun i => g (i + 1)) n := by
      intro g
      induction n with
      | zero => rfl
      | succ n ih => rw [contents_succ, ih, Multiset.cons_swap, contents_succ]
    rw [hrest, hrest f, Function.update_self, Multiset.cons_swap]
    congr 2

theorem pop_order {f : ℕ → ε} {n : ℕ} (h : HeapOrder key f (n + 1)) :
    HeapOrder key (pop key f n) n := by
  refine siftDown_order ⟨?_, ?_⟩
  · intro j h0 hj hparent
    rw [Function.update_of_ne hparent, Function.update_of_ne h0.ne']
    exact h j h0 (by omega)
  · intro j h0 hj hparent hn
    exact absurd hn (lt_irrefl 0)

end MinHeap
