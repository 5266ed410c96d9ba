import Mathlib.Data.Set.Finite.Basic
import Mathlib.Data.Set.Finite.Lattice
import Mathlib.Logic.Relation

/-!
# Walks with a stack

A walk takes the node on top of its stack, visits it and puts what comes next to
it on the stack.  In a forest, where a node comes next to at most one other and a
weight grows from a node to the next, a walk with finitely many nodes below its
start ends and visits each of them once.

## Main definitions

* `Next next x y` — `y` comes next to `x`; `Below next x y` — `y` is at or below `x`.
* `Visits next stack out` — the walk from `stack` ends, having visited `out`.
* `Forest` — the parent is unique and a weight grows.
* `LossyVisits next stack out lost` — a walk that has lost some nodes on the way.

## Main results

* `Visits.mem_iff` — what is visited is what is at or below the stack.
* `Visits.nodup` — in a forest nothing is visited twice.
* `exists_visits` — the walk ends if finitely many nodes are below its start.
* `LossyVisits.mem_iff` — a lossy walk visits what is not at or below a node lost.
-/

variable {α : Type*} (next : α → List α)

/-- `y` comes next to `x`. -/
def Next (x y : α) : Prop := y ∈ next x

/-- `y` is `x` or comes some steps after it. -/
def Below (x y : α) : Prop := Relation.ReflTransGen (Next next) x y

/-- The walk from `stack`, the top first, ends and has then visited `out`, in order. -/
inductive Visits : List α → List α → Prop
  | nil : Visits [] []
  | cons {x : α} {stack out : List α} :
      Visits (next x ++ stack) out → Visits (x :: stack) (x :: out)

/-- A node comes next to at most one other, and the weight grows from a node to the
next. -/
structure Forest (weight : α → ℕ) : Prop where
  next_nodup : ∀ x, (next x).Nodup
  parent_unique : ∀ x x' y, Next next x y → Next next x' y → x = x'
  weight_lt : ∀ x y, Next next x y → weight x < weight y

variable {next} {weight : α → ℕ}

/-! ### What is visited -/

/-- A stack is walked one part after the other. -/
theorem Visits.append {stack stack' out out' : List α} (h : Visits next stack out)
    (h' : Visits next stack' out') : Visits next (stack ++ stack') (out ++ out') := by
  induction h with
  | nil => exact h'
  | @cons x stack out _ ih =>
    rw [List.append_assoc] at ih
    exact ih.cons

/-- **What is visited is what is at or below the stack.** -/
theorem Visits.mem_iff {stack out : List α} (h : Visits next stack out) (y : α) :
    y ∈ out ↔ ∃ x ∈ stack, Below next x y := by
  induction h with
  | nil => simp
  | @cons x stack out _ ih =>
    rw [List.mem_cons, ih]
    constructor
    · rintro (rfl | ⟨z, hz, hzy⟩)
      · exact ⟨y, List.mem_cons_self .., Relation.ReflTransGen.refl⟩
      · rcases List.mem_append.mp hz with hz | hz
        · exact ⟨x, List.mem_cons_self .., Relation.ReflTransGen.head hz hzy⟩
        · exact ⟨z, List.mem_cons_of_mem _ hz, hzy⟩
    · rintro ⟨z, hz, hzy⟩
      rcases List.mem_cons.mp hz with rfl | hz
      · rcases Relation.ReflTransGen.cases_head hzy with rfl | ⟨w, hw, hwy⟩
        · exact Or.inl rfl
        · exact Or.inr ⟨w, List.mem_append_left _ hw, hwy⟩
      · exact Or.inr ⟨z, List.mem_append_right _ hz, hzy⟩

/-! ### Walks end -/

/-- The walk from a node with no endless descent below it ends. -/
theorem exists_visits_of_acc {x : α} (h : Acc (fun y x => Next next x y) x) :
    ∃ out, Visits next [x] out := by
  induction h with
  | intro x _ ih =>
    have hnext : ∀ l : List α, (∀ y ∈ l, y ∈ next x) → ∃ out, Visits next l out := by
      intro l
      induction l with
      | nil => exact fun _ => ⟨[], .nil⟩
      | cons y l ihl =>
        intro hl
        obtain ⟨out, hout⟩ := ih y (hl y (List.mem_cons_self ..))
        obtain ⟨out', hout'⟩ := ihl fun z hz => hl z (List.mem_cons_of_mem _ hz)
        exact ⟨out ++ out', hout.append hout'⟩
    obtain ⟨out, hout⟩ := hnext (next x) fun _ hy => hy
    refine ⟨x :: out, .cons ?_⟩
    rwa [List.append_nil]

/-- Below a node with finitely many nodes below it there is no endless descent, if
the weight grows. -/
theorem acc_of_finite (hlt : ∀ x y, Next next x y → weight x < weight y) {x : α}
    (hfin : {y | Below next x y}.Finite) : Acc (fun y x => Next next x y) x := by
  obtain ⟨bound, hbound⟩ := (hfin.image weight).bddAbove
  have hle : ∀ y, Below next x y → weight y ≤ bound :=
    fun y hy => hbound (Set.mem_image_of_mem weight hy)
  -- induction on how far the weight is from the bound
  have hacc : ∀ d y, Below next x y → bound - weight y = d →
      Acc (fun y x => Next next x y) y := by
    intro d
    induction d using Nat.strong_induction_on with
    | _ d ih =>
      intro y hy hd
      refine ⟨y, ?_⟩
      intro z hz
      have hbelow : Below next x z := Relation.ReflTransGen.tail hy hz
      have hyz := hlt y z hz
      have hzle := hle z hbelow
      exact ih (bound - weight z) (by omega) z hbelow rfl
  exact hacc _ x Relation.ReflTransGen.refl rfl

/-- **A walk with finitely many nodes below its start ends.** -/
theorem exists_visits (hforest : Forest next weight) {x : α}
    (hfin : {y | Below next x y}.Finite) : ∃ out, Visits next [x] out :=
  exists_visits_of_acc (acc_of_finite hforest.weight_lt hfin)

/-! ### Nothing is visited twice -/

namespace Forest

theorem weight_le (h : Forest next weight) {x y : α} (hxy : Below next x y) :
    weight x ≤ weight y := by
  induction hxy with
  | refl => exact le_rfl
  | tail _ hstep ih => exact ih.trans (h.weight_lt _ _ hstep).le

/-- Of two nodes above a third, one is above the other. -/
theorem below_total (h : Forest next weight) {x y z : α} (hx : Below next x z)
    (hy : Below next y z) : Below next x y ∨ Below next y x := by
  have hunique : Relator.RightUnique (Function.swap (Next next)) :=
    fun b a c hab hcb => h.parent_unique a c b hab hcb
  rcases Relation.ReflTransGen.total_of_right_unique hunique
    (Relation.reflTransGen_swap.mpr hx) (Relation.reflTransGen_swap.mpr hy) with hxy | hyx
  · exact Or.inr (Relation.reflTransGen_swap.mp hxy)
  · exact Or.inl (Relation.reflTransGen_swap.mp hyx)

/-- No node that comes next to another is at or above a second one that does. -/
theorem not_below_sibling (h : Forest next weight) {x y z : α} (hy : Next next x y)
    (hz : Next next x z) (hne : y ≠ z) : ¬ Below next y z := by
  intro hyz
  rcases Relation.ReflTransGen.cases_tail hyz with rfl | ⟨w, hyw, hwz⟩
  · exact hne rfl
  · obtain rfl := h.parent_unique w x z hwz hz
    exact absurd (h.weight_le hyw) (Nat.not_le.mpr (h.weight_lt _ _ hy))

/-- What is below a node is below no other that comes next to the same one. -/
theorem disjoint_siblings (h : Forest next weight) {x y y' z : α} (hy : Next next x y)
    (hy' : Next next x y') (hne : y ≠ y') (hz : Below next y z) : ¬ Below next y' z := by
  intro hz'
  rcases h.below_total hz hz' with hyy | hyy
  · exact h.not_below_sibling hy hy' hne hyy
  · exact h.not_below_sibling hy' hy (Ne.symm hne) hyy

end Forest

/-- **In a forest nothing is visited twice**, if nothing is below two nodes of the
stack. -/
theorem Visits.nodup (hforest : Forest next weight) {stack out : List α}
    (h : Visits next stack out)
    (hdisj : stack.Pairwise fun x y => ∀ z, Below next x z → ¬ Below next y z) : out.Nodup := by
  induction h with
  | nil => exact List.nodup_nil
  | @cons x stack out hrest ih =>
    obtain ⟨hx, hstack⟩ := List.pairwise_cons.mp hdisj
    have hsiblings : (next x).Pairwise fun y z => ∀ w, Below next y w → ¬ Below next z w :=
      List.Pairwise.imp_of_mem (fun hy hz hne _ => hforest.disjoint_siblings hy hz hne)
        (hforest.next_nodup x)
    refine List.nodup_cons.mpr ⟨?_, ih (List.pairwise_append.mpr ⟨hsiblings, hstack,
      fun y hy z hz w hw => hx z hz w (Relation.ReflTransGen.head hy hw)⟩)⟩
    intro hmem
    -- the node is below none that comes next to it, and below none of the stack
    obtain ⟨z, hz, hzx⟩ := (hrest.mem_iff x).mp hmem
    rcases List.mem_append.mp hz with hz | hz
    · exact absurd (hforest.weight_le hzx) (Nat.not_le.mpr (hforest.weight_lt _ _ hz))
    · exact hx z hz x Relation.ReflTransGen.refl hzx

/-! ### Walks that lose nodes -/

/-- The walk from `stack` ends, having visited `out`, when the nodes `lost` did not get
on the stack. -/
inductive LossyVisits (next : α → List α) : List α → List α → List α → Prop
  | nil : LossyVisits next [] [] []
  | cons {x : α} {stack out lost kept gone : List α} (hsub : kept.Sublist (next x))
      (hperm : (kept ++ gone).Perm (next x)) :
      LossyVisits next (kept ++ stack) out lost →
      LossyVisits next (x :: stack) (x :: out) (gone ++ lost)

section Lossy

variable {stack out lost : List α}

/-- What is visited or lost is at or below the stack. -/
theorem LossyVisits.exists_below (h : LossyVisits next stack out lost) {y : α}
    (hy : y ∈ out ∨ y ∈ lost) : ∃ x ∈ stack, Below next x y := by
  induction h with
  | nil => simp at hy
  | @cons x stack out lost kept gone _ hperm _ ih =>
    have hrest : (y ∈ out ∨ y ∈ lost) → ∃ z ∈ x :: stack, Below next z y := by
      intro hy
      obtain ⟨z, hz, hzy⟩ := ih hy
      rcases List.mem_append.mp hz with hz | hz
      · have hxz : Next next x z := hperm.subset (List.mem_append_left _ hz)
        exact ⟨x, List.mem_cons_self .., Relation.ReflTransGen.head hxz hzy⟩
      · exact ⟨z, List.mem_cons_of_mem _ hz, hzy⟩
    rcases hy with hy | hy
    · rcases List.mem_cons.mp hy with rfl | hy
      · exact ⟨y, List.mem_cons_self .., Relation.ReflTransGen.refl⟩
      · exact hrest (Or.inl hy)
    · rcases List.mem_append.mp hy with hy | hy
      · exact ⟨x, List.mem_cons_self .., Relation.ReflTransGen.single
          (hperm.subset (List.mem_append_right _ hy))⟩
      · exact hrest (Or.inr hy)

/-- What is at or below the stack is visited, or at or below a node lost. -/
theorem LossyVisits.visited_or_lost (h : LossyVisits next stack out lost) {y : α}
    (hy : ∃ x ∈ stack, Below next x y) : y ∈ out ∨ ∃ l ∈ lost, Below next l y := by
  induction h with
  | nil => simp at hy
  | @cons x stack out lost kept gone _ hperm _ ih =>
    have hrest : (∃ z ∈ kept ++ stack, Below next z y) →
        y ∈ x :: out ∨ ∃ l ∈ gone ++ lost, Below next l y := fun hy =>
      (ih hy).imp (List.mem_cons_of_mem _)
        fun ⟨l, hl, hly⟩ => ⟨l, List.mem_append_right _ hl, hly⟩
    obtain ⟨z, hz, hzy⟩ := hy
    rcases List.mem_cons.mp hz with rfl | hz
    · rcases Relation.ReflTransGen.cases_head hzy with rfl | ⟨w, hw, hwy⟩
      · exact Or.inl (List.mem_cons_self ..)
      · rcases List.mem_append.mp (hperm.symm.subset hw) with hw | hw
        · exact hrest ⟨w, List.mem_append_left _ hw, hwy⟩
        · exact Or.inr ⟨w, List.mem_append_left _ hw, hwy⟩
    · exact hrest ⟨z, List.mem_append_right _ hz, hzy⟩

/-- The nodes kept of those next to a node, and the rest of the stack, have nothing in
common below them, and neither has a node lost. -/
theorem Forest.kept_disjoint (hforest : Forest next weight) {x : α} {kept gone : List α}
    (hperm : (kept ++ gone).Perm (next x))
    (hdisj : (x :: stack).Pairwise fun x y => ∀ z, Below next x z → ¬ Below next y z) :
    (kept ++ stack).Pairwise (fun x y => ∀ z, Below next x z → ¬ Below next y z) ∧
      (∀ g ∈ gone, ∀ y ∈ kept ++ stack, ∀ z, Below next g z → ¬ Below next y z) ∧
      ∀ y ∈ kept ++ stack, ¬ Below next y x := by
  obtain ⟨hx, hstack⟩ := List.pairwise_cons.mp hdisj
  have hnext : ∀ y ∈ kept ++ gone, Next next x y := fun y hy => hperm.subset hy
  have hnodup : (kept ++ gone).Nodup := hperm.nodup_iff.mpr (hforest.next_nodup x)
  obtain ⟨hkept, -, hapart⟩ := List.nodup_append.mp hnodup
  refine ⟨List.pairwise_append.mpr ⟨?_, hstack, ?_⟩, ?_, ?_⟩
  · exact hkept.imp_of_mem fun hy hz hne _ => hforest.disjoint_siblings
      (hnext _ (List.mem_append_left _ hy)) (hnext _ (List.mem_append_left _ hz)) hne
  · intro y hy z hz w hw
    exact hx z hz w (Relation.ReflTransGen.head (hnext y (List.mem_append_left _ hy)) hw)
  · intro g hg y hy z hgz
    have hxg := hnext g (List.mem_append_right _ hg)
    rcases List.mem_append.mp hy with hy | hy
    · exact hforest.disjoint_siblings hxg (hnext y (List.mem_append_left _ hy))
        (fun heq => hapart y hy g hg heq.symm) hgz
    · exact hx y hy z (Relation.ReflTransGen.head hxg hgz)
  · intro y hy hyx
    rcases List.mem_append.mp hy with hy | hy
    · exact absurd (hforest.weight_le hyx)
        (Nat.not_le.mpr (hforest.weight_lt _ _ (hnext y (List.mem_append_left _ hy))))
    · exact hx y hy x Relation.ReflTransGen.refl hyx

/-- In a forest nothing that is visited is at or below a node lost. -/
theorem LossyVisits.not_below_lost (hforest : Forest next weight)
    (h : LossyVisits next stack out lost)
    (hdisj : stack.Pairwise fun x y => ∀ z, Below next x z → ¬ Below next y z) {y l : α}
    (hy : y ∈ out) (hl : l ∈ lost) : ¬ Below next l y := by
  induction h with
  | nil => simp at hy
  | @cons x stack out lost kept gone _ hperm hrest ih =>
    obtain ⟨hdisj', hgone, hx⟩ := hforest.kept_disjoint hperm hdisj
    rcases List.mem_cons.mp hy with rfl | hy
    · rcases List.mem_append.mp hl with hl | hl
      · have hnext : Next next y l := hperm.subset (List.mem_append_right _ hl)
        exact fun hly => absurd (hforest.weight_le hly)
          (Nat.not_le.mpr (hforest.weight_lt _ _ hnext))
      · obtain ⟨z, hz, hzl⟩ := hrest.exists_below (Or.inr hl)
        intro hly
        exact hx z hz (hzl.trans hly)
    · rcases List.mem_append.mp hl with hl | hl
      · obtain ⟨z, hz, hzy⟩ := hrest.exists_below (Or.inl hy)
        intro hly
        exact hgone l hl z hz y hly hzy
      · exact ih hdisj' hy hl

/-- **A lossy walk visits what is at or below the stack, but for what is at or below a
node lost**, and nothing twice. -/
theorem LossyVisits.mem_iff (hforest : Forest next weight) (h : LossyVisits next stack out lost)
    (hdisj : stack.Pairwise fun x y => ∀ z, Below next x z → ¬ Below next y z) (y : α) :
    y ∈ out ↔ (∃ x ∈ stack, Below next x y) ∧ ∀ l ∈ lost, ¬ Below next l y := by
  refine ⟨fun hy => ⟨h.exists_below (Or.inl hy), ?_⟩, ?_⟩
  · intro l hl
    exact h.not_below_lost hforest hdisj hy hl
  rintro ⟨hbelow, hnone⟩
  rcases h.visited_or_lost hbelow with hy | ⟨l, hl, hly⟩
  · exact hy
  · exact absurd hly (hnone l hl)

theorem LossyVisits.nodup (hforest : Forest next weight) (h : LossyVisits next stack out lost)
    (hdisj : stack.Pairwise fun x y => ∀ z, Below next x z → ¬ Below next y z) : out.Nodup := by
  induction h with
  | nil => exact List.nodup_nil
  | @cons x stack out lost kept gone _ hperm hrest ih =>
    obtain ⟨hdisj', -, hx⟩ := hforest.kept_disjoint hperm hdisj
    refine List.nodup_cons.mpr ⟨?_, ih hdisj'⟩
    intro hmem
    obtain ⟨z, hz, hzx⟩ := hrest.exists_below (Or.inl hmem)
    exact hx z hz hzx

end Lossy
