import Mathlib.Data.List.Count
import Mathlib.Data.List.MinMax
import Mathlib.Data.List.Nodup

/-!
# One element for each of the first keys

A table with room for `cap` keys remembers the first keys that come.  Of the
elements with a key that it remembers only the one of greatest rank is kept, the
earliest of equal ones, in the place of the first of them; the elements with other
keys are all kept.

## Main definitions

* `firstKeys key cap L` — the first `cap` different keys.
* `bestOf key rank L k` — the element of greatest rank with the key.
* `kept key rank cap L` — what is kept, in order.

## Main results

* `firstKeys_snoc`, `kept_snoc_of_mem`, `kept_snoc_of_notMem` — one more element.
* `count_kept` — how many elements of each key are kept.
* `nodup_kept_iff` — when one of each key is kept.
-/

variable {γ κ : Type*} [DecidableEq κ] (key : γ → κ) (rank : γ → ℕ) (cap : ℕ)

/-- The first `cap` different keys. -/
def firstKeys (L : List γ) : List κ := (L.map key).eraseDups.take cap

/-- The element of greatest rank with key `k`, the earliest of equal ones. -/
def bestOf (L : List γ) (k : κ) : Option γ := (L.filter fun x => key x = k).argmax rank

/-- What is kept in the place of element `i`. -/
def keptAt (L : List γ) (i : ℕ) : Option γ := do
  let x ← L[i]?
  if key x ∈ firstKeys key cap L then
    if key x ∈ (L.take i).map key then none else bestOf key rank L (key x)
  else some x

/-- What is kept, in order. -/
def kept (L : List γ) : List γ := (List.range L.length).filterMap (keptAt key rank cap L)

variable {key rank cap}

/-! ### The first keys -/

theorem mem_map_of_mem_firstKeys {L : List γ} {k : κ} (h : k ∈ firstKeys key cap L) :
    k ∈ L.map key :=
  List.mem_eraseDups.mp (List.mem_of_mem_take h)

/-- A table with room to spare has every key. -/
theorem mem_firstKeys_of_length_lt {L : List γ} {k : κ} (hk : k ∈ L.map key)
    (hlen : (firstKeys key cap L).length < cap) : k ∈ firstKeys key cap L := by
  unfold firstKeys at hlen ⊢
  rw [List.length_take] at hlen
  rw [List.take_of_length_le (by omega)]
  exact List.mem_eraseDups.mpr hk

/-- **One more element** adds its key if that is new and there is room. -/
theorem firstKeys_snoc (L : List γ) (c : γ) : firstKeys key cap (L ++ [c])
    = if key c ∈ firstKeys key cap L ∨ cap ≤ (firstKeys key cap L).length
      then firstKeys key cap L else firstKeys key cap L ++ [key c] := by
  have hdups : (((L ++ [c]).map key)).eraseDups = (L.map key).eraseDups ++
      if key c ∈ L.map key then [] else [key c] := by
    rw [List.map_append, List.map_singleton, List.eraseDups_append]
    generalize L.map key = keys
    by_cases hc : key c ∈ keys
    · simp [List.removeAll, hc]
    · simp [List.removeAll, hc, List.eraseDups_cons]
  by_cases hc : key c ∈ L.map key
  · have hsame : firstKeys key cap (L ++ [c]) = firstKeys key cap L := by
      rw [firstKeys, hdups, if_pos hc, List.append_nil, firstKeys]
    rw [hsame, if_pos]
    by_cases hlen : cap ≤ (firstKeys key cap L).length
    · exact Or.inr hlen
    · exact Or.inl (mem_firstKeys_of_length_lt hc (Nat.not_le.mp hlen))
  · have hnot : key c ∉ firstKeys key cap L := fun h => hc (mem_map_of_mem_firstKeys h)
    simp only [hnot, false_or]
    rw [firstKeys, hdups, if_neg hc]
    unfold firstKeys
    rw [List.length_take]
    by_cases hlen : cap ≤ (L.map key).eraseDups.length
    · rw [if_pos (by omega), List.take_append_of_le_length hlen]
    · rw [if_neg (by omega), List.take_of_length_le (by simp; omega),
        List.take_of_length_le (by omega)]

theorem mem_firstKeys_snoc {L : List γ} {k : κ} (c : γ) (h : k ∈ firstKeys key cap L) :
    k ∈ firstKeys key cap (L ++ [c]) := by
  rw [firstKeys_snoc]
  split
  · exact h
  · exact List.mem_append_left _ h

/-- Whether a key that has come is remembered is settled. -/
theorem mem_firstKeys_snoc_iff {L : List γ} {k : κ} (c : γ) (hk : k ∈ L.map key) :
    k ∈ firstKeys key cap (L ++ [c]) ↔ k ∈ firstKeys key cap L := by
  refine ⟨?_, mem_firstKeys_snoc c⟩
  intro h
  rw [firstKeys_snoc] at h
  split at h
  · exact h
  · next hroom =>
    rw [not_or] at hroom
    exact mem_firstKeys_of_length_lt hk (Nat.not_le.mp hroom.2)

/-- Different keys that fill the table are the ones it remembers. -/
theorem firstKeys_append {L : List γ} (hnodup : (L.map key).Nodup) (hlen : L.length = cap)
    (M : List γ) : firstKeys key cap (L ++ M) = L.map key := by
  have hall : firstKeys key cap L = L.map key := by
    have hdups : ∀ l : List κ, l.Nodup → l.eraseDups = l := by
      intro l
      induction l with
      | nil => simp
      | cons k l ih =>
        intro hl
        rw [List.nodup_cons] at hl
        rw [List.eraseDups_cons, List.filter_eq_self.mpr, ih hl.2]
        intro x hx
        have hne : x ≠ k := fun h => hl.1 (h ▸ hx)
        simpa using hne
    rw [firstKeys, hdups _ hnodup, List.take_of_length_le (by simp [hlen])]
  induction M using List.reverseRecOn with
  | nil => rw [List.append_nil, hall]
  | append_singleton M c ih =>
    rw [← List.append_assoc, firstKeys_snoc, ih, if_pos (Or.inr (by simp [hlen]))]

/-! ### The best element -/

theorem bestOf_eq_some {L : List γ} {k : κ} {b : γ} (h : bestOf key rank L k = some b) :
    b ∈ L ∧ key b = k := by
  have hmem := List.argmax_mem h
  rw [List.mem_filter, decide_eq_true_eq] at hmem
  exact hmem

variable (rank) in
theorem exists_bestOf {L : List γ} {k : κ} (h : k ∈ L.map key) :
    ∃ b, bestOf key rank L k = some b := by
  rw [← Option.isSome_iff_exists, Option.isSome_iff_ne_none]
  intro hnone
  rw [bestOf, List.argmax_eq_none, List.filter_eq_nil_iff] at hnone
  obtain ⟨x, hx, rfl⟩ := List.mem_map.mp h
  exact hnone x hx (by simp)

theorem bestOf_snoc_of_ne {L : List γ} {c : γ} {k : κ} (h : key c ≠ k) :
    bestOf key rank (L ++ [c]) k = bestOf key rank L k := by
  simp [bestOf, List.filter_append, h]

/-- One more element of the key is the best if its rank is greater. -/
theorem bestOf_snoc (L : List γ) (c : γ) : bestOf key rank (L ++ [c]) (key c)
    = some ((bestOf key rank L (key c)).elim c fun b => if rank b < rank c then c else b) := by
  have hfilter : (L ++ [c]).filter (fun x => key x = key c)
      = L.filter (fun x => key x = key c) ++ [c] := by
    simp [List.filter_append]
  rw [bestOf, hfilter, List.argmax_concat, bestOf]
  cases (L.filter fun x => key x = key c).argmax rank with
  | none => rfl
  | some b =>
    simp only [Option.elim_some]
    split <;> rfl

/-- An element that is no better than the best of its key is the best of none. -/
theorem bestOf_snoc_of_le {L : List γ} {c b : γ} (hb : bestOf key rank L (key c) = some b)
    (hle : rank c ≤ rank b) (k : κ) : bestOf key rank (L ++ [c]) k = bestOf key rank L k := by
  by_cases hk : key c = k
  · rw [← hk, bestOf_snoc, hb, Option.elim_some, if_neg (Nat.not_lt.mpr hle)]
  · exact bestOf_snoc_of_ne hk

theorem bestOf_eq_none {L : List γ} {k : κ} (h : k ∉ L.map key) : bestOf key rank L k = none := by
  cases hbest : bestOf key rank L k with
  | none => rfl
  | some b =>
    obtain ⟨hb, hkey⟩ := bestOf_eq_some hbest
    exact absurd (hkey ▸ List.mem_map_of_mem hb) h

/-- The first element of a key is the best. -/
theorem bestOf_snoc_of_notMem {L : List γ} {c : γ} (hc : key c ∉ L.map key) :
    bestOf key rank (L ++ [c]) (key c) = some c := by
  rw [bestOf_snoc, bestOf_eq_none hc, Option.elim_none]

/-- An element better than the best of its key is the best. -/
theorem bestOf_snoc_of_lt {L : List γ} {c b : γ} (hb : bestOf key rank L (key c) = some b)
    (hlt : rank b < rank c) : bestOf key rank (L ++ [c]) (key c) = some c := by
  rw [bestOf_snoc, hb, Option.elim_some, if_pos hlt]

/-! ### What is kept -/

/-- What is kept in the place of an element that was there before. -/
theorem keptAt_snoc {L : List γ} {i : ℕ} (hi : i < L.length) (c : γ) :
    keptAt key rank cap (L ++ [c]) i
      = if key L[i] ∈ firstKeys key cap L then
          if key L[i] ∈ (L.take i).map key then none else bestOf key rank (L ++ [c]) (key L[i])
        else some L[i] := by
  have hget : (L ++ [c])[i]? = some L[i] := by
    rw [List.getElem?_append_left hi, List.getElem?_eq_getElem hi]
  rw [keptAt, hget, List.take_append_of_le_length hi.le]
  simp only [Option.bind_eq_bind, Option.bind_some,
    mem_firstKeys_snoc_iff c (List.mem_map_of_mem (List.getElem_mem hi))]

theorem keptAt_eq {L : List γ} {i : ℕ} (hi : i < L.length) : keptAt key rank cap L i
    = if key L[i] ∈ firstKeys key cap L then
        if key L[i] ∈ (L.take i).map key then none else bestOf key rank L (key L[i])
      else some L[i] := by
  rw [keptAt, List.getElem?_eq_getElem hi]
  rfl

theorem kept_snoc (L : List γ) (c : γ) : kept key rank cap (L ++ [c])
    = (List.range L.length).filterMap (keptAt key rank cap (L ++ [c]))
      ++ (keptAt key rank cap (L ++ [c]) L.length).toList := by
  rw [kept, List.length_append, List.length_singleton, List.range_succ, List.filterMap_append]
  congr 1

/-- **An element with a key that is not remembered is added.** -/
theorem kept_snoc_of_notMem {L : List γ} {c : γ} (hc : key c ∉ firstKeys key cap L) :
    kept key rank cap (L ++ [c]) = kept key rank cap L ++ [c] := by
  have hbefore : ∀ i ∈ List.range L.length,
      keptAt key rank cap (L ++ [c]) i = keptAt key rank cap L i := by
    intro i hi
    have hi := List.mem_range.mp hi
    rw [keptAt_snoc hi, keptAt_eq hi]
    by_cases hmem : key L[i] ∈ firstKeys key cap L
    · have hne : key c ≠ key L[i] := fun heq => hc (by rwa [heq])
      rw [bestOf_snoc_of_ne hne]
    · rw [if_neg hmem, if_neg hmem]
  have hlast : keptAt key rank cap (L ++ [c]) L.length = some c := by
    have hget : (L ++ [c])[L.length]? = some c := by simp
    rw [keptAt, hget, List.take_left]
    simp only [Option.bind_eq_bind, Option.bind_some]
    split
    · next hnew =>
      -- the key is remembered only now, so it has not come before
      have hfirst : key c ∉ L.map key := fun h => hc ((mem_firstKeys_snoc_iff c h).mp hnew)
      rw [if_neg hfirst, bestOf_snoc_of_notMem hfirst]
    · rfl
  rw [kept_snoc, hlast, List.filterMap_congr hbefore]
  rfl

/-- **An element with a key that is remembered takes the place of the one kept**, if
it is better. -/
theorem kept_snoc_of_mem {L : List γ} {c : γ} (hc : key c ∈ firstKeys key cap L) :
    kept key rank cap (L ++ [c]) = (kept key rank cap L).map fun x =>
      if key x = key c then (bestOf key rank (L ++ [c]) (key c)).getD x else x := by
  have hbefore : ∀ i ∈ List.range L.length, keptAt key rank cap (L ++ [c]) i
      = (keptAt key rank cap L i).map fun x =>
        if key x = key c then (bestOf key rank (L ++ [c]) (key c)).getD x else x := by
    intro i hi
    have hi := List.mem_range.mp hi
    rw [keptAt_snoc hi, keptAt_eq hi]
    by_cases hmem : key L[i] ∈ firstKeys key cap L
    · rw [if_pos hmem, if_pos hmem]
      split
      · rfl
      · obtain ⟨b, hb⟩ := exists_bestOf rank (mem_map_of_mem_firstKeys hmem)
        have hkey := (bestOf_eq_some hb).2
        rw [hb, Option.map_some]
        by_cases heq : key L[i] = key c
        · rw [heq, bestOf_snoc, if_pos (hkey.trans heq), Option.getD_some]
        · rw [bestOf_snoc_of_ne (Ne.symm heq), hb, if_neg (hkey.symm ▸ heq)]
    · have hne : key L[i] ≠ key c := fun heq => hmem (heq ▸ hc)
      rw [if_neg hmem, if_neg hmem, Option.map_some, if_neg hne]
  have hlast : keptAt key rank cap (L ++ [c]) L.length = none := by
    have hget : (L ++ [c])[L.length]? = some c := by simp
    rw [keptAt, hget, List.take_left]
    simp only [Option.bind_eq_bind, Option.bind_some]
    rw [if_pos (mem_firstKeys_snoc c hc), if_pos (mem_map_of_mem_firstKeys hc)]
  rw [kept_snoc, hlast, List.filterMap_congr hbefore, ← List.map_filterMap, kept]
  simp

theorem mem_of_mem_kept {L : List γ} {x : γ} (hx : x ∈ kept key rank cap L) : x ∈ L := by
  obtain ⟨i, hi, hat⟩ := List.mem_filterMap.mp hx
  rw [keptAt_eq (List.mem_range.mp hi)] at hat
  split at hat
  · split at hat
    · cases hat
    · exact (bestOf_eq_some hat).1
  · obtain rfl := Option.some.inj hat
    exact List.getElem_mem _

/-- Of the elements with a key that is remembered the best is kept. -/
theorem bestOf_of_mem_kept {L : List γ} {x : γ} (hx : x ∈ kept key rank cap L)
    (hkey : key x ∈ firstKeys key cap L) : bestOf key rank L (key x) = some x := by
  obtain ⟨i, hi, hat⟩ := List.mem_filterMap.mp hx
  rw [keptAt_eq (List.mem_range.mp hi)] at hat
  split at hat
  · split at hat
    · cases hat
    · rwa [(bestOf_eq_some hat).2]
  · next hnot =>
    obtain rfl := Option.some.inj hat
    exact absurd hkey hnot

/-! ### How many elements of a key are kept -/

/-- The keys of what is kept, after one more element. -/
theorem map_kept_snoc (L : List γ) (c : γ) : (kept key rank cap (L ++ [c])).map key
    = if key c ∈ firstKeys key cap L then (kept key rank cap L).map key
      else (kept key rank cap L).map key ++ [key c] := by
  split
  · next hc =>
    rw [kept_snoc_of_mem hc, List.map_map]
    apply List.map_congr_left
    intro x _
    rw [Function.comp_apply]
    split
    · next hx =>
      rw [bestOf_snoc, Option.getD_some, hx]
      cases hb : bestOf key rank L (key c) with
      | none => rfl
      | some b =>
        rw [Option.elim_some]
        split
        · rfl
        · exact (bestOf_eq_some hb).2
    · rfl
  · next hc => rw [kept_snoc_of_notMem hc, List.map_append, List.map_singleton]

/-- **Of a key that is remembered one element is kept, of another all are.** -/
theorem count_kept [BEq κ] [LawfulBEq κ] (L : List γ) (k : κ) :
    ((kept key rank cap L).map key).count k
    = if k ∈ firstKeys key cap L then 1 else (L.map key).count k := by
  induction L using List.reverseRecOn with
  | nil => simp [kept, firstKeys]
  | append_singleton L c ih =>
    rw [map_kept_snoc, List.map_append, List.map_singleton, List.count_append]
    -- the element is kept unless it only replaces an earlier one
    by_cases hc : key c ∈ firstKeys key cap L
    · rw [if_pos hc, ih]
      by_cases hk : k ∈ firstKeys key cap L
      · rw [if_pos hk, if_pos (mem_firstKeys_snoc c hk)]
      · have hne : key c ≠ k := fun h => hk (h ▸ hc)
        have hk' : k ∉ firstKeys key cap (L ++ [c]) := by
          rw [firstKeys_snoc, if_pos (Or.inl hc)]
          exact hk
        have hzero : [key c].count k = 0 :=
          List.count_eq_zero_of_not_mem (by simpa using Ne.symm hne)
        rw [if_neg hk, if_neg hk', hzero, Nat.add_zero]
    · rw [if_neg hc, List.count_append, ih]
      -- a kept element is counted for its own key alone
      by_cases heq : key c = k
      · subst heq
        rw [if_neg hc, List.count_singleton, if_pos (by simp)]
        by_cases hold : key c ∈ L.map key
        · rw [if_neg (mt (mem_firstKeys_snoc_iff c hold).mp hc)]
        · rw [List.count_eq_zero_of_not_mem hold]
          split <;> rfl
      · have hsame : k ∈ firstKeys key cap (L ++ [c]) ↔ k ∈ firstKeys key cap L := by
          rw [firstKeys_snoc]
          split
          · rfl
          · simp [Ne.symm heq]
        have hzero : [key c].count k = 0 :=
          List.count_eq_zero_of_not_mem (by simpa using Ne.symm heq)
        rw [hzero, Nat.add_zero, Nat.add_zero]
        simp only [hsame]

/-- **One element of each key is kept exactly when every key that comes twice is
remembered.** -/
theorem nodup_kept_iff [BEq κ] [LawfulBEq κ] (L : List γ) : ((kept key rank cap L).map key).Nodup ↔
    ∀ k, 2 ≤ (L.map key).count k → k ∈ firstKeys key cap L := by
  rw [List.nodup_iff_count_le_one]
  apply forall_congr'
  intro k
  rw [count_kept]
  split
  · next hk => exact iff_of_true le_rfl fun _ => hk
  · next hk =>
    constructor
    · intro hle htwo
      omega
    · intro h
      by_contra hgt
      exact hk (h (by omega))

/-- If one element of each key is kept, it is the best. -/
theorem bestOf_of_nodup_kept {L : List γ} (h : ((kept key rank cap L).map key).Nodup) {x : γ}
    (hx : x ∈ kept key rank cap L) : bestOf key rank L (key x) = some x := by
  by_cases hkey : key x ∈ firstKeys key cap L
  · exact bestOf_of_mem_kept hx hkey
  · -- the key has come once
    have hle := List.nodup_iff_count_le_one.mp h (key x)
    rw [count_kept, if_neg hkey, List.count, List.countP_map, List.countP_eq_length_filter] at hle
    have hcount : (L.filter fun y => key y = key x).length ≤ 1 := hle
    have hmem : x ∈ L.filter fun y => key y = key x :=
      List.mem_filter.mpr ⟨mem_of_mem_kept hx, by simp⟩
    have hfilter : (L.filter fun y => key y = key x) = [x] := by
      obtain ⟨y, hy⟩ := List.length_eq_one_iff.mp
        (Nat.le_antisymm hcount (List.length_pos_of_mem hmem))
      rw [hy] at hmem ⊢
      rw [List.mem_singleton.mp hmem]
    rw [bestOf, hfilter]
    rfl

/-! ### One more element of a key that is remembered -/

/-- An element that is no better than the one kept changes nothing. -/
theorem kept_snoc_of_le {L : List γ} {c b : γ} (hc : key c ∈ firstKeys key cap L)
    (hb : bestOf key rank L (key c) = some b) (hle : rank c ≤ rank b) :
    kept key rank cap (L ++ [c]) = kept key rank cap L := by
  rw [kept_snoc_of_mem hc, bestOf_snoc_of_le hb hle, hb]
  refine (List.map_congr_left ?_).trans (List.map_id _)
  intro x hx
  split
  · next hkey =>
    have hx := bestOf_of_mem_kept hx (hkey ▸ hc)
    rw [hkey, hb] at hx
    exact Option.some.inj hx
  · rfl

/-- A better element takes the place of the one kept. -/
theorem kept_snoc_of_lt {L : List γ} {c b x : γ} {j : ℕ} (hc : key c ∈ firstKeys key cap L)
    (hb : bestOf key rank L (key c) = some b) (hlt : rank b < rank c)
    (hj : (kept key rank cap L)[j]? = some x) (hx : key x = key c) :
    kept key rank cap (L ++ [c]) = (kept key rank cap L).set j c := by
  have hcount : ((kept key rank cap L).map key).count (key c) = 1 := by
    rw [count_kept, if_pos hc]
  rw [kept_snoc_of_mem hc, bestOf_snoc_of_lt hb hlt]
  obtain ⟨hjlt, hget⟩ := List.getElem?_eq_some_iff.mp hj
  have hsplit : kept key rank cap L
      = (kept key rank cap L).take j ++ x :: (kept key rank cap L).drop (j + 1) := by
    rw [← hget, ← List.drop_eq_getElem_cons hjlt, List.take_append_drop]
  rw [List.set_eq_take_append_cons_drop, if_pos hjlt]
  generalize (kept key rank cap L).take j = pre at hsplit ⊢
  generalize (kept key rank cap L).drop (j + 1) = post at hsplit ⊢
  -- no other element kept has the key
  rw [hsplit, List.map_append, List.map_cons, List.count_append, hx, List.count_cons_self] at hcount
  have hothers : ∀ l : List γ, (l.map key).count (key c) = 0 →
      l.map (fun x => if key x = key c then (some c).getD x else x) = l := by
    intro l hl
    refine (List.map_congr_left ?_).trans (List.map_id _)
    intro y hy
    have hne : key y ≠ key c := fun h =>
      List.count_eq_zero.mp hl (h ▸ List.mem_map_of_mem hy)
    rw [if_neg hne]
    rfl
  rw [hsplit, List.map_append, List.map_cons, hothers pre (by omega), hothers post (by omega),
    if_pos hx]
  rfl
