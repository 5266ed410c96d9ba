import Tsag.LangCache

/-!
# The waiters of the language cache

A load may fail and a later load of the same language succeed, so here every call
of `load_lang` comes out as it may.  What the calls that matter have come to, those
of the languages loaded and of the threads about to insert, is still a function
of the language, and so the invariant of the cache carries over.

## Main definitions

* `langFreeLts` — the threads around the cache, with loads that come out as they may.

## Main results

* `langFreeInv_reachable` — the invariant of the cache holds all the same.
* `langCache_no_waiter_abandoned` — who sleeps waits for a thread that will wake it.
-/

namespace Tsag

variable {T E : Type*}

/-- The threads `T` around an empty cache, every call of `load_lang` coming out as
it may. -/
def langFreeLts (T E : Type*) [DecidableEq T] : Lts (LangState T E) (LangEvent T) where
  Init s := s.cache = ⟨[], []⟩ ∧ ∀ t, s.pc t = .outside
  Step s e s' := ∃ dl, LangStep dl s e s'

theorem loadLang_congr {dl dl' : CStr → Option E} {n : CStr} (h : dl' n = dl n) :
    loadLang dl' n = loadLang dl n := by
  rw [loadLang, loadLang, h]

/-- What loading comes to matters for the languages loaded and those about to be
inserted. -/
theorem LangInv.congr {dl dl' : CStr → Option E} {s : LangState T E} (h : LangInv dl s)
    (hnames : ∀ n ∈ s.cache.names, dl' n = dl n)
    (hfinish : ∀ t ext n tmp, s.pc t = .finish ext n tmp → dl' n = dl n) : LangInv dl' s := by
  constructor
  · refine ⟨h.cache_wf.nodup, h.cache_wf.known, ?_⟩
    intro e he
    rw [loadLang_congr (hnames e.name (List.mem_map_of_mem he))]
    exact h.cache_wf.entries_eq e he
  · intro t
    have hok := h.pc_ok t
    cases hpc : s.pc t with
    | finish ext n tmp =>
      rw [hpc] at hok
      exact ⟨hok.1, hok.2.trans (loadLang_congr (hfinish t ext n tmp hpc)).symm⟩
    | outside => trivial
    | lookup ext n => rwa [hpc] at hok
    | asleep ext n => rwa [hpc] at hok
    | woken ext n => rwa [hpc] at hok
    | load ext n => rwa [hpc] at hok
  · exact h.marked
  · exact h.unique
  · exact h.waits

variable [DecidableEq T]

/-- Every step keeps the invariant, for what the loads have come to after it. -/
theorem LangInv.free_step {dl dl₀ : CStr → Option E} {s s' : LangState T E} {e : LangEvent T}
    (h : LangInv dl s) (hs : LangStep dl₀ s e s') : ∃ dl', LangInv dl' s' := by
  cases hs with
  | unknown hpc hext => exact ⟨dl, h.step (.unknown hpc hext)⟩
  | call hpc hext => exact ⟨dl, h.step (.call hpc hext)⟩
  | hit hpc hl => exact ⟨dl, h.step (.hit hpc hl)⟩
  | wait hpc hl => exact ⟨dl, h.step (.wait hpc hl)⟩
  | full hpc hl => exact ⟨dl, h.step (.full hpc hl)⟩
  | mark hpc hl => exact ⟨dl, h.step (.mark hpc hl)⟩
  | spurious hpc => exact ⟨dl, h.step (.spurious hpc)⟩
  | recheck hpc => exact ⟨dl, h.step (.recheck hpc)⟩
  | finish hpc => exact ⟨dl, h.step (.finish hpc)⟩
  | @load t ext n hpc =>
    -- nobody else is concerned with the language being loaded
    have hmine : (s.pc t).loader = some n := by rw [hpc]; rfl
    have hload : n ∈ s.cache.loading := h.mem_loading hmine
    let dl' := Function.update dl n (dl₀ n)
    have hn : dl₀ n = dl' n := (Function.update_self n (dl₀ n) dl).symm
    have hinv : LangInv dl' s := by
      refine h.congr (fun m hm => Function.update_of_ne ?_ _ _)
        fun u ext' m tmp hu => Function.update_of_ne ?_ _ _
      · rintro rfl
        exact h.cache_wf.disjoint hload hm
      · rintro rfl
        obtain rfl : t = u := h.unique t u m hmine (by rw [hu]; rfl)
        rw [hpc] at hu
        cases hu
    rw [loadLang_congr hn]
    exact ⟨dl', hinv.step (.load hpc)⟩

theorem langFreeInv_reachable {s : LangState T E} (h : (langFreeLts T E).Reachable s) :
    ∃ dl, LangInv dl s := by
  apply h.invariant (I := fun s => ∃ dl, LangInv dl s)
  · intro s hinit
    exact ⟨fun _ => none, langInv_reachable (Lts.Reachable.init hinit)⟩
  · rintro s e s' ⟨dl, hinv⟩ ⟨dl₀, hs⟩
    exact hinv.free_step hs

/-- A language neither loaded nor marked is there to be marked. -/
theorem langCacheLookup_eq_mark {dl : CStr → Option E} {c : LangCache E} (hwf : c.Wf dl) {n : CStr}
    (hname : n ∉ c.names) (hload : n ∉ c.loading) :
    langCacheLookup c n = .mark { c with loading := c.loading ++ [n] } := by
  have hlt := hwf.length_lt
  have hnone : (c.entries.findIdx? fun e => strcmp e.name n == .eq) = none := by
    rw [List.findIdx?_eq_none_iff]
    intro e he
    have hne : e.name ≠ n := fun heq => hname (heq ▸ List.mem_map_of_mem he)
    simpa [strcmp_eq_eq_iff] using hne
  rw [langCacheLookup, hnone]
  simp only [if_neg hload]
  rw [if_neg (by omega)]

/-- A return from the last locked section is a `finish` step. -/
theorem finish_of_ret {dl : CStr → Option E} {s s' : LangState T E} {u : T} {ext n : CStr}
    {tmp : Option (LangEntry E)} {r : Option ℕ} (hpc : s.pc u = .finish ext n tmp)
    (hs : LangStep dl s (.ret u ext r) s') :
    s' = ⟨(langCacheInsert s.cache n tmp).1,
      Function.update (broadcast loaded s.pc) u .outside⟩ := by
  cases hs with
  | unknown hpc' _ => rw [hpc] at hpc'; cases hpc'
  | hit hpc' _ => rw [hpc] at hpc'; cases hpc'
  | full hpc' _ => rw [hpc] at hpc'; cases hpc'
  | finish hpc' =>
    rw [hpc] at hpc'
    cases hpc'
    rfl

/-- Every sleeper is woken by a broadcast. -/
theorem finish_wakes {s : LangState T E} {t u : T} {ext m : CStr} (hut : t ≠ u)
    (ht : s.pc t = .asleep ext m) :
    Function.update (broadcast loaded s.pc) u .outside t = .woken ext m := by
  rw [Function.update_of_ne hut]
  exact broadcast_eq_of_asleep (by rw [ht]; rfl)

/-- A thread woken for a language that is neither loaded nor marked can load it. -/
theorem LangInv.retry {dl : CStr → Option E} {s : LangState T E} (h : LangInv dl s) {t : T}
    {ext n : CStr} (ht : s.pc t = .woken ext n) (hname : n ∉ s.cache.names)
    (hload : n ∉ s.cache.loading) :
    ∃ s₁ s₂, (langFreeLts T E).Step s (.recheck t) s₁ ∧
      (langFreeLts T E).Step s₁ (.mark t n) s₂ := by
  have hl := langCacheLookup_eq_mark h.cache_wf hname hload
  have hpc : Function.update s.pc t (.lookup ext n) t = .lookup ext n := Function.update_self ..
  exact ⟨_, _, ⟨dl, .recheck ht⟩, ⟨dl, .mark hpc hl⟩⟩

/-- **No waiter of the language cache is abandoned**, however the loads come out. -/
theorem langCache_no_waiter_abandoned {s : LangState T E}
    (h : (langFreeLts T E).Reachable s) :
    -- each marked name has one thread between marking it and its last locked section
    (∀ n ∈ s.cache.loading, ∃! t, (s.pc t).loader = some n) ∧
    -- who sleeps waits for a marked name, and so for another thread
    (∀ t ext n, s.pc t = .asleep ext n →
      n ∈ s.cache.loading ∧ ∃ u, u ≠ t ∧ (s.pc u).loader = some n) ∧
    -- that thread is in no need of others, however its load comes out
    (∀ u ext n, s.pc u = .load ext n → ∀ handles : Option E, (langFreeLts T E).Step s
      (.loaded u n handles.isSome)
      { s with pc := Function.update s.pc u (.finish ext n (handles.map (LangEntry.mk n))) }) ∧
    (∀ u ext n tmp, s.pc u = .finish ext n tmp →
      ∃ r s', (langFreeLts T E).Step s (.ret u ext r) s') ∧
    -- it unmarks its own name alone and wakes whoever sleeps, and who is then awake for
    -- a name that failed to load can load it
    ∀ u ext n tmp r s', s.pc u = .finish ext n tmp → (langFreeLts T E).Step s (.ret u ext r) s' →
      (∀ m, m ∈ s'.cache.loading ↔ m ≠ n ∧ m ∈ s.cache.loading) ∧
      (∀ t ext' m, s.pc t = .asleep ext' m → s'.pc t = .woken ext' m) ∧
      (tmp = none → ∀ t ext', s'.pc t = .woken ext' n →
        ∃ s₁ s₂, (langFreeLts T E).Step s' (.recheck t) s₁ ∧
          (langFreeLts T E).Step s₁ (.mark t n) s₂) := by
  obtain ⟨dl, hinv⟩ := langFreeInv_reachable h
  refine ⟨?_, ?_, ?_, ?_, ?_⟩
  · intro n hn
    obtain ⟨t, ht⟩ := (hinv.marked n).mp hn
    exact ⟨t, ht, fun u hu => hinv.unique u t n hu ht⟩
  · -- A sleeper does not hold the mark it waits for.
    intro t ext n ht
    have hn := hinv.waits t ext n ht
    obtain ⟨u, hu⟩ := (hinv.marked n).mp hn
    refine ⟨hn, u, ?_, hu⟩
    rintro rfl
    rw [ht] at hu
    cases hu
  · intro u ext n hpc handles
    -- any outcome is one of some way of loading
    have hload : LangStep (fun _ => handles) s _ _ := .load hpc
    exact ⟨fun _ => handles, by simpa [loadLang] using hload⟩
  · intro u ext n tmp hpc
    exact ⟨_, _, dl, .finish hpc⟩
  · rintro u ext n tmp r s' hpc ⟨dl₀, hs⟩
    -- the last locked section is the same whatever the way of loading
    have hinv' : LangInv dl s' := by
      rw [finish_of_ret hpc hs]
      exact hinv.finish hpc
    have hn : n ∈ s.cache.loading := (hinv.finishing hpc).2.2
    have hloading : ∀ m, m ∈ s'.cache.loading ↔ m ≠ n ∧ m ∈ s.cache.loading := by
      intro m
      rw [finish_of_ret hpc hs, ← hinv.cache_wf.mem_unmark hn m]
      cases tmp with
      | none => rfl
      | some e => rw [langCacheInsert_some n e (by have := hinv.cache_wf.length_lt; omega)]
    refine ⟨hloading, ?_, ?_⟩
    · intro t ext' m ht
      rw [finish_of_ret hpc hs]
      refine finish_wakes ?_ ht
      rintro rfl
      rw [hpc] at ht
      cases ht
    · rintro rfl t ext' ht
      refine hinv'.retry ht ?_ fun hmem => ((hloading n).mp hmem).1 rfl
      rw [finish_of_ret hpc hs]
      exact hinv.cache_wf.disjoint hn

/-- Two calls for one language by different extensions: the second waits for the
first. -/
theorem langCache_no_waiter_abandoned_cpp : ∃ s : LangState Bool Unit,
    (langFreeLts Bool Unit).Reachable s ∧ s.pc false = .asleep (CStr.lit "h") (CStr.lit "cpp") ∧
      ∃ u, u ≠ false ∧ (s.pc u).loader = some (CStr.lit "cpp") := by
  let dl : CStr → Option Unit := fun _ => none
  let cpp := CStr.lit "cpp"
  let s₀ : LangState Bool Unit := ⟨⟨[], []⟩, fun _ => .outside⟩
  have h₀ : (langFreeLts Bool Unit).Reachable s₀ := .init ⟨rfl, fun _ => rfl⟩
  have h₁ := h₀.step ⟨dl, @LangStep.call _ _ _ _ _ true cpp cpp rfl (by decide)⟩
  have h₂ := h₁.step ⟨dl, @LangStep.mark _ _ _ _ _ true cpp cpp _ rfl rfl⟩
  have h₃ := h₂.step ⟨dl, @LangStep.call _ _ _ _ _ false (CStr.lit "h") cpp rfl (by decide)⟩
  have h₄ := h₃.step ⟨dl, @LangStep.wait _ _ _ _ _ false (CStr.lit "h") cpp rfl rfl⟩
  refine ⟨_, h₄, rfl, ?_⟩
  exact ((langCache_no_waiter_abandoned h₄).2.1 false _ _ rfl).2

end Tsag
