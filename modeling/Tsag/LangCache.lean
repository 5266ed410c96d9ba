import Mathlib.Data.List.Perm.Subperm
import Tsag.Lang
import Tsag.Lib.Condvar
import Tsag.Lib.Transition

/-!
# The shared language cache

`lang_cache_get` scans the cache under its lock, marks a language it does not
find and loads it with the lock dropped, and inserts what it loaded under the
lock again.  A thread that finds its language marked by another sleeps on the
one condition variable of the cache and starts over when woken.

The names in `loading[]` are the literals of `EXT_LANG`, compared by address;
equal literals are pooled, so that comparison is equality of names here.

## Main definitions

* `LangCache`, `LangEntry` — the structs, each array cut to its live prefix.
* `langCacheLookup`, `langCacheInsert` — the two locked sections of `lang_cache_get`.
* `LangPc`, `LangStep`, `langLts` — the threads around the cache, in any order.
* `LangInv` — the invariant: who is marked, by whom, and who waits for what.

## Main results

* `langCache_loads_once` — each language is loaded once and answered consistently.
-/

namespace Tsag

variable {T E : Type*}

/-- `MAX_LANGS`. -/
def maxLangs : ℕ := 32

/-- `LangEntry`; `handles` stands for `dl_handle`, `lang` and `query`. -/
structure LangEntry (E : Type*) where
  name : CStr
  handles : E

/-- `LangCache`: `entries[0 .. entry_count)` and `loading[0 .. loading_count)`. -/
structure LangCache (E : Type*) where
  entries : List (LangEntry E)
  loading : List CStr

/-- The names of the languages loaded. -/
def LangCache.names (c : LangCache E) : List CStr := c.entries.map LangEntry.name

/-- `load_lang`, given what opening the library of a language and compiling its
query come to. -/
def loadLang (dl : CStr → Option E) (lang : CStr) : Option (LangEntry E) :=
  (dl lang).map fun h => ⟨lang, h⟩

/-! ### The locked sections -/

/-- How the first locked section ends. -/
inductive Lookup (E : Type*)
  /-- The language is loaded: return the entry's address. -/
  | hit (i : ℕ)
  /-- Another thread is loading it: sleep. -/
  | wait
  /-- `Maximum number of languages reached`. -/
  | full
  /-- First to load it: marked, in the cache left behind. -/
  | mark (c : LangCache E)

/-- The first locked section of `lang_cache_get`. -/
def langCacheLookup (c : LangCache E) (name : CStr) : Lookup E :=
  match c.entries.findIdx? fun e => strcmp e.name name == .eq with
  | some i => .hit i
  | none =>
      if name ∈ c.loading then .wait
      else if c.loading.length = maxLangs ∨ c.entries.length = maxLangs then .full
      else .mark { c with loading := c.loading ++ [name] }

/-- `loading[i] = loading[--loading_count]` at the first `i` that holds `name`. -/
def unmark (loading : List CStr) (name : CStr) : List CStr :=
  match loading.findIdx? (· == name) with
  | none => loading
  | some i => (loading.set i (loading.getLastD name)).dropLast

/-- The second locked section: unmark, and insert the entry if there is one and
room for it.  The second component is the index of the entry inserted. -/
def langCacheInsert (c : LangCache E) (name : CStr) (tmp : Option (LangEntry E)) :
    LangCache E × Option ℕ :=
  let loading := unmark c.loading name
  match tmp with
  | none => ({ c with loading }, none)
  | some e =>
      if c.entries.length < maxLangs then
        ({ entries := c.entries ++ [e], loading }, some c.entries.length)
      else ({ c with loading }, none)

/-! ### The threads -/

/-- Where a thread is in `lang_cache_get(cache, ext)`, `name` being `ext_to_lang(ext)`. -/
inductive LangPc (E : Type*)
  /-- Not inside the function. -/
  | outside
  /-- At the top of `for (;;)`, yet to take the lock. -/
  | lookup (ext name : CStr)
  /-- In `pthread_cond_wait(&cache->loaded, ..)`. -/
  | asleep (ext name : CStr)
  /-- Woken there, yet to take the lock again, only to give it up. -/
  | woken (ext name : CStr)
  /-- In `load_lang`, with the lock dropped. -/
  | load (ext name : CStr)
  /-- `load_lang` has returned `tmp`; yet to take the lock. -/
  | finish (ext name : CStr) (tmp : Option (LangEntry E))

/-- The condition variable of the cache. -/
def loaded : Condvar (LangPc E)
  | .asleep ext name => some (.woken ext name)
  | _ => none

/-- The language a thread has marked and not yet unmarked. -/
def LangPc.loader : LangPc E → Option CStr
  | .load _ name => some name
  | .finish _ name _ => some name
  | _ => none

/-- The cache and where every thread is. -/
structure LangState (T E : Type*) where
  cache : LangCache E
  pc : T → LangPc E

/-- What one step does, and which thread does it. -/
inductive LangEvent (T : Type*)
  /-- A call with a known extension. -/
  | call (t : T) (ext : CStr)
  /-- A call returns the address of entry `r`, or `NULL`. -/
  | ret (t : T) (ext : CStr) (r : Option ℕ)
  /-- A thread sleeps until `name` is loaded. -/
  | sleep (t : T) (name : CStr)
  /-- A sleeper wakes up unasked. -/
  | spurious (t : T)
  /-- A woken thread takes the lock, gives it up and starts over. -/
  | recheck (t : T)
  /-- A thread marks `name` and calls `load_lang`. -/
  | mark (t : T) (name : CStr)
  /-- `load_lang` returns, with an entry or without. -/
  | loaded (t : T) (name : CStr) (ok : Bool)
  deriving DecidableEq

/-- One locked section or one unlocked `load_lang` of one thread, or a spurious
wake-up. -/
inductive LangStep [DecidableEq T] (dl : CStr → Option E) :
    LangState T E → LangEvent T → LangState T E → Prop
  | unknown {s : LangState T E} {t : T} {ext : CStr} (hpc : s.pc t = .outside)
      (hext : extToLang ext = none) : LangStep dl s (.ret t ext none) s
  | call {s : LangState T E} {t : T} {ext name : CStr} (hpc : s.pc t = .outside)
      (hext : extToLang ext = some name) :
      LangStep dl s (.call t ext) { s with pc := Function.update s.pc t (.lookup ext name) }
  | hit {s : LangState T E} {t : T} {ext name : CStr} {i : ℕ} (hpc : s.pc t = .lookup ext name)
      (hl : langCacheLookup s.cache name = .hit i) :
      LangStep dl s (.ret t ext (some i)) { s with pc := Function.update s.pc t .outside }
  | wait {s : LangState T E} {t : T} {ext name : CStr} (hpc : s.pc t = .lookup ext name)
      (hl : langCacheLookup s.cache name = .wait) :
      LangStep dl s (.sleep t name) { s with pc := Function.update s.pc t (.asleep ext name) }
  | full {s : LangState T E} {t : T} {ext name : CStr} (hpc : s.pc t = .lookup ext name)
      (hl : langCacheLookup s.cache name = .full) :
      LangStep dl s (.ret t ext none) { s with pc := Function.update s.pc t .outside }
  | mark {s : LangState T E} {t : T} {ext name : CStr} {c : LangCache E}
      (hpc : s.pc t = .lookup ext name) (hl : langCacheLookup s.cache name = .mark c) :
      LangStep dl s (.mark t name) ⟨c, Function.update s.pc t (.load ext name)⟩
  | spurious {s : LangState T E} {t : T} {pc : LangPc E} (hpc : loaded (s.pc t) = some pc) :
      LangStep dl s (.spurious t) { s with pc := Function.update s.pc t pc }
  | recheck {s : LangState T E} {t : T} {ext name : CStr} (hpc : s.pc t = .woken ext name) :
      LangStep dl s (.recheck t) { s with pc := Function.update s.pc t (.lookup ext name) }
  | load {s : LangState T E} {t : T} {ext name : CStr} (hpc : s.pc t = .load ext name) :
      LangStep dl s (.loaded t name (loadLang dl name).isSome)
        { s with pc := Function.update s.pc t (.finish ext name (loadLang dl name)) }
  | finish {s : LangState T E} {t : T} {ext name : CStr} {tmp : Option (LangEntry E)}
      (hpc : s.pc t = .finish ext name tmp) :
      LangStep dl s (.ret t ext (langCacheInsert s.cache name tmp).2)
        ⟨(langCacheInsert s.cache name tmp).1,
          Function.update (broadcast loaded s.pc) t .outside⟩

/-- An empty cache and the threads `T` around it. -/
def langLts (T : Type*) [DecidableEq T] (dl : CStr → Option E) :
    Lts (LangState T E) (LangEvent T) where
  Init s := s.cache = ⟨[], []⟩ ∧ ∀ t, s.pc t = .outside
  Step := LangStep dl

/-! ### What the sections do -/

/-- Moving the last element onto one and dropping the last removes that one. -/
theorem perm_eraseIdx_of_set_last {α : Type*} (l : List α) (d : α) {i : ℕ} (hi : i < l.length) :
    ((l.set i (l.getLastD d)).dropLast).Perm (l.eraseIdx i) := by
  rcases List.eq_nil_or_concat' l with rfl | ⟨init, last, rfl⟩
  · simp at hi
  · rw [List.getLastD_concat]
    rcases Nat.lt_or_ge i init.length with hlt | hge
    · rw [List.set_append_left _ _ hlt, List.dropLast_concat,
        List.eraseIdx_append_of_lt_length hlt]
      exact (List.set_perm_cons_eraseIdx hlt last).trans (List.perm_append_singleton _ _).symm
    · have hi' : i = init.length := by
        simp only [List.length_append, List.length_singleton] at hi
        omega
      subst hi'
      rw [List.set_append_right _ _ le_rfl, Nat.sub_self, List.set_cons_zero,
        List.dropLast_concat, List.eraseIdx_append_of_length_le le_rfl, Nat.sub_self]
      simp

/-- Unmarking a name that is marked removes one occurrence of it. -/
theorem unmark_perm {l : List CStr} {name : CStr} (h : name ∈ l) :
    (unmark l name).Perm (l.erase name) := by
  unfold unmark
  cases hi : l.findIdx? (· == name) with
  | none =>
    rw [List.findIdx?_eq_none_iff] at hi
    simpa using hi name h
  | some i =>
    have hidx : l.idxOf name = i := by
      rw [List.findIdx?_eq_some_iff_findIdx_eq] at hi
      exact hi.2
    have hlt : i < l.length := hidx ▸ List.idxOf_lt_length_of_mem h
    rw [List.erase_eq_eraseIdx_of_idxOf hidx]
    exact perm_eraseIdx_of_set_last l name hlt

/-- A hit is at an entry of that name. -/
theorem langCacheLookup_hit {c : LangCache E} {name : CStr} {i : ℕ}
    (h : langCacheLookup c name = .hit i) : ∃ e, c.entries[i]? = some e ∧ e.name = name := by
  unfold langCacheLookup at h
  split at h
  · next j hj =>
    obtain rfl : j = i := by simpa using h
    obtain ⟨hlt, heq, -⟩ := List.findIdx?_eq_some_iff_getElem.mp hj
    refine ⟨c.entries[j], List.getElem?_eq_getElem hlt, ?_⟩
    simpa [strcmp_eq_eq_iff] using heq
  · split at h
    · cases h
    · split at h <;> cases h

theorem langCacheLookup_wait {c : LangCache E} {name : CStr}
    (h : langCacheLookup c name = .wait) : name ∈ c.loading := by
  unfold langCacheLookup at h
  split at h
  · cases h
  · split at h
    · assumption
    · split at h <;> cases h

/-- A language is marked only if it is neither loaded nor marked. -/
theorem langCacheLookup_mark {c c' : LangCache E} {name : CStr}
    (h : langCacheLookup c name = .mark c') :
    name ∉ c.names ∧ name ∉ c.loading ∧ c' = { c with loading := c.loading ++ [name] } := by
  unfold langCacheLookup at h
  split at h
  · cases h
  · next hnone =>
    split at h
    · cases h
    · next hload =>
      split at h
      · cases h
      · refine ⟨?_, hload, by simpa using h.symm⟩
        intro hmem
        obtain ⟨e, he, rfl⟩ := List.mem_map.mp hmem
        have hne := (List.findIdx?_eq_none_iff.mp hnone) e he
        simp [strcmp_eq_eq_iff] at hne

/-- The bound is met only by a cache with as many names. -/
theorem langCacheLookup_ne_full {c : LangCache E}
    (h : c.loading.length + c.entries.length < maxLangs) (name : CStr) :
    langCacheLookup c name ≠ .full := by
  unfold langCacheLookup
  split
  · simp
  · split
    · simp
    · split <;> simp
      omega

@[simp] theorem langCacheInsert_none (c : LangCache E) (name : CStr) :
    langCacheInsert c name none = ({ c with loading := unmark c.loading name }, none) := rfl

theorem langCacheInsert_some {c : LangCache E} (name : CStr) (e : LangEntry E)
    (h : c.entries.length < maxLangs) :
    langCacheInsert c name (some e)
      = ({ entries := c.entries ++ [e], loading := unmark c.loading name },
          some c.entries.length) := by
  simp [langCacheInsert, h]

/-- The entries of the cache afterwards: the one inserted is the last. -/
theorem langCacheInsert_entries (c : LangCache E) (name : CStr) (tmp : Option (LangEntry E)) :
    (langCacheInsert c name tmp).1.entries
      = c.entries ++ (if (langCacheInsert c name tmp).2 = none then none else tmp).toList := by
  unfold langCacheInsert
  cases tmp with
  | none => simp
  | some e =>
    by_cases hroom : c.entries.length < maxLangs
    · simp [hroom]
    · simp [hroom]

/-! ### The cache's own invariant -/

/-- No name is marked or loaded twice, or both; every name is one of the table's;
every entry is what loading its language comes to. -/
structure LangCache.Wf (dl : CStr → Option E) (c : LangCache E) : Prop where
  nodup : (c.loading ++ c.names).Nodup
  known : ∀ n ∈ c.loading ++ c.names, n ∈ langNames
  entries_eq : ∀ e ∈ c.entries, loadLang dl e.name = some e

variable {dl : CStr → Option E}

theorem loadLang_name {n : CStr} {e : LangEntry E} (h : loadLang dl n = some e) : e.name = n := by
  obtain ⟨x, -, rfl⟩ := Option.map_eq_some_iff.mp h
  rfl

namespace LangCache.Wf

/-- The names marked and loaded are few: the table has nine. -/
theorem length_lt {c : LangCache E} (h : c.Wf dl) :
    c.loading.length + c.entries.length < maxLangs := by
  have hle := (List.subperm_of_subset h.nodup h.known).length_le
  rw [length_langNames, List.length_append, LangCache.names, List.length_map] at hle
  have hmax : (9 : ℕ) < maxLangs := by decide
  omega

theorem loading_nodup {c : LangCache E} (h : c.Wf dl) : c.loading.Nodup :=
  (List.nodup_append.mp h.nodup).1

theorem names_nodup {c : LangCache E} (h : c.Wf dl) : c.names.Nodup :=
  (List.nodup_append.mp h.nodup).2.1

theorem disjoint {c : LangCache E} (h : c.Wf dl) {n : CStr} (hn : n ∈ c.loading) : n ∉ c.names :=
  fun hn' => (List.nodup_append.mp h.nodup).2.2 n hn n hn' rfl

/-- Marking a name that is neither marked nor loaded. -/
theorem mark {c : LangCache E} (h : c.Wf dl) {n : CStr} (hknown : n ∈ langNames)
    (hload : n ∉ c.loading) (hname : n ∉ c.names) :
    Wf dl { c with loading := c.loading ++ [n] } := by
  constructor
  · have hperm : (c.loading ++ [n] ++ c.names).Perm (n :: (c.loading ++ c.names)) := by
      rw [List.append_assoc]
      exact List.perm_middle
    refine hperm.nodup_iff.mpr (List.nodup_cons.mpr ⟨?_, h.nodup⟩)
    rw [List.mem_append, not_or]
    exact ⟨hload, hname⟩
  · intro m hm
    rw [List.mem_append, List.mem_append, List.mem_singleton] at hm
    rcases hm with (hm | rfl) | hm
    · exact h.known m (List.mem_append_left _ hm)
    · exact hknown
    · exact h.known m (List.mem_append_right _ hm)
  · exact h.entries_eq

/-- Unmarking takes exactly the name away. -/
theorem mem_unmark {c : LangCache E} (h : c.Wf dl) {n : CStr} (hload : n ∈ c.loading) (m : CStr) :
    m ∈ unmark c.loading n ↔ m ≠ n ∧ m ∈ c.loading := by
  rw [(unmark_perm hload).mem_iff, h.loading_nodup.mem_erase_iff]

/-- Unmarking a name whose load failed. -/
theorem unmark {c : LangCache E} (h : c.Wf dl) {n : CStr} (hload : n ∈ c.loading) :
    Wf dl { c with loading := unmark c.loading n } := by
  constructor
  · refine ((unmark_perm hload).append_right _).nodup_iff.mpr (h.nodup.sublist ?_)
    exact List.erase_sublist.append_right _
  · intro m hm
    rw [List.mem_append] at hm
    rcases hm with hm | hm
    · exact h.known m (List.mem_append_left _ ((h.mem_unmark hload m).mp hm).2)
    · exact h.known m (List.mem_append_right _ hm)
  · exact h.entries_eq

/-- Unmarking a name and inserting its entry. -/
theorem insert {c : LangCache E} (h : c.Wf dl) {n : CStr} (hload : n ∈ c.loading)
    {e : LangEntry E} (he : loadLang dl n = some e) :
    Wf dl { entries := c.entries ++ [e], loading := Tsag.unmark c.loading n } := by
  have hname := loadLang_name he
  -- the name moves from the one list to the other
  have hmove : (Tsag.unmark c.loading n ++ (c.names ++ [n])).Perm (c.loading ++ c.names) := by
    rw [← List.append_assoc]
    apply (List.perm_append_singleton _ _).trans
    rw [← List.cons_append]
    apply List.Perm.append_right _
    exact ((unmark_perm hload).cons n).trans (List.perm_cons_erase hload).symm
  have hnames : LangCache.names { entries := c.entries ++ [e], loading := Tsag.unmark c.loading n }
      = c.names ++ [n] := by
    rw [LangCache.names, List.map_append, List.map_singleton, hname]
    rfl
  constructor
  · rw [hnames]
    exact hmove.nodup_iff.mpr h.nodup
  · rw [hnames]
    intro m hm
    exact h.known m (hmove.mem_iff.mp hm)
  · intro e' he'
    rw [List.mem_append, List.mem_singleton] at he'
    rcases he' with he' | rfl
    · exact h.entries_eq e' he'
    · rw [hname]
      exact he

end LangCache.Wf

/-- **What the second locked section does** when the load was of a marked name:
it unmarks the name and, if the load succeeded, appends the entry. -/
theorem langCacheInsert_spec {c : LangCache E} (h : c.Wf dl) {n : CStr} (hload : n ∈ c.loading) :
    (langCacheInsert c n (loadLang dl n)).1.Wf dl ∧
    (langCacheInsert c n (loadLang dl n)).1.loading = unmark c.loading n ∧
    ((loadLang dl n = none ∧ (langCacheInsert c n (loadLang dl n)).1.entries = c.entries ∧
        (langCacheInsert c n (loadLang dl n)).2 = none) ∨
      ∃ e, loadLang dl n = some e ∧
        (langCacheInsert c n (loadLang dl n)).1.entries = c.entries ++ [e] ∧
        (langCacheInsert c n (loadLang dl n)).2 = some c.entries.length) := by
  cases htmp : loadLang dl n with
  | none => exact ⟨h.unmark hload, rfl, Or.inl ⟨rfl, rfl, rfl⟩⟩
  | some e =>
    have hlt := h.length_lt
    rw [langCacheInsert_some n e (by omega)]
    exact ⟨h.insert hload htmp, rfl, Or.inr ⟨e, rfl, rfl, rfl⟩⟩

/-! ### The invariant of the threads -/

/-- What a thread's own variables satisfy. -/
def LangPc.Ok (dl : CStr → Option E) : LangPc E → Prop
  | .outside => True
  | .lookup ext name => extToLang ext = some name
  | .asleep ext name => extToLang ext = some name
  | .woken ext name => extToLang ext = some name
  | .load ext name => extToLang ext = some name
  | .finish ext name tmp => extToLang ext = some name ∧ tmp = loadLang dl name

/-- The invariant of the cache and its threads: each marked name has exactly one
thread between marking it and its last locked section, and who sleeps waits for
a name that is marked. -/
structure LangInv (dl : CStr → Option E) (s : LangState T E) : Prop where
  cache_wf : s.cache.Wf dl
  pc_ok : ∀ t, (s.pc t).Ok dl
  marked : ∀ n, n ∈ s.cache.loading ↔ ∃ t, (s.pc t).loader = some n
  unique : ∀ t u n, (s.pc t).loader = some n → (s.pc u).loader = some n → t = u
  waits : ∀ t ext n, s.pc t = .asleep ext n → n ∈ s.cache.loading

theorem LangInv.ok_of_pc {s : LangState T E} (h : LangInv dl s) {t : T} {pc : LangPc E}
    (hpc : s.pc t = pc) : pc.Ok dl := hpc ▸ h.pc_ok t

theorem LangInv.mem_loading {s : LangState T E} (h : LangInv dl s) {t : T} {n : CStr}
    (ht : (s.pc t).loader = some n) : n ∈ s.cache.loading := (h.marked n).mpr ⟨t, ht⟩

/-- A thread before its last locked section has loaded a name that is marked. -/
theorem LangInv.finishing {s : LangState T E} (h : LangInv dl s) {t : T} {ext n : CStr}
    {tmp : Option (LangEntry E)} (hpc : s.pc t = .finish ext n tmp) :
    extToLang ext = some n ∧ tmp = loadLang dl n ∧ n ∈ s.cache.loading := by
  obtain ⟨hext, htmp⟩ := h.ok_of_pc hpc
  exact ⟨hext, htmp, h.mem_loading (by rw [hpc]; rfl)⟩

theorem loaded_eq_some {a b : LangPc E} (h : loaded a = some b) :
    ∃ ext n, a = .asleep ext n ∧ b = .woken ext n := by
  cases a <;> simp_all [loaded]

/-- Where a broadcast leaves a thread: at a point that is as good, has the same
mark and is not a sleeping one. -/
theorem broadcast_loaded (dl : CStr → Option E) (f : T → LangPc E) (u : T) :
    (broadcast loaded f u).loader = (f u).loader ∧
    ((f u).Ok dl → (broadcast loaded f u).Ok dl) ∧
    ∀ ext n, broadcast loaded f u ≠ .asleep ext n := by
  cases hcv : loaded (f u) with
  | none =>
    rw [broadcast_eq_of_awake hcv]
    refine ⟨rfl, id, ?_⟩
    intro ext n hu
    rw [hu] at hcv
    cases hcv
  | some b =>
    obtain ⟨ext, n, ha, rfl⟩ := loaded_eq_some hcv
    rw [broadcast_eq_of_asleep hcv, ha]
    exact ⟨rfl, id, by simp⟩

variable [DecidableEq T]

/-- What holds of the point a thread moves to, and of the others, holds of all threads. -/
theorem forall_pc_update {P : LangPc E → Prop} {f : T → LangPc E} (h : ∀ t, P (f t)) {t : T}
    {pc : LangPc E} (hpc : P pc) (u : T) : P (Function.update f t pc u) :=
  (Function.forall_update_iff f fun _ pc => P pc).mpr ⟨hpc, fun u _ => h u⟩ u

/-- Moving a thread changes its own mark alone. -/
theorem loader_update (f : T → LangPc E) (t : T) (pc : LangPc E) (u : T) :
    (Function.update f t pc u).loader = if u = t then pc.loader else (f u).loader := by
  rw [Function.update_apply]
  split <;> rfl

/-- A step that leaves the cache alone and moves a thread between points with
the same mark keeps the invariant, if the thread does not fall asleep in vain. -/
theorem LangInv.move {s : LangState T E} (h : LangInv dl s) {t : T} {pc : LangPc E}
    (hmark : pc.loader = (s.pc t).loader) (hpc : pc.Ok dl)
    (hwait : ∀ ext n, pc = .asleep ext n → n ∈ s.cache.loading) :
    LangInv dl { s with pc := Function.update s.pc t pc } := by
  have hsame : ∀ u, (Function.update s.pc t pc u).loader = (s.pc u).loader := by
    intro u
    rw [loader_update]
    split
    · next hu => rw [hmark, hu]
    · rfl
  constructor
  · exact h.cache_wf
  · exact forall_pc_update h.pc_ok hpc
  · intro n
    simp only [hsame]
    exact h.marked n
  · intro u v n
    simp only [hsame]
    exact h.unique u v n
  · exact forall_pc_update (P := fun pc => ∀ ext n, pc = .asleep ext n → n ∈ s.cache.loading)
      h.waits hwait

/-- The first locked section marks a name. -/
theorem LangInv.mark {s : LangState T E} (h : LangInv dl s) {t : T} {ext n : CStr}
    (hpc : s.pc t = .lookup ext n) (hload : n ∉ s.cache.loading) (hname : n ∉ s.cache.names) :
    LangInv dl ⟨{ s.cache with loading := s.cache.loading ++ [n] },
      Function.update s.pc t (.load ext n)⟩ := by
  have hext : extToLang ext = some n := h.ok_of_pc hpc
  have hmarks : ∀ u, (Function.update s.pc t (LangPc.load ext n) u).loader
      = if u = t then some n else (s.pc u).loader := loader_update s.pc t _
  -- so far neither this thread nor any other holds the mark
  have hmine : (s.pc t).loader = none := by rw [hpc]; rfl
  have hothers : ∀ u, (s.pc u).loader ≠ some n := fun u hu => hload (h.mem_loading hu)
  constructor
  · exact h.cache_wf.mark (extToLang_mem hext) hload hname
  · exact forall_pc_update h.pc_ok hext
  · intro m
    simp only [hmarks, List.mem_append, List.mem_singleton, h.marked m]
    constructor
    · rintro (⟨u, hu⟩ | rfl)
      · have hut : u ≠ t := by
          rintro rfl
          rw [hmine] at hu
          cases hu
        exact ⟨u, by rw [if_neg hut]; exact hu⟩
      · exact ⟨t, if_pos rfl⟩
    · rintro ⟨u, hu⟩
      split at hu
      · exact Or.inr (Option.some.inj hu).symm
      · exact Or.inl ⟨u, hu⟩
  · intro u v m hu hv
    simp only [hmarks] at hu hv
    -- two threads with one mark: the new mark is of a name that was not marked
    split at hu <;> split at hv
    · next hut hvt => rw [hut, hvt]
    · rw [← Option.some.inj hu] at hv
      exact absurd hv (hothers v)
    · rw [← Option.some.inj hv] at hu
      exact absurd hu (hothers u)
    · exact h.unique u v m hu hv
  · refine forall_pc_update (P := fun pc => ∀ ext m, pc = .asleep ext m →
      m ∈ s.cache.loading ++ [n]) ?_ (by simp)
    intro u ext' m hu
    exact List.mem_append_left _ (h.waits u ext' m hu)

/-- The second locked section unmarks a name and wakes everybody. -/
theorem LangInv.finish {s : LangState T E} (h : LangInv dl s) {t : T} {ext n : CStr}
    {tmp : Option (LangEntry E)} (hpc : s.pc t = .finish ext n tmp) :
    LangInv dl ⟨(langCacheInsert s.cache n tmp).1,
      Function.update (broadcast loaded s.pc) t .outside⟩ := by
  obtain ⟨-, rfl, hload⟩ := h.finishing hpc
  have hmine : (s.pc t).loader = some n := by rw [hpc]; rfl
  obtain ⟨hwf, hloading, -⟩ := langCacheInsert_spec h.cache_wf hload
  have hmarks : ∀ u, (Function.update (broadcast loaded s.pc) t LangPc.outside u).loader
      = if u = t then none else (s.pc u).loader := by
    intro u
    rw [loader_update, (broadcast_loaded dl s.pc u).1]
    rfl
  constructor
  · exact hwf
  · exact forall_pc_update (fun u => (broadcast_loaded dl s.pc u).2.1 (h.pc_ok u)) trivial
  · -- The mark goes, and it was that of this thread alone.
    intro m
    simp only [hmarks, hloading, h.cache_wf.mem_unmark hload m, h.marked m]
    constructor
    · rintro ⟨hne, u, hu⟩
      have hut : u ≠ t := by
        rintro rfl
        rw [hmine] at hu
        exact hne (Option.some.inj hu).symm
      exact ⟨u, by rw [if_neg hut]; exact hu⟩
    · rintro ⟨u, hu⟩
      split at hu
      · cases hu
      · next hut =>
        refine ⟨?_, u, hu⟩
        rintro rfl
        exact hut (h.unique u t m hu hmine)
  · intro u v m hu hv
    simp only [hmarks] at hu hv
    split at hu
    · cases hu
    · split at hv
      · cases hv
      · exact h.unique u v m hu hv
  · -- nobody is left asleep
    refine forall_pc_update (P := fun pc => ∀ ext m, pc = .asleep ext m → m ∈ _) ?_ (by simp)
    intro u ext' m hu
    exact absurd hu ((broadcast_loaded dl s.pc u).2.2 ext' m)

/-- Every step keeps the invariant. -/
theorem LangInv.step {s s' : LangState T E} {e : LangEvent T} (h : LangInv dl s)
    (hs : LangStep dl s e s') : LangInv dl s' := by
  cases hs with
  | unknown _ _ => exact h
  | call hpc hext => exact h.move (by rw [hpc]; rfl) hext (by simp)
  | hit hpc _ => exact h.move (by rw [hpc]; rfl) trivial (by simp)
  | @wait t ext name hpc hl =>
    have hok := h.ok_of_pc hpc
    refine h.move (by rw [hpc]; rfl) hok ?_
    intro ext' n hn
    obtain ⟨rfl, rfl⟩ : ext = ext' ∧ name = n := by simpa using hn
    exact langCacheLookup_wait hl
  | full hpc _ => exact h.move (by rw [hpc]; rfl) trivial (by simp)
  | mark hpc hl =>
    obtain ⟨hname, hload, rfl⟩ := langCacheLookup_mark hl
    exact h.mark hpc hload hname
  | @spurious t pc hpc =>
    obtain ⟨ext, n, ha, rfl⟩ := loaded_eq_some hpc
    have hok := h.ok_of_pc ha
    exact h.move (by rw [ha]; rfl) hok (by simp)
  | recheck hpc =>
    have hok := h.ok_of_pc hpc
    exact h.move (by rw [hpc]; rfl) hok (by simp)
  | load hpc => exact h.move (by rw [hpc]; rfl) ⟨h.ok_of_pc hpc, rfl⟩ (by simp)
  | finish hpc => exact h.finish hpc

theorem langInv_reachable {s : LangState T E} (h : (langLts T dl).Reachable s) : LangInv dl s := by
  refine h.invariant (I := LangInv dl) ?_ fun s e s' hinv hs => hinv.step hs
  rintro s ⟨hcache, hpc⟩
  have hnone : ∀ t, (s.pc t).loader = none := fun t => by rw [hpc t]; rfl
  constructor
  · rw [hcache]
    exact ⟨List.nodup_nil, fun n hn => (by cases hn), fun e he => (by cases he)⟩
  · intro t
    rw [hpc t]
    trivial
  · intro n
    simp [hcache, hnone]
  · intro t u n ht
    rw [hnone t] at ht
    cases ht
  · intro t ext n ht
    rw [hpc t] at ht
    cases ht

/-! ### Loaded once, answered consistently -/

/-- A step never changes or drops an entry. -/
theorem LangStep.entries_prefix {s s' : LangState T E} {e : LangEvent T} (hs : LangStep dl s e s') :
    s.cache.entries <+: s'.cache.entries := by
  cases hs with
  | mark _ hl =>
    obtain ⟨-, -, rfl⟩ := langCacheLookup_mark hl
    exact List.prefix_rfl
  | finish _ => exact ⟨_, (langCacheInsert_entries ..).symm⟩
  | _ => exact List.prefix_rfl

/-- What a call with extension `ext` may return: `NULL` exactly when the
extension is unknown or its language does not load, and otherwise the address
of an entry of that language. -/
def AnswerOk (dl : CStr → Option E) (entries : List (LangEntry E)) (ext : CStr)
    (r : Option ℕ) : Prop :=
  (r = none ↔ extToLang ext = none ∨ ∃ n, extToLang ext = some n ∧ dl n = none) ∧
  ∀ i, r = some i → ∃ e, entries[i]? = some e ∧ extToLang ext = some e.name

theorem AnswerOk.mono {entries entries' : List (LangEntry E)} {ext : CStr} {r : Option ℕ}
    (h : AnswerOk dl entries ext r) (hpre : entries <+: entries') : AnswerOk dl entries' ext r := by
  obtain ⟨tail, rfl⟩ := hpre
  refine ⟨h.1, ?_⟩
  intro i hi
  obtain ⟨e, he, hext⟩ := h.2 i hi
  have hlt := (List.getElem?_eq_some_iff.mp he).1
  exact ⟨e, by rw [List.getElem?_append_left hlt]; exact he, hext⟩

theorem loadLang_eq_none_iff {n : CStr} : loadLang dl n = none ↔ dl n = none := by
  simp [loadLang]

/-- An entry of a language answers every call for that language. -/
theorem answerOk_some {entries : List (LangEntry E)} {ext : CStr} {i : ℕ} {e : LangEntry E}
    (hi : entries[i]? = some e) (hext : extToLang ext = some e.name)
    (he : loadLang dl e.name = some e) : AnswerOk dl entries ext (some i) := by
  refine ⟨iff_of_false (by simp) ?_, ?_⟩
  · rintro (hnone | ⟨n, hn, hdl⟩)
    · rw [hext] at hnone
      cases hnone
    · obtain rfl : e.name = n := by simpa [hext] using hn
      rw [loadLang_eq_none_iff.mpr hdl] at he
      cases he
  · intro j hj
    obtain rfl : i = j := by simpa using hj
    exact ⟨e, hi, hext⟩

/-- Every return of a step is a good answer in the cache it leaves. -/
theorem LangInv.answer {s s' : LangState T E} {t : T} {ext : CStr} {r : Option ℕ}
    (h : LangInv dl s) (hs : LangStep dl s (.ret t ext r) s') :
    AnswerOk dl s'.cache.entries ext r := by
  generalize hev : LangEvent.ret t ext r = ev at hs
  cases hs with
  | call _ _ => cases hev
  | wait _ _ => cases hev
  | mark _ _ => cases hev
  | spurious _ => cases hev
  | recheck _ => cases hev
  | load _ => cases hev
  | unknown _ hext =>
    obtain ⟨-, rfl, rfl⟩ : _ ∧ _ ∧ _ := by simpa using hev
    exact ⟨iff_of_true rfl (Or.inl hext), fun i hi => by cases hi⟩
  | @hit u ext' name i hpc hl =>
    obtain ⟨-, rfl, rfl⟩ : _ ∧ _ ∧ _ := by simpa using hev
    obtain ⟨e, hi, rfl⟩ := langCacheLookup_hit hl
    exact answerOk_some hi (h.ok_of_pc hpc) (h.cache_wf.entries_eq e (List.mem_of_getElem? hi))
  | full _ hl =>
    exact absurd hl (langCacheLookup_ne_full h.cache_wf.length_lt _)
  | @finish u ext' n tmp hpc =>
    obtain ⟨-, rfl, rfl⟩ : _ ∧ _ ∧ _ := by simpa using hev
    obtain ⟨hext, rfl, hload⟩ := h.finishing hpc
    obtain ⟨-, -, ⟨hnone, -, hr⟩ | ⟨e, he, hentries, hr⟩⟩ := langCacheInsert_spec h.cache_wf hload
    · rw [hr]
      refine ⟨iff_of_true rfl (Or.inr ⟨n, hext, loadLang_eq_none_iff.mp hnone⟩), ?_⟩
      intro i hi
      cases hi
    · rw [hr, hentries]
      have hname := loadLang_name he
      refine answerOk_some (e := e) ?_ (by rw [hname]; exact hext) (by rw [hname]; exact he)
      rw [List.getElem?_append_right le_rfl, Nat.sub_self]
      rfl

/-- Along every run every return so far is a good answer in the cache as it is. -/
theorem answers_ok {tr : List (LangEvent T)} {s : LangState T E} (h : (langLts T dl).Exec tr s)
    {t : T} {ext : CStr} {r : Option ℕ} (hret : .ret t ext r ∈ tr) :
    AnswerOk dl s.cache.entries ext r := by
  refine h.induction (P := fun tr s => ∀ t ext r, .ret t ext r ∈ tr →
    AnswerOk dl s.cache.entries ext r) ?_ ?_ t ext r hret
  · intro s _ t ext r hret
    cases hret
  · intro tr s e s' hex ih hs t ext r hret
    have hinv := langInv_reachable ⟨tr, hex⟩
    rw [List.mem_append, List.mem_singleton] at hret
    rcases hret with hret | rfl
    · exact (ih t ext r hret).mono hs.entries_prefix
    · exact hinv.answer hs

omit [DecidableEq T] in
/-- Two answers with one language's entry are the same answer. -/
theorem answer_unique {s : LangState T E} (h : LangInv dl s) {ext ext' : CStr} {i j : ℕ}
    (hi : AnswerOk dl s.cache.entries ext (some i)) (hj : AnswerOk dl s.cache.entries ext' (some j))
    (hext : extToLang ext = extToLang ext') : i = j := by
  obtain ⟨e, he, hen⟩ := hi.2 i rfl
  obtain ⟨e', he', hen'⟩ := hj.2 j rfl
  have hname : e.name = e'.name := by
    rw [hen, hen'] at hext
    exact Option.some.inj hext
  obtain ⟨hlt, rfl⟩ := List.getElem?_eq_some_iff.mp he
  obtain ⟨hlt', rfl⟩ := List.getElem?_eq_some_iff.mp he'
  have hi' : i < s.cache.names.length := by simpa [LangCache.names] using hlt
  have hj' : j < s.cache.names.length := by simpa [LangCache.names] using hlt'
  have hnames : s.cache.names[i] = s.cache.names[j] := by simpa [LangCache.names] using hname
  exact h.cache_wf.names_nodup.getElem_inj_iff.mp hnames

/-- `load_lang` returned with an entry for `n`. -/
def LangEvent.Succeeds (n : CStr) : LangEvent T → Bool
  | .loaded _ m ok => m == n && ok
  | _ => false

/-- The entry of `n` exists: it is in the cache, or a thread is about to insert it. -/
def Obtained (s : LangState T E) (n : CStr) : Prop :=
  n ∈ s.cache.names ∨ ∃ t ext e, s.pc t = .finish ext n (some e)

/-- A step drops no entry that exists, and makes one only by a successful load. -/
theorem LangInv.obtained_step {s s' : LangState T E} {ev : LangEvent T} (h : LangInv dl s)
    (hs : LangStep dl s ev s') {n : CStr} (hn : Obtained s n) : Obtained s' n := by
  rcases hn with hn | ⟨u, ext', e, hu⟩
  · apply Or.inl
    exact (hs.entries_prefix.map LangEntry.name).subset hn
  · -- the thread about to insert is not the one that steps, unless it inserts
    have hkeep : ∀ (t : T) (pc : LangPc E) (cache : LangCache E), s.pc t ≠ s.pc u →
        Obtained ⟨cache, Function.update s.pc t pc⟩ n := by
      intro t pc cache hne
      refine Or.inr ⟨u, ext', e, ?_⟩
      rw [← hu]
      exact Function.update_of_ne (by rintro rfl; exact hne rfl) _ _
    cases hs with
    | unknown _ _ => exact Or.inr ⟨u, ext', e, hu⟩
    | call hpc _ => exact hkeep _ _ _ (by rw [hpc, hu]; simp)
    | hit hpc _ => exact hkeep _ _ _ (by rw [hpc, hu]; simp)
    | wait hpc _ => exact hkeep _ _ _ (by rw [hpc, hu]; simp)
    | full hpc _ => exact hkeep _ _ _ (by rw [hpc, hu]; simp)
    | mark hpc _ => exact hkeep _ _ _ (by rw [hpc, hu]; simp)
    | spurious hpc =>
      obtain ⟨x, m, ha, -⟩ := loaded_eq_some hpc
      exact hkeep _ _ _ (by rw [ha, hu]; simp)
    | recheck hpc => exact hkeep _ _ _ (by rw [hpc, hu]; simp)
    | load hpc => exact hkeep _ _ _ (by rw [hpc, hu]; simp)
    | @finish t ext m tmp hpc =>
      by_cases htu : t = u
      · -- it inserts its entry
        subst htu
        obtain ⟨rfl, rfl, rfl⟩ : ext = ext' ∧ m = n ∧ tmp = some e := by
          rw [hpc] at hu
          simpa using hu
        obtain ⟨-, he, hload⟩ := h.finishing hpc
        obtain ⟨-, -, ⟨hnone, -, -⟩ | ⟨e', he', hentries, -⟩⟩ :=
          langCacheInsert_spec h.cache_wf hload
        · rw [hnone] at he
          cases he
        · apply Or.inl
          show m ∈ (langCacheInsert s.cache m (some e)).1.entries.map LangEntry.name
          rw [he, hentries, List.map_append, List.map_singleton, loadLang_name he']
          exact List.mem_append_right _ (List.mem_singleton.mpr rfl)
      · refine Or.inr ⟨u, ext', e, ?_⟩
        show Function.update (broadcast loaded s.pc) t .outside u = _
        rw [Function.update_of_ne (Ne.symm htu), broadcast_eq_of_awake (by rw [hu]; rfl), hu]

omit [DecidableEq T] in
/-- A load in progress is of a language that has no entry yet. -/
theorem LangInv.not_obtained_of_load {s : LangState T E} (h : LangInv dl s) {t : T}
    {ext n : CStr} (hpc : s.pc t = .load ext n) : ¬ Obtained s n := by
  have hload : n ∈ s.cache.loading := h.mem_loading (by rw [hpc]; rfl)
  rintro (hn | ⟨u, ext', e, hu⟩)
  · exact h.cache_wf.disjoint hload hn
  · obtain rfl : t = u := h.unique t u n (by rw [hpc]; rfl) (by rw [hu]; rfl)
    rw [hpc] at hu
    cases hu

/-- Along every run each language has been loaded successfully at most once, and
then its entry exists. -/
theorem loads_succeed_once {tr : List (LangEvent T)} {s : LangState T E}
    (h : (langLts T dl).Exec tr s) (n : CStr) :
    tr.countP (LangEvent.Succeeds n) ≤ 1 ∧
      (tr.countP (LangEvent.Succeeds n) = 1 → Obtained s n) := by
  refine h.induction (P := fun tr s => tr.countP (LangEvent.Succeeds n) ≤ 1 ∧
    (tr.countP (LangEvent.Succeeds n) = 1 → Obtained s n)) ?_ ?_
  · intro s _
    exact ⟨Nat.zero_le _, fun h0 => by cases h0⟩
  · intro tr s ev s' hex ⟨hle, hobt⟩ hs
    have hinv := langInv_reachable ⟨tr, hex⟩
    rw [List.countP_append, List.countP_singleton]
    by_cases hev : ev.Succeeds n = true
    · -- the load that just succeeded is the first to do so
      rw [if_pos hev]
      cases hs with
      | @load t ext m hpc =>
        simp only [LangEvent.Succeeds, Bool.and_eq_true, beq_iff_eq] at hev
        obtain ⟨rfl, hok⟩ := hev
        have hzero : tr.countP (LangEvent.Succeeds m) ≠ 1 :=
          fun h1 => hinv.not_obtained_of_load hpc (hobt h1)
        refine ⟨by omega, fun _ => Or.inr ?_⟩
        obtain ⟨e, he⟩ := Option.isSome_iff_exists.mp hok
        refine ⟨t, ext, e, ?_⟩
        show Function.update s.pc t _ t = _
        rw [Function.update_self, he]
      | unknown _ _ => cases hev
      | call _ _ => cases hev
      | hit _ _ => cases hev
      | wait _ _ => cases hev
      | full _ _ => cases hev
      | mark _ _ => cases hev
      | spurious _ => cases hev
      | recheck _ => cases hev
      | finish _ => cases hev
    · rw [if_neg hev, Nat.add_zero]
      exact ⟨hle, fun h1 => hinv.obtained_step hs (hobt h1)⟩

/-- **The cache loads each language once and answers consistently.** -/
theorem langCache_loads_once {tr : List (LangEvent T)} {s : LangState T E}
    (h : (langLts T dl).Exec tr s) :
    -- marked and loaded names are distinct, each and from each other
    (s.cache.loading.Nodup ∧ s.cache.names.Nodup ∧ ∀ n ∈ s.cache.loading, n ∉ s.cache.names) ∧
    -- no two loads of a language at a time, and no two that succeed
    (∀ t u ext ext' n, s.pc t = .load ext n → s.pc u = .load ext' n → t = u) ∧
    (∀ n, tr.countP (LangEvent.Succeeds n) ≤ 1) ∧
    -- neither bound is met
    ((∀ n, langCacheLookup s.cache n ≠ .full) ∧ s.cache.entries.length < maxLangs) ∧
    -- entries stay as they are
    (∀ e s', LangStep dl s e s' → s.cache.entries <+: s'.cache.entries) ∧
    -- what calls have returned
    (∀ t ext r, .ret t ext r ∈ tr → AnswerOk dl s.cache.entries ext r) ∧
    (∀ t u ext ext' i j, .ret t ext (some i) ∈ tr → .ret u ext' (some j) ∈ tr →
      extToLang ext = extToLang ext' → i = j) := by
  have hinv : LangInv dl s := langInv_reachable ⟨tr, h⟩
  have hwf := hinv.cache_wf
  have hlt := hwf.length_lt
  refine ⟨⟨hwf.loading_nodup, hwf.names_nodup, fun n => hwf.disjoint⟩, ?_,
    fun n => (loads_succeed_once h n).1, ⟨langCacheLookup_ne_full hlt, by omega⟩,
    fun e s' hs => hs.entries_prefix, fun t ext r => answers_ok h, ?_⟩
  · intro t u ext ext' n ht hu
    exact hinv.unique t u n (by rw [ht]; rfl) (by rw [hu]; rfl)
  · intro t u ext ext' i j hi hj hext
    exact answer_unique hinv (answers_ok h hi) (answers_ok h hj) hext

/-- Two calls for one language by different extensions: the second sleeps until the
first has loaded it, and both return its entry. -/
theorem langCache_loads_once_cpp : ∃ s : LangState Bool Unit,
    (langLts Bool fun _ => some ()).Exec
      [.call true (CStr.lit "cpp"), .mark true (CStr.lit "cpp"), .call false (CStr.lit "h"),
        .sleep false (CStr.lit "cpp"), .loaded true (CStr.lit "cpp") true,
        .ret true (CStr.lit "cpp") (some 0), .recheck false, .ret false (CStr.lit "h") (some 0)] s ∧
      AnswerOk (fun _ => some ()) s.cache.entries (CStr.lit "h") (some 0) := by
  let dl : CStr → Option Unit := fun _ => some ()
  let cpp := CStr.lit "cpp"
  let s₀ : LangState Bool Unit := ⟨⟨[], []⟩, fun _ => .outside⟩
  have h₀ : (langLts Bool dl).Exec [] s₀ := Lts.Exec.init ⟨rfl, fun _ => rfl⟩
  have h₁ := h₀.snoc (@LangStep.call _ _ _ _ _ true cpp cpp rfl (by decide))
  have h₂ := h₁.snoc (@LangStep.mark _ _ _ _ _ true cpp cpp _ rfl rfl)
  have h₃ := h₂.snoc (@LangStep.call _ _ _ _ _ false (CStr.lit "h") cpp rfl (by decide))
  have h₄ := h₃.snoc (@LangStep.wait _ _ _ _ _ false (CStr.lit "h") cpp rfl rfl)
  have h₅ := h₄.snoc (@LangStep.load _ _ _ _ _ true cpp cpp rfl)
  have h₆ := h₅.snoc (@LangStep.finish _ _ _ _ _ true cpp cpp _ rfl)
  have h₇ := h₆.snoc (@LangStep.recheck _ _ _ _ _ false (CStr.lit "h") cpp rfl)
  have h₈ := h₇.snoc (@LangStep.hit _ _ _ _ _ false (CStr.lit "h") cpp 0 rfl rfl)
  refine ⟨_, h₈, (langCache_loads_once h₈).2.2.2.2.2.1 false _ _ ?_⟩
  simp

end Tsag
