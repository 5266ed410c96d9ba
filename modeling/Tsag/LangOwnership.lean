import Tsag.LangCache
import Tsag.LineOwnership

/-!
# The blocks of the language cache

`load_lang` acquires a library, a query and a name, one after the other, and gives back
what it has on every path on which it fails.

## Main definitions

* `queryLangs`, `findQuery` — `QUERIES`, and the loop over it.
* `LangCalls`, `Owned.loadLang`, `Owned.loadLangFree` — the functions on an entry.
* `CachePtr`, `Owned.langCacheNew`, `Owned.langCacheFree` — the functions on the cache.

## Main results

* `Owned.wp_loadLang` — `load_lang` leaves an entry or nothing.
* `Owned.wp_langCacheNew`, `Owned.wp_langCacheFree` — nothing is left of a cache that could
  not be made, or has been freed.
-/

namespace Tsag

/-! ### Loading a language -/

/-- `QUERIES`, the languages. -/
def queryLangs : List CStr :=
  ["cpp", "c", "python", "lua", "javascript", "typescript", "zig", "rust", "go"].map CStr.lit

/-- The loop over `QUERIES`: the language whose query has been found. -/
def findQuery (lang : CStr) : Option CStr := queryLangs.find? fun q => strcmp q lang == .eq

/-- Every language of the extension table has a query of its own. -/
theorem findQuery_of_mem {lang : CStr} (h : lang ∈ langNames) : findQuery lang = some lang := by
  have hall : ∀ n ∈ langNames, findQuery n = some n := by decide
  exact hall lang h

/-- What the calls of one `load_lang` come to. -/
structure LangCalls (E : Type) where
  malloc : Bool
  dlopen : Bool
  dlsym : Bool
  /-- `ts_query_new` with the query of a language. -/
  queryNew : CStr → Option E
  strdup : Bool

/-- What loading a language then comes to. -/
def LangCalls.dl {E : Type} (calls : LangCalls E) (lang : CStr) : Option E :=
  if calls.dlopen ∧ calls.dlsym ∧ calls.strdup then
    (findQuery lang).bind calls.queryNew
  else none

/-- A language of the table may load as anything, and may not load. -/
theorem LangCalls.exists_dl_eq {E : Type} {lang : CStr} (h : lang ∈ langNames) (r : Option E) :
    ∃ calls : LangCalls E, calls.malloc = true ∧ calls.dl lang = r := by
  refine ⟨⟨true, true, true, fun _ => r, true⟩, rfl, ?_⟩
  simp [LangCalls.dl, findQuery_of_mem h]

/-- A `LangEntry` that has been loaded: the blocks of its library, its query and its name. -/
structure EntryPtr (E : Type) where
  lib : ℕ
  query : ℕ
  name : ℕ
  entry : LangEntry E

variable {E : Type}

/-- The blocks of an entry. -/
def EntryPtr.owned (p : EntryPtr E) : Owns :=
  {(.mem, p.name)} + {(.query, p.query)} + {(.dl, p.lib)}

/-- The blocks of what `load_lang` returns, that of the struct first. -/
def tmpOwned (tmp : Option (ℕ × EntryPtr E)) : Owns :=
  tmp.elim 0 fun p => {(.mem, p.1)} + p.2.owned

namespace Owned

open Own

/-- The end of `load_lang` when a step has failed. -/
def loadCleanup (entry : ℕ) (query lib : Option ℕ) : Code (Option (ℕ × EntryPtr E)) := do
  -- the name is `NULL` on all of these paths
  touch .mem entry
  free .query query
  free .dl lib
  release .mem entry
  return none

/-- `load_lang`. -/
def loadLang (calls : LangCalls E) (lang : CStr) : Code (Option (ℕ × EntryPtr E)) :=
  -- what `malloc` returns is written to unchecked
  if ¬ calls.malloc then fail
  else do
    let entry ← acquire .mem
    touch .mem entry
    if ¬ calls.dlopen then loadCleanup entry none none
    else
      let lib ← acquire .dl
      touch .mem entry
      if ¬ calls.dlsym then loadCleanup entry none (some lib)
      else
        touch .dl lib
        match findQuery lang with
        | none => loadCleanup entry none (some lib)
        | some q =>
            touch .dl lib
            match calls.queryNew q with
            | none => loadCleanup entry none (some lib)
            | some handles =>
                let query ← acquire .query
                touch .mem entry
                if ¬ calls.strdup then loadCleanup entry (some query) (some lib)
                else
                  let name ← acquire .mem
                  touch .mem entry
                  return some (entry, ⟨lib, query, name, ⟨lang, handles⟩⟩)

/-- `load_lang_free`. -/
def loadLangFree : Option (ℕ × EntryPtr E) → Code Unit
  | none => return ()
  | some (entry, p) => do
      touch .mem entry
      release .mem p.name
      release .query p.query
      release .dl p.lib
      release .mem entry

theorem wp_loadCleanup (entry : ℕ) (query lib : Option ℕ) :
    (loadCleanup entry query lib : Code (Option (ℕ × EntryPtr E))).wp
      (fun r left => r = none ∧ left = 0)
      (blockOf .query query + (blockOf .dl lib + ({(.mem, entry)} + 0))) := by
  simp only [loadCleanup, wp_bind, wp_touch]
  refine ⟨by simp, ?_⟩
  rw [wp_free, wp_free, wp_release]
  exact ⟨rfl, rfl⟩

/-- **`load_lang` leaves an entry or nothing**, on every path. -/
theorem wp_loadLang {calls : LangCalls E} (hmalloc : calls.malloc = true) {lang : CStr} :
    (loadLang calls lang).wp (fun r left =>
      r.map (fun p => p.2.entry) = Tsag.loadLang calls.dl lang ∧ left = tmpOwned r)
      0 := by
  -- the paths on which a step fails
  have hcleanup : calls.dl lang = none → ∀ (entry : ℕ) (query lib : Option ℕ) {held : Owns},
      held = blockOf .query query + blockOf .dl lib + {(.mem, entry)} →
      (loadCleanup entry query lib).wp (fun r left =>
        r.map (fun p => p.2.entry) = Tsag.loadLang calls.dl lang ∧ left = tmpOwned r)
        held := by
    intro hdl entry query lib held hheld
    apply wp_call (wp_loadCleanup entry query lib) 0 (by rw [hheld]; abel)
    rintro _ _ ⟨rfl, rfl⟩
    rw [Tsag.loadLang, hdl]
    exact ⟨rfl, rfl⟩
  rw [loadLang, if_neg (not_not.mpr hmalloc), wp_bind, wp_acquire]
  intro entry
  rw [wp_bind, wp_touch]
  refine ⟨by simp, ?_⟩
  -- `dlopen`
  by_cases hdlopen : calls.dlopen
  swap
  · rw [if_pos hdlopen]
    exact hcleanup (by simp [LangCalls.dl, hdlopen]) entry none none (by simp [blockOf])
  rw [if_neg (not_not.mpr hdlopen), wp_bind, wp_acquire]
  intro lib
  have hlib : {(Res.dl, lib)} + ({(Res.mem, entry)} + 0)
      = blockOf .query none + blockOf .dl (some lib) + {(Res.mem, entry)} := by
    simp [blockOf]
  rw [wp_bind, wp_touch]
  refine ⟨by simp, ?_⟩
  -- `dlsym`
  by_cases hdlsym : calls.dlsym
  swap
  · rw [if_pos hdlsym]
    exact hcleanup (by simp [LangCalls.dl, hdlsym]) entry none (some lib) hlib
  rw [if_neg (not_not.mpr hdlsym), wp_bind, wp_touch]
  refine ⟨by simp, ?_⟩
  -- the query of the language, and what `ts_query_new` makes of it
  cases hq : findQuery lang with
  | none => exact hcleanup (by simp [LangCalls.dl, hq]) entry none (some lib) hlib
  | some q =>
    simp only [wp_bind, wp_touch]
    refine ⟨by simp, ?_⟩
    cases hnew : calls.queryNew q with
    | none => exact hcleanup (by simp [LangCalls.dl, hq, hnew]) entry none (some lib) hlib
    | some handles =>
      simp only [wp_bind, wp_acquire, wp_touch]
      intro query
      refine ⟨by simp, ?_⟩
      -- `strdup`
      by_cases hstrdup : calls.strdup
      swap
      · rw [if_pos hstrdup]
        apply hcleanup (by simp [LangCalls.dl, hstrdup]) entry (some query) (some lib)
        simp only [blockOf, Option.elim_some]
        abel
      rw [if_neg (not_not.mpr hstrdup), wp_bind, wp_acquire]
      intro name
      rw [wp_bind, wp_touch]
      refine ⟨by simp, ?_, ?_⟩
      · simp [Tsag.loadLang, LangCalls.dl, hdlopen, hdlsym, hstrdup, hq, hnew]
      · simp only [tmpOwned, Option.elim_some, EntryPtr.owned]
        abel

/-- Nothing is left of an entry that has been dropped. -/
theorem wp_loadLangFree (tmp : Option (ℕ × EntryPtr E)) :
    (loadLangFree tmp).wp (fun _ left => left = 0) (tmpOwned tmp) := by
  cases tmp with
  | none => exact rfl
  | some tmp =>
    obtain ⟨entry, p⟩ := tmp
    have hheld : tmpOwned (some (entry, p)) = {(Res.mem, p.name)} + ({(Res.query, p.query)}
        + ({(Res.dl, p.lib)} + ({(Res.mem, entry)} + 0))) := by
      simp only [tmpOwned, Option.elim_some, EntryPtr.owned]
      abel
    rw [hheld]
    simp only [loadLangFree, wp_bind, wp_touch, wp_release]
    exact ⟨by simp, trivial⟩

end Owned

/-! ### The cache itself -/

/-- What the calls of `lang_cache_new` come to. -/
structure CacheCalls where
  calloc : Bool
  strdup : Bool
  mutexInit : Bool
  condInit : Bool

/-- A `LangCache*`, its entries apart. -/
structure CachePtr where
  self : ℕ
  parserDir : ℕ
  lock : ℕ
  loaded : ℕ

/-- The blocks of the cache, those of its entries apart. -/
def CachePtr.owned (c : CachePtr) : Owns :=
  {(.mutex, c.lock)} + ({(.cond, c.loaded)} + ({(.mem, c.parserDir)} + {(.mem, c.self)}))

/-- The blocks of entries. -/
def entriesOwned (entries : List (EntryPtr E)) : Owns := (entries.map EntryPtr.owned).sum

namespace Owned

open Own

/-- `lang_cache_new`. -/
def langCacheNew (calls : CacheCalls) : Code (Option CachePtr) :=
  if ¬ calls.calloc then return none
  else do
    let self ← acquire .mem
    if ¬ calls.strdup then
      release .mem self
      return none
    else
      let parserDir ← acquire .mem
      if ¬ calls.mutexInit then
        release .mem parserDir
        release .mem self
        return none
      else
        let lock ← acquire .mutex
        if ¬ calls.condInit then
          release .mutex lock
          release .mem parserDir
          release .mem self
          return none
        else
          let loaded ← acquire .cond
          return some ⟨self, parserDir, lock, loaded⟩

/-- The loop of `lang_cache_free`. -/
def freeEntries (cache : CachePtr) : List (EntryPtr E) → Code Unit
  | [] => return ()
  | p :: entries => do
      touch .mem cache.self
      release .query p.query
      release .dl p.lib
      release .mem p.name
      freeEntries cache entries

/-- `lang_cache_free`. -/
def langCacheFree (cache : CachePtr) (entries : List (EntryPtr E)) : Code Unit := do
  freeEntries cache entries
  release .mutex cache.lock
  release .cond cache.loaded
  touch .mem cache.self
  release .mem cache.parserDir
  release .mem cache.self

/-- **A cache that could not be made leaves nothing.** -/
theorem wp_langCacheNew (calls : CacheCalls) :
    (langCacheNew calls).wp (fun c left => left = c.elim 0 CachePtr.owned) 0 := by
  unfold langCacheNew
  by_cases hcalloc : calls.calloc
  swap
  · rw [if_pos hcalloc]
    exact rfl
  rw [if_neg (not_not.mpr hcalloc), wp_bind, wp_acquire]
  intro self
  by_cases hstrdup : calls.strdup
  swap
  · rw [if_pos hstrdup, wp_bind, wp_release]
    exact rfl
  rw [if_neg (not_not.mpr hstrdup), wp_bind, wp_acquire]
  intro parserDir
  by_cases hmutex : calls.mutexInit
  swap
  · rw [if_pos hmutex]
    simp only [wp_bind, wp_release]
    exact rfl
  rw [if_neg (not_not.mpr hmutex), wp_bind, wp_acquire]
  intro lock
  by_cases hcond : calls.condInit
  swap
  · rw [if_pos hcond]
    simp only [wp_bind, wp_release]
    exact rfl
  rw [if_neg (not_not.mpr hcond), wp_bind, wp_acquire]
  intro loaded
  show _ = CachePtr.owned ⟨self, parserDir, lock, loaded⟩
  rw [CachePtr.owned]
  abel

theorem wp_freeEntries (cache : CachePtr) (entries : List (EntryPtr E)) :
    (freeEntries cache entries).wp (fun _ left => left = cache.owned)
      (entriesOwned entries + cache.owned) := by
  induction entries with
  | nil => exact zero_add _
  | cons p entries ih =>
    have hheld : entriesOwned (p :: entries) + cache.owned = {(Res.query, p.query)}
        + ({(Res.dl, p.lib)} + ({(Res.mem, p.name)} + (entriesOwned entries + cache.owned))) := by
      simp only [entriesOwned, List.map_cons, List.sum_cons, EntryPtr.owned]
      abel
    rw [hheld]
    simp only [freeEntries, wp_bind, wp_touch, wp_release]
    exact ⟨by simp [CachePtr.owned], ih⟩

/-- **Nothing is left of a cache that has been freed.** -/
theorem wp_langCacheFree (cache : CachePtr) (entries : List (EntryPtr E)) :
    (langCacheFree cache entries).wp (fun _ left => left = 0)
      (entriesOwned entries + cache.owned) := by
  rw [langCacheFree, wp_bind]
  apply wp_mono (wp_freeEntries cache entries)
  rintro _ _ rfl
  rw [CachePtr.owned, ← add_zero {(Res.mem, cache.self)}]
  simp only [wp_bind, wp_release, wp_touch]
  exact ⟨by simp, trivial⟩

end Owned

end Tsag
