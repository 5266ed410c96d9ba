import Tsag.LangOwnership
import Tsag.LangWaiters

/-!
# The memory of the language cache

The threads around the cache once more, each with the blocks it owns.  An entry belongs to
the thread that has loaded it, until it moves into the cache under the lock; there it stays
until `main` frees the cache.  Two loads of a language need not come out the same: the calls
of each come to what they may.

## Main definitions

* `LangRest`, `LangMemStep`, `langMemLts` — the threads, with their blocks.
* `langContract`, `CacheHolds` — what a thread and the cache own.
* `MayFind`, `Loads` — what `lang_cache_get` may return, and where the entries come from.

## Main results

* `langMem_keeps` — the threads keep to their contracts.
* `LangMemStep.answer` — what `lang_cache_get` returns is what a load has come to.
* `langCache_memory` — no thread faults, and once all are outside `lang_cache_free` leaves
  nothing.
-/

namespace Tsag

variable {T E : Type} [DecidableEq T]

/-- Which thread does it. -/
def LangEvent.thread {T : Type*} : LangEvent T → T
  | call t _ | ret t _ _ | sleep t _ | spurious t | recheck t | mark t _ | loaded t _ _ => t

/-- The extension that a call or a return is for. -/
def LangEvent.ext {T : Type*} : LangEvent T → Option CStr
  | call _ ext | ret _ ext _ => some ext
  | _ => none

/-- What `lang_cache_get` returns. -/
def LangEvent.answer {T : Type*} : LangEvent T → Option (Option ℕ)
  | ret _ _ r => some r
  | _ => none

/-- What a thread rests with. -/
inductive LangRest (E : Type)
  | outside
  /-- `load_lang` has returned. -/
  | loaded (tmp : Option (ℕ × EntryPtr E))

/-- `load_lang`, with the lock dropped. -/
def loadCode (calls : LangCalls E) (name : CStr) : Code (LangRest E) := do
  let tmp ← Owned.loadLang calls name
  return .loaded tmp

/-- `free(tmp)`, once the entry has been copied into the cache. -/
def insertCode (tmp : ℕ) : Code (LangRest E) := do
  Own.touch .mem tmp
  Own.release .mem tmp
  return .outside

/-- `load_lang_free(tmp)`, when there is no room for the entry. -/
def dropCode (tmp : Option (ℕ × EntryPtr E)) : Code (LangRest E) := do
  Owned.loadLangFree tmp
  return .outside

section Code

-- what the calls of a load of a language may come to
variable (loads : CStr → LangCalls E → Prop)

/-- A step of `lang_cache_get`, and what its thread does with its blocks afterwards. -/
inductive LangMemStep (s : LangState T E) :
    LangEvent T → Act Res (EntryPtr E) (LangRest E) → LangState T E → Prop
  | load {t : T} {ext name : CStr} {calls : LangCalls E} {s' : LangState T E}
      (hpc : s.pc t = .load ext name) (hmay : loads name calls)
      (hs : LangStep calls.dl s (.loaded t name (loadLang calls.dl name).isSome) s') :
      LangMemStep s (.loaded t name (loadLang calls.dl name).isSome)
        (.resume .outside (loadCode calls name)) s'
  | insert {dl : CStr → Option E} {t : T} {ext name : CStr} {tmp i : ℕ} {p : EntryPtr E}
      {s' : LangState T E} (hpc : s.pc t = .finish ext name (some p.entry))
      (hins : (langCacheInsert s.cache name (some p.entry)).2 = some i)
      (hs : LangStep dl s (.ret t ext (some i)) s') :
      LangMemStep s (.ret t ext (some i)) (.send (.loaded (some (tmp, p))) p (insertCode tmp)) s'
  | drop {dl : CStr → Option E} {t : T} {ext name : CStr} {tmp : Option (ℕ × EntryPtr E)}
      {s' : LangState T E} (hpc : s.pc t = .finish ext name (tmp.map fun p => p.2.entry))
      (hins : (langCacheInsert s.cache name (tmp.map fun p => p.2.entry)).2 = none)
      (hs : LangStep dl s (.ret t ext none) s') :
      LangMemStep s (.ret t ext none) (.resume (.loaded tmp) (dropCode tmp)) s'
  | other {dl : CStr → Option E} {e : LangEvent T} {s' : LangState T E} (hs : LangStep dl s e s')
      (hload : ∀ ext name, s.pc e.thread ≠ .load ext name)
      (hfinish : ∀ ext name tmp, s.pc e.thread ≠ .finish ext name tmp) :
      LangMemStep s e (.resume .outside (return .outside)) s'

variable (T) in
/-- The threads around the cache follow `lang_cache_get`. -/
def langMem : Protocol (LangState T E) T Res (EntryPtr E) (LangRest E) where
  Init := (langFreeLts T E).Init
  Step s _ t act s' := ∃ e : LangEvent T, e.thread = t ∧ LangMemStep loads s e act s'

variable (T) in
/-- Every interleaving of the operations of the threads, around a cache that is already
there. -/
def langMemLts (blocks : Blocks Res) :
    Lts (OwnState (LangState T E) T Res (EntryPtr E) (LangRest E)) T :=
  ownLts (langMem T loads) (fun _ => .ret .outside) blocks

end Code

/-! ### Contracts -/

/-- What `load_lang` has returned to a thread that has not yet taken the lock again. -/
def LangPc.tmp : LangPc E → Option (Option (LangEntry E))
  | .finish _ _ tmp => some tmp
  | _ => none

/-- The extension with which a thread inside `lang_cache_get` has called it. -/
def LangPc.ext : LangPc E → Option CStr
  | .outside => none
  | .lookup ext _ | .asleep ext _ | .woken ext _ | .load ext _ | .finish ext _ _ => some ext

theorem LangPc.ext_eq_none_iff {pc : LangPc E} : pc.ext = none ↔ pc = .outside := by
  cases pc with
  | outside => exact ⟨fun _ => rfl, fun _ => rfl⟩
  | _ => exact ⟨nofun, nofun⟩

/-- What a thread rests with, and owns. -/
def langContract (s : LangState T E) (t : T) (a : LangRest E) (held : Owns) : Prop :=
  match (s.pc t).tmp with
  | some tmp => ∃ p, a = .loaded p ∧ p.map (fun p => p.2.entry) = tmp ∧ held = tmpOwned p
  | none => a = .outside ∧ held = 0

/-- These are the entries of the cache. -/
def CacheHolds (s : LangState T E) (entries : Multiset (EntryPtr E)) : Prop :=
  entries.map EntryPtr.entry = (s.cache.entries : Multiset (LangEntry E))

variable {dl : CStr → Option E} {s s' : LangState T E}

theorem tmp_update_self (f : T → LangPc E) (t : T) (pc : LangPc E) :
    (Function.update f t pc t).tmp = pc.tmp := by rw [Function.update_self]

theorem ext_update_self (f : T → LangPc E) (t : T) (pc : LangPc E) :
    (Function.update f t pc t).ext = pc.ext := by rw [Function.update_self]

/-- A step of one thread wakes others, and no more. -/
theorem LangStep.pc_of_ne {e : LangEvent T} (hs : LangStep dl s e s') {u : T} (hu : u ≠ e.thread) :
    s'.pc u = s.pc u ∨ ∃ ext name, s.pc u = .asleep ext name ∧ s'.pc u = .woken ext name := by
  cases hs with
  | unknown _ _ => exact Or.inl rfl
  | call _ _ | hit _ _ | wait _ _ | full _ _ | mark _ _ | spurious _ | recheck _ | load _ =>
    exact Or.inl (Function.update_of_ne hu ..)
  | @finish t ext name tmp _ =>
    have hsame : Function.update (broadcast loaded s.pc) t .outside u = broadcast loaded s.pc u :=
      Function.update_of_ne hu ..
    cases hwake : loaded (s.pc u) with
    | none => exact Or.inl (hsame.trans (broadcast_eq_of_awake hwake))
    | some pc =>
      obtain ⟨ext', name', hpc, rfl⟩ := loaded_eq_some hwake
      exact Or.inr ⟨ext', name', hpc, hsame.trans (broadcast_eq_of_asleep hwake)⟩

theorem LangStep.tmp_of_ne {e : LangEvent T} (hs : LangStep dl s e s') {u : T}
    (hu : u ≠ e.thread) : (s'.pc u).tmp = (s.pc u).tmp := by
  obtain h | ⟨ext, name, h, h'⟩ := hs.pc_of_ne hu
  · rw [h]
  · rw [h, h']
    rfl

/-- Nor does it call another into the function, or out of it. -/
theorem LangStep.ext_of_ne {e : LangEvent T} (hs : LangStep dl s e s') {u : T}
    (hu : u ≠ e.thread) : (s'.pc u).ext = (s.pc u).ext := by
  obtain h | ⟨ext, name, h, h'⟩ := hs.pc_of_ne hu
  · rw [h]
  · rw [h, h']
    rfl

/-- A thread that is inside after its step has called for the extension it is inside with, or
stays inside with it; it has not returned. -/
theorem LangStep.ext_of_inside {e : LangEvent T} (hs : LangStep dl s e s')
    (hinside : s'.pc e.thread ≠ .outside) : e.answer = none ∧
      ((s.pc e.thread = .outside ∧ (s'.pc e.thread).ext = e.ext) ∨
        (s.pc e.thread ≠ .outside ∧ (s'.pc e.thread).ext = (s.pc e.thread).ext)) := by
  cases hs with
  | unknown hpc _ => exact absurd hpc hinside
  | hit _ _ | full _ _ | finish _ => exact absurd (Function.update_self ..) hinside
  | call hpc _ => exact ⟨rfl, Or.inl ⟨hpc, ext_update_self ..⟩⟩
  | wait hpc _ | mark hpc _ | recheck hpc | load hpc =>
    exact ⟨rfl, Or.inr ⟨ne_of_eq_of_ne hpc nofun,
      (ext_update_self ..).trans (congrArg LangPc.ext hpc).symm⟩⟩
  | spurious hwake =>
    obtain ⟨ext, name, hpc, rfl⟩ := loaded_eq_some hwake
    exact ⟨rfl, Or.inr ⟨ne_of_eq_of_ne hpc nofun,
      (ext_update_self ..).trans (congrArg LangPc.ext hpc).symm⟩⟩

/-- Only `load_lang` and the second locked section come by an entry, or part with it. -/
theorem LangStep.tmp_of_other {e : LangEvent T} (hs : LangStep dl s e s')
    (hload : ∀ ext name, s.pc e.thread ≠ .load ext name)
    (hfinish : ∀ ext name tmp, s.pc e.thread ≠ .finish ext name tmp) :
    (s.pc e.thread).tmp = none ∧ (s'.pc e.thread).tmp = none ∧
      s'.cache.entries = s.cache.entries := by
  have hbefore : (s.pc e.thread).tmp = none := by
    cases hpc : s.pc e.thread with
    | finish ext name tmp => exact absurd hpc (hfinish ext name tmp)
    | _ => rfl
  refine ⟨hbefore, ?_⟩
  cases hs with
  | unknown _ _ => exact ⟨hbefore, rfl⟩
  | call _ _ | hit _ _ | wait _ _ | full _ _ | recheck _ =>
    exact ⟨tmp_update_self .., rfl⟩
  | mark _ hl =>
    obtain ⟨-, -, rfl⟩ := langCacheLookup_mark hl
    exact ⟨tmp_update_self .., rfl⟩
  | spurious hpc =>
    obtain ⟨ext, name, -, rfl⟩ := loaded_eq_some hpc
    exact ⟨tmp_update_self .., rfl⟩
  | load hpc => exact absurd hpc (hload _ _)
  | finish hpc => exact absurd hpc (hfinish _ _ _)

/-- What a load does. -/
theorem LangStep.tmp_of_load {t : T} {name : CStr} {ok : Bool}
    (hs : LangStep dl s (.loaded t name ok) s') :
    (s.pc t).tmp = none ∧ (s'.pc t).tmp = some (loadLang dl name) ∧
      s'.cache.entries = s.cache.entries := by
  cases hs with
  | load hpc => exact ⟨by rw [hpc]; rfl, tmp_update_self .., rfl⟩

/-- What the second locked section does. -/
theorem LangStep.tmp_of_finish {t : T} {ext ext' name : CStr} {tmp : Option (LangEntry E)}
    {r : Option ℕ} (hpc : s.pc t = .finish ext name tmp) (hs : LangStep dl s (.ret t ext' r) s') :
    (s'.pc t).tmp = none ∧ s'.cache = (langCacheInsert s.cache name tmp).1 := by
  cases hs with
  | unknown hpc' _ | hit hpc' _ | full hpc' _ => cases hpc.symm.trans hpc'
  | finish hpc' =>
    obtain ⟨rfl, rfl, rfl⟩ := LangPc.finish.inj (hpc.symm.trans hpc')
    exact ⟨tmp_update_self .., rfl⟩

variable {loads : CStr → LangCalls E → Prop}

/-- A step of a thread is one of `lang_cache_get`. -/
theorem LangMemStep.langStep {e : LangEvent T} {act : Act Res (EntryPtr E) (LangRest E)}
    (hs : LangMemStep loads s e act s') : ∃ dl, LangStep dl s e s' := by
  cases hs with
  | load _ _ hs | insert _ _ hs | drop _ _ hs | other hs _ _ => exact ⟨_, hs⟩

/-- **The threads keep to their contracts**, if the structs `load_lang` allocates can be
allocated. -/
theorem langMem_keeps (hmalloc : ∀ name calls, loads name calls → calls.malloc = true) :
    (langMem T loads).Keeps EntryPtr.owned CacheHolds langContract where
  resume {s s' prog t a code mail held} hs hmail h := by
    obtain ⟨e, rfl, hs⟩ := hs
    unfold langContract at h ⊢
    cases hs with
    | @load _ ext name calls _ hpc hmay hs =>
      -- A load leaves its thread with the blocks of what it has loaded.
      obtain ⟨hbefore, hafter, hcache⟩ := hs.tmp_of_load
      dsimp only [LangEvent.thread] at h ⊢
      rw [hbefore] at h
      obtain ⟨-, rfl⟩ := h
      refine ⟨by rw [CacheHolds, hcache]; exact hmail, ?_⟩
      rw [loadCode, Own.wp_bind]
      apply Own.wp_mono (Owned.wp_loadLang (hmalloc name calls hmay))
      rintro tmp _ ⟨htmp, rfl⟩
      rw [Own.wp_pure, hafter]
      exact ⟨tmp, rfl, htmp, rfl⟩
    | @drop _ _ ext name tmp _ hpc hins hs =>
      -- What there is no room for, or what is NULL, is freed; the cache does not change.
      obtain ⟨hafter, hcache⟩ := hs.tmp_of_finish hpc
      dsimp only [LangEvent.thread] at h ⊢
      rw [hpc] at h
      obtain ⟨tmp', hrest, -, rfl⟩ := h
      obtain rfl := LangRest.loaded.inj hrest
      constructor
      · rw [CacheHolds, hcache, langCacheInsert_entries, if_pos hins, Option.toList_none,
          List.append_nil]
        exact hmail
      · rw [dropCode, Own.wp_bind]
        apply Own.wp_mono (Owned.wp_loadLangFree tmp)
        rintro _ _ rfl
        rw [Own.wp_pure, hafter]
        exact ⟨rfl, rfl⟩
    | other hs hload hfinish =>
      -- No other step changes the entries or what the thread has loaded.
      obtain ⟨hbefore, hafter, hcache⟩ := hs.tmp_of_other hload hfinish
      rw [hbefore] at h
      refine ⟨by rw [CacheHolds, hcache]; exact hmail, ?_⟩
      rw [Own.wp_pure, hafter]
      exact h
  send {s s' prog t a m code mail held} hs hmail h := by
    obtain ⟨e, rfl, hs⟩ := hs
    unfold langContract at h ⊢
    cases hs with
    | @insert _ _ ext name tmp i p _ hpc hins hs =>
      -- The handles go to the cache with their entry, and the struct is freed.
      obtain ⟨hafter, hcache⟩ := hs.tmp_of_finish hpc
      dsimp only [LangEvent.thread] at h ⊢
      rw [hpc] at h
      obtain ⟨tmp', hrest, -, rfl⟩ := h
      obtain rfl := LangRest.loaded.inj hrest
      constructor
      · rw [CacheHolds, hcache, langCacheInsert_entries, if_neg (by rw [hins]; simp),
          ← Multiset.coe_add, ← hmail, Multiset.map_add, add_comm]
        rfl
      · refine ⟨{(.mem, tmp)} + 0, ?_, ?_⟩
        · simp only [tmpOwned, Option.elim_some]
          abel
        · simp only [insertCode, Own.wp_bind, Own.wp_touch, Own.wp_release]
          rw [Own.wp_pure, hafter]
          exact ⟨by simp, rfl, rfl⟩
  receive {s s' prog t a m code mail held} hs hmail h := by
    obtain ⟨e, -, hs⟩ := hs
    cases hs
  others {s s' prog t u act a held} hs hu h := by
    obtain ⟨e, rfl, hs⟩ := hs
    obtain ⟨dl, hlang⟩ := hs.langStep
    unfold langContract at h ⊢
    rwa [hlang.tmp_of_ne hu]

/-- **The threads follow `lang_cache_get`**: forgetting the blocks makes a run of the one a
run of the other. -/
theorem reachable_lang {blocks : Blocks Res}
    {s : OwnState (LangState T E) T Res (EntryPtr E) (LangRest E)}
    (h : (langMemLts T loads blocks).Reachable s) : (langFreeLts T E).Reachable s.proto := by
  apply h.invariant (I := fun s => (langFreeLts T E).Reachable s.proto)
  · intro s hinit
    exact .init hinit.1
  · intro s t s' hr hs
    rcases hs.op_or_proto with ⟨hproto, -⟩ | ⟨act, hact, -⟩
    · rwa [hproto]
    · obtain ⟨e, -, hs⟩ := hact
      exact hr.step hs.langStep

/-- A thread that rests by its contract can do what `lang_cache_get` does next, if its load may
come to that. -/
theorem exists_langMemStep {e : LangEvent T} {b : LangRest E} {held : Owns}
    (hs : LangStep dl s e s') (hmay : ∀ ext name, s.pc e.thread = .load ext name →
      ∃ calls, loads name calls ∧ calls.dl name = dl name)
    (h : langContract s e.thread b held) (mail : Multiset (EntryPtr E)) :
    ∃ act, LangMemStep loads s e act s' ∧ act.Ready b mail := by
  have hs' := hs
  unfold langContract at h
  cases hs' with
  | unknown hpc _ | call hpc _ | hit hpc _ | wait hpc _ | full hpc _ | mark hpc _ | recheck hpc =>
    simp only [LangEvent.thread, hpc, LangPc.tmp] at h
    exact ⟨_, .other hs (by simp [LangEvent.thread, hpc]) (by simp [LangEvent.thread, hpc]),
      h.1.symm⟩
  | spurious hwake =>
    obtain ⟨ext, name, hpc, -⟩ := loaded_eq_some hwake
    simp only [LangEvent.thread, hpc, LangPc.tmp] at h
    exact ⟨_, .other hs (by simp [LangEvent.thread, hpc]) (by simp [LangEvent.thread, hpc]),
      h.1.symm⟩
  | @load t ext name hpc =>
    -- The load comes out as one that may happen does.
    obtain ⟨calls, hcalls, hdl⟩ := hmay ext name hpc
    simp only [LangEvent.thread, hpc, LangPc.tmp] at h
    rw [← loadLang_congr hdl]
    exact ⟨_, .load hpc hcalls (.load hpc), h.1.symm⟩
  | @finish t ext name tmp hpc =>
    -- A thread that has loaded an entry hands it to the cache or frees it.
    simp only [LangEvent.thread, hpc, LangPc.tmp] at h
    obtain ⟨p, rfl, rfl, -⟩ := h
    cases hins : (langCacheInsert s.cache name (p.map fun p => p.2.entry)).2 with
    | none => exact ⟨_, .drop hpc hins (hins ▸ hs), rfl⟩
    | some i =>
      cases p with
      | none => cases hins
      | some p => exact ⟨_, .insert hpc hins (hins ▸ hs), rfl⟩

/-! ### What `lang_cache_get` returns -/

variable (loads) in
/-- What `lang_cache_get` may return for an extension: what some load of its language may have
come to. -/
def MayFind (ext : CStr) : Option E → Prop
  | none => ∀ name, extToLang ext = some name → ∃ calls, loads name calls ∧ calls.dl name = none
  | some handles => ∃ name calls, extToLang ext = some name ∧ loads name calls ∧
      calls.dl name = some handles

omit [DecidableEq T] in
/-- The entry at the address returned, if one is. -/
def LangCache.find (c : LangCache E) (r : Option ℕ) : Option E :=
  (r.bind fun i => c.entries[i]?).map LangEntry.handles

/-- An address stays that of its entry. -/
theorem LangCache.find_of_prefix {c c' : LangCache E} (hpre : c.entries <+: c'.entries)
    {r : Option ℕ} (hr : ∀ i, r = some i → i < c.entries.length) : c'.find r = c.find r := by
  obtain ⟨tail, htail⟩ := hpre
  cases r with
  | none => rfl
  | some i =>
    simp only [LangCache.find, Option.bind_some]
    rw [← htail, List.getElem?_append_left (hr i rfl)]

variable (loads) in
/-- The entries come from loads: those in the cache, and those about to be inserted. -/
structure Loads (s : LangState T E) : Prop where
  entry : ∀ e ∈ s.cache.entries, ∃ calls, loads e.name calls ∧ calls.dl e.name = some e.handles
  finishing : ∀ t ext name tmp, s.pc t = .finish ext name tmp →
    ∃ calls, loads name calls ∧ tmp = loadLang calls.dl name

omit [DecidableEq T] in
theorem Loads.init (h : s.cache = ⟨[], []⟩ ∧ ∀ t, s.pc t = .outside) : Loads loads s := by
  refine ⟨?_, ?_⟩
  · intro e he
    rw [h.1] at he
    cases he
  · intro t ext name tmp hpc
    cases (h.2 t).symm.trans hpc

omit [DecidableEq T] in
/-- An entry about to be inserted comes from a load. -/
theorem Loads.of_finishing (h : Loads loads s) {t : T} {ext name : CStr} {e : LangEntry E}
    (hpc : s.pc t = .finish ext name (some e)) :
    e.name = name ∧ ∃ calls, loads e.name calls ∧ calls.dl e.name = some e.handles := by
  obtain ⟨calls, hcalls, hload⟩ := h.finishing t ext name (some e) hpc
  obtain ⟨handles, hdl, rfl⟩ := Option.map_eq_some_iff.mp hload.symm
  exact ⟨rfl, calls, hcalls, hdl⟩

/-- **A step takes entries from loads only.** -/
theorem Loads.step (h : Loads loads s) {e : LangEvent T} {act : Act Res (EntryPtr E) (LangRest E)}
    (hs : LangMemStep loads s e act s') : Loads loads s' := by
  -- who is about to insert an entry has loaded it now, or had before
  have hothers : ∀ {dl}, LangStep dl s e s' → ∀ {u ext name tmp}, u ≠ e.thread →
      s'.pc u = .finish ext name tmp →
        ∃ calls, loads name calls ∧ tmp = loadLang calls.dl name := by
    intro dl hlang u ext name tmp hu hpc
    obtain hsame | ⟨ext', name', -, hwoken⟩ := hlang.pc_of_ne hu
    · exact h.finishing u ext name tmp (hsame.symm.trans hpc)
    · cases hwoken.symm.trans hpc
  cases hs with
  | @load t ext name calls _ hpc hmay hs =>
    -- What has been loaded comes from the calls of this load.
    refine ⟨hs.tmp_of_load.2.2 ▸ h.entry, ?_⟩
    intro u ext' name' tmp hu
    by_cases hut : u = t
    · subst hut
      cases hs with
      | load _ =>
        cases (Function.update_self ..).symm.trans hu
        exact ⟨calls, hmay, rfl⟩
    · exact hothers hs hut hu
  | @insert _ t ext name _ i p _ hpc hins hs =>
    -- The entry that is new is the one its thread has loaded.
    obtain ⟨hafter, hcache⟩ := hs.tmp_of_finish hpc
    refine ⟨?_, ?_⟩
    · intro e he
      rw [hcache, langCacheInsert_entries, if_neg (by rw [hins]; exact Option.some_ne_none i),
        List.mem_append] at he
      rcases he with he | he
      · exact h.entry e he
      · obtain rfl : e = p.entry := by simpa using he
        exact (h.of_finishing hpc).2
    · intro u ext' name' tmp' hu
      refine hothers hs ?_ hu
      intro hut
      rw [show u = t from hut] at hu
      rw [hu] at hafter
      cases hafter
  | @drop _ t ext name tmp _ hpc hins hs =>
    obtain ⟨hafter, hcache⟩ := hs.tmp_of_finish hpc
    refine ⟨?_, ?_⟩
    · intro e he
      rw [hcache, langCacheInsert_entries, if_pos hins] at he
      exact h.entry e (by simpa using he)
    · intro u ext' name' tmp' hu
      refine hothers hs ?_ hu
      intro hut
      rw [show u = t from hut] at hu
      rw [hu] at hafter
      cases hafter
  | other hs hload hfinish =>
    obtain ⟨-, hafter, hcache⟩ := hs.tmp_of_other hload hfinish
    refine ⟨hcache ▸ h.entry, ?_⟩
    intro u ext' name' tmp' hu
    refine hothers hs ?_ hu
    intro hut
    rw [← hut, hu] at hafter
    cases hafter

/-- **What `lang_cache_get` returns is what a load of the language of the extension has come
to**, if not of this call then of another. -/
theorem LangMemStep.answer {t : T} {ext : CStr} {r : Option ℕ}
    {act : Act Res (EntryPtr E) (LangRest E)} (hinv : LangInv dl s) (h : Loads loads s)
    (hs : LangMemStep loads s (.ret t ext r) act s') :
    MayFind loads ext (s'.cache.find r) ∧ ∀ i, r = some i → i < s'.cache.entries.length := by
  obtain ⟨dl', hlang⟩ := hs.langStep
  cases hlang with
  | unknown _ hext => exact ⟨fun name hname => (by cases hext.symm.trans hname), nofun⟩
  | @hit _ _ name i hpc hl =>
    -- The entry found has been loaded by some thread before.
    obtain ⟨e, hi, rfl⟩ := langCacheLookup_hit hl
    obtain ⟨calls, hcalls, hdl⟩ := h.entry e (List.mem_of_getElem? hi)
    have hfind : s.cache.find (some i) = some e.handles := by
      rw [LangCache.find, Option.bind_some, hi, Option.map_some]
    refine ⟨?_, ?_⟩
    · show MayFind loads ext (s.cache.find (some i))
      rw [hfind]
      exact ⟨e.name, calls, hinv.ok_of_pc hpc, hcalls, hdl⟩
    · intro j hj
      obtain rfl := Option.some.inj hj
      exact (List.getElem?_eq_some_iff.mp hi).1
  -- There is room for all languages there are.
  | full _ hl => exact absurd hl (langCacheLookup_ne_full hinv.cache_wf.length_lt _)
  | @finish _ _ name tmp hpc =>
    obtain ⟨hext, -, -⟩ := hinv.finishing hpc
    cases tmp with
    | none =>
      -- The load of this thread has failed.
      obtain ⟨calls, hcalls, hnone⟩ := h.finishing t ext name none hpc
      refine ⟨fun name' hname' => ⟨calls, ?_⟩, nofun⟩
      obtain rfl := Option.some.inj (hext.symm.trans hname')
      exact ⟨hcalls, loadLang_eq_none_iff.mp hnone.symm⟩
    | some e =>
      -- The entry it has loaded is the last one now.
      obtain ⟨rfl, calls, hcalls, hdl⟩ := h.of_finishing hpc
      have hroom : s.cache.entries.length < maxLangs := by
        have hlt := hinv.cache_wf.length_lt
        omega
      rw [langCacheInsert_some _ e hroom]
      have hentry : (s.cache.entries ++ [e])[s.cache.entries.length]? = some e := by simp
      refine ⟨?_, ?_⟩
      · rw [LangCache.find, Option.bind_some, hentry]
        exact ⟨e.name, calls, hext, hcalls, hdl⟩
      · intro j hj
        obtain rfl := Option.some.inj hj
        simp

/-! ### What is left of the cache -/

/-- What the threads own, and what the cache does. -/
theorem langMem_separated [Fintype T]
    (hmalloc : ∀ name calls, loads name calls → calls.malloc = true) {blocks : Blocks Res}
    (hwf : blocks.Wf) {s : OwnState (LangState T E) T Res (EntryPtr E) (LangRest E)}
    (h : (langMemLts T loads blocks).Reachable s) :
    Separated EntryPtr.owned CacheHolds langContract blocks.live s := by
  refine Separated.reachable (langMem_keeps hmalloc) (fun _ => 0) ?_ ?_ hwf (by simp) h
  · rintro q ⟨hcache, -⟩
    rw [CacheHolds, hcache]
    rfl
  · rintro q t ⟨-, hpc⟩
    rw [Own.wp, langContract, hpc t]
    exact ⟨rfl, rfl⟩

omit [DecidableEq T] in
/-- The entries in the order of the cache. -/
theorem CacheHolds.exists_entries {mail : Multiset (EntryPtr E)} (h : CacheHolds s mail) :
    ∃ entries : List (EntryPtr E), entries.map EntryPtr.entry = s.cache.entries ∧
      (mail.map EntryPtr.owned).sum = entriesOwned entries := by
  obtain ⟨l, rfl⟩ := Quotient.exists_rep mail
  have hperm : List.Perm s.cache.entries (l.map EntryPtr.entry) := by
    rw [← Multiset.coe_eq_coe, ← h]
    rfl
  obtain ⟨entries, hentries, hsame⟩ :=
    (congrFun₂ (List.eq_map_comp_perm (EntryPtr.entry (E := E))) _ _).mpr hperm
  refine ⟨entries, hentries.symm, ?_⟩
  rw [show (⟦l⟧ : Multiset (EntryPtr E)) = (entries : Multiset (EntryPtr E)) from
    (Multiset.coe_eq_coe.mpr hsame).symm]
  rfl

/-- **Nothing is left of the cache**, however the threads have used it: from a cache that
`lang_cache_new` has made, no thread of any interleaving faults, and once all threads are
outside `lang_cache_free` releases each library, query and name and the cache itself, each
once. -/
theorem langCache_memory [Fintype T]
    (hmalloc : ∀ name calls, loads name calls → calls.malloc = true)
    {cacheCalls : CacheCalls} {cache : CachePtr} {blocks : Blocks Res}
    (hnew : (Owned.langCacheNew cacheCalls).run Blocks.empty = some (some cache, blocks))
    {s : OwnState (LangState T E) T Res (EntryPtr E) (LangRest E)}
    (h : (langMemLts T loads blocks).Reachable s) :
    (langFreeLts T E).Reachable s.proto ∧ (∀ t, ¬ s.Faults t) ∧
      ((∀ t, s.proto.pc t = .outside ∧ (s.prog t).AtRest) →
        ∃ entries : List (EntryPtr E), entries.map EntryPtr.entry = s.proto.cache.entries ∧
          ∃ after, (Owned.langCacheFree cache entries).run s.blocks = some ((), after) ∧
            after.live = 0) := by
  obtain ⟨_, _, left, hrun, hwf, hlive, hleft⟩ :=
    Own.run_of_wp (Owned.wp_langCacheNew cacheCalls) Blocks.wf_empty (add_zero 0).symm
  obtain ⟨rfl, rfl⟩ := Prod.mk.inj (Option.some.inj (hnew.symm.trans hrun))
  have hcache : blocks.live = cache.owned := by rw [hlive, hleft, add_zero]; rfl
  have hsep := langMem_separated hmalloc hwf h
  refine ⟨reachable_lang h, hsep.not_faults, ?_⟩
  intro houtside
  obtain ⟨hwf', hmail, held, hall, hprog⟩ := hsep
  have hnone : ∑ t, held t = 0 := by
    apply Finset.sum_eq_zero
    intro t _
    obtain ⟨hpc, a, ha⟩ := houtside t
    have ht := hprog t
    rw [ha, Own.wp, langContract, hpc] at ht
    exact ht.2
  obtain ⟨entries, hentries, hmail'⟩ := CacheHolds.exists_entries hmail
  refine ⟨entries, hentries, ?_⟩
  have howned : s.blocks.live = entriesOwned entries + cache.owned + 0 := by
    rw [hall, hnone, hcache, zero_add, add_zero, hmail']
  obtain ⟨_, after, left, hfree, -, hafter, rfl⟩ :=
    Own.run_of_wp (Owned.wp_langCacheFree cache entries) hwf' howned
  exact ⟨after, hfree, by rw [hafter, add_zero]⟩

/-- Every load comes out as it likes, but that there is memory for its entry. -/
def loadsAny (_ : CStr) (calls : LangCalls E) : Prop := calls.malloc = true

/-- **Every run of `lang_cache_get` is one of the threads with their blocks**, with loads that
come out as they like: they can follow it to the end, and rest there. -/
theorem exists_langMem_reachable [Fintype T] {blocks : Blocks Res} (hwf : blocks.Wf)
    {s : LangState T E} (h : (langFreeLts T E).Reachable s) :
    ∃ s', (langMemLts T (loadsAny (E := E)) blocks).Reachable s' ∧ s'.proto = s ∧
      ∀ t, (s'.prog t).AtRest := by
  apply h.invariant (I := fun s => ∃ s', (langMemLts T (loadsAny (E := E)) blocks).Reachable s' ∧
    s'.proto = s ∧ ∀ t, (s'.prog t).AtRest)
  · intro s hinit
    exact ⟨⟨s, fun _ => .ret .outside, 0, blocks⟩, .init ⟨hinit, rfl, rfl, rfl⟩, rfl,
      fun _ => ⟨_, rfl⟩⟩
  · rintro _ e q ⟨s, hr, rfl, hrest⟩ ⟨dl, hs⟩
    have hany : ∀ name (calls : LangCalls E), loadsAny name calls → calls.malloc = true :=
      fun _ _ => id
    obtain ⟨dl', hinv⟩ := langFreeInv_reachable (reachable_lang hr)
    obtain ⟨b, hb⟩ := hrest e.thread
    obtain ⟨-, -, held, -, hprog⟩ := langMem_separated hany hwf hr
    have hcontract := hprog e.thread
    rw [hb] at hcontract
    -- the language is one of the table, and so there is a load that comes to that
    have hmay : ∀ ext name, s.proto.pc e.thread = .load ext name →
        ∃ calls : LangCalls E, loadsAny name calls ∧ calls.dl name = dl name := fun ext name hpc =>
      LangCalls.exists_dl_eq (extToLang_mem (hinv.ok_of_pc hpc)) (dl name)
    obtain ⟨act, hact, hready⟩ := exists_langMemStep hs hmay hcontract s.mail
    obtain ⟨s₁, hstep, hproto₁, hothers₁⟩ :
        ∃ s₁, OwnStep (langMem T (loadsAny (E := E))) s e.thread s₁ ∧ s₁.proto = q ∧
          ∀ u, u ≠ e.thread → s₁.prog u = s.prog u :=
      exists_ownStep_of_ready hb hready ⟨e, rfl, hact⟩
    have hr₁ := hr.step hstep
    -- then the thread does with its blocks what it has still to do
    obtain ⟨tr, s₂, a, hrun, hproto₂, ha, hothers₂⟩ :=
      (langMem_separated hany hwf hr₁).exists_run_to_rest (langMem_keeps hany) e.thread
    refine ⟨s₂, hr₁.run hrun, hproto₂.trans hproto₁, ?_⟩
    intro t
    by_cases ht : t = e.thread
    · exact ⟨a, ht ▸ ha⟩
    · rw [hothers₂ t ht, hothers₁ t ht]
      exact hrest t

/-- A load of C++ fails, the next one succeeds, and the cache is freed. -/
theorem langCache_memory_retry : ∃ (cache : CachePtr) (blocks after : Blocks Res)
    (s : OwnState (LangState Unit Unit) Unit Res (EntryPtr Unit) (LangRest Unit))
    (entries : List (EntryPtr Unit)), (langMemLts Unit loadsAny blocks).Reachable s ∧
      (langFreeLts Unit Unit).Exec [.call () (CStr.lit "cpp"), .mark () (CStr.lit "cpp"),
        .loaded () (CStr.lit "cpp") false, .ret () (CStr.lit "cpp") none,
        .call () (CStr.lit "h"), .mark () (CStr.lit "cpp"), .loaded () (CStr.lit "cpp") true,
        .ret () (CStr.lit "h") (some 0)] s.proto ∧
      (∀ t, ¬ s.Faults t) ∧ entries.length = 1 ∧
        (Owned.langCacheFree cache entries).run s.blocks = some ((), after) ∧ after.live = 0 := by
  let cpp := CStr.lit "cpp"
  obtain ⟨cache, blocks, hnew⟩ : ∃ cache blocks,
      (Owned.langCacheNew ⟨true, true, true, true⟩).run Blocks.empty = some (some cache, blocks) :=
    ⟨_, _, rfl⟩
  obtain ⟨_, _, left, hrun, hwf, -⟩ :=
    Own.run_of_wp (Owned.wp_langCacheNew ⟨true, true, true, true⟩) Blocks.wf_empty
      (add_zero 0).symm
  obtain ⟨-, rfl⟩ := Prod.mk.inj (Option.some.inj (hnew.symm.trans hrun))
  let fails : CStr → Option Unit := fun _ => none
  let loads : CStr → Option Unit := fun _ => some ()
  have h₀ : (langFreeLts Unit Unit).Exec [] ⟨⟨[], []⟩, fun _ => .outside⟩ :=
    Lts.Exec.init ⟨rfl, fun _ => rfl⟩
  have h₁ := h₀.snoc ⟨fails, @LangStep.call _ _ _ _ _ () cpp cpp rfl (by decide)⟩
  have h₂ := h₁.snoc ⟨fails, @LangStep.mark _ _ _ _ _ () cpp cpp _ rfl rfl⟩
  have h₃ := h₂.snoc ⟨fails, @LangStep.load _ _ _ _ _ () cpp cpp rfl⟩
  have h₄ := h₃.snoc ⟨fails, @LangStep.finish _ _ _ _ _ () cpp cpp _ rfl⟩
  have h₅ := h₄.snoc ⟨loads, @LangStep.call _ _ _ _ _ () (CStr.lit "h") cpp rfl (by decide)⟩
  have h₆ := h₅.snoc ⟨loads, @LangStep.mark _ _ _ _ _ () (CStr.lit "h") cpp _ rfl rfl⟩
  have h₇ := h₆.snoc ⟨loads, @LangStep.load _ _ _ _ _ () (CStr.lit "h") cpp rfl⟩
  have h₈ := h₇.snoc ⟨loads, @LangStep.finish _ _ _ _ _ () (CStr.lit "h") cpp _ rfl⟩
  obtain ⟨s, hs, hproto, hrest⟩ := exists_langMem_reachable hwf ⟨_, h₈⟩
  obtain ⟨-, hsafe, hfree⟩ := langCache_memory (fun _ _ => id) hnew hs
  obtain ⟨entries, hentries, after, hrun', hafter⟩ := hfree fun _ => by
    refine ⟨?_, hrest ()⟩
    rw [hproto]
    rfl
  refine ⟨cache, blocks, after, s, entries, hs, hproto ▸ h₈, hsafe, ?_, hrun', hafter⟩
  have hlen := congrArg List.length hentries
  rw [List.length_map, hproto] at hlen
  exact hlen

end Tsag
