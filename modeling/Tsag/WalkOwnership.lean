import Tsag.DiscoverFailures
import Tsag.WorkerOwnership

/-!
# The blocks of the walks

`enqueue_path` owns its stack and the paths on it.  A path popped is freed or put on the
queue, and belongs to whoever takes it from there.  The walks of `main` are cut at every
`io_queue_put`, so that other threads can come in between.

## Main definitions

* `StackPtr`, `WalkPtr` — the stack and the walks, with their blocks.
* `Owned.strstackPush`, `Owned.pushPath`, `Owned.walkTurn` — the functions.
* `Owned.walk` — the walks, up to the next path to put on the queue.

## Main results

* `Owned.wp_walkTurn` — the path of a turn is freed unless it is put on the queue.
* `Owned.wp_walk` — the walks put what `walkPuts` says, and nothing is left of them.
-/

namespace Tsag

/-- The blocks of paths. -/
def pathBlocks (paths : List PathPtr) : Owns := Own.blocksOf .mem (paths.map PathPtr.addr)

/-- `StrStack`. -/
structure StackPtr where
  /-- `items` and `cap`, once there is an array. -/
  array : Option (ℕ × ℕ)
  entries : List PathPtr
  empty : array = none → entries = []

namespace StackPtr

/-- `strstack_init`. -/
def init : StackPtr := ⟨none, [], fun _ => rfl⟩

/-- `cap`. -/
def cap (s : StackPtr) : ℕ := s.array.elim 0 Prod.snd

/-- The stack, its paths without their blocks. -/
def value (s : StackPtr) : StrStack := ⟨s.entries.map PathPtr.path, s.cap⟩

/-- The block of the array, if there is one. -/
def arrayOwned (s : StackPtr) : Owns := Own.blockOf .mem (s.array.map Prod.fst)

/-- The blocks of the stack and of its paths. -/
def owned (s : StackPtr) : Owns := s.arrayOwned + pathBlocks s.entries

end StackPtr

/-- Where the walks of `main` are. -/
structure WalkPtr where
  roots : List CStr
  stack : StackPtr
  calls : ℕ
  lost : List CStr

/-- The walks, the paths without their blocks. -/
def WalkPtr.value (w : WalkPtr) : WalkState := ⟨w.roots, w.stack.value, w.calls, w.lost⟩

/-- The walks before the first of them. -/
def WalkPtr.init (roots : List CStr) : WalkPtr := ⟨roots, .init, 0, []⟩

/-- The block of a path, if there is one. -/
def pathOwned (p : Option PathPtr) : Owns := p.elim 0 fun p => {(.mem, p.addr)}

namespace Owned

open Own

/-! ### The stack -/

/-- `strstack_free`. -/
def strstackFree (s : StackPtr) : Code Unit := free .mem (s.array.map Prod.fst)

/-- `strstack_push`; with 0 or -1 it returns the stack it leaves. -/
def strstackPush (s : StackPtr) (str : PathPtr) (realloc : Bool) : Code (Bool × StackPtr) :=
  if s.entries.length = s.cap then
    if realloc then do
      -- the array may move
      let items ← acquire .mem
      free .mem (s.array.map Prod.fst)
      return (true, ⟨some (items, if s.cap = 0 then 256 else s.cap * 2), s.entries ++ [str],
        nofun⟩)
    else return (false, s)
  else
    match s.array with
    | none => fail
    | some array => do
        touch .mem array.1
        return (true, ⟨some array, s.entries ++ [str], nofun⟩)

/-- `strstack_pop`. -/
def strstackPop (s : StackPtr) : Code (Option (PathPtr × StackPtr)) :=
  match s.entries.getLast? with
  | none => return none
  | some str => do
      let array ← ofOption s.array
      touch .mem array.1
      return some (str, ⟨some array, s.entries.dropLast, nofun⟩)

theorem wp_strstackPush (s : StackPtr) (str : PathPtr) (realloc : Bool) :
    (strstackPush s str realloc).wp (fun r left =>
      strstackPushMem s.value str.path realloc = (if r.1 then some r.2.value else none) ∧
        if r.1 then left = r.2.owned else r.2 = s ∧ left = s.owned + {(.mem, str.addr)})
      (s.owned + {(.mem, str.addr)}) := by
  have hlen : s.value.items.length = s.entries.length := List.length_map _
  have hcap : s.value.cap = s.cap := rfl
  unfold strstackPush strstackPushMem
  rw [hlen, hcap]
  by_cases hfull : s.entries.length = s.cap
  · rw [if_pos hfull, if_pos hfull]
    cases realloc with
    | false => exact ⟨rfl, rfl, rfl⟩
    | true =>
      -- The array moves: the old block goes, the new one has room.
      rw [if_pos rfl, if_pos rfl, wp_bind, wp_acquire]
      intro items
      have hheld : {(Res.mem, items)} + (s.owned + {(Res.mem, str.addr)}) = s.arrayOwned
          + ({(Res.mem, items)} + pathBlocks s.entries + {(Res.mem, str.addr)}) := by
        rw [StackPtr.owned]
        abel
      rw [wp_bind, hheld]
      refine (wp_free _ _).mpr ⟨?_, ?_⟩
      · simp [StackPtr.value, StackPtr.cap]
      · simp only [if_true, StackPtr.owned, StackPtr.arrayOwned, pathBlocks, List.map_append,
          blocksOf_append, List.map_cons, List.map_nil, blocksOf_cons, blocksOf_nil, blockOf,
          Option.map_some, Option.elim_some]
        abel
  · rw [if_neg hfull, if_neg hfull]
    obtain ⟨array, entries, hempty⟩ := s
    cases array with
    | none =>
      -- A stack without an array has no capacity, and is full.
      obtain rfl := hempty rfl
      exact absurd rfl hfull
    | some array =>
      simp only [wp_bind, wp_touch]
      refine ⟨by simp [StackPtr.owned, StackPtr.arrayOwned, blockOf], ?_, ?_⟩
      · simp [StackPtr.value, StackPtr.cap]
      · simp only [if_true, StackPtr.owned, StackPtr.arrayOwned, pathBlocks, List.map_append,
          blocksOf_append, List.map_cons, List.map_nil, blocksOf_cons, blocksOf_nil]
        abel

/-- What `strstack_pop` returns, and leaves. -/
theorem wp_strstackPop (s : StackPtr) :
    (strstackPop s).wp (fun r left =>
      Tsag.strstackPop s.value = r.map (fun r => (r.1.path, r.2.value)) ∧
        left = r.elim s.arrayOwned fun r => {(.mem, r.1.addr)} + r.2.owned) s.owned := by
  unfold strstackPop Tsag.strstackPop
  have hlast : s.value.items.getLast? = s.entries.getLast?.map PathPtr.path :=
    List.getLast?_map
  rw [hlast]
  cases hs : s.entries.getLast? with
  | none =>
    have hnil := List.getLast?_eq_none_iff.mp hs
    refine ⟨rfl, ?_⟩
    rw [StackPtr.owned, hnil]
    exact add_zero _
  | some str =>
    obtain ⟨array, entries, hempty⟩ := s
    cases array with
    | none =>
      obtain rfl := hempty rfl
      cases hs
    | some array =>
      simp only [wp_bind, wp_ofOption, wp_touch]
      refine ⟨array, rfl, by simp [StackPtr.owned, StackPtr.arrayOwned, blockOf], ?_, ?_⟩
      · simp [StackPtr.value, StackPtr.cap, List.map_dropLast]
      · -- the last string is handed out with its block
        have hitems : entries = entries.dropLast ++ [str] :=
          (List.dropLast_append_getLast? str hs).symm
        simp only [Option.elim_some, StackPtr.owned, StackPtr.arrayOwned, pathBlocks]
        rw [hitems, List.map_append, blocksOf_append, List.dropLast_concat]
        simp only [List.map_cons, List.map_nil, blocksOf_cons, blocksOf_nil]
        abel

/-! ### The walks -/

section Walk

variable (fs : FileSystem) (mem : ℕ → PathMemory)

/-- The string of a path, and its push. -/
def pushPath (w : WalkPtr) (path : CStr) : Code WalkPtr :=
  if (mem w.calls).string then do
    let addr ← acquire .mem
    match ← strstackPush w.stack ⟨addr, path⟩ (mem w.calls).realloc with
    | (true, stack) => return { w with stack, calls := w.calls + 1 }
    | (false, stack) =>
        release .mem addr
        return { w with stack, calls := w.calls + 1, lost := w.lost ++ [path] }
  else return { w with calls := w.calls + 1, lost := w.lost ++ [path] }

/-- One turn of the loop that reads a directory. -/
def walkEntry (p : PathPtr) (dir : ℕ) (w : WalkPtr) (name : CStr) : Code WalkPtr := do
  touch .dir dir
  if isDots name then return w
  else
    touch .mem p.addr
    pushPath mem w (childPath p.path name)

/-- One turn of the loop of `enqueue_path`, for the path popped. -/
def walkTurn (p : PathPtr) (w : WalkPtr) : Code (WalkPtr × Option PathPtr) := do
  touch .mem p.addr
  if isIgnored p.path then
    release .mem p.addr
    return (w, none)
  else
    match fs.lstat p.path with
    | none =>
        release .mem p.addr
        return (w, none)
    | some .dir =>
        match fs.opendir p.path with
        | none =>
            release .mem p.addr
            return (w, none)
        | some names =>
            let dir ← acquire .dir
            let w ← names.foldlM (walkEntry mem p dir) w
            release .dir dir
            release .mem p.addr
            return (w, none)
    | some .reg =>
        match findExtension p.path with
        | none =>
            release .mem p.addr
            return (w, none)
        | some ext =>
            match extToLang ext with
            | none =>
                release .mem p.addr
                return (w, none)
            | some _ => return (w, some p)
    | some .other =>
        release .mem p.addr
        return (w, none)

/-- The walks, up to the next path to put on the queue; with it come the turns left and
the walks as they are then. -/
def walk : ℕ → WalkPtr → Code (Option (PathPtr × ℕ × WalkPtr))
  | 0, _ => fail
  | fuel + 1, w => do
      match ← strstackPop w.stack with
      | none =>
          strstackFree w.stack
          match w.roots with
          | [] => return none
          | root :: roots =>
              let w ← pushPath mem { w with roots, stack := .init } root
              walk fuel w
      | some (p, stack) =>
          match ← walkTurn fs mem p { w with stack } with
          | (w, some p) => return some (p, fuel, w)
          | (w, none) => walk fuel w

variable {fs mem}

theorem wp_pushPath (w : WalkPtr) (path : CStr) :
    (pushPath mem w path).wp (fun w' left =>
      w'.value = Tsag.pushPath mem w.value path ∧ left = w'.stack.owned) w.stack.owned := by
  have hcalls : w.value.calls = w.calls := rfl
  unfold pushPath Tsag.pushPath
  rw [hcalls]
  split
  · rw [wp_bind, wp_acquire]
    intro addr
    rw [wp_bind]
    refine wp_call (wp_strstackPush w.stack ⟨addr, path⟩ (mem w.calls).realloc) 0 (by abel) ?_
    rintro ⟨pushed, stack⟩ own ⟨hpush, hown⟩
    have hpush' : strstackPushMem w.value.stack path (mem w.calls).realloc
        = if pushed then some stack.value else none := hpush
    rw [hpush']
    cases pushed with
    | true => exact ⟨rfl, by rw [add_zero, hown]⟩
    | false =>
      obtain ⟨rfl, rfl⟩ := hown
      simp only [wp_bind]
      exact ⟨w.stack.owned, by abel, rfl, rfl⟩
  · exact ⟨rfl, rfl⟩

theorem wp_walkEntry (p : PathPtr) (dir : ℕ) (w : WalkPtr) (name : CStr) :
    (walkEntry mem p dir w name).wp (fun w' left =>
      w'.value = Tsag.walkEntry mem p.path w.value name ∧
        left = w'.stack.owned + ({(.dir, dir)} + {(.mem, p.addr)}))
      (w.stack.owned + ({(.dir, dir)} + {(.mem, p.addr)})) := by
  simp only [walkEntry, Tsag.walkEntry, wp_bind, wp_touch]
  refine ⟨by simp, ?_⟩
  split
  · exact ⟨rfl, rfl⟩
  · rw [wp_bind, wp_touch]
    refine ⟨by simp, wp_call (wp_pushPath w _) _ rfl ?_⟩
    rintro w' _ ⟨hw', rfl⟩
    exact ⟨hw', rfl⟩

/-- **The path of a turn is freed**, unless it is put on the queue. -/
theorem wp_walkTurn (p : PathPtr) (w : WalkPtr) :
    (walkTurn fs mem p w).wp (fun r left =>
      Tsag.walkTurn fs mem p.path w.value = (r.1.value, r.2.map PathPtr.path) ∧
        (∀ q ∈ r.2, q = p) ∧ left = pathOwned r.2 + r.1.stack.owned)
      ({(.mem, p.addr)} + w.stack.owned) := by
  unfold walkTurn Tsag.walkTurn
  rw [wp_bind, wp_touch]
  refine ⟨by simp, ?_⟩
  -- the path is freed and nothing else happens
  have hdrop : (release .mem p.addr >>= fun _ => (pure (w, none) : Code _)).wp (fun r left =>
      (w.value, none) = (r.1.value, r.2.map PathPtr.path) ∧
        (∀ q ∈ r.2, q = p) ∧ left = pathOwned r.2 + r.1.stack.owned)
      ({(.mem, p.addr)} + w.stack.owned) := by
    rw [wp_bind, wp_release]
    exact ⟨rfl, nofun, (zero_add _).symm⟩
  by_cases hign : isIgnored p.path
  · rw [if_pos hign, if_pos hign]
    exact hdrop
  rw [if_neg hign, if_neg hign]
  cases fs.lstat p.path with
  | none => exact hdrop
  | some kind =>
    cases kind with
    | dir =>
      cases fs.opendir p.path with
      | none => exact hdrop
      | some names =>
        simp only [wp_bind, wp_acquire]
        intro dir
        -- the directory is open and the path alive until the last name has been read
        refine wp_mono (wp_foldlM (fun done w' left =>
          w'.value = done.foldl (Tsag.walkEntry mem p.path) w.value ∧
            left = w'.stack.owned + ({(.dir, dir)} + {(.mem, p.addr)})) names ?_ ⟨rfl, by abel⟩) ?_
        · rintro done name rest w' _ - ⟨hw', rfl⟩
          apply wp_mono (wp_walkEntry p dir w' name)
          rintro w'' _ ⟨hw'', rfl⟩
          rw [List.foldl_append, ← hw', hw'']
          exact ⟨rfl, rfl⟩
        · rintro w' _ ⟨hw', rfl⟩
          refine ⟨{(.mem, p.addr)} + w'.stack.owned, by abel, _, rfl, ?_, nofun, ?_⟩
          · rw [← hw']
            rfl
          · exact (zero_add _).symm
    | reg =>
      cases findExtension p.path with
      | none => exact hdrop
      | some ext =>
        simp only
        cases extToLang ext with
        | none => exact hdrop
        | some lang => exact ⟨rfl, by simp, rfl⟩
    | other => exact hdrop

/-- **The walks put on the queue what `walkPuts` says**, and own nothing in the end. -/
theorem wp_walk (fuel : ℕ) : ∀ {w : WalkPtr} {puts lost : List CStr},
    walkPuts fs mem fuel w.value = some (puts, lost) →
      (walk fs mem fuel w).wp (fun r left =>
        match r with
        | none => puts = [] ∧ left = 0
        | some (p, fuel', w') => ∃ rest, puts = p.path :: rest ∧
            walkPuts fs mem fuel' w'.value = some (rest, lost) ∧
            left = {(.mem, p.addr)} + w'.stack.owned) w.stack.owned := by
  induction fuel with
  | zero =>
    intro w puts lost h
    cases h
  | succ fuel ih =>
    intro w puts lost h
    rw [walkPuts] at h
    rw [walk, wp_bind]
    apply wp_mono (wp_strstackPop w.stack)
    rintro r _ ⟨hpop, rfl⟩
    have hpop' : Tsag.strstackPop w.value.stack = r.map fun r => (r.1.path, r.2.value) := hpop
    rw [hpop'] at h
    cases r with
    | none =>
      have hroots : w.value.roots = w.roots := rfl
      simp only [Option.map_none, hroots] at h
      simp only [Option.elim_none, wp_bind]
      rw [← add_zero w.stack.arrayOwned]
      apply (wp_free _ _).mpr
      -- the stack is empty: it is freed, and the next root is walked
      cases hw : w.roots with
      | nil =>
        simp only [hw] at h
        obtain ⟨rfl, -⟩ := Prod.mk.inj (Option.some.inj h)
        exact ⟨rfl, rfl⟩
      | cons root roots =>
        simp only [hw] at h
        rw [wp_bind]
        apply wp_mono (wp_pushPath { w with roots, stack := .init } root)
        rintro w' _ ⟨hw', rfl⟩
        exact ih (hw' ▸ h)
    | some r =>
      obtain ⟨p, stack⟩ := r
      simp only [Option.map_some] at h
      rw [wp_bind]
      apply wp_mono (wp_walkTurn p { w with stack })
      rintro ⟨w', put⟩ _ ⟨hturn, -, rfl⟩
      have hturn' : Tsag.walkTurn fs mem p.path { w.value with stack := stack.value }
          = (w'.value, put.map PathPtr.path) := hturn
      rw [hturn'] at h
      obtain ⟨⟨puts', lost'⟩, hrest, h⟩ := Option.bind_eq_some_iff.mp h
      obtain ⟨rfl, rfl⟩ := Prod.mk.inj (Option.some.inj h)
      cases put with
      | none =>
        simp only [pathOwned, Option.elim_none, zero_add]
        exact ih hrest
      | some q => exact ⟨puts', rfl, hrest, rfl⟩

end Walk

end Owned

end Tsag
