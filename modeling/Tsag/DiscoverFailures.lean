import Tsag.Program

/-!
# Walks without memory

For every path `enqueue_path` finds it allocates a string and may have to grow its stack.
A path for which this fails is lost, and with it everything below; the walk goes on.
These are the walks of `main`, one root after the other, with allocations that may fail.

## Main definitions

* `PathMemory` — what the allocations for a path come to.
* `WalkState`, `pushPath`, `walkTurn`, `walkPuts` — the walks.
* `Walked` — what a walk has found, and what it has lost.

## Main results

* `walkTurn_spec` — what a turn does.
* `walkPuts_walked` — the walks end, and each finds what is not at or below a path lost.
* `walkPuts_of_ample` — with ample memory they are those of `enqueue_path`.
-/

namespace Tsag

/-- What the allocations for a path come to: the one of its string, and the `realloc` of
the stack where it is called. -/
structure PathMemory where
  string : Bool
  realloc : Bool

/-- `strstack_push`, `none` when it returns -1. -/
def strstackPushMem (s : StrStack) (str : CStr) (realloc : Bool) : Option StrStack :=
  if s.items.length = s.cap then
    if realloc then some ⟨s.items ++ [str], if s.cap = 0 then 256 else s.cap * 2⟩ else none
  else some { s with items := s.items ++ [str] }

/-- Where the walks of `main` are. -/
structure WalkState where
  /-- The roots yet to be walked. -/
  roots : List CStr
  stack : StrStack
  /-- For how many paths memory has been asked for. -/
  calls : ℕ
  /-- The paths for which there was none. -/
  lost : List CStr

/-- The walks before the first of them. -/
def WalkState.init (roots : List CStr) : WalkState := ⟨roots, ⟨[], 0⟩, 0, []⟩

section Code

variable (fs : FileSystem) (mem : ℕ → PathMemory)

/-- The string of a path, and its push; a path without memory is lost. -/
def pushPath (w : WalkState) (path : CStr) : WalkState :=
  if (mem w.calls).string then
    match strstackPushMem w.stack path (mem w.calls).realloc with
    | some stack => { w with stack, calls := w.calls + 1 }
    | none => { w with calls := w.calls + 1, lost := w.lost ++ [path] }
  else { w with calls := w.calls + 1, lost := w.lost ++ [path] }

/-- One turn of the loop that reads a directory. -/
def walkEntry (path : CStr) (w : WalkState) (name : CStr) : WalkState :=
  if isDots name then w else pushPath mem w (childPath path name)

/-- One turn of the loop of `enqueue_path`, for the path popped: the walk, and the path if
it is put on the queue. -/
def walkTurn (path : CStr) (w : WalkState) : WalkState × Option CStr :=
  if isIgnored path then (w, none)
  else
    match fs.lstat path with
    | none => (w, none)
    | some .dir =>
        match fs.opendir path with
        | none => (w, none)
        | some names => (names.foldl (walkEntry mem path) w, none)
    | some .reg =>
        match findExtension path with
        | none => (w, none)
        | some ext =>
            match extToLang ext with
            | none => (w, none)
            | some _ => (w, some path)
    | some .other => (w, none)

/-- The walks of `main`, one root after the other: the paths put on the queue, and the
paths lost. -/
def walkPuts : ℕ → WalkState → Option (List CStr × List CStr)
  | 0, _ => none
  | fuel + 1, w =>
      match strstackPop w.stack with
      | none =>
          match w.roots with
          | [] => some ([], w.lost)
          | root :: roots => walkPuts fuel (pushPath mem { w with roots, stack := ⟨[], 0⟩ } root)
      | some (path, stack) => do
          let (w, put) := walkTurn fs mem path { w with stack }
          let (puts, lost) ← walkPuts fuel w
          return (put.toList ++ puts, lost)

end Code

section Walk

variable (fs : FileSystem) (mem : ℕ → PathMemory)

/-! ### One turn -/

theorem strstackPushMem_items {s s' : StrStack} {str : CStr} {realloc : Bool}
    (h : strstackPushMem s str realloc = some s') : s'.items = s.items ++ [str] := by
  unfold strstackPushMem at h
  split at h
  · split at h
    · obtain rfl := Option.some.inj h
      rfl
    · cases h
  · obtain rfl := Option.some.inj h
    rfl

/-- A path gets on the stack or is lost. -/
theorem pushPath_cases (w : WalkState) (path : CStr) :
    (pushPath mem w path).roots = w.roots ∧
      (((pushPath mem w path).stack.items = w.stack.items ++ [path] ∧
          (pushPath mem w path).lost = w.lost) ∨
        ((pushPath mem w path).stack.items = w.stack.items ∧
          (pushPath mem w path).lost = w.lost ++ [path])) := by
  unfold pushPath
  split
  · split
    · next stack hpush => exact ⟨rfl, Or.inl ⟨strstackPushMem_items hpush, rfl⟩⟩
    · exact ⟨rfl, Or.inr ⟨rfl, rfl⟩⟩
  · exact ⟨rfl, Or.inr ⟨rfl, rfl⟩⟩

/-- The entries of a directory get on the stack or are lost. -/
theorem foldl_walkEntry (path : CStr) (names : List CStr) : ∀ w : WalkState,
    ∃ kept gone, kept.Sublist ((names.filter fun name => !isDots name).map (childPath path)) ∧
      (kept ++ gone).Perm ((names.filter fun name => !isDots name).map (childPath path)) ∧
      (names.foldl (walkEntry mem path) w).roots = w.roots ∧
      (names.foldl (walkEntry mem path) w).stack.items = w.stack.items ++ kept ∧
      (names.foldl (walkEntry mem path) w).lost = w.lost ++ gone := by
  induction names with
  | nil => exact fun w => ⟨[], [], by simp⟩
  | cons name names ih =>
    intro w
    rw [List.foldl_cons, walkEntry]
    -- `.` and `..` are passed over
    by_cases hdots : isDots name
    · rw [if_pos hdots]
      obtain ⟨kept, gone, hrest⟩ := ih w
      refine ⟨kept, gone, ?_⟩
      simpa [hdots] using hrest
    · rw [if_neg hdots]
      have hpaths : ((name :: names).filter fun name => !isDots name).map (childPath path)
          = childPath path name
            :: (names.filter fun name => !isDots name).map (childPath path) := by
        simp [hdots]
      rw [hpaths]
      obtain ⟨hroots, hpush⟩ := pushPath_cases mem w (childPath path name)
      obtain ⟨kept, gone, hsub, hperm, hroots', hitems, hlost⟩ :=
        ih (pushPath mem w (childPath path name))
      rcases hpush with ⟨hstack, hsame⟩ | ⟨hsame, hgone⟩
      · -- It got on the stack,
        refine ⟨childPath path name :: kept, gone, hsub.cons_cons _, hperm.cons _,
          hroots'.trans hroots, ?_, ?_⟩
        · rw [hitems, hstack, List.append_assoc, List.singleton_append]
        · rw [hlost, hsame]
      · -- or there was no memory for it.
        refine ⟨kept, childPath path name :: gone, hsub.cons _,
          (List.perm_middle).trans (hperm.cons _), hroots'.trans hroots, ?_, ?_⟩
        · rw [hitems, hsame]
        · rw [hlost, hgone, List.append_assoc, List.singleton_append]

/-- **What a turn does**: what comes next to the path gets on the stack or is lost, and a
source file is put on the queue. -/
theorem walkTurn_spec (path : CStr) (w : WalkState) :
    ∃ kept gone, kept.Sublist (discoverNext fs path) ∧
      (kept ++ gone).Perm (discoverNext fs path) ∧
      (walkTurn fs mem path w).1.roots = w.roots ∧
      (walkTurn fs mem path w).1.stack.items.reverse = kept ++ w.stack.items.reverse ∧
      (walkTurn fs mem path w).1.lost = w.lost ++ gone ∧
      (walkTurn fs mem path w).2.toList = [path].filter (isSource fs) := by
  unfold walkTurn discoverNext
  by_cases hign : isIgnored path
  · exact ⟨[], [], by simp [hign, isSource]⟩
  rw [if_neg hign, if_neg hign]
  cases hstat : fs.lstat path with
  | none => exact ⟨[], [], by simp [childPaths, isSource, hstat]⟩
  | some kind =>
    cases kind with
    | dir =>
      cases hdir : fs.opendir path with
      | none => exact ⟨[], [], by simp [childPaths, isSource, hstat, hdir]⟩
      | some names =>
        obtain ⟨kept, gone, hsub, hperm, hroots, hitems, hlost⟩ :=
          foldl_walkEntry mem path names w
        -- the stack is a list with the top at its end, so what is pushed last comes first
        have hchildren : childPaths fs path
            = (names.filter fun name => !isDots name).map (childPath path) := by
          simp [childPaths, hstat, hdir]
        rw [hchildren]
        refine ⟨kept.reverse, gone, hsub.reverse, ?_, hroots, ?_, hlost, ?_⟩
        · exact (((List.reverse_perm kept).append_right gone).trans hperm).trans
            (List.reverse_perm _).symm
        · rw [hitems, List.reverse_append]
        · simp [isSource, hstat]
    | reg =>
      cases hext : findExtension path with
      | none => exact ⟨[], [], by simp [childPaths, isSource, hstat, hext]⟩
      | some ext =>
        cases hlang : extToLang ext with
        | none => exact ⟨[], [], by simp [childPaths, isSource, hstat, hext, hlang]⟩
        | some lang => exact ⟨[], [], by simp [childPaths, isSource, hstat, hext, hlang, hign]⟩
    | other => exact ⟨[], [], by simp [childPaths, isSource, hstat]⟩

/-! ### One root -/

/-- **The walk of a root ends**, in no more turns than a walk that loses nothing, and is a
lossy walk. -/
theorem walkPuts_visits {nodes all : List CStr} (h : Visits (discoverNext fs) nodes all) :
    ∀ w : WalkState, w.stack.items.reverse.Sublist nodes →
      ∃ out lost w', LossyVisits (discoverNext fs) w.stack.items.reverse out lost ∧
        w'.roots = w.roots ∧ w'.stack.items = [] ∧ w'.lost = w.lost ++ lost ∧
        ∀ fuel, walkPuts fs mem (out.length + fuel) w
          = (walkPuts fs mem fuel w').map fun r => (out.filter (isSource fs) ++ r.1, r.2) := by
  -- The induction is on the walk that loses nothing: what this one has on its stack is a part of
  -- what that one has.
  induction h with
  | nil =>
    intro w hsub
    have hnil : w.stack.items.reverse = [] := List.sublist_nil.mp hsub
    refine ⟨[], [], w, ?_, rfl, List.reverse_eq_nil_iff.mp hnil, by simp, ?_⟩
    · rw [hnil]
      exact .nil
    · intro fuel
      simp
  | @cons path nodes all _ ih =>
    intro w hsub
    rcases List.sublist_cons_iff.mp hsub with hskip | ⟨rest, hrest, hsub⟩
    · -- The path has been lost before, and what is below it does not come up.
      exact ih w (hskip.trans (List.sublist_append_right _ _))
    · -- the path is popped
      have hitems : w.stack.items = rest.reverse ++ [path] := by
        rw [← List.reverse_reverse w.stack.items, hrest, List.reverse_cons]
      have hpop : strstackPop w.stack = some (path, { w.stack with items := rest.reverse }) := by
        simp [strstackPop, hitems]
      obtain ⟨kept, gone, hkept, hperm, hroots, hstack, hlost, hput⟩ := walkTurn_spec fs mem
        path { w with stack := { w.stack with items := rest.reverse } }
      rw [List.reverse_reverse] at hstack
      obtain ⟨out, lost, w', hwalk, hroots', hempty, hlost', hrun⟩ := ih _ (by
        rw [hstack]
        exact hkept.append hsub)
      rw [hstack] at hwalk
      refine ⟨path :: out, gone ++ lost, w', ?_, hroots'.trans hroots, hempty, ?_, ?_⟩
      · rw [hrest]
        exact .cons hkept hperm hwalk
      · rw [hlost', hlost, List.append_assoc]
      · intro fuel
        rw [List.length_cons, Nat.succ_add_eq_add_succ, Nat.add_succ, walkPuts, hpop]
        simp only [hrun, hput]
        cases walkPuts fs mem fuel w' with
        | none => rfl
        | some r =>
          simp only [Option.map_some, Option.bind_eq_bind, Option.bind_some, Option.pure_def,
            ← List.append_assoc, ← List.filter_append, List.singleton_append]

variable {fs mem}

/-- What the walk of a root has put on the queue and what it has lost: it finds the source
files under the root that are not under a path lost. -/
structure Walked (fs : FileSystem) (root : CStr) (r : List CStr × List CStr) : Prop where
  nodup : r.1.Nodup
  mem_iff : ∀ p, p ∈ r.1 ↔
    Listed fs root p ∧ isSource fs p = true ∧ ∀ l ∈ r.2, ¬ Listed fs l p
  lost : ∀ l ∈ r.2, Listed fs root l

/-- For a source file, below a path means listed under it. -/
theorem below_iff_listed {root p : CStr} (hp : isSource fs p = true) :
    Below (discoverNext fs) root p ↔ Listed fs root p :=
  ⟨listed_of_below, fun h => below_of_listed h ((isSource_iff p).mp hp).1⟩

/-- A lossy walk from a root. -/
theorem walked_of_visits {root : CStr} {out lost : List CStr}
    (h : LossyVisits (discoverNext fs) [root] out lost) :
    Walked fs root (out.filter (isSource fs), lost) := by
  have hforest := discover_forest fs
  have hdisj := List.pairwise_singleton
    (fun x y => ∀ z, Below (discoverNext fs) x z → ¬ Below (discoverNext fs) y z) root
  refine ⟨(h.nodup hforest hdisj).filter _, ?_, ?_⟩
  · intro p
    rw [List.mem_filter, h.mem_iff hforest hdisj]
    constructor
    · rintro ⟨⟨⟨x, hx, hbelow⟩, hnone⟩, hsource⟩
      obtain rfl := List.mem_singleton.mp hx
      exact ⟨listed_of_below hbelow, hsource, fun l hl hlp =>
        hnone l hl ((below_iff_listed hsource).mpr hlp)⟩
    · rintro ⟨hlisted, hsource, hnone⟩
      exact ⟨⟨⟨root, List.mem_singleton_self root, (below_iff_listed hsource).mpr hlisted⟩,
        fun l hl hlp => hnone l hl (listed_of_below hlp)⟩, hsource⟩
  · intro l hl
    obtain ⟨x, hx, hbelow⟩ := h.exists_below (Or.inr hl)
    obtain rfl := List.mem_singleton.mp hx
    exact listed_of_below hbelow

/-- A root that is lost leaves nothing. -/
theorem walked_of_lost (root : CStr) : Walked fs root ([], [root]) := by
  refine ⟨List.nodup_nil, ?_, ?_⟩
  · intro p
    apply iff_of_false List.not_mem_nil
    rintro ⟨hlisted, -, hnone⟩
    exact hnone root (List.mem_singleton_self root) hlisted
  · intro l hl
    obtain rfl := List.mem_singleton.mp hl
    exact Listed.root

/-! ### All roots -/

/-- **The walks of `main` end, and each finds the source files under its root that are not
under a path lost**, each once. -/
theorem walkPuts_walked (roots : List CStr)
    (hfin : ∀ root ∈ roots, {p | Listed fs root p}.Finite) :
    ∀ w : WalkState, w.roots = roots → w.stack.items = [] →
      ∃ results : List (List CStr × List CStr), List.Forall₂ (Walked fs) roots results ∧
        ∃ turns, ∀ fuel, turns < fuel → walkPuts fs mem fuel w
          = some (results.flatMap Prod.fst, w.lost ++ results.flatMap Prod.snd) := by
  induction roots with
  | nil =>
    intro w hroots hempty
    refine ⟨[], .nil, 0, ?_⟩
    intro fuel hfuel
    obtain ⟨fuel, rfl⟩ := Nat.exists_eq_add_of_lt hfuel
    simp [walkPuts, strstackPop, hempty, hroots]
  | cons root roots ih =>
    intro w hroots hempty
    obtain ⟨hroot, hrest⟩ := List.forall_mem_cons.mp hfin
    have hnext : ∀ fuel, walkPuts fs mem (fuel + 1) w
        = walkPuts fs mem fuel (pushPath mem { w with roots, stack := ⟨[], 0⟩ } root) := by
      intro fuel
      rw [walkPuts]
      simp [strstackPop, hempty, hroots]
    obtain ⟨hroots', hpush⟩ :=
      pushPath_cases mem { w with roots, stack := ⟨[], 0⟩ } root
    generalize pushPath mem { w with roots, stack := ⟨[], 0⟩ } root = w₁ at hnext hroots' hpush
    rcases hpush with ⟨hstack, hlost⟩ | ⟨hstack, hlost⟩
    · -- The walk of this root goes its way, and ends with an empty stack.
      obtain ⟨all, hall⟩ := exists_visits (discover_forest fs)
        (hroot.subset fun p hp => listed_of_below hp)
      have hitems : w₁.stack.items.reverse = [root] := by rw [hstack]; rfl
      obtain ⟨out, lost, w₂, hwalk, hroots₂, hempty₂, hlost₂, hrun⟩ :=
        walkPuts_visits fs mem hall w₁ (by rw [hitems])
      rw [hitems] at hwalk
      obtain ⟨results, hresults, turns, hturns⟩ := ih hrest w₂ (hroots₂.trans hroots') hempty₂
      refine ⟨(out.filter (isSource fs), lost) :: results, .cons (walked_of_visits hwalk) hresults,
        turns + out.length + 1, ?_⟩
      intro fuel hfuel
      obtain ⟨fuel, rfl⟩ : ∃ n, fuel = out.length + n + 1 :=
        ⟨fuel - (out.length + 1), by omega⟩
      rw [hnext, hrun, hturns fuel (by omega), hlost₂, hlost]
      simp
    · -- There was no memory for the root: nothing under it is found.
      obtain ⟨results, hresults, turns, hturns⟩ := ih hrest w₁ hroots' hstack
      refine ⟨([], [root]) :: results, .cons (walked_of_lost root) hresults, turns + 1, ?_⟩
      intro fuel hfuel
      obtain ⟨fuel, rfl⟩ : ∃ n, fuel = n + 1 := ⟨fuel - 1, by omega⟩
      rw [hnext, hturns fuel (by omega), hlost]
      simp

/-- More turns change nothing. -/
theorem walkPuts_mono {r : List CStr × List CStr} (n : ℕ) (fuel : ℕ) :
    ∀ {w : WalkState}, walkPuts fs mem fuel w = some r → walkPuts fs mem (fuel + n) w = some r := by
  induction fuel generalizing r with
  | zero => exact fun h => by cases h
  | succ fuel ih =>
    intro w h
    rw [Nat.add_right_comm, walkPuts]
    rw [walkPuts] at h
    cases hpop : strstackPop w.stack with
    | none =>
      simp only [hpop] at h ⊢
      cases hroots : w.roots with
      | nil =>
        simp only [hroots] at h ⊢
        exact h
      | cons root roots =>
        simp only [hroots] at h ⊢
        exact ih h
    | some popped =>
      obtain ⟨path, stack⟩ := popped
      simp only [hpop] at h ⊢
      obtain ⟨rest, hrest, h⟩ := Option.bind_eq_some_iff.mp h
      rw [ih hrest]
      exact h

/-! ### Ample memory -/

/-- No allocation of the walks fails. -/
def AmplePaths (mem : ℕ → PathMemory) : Prop :=
  ∀ n, (mem n).string = true ∧ (mem n).realloc = true

theorem pushPath_of_ample (hmem : AmplePaths mem) (w : WalkState) (path : CStr) :
    pushPath mem w path
      = { w with stack := strstackPush w.stack path, calls := w.calls + 1 } := by
  have hpush : strstackPushMem w.stack path (mem w.calls).realloc
      = some (strstackPush w.stack path) := by
    rw [(hmem w.calls).2, strstackPushMem, strstackPush]
    split <;> rfl
  rw [pushPath, if_pos (hmem w.calls).1, hpush]

theorem foldl_walkEntry_of_ample (hmem : AmplePaths mem) (path : CStr) (names : List CStr) :
    ∀ w : WalkState, ∃ calls, names.foldl (walkEntry mem path) w
      = { w with stack := names.foldl (pushEntry path) w.stack, calls } := by
  induction names with
  | nil => exact fun w => ⟨w.calls, rfl⟩
  | cons name names ih =>
    intro w
    rw [List.foldl_cons, List.foldl_cons, walkEntry, pushEntry]
    by_cases hdots : isDots name
    · rw [if_pos hdots, if_pos hdots]
      exact ih w
    · rw [if_neg hdots, if_neg hdots, pushPath_of_ample hmem]
      exact ih _

/-- With ample memory a turn is one of `enqueue_path`. -/
theorem walkTurn_of_ample (fs : FileSystem) (hmem : AmplePaths mem) (path : CStr) (w : WalkState)
    (queue : List CStr) : ∃ calls put, walkTurn fs mem path w
      = ({ w with stack := (enqueueTurn fs path w.stack queue).1, calls }, put) ∧
        (enqueueTurn fs path w.stack queue).2 = queue ++ put.toList := by
  unfold walkTurn enqueueTurn
  by_cases hign : isIgnored path
  · rw [if_pos hign, if_pos hign]
    exact ⟨w.calls, none, rfl, (List.append_nil _).symm⟩
  rw [if_neg hign, if_neg hign]
  cases fs.lstat path with
  | none => exact ⟨w.calls, none, rfl, (List.append_nil _).symm⟩
  | some kind =>
    cases kind with
    | dir =>
      cases fs.opendir path with
      | none => exact ⟨w.calls, none, rfl, (List.append_nil _).symm⟩
      | some names =>
        obtain ⟨calls, heq⟩ := foldl_walkEntry_of_ample hmem path names w
        exact ⟨calls, none, by simp only [heq], (List.append_nil _).symm⟩
    | reg =>
      cases findExtension path with
      | none => exact ⟨w.calls, none, rfl, (List.append_nil _).symm⟩
      | some ext =>
        cases hlang : extToLang ext with
        | none => exact ⟨w.calls, none, by simp only [hlang], by simp [hlang]⟩
        | some lang => exact ⟨w.calls, some path, by simp only [hlang], by simp [hlang]⟩
    | other => exact ⟨w.calls, none, rfl, (List.append_nil _).symm⟩

theorem walkPuts_of_enqueueLoop (hmem : AmplePaths mem) (fuel : ℕ) :
    ∀ (w : WalkState) (queue result : List CStr), enqueueLoop fs fuel w.stack queue = some result →
      ∃ turns puts w', result = queue ++ puts ∧ w'.roots = w.roots ∧ w'.stack.items = [] ∧
        w'.lost = w.lost ∧ ∀ n, walkPuts fs mem (turns + n) w
          = (walkPuts fs mem n w').map fun r => (puts ++ r.1, r.2) := by
  induction fuel with
  | zero => exact fun w queue result h => by cases h
  | succ fuel ih =>
    intro w queue result h
    rw [enqueueLoop] at h
    cases hpop : strstackPop w.stack with
    | none =>
      -- The loop of `enqueue_path` is over when its stack is empty.
      rw [hpop] at h
      obtain rfl := Option.some.inj h
      have hempty : w.stack.items = [] := by
        unfold strstackPop at hpop
        split at hpop
        · next hlast => exact List.getLast?_eq_none_iff.mp hlast
        · cases hpop
      exact ⟨0, [], w, (List.append_nil _).symm, rfl, hempty, rfl, fun n => by simp⟩
    | some popped =>
      obtain ⟨path, stack⟩ := popped
      rw [hpop] at h
      obtain ⟨calls, put, hturn, hqueue⟩ :=
        walkTurn_of_ample fs hmem path { w with stack } queue
      obtain ⟨turns, puts, w', rfl, hroots, hempty, hlost, hrun⟩ :=
        ih { w with stack := (enqueueTurn fs path stack queue).1, calls } _ result h
      refine ⟨turns + 1, put.toList ++ puts, w', ?_, hroots, hempty, hlost, ?_⟩
      · rw [← List.append_assoc, ← hqueue]
      · intro n
        rw [Nat.add_right_comm, walkPuts, hpop]
        simp only [hturn, hrun]
        cases walkPuts fs mem n w' with
        | none => rfl
        | some r => simp

/-- **With ample memory nothing is lost**: each walk puts on the queue what `enqueue_path`
puts there. -/
theorem walkPuts_of_ample (hmem : AmplePaths mem) {fuel : ℕ} (roots : List CStr) :
    ∀ queues, roots.mapM (enqueuePath fs fuel) = some queues →
      ∀ w : WalkState, w.roots = roots → w.stack.items = [] →
        ∃ turns, ∀ fuel, turns < fuel →
          walkPuts fs mem fuel w = some (queues.flatten, w.lost) := by
  induction roots with
  | nil =>
    intro queues hqueues w hroots hempty
    obtain rfl := Option.some.inj hqueues
    refine ⟨0, ?_⟩
    intro fuel hfuel
    obtain ⟨fuel, rfl⟩ := Nat.exists_eq_add_of_lt hfuel
    simp [walkPuts, strstackPop, hempty, hroots]
  | cons root roots ih =>
    intro queues hqueues w hroots hempty
    rw [List.mapM_cons] at hqueues
    obtain ⟨queue, hqueue, hqueues⟩ := Option.bind_eq_some_iff.mp hqueues
    obtain ⟨queues, hrest, hqueues⟩ := Option.bind_eq_some_iff.mp hqueues
    obtain rfl := Option.some.inj hqueues
    obtain ⟨turns, puts, w', rfl, hroots', hempty', hlost, hrun⟩ := walkPuts_of_enqueueLoop hmem
      fuel { w with roots, stack := strstackPush ⟨[], 0⟩ root, calls := w.calls + 1 } [] queue
      hqueue
    obtain ⟨turns', hturns'⟩ := ih queues hrest w' hroots' hempty'
    refine ⟨turns + turns' + 1, ?_⟩
    intro fuel hfuel
    -- the stack is empty, and so the next root is pushed and walked
    obtain ⟨n, rfl⟩ : ∃ n, fuel = turns + n + 1 := ⟨fuel - (turns + 1), by omega⟩
    rw [walkPuts]
    simp only [strstackPop, hempty, hroots, List.getLast?_nil, pushPath_of_ample hmem]
    rw [hrun, hturns' n (by omega), hlost]
    simp

end Walk

end Tsag
