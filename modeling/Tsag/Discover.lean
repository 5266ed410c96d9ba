import Tsag.Lang
import Tsag.Lib.Worklist

/-!
# The files under a path

`enqueue_path` walks the files under a path with a stack of paths, leaves out what
lies under an ignored name as it goes, and puts the regular files with a known
extension on the queue.

## Main definitions

* `isIgnored` — the test of a whole path; `ignoredFiles` — the names.
* `StrStack`, `strstackPush`, `strstackPop` — the stack.
* `FileSystem` — what the calls on the file system come to.
* `enqueueTurn`, `enqueuePath` — one path off the stack, and the function.
* `Listed` — the paths found by a walk that leaves nothing out.

## Main results

* `isIgnored_iff` — the test finds a component that is an ignored name.
* `enqueueLoop_eq` — the loop is the walk of `Visits`.
* `enqueuePath_eq_filter` — what is put on the queue is what the other walk finds,
  filtered.
-/

namespace Tsag

/-! ### Ignored paths -/

/-- `IGNORED_FILES`. -/
def ignoredFiles : List Bytes := [".git", "build", "dist"].map ascii

/-- The loop of `is_ignored`, from `p` on. -/
def isIgnoredFrom (p : Bytes) : Bool :=
  match _hp : p.dropWhile (· = Byte.slash) with
  | [] => false
  | c :: q =>
      let component := (c :: q).takeWhile (· ≠ Byte.slash)
      if component ≠ [Byte.dot] ∧ component ∈ ignoredFiles then true
      else
        match _hend : (c :: q).dropWhile (· ≠ Byte.slash) with
        | [] => false
        | _ :: rest => isIgnoredFrom rest
termination_by p.length
decreasing_by
  have hle := (List.dropWhile_suffix (· = Byte.slash) (l := p)).length_le
  have hle' := (List.dropWhile_suffix (· ≠ Byte.slash) (l := c :: q)).length_le
  rw [_hp] at hle
  rw [_hend, List.length_cons] at hle'
  omega

/-- `is_ignored`. -/
def isIgnored (path : CStr) : Bool := isIgnoredFrom path.bytes

/-- A component of the path is an ignored name. -/
def HasIgnored (p : Bytes) : Prop := ∃ component ∈ p.splitOn Byte.slash, component ∈ ignoredFiles

instance (p : Bytes) : Decidable (HasIgnored p) :=
  inferInstanceAs (Decidable (∃ component ∈ p.splitOn Byte.slash, component ∈ ignoredFiles))

theorem hasIgnored_append_slash (a b : Bytes) :
    HasIgnored (a ++ Byte.slash :: b) ↔ HasIgnored a ∨ HasIgnored b := by
  unfold HasIgnored
  rw [List.splitOn_append_cons_self]
  simp only [List.mem_append, or_and_right, exists_or]

theorem hasIgnored_of_notMem {a : Bytes} (h : Byte.slash ∉ a) :
    HasIgnored a ↔ a ∈ ignoredFiles := by
  unfold HasIgnored
  rw [List.splitOn_eq_singleton h]
  simp

theorem hasIgnored_slash_cons (p : Bytes) : HasIgnored (Byte.slash :: p) ↔ HasIgnored p := by
  have hnil : ¬ HasIgnored [] := by decide
  have hsplit := hasIgnored_append_slash [] p
  rw [List.nil_append] at hsplit
  rw [hsplit]
  exact or_iff_right hnil

/-- Slashes at the start make no difference. -/
theorem hasIgnored_dropWhile (p : Bytes) :
    HasIgnored (p.dropWhile (· = Byte.slash)) ↔ HasIgnored p := by
  induction p with
  | nil => rfl
  | cons c p ih =>
    by_cases hc : c = Byte.slash
    · rw [List.dropWhile_cons_of_pos (by simpa using hc), ih, hc, hasIgnored_slash_cons]
    · rw [List.dropWhile_cons_of_neg (by simpa using hc)]

/-- A path has one component, or a component, a slash and a rest. -/
theorem cut_at_slash (p : Bytes) :
    (p.dropWhile (· ≠ Byte.slash) = [] ∧ p.takeWhile (· ≠ Byte.slash) = p) ∨
    ∃ rest, p.dropWhile (· ≠ Byte.slash) = Byte.slash :: rest ∧
      p = p.takeWhile (· ≠ Byte.slash) ++ Byte.slash :: rest := by
  have hsplit := List.takeWhile_append_dropWhile (p := (· ≠ Byte.slash)) (l := p)
  cases hdrop : p.dropWhile (· ≠ Byte.slash) with
  | nil =>
    rw [hdrop, List.append_nil] at hsplit
    exact Or.inl ⟨rfl, hsplit⟩
  | cons c rest =>
    have hhead := List.head?_dropWhile_not (· ≠ Byte.slash) p
    rw [hdrop] at hhead hsplit
    have hc : c = Byte.slash := by simpa using hhead
    rw [hc] at hsplit
    exact Or.inr ⟨rest, by rw [hc], hsplit.symm⟩

theorem isIgnoredFrom_iff (p : Bytes) : isIgnoredFrom p = true ↔ HasIgnored p := by
  induction hn : p.length using Nat.strong_induction_on generalizing p with
  | _ n ih =>
    rw [isIgnoredFrom, ← hasIgnored_dropWhile p]
    have hle := (List.dropWhile_suffix (· = Byte.slash) (l := p)).length_le
    split
    · next hp =>
      rw [hp]
      decide
    · next c q hp =>
      rw [hp] at hle ⊢
      simp only
      have hnotMem : Byte.slash ∉ (c :: q).takeWhile (· ≠ Byte.slash) := by
        intro h
        simpa using List.mem_takeWhile_imp h
      -- the component `.` is no ignored name
      have hcond : ((c :: q).takeWhile (· ≠ Byte.slash) ≠ [Byte.dot] ∧
          (c :: q).takeWhile (· ≠ Byte.slash) ∈ ignoredFiles) ↔
          (c :: q).takeWhile (· ≠ Byte.slash) ∈ ignoredFiles := by
        apply and_iff_right_of_imp
        intro hmem hdot
        rw [hdot] at hmem
        exact absurd hmem (by decide)
      rcases cut_at_slash (c :: q) with ⟨hend, htake⟩ | ⟨rest, hend, hcut⟩
      · -- This is the last component.
        rw [htake] at hnotMem hcond ⊢
        rw [hasIgnored_of_notMem hnotMem]
        split
        · next h => exact iff_of_true rfl (hcond.mp h)
        · next h =>
          split
          · exact iff_of_false (by simp) fun hmem => h (hcond.mpr hmem)
          · next heq =>
            rw [hend] at heq
            cases heq
      · -- What is behind the slash is looked at next.
        have hlt : rest.length < n := by
          have hlen := congrArg List.length hcut
          simp only [List.length_append, List.length_cons] at hlen hle
          omega
        have hcomponents : HasIgnored (c :: q) ↔
            (c :: q).takeWhile (· ≠ Byte.slash) ∈ ignoredFiles ∨ isIgnoredFrom rest = true := by
          rw [ih _ hlt rest rfl, ← hasIgnored_of_notMem hnotMem, ← hasIgnored_append_slash,
            ← hcut]
        rw [hcomponents]
        split
        · next h => exact iff_of_true rfl (Or.inl (hcond.mp h))
        · next h =>
          split
          · next heq =>
            rw [hend] at heq
            cases heq
          · next rest' heq =>
            rw [hend] at heq
            obtain ⟨-, rfl⟩ := List.cons_eq_cons.mp heq
            exact (or_iff_right fun hmem => h (hcond.mpr hmem)).symm

/-! ### The walk -/

/-- `StrStack`, its allocations successful; the last of the items is the top. -/
structure StrStack where
  items : List CStr
  cap : ℕ

/-- `strstack_push`. -/
def strstackPush (s : StrStack) (str : CStr) : StrStack :=
  if s.items.length = s.cap then
    ⟨s.items ++ [str], if s.cap = 0 then 256 else s.cap * 2⟩
  else { s with items := s.items ++ [str] }

/-- `strstack_pop`, `none` when it returns `NULL`. -/
def strstackPop (s : StrStack) : Option (CStr × StrStack) :=
  match s.items.getLast? with
  | none => none
  | some str => some (str, { s with items := s.items.dropLast })

/-- What `lstat` tells of a path. -/
inductive FileKind
  | dir
  | reg
  | other
  deriving DecidableEq

/-- What the calls on the file system come to. -/
structure FileSystem where
  /-- `lstat`. -/
  lstat : CStr → Option FileKind
  /-- `opendir`, and the names `readdir` reads. -/
  opendir : CStr → Option (List CStr)
  names_nodup : ∀ path names, opendir path = some names → names.Nodup
  no_slash : ∀ path names, opendir path = some names → ∀ name ∈ names, Byte.slash ∉ name.bytes

/-- `fullpath`. -/
def childPath (path name : CStr) : CStr :=
  if strcmp path (CStr.lit ".") = .eq then name
  else ⟨path.bytes ++ Byte.slash :: name.bytes, by
    rw [List.mem_append, List.mem_cons]
    rintro (h | h | h)
    · exact path.no_nul h
    · cases h
    · exact name.no_nul h⟩

/-- The entries of a directory that `enqueue_path` passes over. -/
def isDots (name : CStr) : Bool :=
  strcmp name (CStr.lit ".") == .eq || strcmp name (CStr.lit "..") == .eq

/-- One turn of the loop that reads a directory. -/
def pushEntry (path : CStr) (stack : StrStack) (name : CStr) : StrStack :=
  if isDots name then stack else strstackPush stack (childPath path name)

/-- One turn of the loop of `enqueue_path`, for the path popped: the stack and what has
been put on the queue. -/
def enqueueTurn (fs : FileSystem) (path : CStr) (stack : StrStack) (queue : List CStr) :
    StrStack × List CStr :=
  if isIgnored path then (stack, queue)
  else
    match fs.lstat path with
    | none => (stack, queue)
    | some .dir =>
        match fs.opendir path with
        | none => (stack, queue)
        | some names => (names.foldl (pushEntry path) stack, queue)
    | some .reg =>
        match findExtension path with
        | none => (stack, queue)
        | some ext =>
            match extToLang ext with
            | none => (stack, queue)
            | some _ => (stack, queue ++ [path])
    | some .other => (stack, queue)

/-- The loop of `enqueue_path`. -/
def enqueueLoop (fs : FileSystem) : ℕ → StrStack → List CStr → Option (List CStr)
  | 0, _, _ => none
  | fuel + 1, stack, queue =>
      match strstackPop stack with
      | none => some queue
      | some (path, stack) =>
          enqueueLoop fs fuel (enqueueTurn fs path stack queue).1
            (enqueueTurn fs path stack queue).2

/-- `enqueue_path`: what it puts on the queue, in order. -/
def enqueuePath (fs : FileSystem) (fuel : ℕ) (root : CStr) : Option (List CStr) :=
  enqueueLoop fs fuel (strstackPush ⟨[], 0⟩ root) []

/-! ### The walk that leaves nothing out -/

/-- The paths of the entries of a directory, in reading order. -/
def childPaths (fs : FileSystem) (path : CStr) : List CStr :=
  if fs.lstat path = some .dir then
    (((fs.opendir path).getD []).filter fun name => !isDots name).map (childPath path)
  else []

/-- The paths reached from the root when nothing is left out. -/
inductive Listed (fs : FileSystem) (root : CStr) : CStr → Prop
  | root : Listed fs root root
  | entry {path names name} : Listed fs root path → fs.lstat path = some .dir →
      fs.opendir path = some names → name ∈ names → isDots name = false →
      Listed fs root (childPath path name)

/-- What comes next to a path on the stack of `enqueue_path`, the top first. -/
def discoverNext (fs : FileSystem) (path : CStr) : List CStr :=
  if isIgnored path then [] else (childPaths fs path).reverse

/-- A regular file with a known extension and no ignored component. -/
def isSource (fs : FileSystem) (path : CStr) : Bool :=
  !isIgnored path && fs.lstat path == some .reg && ((findExtension path).bind extToLang).isSome

section Walk

variable {fs : FileSystem}

theorem strstackPush_items (s : StrStack) (str : CStr) :
    (strstackPush s str).items = s.items ++ [str] := by
  unfold strstackPush
  split <;> rfl

theorem foldl_pushEntry_items (path : CStr) (names : List CStr) : ∀ stack : StrStack,
    (names.foldl (pushEntry path) stack).items
      = stack.items ++ (names.filter fun name => !isDots name).map (childPath path) := by
  induction names with
  | nil => simp
  | cons name names ih =>
    intro stack
    rw [List.foldl_cons, ih, pushEntry]
    by_cases hdots : isDots name
    · simp [hdots]
    · simp [hdots, strstackPush_items]

variable (fs) in
/-- What one turn does to the stack, read from the top, and to the queue. -/
theorem enqueueTurn_eq (path : CStr) (stack : StrStack) (queue : List CStr) :
    (enqueueTurn fs path stack queue).1.items.reverse
        = discoverNext fs path ++ stack.items.reverse ∧
      (enqueueTurn fs path stack queue).2 = queue ++ [path].filter (isSource fs) := by
  unfold enqueueTurn discoverNext
  by_cases hign : isIgnored path
  · simp [hign, isSource]
  rw [if_neg hign, if_neg hign]
  cases hstat : fs.lstat path with
  | none => simp [childPaths, isSource, hstat]
  | some kind =>
    cases kind with
    | dir =>
      cases hdir : fs.opendir path with
      | none => simp [childPaths, isSource, hstat, hdir]
      | some names => simp [childPaths, isSource, hstat, hdir, foldl_pushEntry_items]
    | reg =>
      cases hext : findExtension path with
      | none => simp [childPaths, isSource, hstat, hext]
      | some ext =>
        cases hlang : extToLang ext with
        | none => simp [childPaths, isSource, hstat, hext, hlang]
        | some lang => simp [childPaths, isSource, hstat, hext, hlang, hign]
    | other => simp [childPaths, isSource, hstat]

/-- **The loop is the walk**, and puts the source files it visits on the queue. -/
theorem enqueueLoop_eq {nodes out : List CStr} (h : Visits (discoverNext fs) nodes out) :
    ∀ (stack : StrStack) (queue : List CStr) (fuel : ℕ), stack.items.reverse = nodes →
      out.length < fuel →
      enqueueLoop fs fuel stack queue = some (queue ++ out.filter (isSource fs)) := by
  induction h with
  | nil =>
    intro stack queue fuel hstack hfuel
    obtain ⟨fuel, rfl⟩ := Nat.exists_eq_add_of_lt hfuel
    have hitems : stack.items = [] := by simpa using hstack
    simp [enqueueLoop, strstackPop, hitems]
  | @cons path nodes out _ ih =>
    intro stack queue fuel hstack hfuel
    cases fuel with
    | zero => exact absurd hfuel (Nat.not_lt_zero _)
    | succ fuel =>
      have hitems : stack.items = nodes.reverse ++ [path] := by
        rw [← List.reverse_reverse stack.items, hstack, List.reverse_cons]
      have hpop : strstackPop stack = some (path, { stack with items := nodes.reverse }) := by
        simp [strstackPop, hitems]
      obtain ⟨hnext, hqueue⟩ := enqueueTurn_eq fs path
        { stack with items := nodes.reverse } queue
      rw [List.length_cons] at hfuel
      simp only [enqueueLoop, hpop]
      rw [ih _ _ fuel (by rw [hnext, List.reverse_reverse]) (by omega), hqueue,
        List.append_assoc, ← List.filter_append, List.singleton_append]

/-! ### The paths form a forest -/

theorem childPath_dot {path : CStr} (h : path = CStr.lit ".") (name : CStr) :
    childPath path name = name :=
  if_pos ((strcmp_eq_eq_iff _ _).mpr h)

theorem childPath_bytes {path : CStr} (h : path ≠ CStr.lit ".") (name : CStr) :
    (childPath path name).bytes = path.bytes ++ Byte.slash :: name.bytes := by
  rw [childPath, if_neg (mt (strcmp_eq_eq_iff _ _).mp h)]

/-- The path of an entry is that of no other directory's entry and no other entry. -/
theorem childPath_inj {path path' name name' : CStr} (hname : Byte.slash ∉ name.bytes)
    (hname' : Byte.slash ∉ name'.bytes) (h : childPath path name = childPath path' name') :
    path = path' ∧ name = name' := by
  have hbytes := congrArg CStr.bytes h
  by_cases hdot : path = CStr.lit "." <;> by_cases hdot' : path' = CStr.lit "."
  · rw [childPath_dot hdot, childPath_dot hdot'] at h
    exact ⟨hdot.trans hdot'.symm, h⟩
  · rw [childPath_dot hdot, childPath_bytes hdot'] at hbytes
    exact absurd (hbytes ▸ by simp) hname
  · rw [childPath_bytes hdot, childPath_dot hdot'] at hbytes
    exact absurd (hbytes ▸ by simp) hname'
  · rw [childPath_bytes hdot, childPath_bytes hdot'] at hbytes
    obtain ⟨hpath, hname⟩ := append_cons_inj_right hname hname' hbytes
    exact ⟨CStr.ext hpath, CStr.ext hname⟩

theorem mem_childPaths {path q : CStr} : q ∈ childPaths fs path ↔
    fs.lstat path = some .dir ∧ ∃ names, fs.opendir path = some names ∧
      ∃ name ∈ names, isDots name = false ∧ childPath path name = q := by
  unfold childPaths
  by_cases hdir : fs.lstat path = some .dir
  · cases hnames : fs.opendir path with
    | none => simp [hdir]
    | some names => simp [hdir, and_assoc]
  · simp [hdir]

theorem mem_discoverNext {path q : CStr} :
    q ∈ discoverNext fs path ↔ isIgnored path = false ∧ q ∈ childPaths fs path := by
  unfold discoverNext
  by_cases hign : isIgnored path
  · simp [hign]
  · simp [hign]

/-- What grows from a path to those of its entries. -/
def pathWeight (path : CStr) : ℕ := if path = CStr.lit "." then 0 else path.bytes.length + 1

theorem pathWeight_lt {path name : CStr} (hdots : isDots name = false) :
    pathWeight path < pathWeight (childPath path name) := by
  by_cases hdot : path = CStr.lit "."
  · have hname : name ≠ CStr.lit "." := by
      rintro rfl
      exact absurd hdots (by decide)
    rw [childPath_dot hdot, pathWeight, pathWeight, if_pos hdot, if_neg hname]
    exact Nat.succ_pos _
  · have hchild : childPath path name ≠ CStr.lit "." := by
      intro h
      have hslash : Byte.slash ∈ (childPath path name).bytes := by
        rw [childPath_bytes hdot]
        simp
      rw [h] at hslash
      exact absurd hslash (by decide)
    rw [pathWeight, pathWeight, if_neg hdot, if_neg hchild, childPath_bytes hdot,
      List.length_append, List.length_cons]
    omega

theorem discover_forest (fs : FileSystem) : Forest (discoverNext fs) pathWeight := by
  constructor
  · intro path
    unfold discoverNext
    split
    · exact List.nodup_nil
    · rw [List.nodup_reverse, childPaths]
      split
      · cases hnames : fs.opendir path with
        | none => simp
        | some names =>
          refine List.Nodup.map_on ?_ ((fs.names_nodup path names hnames).filter _)
          intro name hname name' hname' heq
          have hno := fs.no_slash path names hnames
          exact (childPath_inj (hno _ (List.mem_of_mem_filter hname))
            (hno _ (List.mem_of_mem_filter hname')) heq).2
      · exact List.nodup_nil
  · -- A path is an entry of one directory only.
    intro path path' q h h'
    obtain ⟨-, -, names, hnames, name, hname, -, rfl⟩ :=
      (mem_discoverNext.trans (and_congr_right fun _ => mem_childPaths)).mp h
    obtain ⟨-, -, names', hnames', name', hname', -, heq⟩ :=
      (mem_discoverNext.trans (and_congr_right fun _ => mem_childPaths)).mp h'
    have hslash := fs.no_slash _ _ hnames _ hname
    exact (childPath_inj (fs.no_slash _ _ hnames' _ hname') hslash heq).1.symm
  · -- The entries of a directory have longer paths.
    intro path q h
    obtain ⟨-, -, names, -, name, -, hdots, rfl⟩ :=
      (mem_discoverNext.trans (and_congr_right fun _ => mem_childPaths)).mp h
    exact pathWeight_lt hdots

/-! ### What is left out -/

/-- An ignored component is inherited by the entries. -/
theorem HasIgnored.child {path : CStr} (h : HasIgnored path.bytes) (name : CStr) :
    HasIgnored (childPath path name).bytes := by
  by_cases hdot : path = CStr.lit "."
  · rw [hdot] at h
    exact absurd h (by decide)
  · rw [childPath_bytes hdot, hasIgnored_append_slash]
    exact Or.inl h

theorem isIgnored_iff (path : CStr) : isIgnored path = true ↔ HasIgnored path.bytes :=
  isIgnoredFrom_iff path.bytes

/-- What the walk visits is listed. -/
theorem listed_of_below {root p : CStr} (h : Below (discoverNext fs) root p) :
    Listed fs root p := by
  induction h with
  | refl => exact Listed.root
  | tail _ hstep ih =>
    obtain ⟨-, hmem⟩ := mem_discoverNext.mp hstep
    obtain ⟨hdir, names, hnames, name, hname, hdots, rfl⟩ := mem_childPaths.mp hmem
    exact ih.entry hdir hnames hname hdots

/-- A listed path without an ignored component is visited: nothing above it is left out. -/
theorem below_of_listed {root p : CStr} (h : Listed fs root p) (hp : ¬ HasIgnored p.bytes) :
    Below (discoverNext fs) root p := by
  induction h with
  | root => exact Relation.ReflTransGen.refl
  | @entry path names name _ hdir hnames hname hdots ih =>
    have hpath : ¬ HasIgnored path.bytes := fun h => hp (h.child name)
    refine Relation.ReflTransGen.tail (ih hpath) (mem_discoverNext.mpr ⟨?_, ?_⟩)
    · rw [← isIgnored_iff, Bool.not_eq_true] at hpath
      exact hpath
    · exact mem_childPaths.mpr ⟨hdir, names, hnames, name, hname, hdots, rfl⟩

theorem isSource_iff (path : CStr) : isSource fs path = true ↔
    ¬ HasIgnored path.bytes ∧ fs.lstat path = some .reg ∧
      ∃ ext lang, findExtension path = some ext ∧ extToLang ext = some lang := by
  rw [isSource, Bool.and_eq_true, Bool.and_eq_true, Bool.not_eq_true', beq_iff_eq,
    ← isIgnored_iff, Bool.not_eq_true, Option.isSome_iff_exists]
  simp only [Option.bind_eq_some_iff, and_assoc]
  constructor
  · rintro ⟨hign, hreg, lang, ext, hext, hlang⟩
    exact ⟨hign, hreg, ext, lang, hext, hlang⟩
  · rintro ⟨hign, hreg, ext, lang, hext, hlang⟩
    exact ⟨hign, hreg, lang, ext, hext, hlang⟩

end Walk

/-- **`enqueue_path` finds what a walk that leaves nothing out finds, filtered.**  If
finitely many paths are listed, its loop ends, and puts each listed regular file with
no ignored component and a known extension on the queue, once. -/
theorem enqueuePath_eq_filter (fs : FileSystem) (root : CStr)
    (hfin : {p | Listed fs root p}.Finite) :
    ∃ queue, (∃ turns, ∀ fuel, turns < fuel → enqueuePath fs fuel root = some queue) ∧
      queue.Nodup ∧
      ∀ p, p ∈ queue ↔ Listed fs root p ∧ fs.lstat p = some .reg ∧
        (∀ component ∈ p.bytes.splitOn Byte.slash, component ∉ ignoredFiles) ∧
        ∃ ext lang, findExtension p = some ext ∧ extToLang ext = some lang := by
  have hforest := discover_forest fs
  obtain ⟨out, hout⟩ := exists_visits hforest (hfin.subset fun p hp => listed_of_below hp)
  refine ⟨out.filter (isSource fs), ⟨out.length, ?_⟩, ?_, ?_⟩
  · intro fuel hfuel
    rw [enqueuePath, enqueueLoop_eq hout _ [] fuel (by rw [strstackPush_items]; rfl) hfuel,
      List.nil_append]
  · exact (hout.nodup hforest (List.pairwise_singleton _ _)).filter _
  · intro p
    have hnone : ¬ HasIgnored p.bytes ↔
        ∀ component ∈ p.bytes.splitOn Byte.slash, component ∉ ignoredFiles := by
      simp [HasIgnored]
    rw [List.mem_filter, isSource_iff, hout.mem_iff p, ← hnone]
    constructor
    · rintro ⟨⟨x, hx, hbelow⟩, hign, hreg, hlang⟩
      obtain rfl := List.mem_singleton.mp hx
      exact ⟨listed_of_below hbelow, hreg, hign, hlang⟩
    · rintro ⟨hlisted, hreg, hign, hlang⟩
      exact ⟨⟨root, List.mem_singleton_self root, below_of_listed hlisted hign⟩, hign, hreg, hlang⟩

/-- A directory with a file, a directory of sources and one that is left out. -/
def sourceTree : FileSystem where
  lstat path :=
    if path ∈ [".", "build", "lib"].map CStr.lit then some .dir
    else if path ∈ ["a.c", "build/x.c", "lib/b.c", "lib/notes"].map CStr.lit then some .reg
    else none
  opendir path :=
    if path = CStr.lit "." then some ([".", "..", "build", "a.c", "lib"].map CStr.lit)
    else if path = CStr.lit "build" then some ([".", "..", "x.c"].map CStr.lit)
    else if path = CStr.lit "lib" then some ([".", "..", "b.c", "notes"].map CStr.lit)
    else none
  names_nodup path names h := by
    split_ifs at h <;> obtain rfl := Option.some.inj h <;> decide
  no_slash path names h := by
    split_ifs at h <;> obtain rfl := Option.some.inj h <;> decide

/-- What the walk that leaves nothing out finds in `sourceTree`. -/
def sourceTreePaths : List CStr :=
  [".", "build", "a.c", "lib", "build/x.c", "lib/b.c", "lib/notes"].map CStr.lit

theorem sourceTree_listed {p : CStr} (h : Listed sourceTree (CStr.lit ".") p) :
    p ∈ sourceTreePaths := by
  have hentries : ∀ path ∈ sourceTreePaths, ∀ name ∈ (sourceTree.opendir path).getD [],
      isDots name = false → childPath path name ∈ sourceTreePaths := by decide
  induction h with
  | root => decide
  | entry _ _ hnames hname hdots ih =>
    exact hentries _ ih _ (by rw [hnames]; exact hname) hdots

/-- The two files outside the ignored directory are put on the queue: what is below
`build` and what has no known extension are not. -/
theorem enqueuePath_eq_filter_sourceTree : ∃ queue turns,
    (∀ fuel, turns < fuel → enqueuePath sourceTree fuel (CStr.lit ".") = some queue) ∧
      Listed sourceTree (CStr.lit ".") (CStr.lit "build/x.c") ∧
      ∀ p, p ∈ queue ↔ p = CStr.lit "a.c" ∨ p = CStr.lit "lib/b.c" := by
  have hfin : {p | Listed sourceTree (CStr.lit ".") p}.Finite :=
    (List.finite_toSet sourceTreePaths).subset fun p hp => sourceTree_listed hp
  obtain ⟨queue, ⟨turns, hturns⟩, -, hmem⟩ :=
    enqueuePath_eq_filter sourceTree (CStr.lit ".") hfin
  have hroot : Listed sourceTree (CStr.lit ".") (CStr.lit ".") := Listed.root
  have hbuild : Listed sourceTree (CStr.lit ".") (CStr.lit "build") :=
    @Listed.entry _ _ _ _ (CStr.lit "build") hroot rfl rfl (by decide) (by decide)
  have hlib : Listed sourceTree (CStr.lit ".") (CStr.lit "lib") :=
    @Listed.entry _ _ _ _ (CStr.lit "lib") hroot rfl rfl (by decide) (by decide)
  refine ⟨queue, turns, hturns, ?_, fun p => (hmem p).trans ⟨?_, ?_⟩⟩
  · exact @Listed.entry _ _ _ _ (CStr.lit "x.c") hbuild rfl rfl (by decide) (by decide)
  · rintro ⟨hlisted, hreg, hign, ext, lang, hext, hlang⟩
    have hsources : ∀ p ∈ sourceTreePaths, sourceTree.lstat p = some .reg →
        (∀ component ∈ p.bytes.splitOn Byte.slash, component ∉ ignoredFiles) →
        ((findExtension p).bind extToLang).isSome →
        p = CStr.lit "a.c" ∨ p = CStr.lit "lib/b.c" := by decide
    exact hsources p (sourceTree_listed hlisted) hreg hign (by rw [hext]; simp [hlang])
  · rintro (rfl | rfl)
    · exact ⟨@Listed.entry _ _ _ _ (CStr.lit "a.c") hroot rfl rfl (by decide) (by decide),
        by decide, by decide, CStr.lit "c", CStr.lit "c", by decide, by decide⟩
    · exact ⟨@Listed.entry _ _ _ _ (CStr.lit "b.c") hlib rfl rfl (by decide) (by decide),
        by decide, by decide, CStr.lit "c", CStr.lit "c", by decide, by decide⟩

end Tsag
