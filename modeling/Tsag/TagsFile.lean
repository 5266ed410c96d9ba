import Tsag.MakeLine
import Tsag.Merge

/-!
# The tags file

The lines of a file come from the matches in it; the worker that parsed the file
sorts them with its others and drops duplicates, and the merge thread writes the
lines of all workers.

## Main definitions

* `TagLine path line` — a line `make_line` returns for a match in the file `path`.
* `nameField` — the field a reader searches by.

## Main results

* `merge_ordered_by_name` — the names of the lines written are in order.
-/

namespace Tsag

/-! ### Lines of tags -/

/-- A line `make_line` returns for a match in the file. -/
def TagLine (path line : CStr) : Prop :=
  ∃ (mallocPattern mallocLine : Malloc) (source : Bytes) (m : MatchInfo),
    source.length ≤ maxFileSize ∧ m.OfSource source ∧
      makeLine mallocPattern mallocLine m source path = some (some line)

/-- Every line of a tag is that of its match. -/
theorem TagLine.eq_lineText {path line : CStr} (h : TagLine path line) :
    ∃ source m, MatchInfo.Valid source m ∧ nameIsPrintable m.name = true ∧
      line.bytes = lineText source m path := by
  obtain ⟨mallocPattern, mallocLine, source, m, hsize, hm, hline⟩ := h
  have hvalid := extractMatch_valid hm
  obtain ⟨hprint, hbytes⟩ := makeLine_eq_some hvalid hsize hline
  exact ⟨source, m, hvalid, hprint, hbytes⟩

/-- The name ends at the first TAB, the pattern and the kind follow the last two. -/
theorem lineText_nested (source : Bytes) (m : MatchInfo) (path : CStr) :
    lineText source m path
      = m.name ++ Byte.tab :: ((path.bytes ++ Byte.tab :: patternField (patternOf source m).bytes)
        ++ Byte.tab :: (m.kind.bytes ++ [Byte.newline])) := by
  simp [lineText, formatLine]

/-- **The line of a tag determines its path**, whatever bytes the path holds. -/
theorem TagLine.path_unique {path path' line : CStr} (h : TagLine path line)
    (h' : TagLine path' line) : path = path' := by
  obtain ⟨source, m, hm, hprint, hbytes⟩ := h.eq_lineText
  obtain ⟨source', m', hm', hprint', hbytes'⟩ := h'.eq_lineText
  have hfield : ∀ (source : Bytes) (m : MatchInfo),
      Byte.tab ∉ patternField (patternOf source m).bytes := by
    intro source m
    have hopen : Byte.tab ∉ ascii "/^" := by decide
    have hclose : Byte.tab ∉ ascii "$/;\"" := by decide
    simp [patternField, hopen, hclose, tab_not_mem_patternOf]
  have hkind : ∀ {source : Bytes} {m : MatchInfo}, m.Valid source →
      Byte.tab ∉ m.kind.bytes ++ [Byte.newline] := by
    intro source m hm
    have hkind := (kindNames_bytes _ hm.kind_mem).1
    rw [List.mem_append, not_or]
    exact ⟨hkind, by decide⟩
  have heq := hbytes.symm.trans hbytes'
  rw [lineText_nested, lineText_nested] at heq
  have hrest := (append_cons_inj_left (not_mem_of_nameIsPrintable hprint rfl)
    (not_mem_of_nameIsPrintable hprint' rfl) heq).2
  have hmiddle := (append_cons_inj_right (hkind hm) (hkind hm') hrest).1
  exact CStr.ext (append_cons_inj_right (hfield _ _) (hfield _ _) hmiddle).1

/-! ### The order of the names -/

/-- The bytes of a line before its first TAB. -/
def nameField (line : CStr) : CStr where
  bytes := line.bytes.takeWhile (· ≠ Byte.tab)
  no_nul := fun h => line.no_nul ((List.takeWhile_prefix _).subset h)

theorem tab_lt_of_isprint {c : UInt8} (h : isprint c = true) : Byte.tab < c := by
  rw [isprint, Bool.and_eq_true, decide_eq_true_eq] at h
  have hspace : Byte.tab < 0x20 := by decide
  exact UInt8.lt_of_lt_of_le hspace h.1

/-- The name of a tag is followed by a TAB, and its bytes are above a TAB. -/
theorem TagLine.nameField_eq {path line : CStr} (h : TagLine path line) :
    (∃ rest, line.bytes = (nameField line).bytes ++ Byte.tab :: rest) ∧
      ∀ b ∈ (nameField line).bytes, Byte.tab < b := by
  obtain ⟨source, m, -, hprint, hbytes⟩ := h.eq_lineText
  rw [lineText_nested] at hbytes
  have htab := not_mem_of_nameIsPrintable hprint (c := Byte.tab) rfl
  have hname : (nameField line).bytes = m.name := by
    show line.bytes.takeWhile (· ≠ Byte.tab) = m.name
    rw [hbytes, List.takeWhile_append_of_pos fun x hx => by
      simpa using fun he : x = Byte.tab => htab (he ▸ hx)]
    simp
  rw [hname]
  refine ⟨⟨_, hbytes⟩, fun b hb => tab_lt_of_isprint ?_⟩
  rw [nameIsPrintable, List.all_eq_true] at hprint
  exact hprint b hb

/-- Lines of tags in order have their names in order. -/
theorem nameField_le {path path' line line' : CStr} (h : TagLine path line)
    (h' : TagLine path' line') (hle : line ≤ line') : nameField line ≤ nameField line' := by
  obtain ⟨⟨rest, hline⟩, habove⟩ := h.nameField_eq
  obtain ⟨⟨rest', hline'⟩, -⟩ := h'.nameField_eq
  by_contra hlt
  rw [not_le, CStr.lt_iff_values] at hlt
  apply not_lt.mpr hle
  rw [CStr.lt_iff_values, CStr.values, CStr.values, hline, hline', List.map_append,
    List.map_append, List.map_cons, List.map_cons]
  refine append_cons_lt ?_ hlt
  intro b hb
  obtain ⟨c, hc, rfl⟩ := List.mem_map.mp hb
  exact UInt8.lt_iff_toNat_lt.mp (habove c hc)

/-- **The lines written are ordered by name**, when the batches are the sorted
vectors of workers without adjacent duplicates and hold lines of tags. -/
theorem merge_ordered_by_name {P : Type} {str : P → CStr} (qsort : Qsort P (compareLines str))
    {batches : List (LineVec P)} {heap : List HeapEntry} (hroom : batches.length ≤ heap.length)
    (hbatches : ∀ vec ∈ batches, ∃ vec₀ freed,
      lineVecUniq str (lineVecSort qsort vec₀) = some (vec, freed) ∧
        ∀ p ∈ vec₀.items, ∃ path, TagLine path (str p)) :
    ∃ out, merge str batches heap = some out ∧ ∀ i a b, out[i]? = some a → out[i + 1]? = some b →
      strcmp (nameField (str a)) (nameField (str b)) ≠ .gt := by
  have hsorted : ∀ vec ∈ batches, vec.items.Pairwise fun a b => str a ≤ str b := by
    intro vec hvec
    obtain ⟨vec₀, freed, huniq, -⟩ := hbatches vec hvec
    exact (lineVecUniq_sort qsort huniq).1.imp le_of_lt
  obtain ⟨out, hmerge, horder, hlines⟩ := merge_spec hsorted heap hroom
  have htag : ∀ p ∈ out, ∃ path, TagLine path (str p) := by
    intro p hp
    obtain ⟨vec, hvec, hmem⟩ := mem_allLines.mp (hlines ▸ Multiset.mem_coe.mpr hp)
    obtain ⟨vec₀, freed, huniq, hbuilt⟩ := hbatches vec hvec
    exact hbuilt p ((lineVecUniq_sort qsort huniq).2.1 p hmem)
  refine ⟨out, hmerge, ?_⟩
  intro i a b ha hb
  obtain ⟨hi, rfl⟩ := List.getElem?_eq_some_iff.mp ha
  obtain ⟨hi', rfl⟩ := List.getElem?_eq_some_iff.mp hb
  obtain ⟨path, hpath⟩ := htag _ (List.getElem_mem hi)
  obtain ⟨path', hpath'⟩ := htag _ (List.getElem_mem hi')
  rw [strcmp_ne_gt_iff]
  exact nameField_le hpath hpath'
    (List.pairwise_iff_getElem.mp horder i (i + 1) hi hi' (Nat.lt_succ_self i))

/-- The tag of a variable `x`. -/
def xLine : CStr := CStr.lit "x\ta.c\t/^int x$/;\"\tvariable\n"

/-- The tag of a variable `xy`. -/
def xyLine : CStr := CStr.lit "xy\tb.c\t/^int xy$/;\"\tvariable\n"

theorem tagLine_xLine : TagLine (CStr.lit "a.c") xLine :=
  ⟨Malloc.zeros, Malloc.zeros, _, intX, by decide, intX_ofSource [], by decide +kernel⟩

theorem tagLine_xyLine : TagLine (CStr.lit "b.c") xyLine := by
  refine ⟨Malloc.zeros, Malloc.zeros, ascii "int xy", ⟨ascii "xy", CStr.lit "variable", 4, 6⟩,
    by decide, ⟨[⟨CStr.lit "name", 4, 6⟩, ⟨CStr.lit "kind.variable", 0, 6⟩], ?_, rfl⟩,
    by decide +kernel⟩
  intro cap hcap
  rw [List.mem_pair] at hcap
  rcases hcap with rfl | rfl
  · exact ⟨by decide, by decide, by decide⟩
  · exact ⟨by decide, by decide, by decide⟩

/-- The name that is the beginning of the other comes first, whatever batch it is in. -/
theorem merge_ordered_by_name_two_batches :
    ∃ out, merge id [⟨[xyLine], 128⟩, ⟨[xLine], 128⟩] [⟨0, 0⟩, ⟨0, 0⟩] = some out ∧
      out = [xLine, xyLine] ∧
      nameField xLine = CStr.lit "x" ∧ nameField xyLine = CStr.lit "xy" ∧
      ∀ i a b, out[i]? = some a → out[i + 1]? = some b →
        strcmp (nameField a) (nameField b) ≠ .gt := by
  have hbatches : ∀ vec ∈ [(⟨[xyLine], 128⟩ : LineVec CStr), ⟨[xLine], 128⟩], ∃ vec₀ freed,
      lineVecUniq id (lineVecSort (Qsort.mergeSort id) vec₀) = some (vec, freed) ∧
        ∀ p ∈ vec₀.items, ∃ path, TagLine path (id p) := by
    intro vec hvec
    simp only [List.mem_cons, List.not_mem_nil, or_false] at hvec
    rcases hvec with rfl | rfl
    · refine ⟨⟨[xyLine], 128⟩, [], by decide +kernel, fun p hp => ⟨CStr.lit "b.c", ?_⟩⟩
      obtain rfl : p = xyLine := by simpa using hp
      exact tagLine_xyLine
    · refine ⟨⟨[xLine], 128⟩, [], by decide +kernel, fun p hp => ⟨CStr.lit "a.c", ?_⟩⟩
      obtain rfl : p = xLine := by simpa using hp
      exact tagLine_xLine
  have hroom : [(⟨[xyLine], 128⟩ : LineVec CStr), ⟨[xLine], 128⟩].length
      ≤ [(⟨0, 0⟩ : HeapEntry), ⟨0, 0⟩].length := le_rfl
  obtain ⟨out, hmerge, horder⟩ := merge_ordered_by_name (Qsort.mergeSort id) hroom hbatches
  have hlines : merge id [⟨[xyLine], 128⟩, ⟨[xLine], 128⟩] [⟨0, 0⟩, ⟨0, 0⟩]
      = some [xLine, xyLine] := by decide +kernel
  exact ⟨out, hmerge, Option.some.inj (hmerge.symm.trans hlines), by decide +kernel,
    by decide +kernel, horder⟩

end Tsag
