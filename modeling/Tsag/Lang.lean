import Tsag.Lib.CString
import Mathlib.Data.List.Dedup

/-!
# Extensions and languages

The table at the top of `lang.c` and the two functions that read a file's
language off its path.

## Main definitions

* `extLang` — `EXT_LANG`, extension by extension.
* `findExtension`, `extToLang` — the functions `find_extension` and `ext_to_lang`.
* `langNames` — the languages the table knows, each once.

## Main results

* `extToLang_mem` — an extension's language is one of `langNames`.
* `length_langNames` — there are nine of them.
-/

namespace Tsag

/-- `EXT_LANG`. -/
def extLang : List (CStr × CStr) :=
  [("c", "c"), ("h", "cpp"), ("cpp", "cpp"), ("cc", "cpp"), ("hpp", "cpp"),
   ("cu", "cpp"), ("cuh", "cpp"), ("py", "python"), ("lua", "lua"), ("js", "javascript"),
   ("ts", "typescript"), ("zig", "zig"), ("rs", "rust"), ("go", "go")].map
    fun e => (CStr.lit e.1, CStr.lit e.2)

/-- What `strrchr(b, c) + 1` points at: the bytes after the last `c`, if there is one. -/
def afterLast (c : UInt8) (b : Bytes) : Option Bytes :=
  if c ∈ b then some (b.reverse.takeWhile (· ≠ c)).reverse else none

/-- `find_extension`, on the bytes of a path. -/
def extensionBytes (path : Bytes) : Option Bytes :=
  let base := (afterLast Byte.slash path).getD path
  match afterLast Byte.dot base with
  | none => none
  | some ext =>
      -- `dot == base`: nothing but the extension follows the start of the base name
      if base.length = ext.length + 1 ∨ ext = [] then none else some ext

theorem mem_of_afterLast {c x : UInt8} {b ext : Bytes} (h : afterLast c b = some ext)
    (hx : x ∈ ext) : x ∈ b := by
  unfold afterLast at h
  split at h
  · obtain rfl : _ = ext := by simpa using h
    rw [List.mem_reverse] at hx
    exact List.mem_reverse.mp ((List.takeWhile_prefix _).subset hx)
  · cases h

theorem mem_of_extensionBytes {x : UInt8} {path ext : Bytes}
    (h : extensionBytes path = some ext) (hx : x ∈ ext) : x ∈ path := by
  unfold extensionBytes at h
  cases hbase : afterLast Byte.slash path with
  | none =>
    simp only [hbase, Option.getD_none] at h
    split at h
    · cases h
    · next e he =>
      split at h
      · cases h
      · obtain rfl : e = ext := by simpa using h
        exact mem_of_afterLast he hx
  | some base =>
    simp only [hbase, Option.getD_some] at h
    split at h
    · cases h
    · next e he =>
      split at h
      · cases h
      · obtain rfl : e = ext := by simpa using h
        exact mem_of_afterLast hbase (mem_of_afterLast he hx)

/-- `find_extension`. -/
def findExtension (path : CStr) : Option CStr :=
  match h : extensionBytes path.bytes with
  | none => none
  | some ext => some ⟨ext, fun h0 => path.no_nul (mem_of_extensionBytes h h0)⟩

/-- `ext_to_lang`. -/
def extToLang (ext : CStr) : Option CStr :=
  (extLang.find? fun e => strcmp ext e.1 == .eq).map Prod.snd

example : findExtension (CStr.lit "src/a.b/x.tar.py") = some (CStr.lit "py") := by decide

example : findExtension (CStr.lit "src/.py") = none := by decide

/-- The languages of the table, each once. -/
def langNames : List CStr := (extLang.map Prod.snd).dedup

theorem length_langNames : langNames.length = 9 := by decide

theorem extToLang_mem {ext name : CStr} (h : extToLang ext = some name) : name ∈ langNames := by
  unfold extToLang at h
  obtain ⟨e, he, rfl⟩ := Option.map_eq_some_iff.mp h
  exact List.mem_dedup.mpr (List.mem_map_of_mem (List.mem_of_find?_eq_some he))

end Tsag
