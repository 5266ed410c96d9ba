import Mathlib.Data.List.Basic
import Mathlib.Tactic.Common

/-!
# The table of name ranges

While a file is parsed a table remembers, for the first byte ranges that got a
line, the pattern of the match the line is from and where the line is.

## Main definitions

* `DedupEntry`, `Dedup` — the structs, the array cut to its live prefix.
* `dedupInit`, `dedupClaim`, `dedupTrack` — the functions.

## Main results

* `dedupClaim_cases` — everything `dedup_claim` does.
-/

namespace Tsag

/-- `DEDUP_CAP`. -/
def dedupCap : ℕ := 1024

/-- `DedupEntry`; `stop` is its `end`. -/
structure DedupEntry where
  start : ℕ
  stop : ℕ
  pattern : ℕ
  idx : ℕ
  deriving DecidableEq, Repr

/-- The byte range of an entry. -/
def DedupEntry.range (e : DedupEntry) : ℕ × ℕ := (e.start, e.stop)

/-- `Dedup`: `entries[0 .. count)`. -/
structure Dedup where
  entries : List DedupEntry
  deriving DecidableEq, Repr

/-- `dedup_init`. -/
def dedupInit : Dedup := ⟨[]⟩

/-- The loop of `dedup_claim`, over the entries yet to be looked at: those entries as it
leaves them and the slot, `none` when the match is dropped. -/
def claimFrom (start stop pattern vecLen : ℕ) : List DedupEntry → Option (List DedupEntry × ℕ)
  | [] => some ([], vecLen)
  | e :: rest =>
      if e.start = start ∧ e.stop = stop then
        if pattern ≤ e.pattern then none else some ({ e with pattern } :: rest, e.idx)
      else do
        let (rest, slot) ← claimFrom start stop pattern vecLen rest
        return (e :: rest, slot)

/-- `dedup_claim`: the table it leaves and the slot, `none` when it returns 0. -/
def dedupClaim (d : Dedup) (start stop pattern vecLen : ℕ) : Option (Dedup × ℕ) := do
  let (entries, slot) ← claimFrom start stop pattern vecLen d.entries
  return (⟨entries⟩, slot)

/-- `dedup_track`. -/
def dedupTrack (d : Dedup) (start stop pattern idx : ℕ) : Dedup :=
  if d.entries.length < dedupCap then ⟨d.entries ++ [⟨start, stop, pattern, idx⟩]⟩ else d

theorem claimFrom_cases (start stop pattern vecLen : ℕ) (entries : List DedupEntry) :
    ((∀ e ∈ entries, e.range ≠ (start, stop)) ∧
      claimFrom start stop pattern vecLen entries = some (entries, vecLen)) ∨
    ∃ pre e post, entries = pre ++ e :: post ∧ e.range = (start, stop) ∧
      ((pattern ≤ e.pattern ∧ claimFrom start stop pattern vecLen entries = none) ∨
        (e.pattern < pattern ∧ claimFrom start stop pattern vecLen entries
          = some (pre ++ { e with pattern } :: post, e.idx))) := by
  induction entries with
  | nil => exact Or.inl ⟨by simp, rfl⟩
  | cons e entries ih =>
    rw [claimFrom]
    by_cases he : e.start = start ∧ e.stop = stop
    · refine Or.inr ⟨[], e, entries, rfl, Prod.ext he.1 he.2, ?_⟩
      rw [if_pos he]
      rcases Nat.lt_or_ge e.pattern pattern with hlt | hge
      · exact Or.inr ⟨hlt, if_neg (Nat.not_le.mpr hlt)⟩
      · exact Or.inl ⟨hge, if_pos hge⟩
    · rw [if_neg he]
      have hne : e.range ≠ (start, stop) := fun h => he (Prod.ext_iff.mp h)
      rcases ih with ⟨hnone, hclaim⟩ | ⟨pre, e', post, rfl, hrange, hrest⟩
      · refine Or.inl ⟨?_, by rw [hclaim]; rfl⟩
        intro x hx
        rcases List.mem_cons.mp hx with rfl | hx
        · exact hne
        · exact hnone x hx
      · refine Or.inr ⟨e :: pre, e', post, rfl, hrange, ?_⟩
        rcases hrest with ⟨hle, hclaim⟩ | ⟨hlt, hclaim⟩
        · exact Or.inl ⟨hle, by rw [hclaim]; rfl⟩
        · exact Or.inr ⟨hlt, by rw [hclaim]; rfl⟩

/-- **Everything `dedup_claim` does**: for a range that has no entry it leaves the table
alone; it drops a match that is no better than its entry, and raises the pattern of
the entry for one that is. -/
theorem dedupClaim_cases (d : Dedup) (start stop pattern vecLen : ℕ) :
    ((∀ e ∈ d.entries, e.range ≠ (start, stop)) ∧
      dedupClaim d start stop pattern vecLen = some (d, vecLen)) ∨
    ∃ pre e post, d.entries = pre ++ e :: post ∧ e.range = (start, stop) ∧
      ((pattern ≤ e.pattern ∧ dedupClaim d start stop pattern vecLen = none) ∨
        (e.pattern < pattern ∧ dedupClaim d start stop pattern vecLen
          = some (⟨pre ++ { e with pattern } :: post⟩, e.idx))) := by
  unfold dedupClaim
  rcases claimFrom_cases start stop pattern vecLen d.entries with
    ⟨hnone, hclaim⟩ | ⟨pre, e, post, hentries, hrange, hrest⟩
  · exact Or.inl ⟨hnone, by rw [hclaim]; rfl⟩
  · refine Or.inr ⟨pre, e, post, hentries, hrange, ?_⟩
    rcases hrest with ⟨hle, hclaim⟩ | ⟨hlt, hclaim⟩
    · exact Or.inl ⟨hle, by rw [hclaim]; rfl⟩
    · exact Or.inr ⟨hlt, by rw [hclaim]; rfl⟩

/-- What holds of every entry after one more is tracked. -/
theorem forall_mem_dedupTrack {d : Dedup} {start stop pattern idx : ℕ} {P : DedupEntry → Prop}
    (h : ∀ e ∈ d.entries, P e)
    (hnew : d.entries.length < dedupCap → P ⟨start, stop, pattern, idx⟩) :
    ∀ e ∈ (dedupTrack d start stop pattern idx).entries, P e := by
  unfold dedupTrack
  split
  · next hroom =>
    intro e he
    rcases List.mem_append.mp he with he | he
    · exact h e he
    · rw [List.mem_singleton.mp he]
      exact hnew hroom
  · exact h

/-- The ranges remembered after one more is tracked. -/
theorem dedupTrack_ranges (d : Dedup) (start stop pattern idx : ℕ) :
    (dedupTrack d start stop pattern idx).entries.map DedupEntry.range
      = if d.entries.length < dedupCap
        then d.entries.map DedupEntry.range ++ [(start, stop)]
        else d.entries.map DedupEntry.range := by
  unfold dedupTrack
  split
  · rw [List.map_append]
    rfl
  · rfl

end Tsag
