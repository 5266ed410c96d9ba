import Tsag.MainOwnership
import Tsag.ProgramRuns

/-!
# The memory of the program

`main` acquires what it needs, the threads run, and `main` releases what it has acquired.

## Main definitions

* `Owned.mainFinish` — what `main` does when it has joined the threads.

## Main results

* `program_memory` — no thread faults, and nothing is left.
-/

namespace Tsag

variable {cfg : Config}

/-! ### From the start to the end -/

namespace Owned

/-- `main` from `free(threads)` on. -/
def mainFinish {E : Type} (rc : ℕ) (p : MainPtr) (entries : List (EntryPtr E)) (fclose : Bool) :
    Code ℕ :=
  if rc = 0 then mainEnd p entries fclose else mainAbort p entries

theorem wp_mainFinish {E : Type} (rc : ℕ) (p : MainPtr) (entries : List (EntryPtr E))
    (fclose : Bool) :
    (mainFinish rc p entries fclose).wp (fun code left => left = 0 ∧
      code = if rc = 0 ∧ (p.out = none ∨ fclose) then 0 else 1)
      (p.owned + entriesOwned entries) := by
  unfold mainFinish
  by_cases hrc : rc = 0
  · rw [if_pos hrc]
    simpa [hrc] using wp_mainEnd p entries fclose
  · rw [if_neg hrc]
    simpa [hrc] using wp_mainAbort p entries

end Owned

variable {env : ProgramEnv cfg}

/-- **The memory of the program.**  `main` has started, whatever has failed since: no thread
of any interleaving faults; and once the threads are joined, what `main` does then faults
nowhere and releases all that it has acquired and all that is in the cache.  What is left
is what is left in the queues: nothing, if there has been a merge thread and a worker that
takes paths. -/
theorem program_memory (hcreate : ∀ i, cfg.createFails i = false)
    (hmalloc : ∀ name calls, env.loads name calls → calls.malloc = true)
    {permute : Bool} {args : List CStr} {mainCalls : MainCalls} {p : MainPtr} {blocks : Blocks Res}
    (hdir : parsersDir mainCalls.getenv ≠ none) (honline : mainCalls.online ≤ longMax)
    (hstart : (Owned.mainStart permute args mainCalls).run Blocks.empty = some (.inr p, blocks))
    (hjobs : cfg.jobs = p.jobs) {s : ProgramState env}
    (h : (programLts env blocks).Reachable s) :
    (∀ t, ¬ s.Faults t) ∧ ∀ rc, s.proto.pipeline.main = .freeOut rc →
      ∃ (entries : List (EntryPtr Grammar)) (mail : Multiset (Msg env.toProcessEnv)) (code : ℕ)
        (after : Blocks Res),
        entries.map EntryPtr.entry = s.proto.lang.cache.entries ∧
        mail.map Msg.key = (s.proto.pipeline.queue.items : Multiset ℕ).map .inl
          + (s.proto.pipeline.outQueue.items : Multiset _).map .inr ∧
        (Owned.mainFinish rc p entries mainCalls.fclose).run s.blocks = some (code, after) ∧
        (code = if rc = 0 ∧ (p.out = none ∨ mainCalls.fclose) then 0 else 1) ∧
        after.live = (mail.map Msg.owned).sum ∧
        (rc = 0 → (∃ i, (cfg.startUp i).TakesPaths) → after.live = 0) := by
  obtain ⟨r, b, left, hrun, hwf, hlive, hstarted⟩ :=
    Own.run_of_wp (Owned.wp_mainStart hdir honline) Blocks.wf_empty (add_zero 0).symm
  -- The start has gone well: `main` owns what `p` says, and there is a worker to create.
  obtain ⟨rfl, rfl⟩ := Prod.mk.inj (Option.some.inj (hstart.symm.trans hrun))
  obtain ⟨rfl, -, -, hone, -⟩ := hstarted
  rw [add_zero] at hlive
  have hjobs' : 1 ≤ cfg.jobs := hjobs ▸ hone
  have hsep := program_separated hcreate hjobs' hmalloc hwf h
  refine ⟨hsep.not_faults, ?_⟩
  intro rc hmain
  obtain ⟨hwf', ⟨mail, mail₂, hmail, hfits, hholds⟩, held, hall, hprog⟩ := hsep
  -- The threads have come to rest, and rest owns nothing.
  have hnone : ∑ t, held t = 0 :=
    Finset.sum_eq_zero fun t _ => program_owns_nothing hcreate hjobs' h hmain (hprog t)
  obtain ⟨entries, hentries, howned⟩ := hholds.exists_entries
  rw [hnone, hmail, sum_pair_owned, howned, hlive, zero_add] at hall
  -- What is live belongs to `main`, to the cache or to the mail.
  have hheld : s.blocks.live = p.owned + entriesOwned entries + (mail.map Msg.owned).sum := by
    rw [hall]
    abel
  obtain ⟨code, after, left, hfinish, -, hafter, rfl, hcode⟩ :=
    Own.run_of_wp (Owned.wp_mainFinish rc p entries mainCalls.fclose) hwf' hheld
  rw [zero_add] at hafter
  refine ⟨entries, mail, code, after, hentries, hfits.1, hfinish, hcode, hafter, ?_⟩
  intro hrc htakes
  -- The mail is what is in the two queues, and they are empty.
  have hinv := pipelineInv_reachable hjobs' hcreate (reachable_pipeline h)
  obtain ⟨hqueue, hout⟩ := queues_empty_of_joined hinv (by rw [hmain]; rfl)
    (by rw [hmain, hrc]; rfl) htakes
  have hkeys := hfits.1
  rw [hqueue, hout] at hkeys
  have hempty : mail = 0 := by
    rw [← Multiset.map_eq_zero (f := Msg.key), hkeys]
    rfl
  rw [hafter, hempty]
  rfl

/-! ### A directory with one file -/

/-- Every call of `main` succeeds. -/
def mainSucceeds : MainCalls where
  getenv := fun _ => some (CStr.lit "parsers")
  cache := ⟨true, true, true, true⟩
  online := 4
  fopen := true
  queue := ⟨true, true⟩
  outQueue := ⟨true, true⟩
  threads := true
  fclose := true

/-- `tsag .` returns 0 and leaves nothing. -/
theorem program_memory_oneFile : ∃ (blocks after : Blocks Res) (p : MainPtr)
    (s : ProgramState (anyProgram fun _ => .ok)) (entries : List (EntryPtr Grammar)),
      (programLts _ blocks).Reachable s ∧ (∀ t, ¬ s.Faults t) ∧
      s.proto.pipeline.main = .freeOut 0 ∧
      (Owned.mainFinish 0 p entries true).run s.blocks = some (0, after) ∧ after.live = 0 := by
  have hparse : parseOptions true [CStr.lit "."] = .ok ⟨none, 0, [CStr.lit "."]⟩ := by
    decide +kernel
  have hdir : parsersDir mainSucceeds.getenv ≠ none := Option.some_ne_none _
  have honline : mainSucceeds.online ≤ longMax := by decide
  obtain ⟨p, blocks, hstart, hjobs⟩ : ∃ p blocks,
      (Owned.mainStart true [CStr.lit "."] mainSucceeds).run Blocks.empty
        = some (.inr p, blocks) ∧ 2 = p.jobs := by
    rw [Owned.mainStart, hparse]
    exact ⟨_, _, rfl, rfl⟩
  obtain ⟨_, _, _, hrun, hwf, -⟩ :=
    Own.run_of_wp (Owned.wp_mainStart hdir honline) Blocks.wf_empty (add_zero 0).symm
  obtain ⟨-, rfl⟩ := Prod.mk.inj (Option.some.inj (hstart.symm.trans hrun))
  have htakes : ∃ i, ((Config.ofStartUp [CStr.lit "a.c"] fun _ : Fin 2 => .ok).startUp
      i).TakesPaths := ⟨(0 : Fin 2), trivial⟩
  obtain ⟨s, h, hmain⟩ : ∃ s : ProgramState (anyProgram fun _ => .ok),
      (programLts _ blocks).Reachable s ∧ s.proto.pipeline.main = .freeOut 0 :=
    exists_freeOut (Nat.le_succ 1) (fun _ => rfl) (fun _ _ => id) rfl htakes hwf
  obtain ⟨hsafe, hend⟩ := program_memory (fun _ => rfl) (fun _ _ => id) hdir honline hstart hjobs h
  obtain ⟨entries, mail, code, after, -, -, hfinish, hcode, -, hnone⟩ := hend 0 hmain
  obtain rfl : code = 0 := hcode.trans (if_pos ⟨rfl, Or.inr rfl⟩)
  exact ⟨blocks, after, p, s, entries, h, hsafe, hmain, hfinish, hnone rfl htakes⟩

end Tsag
