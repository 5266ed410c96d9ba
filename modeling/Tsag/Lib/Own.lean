import Mathlib.Algebra.BigOperators.Group.Multiset.Basic
import Mathlib.Algebra.BigOperators.Pi
import Mathlib.Algebra.Order.Group.Multiset
import Mathlib.Data.Fintype.BigOperators
import Mathlib.Logic.Hydra
import Mathlib.Tactic.Abel
import Tsag.Lib.Transition

/-!
# Ownership

Programs that acquire and release blocks: memory, handles, whatever has to be given
back.  A program is the tree of the operations it performs, with a branch for each block
an acquisition may yield.  Releasing or touching a block that is not live is a fault, and
so is releasing a block as one of another kind.

The weakest precondition of a program is a predicate on the blocks it owns.  It says that
no operation faults and what the program owns in the end, so a program that ends with
what it has returned leaks nothing and releases nothing twice.  Threads hand blocks over
in messages; between two steps of the protocol they follow, their operations interleave.

## Main definitions

* `Own K α` — programs; `Own.acquire`, `Own.release`, `Own.touch`.
* `Own.wp` — the weakest precondition.
* `Blocks`, `Own.run` — the live blocks, and a program run on its own.
* `Protocol`, `ownLts` — threads that follow a protocol.

## Main results

* `Own.wp_bind`, `Own.wp_mono`, `Own.wp_frame`, `Own.wp_call`, `Own.wp_foldlM` — the rules.
* `Own.run_of_wp` — a program with its weakest precondition runs to the end.
* `Separated.reachable` — threads that keep to their contracts own disjoint blocks in
  every reachable state, and none of them faults.
* `wellFounded_ownStep` — they stop if their protocol does.
-/

/-- A program, as the tree of its operations. -/
inductive Own (K α : Type) : Type
  /-- Return. -/
  | ret (a : α)
  /-- Abort: an array has been left, or an assertion has failed. -/
  | fail
  /-- Acquire a block and go on with its number. -/
  | acquireThen (k : K) (next : ℕ → Own K α)
  | releaseThen (b : K × ℕ) (next : Own K α)
  /-- Read or write a block. -/
  | touchThen (b : K × ℕ) (next : Own K α)

namespace Own

variable {K α β γ : Type}

/-- One program after the other. -/
def bind : Own K α → (α → Own K β) → Own K β
  | ret a, f => f a
  | fail, _ => fail
  | acquireThen k next, f => acquireThen k fun i => (next i).bind f
  | releaseThen b next, f => releaseThen b (next.bind f)
  | touchThen b next, f => touchThen b (next.bind f)

instance : Monad (Own K) where
  pure := ret
  bind := bind

/-- Acquire a block. -/
def acquire (k : K) : Own K ℕ := acquireThen k ret

/-- Release a block. -/
def release (k : K) (i : ℕ) : Own K Unit := releaseThen (k, i) (ret ())

/-- Read or write a block. -/
def touch (k : K) (i : ℕ) : Own K Unit := touchThen (k, i) (ret ())

/-- A value that has to be there. -/
def ofOption : Option α → Own K α
  | some a => ret a
  | none => fail

/-- Release a block if there is one. -/
def free (k : K) : Option ℕ → Own K Unit
  | some i => release k i
  | none => ret ()

/-- Release blocks one after the other. -/
def releaseAll (k : K) : List ℕ → Own K Unit
  | [] => ret ()
  | i :: l => release k i >>= fun _ => releaseAll k l

/-- Read or write blocks one after the other. -/
def touchAll (k : K) : List ℕ → Own K Unit
  | [] => ret ()
  | i :: l => touch k i >>= fun _ => touchAll k l

/-- The program has returned. -/
def AtRest (x : Own K α) : Prop := ∃ a, x = ret a

/-! ### The weakest precondition -/

/-- `x.wp post held`: with the blocks `held`, the program performs no operation on a block
it does not own, and returns with a result and blocks left as `post` says. -/
def wp : Own K α → (α → Multiset (K × ℕ) → Prop) → Multiset (K × ℕ) → Prop
  | ret a, post, held => post a held
  | fail, _, _ => False
  | acquireThen k next, post, held => ∀ i, (next i).wp post ({(k, i)} + held)
  | releaseThen b next, post, held => ∃ rest, held = {b} + rest ∧ next.wp post rest
  | touchThen b next, post, held => b ∈ held ∧ next.wp post held

variable {post post' : α → Multiset (K × ℕ) → Prop} {held : Multiset (K × ℕ)}

@[simp] theorem wp_pure (a : α) : (pure a : Own K α).wp post held ↔ post a held := Iff.rfl

@[simp] theorem wp_acquire {post : ℕ → Multiset (K × ℕ) → Prop} (k : K) :
    (acquire k : Own K ℕ).wp post held ↔ ∀ i, post i ({(k, i)} + held) := Iff.rfl

/-- What is left when a block has been released does not depend on how it is named. -/
theorem wp_release {post : Unit → Multiset (K × ℕ) → Prop} (k : K) (i : ℕ) :
    (release k i : Own K Unit).wp post ({(k, i)} + held) ↔ post () held := by
  refine ⟨?_, fun h => ⟨held, rfl, h⟩⟩
  rintro ⟨rest, heq, h⟩
  rwa [add_left_cancel heq]

@[simp] theorem wp_touch {post : Unit → Multiset (K × ℕ) → Prop} (k : K) (i : ℕ) :
    (touch k i : Own K Unit).wp post held ↔ (k, i) ∈ held ∧ post () held := Iff.rfl

@[simp] theorem wp_ofOption (o : Option α) :
    (ofOption o : Own K α).wp post held ↔ ∃ a, o = some a ∧ post a held := by
  cases o with
  | none => simp [ofOption, wp]
  | some a => simp [ofOption, wp]

/-- **The rule of consequence.** -/
theorem wp_mono {x : Own K α} (h : x.wp post held)
    (himp : ∀ a left, post a left → post' a left) : x.wp post' held := by
  induction x generalizing held with
  | ret a => exact himp a held h
  | fail => exact h
  | acquireThen k next ih => exact fun i => ih i (h i)
  | releaseThen b next ih =>
    obtain ⟨rest, heq, h⟩ := h
    exact ⟨rest, heq, ih h⟩
  | touchThen b next ih => exact ⟨h.1, ih h.2⟩

/-- **The rule of sequencing.** -/
theorem wp_bind {post : β → Multiset (K × ℕ) → Prop} (x : Own K α) (f : α → Own K β) :
    (x >>= f).wp post held ↔ x.wp (fun a left => (f a).wp post left) held := by
  show (x.bind f).wp post held ↔ _
  induction x generalizing held with
  | ret a => exact Iff.rfl
  | fail => exact Iff.rfl
  | acquireThen k next ih => exact forall_congr' fun i => ih i
  | releaseThen b next ih => exact exists_congr fun rest => and_congr_right fun _ => ih
  | touchThen b next ih => exact and_congr_right fun _ => ih

/-- **The frame rule**: blocks that a program does not know of stay as they are. -/
theorem wp_frame {x : Own K α} (h : x.wp post held) (frame : Multiset (K × ℕ)) :
    x.wp (fun a left => ∃ own, left = own + frame ∧ post a own) (held + frame) := by
  induction x generalizing held with
  | ret a => exact ⟨held, rfl, h⟩
  | fail => exact h
  | acquireThen k next ih =>
    intro i
    rw [← add_assoc]
    exact ih i (h i)
  | releaseThen b next ih =>
    obtain ⟨rest, rfl, h⟩ := h
    exact ⟨rest + frame, add_assoc _ _ _, ih h⟩
  | touchThen b next ih => exact ⟨Multiset.mem_add.mpr (Or.inl h.1), ih h.2⟩

/-- **The rule of calls**: a program that needs some of the blocks leaves the others. -/
theorem wp_call {x : Own K α} {need : Multiset (K × ℕ)} (h : x.wp post need)
    (frame : Multiset (K × ℕ)) (hheld : held = need + frame)
    (himp : ∀ a own, post a own → post' a (own + frame)) : x.wp post' held := by
  rw [hheld]
  apply wp_mono (wp_frame h frame)
  rintro a _ ⟨own, rfl, hpost⟩
  exact himp a own hpost

/-- A program that releases all it needs, before another. -/
theorem wp_seq {x : Own K β} {y : Own K α} {need : Multiset (K × ℕ)}
    (hx : x.wp (fun _ left => left = 0) need) (hy : y.wp post held) :
    (x >>= fun _ => y).wp post (need + held) := by
  rw [wp_bind]
  apply wp_call hx held rfl
  rintro _ _ rfl
  rwa [zero_add]

/-- **The rule of loops**: what each turn keeps, the loop keeps. -/
theorem wp_foldlM {f : β → γ → Own K β} (I : List γ → β → Multiset (K × ℕ) → Prop) (l : List γ)
    (step : ∀ done c rest b held, l = done ++ c :: rest → I done b held →
      (f b c).wp (I (done ++ [c])) held)
    {b : β} (h : I [] b held) : (l.foldlM f b).wp (I l) held := by
  have hloop : ∀ (rest done : List γ) (b : β) (held : Multiset (K × ℕ)), l = done ++ rest →
      I done b held → (rest.foldlM f b).wp (I l) held := by
    intro rest
    induction rest with
    | nil =>
      rintro done b held hl h
      rw [hl, List.append_nil]
      exact h
    | cons c rest ih =>
      intro done b held hl h
      rw [List.foldlM_cons, wp_bind]
      apply wp_mono (step done c rest b held hl h)
      intro b' left h'
      exact ih (done ++ [c]) b' left (by rw [hl, List.append_assoc, List.singleton_append]) h'
  exact hloop l [] b held rfl h

/-- The same, for a loop that counts. -/
theorem wp_foldlM_range {f : β → ℕ → Own K β} (I : ℕ → β → Multiset (K × ℕ) → Prop) (n : ℕ)
    (step : ∀ i b held, i < n → I i b held → (f b i).wp (I (i + 1)) held)
    {b : β} (h : I 0 b held) : ((List.range n).foldlM f b).wp (I n) held := by
  have hloop := wp_foldlM (f := f) (fun done => I done.length) (List.range n)
    (fun done i rest b held hl hI => by
      have hi : (List.range n)[done.length]? = some i := by rw [hl]; simp
      obtain ⟨hlt, rfl⟩ := List.getElem?_eq_some_iff.mp hi
      rw [List.length_range] at hlt
      rw [List.getElem_range, List.length_append, List.length_singleton]
      exact step _ b held hlt hI) h
  rwa [List.length_range] at hloop

/-- The blocks of one kind with these numbers. -/
def blocksOf (k : K) (l : List ℕ) : Multiset (K × ℕ) := (l : Multiset ℕ).map fun i => (k, i)

@[simp] theorem blocksOf_nil (k : K) : blocksOf k [] = 0 := rfl

@[simp] theorem blocksOf_cons (k : K) (i : ℕ) (l : List ℕ) :
    blocksOf k (i :: l) = {(k, i)} + blocksOf k l := by
  rw [blocksOf, ← Multiset.cons_coe, Multiset.map_cons, Multiset.singleton_add]
  rfl

@[simp] theorem blocksOf_append (k : K) (l l' : List ℕ) :
    blocksOf k (l ++ l') = blocksOf k l + blocksOf k l' := by
  rw [blocksOf, ← Multiset.coe_add, Multiset.map_add]
  rfl

theorem blocksOf_perm (k : K) {l l' : List ℕ} (h : l.Perm l') : blocksOf k l = blocksOf k l' := by
  rw [blocksOf, Multiset.coe_eq_coe.mpr h]
  rfl

theorem mem_blocksOf {k : K} {i : ℕ} {l : List ℕ} (h : i ∈ l) : (k, i) ∈ blocksOf k l :=
  Multiset.mem_map.mpr ⟨i, h, rfl⟩

/-- The block there may be. -/
def blockOf (k : K) (o : Option ℕ) : Multiset (K × ℕ) := o.elim 0 fun i => {(k, i)}

theorem wp_free {post : Unit → Multiset (K × ℕ) → Prop} (k : K) (o : Option ℕ) :
    (free k o : Own K Unit).wp post (blockOf k o + held) ↔ post () held := by
  cases o with
  | none => rw [blockOf, Option.elim_none, zero_add]; exact Iff.rfl
  | some i => exact wp_release k i

theorem wp_releaseAll {post : Unit → Multiset (K × ℕ) → Prop} (k : K) (l : List ℕ) :
    (releaseAll k l : Own K Unit).wp post (blocksOf k l + held) ↔ post () held := by
  induction l with
  | nil => rw [blocksOf_nil, zero_add]; exact Iff.rfl
  | cons i l ih => rw [releaseAll, wp_bind, blocksOf_cons, add_assoc, wp_release, ih]

theorem wp_touchAll {post : Unit → Multiset (K × ℕ) → Prop} {k : K} {l : List ℕ}
    (hl : ∀ i ∈ l, (k, i) ∈ held) (h : post () held) :
    (touchAll k l : Own K Unit).wp post held := by
  induction l with
  | nil => exact h
  | cons i l ih =>
    obtain ⟨hi, hl⟩ := List.forall_mem_cons.mp hl
    rw [touchAll, wp_bind, wp_touch]
    exact ⟨hi, ih hl⟩

end Own

/-! ### Programs that run on their own -/

/-- The blocks that are live; a block has the number of the acquisition it comes from. -/
structure Blocks (K : Type) where
  /-- How many blocks have been acquired. -/
  calls : ℕ
  live : Multiset (K × ℕ)

/-- No block is live twice, and none before it has been acquired. -/
structure Blocks.Wf {K : Type} (b : Blocks K) : Prop where
  nodup : b.live.Nodup
  lt : ∀ x ∈ b.live, x.2 < b.calls

namespace Blocks

variable {K : Type}

/-- Nothing is live. -/
def empty : Blocks K := ⟨0, 0⟩

/-- One more block. -/
def grow (b : Blocks K) (k : K) : Blocks K := ⟨b.calls + 1, {(k, b.calls)} + b.live⟩

theorem wf_empty : (empty : Blocks K).Wf := ⟨Multiset.nodup_zero, by simp [empty]⟩

theorem Wf.grow {b : Blocks K} (h : b.Wf) (k : K) : (b.grow k).Wf := by
  rw [Blocks.grow, Multiset.singleton_add]
  refine ⟨Multiset.nodup_cons.mpr ⟨fun hmem => (h.lt _ hmem).false, h.nodup⟩, ?_⟩
  intro x hx
  rcases Multiset.mem_cons.mp hx with rfl | hx
  · exact Nat.lt_succ_self _
  · exact Nat.lt_succ_of_lt (h.lt x hx)

theorem Wf.drop {b : Blocks K} (h : b.Wf) {rest : Multiset (K × ℕ)} (hle : rest ≤ b.live) :
    ({ b with live := rest } : Blocks K).Wf :=
  ⟨Multiset.nodup_of_le hle h.nodup, fun _ hx => h.lt _ (Multiset.mem_of_le hle hx)⟩

end Blocks

/-- A program run on its own: its result and the blocks it leaves; `none` where it
faults. -/
def Own.run {K α : Type} [DecidableEq K] : Own K α → Blocks K → Option (α × Blocks K)
  | .ret a, b => some (a, b)
  | .fail, _ => none
  | .acquireThen k next, b => (next b.calls).run (b.grow k)
  | .releaseThen x next, b =>
      if x ∈ b.live then next.run { b with live := b.live.erase x } else none
  | .touchThen x next, b => if x ∈ b.live then next.run b else none

/-- **A program with its weakest precondition runs to the end**, and leaves the blocks it
does not own alone. -/
theorem Own.run_of_wp {K α : Type} [DecidableEq K] {x : Own K α}
    {post : α → Multiset (K × ℕ) → Prop} {held frame : Multiset (K × ℕ)} (h : x.wp post held)
    {b : Blocks K} (hb : b.Wf) (hlive : b.live = held + frame) :
    ∃ a b' left, x.run b = some (a, b') ∧ b'.Wf ∧ b'.live = left + frame ∧ post a left := by
  induction x generalizing held b with
  | ret a => exact ⟨a, b, held, rfl, hb, hlive, h⟩
  | fail => exact h.elim
  | acquireThen k next ih =>
    exact ih b.calls (h b.calls) (hb.grow k) (by rw [Blocks.grow, hlive, add_assoc])
  | releaseThen x next ih =>
    obtain ⟨rest, rfl, h⟩ := h
    have hx : x ∈ b.live := by simp [hlive]
    rw [run, if_pos hx]
    apply ih h (hb.drop (Multiset.erase_le _ _))
    rw [hlive, add_assoc, Multiset.singleton_add, Multiset.erase_cons_head]
  | touchThen x next ih =>
    have hx : x ∈ b.live := hlive ▸ Multiset.mem_add.mpr (Or.inl h.1)
    rw [run, if_pos hx]
    exact ih h.2 hb hlive

/-! ### Threads that follow a protocol -/

/-- What a thread at rest does at a step of the protocol: it goes on, sends a message and
goes on, or receives one and goes on. -/
inductive Act (K M α : Type)
  | resume (a : α) (code : Own K α)
  | send (a : α) (m : M) (code : Own K α)
  | receive (a : α) (m : M) (code : Own K α)

/-- What the thread goes on with. -/
def Act.code {K M α : Type} : Act K M α → Own K α
  | resume _ code | send _ _ code | receive _ _ code => code

/-- A protocol: what threads may do next.  It sees where the other threads are. -/
structure Protocol (σ T K M α : Type) where
  Init : σ → Prop
  Step : σ → (T → Own K α) → T → Act K M α → σ → Prop

/-- The state of the protocol, what every thread has still to do before its next step of
the protocol, the messages under way and the live blocks. -/
structure OwnState (σ T K M α : Type) where
  proto : σ
  prog : T → Own K α
  mail : Multiset M
  blocks : Blocks K

section Threads

variable {σ T K M α : Type} [DecidableEq T]

/-- One operation of one thread, or a step of the protocol. -/
inductive OwnStep (P : Protocol σ T K M α) :
    OwnState σ T K M α → T → OwnState σ T K M α → Prop
  | acquire {s : OwnState σ T K M α} {t : T} {k : K} {next : ℕ → Own K α}
      (hop : s.prog t = .acquireThen k next) :
      OwnStep P s t { s with
        prog := Function.update s.prog t (next s.blocks.calls)
        blocks := s.blocks.grow k }
  | release {s : OwnState σ T K M α} {t : T} {x : K × ℕ} {next : Own K α}
      {rest : Multiset (K × ℕ)} (hop : s.prog t = .releaseThen x next)
      (hlive : s.blocks.live = {x} + rest) :
      OwnStep P s t { s with
        prog := Function.update s.prog t next
        blocks := { s.blocks with live := rest } }
  | touch {s : OwnState σ T K M α} {t : T} {x : K × ℕ} {next : Own K α}
      (hop : s.prog t = .touchThen x next) (hlive : x ∈ s.blocks.live) :
      OwnStep P s t { s with prog := Function.update s.prog t next }
  | resume {s : OwnState σ T K M α} {t : T} {a : α} {code : Own K α} {q : σ}
      (hop : s.prog t = .ret a) (hproto : P.Step s.proto s.prog t (.resume a code) q) :
      OwnStep P s t { s with proto := q, prog := Function.update s.prog t code }
  | send {s : OwnState σ T K M α} {t : T} {a : α} {m : M} {code : Own K α} {q : σ}
      (hop : s.prog t = .ret a) (hproto : P.Step s.proto s.prog t (.send a m code) q) :
      OwnStep P s t { s with
        proto := q
        prog := Function.update s.prog t code
        mail := {m} + s.mail }
  | receive {s : OwnState σ T K M α} {t : T} {a : α} {m : M} {code : Own K α} {q : σ}
      {rest : Multiset M} (hop : s.prog t = .ret a) (hmail : s.mail = {m} + rest)
      (hproto : P.Step s.proto s.prog t (.receive a m code) q) :
      OwnStep P s t { s with
        proto := q
        prog := Function.update s.prog t code
        mail := rest }

/-- A step is an operation of a thread that does not rest, or one of the protocol. -/
theorem OwnStep.op_or_proto {P : Protocol σ T K M α} {s s' : OwnState σ T K M α} {t : T}
    (hs : OwnStep P s t s') :
    (s'.proto = s.proto ∧ (∀ a, s.prog t ≠ .ret a) ∧ ∀ u, u ≠ t → s'.prog u = s.prog u) ∨
      ∃ act, P.Step s.proto s.prog t act s'.proto ∧
        s'.prog = Function.update s.prog t act.code := by
  cases hs with
  | acquire hop | release hop _ | touch hop _ =>
    exact Or.inl ⟨rfl, by simp [hop], fun u hu => Function.update_of_ne hu ..⟩
  | resume _ hproto | send _ hproto | receive _ _ hproto => exact Or.inr ⟨_, hproto, rfl⟩

/-- An operation of a thread is one under any protocol. -/
theorem OwnStep.of_proto {P P' : Protocol σ T K M α} {s s' : OwnState σ T K M α} {t : T}
    (hs : OwnStep P s t s')
    (h : ∀ act, P.Step s.proto s.prog t act s'.proto → P'.Step s.proto s.prog t act s'.proto) :
    OwnStep P' s t s' := by
  cases hs with
  | acquire hop => exact .acquire hop
  | release hop hlive => exact .release hop hlive
  | touch hop hlive => exact .touch hop hlive
  | resume hop hproto => exact .resume hop (h _ hproto)
  | send hop hproto => exact .send hop (h _ hproto)
  | receive hop hmail hproto => exact .receive hop hmail (h _ hproto)

/-- The thread rests with what the step of the protocol takes, and the message it receives is
under way. -/
def Act.Ready (a : α) (mail : Multiset M) : Act K M α → Prop
  | resume b _ | send b _ _ => b = a
  | receive b m _ => b = a ∧ ∃ rest, mail = {m} + rest

/-- A thread at rest that is ready for a step of the protocol takes it. -/
theorem exists_ownStep_of_ready {P : Protocol σ T K M α} {s : OwnState σ T K M α} {t : T} {a : α}
    {act : Act K M α} {q : σ} (hop : s.prog t = .ret a) (hready : act.Ready a s.mail)
    (hproto : P.Step s.proto s.prog t act q) :
    ∃ s', OwnStep P s t s' ∧ s'.proto = q ∧ ∀ u, u ≠ t → s'.prog u = s.prog u := by
  have hothers : ∀ u, u ≠ t → Function.update s.prog t act.code u = s.prog u :=
    fun u hu => Function.update_of_ne hu ..
  cases act with
  | resume b code =>
    obtain rfl : b = a := hready
    exact ⟨_, .resume hop hproto, rfl, hothers⟩
  | send b m code =>
    obtain rfl : b = a := hready
    exact ⟨_, .send hop hproto, rfl, hothers⟩
  | receive b m code =>
    obtain ⟨rfl, rest, hmail⟩ : b = a ∧ ∃ rest, s.mail = {m} + rest := hready
    exact ⟨_, .receive hop hmail hproto, rfl, hothers⟩

/-- The threads that start with these programs and these blocks. -/
def ownLts (P : Protocol σ T K M α) (prog : T → Own K α) (blocks : Blocks K) :
    Lts (OwnState σ T K M α) T where
  Init s := P.Init s.proto ∧ s.prog = prog ∧ s.mail = 0 ∧ s.blocks = blocks
  Step := OwnStep P

/-- The next operation of the thread is a fault. -/
def OwnState.Faults (s : OwnState σ T K M α) (t : T) : Prop :=
  match s.prog t with
  | .ret _ | .acquireThen _ _ => False
  | .fail => True
  | .releaseThen x _ | .touchThen x _ => x ∉ s.blocks.live

/-- Threads keep to contracts, which say what blocks a thread rests with: whatever step of
the protocol a thread takes, it comes to rest with such blocks again, and the contracts of
the other threads are what they were.  `owned` are the blocks that go with a message, and
`Mail` is what holds of the messages under way. -/
structure Protocol.Keeps (P : Protocol σ T K M α) (owned : M → Multiset (K × ℕ))
    (Mail : σ → Multiset M → Prop) (I : σ → T → α → Multiset (K × ℕ) → Prop) : Prop where
  resume : ∀ {q q' : σ} {prog : T → Own K α} {t : T} {a : α} {code : Own K α}
    {mail : Multiset M} {held : Multiset (K × ℕ)}, P.Step q prog t (.resume a code) q' →
      Mail q mail → I q t a held → Mail q' mail ∧ code.wp (I q' t) held
  send : ∀ {q q' : σ} {prog : T → Own K α} {t : T} {a : α} {m : M} {code : Own K α}
    {mail : Multiset M} {held : Multiset (K × ℕ)}, P.Step q prog t (.send a m code) q' →
      Mail q mail → I q t a held → Mail q' ({m} + mail) ∧
        ∃ rest, held = owned m + rest ∧ code.wp (I q' t) rest
  receive : ∀ {q q' : σ} {prog : T → Own K α} {t : T} {a : α} {m : M} {code : Own K α}
    {mail : Multiset M} {held : Multiset (K × ℕ)}, P.Step q prog t (.receive a m code) q' →
      Mail q ({m} + mail) → I q t a held → Mail q' mail ∧ code.wp (I q' t) (owned m + held)
  others : ∀ {q q' : σ} {prog : T → Own K α} {t u : T} {act : Act K M α} {a : α}
    {held : Multiset (K × ℕ)}, P.Step q prog t act q' → u ≠ t → I q u a held → I q' u a held

variable [Fintype T]

/-- The threads own disjoint blocks that suffice for what they have still to do, the
messages under way their own, and the blocks of the frame belong to no one. -/
def Separated (owned : M → Multiset (K × ℕ)) (Mail : σ → Multiset M → Prop)
    (I : σ → T → α → Multiset (K × ℕ) → Prop) (frame : Multiset (K × ℕ))
    (s : OwnState σ T K M α) : Prop :=
  s.blocks.Wf ∧ Mail s.proto s.mail ∧ ∃ held : T → Multiset (K × ℕ),
    s.blocks.live = ∑ t, held t + (s.mail.map owned).sum + frame ∧
      ∀ t, (s.prog t).wp (I s.proto t) (held t)

variable {owned : M → Multiset (K × ℕ)} {Mail : σ → Multiset M → Prop}
  {I : σ → T → α → Multiset (K × ℕ) → Prop} {frame : Multiset (K × ℕ)}

/-- What all threads have, whatever one of them has. -/
theorem sum_update {N : Type} [AddCommMonoid N] (held : T → N) (t : T) :
    ∃ others, ∀ own, ∑ u, Function.update held t own u = own + others := by
  refine ⟨∑ u ∈ Finset.univ.erase t, held u, ?_⟩
  intro own
  rw [← Finset.add_sum_erase _ _ (Finset.mem_univ t), Function.update_self]
  congr 1
  apply Finset.sum_congr rfl
  intro u hu
  rw [Function.update_of_ne (Finset.ne_of_mem_erase hu)]

omit [Fintype T] in
/-- The programs of all threads suffice, after one of them has gone on. -/
theorem forall_wp_update {q q' : σ} {prog : T → Own K α} {held : T → Multiset (K × ℕ)}
    (h : ∀ t, (prog t).wp (I q t) (held t)) {t : T} {x : Own K α} {own : Multiset (K × ℕ)}
    (hx : x.wp (I q' t) own) (hothers : ∀ u, u ≠ t → ∀ a held, I q u a held → I q' u a held)
    (u : T) : (Function.update prog t x u).wp (I q' u) (Function.update held t own u) := by
  by_cases hu : u = t
  · subst hu
    rwa [Function.update_self, Function.update_self]
  · rw [Function.update_of_ne hu, Function.update_of_ne hu]
    exact Own.wp_mono (h u) (hothers u hu)

/-- No thread of separated threads faults. -/
theorem Separated.not_faults {s : OwnState σ T K M α} (h : Separated owned Mail I frame s) (t : T) :
    ¬ s.Faults t := by
  obtain ⟨-, -, held, hlive, hprog⟩ := h
  have ht := hprog t
  -- what a thread owns is live
  have hmem : ∀ x ∈ held t, x ∈ s.blocks.live := by
    intro x hx
    obtain ⟨others, hsum⟩ := sum_update held t
    have hall := hsum (held t)
    rw [Function.update_eq_self] at hall
    rw [hlive, hall]
    simp [hx]
  unfold OwnState.Faults
  cases hop : s.prog t with
  | ret a => exact not_false
  | fail => exact fun _ => by rwa [hop] at ht
  | acquireThen k next => exact not_false
  | releaseThen x next =>
    rw [hop] at ht
    obtain ⟨rest, heq, -⟩ := ht
    exact not_not.mpr (hmem x (by simp [heq]))
  | touchThen x next =>
    rw [hop] at ht
    exact not_not.mpr (hmem x ht.1)

/-- **A step keeps the threads separated.** -/
theorem Separated.step {P : Protocol σ T K M α} (hP : P.Keeps owned Mail I)
    {s s' : OwnState σ T K M α} {t : T} (h : Separated owned Mail I frame s)
    (hs : OwnStep P s t s') : Separated owned Mail I frame s' := by
  obtain ⟨hwf, hmail, held, hlive, hprog⟩ := h
  have ht := hprog t
  obtain ⟨others, hsum⟩ := sum_update held t
  have hall := hsum (held t)
  rw [Function.update_eq_self] at hall
  rw [hall] at hlive
  -- an operation leaves the contracts of the others as they are
  have hsame : ∀ u, u ≠ t → ∀ a held, I s.proto u a held → I s.proto u a held :=
    fun _ _ _ _ h => h
  cases hs with
  | @acquire k next hop =>
    -- The block is new, and belongs to the thread from now on.
    rw [hop] at ht
    refine ⟨hwf.grow k, hmail, Function.update held t ({(k, s.blocks.calls)} + held t), ?_,
      forall_wp_update hprog (ht _) hsame⟩
    show {(k, s.blocks.calls)} + s.blocks.live = _
    rw [hsum, hlive]
    abel
  | @release x next rest hop hrest =>
    -- The block was the thread's own, so no one else counts on it.
    rw [hop] at ht
    obtain ⟨own, heq, hnext⟩ := ht
    refine ⟨hwf.drop (by rw [hrest]; exact Multiset.le_add_left _ _), hmail,
      Function.update held t own, ?_, forall_wp_update hprog hnext hsame⟩
    rw [hrest, heq] at hlive
    apply add_left_cancel (a := {x})
    rw [hlive, hsum]
    abel
  | @touch x next hop _ =>
    -- The blocks stay where they are.
    rw [hop] at ht
    refine ⟨hwf, hmail, held, by rw [hlive, hall], ?_⟩
    intro u
    have hu := forall_wp_update hprog ht.2 hsame u
    rwa [Function.update_eq_self] at hu
  | @resume a code q hop hproto =>
    -- The protocol steps, and no block changes hands.
    rw [hop] at ht
    obtain ⟨hmail', hcode⟩ := hP.resume hproto hmail ht
    refine ⟨hwf, hmail', held, by rw [hlive, hall], ?_⟩
    intro u
    have hu := forall_wp_update hprog hcode
      (fun _ hu _ _ => hP.others hproto hu) u
    rwa [Function.update_eq_self] at hu
  | @send a m code q hop hproto =>
    -- The blocks of the message go from the thread to the mail,
    rw [hop] at ht
    obtain ⟨hmail', own, heq, hcode⟩ := hP.send hproto hmail ht
    refine ⟨hwf, hmail', Function.update held t own, ?_,
      forall_wp_update hprog hcode fun _ hu _ _ => hP.others hproto hu⟩
    rw [hsum, hlive, heq, Multiset.map_add, Multiset.sum_add, Multiset.map_singleton,
      Multiset.sum_singleton]
    abel
  | @receive a m code q rest hop hrest hproto =>
    -- and from the mail to the thread.
    rw [hop] at ht
    rw [hrest] at hmail
    obtain ⟨hmail', hcode⟩ := hP.receive hproto hmail ht
    refine ⟨hwf, hmail', Function.update held t (owned m + held t), ?_,
      forall_wp_update hprog hcode fun _ hu _ _ => hP.others hproto hu⟩
    rw [hsum, hlive, hrest, Multiset.map_add, Multiset.sum_add, Multiset.map_singleton,
      Multiset.sum_singleton]
    abel

/-- **Threads that keep to their contracts stay separated**, however they interleave. -/
theorem Separated.reachable {P : Protocol σ T K M α} (hP : P.Keeps owned Mail I)
    {prog : T → Own K α} (held : T → Multiset (K × ℕ)) (hmail : ∀ q, P.Init q → Mail q 0)
    (hprog : ∀ q t, P.Init q → (prog t).wp (I q t) (held t)) {blocks : Blocks K} (hwf : blocks.Wf)
    (hlive : blocks.live = ∑ t, held t + frame)
    {s : OwnState σ T K M α} (h : (ownLts P prog blocks).Reachable s) :
    Separated owned Mail I frame s := by
  refine h.invariant ?_ fun s t s' hI hs => hI.step hP hs
  rintro ⟨proto, _, _, _⟩ ⟨hinit, rfl, rfl, rfl⟩
  exact ⟨hwf, hmail proto hinit, held, by simpa using hlive, fun t => hprog proto t hinit⟩

/-- A thread that does not rest can step. -/
theorem Separated.canStep_of_busy (P : Protocol σ T K M α) {s : OwnState σ T K M α}
    (h : Separated owned Mail I frame s) {t : T} (hbusy : ∀ a, s.prog t ≠ .ret a) :
    ∃ s', OwnStep P s t s' := by
  have hok := h.not_faults t
  unfold OwnState.Faults at hok
  cases hop : s.prog t with
  | ret a => exact absurd hop (hbusy a)
  | fail => exact absurd trivial (by rwa [hop] at hok)
  | acquireThen k next => exact ⟨_, .acquire hop⟩
  | releaseThen x next =>
    -- a thread that does not fault finds its block
    rw [hop, not_not] at hok
    obtain ⟨rest, hrest⟩ := Multiset.exists_cons_of_mem hok
    exact ⟨_, .release hop (hrest.trans (Multiset.singleton_add x rest).symm)⟩
  | touchThen x next =>
    rw [hop, not_not] at hok
    exact ⟨_, .touch hop hok⟩

/-- **A thread comes to rest** without a step of the protocol, and the others stay where
they are. -/
theorem Separated.exists_run_to_rest {P : Protocol σ T K M α} (hP : P.Keeps owned Mail I)
    {prog : T → Own K α} {blocks : Blocks K} {s : OwnState σ T K M α}
    (h : Separated owned Mail I frame s) (t : T) :
    ∃ tr s' a, (ownLts P prog blocks).Run s tr s' ∧ s'.proto = s.proto ∧ s'.prog t = .ret a ∧
      ∀ u, u ≠ t → s'.prog u = s.prog u := by
  -- The induction is on what the thread has still to do; no operation of it is blocked.
  induction hx : s.prog t generalizing s with
  | ret a => exact ⟨[], s, a, .nil, rfl, hx, fun _ _ => rfl⟩
  | fail => exact absurd (by unfold OwnState.Faults; rw [hx]; trivial) (h.not_faults t)
  | acquireThen k next ih =>
    have hs := OwnStep.acquire (P := P) hx
    obtain ⟨tr, s', a, hr, hproto, hrest, hothers⟩ :=
      ih s.blocks.calls (h.step hP hs) (Function.update_self ..)
    exact ⟨_, s', a, (Lts.Run.single hs).append hr, hproto, hrest, fun u hu =>
      (hothers u hu).trans (Function.update_of_ne hu ..)⟩
  | releaseThen x next ih =>
    have hok := h.not_faults t
    unfold OwnState.Faults at hok
    rw [hx, not_not] at hok
    obtain ⟨rest, hlive⟩ := Multiset.exists_cons_of_mem hok
    rw [← Multiset.singleton_add] at hlive
    have hs := OwnStep.release (P := P) hx hlive
    obtain ⟨tr, s', a, hr, hproto, hrest, hothers⟩ := ih (h.step hP hs) (Function.update_self ..)
    exact ⟨_, s', a, (Lts.Run.single hs).append hr, hproto, hrest, fun u hu =>
      (hothers u hu).trans (Function.update_of_ne hu ..)⟩
  | touchThen x next ih =>
    have hok := h.not_faults t
    unfold OwnState.Faults at hok
    rw [hx, not_not] at hok
    have hs := OwnStep.touch (P := P) hx hok
    obtain ⟨tr, s', a, hr, hproto, hrest, hothers⟩ := ih (h.step hP hs) (Function.update_self ..)
    exact ⟨_, s', a, (Lts.Run.single hs).append hr, hproto, hrest, fun u hu =>
      (hothers u hu).trans (Function.update_of_ne hu ..)⟩

/-! ### Threads stop -/

/-- What a program has still to do after its next operation. -/
inductive Own.Next : Own K α → Own K α → Prop
  | acquire (k : K) (next : ℕ → Own K α) (i : ℕ) : Next (next i) (.acquireThen k next)
  | release (x : K × ℕ) (next : Own K α) : Next next (.releaseThen x next)
  | touch (x : K × ℕ) (next : Own K α) : Next next (.touchThen x next)

omit [DecidableEq T] [Fintype T] in
theorem Own.wellFounded_next : WellFounded (Own.Next (K := K) (α := α)) := by
  constructor
  intro x
  induction x with
  | ret a => exact ⟨_, nofun⟩
  | fail => exact ⟨_, nofun⟩
  | acquireThen k next ih =>
    refine ⟨_, ?_⟩
    intro y hy
    cases hy with
    | acquire => exact ih _
  | releaseThen b next ih =>
    refine ⟨_, ?_⟩
    intro y hy
    cases hy with
    | release => exact ih
  | touchThen b next ih =>
    refine ⟨_, ?_⟩
    intro y hy
    cases hy with
    | touch => exact ih

/-- The programs of all threads. -/
def OwnState.progs (s : OwnState σ T K M α) : Multiset (Own K α) := ∑ t, {s.prog t}

/-- One of the programs goes on. -/
theorem cutExpand_progs {s s' : OwnState σ T K M α} {t : T} {x : Own K α}
    (hnext : x.Next (s.prog t)) (hprog : s'.prog = Function.update s.prog t x) :
    Relation.CutExpand Own.Next s'.progs s.progs := by
  obtain ⟨others, hsum⟩ := sum_update (fun u => ({s.prog u} : Multiset (Own K α))) t
  have hafter : s'.progs = {x} + others := by
    rw [← hsum {x}, OwnState.progs, hprog]
    apply Finset.sum_congr rfl
    intro u _
    by_cases hu : u = t
    · rw [hu, Function.update_self, Function.update_self]
    · rw [Function.update_of_ne hu, Function.update_of_ne hu]
  have hbefore : s.progs = {s.prog t} + others := by
    rw [← hsum {s.prog t}, Function.update_eq_self, OwnState.progs]
  refine ⟨{x}, s.prog t, by simpa using hnext, ?_⟩
  rw [hafter, hbefore]
  abel

/-- **Threads stop if their protocol does**: between two of its steps each of them has
only finitely many operations to perform. -/
theorem wellFounded_ownStep {P : Protocol σ T K M α}
    (hP : WellFounded fun q' q => ∃ prog t act, P.Step q prog t act q') :
    WellFounded fun s' s => ∃ t, OwnStep P s t s' := by
  have hcut : WellFounded (Relation.CutExpand (Own.Next (K := K) (α := α))) :=
    Own.wellFounded_next.cutExpand
  refine Subrelation.wf ?_
    (InvImage.wf (fun s : OwnState σ T K M α => (s.proto, s.progs)) (hP.prod_lex hcut))
  rintro s' s ⟨t, hs⟩
  cases hs with
  | acquire hop => exact .right _ (cutExpand_progs (hop ▸ .acquire _ _ _) rfl)
  | release hop _ => exact .right _ (cutExpand_progs (hop ▸ .release _ _) rfl)
  | touch hop _ => exact .right _ (cutExpand_progs (hop ▸ .touch _ _) rfl)
  | resume _ hproto => exact .left _ _ ⟨_, _, _, hproto⟩
  | send _ hproto => exact .left _ _ ⟨_, _, _, hproto⟩
  | receive _ _ hproto => exact .left _ _ ⟨_, _, _, hproto⟩

end Threads
