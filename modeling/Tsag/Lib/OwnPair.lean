import Tsag.Lib.Own

/-!
# Threads that follow two protocols

Threads may follow two protocols at once, each step of theirs being one of the one or of
the other.  They then own what they own by both, and so do the messages under way.  That
each protocol is kept to on its own is enough, whatever the joint protocol says about the
order of the steps: it may only have fewer of them.

## Main definitions

* `Act.left`, `Act.right` — a step of one of the protocols, by a thread that rests in both.
* `Protocol.Pairs` — the joint protocol takes steps of the two.
* `pairMail`, `pairContract` — what threads and messages own by both.

## Main results

* `Protocol.Pairs.keeps` — threads that keep to both contracts keep to the joint one.
-/

namespace Own

variable {K α β γ : Type}

/-- A program with its result changed. -/
def map (f : α → β) (x : Own K α) : Own K β := x.bind fun a => ret (f a)

theorem wp_map {post : β → Multiset (K × ℕ) → Prop} {held : Multiset (K × ℕ)} (f : α → β)
    (x : Own K α) : (x.map f).wp post held ↔ x.wp (fun a left => post (f a) left) held :=
  wp_bind x fun a => ret (f a)

theorem map_map (f : α → β) (g : β → γ) (x : Own K α) : (x.map f).map g = x.map (g ∘ f) := by
  induction x with
  | ret a => rfl
  | fail => rfl
  | acquireThen k next ih => exact congrArg _ (funext ih)
  | releaseThen b next ih => exact congrArg _ ih
  | touchThen b next ih => exact congrArg _ ih

theorem map_id (x : Own K α) : x.map id = x := by
  induction x with
  | ret a => rfl
  | fail => rfl
  | acquireThen k next ih => exact congrArg _ (funext ih)
  | releaseThen b next ih => exact congrArg _ ih
  | touchThen b next ih => exact congrArg _ ih

/-- Changing the result is no operation. -/
theorem map_eq_ret_iff {f : α → β} {x : Own K α} {b : β} :
    x.map f = ret b ↔ ∃ a, x = ret a ∧ f a = b := by
  cases x with
  | ret a =>
    constructor
    · intro h
      exact ⟨a, rfl, Own.ret.inj h⟩
    · rintro ⟨a', ha, rfl⟩
      rw [Own.ret.inj ha]
      rfl
  | _ => exact ⟨nofun, fun ⟨_, ha, _⟩ => nomatch ha⟩

theorem atRest_map {f : α → β} {x : Own K α} : (x.map f).AtRest ↔ x.AtRest := by
  constructor
  · rintro ⟨b, hb⟩
    obtain ⟨a, ha, -⟩ := map_eq_ret_iff.mp hb
    exact ⟨a, ha⟩
  · rintro ⟨a, rfl⟩
    exact ⟨f a, rfl⟩

end Own

section Acts

variable {K M N α β : Type}

/-- A step of the first protocol, by a thread that rests with `b` in the second. -/
def Act.left (b : β) : Act K M α → Act K (M ⊕ N) (α × β)
  | resume a code => resume (a, b) (code.map fun a => (a, b))
  | send a m code => send (a, b) (.inl m) (code.map fun a => (a, b))
  | receive a m code => receive (a, b) (.inl m) (code.map fun a => (a, b))

/-- A step of the second protocol, by a thread that rests with `a` in the first. -/
def Act.right (a : α) : Act K N β → Act K (M ⊕ N) (α × β)
  | resume b code => resume (a, b) (code.map fun b => (a, b))
  | send b m code => send (a, b) (.inr m) (code.map fun b => (a, b))
  | receive b m code => receive (a, b) (.inr m) (code.map fun b => (a, b))

theorem Act.fst_left_code (b : β) (act : Act K M α) :
    ((act.left b : Act K (M ⊕ N) (α × β)).code).map Prod.fst = act.code := by
  cases act <;> exact (Own.map_map ..).trans (Own.map_id _)

theorem Act.ready_left {act : Act K M α} {a : α} {b : β} {mail₁ : Multiset M}
    (h : act.Ready a mail₁) (mail₂ : Multiset N) :
    (act.left b).Ready (a, b) (mail₁.map Sum.inl + mail₂.map Sum.inr) := by
  cases act with
  | resume _ _ | send _ _ _ => exact congrArg (·, b) h
  | receive a' m code =>
    obtain ⟨ha, rest, rfl⟩ := h
    refine ⟨congrArg (·, b) ha, rest.map Sum.inl + mail₂.map Sum.inr, ?_⟩
    rw [Multiset.map_add, Multiset.map_singleton, add_assoc]

theorem Act.ready_right {act : Act K N β} {a : α} {b : β} {mail₂ : Multiset N}
    (h : act.Ready b mail₂) (mail₁ : Multiset M) :
    (act.right a).Ready (a, b) (mail₁.map Sum.inl + mail₂.map Sum.inr) := by
  cases act with
  | resume _ _ | send _ _ _ => exact congrArg (a, ·) h
  | receive b' m code =>
    obtain ⟨hb, rest, rfl⟩ := h
    refine ⟨congrArg (a, ·) hb, mail₁.map Sum.inl + rest.map Sum.inr, ?_⟩
    rw [Multiset.map_add, Multiset.map_singleton, add_left_comm]

end Acts

section Pairs

variable {σ σ₁ σ₂ T K M N α β : Type}

/-- A step of one of the two protocols, that leaves the other where it is. -/
inductive PairStep (P₁ : Protocol σ₁ T K M α) (P₂ : Protocol σ₂ T K N β) (fst : σ → σ₁)
    (snd : σ → σ₂) (q : σ) (prog : T → Own K (α × β)) (t : T) (act : Act K (M ⊕ N) (α × β))
    (q' : σ) : Prop
  | left {act₁ : Act K M α} {b : β} (hact : act = act₁.left b)
      (hs : P₁.Step (fst q) (fun u => (prog u).map Prod.fst) t act₁ (fst q'))
      (hsame : snd q' = snd q) : PairStep P₁ P₂ fst snd q prog t act q'
  | right {act₂ : Act K N β} {a : α} (hact : act = act₂.right a)
      (hs : P₂.Step (snd q) (fun u => (prog u).map Prod.snd) t act₂ (snd q'))
      (hsame : fst q' = fst q) : PairStep P₁ P₂ fst snd q prog t act q'

/-- The steps of the joint protocol are steps of the two. -/
structure Protocol.Pairs (P : Protocol σ T K (M ⊕ N) (α × β)) (P₁ : Protocol σ₁ T K M α)
    (P₂ : Protocol σ₂ T K N β) (fst : σ → σ₁) (snd : σ → σ₂) : Prop where
  init : ∀ {q : σ}, P.Init q → P₁.Init (fst q) ∧ P₂.Init (snd q)
  step : ∀ {q q' : σ} {prog : T → Own K (α × β)} {t : T} {act : Act K (M ⊕ N) (α × β)},
    P.Step q prog t act q' → PairStep P₁ P₂ fst snd q prog t act q'

/-- The messages of both. -/
def pairMail (Mail₁ : σ₁ → Multiset M → Prop) (Mail₂ : σ₂ → Multiset N → Prop) (fst : σ → σ₁)
    (snd : σ → σ₂) (q : σ) (mail : Multiset (M ⊕ N)) : Prop :=
  ∃ mail₁ mail₂, mail = mail₁.map .inl + mail₂.map .inr ∧ Mail₁ (fst q) mail₁ ∧
    Mail₂ (snd q) mail₂

/-- What a thread owns by both. -/
def pairContract (I₁ : σ₁ → T → α → Multiset (K × ℕ) → Prop)
    (I₂ : σ₂ → T → β → Multiset (K × ℕ) → Prop) (fst : σ → σ₁) (snd : σ → σ₂) (q : σ) (t : T)
    (a : α × β) (held : Multiset (K × ℕ)) : Prop :=
  ∃ held₁ held₂, held = held₁ + held₂ ∧ I₁ (fst q) t a.1 held₁ ∧ I₂ (snd q) t a.2 held₂

variable {P : Protocol σ T K (M ⊕ N) (α × β)} {P₁ : Protocol σ₁ T K M α}
  {P₂ : Protocol σ₂ T K N β} {fst : σ → σ₁} {snd : σ → σ₂} {owned₁ : M → Multiset (K × ℕ)}
  {owned₂ : N → Multiset (K × ℕ)} {Mail₁ : σ₁ → Multiset M → Prop}
  {Mail₂ : σ₂ → Multiset N → Prop} {I₁ : σ₁ → T → α → Multiset (K × ℕ) → Prop}
  {I₂ : σ₂ → T → β → Multiset (K × ℕ) → Prop}

/-- A program of the first protocol, run with what the thread owns by the second. -/
theorem wp_left {q : σ} {t : T} {b : β} {code : Own K α} {held₁ held₂ : Multiset (K × ℕ)}
    (h₁ : code.wp (I₁ (fst q) t) held₁) (h₂ : I₂ (snd q) t b held₂) :
    (code.map fun a => (a, b)).wp (pairContract I₁ I₂ fst snd q t) (held₁ + held₂) := by
  rw [Own.wp_map]
  apply Own.wp_mono (Own.wp_frame h₁ held₂)
  rintro a _ ⟨own, rfl, ha⟩
  exact ⟨own, held₂, rfl, ha, h₂⟩

/-- A program of the second. -/
theorem wp_right {q : σ} {t : T} {a : α} {code : Own K β} {held₁ held₂ : Multiset (K × ℕ)}
    (h₁ : I₁ (fst q) t a held₁) (h₂ : code.wp (I₂ (snd q) t) held₂) :
    (code.map fun b => (a, b)).wp (pairContract I₁ I₂ fst snd q t) (held₁ + held₂) := by
  rw [Own.wp_map, add_comm]
  apply Own.wp_mono (Own.wp_frame h₂ held₁)
  rintro b _ ⟨own, rfl, hb⟩
  exact ⟨held₁, own, add_comm _ _, h₁, hb⟩

/-- A message of the first protocol leaves those of the second. -/
theorem exists_inl {m : M} {mail : Multiset (M ⊕ N)} {mail₁ : Multiset M} {mail₂ : Multiset N}
    (h : {.inl m} + mail = mail₁.map .inl + mail₂.map .inr) :
    ∃ rest, mail₁ = {m} + rest ∧ mail = rest.map .inl + mail₂.map .inr := by
  have hmem : Sum.inl m ∈ mail₁.map Sum.inl + mail₂.map (Sum.inr (α := M)) := by
    rw [← h]
    simp
  obtain ⟨rest, rfl⟩ := Multiset.exists_cons_of_mem (a := m) (by simpa using hmem)
  refine ⟨rest, (Multiset.singleton_add _ _).symm, ?_⟩
  rw [Multiset.map_cons, ← Multiset.singleton_add, add_assoc] at h
  exact add_left_cancel h

theorem exists_inr {m : N} {mail : Multiset (M ⊕ N)} {mail₁ : Multiset M} {mail₂ : Multiset N}
    (h : {.inr m} + mail = mail₁.map .inl + mail₂.map .inr) :
    ∃ rest, mail₂ = {m} + rest ∧ mail = mail₁.map .inl + rest.map .inr := by
  have hmem : Sum.inr m ∈ mail₁.map (Sum.inl (β := N)) + mail₂.map Sum.inr := by
    rw [← h]
    simp
  obtain ⟨rest, rfl⟩ := Multiset.exists_cons_of_mem (a := m) (by simpa using hmem)
  refine ⟨rest, (Multiset.singleton_add _ _).symm, ?_⟩
  rw [Multiset.map_cons, ← Multiset.singleton_add, add_left_comm] at h
  exact add_left_cancel h

/-- What goes with the messages of both. -/
theorem sum_pair_owned (mail₁ : Multiset M) (mail₂ : Multiset N) :
    ((mail₁.map Sum.inl + mail₂.map Sum.inr).map (Sum.elim owned₁ owned₂)).sum
      = (mail₁.map owned₁).sum + (mail₂.map owned₂).sum := by
  rw [Multiset.map_add, Multiset.sum_add, Multiset.map_map, Multiset.map_map]
  rfl

/-- **Threads that keep to the contracts of both protocols keep to the joint one.** -/
theorem Protocol.Pairs.keeps (hP : P.Pairs P₁ P₂ fst snd) (h₁ : P₁.Keeps owned₁ Mail₁ I₁)
    (h₂ : P₂.Keeps owned₂ Mail₂ I₂) : P.Keeps (Sum.elim owned₁ owned₂)
      (pairMail Mail₁ Mail₂ fst snd) (pairContract I₁ I₂ fst snd) where
  resume {q q' prog t a code mail held} hs hmail h := by
    -- A step of one of the two leaves the mail and the blocks of the other alone.
    obtain ⟨mail₁, mail₂, rfl, hm₁, hm₂⟩ := hmail
    obtain ⟨held₁, held₂, rfl, hI₁, hI₂⟩ := h
    cases hP.step hs with
    | @left act₁ b hact hstep hsame =>
      cases act₁ with
      | resume a₁ code₁ =>
        obtain ⟨rfl, rfl⟩ := Act.resume.inj hact
        obtain ⟨hm, hcode⟩ := h₁.resume hstep hm₁ hI₁
        exact ⟨⟨mail₁, mail₂, rfl, hm, hsame ▸ hm₂⟩, wp_left hcode (hsame ▸ hI₂)⟩
      | send _ _ _ | receive _ _ _ => cases hact
    | @right act₂ a₁ hact hstep hsame =>
      cases act₂ with
      | resume b code₂ =>
        obtain ⟨rfl, rfl⟩ := Act.resume.inj hact
        obtain ⟨hm, hcode⟩ := h₂.resume hstep hm₂ hI₂
        exact ⟨⟨mail₁, mail₂, rfl, hsame ▸ hm₁, hm⟩, wp_right (hsame ▸ hI₁) hcode⟩
      | send _ _ _ | receive _ _ _ => cases hact
  send {q q' prog t a m code mail held} hs hmail h := by
    -- The message joins the mail of its own protocol, and its blocks leave the half that sends.
    obtain ⟨mail₁, mail₂, rfl, hm₁, hm₂⟩ := hmail
    obtain ⟨held₁, held₂, rfl, hI₁, hI₂⟩ := h
    cases hP.step hs with
    | @left act₁ b hact hstep hsame =>
      cases act₁ with
      | send a₁ m₁ code₁ =>
        obtain ⟨rfl, rfl, rfl⟩ := Act.send.inj hact
        obtain ⟨hm, rest, rfl, hcode⟩ := h₁.send hstep hm₁ hI₁
        refine ⟨⟨{m₁} + mail₁, mail₂, ?_, hm, hsame ▸ hm₂⟩, rest + held₂, add_assoc _ _ _,
          wp_left hcode (hsame ▸ hI₂)⟩
        rw [Multiset.map_add, Multiset.map_singleton, add_assoc]
      | resume _ _ | receive _ _ _ => cases hact
    | @right act₂ a₁ hact hstep hsame =>
      cases act₂ with
      | send b m₂ code₂ =>
        obtain ⟨rfl, rfl, rfl⟩ := Act.send.inj hact
        obtain ⟨hm, rest, rfl, hcode⟩ := h₂.send hstep hm₂ hI₂
        refine ⟨⟨mail₁, {m₂} + mail₂, ?_, hsame ▸ hm₁, hm⟩, held₁ + rest, add_left_comm _ _ _,
          wp_right (hsame ▸ hI₁) hcode⟩
        rw [Multiset.map_add, Multiset.map_singleton, add_left_comm]
      | resume _ _ | receive _ _ _ => cases hact
  receive {q q' prog t a m code mail held} hs hmail h := by
    -- The message was in the mail of its own protocol; its blocks come to the half that receives.
    obtain ⟨mail₁, mail₂, hmail, hm₁, hm₂⟩ := hmail
    obtain ⟨held₁, held₂, rfl, hI₁, hI₂⟩ := h
    cases hP.step hs with
    | @left act₁ b hact hstep hsame =>
      cases act₁ with
      | receive a₁ m₁ code₁ =>
        obtain ⟨rfl, rfl, rfl⟩ := Act.receive.inj hact
        obtain ⟨rest, rfl, rfl⟩ := exists_inl hmail
        obtain ⟨hm, hcode⟩ := h₁.receive hstep hm₁ hI₁
        refine ⟨⟨rest, mail₂, rfl, hm, hsame ▸ hm₂⟩, ?_⟩
        rw [← add_assoc]
        exact wp_left hcode (hsame ▸ hI₂)
      | resume _ _ | send _ _ _ => cases hact
    | @right act₂ a₁ hact hstep hsame =>
      cases act₂ with
      | receive b m₂ code₂ =>
        obtain ⟨rfl, rfl, rfl⟩ := Act.receive.inj hact
        obtain ⟨rest, rfl, rfl⟩ := exists_inr hmail
        obtain ⟨hm, hcode⟩ := h₂.receive hstep hm₂ hI₂
        refine ⟨⟨mail₁, rest, rfl, hsame ▸ hm₁, hm⟩, ?_⟩
        rw [add_left_comm]
        exact wp_right (hsame ▸ hI₁) hcode
      | resume _ _ | send _ _ _ => cases hact
  others {q q' prog t u act a held} hs hu h := by
    obtain ⟨held₁, held₂, rfl, hI₁, hI₂⟩ := h
    cases hP.step hs with
    | left hact hstep hsame => exact ⟨held₁, held₂, rfl, h₁.others hstep hu hI₁, hsame ▸ hI₂⟩
    | right hact hstep hsame => exact ⟨held₁, held₂, rfl, hsame ▸ hI₁, h₂.others hstep hu hI₂⟩

end Pairs
