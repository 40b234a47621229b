import Mathlib.Data.List.Forall2
import Mathlib.Data.Prod.Basic
import Mathlib.Tactic.Common

/-!
# State passing with failure

Inversion and evaluation rules for computations that thread a state and may stop
with an error. Nothing here mentions a particular state or error type.
-/
namespace FallibleState

variable {σ ε α β : Type}

variable {f : α → Except ε β} {a : α} {items : List α} {s t : σ} {e : ε} {results : List β}
variable {x : Except ε α} {b : β} {p : Prop} {u : Unit}

theorem except_bind_ok : (x >>= f) = .ok b ↔ ∃ a, x = .ok a ∧ f a = .ok b := by
  cases x with
  | error | ok => simp [bind, Except.bind]

def require (p : Prop) [Decidable p] (e : ε) : Except ε Unit := if p then .ok () else .error e

@[simp] theorem require_ok [Decidable p] : require p e = .ok u ↔ p := by
  unfold require
  split <;> simp_all

def okOr (o : Option α) (e : ε) : Except ε α :=
  match o with
  | some a => .ok a
  | none => .error e

@[simp] theorem okOr_ok : okOr o e = .ok a ↔ o = some a := by
  cases o <;> simp [okOr]

@[simp] theorem mapError_ok {ε' : Type} {f : ε → ε'} : x.mapError f = .ok a ↔ x = .ok a := by
  cases x <;> simp [Except.mapError]

theorem mapM_ok (h : items.mapM f = .ok results) :
    List.Forall₂ (fun a b => f a = .ok b) items results := by
  induction items generalizing results with
  | nil =>
    rw [List.mapM_nil] at h
    cases Except.ok.inj h
    exact .nil
  | cons a items ih =>
    rw [List.mapM_cons, except_bind_ok] at h
    obtain ⟨b, hb, h⟩ := h
    rw [except_bind_ok] at h
    obtain ⟨rest, hr, h⟩ := h
    cases Except.ok.inj h
    exact .cons hb (ih hr)

theorem mapM_mem (h : items.mapM f = .ok results) (ha : a ∈ items) :
    ∃ b ∈ results, f a = .ok b := by
  have hl := mapM_ok h
  clear h
  induction hl with
  | nil => cases ha
  | cons hb _ ih =>
    rcases List.mem_cons.1 ha with rfl | hm
    · exact ⟨_, List.mem_cons_self, hb⟩
    · obtain ⟨b, hb', hab⟩ := ih hm
      exact ⟨b, List.mem_cons_of_mem _ hb', hab⟩

theorem mem_mapM (h : items.mapM f = .ok results) (hb : b ∈ results) :
    ∃ a ∈ items, f a = .ok b := by
  have hl := mapM_ok h
  clear h
  induction hl with
  | nil => cases hb
  | cons ha _ ih =>
    rcases List.mem_cons.1 hb with rfl | hm
    · exact ⟨_, List.mem_cons_self, ha⟩
    · obtain ⟨a, ha', hab⟩ := ih hm
      exact ⟨a, List.mem_cons_of_mem _ ha', hab⟩

theorem exists_mapM (h : ∀ a ∈ items, ∃ b, f a = .ok b) :
    ∃ results, items.mapM f = .ok results := by
  induction items with
  | nil => exact ⟨[], List.mapM_nil⟩
  | cons a items ih =>
    obtain ⟨b, hb⟩ := h a List.mem_cons_self
    obtain ⟨results, hr⟩ := ih fun c hc => h c (List.mem_cons_of_mem _ hc)
    refine ⟨b :: results, ?_⟩
    rw [List.mapM_cons, hb, hr]
    rfl

/-- A fold whose state is a function of what was gathered succeeds when every element does. -/
theorem foldlM_gather {f : α → List β} {p : α → Prop} {state : List β → σ}
    {step : σ → α → Except ε σ}
    (he : ∀ gathered, ∀ a ∈ items, ∀ t, step (state gathered) a = .ok t ↔ p a ∧
      t = state (gathered ++ f a)) (gathered : List β) (t : σ) :
    items.foldlM step (state gathered) = .ok t ↔
      (∀ a ∈ items, p a) ∧ t = state (gathered ++ items.flatMap f) := by
  induction items generalizing gathered with
  | nil =>
    rw [List.foldlM_nil, List.flatMap_nil, List.append_nil]
    simp [pure, Except.pure, eq_comm]
  | cons a items ih =>
    have hr := ih fun gathered b hb => he gathered b (List.mem_cons_of_mem a hb)
    rw [List.foldlM_cons, except_bind_ok, List.forall_mem_cons, List.flatMap_cons,
      ← List.append_assoc]
    constructor
    · intro h
      obtain ⟨s, hs, h⟩ := h
      obtain ⟨ha, rfl⟩ := (he gathered a List.mem_cons_self s).1 hs
      obtain ⟨hl, ht⟩ := (hr _).1 h
      exact ⟨⟨ha, hl⟩, ht⟩
    · intro h
      obtain ⟨⟨ha, hl⟩, ht⟩ := h
      exact ⟨_, (he gathered a List.mem_cons_self _).2 ⟨ha, rfl⟩, (hr _).2 ⟨hl, ht⟩⟩

section Loop

variable (cond : σ → Prop) [DecidablePred cond] (step : σ → Except ε σ)

/-- `while cond { step }`, cut off after a number of rounds. -/
def whileLoop : ℕ → σ → Except ε σ
  | 0, s => .ok s
  | rounds + 1, s => if cond s then step s >>= whileLoop rounds else .ok s

variable {cond step} {I : σ → Prop}

variable {s t : σ} {rounds : ℕ}

theorem whileLoop_invariant (preserved : ∀ s t, I s → cond s → step s = .ok t → I t) (hs : I s)
    (h : whileLoop cond step rounds s = .ok t) : I t := by
  induction rounds generalizing s with
  | zero =>
    cases Except.ok.inj h
    exact hs
  | succ rounds ih =>
    rw [whileLoop] at h
    by_cases hc : cond s
    · rw [if_pos hc, except_bind_ok] at h
      obtain ⟨u, ht, hr⟩ := h
      exact ih (preserved s u hs hc ht) hr
    · rw [if_neg hc] at h
      cases Except.ok.inj h
      exact hs

theorem whileLoop_done (measure : σ → ℕ) (positive : ∀ s, cond s → 0 < measure s)
    (preserved : ∀ s t, I s → cond s → step s = .ok t → I t ∧ measure t < measure s) (hs : I s)
    (ho : measure s ≤ rounds) (h : whileLoop cond step rounds s = .ok t) : ¬cond t := by
  induction rounds generalizing s with
  | zero =>
    cases Except.ok.inj h
    intro hc
    have := positive _ hc
    omega
  | succ rounds ih =>
    rw [whileLoop] at h
    by_cases hc : cond s
    · rw [if_pos hc, except_bind_ok] at h
      obtain ⟨u, ht, hr⟩ := h
      obtain ⟨hu, hlt⟩ := preserved s u hs hc ht
      exact ih hu (by omega) hr
    · rw [if_neg hc] at h
      cases Except.ok.inj h
      exact hc

theorem whileLoop_total (preserved : ∀ s t, I s → cond s → step s = .ok t → I t)
    (total : ∀ s, I s → cond s → ∃ t, step s = .ok t) (rounds : ℕ) (hs : I s) :
    ∃ t, whileLoop cond step rounds s = .ok t := by
  induction rounds generalizing s with
  | zero => exact ⟨s, rfl⟩
  | succ rounds ih =>
    rw [whileLoop]
    by_cases hc : cond s
    · obtain ⟨u, ht⟩ := total s hs hc
      obtain ⟨t, hr⟩ := ih (preserved s u hs hc ht)
      rw [if_pos hc]
      exact ⟨t, except_bind_ok.2 ⟨u, ht, hr⟩⟩
    · rw [if_neg hc]
      exact ⟨s, rfl⟩

end Loop

/-- A computation over `σ` that returns a value or stops with an error. -/
abbrev Fallible (σ ε α : Type) := StateT σ (Except ε) α

theorem bind_ok {x} {f : α → Fallible σ ε β} {r : β × σ} :
    (x >>= f) s = .ok r ↔ ∃ a t, x s = .ok (a, t) ∧ f a t = .ok r := by
  change (x s >>= fun p => f p.1 p.2) = .ok r ↔ _
  cases h : x s with
  | error e => simp [bind, Except.bind]
  | ok p =>
    constructor
    · intro hr
      exact ⟨p.1, p.2, rfl, hr⟩
    · rintro ⟨a, t, hp, hr⟩
      cases Except.ok.inj hp
      exact hr

theorem bind_of_ok {x} {f : α → Fallible σ ε β} (h : x s = .ok (a, t)) : (x >>= f) s = f a t := by
  change (x s >>= fun p => f p.1 p.2) = f a t
  rw [h]
  rfl

@[simp] theorem pure_ok {b : α} : (pure a : Fallible σ ε α) s = .ok (b, t) ↔ b = a ∧ t = s := by
  change (Except.ok (a, s) : Except ε (α × σ)) = .ok (b, t) ↔ _
  rw [Except.ok.injEq, Prod.mk.injEq]
  constructor
  · rintro ⟨rfl, rfl⟩; exact ⟨rfl, rfl⟩
  · rintro ⟨rfl, rfl⟩; exact ⟨rfl, rfl⟩

def fail (e : ε) : Fallible σ ε α := fun _ => .error e

@[simp] theorem fail_ok : (fail e : Fallible σ ε α) s = .ok r ↔ False := by
  simp [fail]

def ensure (p : Prop) [Decidable p] (e : ε) : Fallible σ ε Unit :=
  if p then pure () else fail e

@[simp] theorem ensure_ok [Decidable p] :
    (ensure p e : Fallible σ ε Unit) s = .ok (u, t) ↔ p ∧ t = s := by
  unfold ensure
  split <;> simp_all

end FallibleState
