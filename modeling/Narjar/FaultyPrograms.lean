import Mathlib.Algebra.GroupWithZero.Nat
import Mathlib.Tactic.Common

/-!
# Programs whose operations may fail or crash

A program works on a state through single operations. Before each operation a fault may
strike: the operation is refused with an error, which the program can handle, or the machine
stops and the state stays as it is. Quantifying over the list of faults gives every failing
step and every crash point.
-/
namespace FaultyPrograms

open List

variable {σ ε α β ι : Type}

inductive Fault where
  | none
  | error
  | crash
  deriving DecidableEq, Repr

inductive Exit (ε α : Type) where
  | done (value : α)
  | failed (error : ε)
  | crashed
  deriving DecidableEq, Repr

/-- How a program ended, in which state, and the faults that are left for what follows it. -/
structure Outcome (σ ε α : Type) where
  exit : Exit ε α
  state : σ
  faults : List Fault

def Faulty (σ ε α : Type) := σ → List Fault → Outcome σ ε α

def Outcome.andThen (f : α → Faulty σ ε β) : Outcome σ ε α → Outcome σ ε β
  | ⟨.done a, t, rest⟩ => f a t rest
  | ⟨.failed e, t, rest⟩ => ⟨.failed e, t, rest⟩
  | ⟨.crashed, t, rest⟩ => ⟨.crashed, t, rest⟩

instance : Monad (Faulty σ ε) where
  pure a := fun s faults => ⟨.done a, s, faults⟩
  bind x f := fun s faults => (x s faults).andThen f

theorem andThen_pure (o : Outcome σ ε α) : o.andThen pure = o := by
  obtain ⟨exit, t, rest⟩ := o
  cases exit <;> rfl

theorem andThen_andThen (o : Outcome σ ε α) (f : α → Faulty σ ε β) (g : β → Faulty σ ε ι) :
    (o.andThen f).andThen g = o.andThen fun a => f a >>= g := by
  obtain ⟨exit, t, rest⟩ := o
  cases exit <;> rfl

instance : LawfulMonad (Faulty σ ε) :=
  .mk' _ (fun x => funext fun s => funext fun faults => andThen_pure (x s faults))
    (fun _ _ => rfl)
    fun x f g => funext fun s => funext fun faults => andThen_andThen (x s faults) f g

def stop (e : ε) : Faulty σ ε α := fun s faults => ⟨.failed e, s, faults⟩

/-- Hand an error to the program instead of stopping. A crash is not caught. -/
def attempt (x : Faulty σ ε α) : Faulty σ ε (Except ε α) := fun s faults =>
  match x s faults with
  | ⟨.done a, t, rest⟩ => ⟨.done (.ok a), t, rest⟩
  | ⟨.failed e, t, rest⟩ => ⟨.done (.error e), t, rest⟩
  | ⟨.crashed, t, rest⟩ => ⟨.crashed, t, rest⟩

/-- Continue one way after a result and another way after an error. -/
def handle (x : Faulty σ ε α) (onOk : α → Faulty σ ε β) (onError : ε → Faulty σ ε β) :
    Faulty σ ε β :=
  attempt x >>= fun
    | .ok a => onOk a
    | .error e => onError e

def mapError {ε' : Type} (g : ε → ε') (x : Faulty σ ε α) : Faulty σ ε' α := fun s faults =>
  match x s faults with
  | ⟨.done a, t, rest⟩ => ⟨.done a, t, rest⟩
  | ⟨.failed e, t, rest⟩ => ⟨.failed (g e), t, rest⟩
  | ⟨.crashed, t, rest⟩ => ⟨.crashed, t, rest⟩

def ofExcept : Except ε α → Faulty σ ε α
  | .ok a => pure a
  | .error e => stop e

/-- One operation on the state. It takes effect as a whole or not at all. -/
def operation (failure : ε) (act : σ → Except ε (α × σ)) : Faulty σ ε α := fun s faults =>
  match faults.head?.getD .none, act s with
  | .none, .ok (a, t) => ⟨.done a, t, faults.tail⟩
  | .none, .error e => ⟨.failed e, s, faults.tail⟩
  | .error, _ => ⟨.failed failure, s, faults.tail⟩
  | .crash, _ => ⟨.crashed, s, faults.tail⟩

def observe (failure : ε) (view : σ → Except ε α) : Faulty σ ε α :=
  operation failure fun s => (view s).map fun a => (a, s)

/-- A step in memory, which no fault can hit. -/
def update (act : σ → α × σ) : Faulty σ ε α := fun s faults => ⟨.done (act s).1, (act s).2, faults⟩

/-- A step that may have taken effect in part when it fails. -/
def respond (act : σ → Except ε α × σ) : Faulty σ ε α := fun s faults =>
  match (act s).1 with
  | .ok a => ⟨.done a, (act s).2, faults⟩
  | .error e => ⟨.failed e, (act s).2, faults⟩

def foldEach (body : β → ι → Faulty σ ε β) : β → List ι → Faulty σ ε β
  | b, [] => pure b
  | b, x :: xs => do
    let b ← body b x
    foldEach body b xs

def forEach (items : List ι) (body : ι → Faulty σ ε Unit) : Faulty σ ε Unit :=
  foldEach (fun _ x => body x) () items

/-- The outcome satisfies the condition for the way the program ended. -/
def Outcome.Meets (o : Outcome σ ε α) (Q : α → σ → Prop) (F : ε → σ → Prop) (C : σ → Prop) : Prop :=
  match o.exit with
  | .done a => Q a o.state
  | .failed e => F e o.state
  | .crashed => C o.state

/-- From every state in `P`, whatever faults strike: `Q` when the program returns, `F` when it
fails, `C` when it crashes. -/
def Triple (P : σ → Prop) (x : Faulty σ ε α) (Q : α → σ → Prop) (F : ε → σ → Prop)
    (C : σ → Prop) : Prop :=
  ∀ s faults, P s → (x s faults).Meets Q F C

/-- From every state in `P`, what the program returns satisfies `Q`. -/
abbrev Returns (P : σ → Prop) (x : Faulty σ ε α) (Q : α → σ → Prop) : Prop :=
  Triple P x Q (fun _ _ => True) fun _ => True

variable {P A : σ → Prop} {Q B : α → σ → Prop} {R : β → σ → Prop} {F F' : ε → σ → Prop}
variable {C C' I : σ → Prop} {x : Faulty σ ε α} {f : α → Faulty σ ε β} {s t : σ}
variable {faults rest : List Fault} {a : α} {b : β} {e : ε}

theorem Triple.consequence (h : Triple A x B F' C') (hP : ∀ s, P s → A s)
    (hQ : ∀ a s, B a s → Q a s) (hF : ∀ e s, F' e s → F e s) (hC : ∀ s, C' s → C s) :
    Triple P x Q F C := by
  intro s faults hs
  have hx := h s faults (hP s hs)
  simp only [Outcome.Meets] at hx ⊢
  split at hx
  · exact hQ _ _ hx
  · exact hF _ _ hx
  · exact hC _ hx

theorem Triple.strengthen (h : Triple A x Q F C) (hP : ∀ s, P s → A s) : Triple P x Q F C :=
  h.consequence hP (fun _ _ => id) (fun _ _ => id) fun _ => id

theorem Triple.weaken (h : Triple P x B F C) (hQ : ∀ a s, B a s → Q a s) : Triple P x Q F C :=
  h.consequence (fun _ => id) hQ (fun _ _ => id) fun _ => id

theorem Triple.relax (h : Triple P x Q F' C') (hF : ∀ e s, F' e s → F e s)
    (hC : ∀ s, C' s → C s) : Triple P x Q F C := h.consequence (fun _ => id) (fun _ _ => id) hF hC

theorem Triple.onSuccess (h : Triple P x Q F C) : Returns P x Q :=
  h.relax (fun _ _ _ => trivial) fun _ _ => trivial

theorem Triple.trivial : Returns P x (fun _ _ => True) := by
  intro s faults _
  simp only [Outcome.Meets]
  split <;> exact True.intro

theorem Triple.pure (h : ∀ s, P s → Q a s) : Triple P (pure a : Faulty σ ε α) Q F C :=
  fun s _ hs => h s hs

theorem Triple.stop (h : ∀ s, P s → F e s) : Triple P (stop e : Faulty σ ε α) Q F C :=
  fun s _ hs => h s hs

theorem Triple.bind (hx : Triple P x Q F C) (hf : ∀ a, Triple (Q a) (f a) R F C) :
    Triple P (x >>= f) R F C := by
  intro s faults hs
  have hi := hx s faults hs
  change ((x s faults).andThen f).Meets R F C
  generalize x s faults = outcome at hi ⊢
  obtain ⟨exit, t, rest⟩ := outcome
  cases exit with
  | done a => exact hf a t rest hi
  | failed | crashed => exact hi

theorem Triple.attempt {A : Except ε α → σ → Prop}
    (h : Triple P x (fun a => A (.ok a)) (fun e => A (.error e)) C) :
    Triple P (attempt x) A F C := by
  intro s faults hs
  have hx := h s faults hs
  simp only [FaultyPrograms.attempt]
  generalize x s faults = outcome at hx ⊢
  obtain ⟨exit, t, rest⟩ := outcome
  cases exit with
  | done | failed | crashed => exact hx

variable {failure : ε} {items : List ι} {onError : ε → Faulty σ ε β} {act : σ → Except ε (α × σ)}
variable {view : σ → Except ε α} {body : ι → Faulty σ ε Unit} {E : ε → σ → Prop}
variable {K : List ι → σ → Prop} {p : Prop}

theorem Triple.handle (hx : Triple P x Q E C) (hok : ∀ a, Triple (Q a) (f a) R F C)
    (he : ∀ e, Triple (E e) (onError e) R F C) : Triple P (handle x f onError) R F C := by
  refine .bind (Q := fun
    | .ok a => Q a
    | .error e => E e) (.attempt hx) ?_
  intro result
  cases result with
  | ok a => exact hok a
  | error e => exact he e

theorem Triple.mapError {ε' : Type} {g : ε → ε'} {F' : ε' → σ → Prop}
    (h : Triple P x Q (fun e => F' (g e)) C) : Triple P (mapError g x) Q F' C := by
  intro s faults hs
  have hx := h s faults hs
  simp only [FaultyPrograms.mapError]
  generalize x s faults = outcome at hx ⊢
  obtain ⟨exit, t, rest⟩ := outcome
  cases exit with
  | done | failed | crashed => exact hx

theorem Triple.ofExcept (hok : ∀ a s, result = .ok a → P s → Q a s)
    (he : ∀ e s, result = .error e → P s → F e s) :
    Triple P (ofExcept result : Faulty σ ε α) Q F C := by
  cases result with
  | ok a => exact .pure fun s hs => hok a s rfl hs
  | error e => exact .stop fun s hs => he e s rfl hs

theorem Triple.operation (hd : ∀ s a t, P s → act s = .ok (a, t) → Q a t)
    (hr : ∀ s e, P s → act s = .error e → F e s) (hf : ∀ s, P s → F failure s) (hc : ∀ s, P s →
      C s) : Triple P (operation failure act) Q F C := by
  intro s faults hs
  simp only [FaultyPrograms.operation]
  cases faults.head?.getD .none with
  | none =>
    cases ha : act s with
    | ok r => exact hd s r.1 r.2 hs ha
    | error e => exact hr s e hs ha
  | error => exact hf s hs
  | crash => exact hc s hs

theorem observe_eq_ok {result : Except ε α} (h : result.map (fun a => (a, s)) = .ok (a, t)) :
    result = .ok a ∧ t = s := by
  cases result with
  | ok a' =>
    cases Except.ok.inj h
    exact ⟨rfl, rfl⟩
  | error e => cases h

theorem observe_eq_error {result : Except ε α} (h : result.map (fun a => (a, s)) = .error e) :
    result = .error e := by
  cases result with
  | ok a' => cases h
  | error e' =>
    cases Except.error.inj h
    rfl

theorem Triple.observe (hd : ∀ s a, P s → view s = .ok a → Q a s)
    (hr : ∀ s e, P s → view s = .error e → F e s) (hf : ∀ s, P s → F failure s)
    (hc : ∀ s, P s → C s) : Triple P (observe failure view) Q F C := by
  refine .operation ?_ ?_ hf hc
  · intro s a t hs ha
    obtain ⟨hv, rfl⟩ := observe_eq_ok ha
    exact hd t a hs hv
  · intro s e hs ha
    exact hr s e hs (observe_eq_error ha)

theorem Triple.update {act : σ → α × σ} (h : ∀ s, P s → Q (act s).1 (act s).2) :
    Triple P (update act : Faulty σ ε α) Q F C := fun s _ hs => h s hs

theorem Triple.respond {act : σ → Except ε α × σ}
    (hd : ∀ s a, P s → (act s).1 = .ok a → Q a (act s).2)
    (hf : ∀ s e, P s → (act s).1 = .error e → F e (act s).2) : Triple P (respond act) Q F C := by
  intro s faults hs
  unfold FaultyPrograms.respond
  cases ha : (act s).1 with
  | ok a => exact hd s a hs ha
  | error e => exact hf s e hs ha

theorem Triple.foldEach {body : β → ι → Faulty σ ε β} {K : List ι → β → σ → Prop}
    (hb : ∀ done x rest b, items = done ++ x :: rest →
      Triple (K done b) (body b x) (fun b' => K (done ++ [x]) b') F C) :
    Triple (K [] b) (foldEach body b items) (K items) F C := by
  -- Generalised to a loop that has already done some of the items.
  suffices hl : ∀ todo done b, items = done ++ todo →
      Triple (K done b) (FaultyPrograms.foldEach body b todo) (K items) F C from
    hl items [] b rfl
  intro todo
  induction todo with
  | nil =>
    intro done b hi
    rw [append_nil] at hi
    rw [hi]
    exact .pure fun s hs => hs
  | cons x todo ih =>
    intro done b hi
    refine .bind (hb done x todo b hi) ?_
    intro b'
    apply ih
    rw [hi, append_assoc, singleton_append]

theorem Triple.forEach
    (hb : ∀ done x rest, items = done ++ x :: rest →
      Triple (K done) (body x) (fun _ => K (done ++ [x])) F C) :
    Triple (K []) (forEach items body) (fun _ => K items) F C :=
  .foldEach (K := fun done _ => K done) fun done x rest _ hi => hb done x rest hi

theorem Triple.ofState (h : ∀ s, P s → Triple (· = s) x Q F C) : Triple P x Q F C :=
  fun s faults hs => h s hs s faults rfl

theorem Triple.assuming (h : p → Triple P x Q F C) : Triple (fun s => p ∧ P s) x Q F C :=
  fun s faults hs => h hs.1 s faults hs.2

theorem Triple.done (h : Triple P x Q F C) (hs : P s) (he : (x s faults).exit = .done a) :
    Q a (x s faults).state := by
  have hx := h s faults hs
  simpa only [Outcome.Meets, he] using hx

theorem Triple.failed (h : Triple P x Q F C) (hs : P s) (he : (x s faults).exit = .failed e) :
    F e (x s faults).state := by
  have hx := h s faults hs
  simpa only [Outcome.Meets, he] using hx

theorem Triple.outcome (h : Triple P x (fun _ => I) (fun _ => I) I) (hs : P s)
    (faults : List Fault) : I (x s faults).state := by
  have hx := h s faults hs
  simp only [Outcome.Meets] at hx
  split at hx
  · exact hx
  · exact hx
  · exact hx

theorem bind_failed (he : (x s faults).exit = .failed e) :
    ((x >>= f) s faults).exit = .failed e ∧ ((x >>= f) s faults).state = (x s faults).state := by
  change ((x s faults).andThen f).exit = _ ∧ ((x s faults).andThen f).state = _
  generalize x s faults = outcome at he ⊢
  obtain ⟨exit, t, rest⟩ := outcome
  cases exit with
  | done a => cases he
  | failed e' =>
    cases he
    exact ⟨rfl, rfl⟩
  | crashed => cases he

/-- `I` survives the program however it ends. -/
def Preserves (I : σ → Prop) (x : Faulty σ ε α) : Prop := Triple I x (fun _ => I) (fun _ => I) I

theorem Preserves.pure : Preserves I (pure a : Faulty σ ε α) := Triple.pure fun _ => id

theorem Preserves.stop : Preserves I (stop e : Faulty σ ε α) := Triple.stop fun _ => id

theorem Preserves.bind (hx : Preserves I x) (hf : ∀ a, Preserves I (f a)) : Preserves I (x >>= f) :=
  Triple.bind hx hf

theorem Preserves.attempt (h : Preserves I x) : Preserves I (attempt x) := Triple.attempt h

theorem Preserves.handle (hx : Preserves I x) (hf : ∀ a, Preserves I (f a))
    (he : ∀ e, Preserves I (onError e)) : Preserves I (handle x f onError) := Triple.handle hx hf he

theorem Preserves.operation (h : ∀ s a t, I s → act s = .ok (a, t) → I t) :
    Preserves I (operation failure act) :=
  Triple.operation h (fun _ _ hs _ => hs) (fun _ => id) fun _ => id

theorem Preserves.observe : Preserves I (observe failure view) :=
  Triple.observe (fun _ _ hs _ => hs) (fun _ _ hs _ => hs) (fun _ => id) fun _ => id

theorem Preserves.foldEach {body : β → ι → Faulty σ ε β}
    (h : ∀ b, ∀ x ∈ items, Preserves I (body b x)) : Preserves I (foldEach body b items) := by
  apply Triple.foldEach (K := fun _ _ => I)
  intro done x rest b hi
  apply h
  rw [hi]
  exact mem_append_right _ mem_cons_self

theorem Preserves.forEach (h : ∀ x ∈ items, Preserves I (body x)) :
    Preserves I (forEach items body) := .foldEach fun _ => h

theorem Preserves.outcome (h : Preserves I x) (hs : I s) (faults : List Fault) :
    I (x s faults).state := Triple.outcome h hs faults

theorem Triple.both (h : Triple P x Q F C) (h' : Triple A x B F' C') :
    Triple (fun s => P s ∧ A s) x (fun a s => Q a s ∧ B a s) (fun e s => F e s ∧ F' e s)
      fun s => C s ∧ C' s := by
  intro s faults hs
  have hx := h s faults hs.1
  have hx' := h' s faults hs.2
  generalize x s faults = outcome at hx hx' ⊢
  obtain ⟨exit, t, rest⟩ := outcome
  cases exit with
  | done | failed | crashed => exact ⟨hx, hx'⟩

/-- A program that keeps everything it reads can be followed knowing what was read. -/
theorem Triple.and (h : Triple P x Q F C) (hI : Preserves I x) :
    Triple (fun s => P s ∧ I s) x (fun a s => Q a s ∧ I s) (fun e s => F e s ∧ I s)
      fun s => C s ∧ I s := h.both hI

/-- What a program returns satisfies `U`, and `I` holds then as it did before. -/
def Yields (I : σ → Prop) (x : Faulty σ ε α) (U : α → Prop) : Prop :=
  Triple I x (fun a s => U a ∧ I s) (fun _ _ => True) fun _ => True

section Yields

variable {U V : α → Prop} {W : β → Prop}

theorem Yields.pure (h : U a) : Yields I (pure a : Faulty σ ε α) U := Triple.pure fun _ hs => ⟨h, hs⟩

theorem Yields.stop : Yields I (stop e : Faulty σ ε α) U := Triple.stop fun _ _ => True.intro

theorem Yields.weaken (h : Yields I x U) (hUV : ∀ a, U a → V a) : Yields I x V :=
  Triple.weaken h fun a _ hs => ⟨hUV a hs.1, hs.2⟩

theorem Yields.bind (hx : Yields I x U) (hf : ∀ a, U a → Yields I (f a) W) : Yields I (x >>= f) W :=
  Triple.bind hx fun a => Triple.assuming (hf a)

theorem Yields.mapError {ε' : Type} {g : ε → ε'} (h : Yields I x U) : Yields I (mapError g x) U :=
  Triple.mapError h

theorem Yields.ofExcept (h : ∀ a, result = .ok a → U a) :
    Yields I (ofExcept result : Faulty σ ε α) U :=
  Triple.ofExcept (fun a _ ha hs => ⟨h a ha, hs⟩) fun _ _ _ _ => True.intro

theorem Yields.ofState
    (h : ∀ s, I s → Returns (· = s) x (fun a t => t = s ∧ U a)) : Yields I x U := by
  refine Triple.ofState fun s hs => (h s hs).weaken ?_
  intro a t ht
  rw [ht.1]
  exact ⟨ht.2, hs⟩

variable {items : List ι}

theorem Yields.foldEach {body : β → ι → Faulty σ ε β} {K : List ι → β → Prop} (ht : K [] b)
    (hb : ∀ done x rest b, items = done ++ x :: rest → K done b →
      Yields I (body b x) (K (done ++ [x]))) : Yields I (foldEach body b items) (K items) := by
  have hl : Returns (fun s => K [] b ∧ I s) (FaultyPrograms.foldEach body b items)
      (fun b s => K items b ∧ I s) :=
    .foldEach (K := fun done b s => K done b ∧ I s) fun done x rest b hi =>
      Triple.assuming (hb done x rest b hi)
  exact hl.strengthen fun s hs => ⟨ht, hs⟩

theorem Yields.sum {body : ℕ → ι → Faulty σ ε ℕ} {w : ι → ℕ} {total : ℕ}
    (hb : ∀ x ∈ items, ∀ total, Yields I (body total x) (· = total + w x)) :
    Yields I (FaultyPrograms.foldEach body total items) (· = total + (items.map w).sum) := by
  refine Yields.foldEach (K := fun done sum => sum = total + (done.map w).sum) rfl ?_
  intro done x rest sum hi hs
  refine (hb x (hi ▸ mem_append_right _ mem_cons_self) sum).weaken ?_
  intro next hn
  rw [hn, hs, map_append, sum_append, map_singleton, sum_singleton, Nat.add_assoc]

theorem Yields.result (h : Yields I x U) (hs : I s) (he : (x s faults).exit = .done a) :
    U a ∧ I (x s faults).state := Triple.done h hs he

end Yields

/-- The run that no fault disturbs: it returns with `Q` or fails with `F`. -/
def Quiet (P : σ → Prop) (x : Faulty σ ε α) (Q : α → σ → Prop) (F : ε → σ → Prop) : Prop :=
  ∀ s, P s → (x s []).faults = [] ∧ (x s []).Meets Q F fun _ => False

theorem Quiet.consequence (h : Quiet A x B F') (hP : ∀ s, P s → A s)
    (hQ : ∀ a s, B a s → Q a s) (hF : ∀ e s, F' e s → F e s) : Quiet P x Q F := by
  intro s hs
  obtain ⟨hf, hx⟩ := h s (hP s hs)
  refine ⟨hf, ?_⟩
  simp only [Outcome.Meets] at hx ⊢
  split at hx
  · exact hQ _ _ hx
  · exact hF _ _ hx
  · exact hx

theorem Quiet.pure (h : ∀ s, P s → Q a s) : Quiet P (pure a : Faulty σ ε α) Q F :=
  fun s hs => ⟨rfl, h s hs⟩

theorem Quiet.stop (h : ∀ s, P s → F e s) : Quiet P (stop e : Faulty σ ε α) Q F :=
  fun s hs => ⟨rfl, h s hs⟩

theorem Quiet.bind (hx : Quiet P x Q F) (hf : ∀ a, Quiet (Q a) (f a) R F) :
    Quiet P (x >>= f) R F := by
  intro s hs
  have hi := hx s hs
  change ((x s []).andThen f).faults = [] ∧ ((x s []).andThen f).Meets R F fun _ => False
  generalize x s [] = outcome at hi ⊢
  obtain ⟨exit, t, rest⟩ := outcome
  obtain ⟨rfl, hi⟩ := hi
  cases exit with
  | done a => exact hf a t hi
  | failed e => exact ⟨rfl, hi⟩
  | crashed => exact hi.elim

theorem Quiet.handle (hx : Quiet P x Q E) (hok : ∀ a, Quiet (Q a) (f a) R F)
    (he : ∀ e, Quiet (E e) (onError e) R F) : Quiet P (handle x f onError) R F := by
  refine .bind (Q := fun
    | .ok a => Q a
    | .error e => E e) ?_ fun
    | .ok a => hok a
    | .error e => he e
  intro s hs
  have hf := hx s hs
  simp only [attempt]
  generalize x s [] = outcome at hf ⊢
  obtain ⟨exit, t, rest⟩ := outcome
  obtain ⟨rfl, hf⟩ := hf
  cases exit with
  | done | failed => exact ⟨rfl, hf⟩
  | crashed => exact hf.elim

theorem Quiet.operation (hd : ∀ s a t, P s → act s = .ok (a, t) → Q a t)
    (hr : ∀ s e, P s → act s = .error e → F e s) : Quiet P (operation failure act) Q F := by
  intro s hs
  simp only [FaultyPrograms.operation, List.head?_nil, Option.getD_none, tail_nil]
  cases ha : act s with
  | ok r => exact ⟨rfl, hd s r.1 r.2 hs ha⟩
  | error e => exact ⟨rfl, hr s e hs ha⟩

theorem Quiet.observe (hd : ∀ s a, P s → view s = .ok a → Q a s)
    (hr : ∀ s e, P s → view s = .error e → F e s) : Quiet P (observe failure view) Q F := by
  refine .operation ?_ ?_
  · intro s a t hs ha
    obtain ⟨hv, rfl⟩ := observe_eq_ok ha
    exact hd t a hs hv
  · intro s e hs ha
    exact hr s e hs (observe_eq_error ha)

theorem Quiet.forEach
    (hb : ∀ done x rest, items = done ++ x :: rest →
      Quiet (K done) (body x) (fun _ => K (done ++ [x])) F) :
    Quiet (K []) (forEach items body) (fun _ => K items) F := by
  suffices hl : ∀ todo done, items = done ++ todo →
      Quiet (K done) (FaultyPrograms.forEach todo body) (fun _ => K items) F from
    hl items [] rfl
  intro todo
  induction todo with
  | nil =>
    intro done hi
    rw [append_nil] at hi
    rw [hi]
    exact .pure fun s hs => hs
  | cons x todo ih =>
    intro done hi
    refine .bind (hb done x todo hi) fun _ => ih _ ?_
    rw [hi, append_assoc, singleton_append]

theorem Quiet.assuming (h : p → Quiet P x Q F) : Quiet (fun s => p ∧ P s) x Q F :=
  fun s hs => h hs.1 s hs.2

theorem Quiet.returns (h : Quiet P x Q fun _ _ => False) (hs : P s) :
    ∃ a t, x s [] = ⟨.done a, t, []⟩ ∧ Q a t := by
  have hx := h s hs
  generalize x s [] = outcome at hx ⊢
  obtain ⟨exit, t, rest⟩ := outcome
  obtain ⟨rfl, hx⟩ := hx
  cases exit with
  | done a => exact ⟨a, t, rfl, hx⟩
  | failed | crashed => exact hx.elim

section Simulation

variable {τ : Type} {S : σ → τ → Prop} {y : Faulty τ ε α} {g : α → Faulty τ ε β}

/-- Under the same faults the two programs end the same way, in states that are again related. -/
def Simulates (S : σ → τ → Prop) (x : Faulty σ ε α) (y : Faulty τ ε α) : Prop :=
  ∀ s t faults, S s t → ∃ exit s' t' rest,
    x s faults = ⟨exit, s', rest⟩ ∧ y t faults = ⟨exit, t', rest⟩ ∧ S s' t'

theorem Simulates.pure : Simulates S (pure a : Faulty σ ε α) (pure a) :=
  fun s t faults h => ⟨.done a, s, t, faults, rfl, rfl, h⟩

theorem Simulates.stop : Simulates S (stop e : Faulty σ ε α) (stop e) :=
  fun s t faults h => ⟨.failed e, s, t, faults, rfl, rfl, h⟩

theorem Simulates.bind (hx : Simulates S x y) (hf : ∀ a, Simulates S (f a) (g a)) :
    Simulates S (x >>= f) (y >>= g) := by
  intro s t faults h
  obtain ⟨exit, s', t', rest, hs, ht, h'⟩ := hx s t faults h
  have hl : (x >>= f) s faults = (x s faults).andThen f := rfl
  have hr : (y >>= g) t faults = (y t faults).andThen g := rfl
  rw [hl, hr, hs, ht]
  cases exit with
  | done a => exact hf a s' t' rest h'
  | failed e => exact ⟨.failed e, s', t', rest, rfl, rfl, h'⟩
  | crashed => exact ⟨.crashed, s', t', rest, rfl, rfl, h'⟩

theorem Simulates.handle
    (hx : Simulates S x y) (hok : ∀ a, Simulates S (f a) (g a))
    (he : ∀ e, Simulates S (onError e) (onError' e)) :
    Simulates S (handle x f onError) (handle y g onError') := by
  refine .bind ?_ ?_
  · intro s t faults h
    obtain ⟨exit, s', t', rest, hs, ht, h'⟩ := hx s t faults h
    simp only [FaultyPrograms.attempt, hs, ht]
    cases exit with
    | done a => exact ⟨.done (.ok a), s', t', rest, rfl, rfl, h'⟩
    | failed e => exact ⟨.done (.error e), s', t', rest, rfl, rfl, h'⟩
    | crashed => exact ⟨.crashed, s', t', rest, rfl, rfl, h'⟩
  · intro result
    cases result with
    | ok a => exact hok a
    | error e => exact he e

variable {failure : ε}

theorem Simulates.operation
    (h : ∀ s t, S s t → (∃ e, act s = .error e ∧ act' t = .error e) ∨ ∃ a s' t', act s = .ok (a,
      s') ∧ act' t = .ok (a, t') ∧ S s' t') :
    Simulates S (operation failure act) (operation failure act') := by
  intro s t faults hst
  simp only [FaultyPrograms.operation]
  cases faults.head?.getD .none with
  | none =>
    rcases h s t hst with ⟨e, hs, ht⟩ | ⟨a, s', t', hs, ht, h'⟩
    · rw [hs, ht]
      exact ⟨.failed e, s, t, faults.tail, rfl, rfl, hst⟩
    · rw [hs, ht]
      exact ⟨.done a, s', t', faults.tail, rfl, rfl, h'⟩
  | error => exact ⟨.failed failure, s, t, faults.tail, rfl, rfl, hst⟩
  | crash => exact ⟨.crashed, s, t, faults.tail, rfl, rfl, hst⟩

theorem Simulates.observe
    (h : ∀ s t, S s t → view s = view' t) :
    Simulates S (observe failure view) (observe failure view') := by
  refine .operation ?_
  intro s t hst
  rw [h s t hst]
  cases view' t with
  | error e => exact .inl ⟨e, rfl, rfl⟩
  | ok a => exact .inr ⟨a, s, t, rfl, rfl, hst⟩

end Simulation

end FaultyPrograms
