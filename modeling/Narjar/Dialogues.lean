import Mathlib.Tactic.Common

/-!
# Programs that ask questions

A dialogue asks one question after the other and continues with the answers, whatever they are.
A monitor watches it: it says which questions may come and what the answers change. A dialogue
that obeys a monitor for all answers may run next to others, one question at a time.
-/
namespace Dialogues

variable {Q ε α β μ : Type} {A : Q → Type}

inductive Dialogue (A : Q → Type) (ε α : Type) where
  | done (a : α)
  | fail (e : ε)
  | ask (q : Q) (next : A q → Dialogue A ε α)

namespace Dialogue

def andThen (f : α → Dialogue A ε β) : Dialogue A ε α → Dialogue A ε β
  | done a => f a
  | fail e => fail e
  | ask q next => ask q fun a => andThen f (next a)

instance : Monad (Dialogue A ε) where
  pure := done
  bind x f := andThen f x

def ofExcept : Except ε α → Dialogue A ε α
  | .ok a => done a
  | .error e => fail e

def request (q : Q) (read : A q → Except ε α) : Dialogue A ε α :=
  ask q fun a => ofExcept (read a)

end Dialogue

structure Monitor (A : Q → Type) (μ : Type) where
  allowed : μ → Q → Prop
  observe : μ → (q : Q) → A q → μ

/-- Every question is allowed when it comes, and the result fits the last state. -/
def Obeys (M : Monitor A μ) (post : μ → α → Prop) : μ → Dialogue A ε α → Prop
  | s, .done a => post s a
  | _, .fail _ => True
  | s, .ask q next => M.allowed s q ∧ ∀ a, Obeys M post (M.observe s q a) (next a)

namespace Obeys

variable {M : Monitor A μ} {s : μ} {post : μ → α → Prop} {post' : μ → β → Prop}

theorem pure (h : post s a) : Obeys M post s (pure a : Dialogue A ε α) := h

theorem bind (hx : Obeys M post s x)
    (hf : ∀ t a, post t a → Obeys M post' t (f a)) : Obeys M post' s (x >>= f) := by
  induction x generalizing s with
  | done a => exact hf s a hx
  | fail e => trivial
  | ask q next ih => exact ⟨hx.1, fun a => ih a (hx.2 a)⟩

theorem mono (hx : Obeys M post s x)
    (hp : ∀ t a, post t a → post₂ t a) : Obeys M post₂ s x := by
  induction x generalizing s with
  | done a => exact hp s a hx
  | fail e => trivial
  | ask q next ih => exact ⟨hx.1, fun a => ih a (hx.2 a)⟩

theorem ofExcept (h : ∀ a, x = .ok a → post s a) :
    Obeys M post s (.ofExcept x : Dialogue A ε α) := by
  cases x with
  | error e => trivial
  | ok a => exact h a rfl

theorem request {q : Q} {read : A q → Except ε α} (hq : M.allowed s q)
    (hr : ∀ a b, read a = .ok b → post (M.observe s q a) b) :
    Obeys M post s (.request q read) := ⟨hq, fun a => ofExcept fun b hb => hr a b hb⟩

end Obeys

end Dialogues
