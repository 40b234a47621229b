import Narjar.ByteCodecs

/-!
# Self-delimiting codecs

Codecs that read a value back from the front of longer input. They are closed under pairs,
sums and lists, so that records are put together from their fields.
-/
namespace SelfDelimiting

open ByteCodecs

variable {α β : Type}

structure Codec (α : Type) where
  put : α → Bytes
  take : Bytes → Option (α × Bytes)
  take_put : ∀ a rest, take (put a ++ rest) = some (a, rest)

namespace Codec

def takeNumber : Bytes → Option (ℕ × Bytes)
  | [] => none
  | b :: rest => if b = 0 then some (0, rest) else (takeNumber rest).map fun r => (r.1 + 1, r.2)

/-- A number in unary, ended by a zero. -/
def number : Codec ℕ where
  put n := List.replicate n 1 ++ [0]
  take := takeNumber
  take_put := by
    intro n rest
    induction n with
    | zero => rfl
    | succ n ih =>
      rw [List.replicate_succ, List.cons_append, List.cons_append, takeNumber, if_neg (by decide),
        ih]
      rfl

def byte : Codec UInt8 where
  put b := [b]
  take
    | [] => none
    | b :: rest => some (b, rest)
  take_put := fun _ _ => rfl

def pair (first : Codec α) (second : Codec β) : Codec (α × β) where
  put p := first.put p.1 ++ second.put p.2
  take input := do
    let (a, rest) ← first.take input
    let (b, rest) ← second.take rest
    some ((a, b), rest)
  take_put := by
    intro p rest
    simp only [List.append_assoc, first.take_put, second.take_put, Option.bind_eq_bind,
      Option.bind_some]

/-- The codec chosen by a leading zero or one. -/
def sum (left : Codec α) (right : Codec β) : Codec (α ⊕ β) where
  put
    | .inl a => 0 :: left.put a
    | .inr b => 1 :: right.put b
  take
    | [] => none
    | tag :: rest =>
      if tag = 0 then (left.take rest).map fun r => (.inl r.1, r.2)
      else (right.take rest).map fun r => (.inr r.1, r.2)
  take_put := by
    intro s rest
    cases s with
    | inl a =>
      rw [List.cons_append]
      simp only [if_true, left.take_put, Option.map_some]
    | inr b =>
      rw [List.cons_append]
      simp only [if_neg (show ¬(1 : UInt8) = 0 by decide), right.take_put, Option.map_some]

def takeMany (item : Codec α) : ℕ → Bytes → Option (List α × Bytes)
  | 0, input => some ([], input)
  | n + 1, input => do
    let (a, rest) ← item.take input
    let (items, rest) ← takeMany item n rest
    some (a :: items, rest)

theorem takeMany_flatMap (item : Codec α) (items : List α) (rest : Bytes) :
    item.takeMany items.length (items.flatMap item.put ++ rest) = some (items, rest) := by
  induction items with
  | nil => rfl
  | cons a items ih =>
    simp only [List.length_cons, List.flatMap_cons, List.append_assoc, takeMany, item.take_put, ih,
      Option.bind_eq_bind, Option.bind_some]

def list (item : Codec α) : Codec (List α) where
  put items := number.put items.length ++ items.flatMap item.put
  take input := do
    let (n, rest) ← number.take input
    item.takeMany n rest
  take_put := by
    intro items rest
    rw [List.append_assoc, number.take_put, Option.bind_eq_bind, Option.bind_some]
    exact item.takeMany_flatMap items rest

/-- A type that is read through another one. -/
def through (codec : Codec α) (write : β → α) (read : α → β) (h : ∀ b, read (write b) = b) :
    Codec β where
  put b := codec.put (write b)
  take input := (codec.take input).map fun r => (read r.1, r.2)
  take_put := by
    intro b rest
    rw [codec.take_put, Option.map_some, h]

/-- Decode input that holds the value and nothing else. -/
def decodeComplete (codec : Codec α) (input : Bytes) : Option α :=
  match codec.take input with
  | some (a, []) => some a
  | _ => none

theorem decodeComplete_put (codec : Codec α) (a : α) : codec.decodeComplete (codec.put a) = some a := by
  have ht := codec.take_put a []
  rw [List.append_nil] at ht
  rw [decodeComplete, ht]

end Codec

end SelfDelimiting
