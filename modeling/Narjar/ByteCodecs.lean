import Mathlib.Data.List.Basic
import Mathlib.Tactic.Common
import Mathlib.Tactic.Ring

/-!
# Byte strings

Little-endian words and length-prefixed, zero-padded strings, with the lemmas that
invert them on the front of a longer byte string.
-/
namespace ByteCodecs

abbrev Bytes := List UInt8

/-- The low `k` bytes of `n`, least significant first. -/
def leBytes : ℕ → ℕ → Bytes
  | 0, _ => []
  | k + 1, n => UInt8.ofNat (n % 256) :: leBytes k (n / 256)

def leValue : Bytes → ℕ
  | [] => 0
  | b :: bs => b.toNat + 256 * leValue bs

@[simp] theorem length_leBytes (k n : ℕ) : (leBytes k n).length = k := by
  induction k generalizing n with
  | zero => rfl
  | succ k ih => simp [leBytes, ih]

theorem leValue_lt (bs : Bytes) : leValue bs < 256 ^ bs.length := by
  induction bs with
  | nil => simp [leValue]
  | cons b bs ih =>
    have hb := b.toNat_lt
    simp only [leValue, List.length_cons, pow_succ]
    omega

theorem leValue_leBytes (k n : ℕ) (h : n < 256 ^ k) : leValue (leBytes k n) = n := by
  induction k generalizing n with
  | zero =>
    simp only [pow_zero] at h
    simp only [leBytes, leValue]
    omega
  | succ k ih =>
    rw [pow_succ] at h
    simp only [leBytes, leValue]
    rw [ih (n / 256) (by omega)]
    have hm : (UInt8.ofNat (n % 256)).toNat = n % 256 := by simp
    rw [hm]
    omega

theorem leBytes_leValue (bs : Bytes) : leBytes bs.length (leValue bs) = bs := by
  induction bs with
  | nil => rfl
  | cons b bs ih =>
    have hb := b.toNat_lt
    have hm : (b.toNat + 256 * leValue bs) % 256 = b.toNat := by omega
    have hd : (b.toNat + 256 * leValue bs) / 256 = leValue bs := by omega
    simp only [List.length_cons, leBytes, leValue, hm, hd, ih, UInt8.ofNat_toNat]

def padLength (n : ℕ) : ℕ := (8 - n % 8) % 8

def padding (n : ℕ) : Bytes := List.replicate (padLength n) 0

@[simp] theorem length_padding (n : ℕ) : (padding n).length = padLength n := by
  simp [padding]

/-- A string in the stream: eight length bytes, the string, zeros to a multiple of eight. -/
def paddedString (s : Bytes) : Bytes := leBytes 8 s.length ++ s ++ padding s.length

@[simp] theorem length_paddedString (s : Bytes) :
    (paddedString s).length = 8 + s.length + padLength s.length := by
  simp only [paddedString, List.length_append, length_leBytes, length_padding]

theorem eq_padding_iff :
    bs = padding n ↔ bs.length = padLength n ∧ ∀ b ∈ bs, b = 0 := by
  rw [padding, List.eq_replicate_iff]

end ByteCodecs
