import Mathlib.Algebra.BigOperators.Group.Finset.Basic
import Mathlib.Algebra.Order.BigOperators.Group.Finset

/-!
# A total that is shared out

A finite number of holders, each with a share, and the total of the shares. The operations keep
the total in step with the shares, so a holder's share can always be taken off the total.
-/
namespace SharedLedger

variable {κ : Type} [DecidableEq κ]

/-- The total is the sum of the shares. -/
structure Ledger (κ : Type) where
  holders : Finset κ
  share : κ → ℕ
  total : ℕ
  balanced : total = ∑ k ∈ holders, share k

namespace Ledger

variable (L : Ledger κ) {k : κ} {n : ℕ}

def empty (share : κ → ℕ) : Ledger κ := ⟨∅, share, 0, rfl⟩

omit [DecidableEq κ] in
theorem share_le_total (hk : k ∈ L.holders) : L.share k ≤ L.total := by
  rw [L.balanced]
  exact Finset.single_le_sum (fun _ _ => Nat.zero_le _) hk

def enrol (k : κ) (n : ℕ) (hk : k ∉ L.holders) : Ledger κ where
  holders := insert k L.holders
  share := Function.update L.share k n
  total := L.total + n
  balanced := by
    have hothers : ∑ j ∈ L.holders, Function.update L.share k n j = ∑ j ∈ L.holders, L.share j :=
      Finset.sum_congr rfl fun j hj =>
        Function.update_of_ne (ne_of_mem_of_not_mem hj hk) n L.share
    rw [Finset.sum_insert hk, Function.update_self, hothers, L.balanced, Nat.add_comm]

def adjust (k : κ) (n : ℕ) (hk : k ∈ L.holders) : Ledger κ where
  holders := L.holders
  share := Function.update L.share k n
  total := L.total - L.share k + n
  balanced := by
    have hsplit := Finset.add_sum_erase L.holders L.share hk
    have hothers : ∑ j ∈ L.holders.erase k, Function.update L.share k n j =
        ∑ j ∈ L.holders.erase k, L.share j :=
      Finset.sum_congr rfl fun j hj => Function.update_of_ne (Finset.ne_of_mem_erase hj) n L.share
    rw [← Finset.add_sum_erase L.holders _ hk, Function.update_self, hothers, L.balanced]
    omega

def retire (k : κ) (hk : k ∈ L.holders) : Ledger κ where
  holders := L.holders.erase k
  share := L.share
  total := L.total - L.share k
  balanced := by
    have hsplit := Finset.add_sum_erase L.holders L.share hk
    rw [L.balanced]
    omega

end Ledger

/-- A set of holders, their shares and a total kept elsewhere, as a ledger has them. -/
structure Records (L : Ledger κ) (holders : Finset κ) (share : κ → ℕ) (total : ℕ) : Prop where
  holders_eq : L.holders = holders
  share_eq : L.share = share
  total_eq : L.total = total

namespace Records

variable {L : Ledger κ} {holders : Finset κ} {share : κ → ℕ} {total : ℕ} {k : κ}

omit [DecidableEq κ] in
theorem empty : Records (.empty share) ∅ share 0 := ⟨rfl, rfl, rfl⟩

section

variable (h : Records L holders share total)
include h

omit [DecidableEq κ] in
theorem balanced : total = ∑ k ∈ holders, share k := by
  rw [← h.total_eq, ← h.holders_eq, ← h.share_eq]
  exact L.balanced

omit [DecidableEq κ] in
theorem share_le (hk : k ∈ holders) : share k ≤ total := by
  rw [← h.total_eq, ← h.share_eq]
  exact L.share_le_total (h.holders_eq ▸ hk)

theorem enrol (hk : k ∉ holders) (n : ℕ) :
    ∃ L', Records L' (insert k holders) (Function.update share k n) (total + n) := by
  obtain ⟨rfl, rfl, rfl⟩ := h
  exact ⟨L.enrol k n hk, rfl, rfl, rfl⟩

theorem adjust (hk : k ∈ holders) (n total' : ℕ) (ht : total' + share k = total + n) :
    ∃ L', Records L' holders (Function.update share k n) total' := by
  have hle := h.share_le hk
  obtain ⟨rfl, rfl, rfl⟩ := h
  refine ⟨L.adjust k n hk, rfl, rfl, ?_⟩
  change L.total - L.share k + n = total'
  omega

theorem retire (hk : k ∈ holders) : ∃ L', Records L' (holders.erase k) share (total - share k) := by
  obtain ⟨rfl, rfl, rfl⟩ := h
  exact ⟨L.retire k hk, rfl, rfl, rfl⟩

end

end Records

end SharedLedger
