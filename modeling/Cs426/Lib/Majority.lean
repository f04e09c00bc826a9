import Mathlib.Data.List.Sort
import Mathlib.Data.List.GetD
import Mathlib.Order.Basic
import Mathlib.Data.Fintype.Card
import Mathlib.Data.List.OfFn
import Mathlib.Data.Fin.Basic

/-!
# Majorities of a list of acknowledgements

Each of `n` voters reports a value it has reached. `quorum` is the largest value that
more than half of the voters have reached: the element at position `n / 2` of the
reports in decreasing order.

## What is proved

* `le_quorum_iff` — `i ≤ quorum m` just when more than half of the reports are at
  least `i`.
* `countP_ofFn` — counting in the list of reports is counting voters.
-/

namespace Cs426.Majority

variable {α : Type*}

/-- Counting in the list of reports is counting voters. -/
theorem countP_ofFn {n : ℕ} (f : Fin n → α) (p : α → Bool) :
    (List.ofFn f).countP p = (Finset.univ.filter fun x => p (f x)).card := by
  rw [List.ofFn_eq_map, List.countP_map, ← List.toFinset_finRange, List.countP_eq_length_filter,
    ← List.toFinset_card_of_nodup ((List.nodup_finRange n).filter _)]
  congr 1
  ext x
  simp

variable [LinearOrder α]

/-- In a decreasing list, the element at `k` is at least `i` just when more than `k`
elements are. -/
theorem le_getElem_iff_lt_countP {l : List α} (hl : l.Pairwise (· ≥ ·)) (i : α) {k : ℕ} (hk : k < l.length) :
    i ≤ l[k] ↔ k < l.countP (fun a => decide (i ≤ a)) := by
  induction l generalizing k with
  | nil => simp at hk
  | cons a t ih =>
    obtain ⟨ha, ht⟩ := List.pairwise_cons.mp hl
    by_cases hia : i ≤ a
    · rw [List.countP_cons_of_pos (by simpa using hia)]
      cases k with
      | zero => simpa using hia
      | succ k =>
        simp only [List.getElem_cons_succ, Nat.add_lt_add_iff_right]
        exact ih ht (by simpa using hk)
    · -- everything after `a` is at most `a`, so nothing reaches `i`
      have hnone : t.countP (fun b => decide (i ≤ b)) = 0 := by
        rw [List.countP_eq_zero]
        intro b hb
        simpa using lt_of_le_of_lt (ha b hb) (not_le.mp hia)
      rw [List.countP_cons_of_neg (by simpa using hia), hnone]
      constructor
      · intro h
        exfalso
        have hmem : (a :: t)[k] ∈ a :: t := List.getElem_mem hk
        rcases List.mem_cons.mp hmem with heq | hmem
        · exact hia (heq ▸ h)
        · exact hia (h.trans (ha _ hmem))
      · intro h
        omega

/-- The largest value more than half of the reports have reached (`d` if there are no
reports). -/
def quorum (m : List α) (d : α) : α := (m.mergeSort (fun a b => decide (b ≤ a))).getD (m.length / 2) d

theorem le_quorum_iff {m : List α} (hm : m ≠ []) (d i : α) :
    i ≤ quorum m d ↔ m.length / 2 < m.countP (fun a => decide (i ≤ a)) := by
  have hpos := List.length_pos_iff.mpr hm
  have hsorted : (m.mergeSort (fun a b => decide (b ≤ a))).Pairwise (· ≥ ·) := by
    have := @List.pairwise_mergeSort α (fun a b => decide (b ≤ a))
      (fun a b c hab hbc => by simp only [decide_eq_true_eq] at *; exact hbc.trans hab)
      (fun a b => by simpa using le_total b a) m
    simpa using this
  have hperm := List.mergeSort_perm m (fun a b => decide (b ≤ a))
  have hlt : m.length / 2 < (m.mergeSort (fun a b => decide (b ≤ a))).length := by
    rw [List.length_mergeSort]
    omega
  rw [quorum, List.getD_eq_getElem _ _ hlt, le_getElem_iff_lt_countP hsorted i hlt, hperm.countP_eq]

end Cs426.Majority
