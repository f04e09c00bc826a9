import Mathlib.Algebra.Order.Ring.Int
import Mathlib.Data.Int.CardIntervalMod
import Mathlib.Data.List.Dedup
import Mathlib.Tactic.Common

/-!
# Taking turns

A counter goes up by one with each turn, and its remainder says whose turn it is. `stripe n c r`
are the `n` members' turns from `c` on, `r` of them.

## What is proved

* `nodup_stripe_iff` — nobody has two of `r` turns in a row exactly if `r ≤ n`.
* `count_stripe_le` — after any number of turns, no two members have had numbers of turns that
  differ by more than one.
-/

namespace Cs426.Striping

/-- Whose turn it is, from the turn `c` on, for `r` turns. -/
def stripe (n c r : ℕ) : List ℕ := (List.range' c r).map (· % n)

variable {n c r : ℕ}

@[simp] theorem length_stripe : (stripe n c r).length = r := by
  simp [stripe]

theorem stripe_succ : stripe n c (r + 1) = stripe n c r ++ [(c + r) % n] := by
  unfold stripe
  rw [List.range'_concat, List.map_append, Nat.one_mul, List.map_singleton]

theorem stripe_cons : stripe n c (r + 1) = c % n :: stripe n (c + 1) r := rfl

theorem stripe_append (r' : ℕ) : stripe n c r ++ stripe n (c + r) r' = stripe n c (r + r') := by
  unfold stripe
  rw [← List.map_append, List.range'_append_1]

theorem lt_of_mem_stripe (hn : 0 < n) {j : ℕ} (h : j ∈ stripe n c r) : j < n := by
  obtain ⟨i, -, rfl⟩ := List.mem_map.mp h
  exact Nat.mod_lt i hn

theorem nodup_stripe_iff (hn : 0 < n) : (stripe n c r).Nodup ↔ r ≤ n := by
  constructor
  · intro h
    have hsub : stripe n c r ⊆ List.range n := by
      intro j hj
      exact List.mem_range.mpr (lt_of_mem_stripe hn hj)
    simpa using (h.subperm hsub).length_le
  · intro h
    refine List.Nodup.map_on ?_ List.nodup_range'
    intro x hx y hy hxy
    rw [List.mem_range'_1] at hx hy
    -- two turns of one member are a multiple of `n` apart
    wlog hle : x ≤ y with hsymm
    · exact (hsymm hn h y hy x hx hxy.symm (by omega)).symm
    have hdvd : n ∣ y - x := (Nat.modEq_iff_dvd' hle).mp hxy
    have hzero := Nat.eq_zero_of_dvd_of_lt hdvd (by omega)
    omega

theorem count_stripe_eq_count (j : ℕ) (hj : j < n) :
    (stripe n 0 r).count j = Nat.count (fun i => i ≡ j [MOD n]) r := by
  induction r with
  | zero => rfl
  | succ r ih =>
    rw [stripe_succ, List.count_append, ih, Nat.count_succ, Nat.zero_add, List.count_singleton]
    have hmod : r ≡ j [MOD n] ↔ r % n = j := by
      unfold Nat.ModEq
      rw [Nat.mod_eq_of_lt hj]
    simp [hmod]

theorem count_stripe {j : ℕ} (hj : j < n) :
    (stripe n 0 r).count j = r / n + if j < r % n then 1 else 0 := by
  rw [count_stripe_eq_count j hj, Nat.count_modEq_card r (by omega), Nat.mod_eq_of_lt hj]

/-- **Turns are shared out evenly.** -/
theorem count_stripe_le {i j : ℕ} (hi : i < n) (hj : j < n) :
    (stripe n 0 r).count i ≤ (stripe n 0 r).count j + 1 := by
  rw [count_stripe hi, count_stripe hj]
  split_ifs <;> omega

end Cs426.Striping
