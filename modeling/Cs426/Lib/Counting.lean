import Mathlib.Algebra.Order.BigOperators.Group.List
import Mathlib.Algebra.Order.Ring.Int
import Mathlib.Data.List.Forall2
import Mathlib.Tactic.Common

/-!
# Counting over the threads of a system

The threads of a system are a list, one of which moves at a time; what they have
contributed to a counter is a sum over that list.

## What is proved

* `sum_map_set`, `countP_set_add`, `countP_set_of_eq` — what a sum and a count gain when one thread moves.
* `sum_map_eq_countP` — a sum of ones and zeros counts the ones.
* `forall_of_countP_le` — if no more are counted of a kind than of a narrower one, the two are the
  same.
* `getElem?_set_cases`, `getElem?_concat_cases` — a thread after one has moved, or a new one has
  come, is that one, or as it was.
* `mem_set_of_ne` — a thread that is not the one that moved is still there.
* `forall₂_getElem?`, `forall₂_set` — threads that each belong to an entry of another list still do
  when one of them moves.
* `toNat_add_ofNat`, `int64_ofNat_inj` — counters of 64 bits, below the point where they wrap around.
-/

namespace Cs426.Counting

variable {α : Type*} {l : List α} {i : ℕ} {a : α}

/-- Looking into a list after one element was replaced. -/
theorem getElem?_set_cases {j : ℕ} {b : α} (h : (l.set i a)[j]? = some b) :
    j ≠ i ∧ l[j]? = some b ∨ j = i ∧ b = a := by
  by_cases hij : j = i
  · subst hij
    have hlt : j < l.length := by simpa using (List.getElem?_eq_some_iff.mp h).1
    rw [List.getElem?_set_self hlt, Option.some.injEq] at h
    exact .inr ⟨rfl, h.symm⟩
  · rw [List.getElem?_set_ne (Ne.symm hij)] at h
    exact .inl ⟨hij, h⟩

/-- Looking into a list after one element was appended. -/
theorem getElem?_concat_cases {j : ℕ} {b : α} (h : (l ++ [a])[j]? = some b) : l[j]? = some b ∨ b = a := by
  by_cases hlt : j < l.length
  · rw [List.getElem?_append_left hlt] at h
    exact .inl h
  · rw [List.getElem?_append_right (not_lt.mp hlt)] at h
    exact .inr (by simpa using List.mem_of_getElem? h)

theorem mem_set_of_ne {b c : α} (hb : b ∈ l) (hi : l[i]? = some a) (hne : b ≠ a) : b ∈ l.set i c := by
  obtain ⟨k, hk⟩ := List.getElem?_of_mem hb
  have hki : k ≠ i := by
    rintro rfl
    exact hne (Option.some.inj (hk.symm.trans hi))
  exact List.mem_of_getElem? ((List.getElem?_set_ne hki.symm).trans hk)

section Forall₂

variable {β : Type*} {R : β → α → Prop} {xs : List β}

theorem forall₂_getElem? (h : List.Forall₂ R xs l) (hi : l[i]? = some a) : ∃ x, xs[i]? = some x ∧ R x a := by
  induction h generalizing i with
  | nil => simp at hi
  | @cons x b xs l hxb _ ih =>
    cases i with
    | zero =>
      obtain rfl : b = a := by simpa using hi
      exact ⟨x, rfl, hxb⟩
    | succ i => exact ih hi

theorem forall₂_set (h : List.Forall₂ R xs l) {b : α} (hi : l[i]? = some a) (hset : ∀ x ∈ xs, R x a → R x b) :
    List.Forall₂ R xs (l.set i b) := by
  induction h generalizing i with
  | nil => simp
  | @cons x c xs l hxc hrest ih =>
    cases i with
    | zero =>
      obtain rfl : c = a := by simpa using hi
      exact .cons (hset x (List.mem_cons_self ..) hxc) hrest
    | succ i => exact .cons hxc (ih hi fun x hx => hset x (List.mem_cons_of_mem _ hx))

end Forall₂

/-- Replacing one element of a list changes a sum over it by the difference. -/
theorem sum_map_set {M : Type*} [AddCommMonoid M] (w : α → M) (h : l[i]? = some a) (b : α) :
    ((l.set i b).map w).sum + w a = (l.map w).sum + w b := by
  induction l generalizing i with
  | nil => cases h
  | cons x l ih =>
    cases i with
    | zero =>
      obtain rfl : x = a := by simpa using h
      simp only [List.set_cons_zero, List.map_cons, List.sum_cons]
      rw [add_right_comm, add_comm (w b), add_right_comm]
    | succ i =>
      have hrest := ih (i := i) (by simpa using h)
      rw [List.set_cons_succ, List.map_cons, List.sum_cons, add_assoc, hrest, List.map_cons, List.sum_cons, add_assoc]

/-- A sum of ones and zeros counts the ones. -/
theorem sum_map_eq_countP {w : α → ℤ} {p : α → Bool} (h : ∀ a ∈ l, w a = if p a then 1 else 0) :
    (l.map w).sum = l.countP p := by
  induction l with
  | nil => rfl
  | cons a l ih =>
    have hrest := ih fun b hb => h b (List.mem_cons_of_mem _ hb)
    have ha := h a (List.mem_cons_self ..)
    rw [List.map_cons, List.sum_cons, hrest, ha]
    by_cases hp : p a = true
    · rw [List.countP_cons_of_pos hp, if_pos hp]
      omega
    · rw [List.countP_cons_of_neg hp, if_neg hp]
      omega

/-- Replacing one element of a list changes a count over it by the difference. -/
theorem countP_set_add (p : α → Bool) (h : l[i]? = some a) (b : α) :
    (l.set i b).countP p + (p a).toNat = l.countP p + (p b).toNat := by
  have hsum := sum_map_set (fun x => ((p x).toNat : ℤ)) h b
  have hcount (l : List α) : (l.map fun x => ((p x).toNat : ℤ)).sum = l.countP p :=
    sum_map_eq_countP fun x _ => by cases p x <;> rfl
  rw [hcount, hcount] at hsum
  omega

/-- A count does not see a move between elements that count alike. -/
theorem countP_set_of_eq (p : α → Bool) (h : l[i]? = some a) (b : α) (hp : p b = p a) :
    (l.set i b).countP p = l.countP p := by
  have hset := countP_set_add p h b
  rw [hp] at hset
  exact Nat.add_right_cancel hset

theorem forall_of_countP_le {p q : α → Bool} (hpq : ∀ x ∈ l, p x = true → q x = true) (h : l.countP q ≤ l.countP p) :
    ∀ x ∈ l, q x = true → p x = true := by
  induction l with
  | nil => exact fun _ hx => absurd hx List.not_mem_nil
  | cons a l ih =>
    obtain ⟨ha, hl⟩ := List.forall_mem_cons.mp hpq
    have hle := List.countP_mono_left hl
    rw [List.countP_cons, List.countP_cons] at h
    refine List.forall_mem_cons.mpr ⟨fun hq => ?_, ih hl ?_⟩
    · by_contra hp
      rw [if_pos hq, if_neg hp] at h
      omega
    · split_ifs at h with hq hp hp
      · omega
      · omega
      · exact absurd (ha hp) hq
      · omega

/-! ### Counters of 64 bits -/

/-- A counter that does not wrap around. -/
theorem toNat_add_ofNat {x : UInt64} {n : ℕ} (h : x.toNat + n < 2 ^ 64) :
    (x + UInt64.ofNat n).toNat = x.toNat + n := by
  rw [UInt64.toNat_add, UInt64.toNat_ofNat', Nat.add_mod_mod, Nat.mod_eq_of_lt h]

/-- Counts that are the same in 64 bits are the same. -/
theorem int64_ofNat_inj {m n : ℕ} (hm : m < 2 ^ 64) (hn : n < 2 ^ 64) (h : Int64.ofNat m = Int64.ofNat n) : m = n := by
  have hbits := congrArg (fun x => x.toBitVec.toNat) h
  simp only [Int64.toBitVec_ofNat', BitVec.toNat_ofNat, Nat.mod_eq_of_lt hm, Nat.mod_eq_of_lt hn] at hbits
  exact hbits

end Cs426.Counting
