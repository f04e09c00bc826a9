import Mathlib.Data.Int.Order.Basic
import Mathlib.Tactic.Common

/-!
# Asking in batches

A list of ids is sent to a service in slices of a given size, one call after the other; the
answers are collected until one of the calls fails. `batchLoop` is that loop as it is
usually written, with an offset that moves by the size of a batch; the `k`-th call may
answer as it likes. A slice that ends before it starts is a panic and answers `none`, as
does a loop that takes more turns than its fuel.

## What is proved

* `batchLoop_isSome`, `batchLoop_of_some` — with a positive size the loop ends, within as many
  turns as there are ids.
* `batchLoop_rel`, `batchLoop_eq_map` — a loop in which no call failed has collected what was
  asked for, in order, whatever the size.
* `batchLoop_err_eq_none_iff` — the loop meets no error if and only if the calls it makes all
  succeed.
* `isBatch_of_mem_sent` — with a positive size, every call is about a batch: some ids in a row,
  at most as many as the size.
* `batchLoop_congr` — nothing but the answers to these calls matters.
* `batchLoop_eq_answer` — if a call answers for its batch what one call for all ids would
  answer for that part, the loop comes to what that one call would answer.
-/

namespace Cs426.Batches

variable {α β ε : Type*}

/-- The slice `ids[offset:upper]`. -/
def slice (ids : List α) (offset upper : ℤ) : List α := (ids.take upper.toNat).drop offset.toNat

/-- The loop from `offset` on, with `k` calls made and `acc` collected: everything collected
until a call fails, and that call's error. -/
def batchLoop (size : ℤ) (call : ℕ → List α → Except ε (List β)) (ids : List α) :
    ℕ → ℤ → ℕ → List β → Option (List β × Option ε)
  | 0, _, _, _ => none
  | fuel + 1, offset, k, acc =>
    if offset < ids.length then
      let upper := min (offset + size) ids.length
      if upper < offset then none
      else
        match call k (slice ids offset upper) with
        | .error err => some (acc, some err)
        | .ok found => batchLoop size call ids fuel (offset + size) (k + 1) (acc ++ found)
    else some (acc, none)

/-- The calls that the loop makes, each with its number and its batch. -/
def sent (size : ℤ) (call : ℕ → List α → Except ε (List β)) (ids : List α) : ℕ → ℤ → ℕ → List (ℕ × List α)
  | 0, _, _ => []
  | fuel + 1, offset, k =>
    if offset < ids.length then
      let upper := min (offset + size) ids.length
      if upper < offset then []
      else
        (k, slice ids offset upper) ::
          match call k (slice ids offset upper) with
          | .error _ => []
          | .ok _ => sent size call ids fuel (offset + size) (k + 1)
    else []

/-- What a loop that has ended comes to: what was collected, or the error. -/
def collected : List β × Option ε → Except ε (List β)
  | (found, none) => .ok found
  | (_, some err) => .error err

/-- A batch of the ids. -/
structure IsBatch (size : ℤ) (ids batch : List α) : Prop where
  ne_nil : batch ≠ []
  length_le : batch.length ≤ size
  isInfix : batch <:+: ids

/-- A slice and what follows it. -/
theorem slice_append_drop (ids : List α) {offset upper : ℤ} (h0 : 0 ≤ offset) (h : offset ≤ upper)
    (hle : upper ≤ ids.length) : slice ids offset upper ++ ids.drop upper.toNat = ids.drop offset.toNat := by
  have hsplit : ids.drop offset.toNat = (ids.take upper.toNat ++ ids.drop upper.toNat).drop offset.toNat := by
    rw [List.take_append_drop]
  rw [hsplit, List.drop_append_of_le_length (by rw [List.length_take]; omega), slice]

variable {size : ℤ} {call : ℕ → List α → Except ε (List β)} {ids : List α}

/-- With a positive size, as many turns as there are ids left, and one more, are enough. -/
theorem batchLoop_isSome (hsize : 1 ≤ size) {fuel : ℕ} {offset : ℤ} (k : ℕ) (acc : List β)
    (hfuel : (ids.length - offset).toNat < fuel) : (batchLoop size call ids fuel offset k acc).isSome = true := by
  induction fuel generalizing offset k acc with
  | zero => exact absurd hfuel (Nat.not_lt_zero _)
  | succ fuel ih =>
    unfold batchLoop
    split_ifs with hlt
    · simp only
      rw [if_neg (by omega)]
      cases call k (slice ids offset (min (offset + size) ids.length)) with
      | error err => rfl
      | ok found => exact ih (k + 1) (acc ++ found) (by omega)
    · rfl

/-- More fuel does not change what a loop that has ended comes to. -/
theorem batchLoop_mono {fuel fuel' : ℕ} (hle : fuel ≤ fuel') {offset : ℤ} {k : ℕ} {acc : List β}
    {r : List β × Option ε} (h : batchLoop size call ids fuel offset k acc = some r) :
    batchLoop size call ids fuel' offset k acc = some r := by
  induction fuel generalizing fuel' offset k acc with
  | zero => cases h
  | succ fuel ih =>
    obtain ⟨fuel', rfl⟩ : ∃ n, fuel' = n + 1 := ⟨fuel' - 1, by omega⟩
    unfold batchLoop at h ⊢
    split_ifs at h ⊢ with hlt
    · simp only at h ⊢
      split_ifs at h ⊢ with hupper
      cases hans : call k (slice ids offset (min (offset + size) ids.length)) with
      | error err => simpa [hans] using h
      | ok found =>
        rw [hans] at h
        exact ih (by omega) h
    · exact h

/-- What a loop that has ended comes to, it comes to within as many turns as there are ids. -/
theorem batchLoop_of_some (hsize : 1 ≤ size) {fuel : ℕ} {r : List β × Option ε}
    (h : batchLoop size call ids fuel 0 0 [] = some r) : batchLoop size call ids (ids.length + 1) 0 0 [] = some r := by
  have hsome : (batchLoop size call ids (ids.length + 1) 0 0 []).isSome = true := batchLoop_isSome hsize 0 [] (by simp)
  obtain ⟨r', hr'⟩ := Option.isSome_iff_exists.mp hsome
  have hmore := batchLoop_mono (Nat.le_add_right (ids.length + 1) fuel) hr'
  rw [batchLoop_mono (Nat.le_add_left fuel (ids.length + 1)) h] at hmore
  rw [hr', hmore]

/-- A batch and what the next turns are about. -/
theorem slice_append_drop_next (ids : List α) {offset size : ℤ} (h0 : 0 ≤ offset) (hsize : 0 ≤ size)
    (hlt : offset < ids.length) : slice ids offset (min (offset + size) ids.length) ++
      ids.drop (offset + size).toNat = ids.drop offset.toNat := by
  rw [← slice_append_drop ids h0 (show offset ≤ min (offset + size) ids.length by omega) (by omega)]
  -- past the end of the list nothing is left to drop
  by_cases hle : offset + size ≤ ids.length
  · rw [min_eq_left hle]
  · rw [List.drop_eq_nil_of_le (by omega), List.drop_eq_nil_of_le (by omega)]

/-- **Batches are invisible**: if every answer is related to the ids asked for, by a relation
that can be put together from parts, then what a loop that met no error has collected is
related to all of them. -/
theorem batchLoop_rel {R : List α → List β → Prop} (hnil : R [] [])
    (happend : ∀ {xs ys xs' ys'}, R xs ys → R xs' ys' → R (xs ++ xs') (ys ++ ys')) {fuel : ℕ} {offset : ℤ} {k : ℕ}
    {acc found : List β} (hcall : ∀ c ∈ sent size call ids fuel offset k, ∀ vs, call c.1 c.2 = .ok vs → R c.2 vs)
    (h0 : 0 ≤ offset) (h : batchLoop size call ids fuel offset k acc = some (found, none)) :
    ∃ rest, found = acc ++ rest ∧ R (ids.drop offset.toNat) rest := by
  induction fuel generalizing offset k acc with
  | zero => cases h
  | succ fuel ih =>
    unfold batchLoop at h
    unfold sent at hcall
    split_ifs at h with hlt
    · simp only [if_pos hlt] at h hcall
      split_ifs at h with hupper
      rw [if_neg hupper] at hcall
      cases hans : call k (slice ids offset (min (offset + size) ids.length)) with
      | error err => simp [hans] at h
      | ok vs =>
        rw [hans] at h hcall
        obtain ⟨hfirst, hcall⟩ := List.forall_mem_cons.mp hcall
        obtain ⟨rest, rfl, hrest⟩ := ih hcall (by omega) h
        refine ⟨vs ++ rest, List.append_assoc .., ?_⟩
        rw [← slice_append_drop_next ids h0 (show 0 ≤ size by omega) hlt]
        exact happend (hfirst vs hans) hrest
    · obtain rfl : acc = found := by simpa using h
      refine ⟨[], (List.append_nil _).symm, ?_⟩
      rwa [List.drop_eq_nil_of_le (by omega)]

/-- Where every answer lists what `f` says about the ids asked for, so does the whole. -/
theorem batchLoop_eq_map {f : α → β} {fuel : ℕ} {offset : ℤ} {k : ℕ} {acc found : List β}
    (hcall : ∀ c ∈ sent size call ids fuel offset k, ∀ vs, call c.1 c.2 = .ok vs → vs = c.2.map f) (h0 : 0 ≤ offset)
    (h : batchLoop size call ids fuel offset k acc = some (found, none)) :
    found = acc ++ (ids.drop offset.toNat).map f := by
  obtain ⟨rest, rfl, rfl⟩ := batchLoop_rel (R := fun xs found => found = xs.map f) rfl
    (fun hxs hys => by rw [hxs, hys, List.map_append]) hcall h0 h
  rfl

/-- The loop meets no error if and only if the calls it makes all succeed. -/
theorem batchLoop_err_eq_none_iff {fuel : ℕ} {offset : ℤ} {k : ℕ} {acc found : List β} {err : Option ε}
    (h : batchLoop size call ids fuel offset k acc = some (found, err)) :
    err = none ↔ ∀ c ∈ sent size call ids fuel offset k, (call c.1 c.2).isOk = true := by
  induction fuel generalizing offset k acc with
  | zero => cases h
  | succ fuel ih =>
    unfold batchLoop at h
    unfold sent
    split_ifs at h ⊢ with hlt
    · simp only at h ⊢
      split_ifs at h ⊢ with hupper
      rw [List.forall_mem_cons]
      cases hans : call k (slice ids offset (min (offset + size) ids.length)) with
      | error e =>
        obtain ⟨-, rfl⟩ : acc = found ∧ some e = err := by simpa [hans] using h
        simp [Except.isOk, Except.toBool]
      | ok vs =>
        rw [hans] at h
        rw [ih h]
        simp [Except.isOk, Except.toBool]
    · obtain ⟨-, rfl⟩ : acc = found ∧ none = err := by simpa using h
      simp

/-- With a positive size, the slice of a turn is a batch. -/
theorem isBatch_slice (hsize : 1 ≤ size) {offset : ℤ} (h0 : 0 ≤ offset) (hlt : offset < ids.length) :
    IsBatch size ids (slice ids offset (min (offset + size) ids.length)) := by
  have hlength : (slice ids offset (min (offset + size) ids.length)).length =
      (min (offset + size) ids.length).toNat - offset.toNat := by
    rw [slice, List.length_drop, List.length_take]
    omega
  refine ⟨fun hnil => ?_, by rw [hlength]; omega, ?_⟩
  · rw [hnil, List.length_nil] at hlength
    omega
  · exact (List.drop_suffix _ _).isInfix.trans (List.take_prefix _ _).isInfix

theorem isBatch_of_mem_sent (hsize : 1 ≤ size) {fuel : ℕ} {offset : ℤ} {k : ℕ} (h0 : 0 ≤ offset)
    {c : ℕ × List α} (h : c ∈ sent size call ids fuel offset k) : IsBatch size ids c.2 := by
  induction fuel generalizing offset k with
  | zero => cases h
  | succ fuel ih =>
    unfold sent at h
    split_ifs at h with hlt
    · simp only at h
      split_ifs at h
      · cases h
      · rcases List.mem_cons.mp h with rfl | h
        · exact isBatch_slice hsize h0 hlt
        · split at h
          · cases h
          · exact ih (by omega) h
    · cases h

/-- Answers to calls that are not made do not matter. -/
theorem batchLoop_congr {call' : ℕ → List α → Except ε (List β)} {fuel : ℕ} {offset : ℤ} {k : ℕ} {acc : List β}
    (h : ∀ c ∈ sent size call ids fuel offset k, call' c.1 c.2 = call c.1 c.2) :
    batchLoop size call' ids fuel offset k acc = batchLoop size call ids fuel offset k acc := by
  induction fuel generalizing offset k acc with
  | zero => rfl
  | succ fuel ih =>
    unfold sent at h
    unfold batchLoop
    by_cases hlt : offset < ids.length
    · simp only [if_pos hlt] at h ⊢
      by_cases hupper : min (offset + size) ids.length < offset
      · rw [if_pos hupper, if_pos hupper]
      · rw [if_neg hupper] at h
        rw [if_neg hupper, if_neg hupper, h _ (List.mem_cons_self ..)]
        cases hans : call k (slice ids offset (min (offset + size) ids.length)) with
        | error err => rfl
        | ok found =>
          rw [hans] at h
          exact ih fun c hc => h c (List.mem_cons_of_mem _ hc)
    · rw [if_neg hlt, if_neg hlt]

/-- The whole loop in terms of one call for all that is left, which answers as the calls for
its parts do, one after the other. -/
theorem batchLoop_eq_answer (hsize : 1 ≤ size) {answer : List α → Except ε (List β)} (hnil : answer [] = .ok [])
    (happend : ∀ xs ys, answer (xs ++ ys) = (answer xs).bind fun found => (answer ys).map (found ++ ·))
    (hcall : ∀ k xs, IsBatch size ids xs → call k xs = answer xs) {fuel : ℕ} {offset : ℤ} (k : ℕ) (acc : List β)
    (h0 : 0 ≤ offset) (hfuel : (ids.length - offset).toNat < fuel) :
    (batchLoop size call ids fuel offset k acc).map collected =
      some ((answer (ids.drop offset.toNat)).map (acc ++ ·)) := by
  induction fuel generalizing offset k acc with
  | zero => exact absurd hfuel (Nat.not_lt_zero _)
  | succ fuel ih =>
    unfold batchLoop
    by_cases hlt : offset < ids.length
    · simp only [if_pos hlt]
      rw [if_neg (by omega), hcall k _ (isBatch_slice hsize h0 hlt),
        ← slice_append_drop_next ids h0 (show 0 ≤ size by omega) hlt, happend]
      cases answer (slice ids offset (min (offset + size) ids.length)) with
      | error err => rfl
      | ok found =>
        simp only [Except.bind]
        rw [ih (k + 1) (acc ++ found) (by omega) (by omega)]
        cases answer (ids.drop (offset + size).toNat) with
        | error err => rfl
        | ok rest => simp [Except.map]
    · rw [if_neg hlt, List.drop_eq_nil_of_le (by omega), hnil]
      simp [collected, Except.map]

end Cs426.Batches
