import Mathlib.Data.List.Basic
import Mathlib.Data.List.TakeDrop
import Mathlib.Tactic.Common

/-!
# Logs that match

A replicated log is a list whose entries carry a key, the term in which the entry was
made. Two logs match when entries with the same key at the same index have the same
history. The usual reason for logs to match is that every entry of a key `t` was copied,
with everything before it, from one log `owner t` that only grows: such a log is
`Attributed` to the owners.

## What is proved

* `Attributed.matching` — logs attributed to the same owners match.
* `Matching.splice` — cutting a log at an entry it shares with a log it matches, and
  putting that log's tail after it, gives that log.
* `Attributed.update_append`, `Attributed.update_new` — an owner grows, or a new key
  gets an owner, and what was attributed stays attributed.
* `Attributed.isPrefix_of_last`, `Attributed.key_le` — attributed logs that end with one
  key begin alike, and when no owner has a larger key than its own, keys never go down.
-/

namespace Cs426.Logs

variable {α β : Type*} (key : α → β)

/-- Wherever the two logs have entries with one key at one index, they are the same up
to that index and at it. -/
def Matching (l l' : List α) : Prop :=
  ∀ (i : ℕ) (a b : α), l[i]? = some a → l'[i]? = some b → key a = key b →
    l.take (i + 1) = l'.take (i + 1)

/-- Every entry of `l` was copied, with its history, from the owner of its key. -/
def Attributed (owner : β → List α) (l : List α) : Prop :=
  ∀ (i : ℕ) (a : α), l[i]? = some a → l.take (i + 1) = (owner (key a)).take (i + 1)

variable {key}

theorem Matching.symm {l l' : List α} (h : Matching key l l') : Matching key l' l :=
  fun i a b ha hb hab => (h i b a hb ha hab.symm).symm

/-- An entry at `i` and what the log is up to it determine each other. -/
theorem getElem?_of_take_eq {l l' : List α} {i j : ℕ} (h : l.take (i + 1) = l'.take (i + 1)) (hj : j ≤ i) :
    l[j]? = l'[j]? := by
  rw [← List.getElem?_take_of_lt (show j < i + 1 by omega), h,
    List.getElem?_take_of_lt (show j < i + 1 by omega)]

theorem getElem?_of_isPrefix {l l' : List α} (h : l <+: l') {i : ℕ} (hi : i < l.length) : l[i]? = l'[i]? := by
  rw [List.prefix_iff_getElem?.mp h i hi, List.getElem?_eq_getElem hi]

theorem length_le_of_take_eq {l l' : List α} {i : ℕ} {a : α} (h : l.take (i + 1) = l'.take (i + 1))
    (ha : l[i]? = some a) : i + 1 ≤ l'.length := by
  rw [getElem?_of_take_eq h (Nat.le_refl i)] at ha
  exact (List.getElem?_eq_some_iff.mp ha).1

theorem Matching.splice {l l' : List α} (h : Matching key l l') {p : ℕ} {a b : α} (ha : l[p]? = some a)
    (hb : l'[p]? = some b) (hab : key a = key b) : l.take (p + 1) ++ l'.drop (p + 1) = l' := by
  rw [h p a b ha hb hab, List.take_append_drop]

/-- A log without key `k` keeps matching a log that grows by entries of key `k`. -/
theorem Matching.append_fresh {l l' ext : List α} {k : β} (h : Matching key l l')
    (hl : ∀ a ∈ l, key a ≠ k) (hext : ∀ a ∈ ext, key a = k) : Matching key l (l' ++ ext) := by
  intro i a b ha hb hab
  by_cases hi : i < l'.length
  · rw [List.getElem?_append_left hi] at hb
    rw [h i a b ha hb hab, List.take_append_of_le_length hi]
  · rw [List.getElem?_append_right (by omega)] at hb
    have hk := hext b (List.mem_of_getElem? hb)
    exact absurd (hab.trans hk) (hl a (List.mem_of_getElem? ha))

/-- A log that matches a log matches what that log begins with. -/
theorem Matching.of_isPrefix {l l' l'' : List α} (h : Matching key l l') (hp : l'' <+: l') :
    Matching key l l'' := by
  obtain ⟨t, rfl⟩ := hp
  intro i a b ha hb hab
  have hi := (List.getElem?_eq_some_iff.mp hb).1
  rw [h i a b ha (by rw [List.getElem?_append_left hi, hb]) hab, List.take_append_of_le_length hi]

/-- Two beginnings of one log match. -/
theorem Matching.of_isPrefix_of_isPrefix {l l' l'' : List α} (h : l <+: l'') (h' : l' <+: l'') : Matching key l l' :=
  have hrefl : Matching key l'' l'' := fun _ _ _ _ _ _ => rfl
  ((hrefl.of_isPrefix h).symm).of_isPrefix h'

theorem Attributed.matching {owner : β → List α} {l l' : List α} (h : Attributed key owner l)
    (h' : Attributed key owner l') : Matching key l l' := by
  intro i a b ha hb hab
  rw [h i a ha, h' i b hb, hab]

theorem Attributed.of_isPrefix {owner : β → List α} {l l' : List α} (h : Attributed key owner l)
    (hp : l' <+: l) : Attributed key owner l' := by
  obtain ⟨t, rfl⟩ := hp
  intro i a ha
  have hi := (List.getElem?_eq_some_iff.mp ha).1
  rw [← h i a (by rw [List.getElem?_append_left hi, ha]), List.take_append_of_le_length hi]

/-- No log has an entry of a key whose owner is empty. -/
theorem Attributed.key_ne {owner : β → List α} {l : List α} (h : Attributed key owner l) {k : β}
    (hk : owner k = []) : ∀ a ∈ l, key a ≠ k := by
  intro a ha hak
  obtain ⟨i, hi⟩ := List.getElem?_of_mem ha
  have := length_le_of_take_eq (h i a hi) hi
  rw [hak, hk, List.length_nil] at this
  omega

/-- An attributed log is what the owner of its last key begins with. -/
theorem Attributed.eq_take {owner : β → List α} {l : List α} (h : Attributed key owner l) {a : α}
    (ha : l.getLast? = some a) : l = (owner (key a)).take l.length := by
  have hpos : 0 < l.length := List.length_pos_iff.mpr fun hnil => by simp [hnil] at ha
  rw [List.getLast?_eq_getElem?] at ha
  have := h _ a ha
  rwa [Nat.sub_add_cancel hpos, List.take_length] at this

/-- Of two attributed logs that end with one key, the shorter is what the longer begins with. -/
theorem Attributed.isPrefix_of_last {owner : β → List α} {l l' : List α} (h : Attributed key owner l)
    (h' : Attributed key owner l') {a b : α} (ha : l.getLast? = some a) (hb : l'.getLast? = some b)
    (hab : key a = key b) (hlen : l.length ≤ l'.length) : l <+: l' := by
  rw [h.eq_take ha, h'.eq_take hb, hab]
  exact List.take_prefix_take_left hlen

/-- Where no owner has a larger key than its own, the keys of an attributed log never go
down. -/
theorem Attributed.key_le [LE β] {owner : β → List α} {l : List α} (h : Attributed key owner l)
    (hown : ∀ k, ∀ a ∈ owner k, key a ≤ k) {i j : ℕ} (hij : i ≤ j) {a b : α} (ha : l[i]? = some a)
    (hb : l[j]? = some b) : key a ≤ key b := by
  rw [getElem?_of_take_eq (h j b hb) hij] at ha
  exact hown _ a (List.mem_of_getElem? ha)

variable [DecidableEq β]

/-- What is attributed stays attributed when the owner of `k` grows. -/
theorem Attributed.update_append {owner : β → List α} {l ext : List α} (h : Attributed key owner l) (k : β) :
    Attributed key (Function.update owner k (owner k ++ ext)) l := by
  intro i a ha
  by_cases hk : key a = k
  · have hlen := length_le_of_take_eq (h i a ha) ha
    rw [hk] at hlen
    rw [h i a ha, hk, Function.update_self, List.take_append_of_le_length hlen]
  · rw [Function.update_of_ne hk, h i a ha]

/-- What is attributed stays attributed when a key that had no entries gets an owner. -/
theorem Attributed.update_new {owner : β → List α} {l : List α} (h : Attributed key owner l) {k : β}
    (hk : owner k = []) (l' : List α) : Attributed key (Function.update owner k l') l := by
  intro i a ha
  rw [Function.update_of_ne (h.key_ne hk a (List.mem_of_getElem? ha)), h i a ha]

/-- The owner of `k`, grown by an entry of key `k`, is attributed to the owners. -/
theorem Attributed.update_concat {owner : β → List α} {k : β} {e : α} (h : Attributed key owner (owner k))
    (he : key e = k) :
    Attributed key (Function.update owner k (owner k ++ [e])) (owner k ++ [e]) := by
  intro i a ha
  by_cases hi : i < (owner k).length
  · rw [List.getElem?_append_left hi] at ha
    rw [List.take_append_of_le_length hi]
    exact h.update_append k i a ha
  · rw [List.getElem?_append_right (by omega)] at ha
    have hae : a = e := by simpa using List.mem_of_getElem? ha
    rw [hae, he, Function.update_self]

end Cs426.Logs
