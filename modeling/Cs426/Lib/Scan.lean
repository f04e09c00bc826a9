import Mathlib.Data.List.Rotate
import Mathlib.Tactic.Common

/-!
# Asking one after the other

A caller that needs one answer and has many to ask starts somewhere in the list and goes
around it, until one answers: `walk` is the loop over the positions `(index + i) % length`,
which leaves some members out (`skip`) and keeps the error of the last failure. `scan` goes
through a list in its order.

## What is proved

* `walk_eq_scan` — the loop is a scan of the rotated list, without those left out.
* `scanned` — a scan stops at the first success; it fails when all fail, with the error of
  the last.
-/

namespace Cs426.Scan

variable {ι ε α : Type*}

/-- The loop at `i`, with `left` turns to go: whom it asks and what it comes to, `.error err`
when it runs out with `err` the error last seen. -/
def walk (nodes : List ι) (skip : ι → Bool) (ask : ι → Except ε α) (index : ℕ) (left i : ℕ) (err : Option ε) :
    Option (List ι × Except (Option ε) α) :=
  match left with
  | 0 => some ([], .error err)
  | left + 1 =>
    nodes[(index + i) % nodes.length]?.bind fun node =>
      if skip node then walk nodes skip ask index left (i + 1) err
      else
        match ask node with
        | .ok a => some ([node], .ok a)
        | .error e => (walk nodes skip ask index left (i + 1) (some e)).map fun r => (node :: r.1, r.2)

/-- One after the other. -/
def scan (ask : ι → Except ε α) : List ι → Option ε → List ι × Except (Option ε) α
  | [], err => ([], .error err)
  | node :: rest, _ =>
    match ask node with
    | .ok a => ([node], .ok a)
    | .error e => (node :: (scan ask rest (some e)).1, (scan ask rest (some e)).2)

section Walk

variable {nodes : List ι} {skip : ι → Bool} {ask : ι → Except ε α} {index : ℕ}

/-- What is left of the walk is what is left of the rotated list. -/
theorem walk_eq_scan_drop (left i : ℕ) (err : Option ε) (h : i + left = nodes.length) :
    walk nodes skip ask index left i err =
      some (scan ask (((nodes.rotate index).drop i).filter (!skip ·)) err) := by
  induction left generalizing i err with
  | zero =>
    have hdrop : (nodes.rotate index).drop i = [] := List.drop_eq_nil_of_le (by simp; omega)
    rw [walk, hdrop, List.filter_nil, scan]
  | succ left ih =>
    have hi : i < (nodes.rotate index).length := by simp; omega
    obtain ⟨node, hnode⟩ : ∃ node, (nodes.rotate index)[i] = node := ⟨_, rfl⟩
    have hget : nodes[(index + i) % nodes.length]? = some node := by
      rw [← hnode, ← List.getElem?_eq_getElem hi, List.getElem?_rotate (by omega), Nat.add_comm]
    rw [walk, hget, Option.bind_some, List.drop_eq_getElem_cons hi, hnode, List.filter_cons]
    by_cases hskip : skip node = true
    · simp [hskip, ih (i + 1) err (by omega)]
    · cases hask : ask node with
      | ok a => simp [hskip, scan, hask]
      | error e => simp [hskip, scan, hask, ih (i + 1) (some e) (by omega)]

theorem walk_eq_scan : walk nodes skip ask index nodes.length 0 none =
    some (scan ask ((nodes.rotate index).filter (!skip ·)) none) := by
  rw [walk_eq_scan_drop _ _ _ (Nat.zero_add _), List.drop_zero]

end Walk

variable {ask : ι → Except ε α} {order : List ι}

/-- `asked` and `res` are those of a scan of `order` that stops at its first success. -/
structure Scanned (ask : ι → Except ε α) (order asked : List ι) (res : Except (Option ε) α) : Prop where
  isPrefix : asked <+: order
  failed : ∀ node ∈ asked.dropLast, (ask node).isOk = false
  ok_iff : ∀ a, res = .ok a ↔ ∃ node, asked.getLast? = some node ∧ ask node = .ok a
  exhausted : ∀ err, res = .error err → asked = order ∧ (∀ node ∈ order, (ask node).isOk = false) ∧
    (order = [] ∧ err = none ∨ ∃ node e, order.getLast? = some node ∧ ask node = .error e ∧ err = some e)

/-- A scan finds a first success, or all fail. -/
theorem scan_cases (ask : ι → Except ε α) (order : List ι) (err : Option ε) :
    (∃ before node after a, order = before ++ node :: after ∧ (∀ n ∈ before, (ask n).isOk = false) ∧
      ask node = .ok a ∧ scan ask order err = (before ++ [node], .ok a)) ∨
    ((∀ n ∈ order, (ask n).isOk = false) ∧ ∃ err', scan ask order err = (order, .error err') ∧
      (order = [] ∧ err' = err ∨ ∃ node e, order.getLast? = some node ∧ ask node = .error e ∧ err' = some e)) := by
  induction order generalizing err with
  | nil => exact .inr ⟨by simp, err, rfl, .inl ⟨rfl, rfl⟩⟩
  | cons n rest ih =>
    cases hn : ask n with
    | ok a => exact .inl ⟨[], n, rest, a, rfl, by simp, hn, by simp [scan, hn]⟩
    | error e =>
      have hfail : (ask n).isOk = false := by rw [hn]; rfl
      rcases ih (some e) with ⟨before, node, after, a, rfl, hbefore, hnode, hscan⟩ | ⟨hall, err', hscan, herr⟩
      · exact .inl ⟨n :: before, node, after, a, rfl, by simpa [hfail] using hbefore, hnode, by simp [scan, hn, hscan]⟩
      · refine .inr ⟨by simpa [hfail] using hall, err', by simp [scan, hn, hscan], .inr ?_⟩
        rcases herr with ⟨rfl, rfl⟩ | ⟨node, e', hlast, hnode, rfl⟩
        · exact ⟨n, e, rfl, hn, rfl⟩
        · exact ⟨node, e', by rw [List.getLast?_cons, hlast]; rfl, hnode, rfl⟩

/-- The rule to use: what a scan asks and comes to. -/
theorem scanned (ask : ι → Except ε α) (order : List ι) :
    Scanned ask order (scan ask order none).1 (scan ask order none).2 := by
  rcases scan_cases ask order none with
    ⟨before, node, after, a, rfl, hbefore, hnode, hscan⟩ | ⟨hall, err, hscan, herr⟩
  · rw [hscan]
    exact {
      isPrefix := ⟨after, by simp⟩
      failed := by simpa using hbefore
      ok_iff := fun b => by simp [hnode]
      exhausted := by simp }
  · rw [hscan]
    refine { isPrefix := List.prefix_rfl, failed := ?_, ok_iff := fun a => ?_, exhausted := ?_ }
    · exact fun n hn => hall n (List.dropLast_subset _ hn)
    · simp only [reduceCtorEq, false_iff]
      rintro ⟨node, hlast, hok⟩
      have := hall node (List.mem_of_getLast? hlast)
      rw [hok] at this
      cases this
    · rintro _ ⟨⟩
      exact ⟨rfl, hall, herr⟩

/-- A scan comes to an answer unless all fail. -/
theorem Scanned.error_iff {asked : List ι} {res : Except (Option ε) α} (h : Scanned ask order asked res) :
    (∃ err, res = .error err) ↔ ∀ node ∈ order, (ask node).isOk = false := by
  constructor
  · rintro ⟨err, hres⟩
    exact (h.exhausted err hres).2.1
  · intro hall
    cases hres : res with
    | error err => exact ⟨err, rfl⟩
    | ok a =>
      obtain ⟨node, hlast, hok⟩ := (h.ok_iff a).mp hres
      have := hall node (h.isPrefix.subset (List.mem_of_getLast? hlast))
      rw [hok] at this
      cases this

end Cs426.Scan
