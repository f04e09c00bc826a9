import Mathlib.Data.List.AList
import Mathlib.Order.Basic

/-!
# Maps whose entries expire

A finite map whose entries stop being live at some moment and never become live again. A
reader at a moment sees the live entries only, so entries that are no longer live may be
removed, or not, without any reader noticing.

## What is proved

* `visible_insert`, `visible_erase` — what a reader sees after a write.
* `AgreeFrom.insert`, `AgreeFrom.erase` — two maps that look the same from some moment on
  still do when both are written alike.
* `agreeFrom_eraseAll` — removing entries that are no longer live is invisible.
-/

namespace Cs426.Expiry

variable {K E T : Type*} [DecidableEq K]

/-- Remove a list of keys, one after the other. -/
def eraseAll (ks : List K) (m : AList fun _ : K => E) : AList fun _ : K => E :=
  ks.foldl (fun m k => m.erase k) m

theorem lookup_eraseAll (ks : List K) (m : AList fun _ : K => E) (k : K) :
    (eraseAll ks m).lookup k = if k ∈ ks then none else m.lookup k := by
  induction ks generalizing m with
  | nil => simp [eraseAll]
  | cons j ks ih =>
    rw [eraseAll, List.foldl_cons, ← eraseAll, ih]
    by_cases hk : k ∈ ks
    · simp [hk]
    · by_cases hj : k = j
      · subst hj
        simp
      · simp [hk, hj]

variable (live : T → E → Bool)

/-- The entry a reader sees under `k` at the moment `t`. -/
def visible (t : T) (m : AList fun _ : K => E) (k : K) : Option E :=
  (m.lookup k).filter (live t)

variable {live} {t t' : T} {m m' : AList fun _ : K => E} {j k : K} {e : E}

theorem visible_eq_some_iff : visible live t m k = some e ↔ m.lookup k = some e ∧ live t e = true := by
  simp [visible, Option.filter_eq_some_iff]

theorem visible_insert : visible live t (m.insert k e) j =
    if j = k then (some e).filter (live t) else visible live t m j := by
  unfold visible
  by_cases hj : j = k
  · subst hj
    rw [AList.lookup_insert, if_pos rfl]
  · rw [AList.lookup_insert_ne hj, if_neg hj]

theorem visible_erase : visible live t (m.erase k) j = if j = k then none else visible live t m j := by
  unfold visible
  by_cases hj : j = k
  · subst hj
    rw [AList.lookup_erase, if_pos rfl, Option.filter_none]
  · rw [AList.lookup_erase_ne hj, if_neg hj]

variable (live) in
/-- From the moment `t` on, readers of the two maps see the same. -/
def AgreeFrom [LE T] (t : T) (m m' : AList fun _ : K => E) : Prop :=
  ∀ ⦃t' : T⦄, t ≤ t' → ∀ k, visible live t' m k = visible live t' m' k

namespace AgreeFrom

section

variable [LE T]

theorem refl (t : T) (m : AList fun _ : K => E) : AgreeFrom live t m m :=
  fun _ _ _ => rfl

theorem symm (h : AgreeFrom live t m m') : AgreeFrom live t m' m :=
  fun _ ht k => (h ht k).symm

theorem trans {m'' : AList fun _ : K => E} (h : AgreeFrom live t m m') (h' : AgreeFrom live t m' m'') :
    AgreeFrom live t m m'' :=
  fun _ ht k => (h ht k).trans (h' ht k)

theorem insert (h : AgreeFrom live t m m') (k : K) (e : E) :
    AgreeFrom live t (m.insert k e) (m'.insert k e) := by
  intro t' ht j
  rw [visible_insert, visible_insert, h ht j]

theorem erase (h : AgreeFrom live t m m') (k : K) : AgreeFrom live t (m.erase k) (m'.erase k) := by
  intro t' ht j
  rw [visible_erase, visible_erase, h ht j]

end

theorem mono [Preorder T] (h : AgreeFrom live t m m') (htt' : t ≤ t') : AgreeFrom live t' m m' :=
  fun _ ht => h (htt'.trans ht)

end AgreeFrom

/-- If entries never become live again, removing keys whose entries were found not to be
live, each at some moment up to `t`, is invisible from `t` on. -/
theorem agreeFrom_eraseAll [Preorder T]
    (hlive : ∀ ⦃t t' : T⦄ ⦃e : E⦄, t ≤ t' → live t' e = true → live t e = true)
    {ks : List K} (hks : ∀ k ∈ ks, ∀ e, m.lookup k = some e → ∃ u ≤ t, live u e = false) :
    AgreeFrom live t m (eraseAll ks m) := by
  intro t' ht k
  unfold visible
  rw [lookup_eraseAll]
  by_cases hk : k ∈ ks
  · rw [if_pos hk, Option.filter_none]
    refine Option.filter_eq_none_iff.mpr fun e he => ?_
    obtain ⟨u, hu, hdead⟩ := hks k hk e he
    intro hl
    rw [hlive (hu.trans ht) hl] at hdead
    cases hdead
  · rw [if_neg hk]

end Cs426.Expiry
