import Mathlib.Tactic.Common

/-!
# Labelled machines and their runs

A machine is a partial step function `step : σ → ℓ → Option σ`. A label says which
component acts and carries every choice the environment makes (which message is
delivered, what a clock reads, which index is drawn), so a schedule is just a list of
labels and running it is a computation. `none` means that the label is not possible in
that state.

## What is proved

* `along_append_iff` — a run can be cut at any point.
* `run_invariant`, `run_inductive` — what every permitted step, or every step at all,
  preserves holds wherever a run arrives.
* `along_of_final` — what can only stop holding, and holds at the end, held all along;
  `run_iff_along` — if `P` says of each step whether it goes on holding, it holds at the end
  exactly of the runs that `P` holds along.
* `along_imp`, `along_iff` — a property of every step of a run, exchanged for another
  one that is the same in the states the invariant allows.
* `run_countP` — what every step raises by one or leaves, a run raises by a count of its
  labels; `exists_step_of_run` — what has come to hold has come to hold in some step.
-/

namespace Cs426.Machine

variable {σ ℓ : Type*} (step : σ → ℓ → Option σ)

/-- Take the steps of a schedule, in order. -/
def run : σ → List ℓ → Option σ
  | s, [] => some s
  | s, l :: ls => (step s l).bind fun s' => run s' ls

@[simp] theorem run_nil (s : σ) : run step s [] = some s := rfl

theorem run_cons_iff {s s' : σ} {l : ℓ} {ls : List ℓ} :
    run step s (l :: ls) = some s' ↔ ∃ u, step s l = some u ∧ run step u ls = some s' := by
  simp [run, Option.bind_eq_some_iff]

theorem run_append {s : σ} {ls ls' : List ℓ} :
    run step s (ls ++ ls') = (run step s ls).bind fun u => run step u ls' := by
  induction ls generalizing s with
  | nil => rfl
  | cons l ls ih => cases hs : step s l <;> simp [run, hs, ih]

/-- A run that can be taken arrives somewhere. -/
theorem run_eq_some_get {s : σ} {ls : List ℓ} (h : (run step s ls).isSome = true) :
    run step s ls = some ((run step s ls).get h) :=
  (Option.some_get h).symm

/-- `P` holds of every step a run takes: of the state it is taken in and of its label. -/
def Along (P : σ → ℓ → Prop) : σ → List ℓ → Prop
  | _, [] => True
  | s, l :: ls => P s l ∧ ∀ s', step s l = some s' → Along P s' ls

theorem along_cons_iff {P : σ → ℓ → Prop} {s s' : σ} {l : ℓ} {ls : List ℓ} (h : step s l = some s') :
    Along step P s (l :: ls) ↔ P s l ∧ Along step P s' ls := by
  simp [Along, h]

theorem along_cons_none_iff {P : σ → ℓ → Prop} {s : σ} {l : ℓ} {ls : List ℓ} (h : step s l = none) :
    Along step P s (l :: ls) ↔ P s l := by
  simp [Along, h]

instance decidableAlong {P : σ → ℓ → Prop} [∀ s l, Decidable (P s l)] :
    ∀ (s : σ) (ls : List ℓ), Decidable (Along step P s ls)
  | _, [] => isTrue trivial
  | s, l :: ls =>
    match h : step s l with
    | none => decidable_of_iff _ (along_cons_none_iff step h).symm
    | some s' =>
      have : Decidable (Along step P s' ls) := decidableAlong s' ls
      decidable_of_iff _ (along_cons_iff step h).symm

variable {step}

/-- A property of the labels alone holds along every run. -/
theorem along_of_forall_mem {Q : ℓ → Prop} :
    ∀ {ls : List ℓ} (s : σ), (∀ l ∈ ls, Q l) → Along step (fun _ l => Q l) s ls
  | [], _, _ => trivial
  | _ :: _, _, h =>
    ⟨h _ (List.mem_cons_self ..), fun s' _ => along_of_forall_mem s' fun k hk => h k (List.mem_cons_of_mem _ hk)⟩

/-- What holds along a run holds along its two parts. -/
theorem along_append_iff {P : σ → ℓ → Prop} {s : σ} {ls ls' : List ℓ} :
    Along step P s (ls ++ ls') ↔
      Along step P s ls ∧ ∀ u, run step s ls = some u → Along step P u ls' := by
  induction ls generalizing s with
  | nil => simp [Along]
  | cons l ls ih =>
    simp only [List.cons_append, Along, ih, run_cons_iff]
    constructor
    · rintro ⟨hl, h⟩
      refine ⟨⟨hl, fun u hu => (h u hu).1⟩, ?_⟩
      rintro w ⟨u, hu, hw⟩
      exact (h u hu).2 w hw
    · rintro ⟨⟨hl, h⟩, h'⟩
      exact ⟨hl, fun u hu => ⟨h u hu, fun w hw => h' w ⟨u, hu, hw⟩⟩⟩

/-- **The invariant rule**: if every step that `P` permits preserves `I`, then `I`
holds wherever a run of such steps arrives. -/
theorem run_invariant {I : σ → Prop} {P : σ → ℓ → Prop}
    (hI : ∀ s l s', I s → P s l → step s l = some s' → I s') {ls : List ℓ} {s s' : σ}
    (hP : Along step P s ls) (hs : I s) (h : run step s ls = some s') : I s' := by
  induction ls generalizing s with
  | nil =>
    rw [run_nil, Option.some.injEq] at h
    exact h ▸ hs
  | cons l ls ih =>
    obtain ⟨u, hu, h⟩ := (run_cons_iff step).mp h
    exact ih (hP.2 u hu) (hI s l u hs hP.1 hu) h

/-- The invariant rule where every step is permitted. -/
theorem run_inductive {I : σ → Prop} (hI : ∀ s l s', I s → step s l = some s' → I s') {ls : List ℓ} {s s' : σ}
    (hs : I s) (h : run step s ls = some s') : I s' :=
  run_invariant (fun s l s' hs _ => hI s l s' hs) (along_of_forall_mem s fun _ _ => trivial) hs h

/-- The invariant rule for what depends on the steps made so far. -/
theorem run_history {I : List ℓ → σ → Prop} {ls : List ℓ} {s s' : σ}
    (hI : ∀ done s l s', l ∈ ls → I done s → step s l = some s' → I (done ++ [l]) s') (hs : I [] s)
    (h : run step s ls = some s') : I ls s' := by
  suffices hall : ∀ {rest done : List ℓ} {s : σ}, done ++ rest = ls → I done s → run step s rest = some s' → I ls s' from
    hall rfl hs h
  intro rest
  induction rest with
  | nil =>
    intro done s hls hs h
    rw [run_nil, Option.some.injEq] at h
    rwa [← hls, List.append_nil, ← h]
  | cons l rest ih =>
    intro done s hls hs h
    obtain ⟨u, hu, h⟩ := (run_cons_iff step).mp h
    have hl : l ∈ ls := hls ▸ List.mem_append_right _ (List.mem_cons_self ..)
    exact ih (by rw [← hls, List.append_assoc, List.singleton_append]) (hI done s l u hl hs hu) h

/-- What holds where a run arrives, and could not have come to hold on the way, held after
every step of it. -/
theorem along_of_final {I : σ → Prop} (hI : ∀ s l s', step s l = some s' → I s' → I s) {ls : List ℓ} {s s' : σ}
    (hs' : I s') (h : run step s ls = some s') :
    I s ∧ Along step (fun s l => ∀ u, step s l = some u → I u) s ls := by
  induction ls generalizing s with
  | nil =>
    rw [run_nil, Option.some.injEq] at h
    exact ⟨h ▸ hs', trivial⟩
  | cons l ls ih =>
    obtain ⟨u, hu, h⟩ := (run_cons_iff step).mp h
    obtain ⟨hIu, hal⟩ := ih h
    refine ⟨hI s l u hu hIu, fun w hw => ?_, fun w hw => ?_⟩ <;>
    · rw [hu, Option.some.injEq] at hw
      subst hw
      assumption

/-- What holds after a step exactly if it held before and `P` holds of the step, holds where a
run arrives exactly if it held at the start and `P` holds along the run. -/
theorem run_iff_along {Q : σ → Prop} {P : σ → ℓ → Prop} (hQ : ∀ s l s', step s l = some s' → (Q s' ↔ Q s ∧ P s l))
    {ls : List ℓ} {s s' : σ} (h : run step s ls = some s') : Q s' ↔ Q s ∧ Along step P s ls := by
  induction ls generalizing s with
  | nil =>
    rw [run_nil, Option.some.injEq] at h
    rw [h]
    exact (and_iff_left trivial).symm
  | cons l ls ih =>
    obtain ⟨u, hu, h⟩ := (run_cons_iff step).mp h
    rw [ih h, hQ s l u hu, along_cons_iff step hu, and_assoc]

theorem Along.and {P Q : σ → ℓ → Prop} : ∀ {ls : List ℓ} {s : σ}, Along step P s ls → Along step Q s ls →
    Along step (fun s l => P s l ∧ Q s l) s ls
  | [], _, _, _ => trivial
  | _ :: _, _, hP, hQ => ⟨⟨hP.1, hQ.1⟩, fun u hu => (hP.2 u hu).and (hQ.2 u hu)⟩

/-- Along a run whose steps preserve `I`, a property of steps that follows from `I`. -/
theorem along_imp {I : σ → Prop} {P Q : σ → ℓ → Prop}
    (hI : ∀ s l s', I s → P s l → step s l = some s' → I s')
    (hQ : ∀ s l, I s → P s l → Q s l) {ls : List ℓ} {s : σ}
    (hP : Along step P s ls) (hs : I s) : Along step Q s ls := by
  induction ls generalizing s with
  | nil => trivial
  | cons l ls ih => exact ⟨hQ s l hs hP.1, fun u hu => ih (hP.2 u hu) (hI s l u hs hP.1 hu)⟩

/-- Along a run whose steps preserve `I`, two properties of steps that are the same
under `I` hold of the same runs. -/
theorem along_iff {I : σ → Prop} {P Q : σ → ℓ → Prop}
    (hI : ∀ s l s', I s → step s l = some s' → I s')
    (hPQ : ∀ s l, I s → (P s l ↔ Q s l)) {ls : List ℓ} {s : σ} (hs : I s) :
    Along step P s ls ↔ Along step Q s ls :=
  ⟨fun h => along_imp (fun s l s' hs _ => hI s l s' hs) (fun s l hs => (hPQ s l hs).mp) h hs,
    fun h => along_imp (fun s l s' hs _ => hI s l s' hs) (fun s l hs => (hPQ s l hs).mpr) h hs⟩

/-- What a step of a label `p` counts raises by one, and no other step changes, is at the
end what it was plus the number of such labels. -/
theorem run_countP {f : σ → ℕ} {p : ℓ → Bool} {I : σ → Prop} (hI : ∀ s l s', I s → step s l = some s' → I s')
    (hf : ∀ s l s', I s → step s l = some s' → f s' = f s + (p l).toNat) {ls : List ℓ} {s s' : σ} (hs : I s)
    (h : run step s ls = some s') : f s' = f s + ls.countP p := by
  induction ls generalizing s with
  | nil =>
    rw [run_nil, Option.some.injEq] at h
    rw [h, List.countP_nil, Nat.add_zero]
  | cons l ls ih =>
    obtain ⟨u, hu, h⟩ := (run_cons_iff step).mp h
    rw [ih (hI s l u hs hu) h, hf s l u hs hu, List.countP_cons, Nat.add_assoc, Nat.add_comm (p l).toNat]
    cases p l <;> rfl

/-- What did not hold at the start and holds at the end has come about in some step. -/
theorem exists_step_of_run {Q : σ → Prop} {ls : List ℓ} {s s' : σ} (hs : ¬ Q s) (h : run step s ls = some s')
    (hs' : Q s') : ∃ ls₁ l ls₂ u u', ls = ls₁ ++ l :: ls₂ ∧ run step s ls₁ = some u ∧ step u l = some u' ∧
      run step u' ls₂ = some s' ∧ ¬ Q u ∧ Q u' := by
  induction ls generalizing s with
  | nil =>
    rw [run_nil, Option.some.injEq] at h
    exact absurd (h ▸ hs') hs
  | cons l ls ih =>
    obtain ⟨u, hu, h⟩ := (run_cons_iff step).mp h
    by_cases hQu : Q u
    · exact ⟨[], l, ls, s, u, rfl, rfl, hu, h, hs, hQu⟩
    · obtain ⟨ls₁, l', ls₂, v, v', rfl, hv, hv', h', hQ, hQ'⟩ := ih hQu h
      exact ⟨l :: ls₁, l', ls₂, v, v', rfl, (run_cons_iff step).mpr ⟨u, hu, hv⟩, hv', h', hQ, hQ'⟩

/-- **Simulation**: if every step of one machine is a step of another, then every run is a run. -/
theorem run_simulates {τ ℓ' : Type*} {step' : τ → ℓ' → Option τ} {R : σ → τ → Prop} {f : ℓ → ℓ'}
    (hR : ∀ s t l s', R s t → step s l = some s' → ∃ t', step' t (f l) = some t' ∧ R s' t')
    {ls : List ℓ} {s s' : σ} {t : τ} (hst : R s t) (h : run step s ls = some s') :
    ∃ t', run step' t (ls.map f) = some t' ∧ R s' t' := by
  induction ls generalizing s t with
  | nil =>
    rw [run_nil, Option.some.injEq] at h
    exact ⟨t, rfl, h ▸ hst⟩
  | cons l ls ih =>
    obtain ⟨u, hu, h⟩ := (run_cons_iff step).mp h
    obtain ⟨v, hv, huv⟩ := hR s t l u hst hu
    obtain ⟨t', ht', hst'⟩ := ih huv h
    exact ⟨t', (run_cons_iff step').mpr ⟨v, hv, ht'⟩, hst'⟩

end Cs426.Machine
