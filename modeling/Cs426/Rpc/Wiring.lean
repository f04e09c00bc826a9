import Cs426.Rpc.Restart

/-!
# Who can reach whom

The tester connects and disconnects peers by enabling and disabling ends, one after the other,
while calls go on; a restarted peer gets ends with fresh names, "so that old crashed instance's
ClientEnds can't send".

## What is proved

* `enabled_iff_connected` — whenever the tester is between two operations, exactly the ends
  between connected peers are enabled, and each leads to the peer it was made for.
* `old_end_silent` — an end that is no longer the one of its peer never carries a call again:
  the old instance goes on running, but nothing it asks is handled, and of what it still waits
  for only such replies arrive that had passed the last look at the end before.

The part of the tester and of the network that this is about is a machine of its own
(`Wiring`), which runs an operation in one go.
-/

namespace Cs426.Rpc

open Cs426.Machine

variable {n : ℕ} {E σ R : Type*}

/-- The part of a configuration that says who can reach whom. -/
structure Wiring (n : ℕ) (E : Type*) where
  connected : Fin n → Bool
  endnames : Fin n → Option (Fin n → E)
  ends : E → Bool
  enabled : E → Bool
  connections : E → Option (Fin n)

def Config.wiring (c : Config n E σ R) : Wiring n E :=
  ⟨c.connected, c.endnames, c.net.board.ends, c.net.board.enabled, c.net.board.connections⟩

namespace Wiring

variable [DecidableEq E] {w w' : Wiring n E}

/-- What a small step of the tester does to the wiring. -/
def wire (w : Wiring n E) : Micro n E → Option (Wiring n E)
  | .mark i yes => some { w with connected := Function.update w.connected i yes }
  | .enable src dst other =>
    if w.connected other then
      (w.endnames src).map fun names => { w with enabled := Function.update w.enabled (names dst) true }
    else some w
  | .disable src dst =>
    match w.endnames src with
    | some names => some { w with enabled := Function.update w.enabled (names dst) false }
    | none => some w
  | .rename i names => some { w with endnames := Function.update w.endnames i (some names) }
  | .makeEnd i j =>
    (w.endnames i).bind fun names =>
      if w.ends (names j) then none
      else some { w with
        ends := Function.update w.ends (names j) true
        enabled := Function.update w.enabled (names j) false
        connections := Function.update w.connections (names j) none }
  | .connectEnd i j =>
    (w.endnames i).map fun names => { w with connections := Function.update w.connections (names j) (some j) }
  | .deleteServer _ | .copySaved _ | .forget _ | .freshSaved _ | .make _ | .addServer _ => some w

theorem of_micro {c c' : Config n E σ R} {m : Micro n E} (hm : c.micro m = some c') :
    c.wiring.wire m = some c'.wiring := by
  cases m with
  | mark | deleteServer | forget | rename =>
    cases hm
    rfl
  | enable src dst other =>
    simp only [Config.micro] at hm
    split_ifs at hm with hc
    · obtain ⟨names, hnames, rfl⟩ := Option.map_eq_some_iff.mp hm
      simp [wire, Config.wiring, hc, hnames, Config.setBoard, Board.enable]
    · cases hm
      simp [wire, Config.wiring, hc]
  | disable src dst =>
    simp only [Config.micro] at hm
    split at hm
    · next names hnames =>
      cases hm
      simp [wire, Config.wiring, hnames, Config.setBoard, Board.enable]
    · next hnames =>
      cases hm
      simp [wire, Config.wiring, hnames]
  | makeEnd i j =>
    obtain ⟨names, hnames, hm⟩ := Option.bind_eq_some_iff.mp hm
    obtain ⟨b, hb, rfl⟩ := Option.map_eq_some_iff.mp hm
    simp only [Board.makeEnd, Option.ite_none_left_eq_some, Option.some.injEq] at hb
    obtain ⟨hfresh, rfl⟩ := hb
    simp [wire, Config.wiring, hnames, hfresh, Config.setBoard]
  | connectEnd i j =>
    obtain ⟨names, hnames, rfl⟩ := Option.map_eq_some_iff.mp hm
    simp [wire, Config.wiring, hnames, Config.setBoard, Board.connect]
  | addServer i | make i =>
    obtain ⟨_, -, rfl⟩ := Option.map_eq_some_iff.mp hm
    rfl
  | copySaved i =>
    simp only [Config.micro] at hm
    split at hm
    · obtain ⟨states, -, rfl⟩ := Option.map_eq_some_iff.mp hm
      rfl
    · cases hm
      rfl
  | freshSaved i =>
    simp only [Config.micro] at hm
    split at hm
    · obtain ⟨states, -, rfl⟩ := Option.map_eq_some_iff.mp hm
      rfl
    · cases hm
      rfl

/-- `e` is the end of `src` for `dst`. -/
def Names (w : Wiring n E) (src dst : Fin n) (e : E) : Prop := ∃ names, w.endnames src = some names ∧ names dst = e

/-- How the network is wired between two operations. -/
structure Good (w : Wiring n E) : Prop where
  made : ∀ i j e, w.Names i j e → w.ends e = true
  wired : ∀ i j e, w.Names i j e → w.connections e = some j
  unique : ∀ i j i' j' e, w.Names i j e → w.Names i' j' e → i = i' ∧ j = j'
  enabled : ∀ e, w.enabled e = true ↔ ∃ i j, w.Names i j e ∧ w.connected i = true ∧ w.connected j = true
  named : ∀ i, w.connected i = true → (w.endnames i).isSome

/-! ### Disconnecting -/

/-- Ends are disabled one by one. -/
theorem run_disables (ps : List (Fin n × Fin n)) :
    ∃ enabled, run wire w (ps.map fun p => .disable p.1 p.2) = some { w with enabled := enabled } ∧
      ∀ e, enabled e = true ↔ w.enabled e = true ∧ ∀ p ∈ ps, ¬w.Names p.1 p.2 e := by
  induction ps generalizing w with
  | nil => exact ⟨w.enabled, rfl, by simp⟩
  | cons p ps ih =>
    have hone : ∃ enabled, w.wire (.disable p.1 p.2) = some { w with enabled := enabled } ∧
        ∀ e, enabled e = true ↔ w.enabled e = true ∧ ¬w.Names p.1 p.2 e := by
      cases hnames : w.endnames p.1 with
      | none => exact ⟨w.enabled, by simp [wire, hnames], by simp [Names, hnames]⟩
      | some names =>
        refine ⟨Function.update w.enabled (names p.2) false, by simp [wire, hnames], fun e => ?_⟩
        by_cases he : e = names p.2
        · subst he
          simp [Names, hnames]
        · simp [Function.update_of_ne he, Names, hnames, Ne.symm he]
    obtain ⟨enabled, hw, henabled⟩ := hone
    obtain ⟨enabled', hrun, henabled'⟩ := ih (w := { w with enabled := enabled })
    refine ⟨enabled', (run_cons_iff _).mpr ⟨_, hw, hrun⟩, fun e => ?_⟩
    rw [henabled', henabled, List.forall_mem_cons, and_assoc]
    rfl

omit [DecidableEq E] in
theorem disconnect_eq (i : Fin n) :
    (disconnect i : List (Micro n E)) = .mark i false ::
      ((List.finRange n).map (fun j => (i, j)) ++ (List.finRange n).map fun j => (j, i)).map fun p => .disable p.1 p.2 := by
  simp [disconnect, Function.comp_def]

/-- **Disconnecting a peer keeps the network well wired.** -/
theorem Good.disconnect {i : Fin n} (hw : w.Good) (h : run wire w (disconnect i) = some w') :
    w'.Good ∧ w'.connected i = false ∧ w'.endnames = w.endnames ∧ w'.ends = w.ends ∧
      ∀ e, w'.enabled e = true → w.enabled e = true := by
  rw [disconnect_eq, run_cons_iff] at h
  obtain ⟨w₁, ⟨⟩, h⟩ := h
  obtain ⟨enabled, hrun, henabled⟩ := run_disables (w := { w with connected := Function.update w.connected i false })
    ((List.finRange n).map (fun j => (i, j)) ++ (List.finRange n).map fun j => (j, i))
  obtain rfl := Option.some.inj (hrun.symm.trans h)
  have hoff : ∀ e, enabled e = true ↔ w.enabled e = true ∧ ∀ j, ¬w.Names i j e ∧ ¬w.Names j i e := by
    intro e
    rw [henabled]
    simp only [List.mem_append, List.mem_map, List.mem_finRange, true_and]
    constructor
    · rintro ⟨hen, hno⟩
      exact ⟨hen, fun j => ⟨hno (i, j) (.inl ⟨j, rfl⟩), hno (j, i) (.inr ⟨j, rfl⟩)⟩⟩
    · rintro ⟨hen, hno⟩
      refine ⟨hen, ?_⟩
      rintro p (⟨j, rfl⟩ | ⟨j, rfl⟩)
      · exact (hno j).1
      · exact (hno j).2
  refine ⟨⟨hw.made, hw.wired, hw.unique, fun e => ?_, fun j hj => ?_⟩, Function.update_self .., rfl, rfl,
    fun e he => ((hoff e).mp he).1⟩
  · rw [hoff, hw.enabled]
    constructor
    · rintro ⟨⟨a, b, hab, ha, hb⟩, hno⟩
      have hai : a ≠ i := fun hai => (hno b).1 (hai ▸ hab)
      have hbi : b ≠ i := fun hbi => (hno a).2 (hbi ▸ hab)
      exact ⟨a, b, hab, (Function.update_of_ne hai ..).trans ha, (Function.update_of_ne hbi ..).trans hb⟩
    · rintro ⟨a, b, hab, ha, hb⟩
      have hai : a ≠ i := fun hai => by simp [hai] at ha
      have hbi : b ≠ i := fun hbi => by simp [hbi] at hb
      simp only [Function.update_of_ne hai, Function.update_of_ne hbi] at ha hb
      exact ⟨⟨a, b, hab, ha, hb⟩, fun j => ⟨fun hij => hai (hw.unique _ _ _ _ e hab hij).1,
        fun hji => hbi (hw.unique _ _ _ _ e hab hji).2⟩⟩
  · have hji : j ≠ i := fun hji => by simp [hji] at hj
    simp only [Function.update_of_ne hji] at hj
    exact hw.named j hj

/-! ### Connecting -/

/-- Ends are enabled one by one; an end that has no name ends the process. -/
theorem run_enables (ps : List (Fin n × Fin n × Fin n))
    (h : run wire w (ps.map fun p => .enable p.1 p.2.1 p.2.2) = some w') :
    ∃ enabled, w' = { w with enabled := enabled } ∧
      (∀ e, enabled e = true ↔ w.enabled e = true ∨ ∃ p ∈ ps, w.connected p.2.2 = true ∧ w.Names p.1 p.2.1 e) ∧
      ∀ p ∈ ps, w.connected p.2.2 = true → (w.endnames p.1).isSome := by
  induction ps generalizing w with
  | nil =>
    obtain rfl := Option.some.inj h
    exact ⟨_, rfl, by simp, by simp⟩
  | cons p ps ih =>
    obtain ⟨w₁, hw₁, h⟩ := (run_cons_iff _).mp h
    have hone : ∃ enabled, w₁ = { w with enabled := enabled } ∧
        (∀ e, enabled e = true ↔ w.enabled e = true ∨ w.connected p.2.2 = true ∧ w.Names p.1 p.2.1 e) ∧
        (w.connected p.2.2 = true → (w.endnames p.1).isSome) := by
      simp only [wire] at hw₁
      split_ifs at hw₁ with hc
      · obtain ⟨names, hnames, rfl⟩ := Option.map_eq_some_iff.mp hw₁
        refine ⟨_, rfl, fun e => ?_, fun _ => by simp [hnames]⟩
        by_cases he : e = names p.2.1
        · subst he
          simp [Names, hnames, hc]
        · simp [Function.update_of_ne he, Names, hnames, Ne.symm he]
      · cases hw₁
        exact ⟨w.enabled, rfl, by simp [hc], by simp [hc]⟩
    obtain ⟨enabled, rfl, henabled, hsome⟩ := hone
    obtain ⟨enabled', rfl, henabled', hsome'⟩ := ih h
    refine ⟨enabled', rfl, fun e => ?_, List.forall_mem_cons.mpr ⟨hsome, hsome'⟩⟩
    rw [henabled', henabled, List.exists_mem_cons_iff, or_assoc]
    rfl

omit [DecidableEq E] in
theorem connect_eq (i : Fin n) :
    (connect i : List (Micro n E)) = .mark i true ::
      ((List.finRange n).map (fun j => (i, j, j)) ++ (List.finRange n).map fun j => (j, i, j)).map
        fun p => .enable p.1 p.2.1 p.2.2 := by
  simp [connect, Function.comp_def]

/-- **Connecting a peer keeps the network well wired.** -/
theorem Good.connect {i : Fin n} (hw : w.Good) (h : run wire w (connect i) = some w') :
    w'.Good ∧ w'.endnames = w.endnames ∧ w'.ends = w.ends := by
  rw [connect_eq, run_cons_iff] at h
  obtain ⟨w₁, ⟨⟩, h⟩ := h
  obtain ⟨enabled, rfl, henabled, hsome⟩ := run_enables _ h
  have hself : (w.endnames i).isSome := by
    refine hsome (i, i, i) (List.mem_append_left _ (List.mem_map.mpr ⟨i, List.mem_finRange i, rfl⟩)) ?_
    exact Function.update_self ..
  refine ⟨⟨hw.made, hw.wired, hw.unique, fun e => ?_, fun j hj => ?_⟩, rfl, rfl⟩
  · rw [henabled, hw.enabled]
    simp only [List.mem_append, List.mem_map, List.mem_finRange, true_and]
    constructor
    · rintro (⟨a, b, hab, ha, hb⟩ | ⟨p, ⟨j, rfl⟩ | ⟨j, rfl⟩, hj, hname⟩)
      · refine ⟨a, b, hab, ?_, ?_⟩
        · by_cases hai : a = i
          · simp [hai]
          · simpa [Function.update_of_ne hai] using ha
        · by_cases hbi : b = i
          · simp [hbi]
          · simpa [Function.update_of_ne hbi] using hb
      · exact ⟨i, j, hname, Function.update_self .., hj⟩
      · exact ⟨j, i, hname, hj, Function.update_self ..⟩
    · rintro ⟨a, b, hab, ha, hb⟩
      by_cases hai : a = i
      · subst hai
        exact .inr ⟨(a, b, b), .inl ⟨b, rfl⟩, hb, hab⟩
      by_cases hbi : b = i
      · subst hbi
        exact .inr ⟨(a, b, a), .inr ⟨a, rfl⟩, ha, hab⟩
      simp only [Function.update_of_ne hai, Function.update_of_ne hbi] at ha hb
      exact .inl ⟨a, b, hab, ha, hb⟩
  · by_cases hji : j = i
    · exact hji ▸ hself
    · simp only [Function.update_of_ne hji] at hj
      exact hw.named j hj

/-! ### Starting a peer -/

/-- What making and connecting the ends of a peer does, and what it takes. -/
structure EndsMade (names : Fin n → E) (js : List (Fin n)) (w w' : Wiring n E) : Prop where
  connected : w'.connected = w.connected
  endnames : w'.endnames = w.endnames
  fresh : ∀ j ∈ js, w.ends (names j) = false
  injective : ∀ j ∈ js, ∀ j' ∈ js, names j = names j' → j = j'
  ends : ∀ e, w'.ends e = true ↔ w.ends e = true ∨ ∃ j ∈ js, names j = e
  made : ∀ j ∈ js, w'.connections (names j) = some j ∧ w'.enabled (names j) = false
  others : ∀ e, (∀ j ∈ js, names j ≠ e) → w'.connections e = w.connections e ∧ w'.enabled e = w.enabled e

omit [DecidableEq E] in
/-- One end more: since it exists now, the later ones have other names. -/
theorem EndsMade.cons {names : Fin n → E} {j : Fin n} {js : List (Fin n)} {w w₁ w' : Wiring n E}
    (hj : EndsMade names [j] w w₁) (hjs : EndsMade names js w₁ w') : EndsMade names (j :: js) w w' := by
  have hmade : w₁.ends (names j) = true := (hj.ends _).mpr (.inr ⟨j, by simp, rfl⟩)
  have hne : ∀ j' ∈ js, names j' ≠ names j := fun j' hj' heq => by
    have := hjs.fresh j' hj'
    rw [heq, hmade] at this
    cases this
  refine ⟨hjs.connected.trans hj.connected, hjs.endnames.trans hj.endnames, ?_, ?_, fun e => ?_, ?_, fun e he => ?_⟩
  · refine List.forall_mem_cons.mpr ⟨hj.fresh j (by simp), fun j' hj' => ?_⟩
    refine Bool.eq_false_iff.mpr fun hend => ?_
    have := (hj.ends (names j')).mpr (.inl hend)
    rw [hjs.fresh j' hj'] at this
    cases this
  · intro a ha b hb heq
    rcases List.mem_cons.mp ha with rfl | ha' <;> rcases List.mem_cons.mp hb with rfl | hb'
    · rfl
    · exact absurd heq.symm (hne b hb')
    · exact absurd heq (hne a ha')
    · exact hjs.injective a ha' b hb' heq
  · rw [hjs.ends, hj.ends, List.exists_mem_cons_iff, or_assoc]
    simp
  · refine List.forall_mem_cons.mpr ⟨?_, hjs.made⟩
    obtain ⟨hconn, hen⟩ := hjs.others (names j) hne
    rw [hconn, hen]
    exact hj.made j (by simp)
  · obtain ⟨he, hes⟩ := List.forall_mem_cons.mp he
    obtain ⟨hconn, hen⟩ := hjs.others e hes
    rw [hconn, hen]
    exact hj.others e (by simpa using he)

theorem run_makeEnds {i : Fin n} {names : Fin n → E} (hnames : w.endnames i = some names) {js : List (Fin n)}
    (h : run wire w (js.flatMap fun j => [.makeEnd i j, .connectEnd i j]) = some w') : EndsMade names js w w' := by
  induction js generalizing w with
  | nil =>
    obtain rfl := Option.some.inj h
    exact ⟨rfl, rfl, by simp, by simp, by simp, by simp, by simp⟩
  | cons j js ih =>
    simp only [List.flatMap_cons, List.cons_append, List.nil_append, run_cons_iff] at h
    obtain ⟨w₁, hw₁, w₂, hw₂, h⟩ := h
    simp only [wire, hnames, Option.bind_some, Option.ite_none_left_eq_some, Option.some.injEq, Bool.not_eq_true] at hw₁
    obtain ⟨hfresh, rfl⟩ := hw₁
    simp only [wire, hnames, Option.map_some, Option.some.injEq] at hw₂
    have hnames₂ : w₂.endnames i = some names := by rw [← hw₂, hnames]
    refine .cons ?_ (ih hnames₂ h)
    subst hw₂
    refine ⟨rfl, rfl, by simpa using hfresh, by simp, fun e => ?_, by simp, fun e he => ?_⟩
    · by_cases he : e = names j
      · simp [he]
      · simp [Function.update_of_ne he, Ne.symm he]
    · have he' : e ≠ names j := fun h => he j (by simp) h.symm
      simp [Function.update_of_ne he']

/-- Nothing else of a crash or a start touches the wiring. -/
theorem run_wire_of_forall {ms : List (Micro n E)} (h : ∀ m ∈ ms, ∀ w : Wiring n E, w.wire m = some w) :
    run wire w ms = some w := by
  induction ms with
  | nil => rfl
  | cons m ms ih =>
    exact (run_cons_iff _).mpr ⟨w, h m (List.mem_cons_self ..) w, ih fun m hm => h m (List.mem_cons_of_mem _ hm)⟩

theorem run_crash1 (i : Fin n) : run wire w (crash1 i) = run wire w (disconnect i) := by
  rw [crash1, run_append]
  cases run wire w (disconnect i) with
  | none => rfl
  | some w₁ => exact run_wire_of_forall (by simp [wire])

/-- **Starting a peer keeps the network well wired**; its new ends did not exist before. -/
theorem Good.start1 {i : Fin n} {names : Fin n → E} (hw : w.Good) (h : run wire w (start1 i names) = some w') :
    w'.Good ∧ (∀ j, w.ends (names j) = false) ∧ w'.endnames = Function.update w.endnames i (some names) ∧
      ∀ e, w.ends e = true → w'.ends e = true := by
  rw [Rpc.start1, run_append, run_crash1, Option.bind_eq_some_iff] at h
  obtain ⟨w₁, h₁, h⟩ := h
  obtain ⟨hw₁, hoff, hnames₁, hends₁, -⟩ := hw.disconnect h₁
  rw [run_cons_iff] at h
  obtain ⟨w₂, ⟨⟩, h⟩ := h
  rw [run_append, Option.bind_eq_some_iff] at h
  obtain ⟨w₃, h₃, h⟩ := h
  rw [run_wire_of_forall (by simp [wire])] at h
  obtain rfl := Option.some.inj h
  have hmade : EndsMade names _ _ w₃ := run_makeEnds (Function.update_self ..) h₃
  have hfresh : ∀ j, w₁.ends (names j) = false := fun j => hmade.fresh j (List.mem_finRange j)
  -- an end is a new one of peer `i`, or an old one of another
  have hcases : ∀ a b e, w₃.Names a b e ↔ a = i ∧ names b = e ∨ a ≠ i ∧ w₁.Names a b e := by
    intro a b e
    unfold Names
    rw [hmade.endnames]
    by_cases hai : a = i
    · subst hai
      simp
    · simp [hai]
  have hold : ∀ {a b e}, w₁.Names a b e → ∀ j ∈ List.finRange n, names j ≠ e := by
    rintro a b e hab j - rfl
    have := hw₁.made a b _ hab
    rw [hfresh j] at this
    cases this
  refine ⟨⟨?_, ?_, ?_, ?_, ?_⟩, fun j => hends₁ ▸ hfresh j, ?_, ?_⟩
  · intro a b e hab
    rw [hmade.ends]
    rcases (hcases a b e).mp hab with ⟨-, hb⟩ | ⟨-, hab⟩
    · exact .inr ⟨b, List.mem_finRange b, hb⟩
    · exact .inl (hw₁.made a b e hab)
  · intro a b e hab
    rcases (hcases a b e).mp hab with ⟨-, rfl⟩ | ⟨-, hab⟩
    · exact (hmade.made b (List.mem_finRange b)).1
    · exact (hmade.others e (hold hab)).1.trans (hw₁.wired a b e hab)
  · intro a b a' b' e hab hab'
    rcases (hcases a b e).mp hab with ⟨rfl, hb⟩ | ⟨-, hab⟩ <;>
      rcases (hcases a' b' e).mp hab' with ⟨rfl, hb'⟩ | ⟨-, hab'⟩
    · exact ⟨rfl, hmade.injective b (List.mem_finRange b) b' (List.mem_finRange b') (hb.trans hb'.symm)⟩
    · exact absurd hb (hold hab' b (List.mem_finRange b))
    · exact absurd hb' (hold hab b' (List.mem_finRange b'))
    · exact hw₁.unique a b a' b' e hab hab'
  · intro e
    rw [hmade.connected]
    constructor
    · intro hen
      have hother : ∀ j ∈ List.finRange n, names j ≠ e := by
        rintro j hj rfl
        rw [(hmade.made j hj).2] at hen
        cases hen
      obtain ⟨a, b, hab, ha, hb⟩ := (hw₁.enabled e).mp ((hmade.others e hother).2 ▸ hen)
      have hai : a ≠ i := fun hai => by simp [hai, hoff] at ha
      exact ⟨a, b, (hcases a b e).mpr (.inr ⟨hai, hab⟩), ha, hb⟩
    · rintro ⟨a, b, hab, ha, hb⟩
      rcases (hcases a b e).mp hab with ⟨rfl, -⟩ | ⟨-, hab⟩
      · rw [hoff] at ha
        cases ha
      · exact (hmade.others e (hold hab)).2.trans ((hw₁.enabled e).mpr ⟨a, b, hab, ha, hb⟩)
  · intro a ha
    rw [hmade.connected] at ha
    rw [hmade.endnames]
    by_cases hai : a = i
    · simp [hai]
    · simpa [Function.update_of_ne hai] using hw₁.named a ha
  · rw [hmade.endnames, ← hnames₁]
  · intro e he
    exact (hmade.ends e).mpr (.inl (hends₁ ▸ he))

/-- **Every operation keeps the network well wired.** -/
theorem Good.program {o : Op n E} (hw : w.Good) (h : run wire w o.program = some w') : w'.Good := by
  cases o with
  | start1 i names => exact (hw.start1 h).1
  | crash1 i =>
    rw [Op.program, run_crash1] at h
    exact (hw.disconnect h).1
  | connect i => exact (hw.connect h).1
  | disconnect i => exact (hw.disconnect h).1

/-! ### Ends that are no longer in use -/

/-- An end that is no peer's is none after an operation. -/
theorem Good.program_old {o : Op n E} {e : E} (hw : w.Good) (he : w.ends e = true) (hold : ∀ i j, ¬w.Names i j e)
    (h : run wire w o.program = some w') : ∀ i j, ¬w'.Names i j e := by
  have hsame : w'.endnames = w.endnames → ∀ i j, ¬w'.Names i j e := by
    intro hnames i j
    unfold Names
    rw [hnames]
    exact hold i j
  cases o with
  | start1 i names =>
    obtain ⟨-, hfresh, hnames, -⟩ := hw.start1 h
    rintro a b ⟨f, hf, rfl⟩
    rw [hnames] at hf
    by_cases hai : a = i
    · obtain rfl : names = f := by simpa [hai] using hf
      rw [hfresh b] at he
      cases he
    · rw [Function.update_of_ne hai] at hf
      exact hold a b ⟨f, hf, rfl⟩
  | crash1 i =>
    rw [Op.program, run_crash1] at h
    exact hsame (hw.disconnect h).2.2.1
  | connect i => exact hsame (hw.connect h).2.1
  | disconnect i => exact hsame (hw.disconnect h).2.2.1

/-- No end is enabled in what is left to do. -/
def Calm (ms : List (Micro n E)) : Prop := ∀ src dst other, .enable src dst other ∉ ms

/-- No peer gets new ends in what is left to do. -/
def Steady (ms : List (Micro n E)) : Prop := ∀ i names, .rename i names ∉ ms

omit [DecidableEq E] in
theorem calm_or_steady (o : Op n E) : Calm o.program ∨ Steady o.program := by
  cases o with
  | start1 i names => exact .inl (by simp [Calm, Op.program, Rpc.start1, Rpc.crash1, Rpc.disconnect])
  | crash1 i => exact .inl (by simp [Calm, Op.program, Rpc.crash1, Rpc.disconnect])
  | connect i => exact .inr (by simp [Steady, Op.program, Rpc.connect])
  | disconnect i => exact .inl (by simp [Calm, Op.program, Rpc.disconnect])

/-- What a small step can do to an end: it never unmakes it, enables it only by name, and
names change only by `rename`. -/
theorem wire_end {m : Micro n E} (h : w.wire m = some w') (e : E) :
    (w.ends e = true → w'.ends e = true) ∧
      (w.enabled e = false → w'.enabled e = false ∨ ∃ src dst other, m = .enable src dst other ∧ w.Names src dst e) ∧
      (w'.endnames = w.endnames ∨ ∃ i names, m = .rename i names) := by
  cases m with
  | mark | deleteServer | copySaved | forget | freshSaved | make | addServer =>
    cases h
    exact ⟨id, .inl, .inl rfl⟩
  | rename i names =>
    cases h
    exact ⟨id, .inl, .inr ⟨i, names, rfl⟩⟩
  | enable src dst other =>
    simp only [wire] at h
    split_ifs at h
    · obtain ⟨names, hnames, rfl⟩ := Option.map_eq_some_iff.mp h
      refine ⟨id, fun hoff => ?_, .inl rfl⟩
      by_cases he : e = names dst
      · exact .inr ⟨src, dst, other, rfl, names, hnames, he.symm⟩
      · exact .inl ((Function.update_of_ne he ..).trans hoff)
    · cases h
      exact ⟨id, .inl, .inl rfl⟩
  | disable src dst =>
    simp only [wire] at h
    split at h <;> cases h
    · refine ⟨id, fun hoff => .inl ?_, .inl rfl⟩
      simp [Function.update_apply, hoff]
    · exact ⟨id, .inl, .inl rfl⟩
  | makeEnd i j =>
    obtain ⟨names, -, h⟩ := Option.bind_eq_some_iff.mp h
    simp only [Option.ite_none_left_eq_some, Option.some.injEq] at h
    obtain ⟨-, rfl⟩ := h
    refine ⟨fun he => ?_, fun hoff => .inl ?_, .inl rfl⟩ <;> simp [Function.update_apply, *]
  | connectEnd i j =>
    obtain ⟨names, -, rfl⟩ := Option.map_eq_some_iff.mp h
    exact ⟨id, .inl, .inl rfl⟩

end Wiring

/-! ### Over whole runs -/

section Runs

open Wiring

variable [DecidableEq E] {c c' c₁ c₂ : Config n E σ R} {evs evs₁ evs₂ : List (Event n E σ R)}

/-- What a step does to the wiring: nothing, unless it is the tester's. -/
theorem Steps.wiring (h : Steps c c') :
    c'.wiring = c.wiring ∧ (c'.todo = c.todo ∨ c.todo = [] ∧ ∃ o : Op n E, c'.todo = o.program) ∨
      ∃ m, c.todo = m :: c'.todo ∧ c.wiring.wire m = some c'.wiring := by
  cases h with
  | op o htodo => exact .inl ⟨rfl, .inr ⟨htodo, o, rfl⟩⟩
  | tester m todo c₁ htodo hm => exact .inr ⟨m, htodo, (of_micro hm).trans rfl⟩
  | net l net _ hboard =>
    refine .inl ⟨?_, .inl rfl⟩
    simp only [Config.wiring, Wiring.mk.injEq, true_and]
    exact ⟨congrArg (·.ends) hboard, congrArg (·.enabled) hboard, congrArg (·.connections) hboard⟩
  | save => exact .inl ⟨rfl, .inl rfl⟩

/-- Once the operation is done, the network is well wired. -/
def WiringInv (c : Config n E σ R) : Prop := ∀ w, run wire c.wiring c.todo = some w → w.Good

theorem WiringInv.step (h : WiringInv c) (hs : Steps c c') : WiringInv c' := by
  intro w hw
  rcases hs.wiring with ⟨hwiring, htodo | ⟨htodo, o, hprogram⟩⟩ | ⟨m, htodo, hm⟩
  · exact h w (by rw [← hwiring, ← htodo, hw])
  · rw [hwiring, hprogram] at hw
    exact (h c.wiring (by rw [htodo]; rfl)).program hw
  · refine h w ?_
    rw [htodo]
    exact (run_cons_iff _).mpr ⟨_, hm, hw⟩

theorem WiringInv.of_run (h : run Config.step (Config.make n E σ R) evs = some c) : WiringInv c := by
  refine run_inductive (I := WiringInv) (fun _ _ _ hI hs => hI.step (steps_of_step hs)) ?_ h
  intro w hw
  obtain rfl := Option.some.inj hw
  exact ⟨nofun, nofun, nofun, by simp [Config.wiring, Config.make, makeNetwork], by simp [Config.wiring, Config.make]⟩

/-- **Who can reach whom.** In every run of tester, network and instances, whenever the tester
is between two operations an end is enabled exactly if it is the present end of a connected
peer to a connected peer; and the present ends lead to the peers they were made for. -/
theorem enabled_iff_connected (h : run Config.step (Config.make n E σ R) evs = some c) (hidle : c.todo = []) :
    (∀ e, c.net.board.enabled e = true ↔ ∃ i j names, c.endnames i = some names ∧ names j = e ∧
      c.connected i = true ∧ c.connected j = true) ∧
    ∀ i j names, c.endnames i = some names → c.net.board.connections (names j) = some j := by
  have hgood := WiringInv.of_run h c.wiring (by rw [hidle]; rfl)
  refine ⟨fun e => ?_, fun i j names hnames => hgood.wired i j _ ⟨names, hnames, rfl⟩⟩
  refine (hgood.enabled e).trans ?_
  constructor
  · rintro ⟨i, j, ⟨names, hnames, he⟩, hi, hj⟩
    exact ⟨i, j, names, hnames, he, hi, hj⟩
  · rintro ⟨i, j, names, hnames, he, hi, hj⟩
    exact ⟨i, j, ⟨names, hnames, he⟩, hi, hj⟩

/-- `e` is out of use, and what is left of the operation does not bring it back. -/
structure OldEnd (e : E) (c : Config n E σ R) : Prop where
  made : c.wiring.ends e = true
  disabled : c.wiring.enabled e = false
  left : Calm c.todo ∨ Steady c.todo ∧ ∀ i j, ¬c.wiring.Names i j e
  after : ∀ w, run wire c.wiring c.todo = some w → w.Good ∧ ∀ i j, ¬w.Names i j e

theorem OldEnd.step {e : E} (h : OldEnd e c) (hs : Steps c c') : OldEnd e c' := by
  rcases hs.wiring with ⟨hwiring, htodo | ⟨htodo, o, hprogram⟩⟩ | ⟨m, htodo, hm⟩
  · obtain ⟨h₁, h₂, h₃, h₄⟩ := h
    rw [← hwiring, ← htodo] at h₃ h₄
    exact ⟨hwiring ▸ h₁, hwiring ▸ h₂, h₃, h₄⟩
  · obtain ⟨hgood, hold⟩ := h.after c.wiring (by rw [htodo]; rfl)
    refine ⟨hwiring ▸ h.made, hwiring ▸ h.disabled, ?_, fun w hw => ?_⟩
    · rw [hprogram, hwiring]
      exact (calm_or_steady o).imp id fun hsteady => ⟨hsteady, hold⟩
    · rw [hwiring, hprogram] at hw
      exact ⟨hgood.program hw, hgood.program_old h.made hold hw⟩
  · obtain ⟨hends, henabled, hnames⟩ := wire_end hm e
    have hmem : m ∈ c.todo := htodo ▸ List.mem_cons_self ..
    have htail : ∀ m' ∈ c'.todo, m' ∈ c.todo := fun m' hm' => htodo ▸ List.mem_cons_of_mem _ hm'
    refine ⟨hends h.made, ?_, ?_, fun w hw => h.after w ?_⟩
    · rcases henabled h.disabled with hoff | ⟨src, dst, other, rfl, hname⟩
      · exact hoff
      · rcases h.left with hcalm | ⟨-, hold⟩
        · exact absurd hmem (hcalm src dst other)
        · exact absurd hname (hold src dst)
    · refine h.left.imp (fun hcalm a b d hm' => hcalm a b d (htail _ hm')) fun ⟨hsteady, hold⟩ =>
        ⟨fun i names hm' => hsteady i names (htail _ hm'), ?_⟩
      rcases hnames with hnames | ⟨i, names, rfl⟩
      · unfold Names
        rw [hnames]
        exact hold
      · exact absurd hmem (hsteady i names)
    · rw [htodo]
      exact (run_cons_iff _).mpr ⟨_, hm, hw⟩

/-- `processReq` has found the server of the call, or its handler has been started. -/
def Request.Reached {S V : Type*} (q : Request E S V R) : Prop := q.proc.info?.isSome ∨ q.handler ≠ .idle

omit [DecidableEq E] in
/-- Only over an enabled end is a server found. -/
theorem Acts.reached {S V : Type*} [DecidableEq V] {rn : Network E S V R} {q q' : Request E S V R} {a : Act R}
    (h : Acts rn q a q') (hq' : q'.Reached) : q.Reached ∨ rn.board.enabled q.endname = true := by
  cases h with
  | read info hp hread =>
    simp only [Board.readEndnameInfo, Prod.mk.injEq] at hread
    exact .inr hread.1
  | spawn _ hp | hand _ _ _ hp | desert _ hp => exact .inl (.inl (by rw [hp]; rfl))
  | begin _ hh | finish _ _ hh | drain _ _ hh => exact .inl (.inr (by simp [hh]))
  | lose _ _ _ hp | pass _ _ _ hp | fail _ _ hp | drop _ hp => exact .inl (.inl (by rw [hp]; rfl))
  | accept | refuse | unserved | deliver =>
    rcases hq' with hq' | hq'
    · cases hq'
    · exact .inl (.inr hq')
  | wait => exact .inl hq'

/-- **An end that is out of use stays silent.** Let the tester be between two operations, and
let `e` be an end that was made and is now no peer's (its peer has been restarted since). From
then on, whatever the tester, the network and the instances do, no call over `e` finds a server
or starts a handler if it had not before, and no reply passes the last look at the end if it had
not before: the only calls that still return `true` are those whose reply was already past it. -/
theorem old_end_silent {e : E} {r : ℕ} {q : Request E (Fin n) ℕ R}
    (h₁ : run Config.step (Config.make n E σ R) evs₁ = some c₁) (hidle : c₁.todo = [])
    (hmade : c₁.net.board.ends e = true) (hold : ∀ i j names, c₁.endnames i = some names → names j ≠ e)
    (h₂ : run Config.step c₁ evs₂ = some c₂) (hq : c₂.net.requests[r]? = some q) (he : q.endname = e) :
    (q.Reached → ∃ q₁, c₁.net.requests[r]? = some q₁ ∧ q₁.Reached) ∧
      ∀ reply, q.proc.Says reply → ∃ q₁, c₁.net.requests[r]? = some q₁ ∧ q₁.proc.Says reply := by
  have hgood := WiringInv.of_run h₁ c₁.wiring (by rw [hidle]; rfl)
  have hnone : ∀ i j, ¬c₁.wiring.Names i j e := fun i j ⟨names, hnames, he⟩ => hold i j names hnames he
  have hstart : OldEnd e c₁ := by
    refine ⟨hmade, ?_, .inl (by simp [Calm, hidle]), fun w hw => ?_⟩
    · refine Bool.eq_false_iff.mpr fun hen => ?_
      obtain ⟨i, j, hname, -⟩ := (hgood.enabled e).mp hen
      exact hnone i j hname
    · rw [hidle] at hw
      obtain rfl := Option.some.inj hw
      exact ⟨hgood, hnone⟩
  -- along the run the end stays disabled, and without it no call gets further
  refine (run_inductive (I := fun c : Config n E σ R => OldEnd e c ∧ ∀ q, c.net.requests[r]? = some q →
    q.endname = e → (q.Reached → ∃ q₁, c₁.net.requests[r]? = some q₁ ∧ q₁.Reached) ∧
      ∀ reply, q.proc.Says reply → ∃ q₁, c₁.net.requests[r]? = some q₁ ∧ q₁.proc.Says reply)
    (fun c ev c' hI hs => ?_) ⟨hstart, fun q hq _ => ⟨fun h => ⟨q, hq, h⟩, fun _ h => ⟨q, hq, h⟩⟩⟩ h₂).2 q hq he
  obtain ⟨hend, hcalls⟩ := hI
  have hs := steps_of_step hs
  refine ⟨hend.step hs, fun q' hq' he' => ?_⟩
  rcases hs.request hq' with hq | ⟨_, rfl⟩ | ⟨a, q, hq, hacts⟩
  · exact hcalls q' hq he'
  · exact ⟨by simp [Request.Reached, Proc.info?], by simp [Proc.Says]⟩
  · have heq : q.endname = e := hacts.endname.symm.trans he'
    have hoff : c.net.board.enabled q.endname ≠ true := by
      rw [heq]
      exact Bool.eq_false_iff.mp hend.disabled
    refine ⟨fun hreached => (hcalls q hq heq).1 ((hacts.reached hreached).resolve_right hoff), fun reply hsay => ?_⟩
    rcases hacts.says hsay with hsay | ⟨_, _, -, -, hen, -⟩
    · exact (hcalls q hq heq).2 reply hsay
    · exact absurd hen hoff

theorem enabled_iff_connected_both :
    ∃ c : Config 2 ℕ ℕ ℕ, run Config.step (Config.make 2 ℕ ℕ ℕ) (bothConnected 0 1) = some c ∧ c.todo = [] ∧
      c.net.board.enabled 1 = true ∧ c.net.board.connections 1 = some 1 := by
  have hall : ((run Config.step (Config.make 2 ℕ ℕ ℕ) (bothConnected 0 1)).map fun c =>
      (c.todo.isEmpty, c.connected 0, c.connected 1, (c.endnames 0).map fun names => names 1)) =
      some (true, true, true, some 1) := by decide +kernel
  simp only [Option.map_eq_some_iff, Prod.mk.injEq, List.isEmpty_iff] at hall
  obtain ⟨c, h, hidle, h0, h1, names, hnames, hname⟩ := hall
  obtain ⟨hiff, hwired⟩ := enabled_iff_connected h hidle
  have hwired' := hwired 0 1 names hnames
  rw [hname] at hwired'
  exact ⟨c, h, hidle, (hiff 1).mpr ⟨0, 1, names, hnames, hname, h0, h1⟩, hwired'⟩

/-- A peer calls the other, and is restarted before the answer is in. -/
def restartedCaller (a b : Fin n) : List (Event n ℕ ℕ ℕ) :=
  bothConnected a b ++ [.call b.val, .act 0 .accept, .act 0 .read, .act 0 .spawn, .act 0 .begin] ++
    perform (.start1 a fun j => 2 * n + j.val) ++ perform (.connect a)

theorem old_end_silent_restarted :
    ∃ c₁ c₂ : Config 2 ℕ ℕ ℕ, run Config.step (Config.make 2 ℕ ℕ ℕ) (restartedCaller 0 1) = some c₁ ∧
      run Config.step c₁ [.act 0 (.finish 5), .act 0 .hand, .act 0 (.check false), .act 0 .deliver] = some c₂ ∧
      ∀ q, c₂.net.requests[0]? = some q → ∀ reply, ¬q.proc.Says reply := by
  have hall : ((run Config.step (Config.make 2 ℕ ℕ ℕ) (restartedCaller 0 1)).bind fun c₁ =>
      (run Config.step c₁ [.act 0 (.finish 5), .act 0 .hand, .act 0 (.check false), .act 0 .deliver]).map fun c₂ =>
        (c₁.todo.isEmpty && c₁.net.board.ends 1 &&
          (List.finRange 2).all (fun i => (List.finRange 2).all fun j => (c₁.endnames i).all fun names => names j != 1),
          c₁.net.requests[0]?, c₂.net.requests[0]?)) =
      some (true, some ⟨1, .waiting ⟨1, 1, true⟩, .running 1, false⟩, some ⟨1, .returned none, .gone 1 5, false⟩) := by
    decide +kernel
  simp only [Option.bind_eq_some_iff, Option.map_eq_some_iff, Prod.mk.injEq, Bool.and_eq_true, List.isEmpty_iff,
    List.all_eq_true, List.mem_finRange, true_implies, Option.all_eq_true, bne_iff_ne] at hall
  obtain ⟨c₁, h₁, c₂, h₂, ⟨⟨hidle, hmade⟩, hold⟩, hq₁, hq₂⟩ := hall
  refine ⟨c₁, c₂, h₁, h₂, fun q hq reply hsay => ?_⟩
  obtain rfl : ⟨1, .returned none, .gone 1 5, false⟩ = q := Option.some.inj (hq₂.symm.trans hq)
  obtain ⟨q₁, hq₁', hsay₁⟩ := (old_end_silent h₁ hidle hmade hold h₂ hq rfl).2 reply hsay
  obtain rfl : ⟨1, .waiting ⟨1, 1, true⟩, .running 1, false⟩ = q₁ := Option.some.inj (hq₁.symm.trans hq₁')
  rcases hsay₁ with hsay₁ | hsay₁ <;> cases hsay₁

end Runs

end Cs426.Rpc
