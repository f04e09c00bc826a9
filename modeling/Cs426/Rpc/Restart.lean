import Cs426.Rpc.Harness

/-!
# Acknowledged state survives a restart

`processReq` looks at the server once more after the handler has returned, "to avoid
situation in which a client gets a positive reply to an Append, but the server persisted the
update into the old Persister. config.go is careful to call DeleteServer() before superseding
the Persister". Together the two do what they are for: a call that returns `true` was handled
by an instance whose persister had not been superseded when the handler returned, so whatever
was saved by then is in every later persister of the peer.

## The argument

A peer is up from `AddServer` to `DeleteServer`, and only while it is not up does the tester
replace its persister (`phaseStep`, `Standing`). The last look finds the server of the call
in place, so the peer is up, and the persister to be copied next is the one that instance
saves to.
-/

namespace Cs426.Rpc

open Cs426.Machine

variable {n : ℕ} {E σ R : Type*}

/-! ### The phases of a peer -/

/-- Where a peer stands: not on the network; made, but not yet on it; on the network. -/
inductive Phase where
  | down
  | built
  | up
  deriving DecidableEq

/-- How a small step moves the peers; `none` is a step that must not be taken there. -/
def phaseStep (φ : Fin n → Phase) : Micro n E → Option (Fin n → Phase)
  | .deleteServer i => some (Function.update φ i .down)
  | .copySaved i | .freshSaved i | .forget i => if φ i = .down then some φ else none
  | .make i => if φ i = .down then some (Function.update φ i .built) else none
  | .addServer i => if φ i = .built then some (Function.update φ i .up) else none
  | .mark .. | .enable .. | .disable .. | .rename .. | .makeEnd .. | .connectEnd .. => some φ

theorem run_phaseStep_of_forall {φ : Fin n → Phase} {ms : List (Micro n E)}
    (h : ∀ m ∈ ms, phaseStep φ m = some φ) : run phaseStep φ ms = some φ := by
  induction ms with
  | nil => rfl
  | cons m ms ih =>
    rw [run_cons_iff]
    exact ⟨φ, h m (List.mem_cons_self ..), ih fun m hm => h m (List.mem_cons_of_mem _ hm)⟩

theorem run_phaseStep_disconnect (φ : Fin n → Phase) (i : Fin n) :
    run phaseStep φ (disconnect i : List (Micro n E)) = some φ := by
  refine run_phaseStep_of_forall fun m hm => ?_
  simp only [disconnect, List.mem_cons, List.mem_append, List.mem_map] at hm
  obtain rfl | ⟨j, -, rfl⟩ | ⟨j, -, rfl⟩ := hm <;> rfl

theorem run_phaseStep_connect (φ : Fin n → Phase) (i : Fin n) :
    run phaseStep φ (connect i : List (Micro n E)) = some φ := by
  refine run_phaseStep_of_forall fun m hm => ?_
  simp only [connect, List.mem_cons, List.mem_append, List.mem_map] at hm
  obtain rfl | ⟨j, -, rfl⟩ | ⟨j, -, rfl⟩ := hm <;> rfl

theorem run_phaseStep_crash1 (φ : Fin n → Phase) (i : Fin n) :
    run phaseStep φ (crash1 i : List (Micro n E)) = some (Function.update φ i .down) := by
  rw [crash1, run_append, run_phaseStep_disconnect]
  simp [run, phaseStep]

/-- **Every operation of the tester replaces a persister only while its peer is down.** -/
theorem program_phased (φ : Fin n → Phase) (o : Op n E) : (run phaseStep φ o.program).isSome := by
  cases o with
  | connect i => simp [Op.program, run_phaseStep_connect]
  | disconnect i => simp [Op.program, run_phaseStep_disconnect]
  | crash1 i => simp [Op.program, run_phaseStep_crash1]
  | start1 i names =>
    have hends : run phaseStep (Function.update φ i .down)
        ((List.finRange n).flatMap fun j => [(.makeEnd i j : Micro n E), .connectEnd i j]) =
        some (Function.update φ i .down) := by
      refine run_phaseStep_of_forall fun m hm => ?_
      simp only [List.mem_flatMap, List.mem_cons, List.not_mem_nil, or_false] at hm
      obtain ⟨j, -, rfl | rfl⟩ := hm <;> rfl
    simp only [Op.program, start1, run_append, run_phaseStep_crash1, Option.bind_some, run, phaseStep, hends]
    simp

/-- What is so of a peer in a phase. -/
def Standing (c : Config n E σ R) (i : Fin n) : Phase → Prop
  | .down => c.net.board.servers i = none
  | .built => c.net.board.servers i = none ∧
      ∃ k p, c.rafts i = some k ∧ c.instances[k]? = some ⟨i, p⟩ ∧ c.saved i = some p
  | .up => ∃ k p, c.net.board.servers i = some k ∧ c.instances[k]? = some ⟨i, p⟩ ∧ c.saved i = some p

/-- A peer on the network saves to the persister that the tester would copy. -/
theorem Standing.of_server {c : Config n E σ R} {i : Fin n} {φ : Phase} (h : Standing c i φ) {k : ℕ}
    (hk : c.net.board.servers i = some k) : ∃ p, c.instances[k]? = some ⟨i, p⟩ ∧ c.saved i = some p := by
  cases φ with
  | down => simp [Standing, hk] at h
  | built => simp [Standing, hk] at h
  | up =>
    obtain ⟨k', p, hk', hinst, hsaved⟩ := h
    obtain rfl : k' = k := Option.some.inj (hk'.symm.trans hk)
    exact ⟨p, hinst, hsaved⟩

/-- What a standing rests on. -/
theorem Standing.congr {c c' : Config n E σ R} {i : Fin n} {φ : Phase} (h : Standing c i φ)
    (hservers : c'.net.board.servers i = c.net.board.servers i) (hrafts : c'.rafts i = c.rafts i)
    (hsaved : c'.saved i = c.saved i)
    (hinst : ∀ (k : ℕ) (inst : Instance n), c.instances[k]? = some inst → c'.instances[k]? = some inst) :
    Standing c' i φ := by
  cases φ with
  | down => exact hservers.trans h
  | built =>
    obtain ⟨hs, k, p, hk, hi, hp⟩ := h
    exact ⟨hservers.trans hs, k, p, hrafts.trans hk, hinst k _ hi, hsaved.trans hp⟩
  | up =>
    obtain ⟨k, p, hk, hi, hp⟩ := h
    exact ⟨k, p, hservers.trans hk, hinst k _ hi, hsaved.trans hp⟩

variable [DecidableEq E] {c c' : Config n E σ R}

omit [DecidableEq E] in
/-- A peer that is down may get a new persister. -/
theorem standing_setSaved {φ : Fin n → Phase} {j : Fin n} (states : List σ) (hj : φ j = .down)
    (h : ∀ i, Standing c i (φ i)) (i : Fin n) : Standing (c.setSaved j states) i (φ i) := by
  by_cases hij : i = j
  · subst hij
    have hi := h i
    rw [hj] at hi ⊢
    exact hi
  · exact (h i).congr rfl rfl (Function.update_of_ne hij ..) fun _ _ hk => hk

/-- **A small step moves every peer as its phase says.** -/
theorem standing_micro {m : Micro n E} {φ φ' : Fin n → Phase} (hm : c.micro m = some c') (hφ : phaseStep φ m = some φ')
    (h : ∀ i, Standing c i (φ i)) (i : Fin n) : Standing c' i (φ' i) := by
  have hsame : φ' = φ → c'.net.board.servers = c.net.board.servers → c'.rafts = c.rafts → c'.saved = c.saved →
      c'.instances = c.instances → Standing c' i (φ' i) := by
    rintro rfl hs hr hp hi
    exact (h i).congr (by rw [hs]) (by rw [hr]) (by rw [hp]) fun k inst hk => hi ▸ hk
  cases m with
  | mark j yes =>
    cases hm
    cases hφ
    exact hsame rfl rfl rfl rfl rfl
  | enable src dst other =>
    cases hφ
    simp only [Config.micro] at hm
    split_ifs at hm
    · obtain ⟨names, -, rfl⟩ := Option.map_eq_some_iff.mp hm
      exact hsame rfl rfl rfl rfl rfl
    · cases hm
      exact hsame rfl rfl rfl rfl rfl
  | disable src dst =>
    cases hφ
    simp only [Config.micro] at hm
    split at hm <;> cases hm <;> exact hsame rfl rfl rfl rfl rfl
  | rename j names =>
    cases hm
    cases hφ
    exact hsame rfl rfl rfl rfl rfl
  | makeEnd j j' =>
    cases hφ
    obtain ⟨names, -, hm⟩ := Option.bind_eq_some_iff.mp hm
    obtain ⟨b, hb, rfl⟩ := Option.map_eq_some_iff.mp hm
    refine hsame rfl ?_ rfl rfl rfl
    obtain ⟨-, rfl⟩ := by simpa [Board.makeEnd] using hb
    rfl
  | connectEnd j j' =>
    cases hφ
    obtain ⟨names, -, rfl⟩ := Option.map_eq_some_iff.mp hm
    exact hsame rfl rfl rfl rfl rfl
  | deleteServer j =>
    cases hm
    cases hφ
    by_cases hij : i = j
    · subst hij
      simp [Standing, Config.setBoard, Board.deleteServer]
    · rw [Function.update_of_ne hij]
      refine (h i).congr ?_ rfl rfl fun _ _ hk => hk
      simp [Config.setBoard, Board.deleteServer, Function.update_of_ne hij]
  | copySaved j =>
    obtain ⟨hj, rfl⟩ := by simpa [phaseStep] using hφ
    simp only [Config.micro] at hm
    split at hm
    · obtain ⟨states, -, rfl⟩ := Option.map_eq_some_iff.mp hm
      exact standing_setSaved states hj h i
    · cases hm
      exact hsame rfl rfl rfl rfl rfl
  | freshSaved j =>
    obtain ⟨hj, rfl⟩ := by simpa [phaseStep] using hφ
    simp only [Config.micro] at hm
    split at hm
    · obtain ⟨states, -, rfl⟩ := Option.map_eq_some_iff.mp hm
      exact standing_setSaved states hj h i
    · cases hm
      exact standing_setSaved [] hj h i
  | forget j =>
    cases hm
    obtain ⟨hj, rfl⟩ := by simpa [phaseStep] using hφ
    by_cases hij : i = j
    · subst hij
      have hi := h i
      rw [hj] at hi ⊢
      exact hi
    · exact (h i).congr rfl (Function.update_of_ne hij ..) rfl fun _ _ hk => hk
  | make j =>
    obtain ⟨hj, rfl⟩ := by simpa [phaseStep] using hφ
    obtain ⟨p, hp, rfl⟩ := Option.map_eq_some_iff.mp hm
    by_cases hij : i = j
    · subst hij
      have hi := h i
      rw [hj] at hi
      rw [Function.update_self]
      exact ⟨hi, c.instances.length, p, Function.update_self .., by simp, hp⟩
    · rw [Function.update_of_ne hij]
      exact (h i).congr rfl (Function.update_of_ne hij ..) rfl fun k inst hk =>
        (List.getElem?_append_left (List.getElem?_eq_some_iff.mp hk).1).trans hk
  | addServer j =>
    obtain ⟨hj, rfl⟩ := by simpa [phaseStep] using hφ
    obtain ⟨k, hk, rfl⟩ := Option.map_eq_some_iff.mp hm
    by_cases hij : i = j
    · subst hij
      have hi := h i
      rw [hj] at hi
      obtain ⟨-, k', p, hk', hinst, hp⟩ := hi
      obtain rfl : k' = k := Option.some.inj (hk'.symm.trans hk)
      rw [Function.update_self]
      exact ⟨k', p, Function.update_self .., hinst, hp⟩
    · rw [Function.update_of_ne hij]
      exact (h i).congr (Function.update_of_ne hij ..) rfl rfl fun _ _ hk => hk

/-! ### Nothing saved is lost -/

/-- Persister `p` holds what was saved up to `m`. -/
def Holds (c : Config n E σ R) (p : ℕ) (m : List σ) : Prop := ∃ states, c.persisters[p]? = some states ∧ m <:+ states

/-- The persister of peer `i` holds what was saved up to `m`. -/
def Keeps (c : Config n E σ R) (i : Fin n) (m : List σ) : Prop := ∃ p, c.saved i = some p ∧ Holds c p m

/-- Instances stay what they are, and nothing saved is lost. -/
structure Grows (c c' : Config n E σ R) : Prop where
  instances : ∀ (k : ℕ) (inst : Instance n), c.instances[k]? = some inst → c'.instances[k]? = some inst
  holds : ∀ p m, Holds c p m → Holds c' p m
  keeps : ∀ i m, Keeps c i m → Keeps c' i m

omit [DecidableEq E] in
theorem Grows.of_eq
    (hinst : ∀ (k : ℕ) (inst : Instance n), c.instances[k]? = some inst → c'.instances[k]? = some inst) (hpers : c'.persisters = c.persisters)
    (hsaved : c'.saved = c.saved) : Grows c c' := by
  refine ⟨hinst, fun p m h => ?_, fun i m h => ?_⟩
  · unfold Holds
    rwa [hpers]
  · unfold Keeps Holds
    rwa [hsaved, hpers]

omit [DecidableEq E] in
/-- A new persister for a peer takes over what the old one held. -/
theorem Grows.setSaved {j : Fin n} {states : List σ} (h : ∀ m, Keeps c j m → m <:+ states) :
    Grows c (c.setSaved j states) := by
  have hholds : ∀ p m, Holds c p m → Holds (c.setSaved j states) p m := by
    rintro p m ⟨old, hp, hm⟩
    exact ⟨old, (List.getElem?_append_left (List.getElem?_eq_some_iff.mp hp).1).trans hp, hm⟩
  refine ⟨fun _ _ hk => hk, hholds, fun i m hi => ?_⟩
  by_cases hij : i = j
  · subst hij
    exact ⟨c.persisters.length, Function.update_self .., states, by simp [Config.setSaved], h m hi⟩
  · obtain ⟨p, hp, hm⟩ := hi
    exact ⟨p, (Function.update_of_ne hij ..).trans hp, hholds p m hm⟩

/-- What a small step does to instances and persisters: nothing; one peer gets a new persister,
with at least what the old one held; or a new instance is made. -/
inductive MicroCases (c c' : Config n E σ R) : Prop
  | quiet : c'.instances = c.instances → c'.persisters = c.persisters → c'.saved = c.saved → MicroCases c c'
  | saved (j : Fin n) (states : List σ) : (∀ m, Keeps c j m → m <:+ states) → c' = c.setSaved j states →
      MicroCases c c'
  | made (j : Fin n) (p : ℕ) : c.saved j = some p → c'.instances = c.instances ++ [⟨j, p⟩] →
      c'.persisters = c.persisters → c'.saved = c.saved → MicroCases c c'

theorem micro_cases {m : Micro n E} (hm : c.micro m = some c') :
    c'.net.requests = c.net.requests ∧ MicroCases c c' := by
  have hcopy : ∀ (j : Fin n) (p : ℕ) (states : List σ), c.saved j = some p → c.persisters[p]? = some states →
      MicroCases c (c.setSaved j states) := by
    intro j p states hp hstates
    refine .saved j states (fun m ⟨p', hp', old, hold, hm⟩ => ?_) rfl
    obtain rfl : p' = p := Option.some.inj (hp'.symm.trans hp)
    obtain rfl : old = states := Option.some.inj (hold.symm.trans hstates)
    exact hm
  cases m with
  | mark | deleteServer | forget | rename =>
    cases hm
    exact ⟨rfl, .quiet rfl rfl rfl⟩
  | enable src dst other =>
    simp only [Config.micro] at hm
    split_ifs at hm
    · obtain ⟨names, -, rfl⟩ := Option.map_eq_some_iff.mp hm
      exact ⟨rfl, .quiet rfl rfl rfl⟩
    · cases hm
      exact ⟨rfl, .quiet rfl rfl rfl⟩
  | disable src dst =>
    simp only [Config.micro] at hm
    split at hm <;> cases hm <;> exact ⟨rfl, .quiet rfl rfl rfl⟩
  | makeEnd i j =>
    obtain ⟨names, -, hm⟩ := Option.bind_eq_some_iff.mp hm
    obtain ⟨b, -, rfl⟩ := Option.map_eq_some_iff.mp hm
    exact ⟨rfl, .quiet rfl rfl rfl⟩
  | connectEnd i j | addServer i =>
    obtain ⟨_, -, rfl⟩ := Option.map_eq_some_iff.mp hm
    exact ⟨rfl, .quiet rfl rfl rfl⟩
  | copySaved i =>
    simp only [Config.micro] at hm
    split at hm
    · next p hp =>
      obtain ⟨states, hstates, rfl⟩ := Option.map_eq_some_iff.mp hm
      exact ⟨rfl, hcopy i p states hp hstates⟩
    · cases hm
      exact ⟨rfl, .quiet rfl rfl rfl⟩
  | freshSaved i =>
    simp only [Config.micro] at hm
    split at hm
    · next p hp =>
      obtain ⟨states, hstates, rfl⟩ := Option.map_eq_some_iff.mp hm
      exact ⟨rfl, hcopy i p states hp hstates⟩
    · next hnone =>
      cases hm
      refine ⟨rfl, .saved i [] (fun m hkeeps => ?_) rfl⟩
      obtain ⟨p, hp, -⟩ := hkeeps
      exact absurd (hnone.symm.trans hp) nofun
  | make i =>
    obtain ⟨p, hp, rfl⟩ := Option.map_eq_some_iff.mp hm
    exact ⟨rfl, .made i p hp rfl rfl rfl⟩

omit [DecidableEq E] in
theorem MicroCases.grows (h : MicroCases c c') : Grows c c' := by
  cases h with
  | quiet hinst hpers hsaved => exact .of_eq (fun _ _ hk => hinst ▸ hk) hpers hsaved
  | saved j states hstates hc => exact hc ▸ .setSaved hstates
  | made j p _ hinst hpers hsaved =>
    refine .of_eq (fun k inst hk => ?_) hpers hsaved
    rw [hinst, List.getElem?_append_left (List.getElem?_eq_some_iff.mp hk).1, hk]

omit [DecidableEq E] in
/-- An instance saves a state. -/
theorem Grows.save {p : ℕ} {states : List σ} (hp : c.persisters[p]? = some states) (state : σ) :
    Grows c { c with persisters := c.persisters.set p (state :: states) } := by
  have hholds : ∀ p' m, Holds c p' m →
      Holds ({ c with persisters := c.persisters.set p (state :: states) } : Config n E σ R) p' m := by
    rintro p' m ⟨old, hold, hm⟩
    by_cases hpp : p = p'
    · subst hpp
      obtain rfl : old = states := Option.some.inj (hold.symm.trans hp)
      exact ⟨_, List.getElem?_set_self (List.getElem?_eq_some_iff.mp hp).1, hm.trans (List.suffix_cons ..)⟩
    · exact ⟨old, (List.getElem?_set_ne hpp).trans hold, hm⟩
  exact ⟨fun _ _ hk => hk, hholds, fun i m ⟨p', hp', hm⟩ => ⟨p', hp', hholds p' m hm⟩⟩

/-- What a step does. -/
inductive Steps (c : Config n E σ R) : Config n E σ R → Prop
  | op (o : Op n E) : c.todo = [] → Steps c { c with todo := o.program }
  | tester (m : Micro n E) (todo : List (Micro n E)) (c₁ : Config n E σ R) : c.todo = m :: todo → c.micro m = some c₁ →
      Steps c { c₁ with todo := todo }
  /-- A step of the network that leaves ends and servers alone. -/
  | net (l : NetLabel E (Fin n) ℕ R) (net : Network E (Fin n) ℕ R) : c.net.step l = some net →
      net.board = { c.net.board with reliable := net.board.reliable } → Steps c { c with net := net }
  | save (p : ℕ) (states : List σ) (state : σ) : c.persisters[p]? = some states →
      Steps c { c with persisters := c.persisters.set p (state :: states) }

/-- **What a step does.** -/
theorem steps_of_step {ev : Event n E σ R} (hs : c.step ev = some c') : Steps c c' := by
  cases ev with
  | op o =>
    simp only [Config.step, Option.ite_none_right_eq_some, List.isEmpty_iff] at hs
    obtain ⟨htodo, ⟨⟩⟩ := hs
    exact .op o htodo
  | tester =>
    simp only [Config.step] at hs
    split at hs
    · cases hs
    · next m todo htodo =>
      obtain ⟨c₁, hm, rfl⟩ := Option.map_eq_some_iff.mp hs
      exact .tester m todo c₁ htodo hm
  | call e =>
    obtain ⟨net, hnet, rfl⟩ := Option.map_eq_some_iff.mp hs
    refine .net _ net hnet ?_
    simp only [Network.step, Option.ite_none_right_eq_some] at hnet
    obtain ⟨-, ⟨⟩⟩ := hnet
    rfl
  | act r a =>
    obtain ⟨net, hnet, rfl⟩ := Option.map_eq_some_iff.mp hs
    refine .net _ net hnet ?_
    obtain ⟨q, q', -, -, rfl⟩ := Network.step_act_iff.mp hnet
    rfl
  | save k state =>
    obtain ⟨inst, -, hs⟩ := Option.bind_eq_some_iff.mp hs
    obtain ⟨states, hp, rfl⟩ := Option.map_eq_some_iff.mp hs
    exact .save inst.persister states state hp
  | reliable yes =>
    cases hs
    exact .net (.reliable yes) _ rfl rfl

theorem Steps.grows (h : Steps c c') : Grows c c' := by
  cases h with
  | op | net => exact .of_eq (fun _ _ hk => hk) rfl rfl
  | tester m todo c₁ _ hm =>
    obtain ⟨hi, hh, hk⟩ := (micro_cases hm).2.grows
    exact ⟨hi, hh, hk⟩
  | save p states state hp => exact .save hp state

/-- What a step does to a call. -/
theorem Steps.request {r : ℕ} {q' : Request E (Fin n) ℕ R} (h : Steps c c') (hq' : c'.net.requests[r]? = some q') :
    c.net.requests[r]? = some q' ∨ (∃ e, q' = ⟨e, .called, .idle, false⟩) ∨
      ∃ a q, c.net.requests[r]? = some q ∧ Acts c.net q a q' := by
  cases h with
  | op | save => exact .inl hq'
  | tester m todo c₁ _ hm => exact .inl ((micro_cases hm).1 ▸ hq')
  | net l net hs =>
    rcases Network.request_cases hs hq' with h | h | ⟨a, q, -, hq, hacts⟩
    · exact .inl h
    · exact .inr (.inl h)
    · exact .inr (.inr ⟨a, q, hq, hacts⟩)

/-- A call stays on record, as it was or after one of its acts. -/
theorem Steps.request_step {r : ℕ} {q : Request E (Fin n) ℕ R} (h : Steps c c') (hq : c.net.requests[r]? = some q) :
    ∃ q', c'.net.requests[r]? = some q' ∧ (q' = q ∨ ∃ a, Acts c.net q a q') := by
  cases h with
  | op | save => exact ⟨q, hq, .inl rfl⟩
  | tester m todo c₁ _ hm => exact ⟨q, (micro_cases hm).1 ▸ hq, .inl rfl⟩
  | net l net hs =>
    obtain ⟨q', hq', h | ⟨a, -, hacts⟩⟩ := Network.request_step hs hq
    · exact ⟨q', hq', .inl h⟩
    · exact ⟨q', hq', .inr ⟨a, hacts⟩⟩

/-! ### Over whole runs -/

/-- What holds at every moment: the tester is somewhere in an operation that keeps to the
phases, the server a call has found is an instance of the peer it asked for, handlers run on
instances, and all persisters in use exist. -/
structure HarnessInv (c : Config n E σ R) : Prop where
  fit : c.net.Fit
  phases : ∃ φ, (run phaseStep φ c.todo).isSome ∧ ∀ i, Standing c i (φ i)
  found : ∀ (r : ℕ) (q : Request E (Fin n) ℕ R) (info : Info (Fin n) ℕ), c.net.requests[r]? = some q →
    q.proc.info? = some info → ∃ p, c.instances[info.server]? = some ⟨info.servername, p⟩
  handled : ∀ (r : ℕ) (q : Request E (Fin n) ℕ R) (k : ℕ), c.net.requests[r]? = some q →
    q.handler.server? = some k → ∃ inst, c.instances[k]? = some inst
  saved : ∀ (i : Fin n) (p : ℕ), c.saved i = some p → Holds c p []
  given : ∀ (k : ℕ) (inst : Instance n), c.instances[k]? = some inst → Holds c inst.persister []

namespace HarnessInv

omit [DecidableEq E] in
theorem make : HarnessInv (Config.make n E σ R) :=
  ⟨fit_makeNetwork, ⟨fun _ => .down, rfl, fun _ => rfl⟩, by simp [Config.make, makeNetwork],
    by simp [Config.make, makeNetwork], nofun, by simp [Config.make]⟩

/-- The tester stays within the phases. -/
theorem phases_step (h : HarnessInv c) (hs : Steps c c') :
    ∃ φ, (run phaseStep φ c'.todo).isSome ∧ ∀ i, Standing c' i (φ i) := by
  obtain ⟨φ, hrun, hφ⟩ := h.phases
  cases hs with
  | op o => exact ⟨φ, program_phased φ o, fun i => (hφ i).congr rfl rfl rfl fun _ _ hk => hk⟩
  | tester m todo c₁ htodo hm =>
    obtain ⟨φ₂, hφ₂⟩ := Option.isSome_iff_exists.mp hrun
    rw [htodo] at hφ₂
    obtain ⟨φ₁, hφ₁, hrest⟩ := (run_cons_iff _).mp hφ₂
    refine ⟨φ₁, by rw [hrest]; rfl, fun i => ?_⟩
    exact (standing_micro hm hφ₁ hφ i).congr rfl rfl rfl fun _ _ hk => hk
  | net l net _ hboard =>
    exact ⟨φ, hrun, fun i => (hφ i).congr (congrArg (·.servers i) hboard) rfl rfl fun _ _ hk => hk⟩
  | save p states state hp => exact ⟨φ, hrun, fun i => (hφ i).congr rfl rfl rfl fun _ _ hk => hk⟩

theorem found_step (h : HarnessInv c) (hs : Steps c c') {r : ℕ} {q' : Request E (Fin n) ℕ R} {info : Info (Fin n) ℕ}
    (hq' : c'.net.requests[r]? = some q') (hinfo : q'.proc.info? = some info) :
    ∃ p, c'.instances[info.server]? = some ⟨info.servername, p⟩ := by
  rcases hs.request hq' with hq | ⟨e, rfl⟩ | ⟨a, q, hq, hacts⟩
  · obtain ⟨p, hp⟩ := h.found r q' info hq hinfo
    exact ⟨p, hs.grows.instances _ _ hp⟩
  · cases hinfo
  · rcases hacts.info? hinfo with hinfo | hserver
    · obtain ⟨p, hp⟩ := h.found r q info hq hinfo
      exact ⟨p, hs.grows.instances _ _ hp⟩
    · -- the end was looked up now, and the peer is up
      obtain ⟨φ, -, hφ⟩ := h.phases
      obtain ⟨p, hp, -⟩ := (hφ info.servername).of_server hserver
      exact ⟨p, hs.grows.instances _ _ hp⟩

theorem handled_step (h : HarnessInv c) (hs : Steps c c') {r : ℕ} {q' : Request E (Fin n) ℕ R} {k : ℕ}
    (hq' : c'.net.requests[r]? = some q') (hk : q'.handler.server? = some k) : ∃ inst, c'.instances[k]? = some inst := by
  have hold : ∃ inst, c.instances[k]? = some inst := by
    rcases hs.request hq' with hq | ⟨e, rfl⟩ | ⟨a, q, hq, hacts⟩
    · exact h.handled r q' k hq hk
    · cases hk
    · rcases hacts.server? hk with hk | ⟨info, hinfo, rfl⟩
      · exact h.handled r q k hq hk
      · obtain ⟨p, hp⟩ := h.found r q info hq hinfo
        exact ⟨_, hp⟩
  obtain ⟨inst, hinst⟩ := hold
  exact ⟨inst, hs.grows.instances _ _ hinst⟩

/-- Persisters in use exist. -/
theorem persisters_step (h : HarnessInv c) (hs : Steps c c') :
    (∀ (i : Fin n) (p : ℕ), c'.saved i = some p → Holds c' p []) ∧
      ∀ (k : ℕ) (inst : Instance n), c'.instances[k]? = some inst → Holds c' inst.persister [] := by
  have hgrows := hs.grows
  have hsame : c'.saved = c.saved → c'.instances = c.instances → _ := fun h₁ h₂ =>
    And.intro (fun i p hp => hgrows.holds p [] (h.saved i p (h₁ ▸ hp)))
      fun (k : ℕ) inst hk => hgrows.holds _ [] (h.given k inst (h₂ ▸ hk))
  cases hs with
  | op | net | save => exact hsame rfl rfl
  | tester m todo c₁ _ hm =>
    cases (micro_cases hm).2 with
    | quiet hinst _ hsaved => exact hsame hsaved hinst
    | saved j states _ hc =>
      subst hc
      refine ⟨fun i p hp => ?_, (hgrows.holds _ [] <| h.given · · ·)⟩
      by_cases hij : i = j
      · subst hij
        simp only [Config.setSaved, Function.update_self, Option.some.injEq] at hp
        exact ⟨states, by simp [Config.setSaved, ← hp], List.nil_suffix⟩
      · simp only [Config.setSaved, Function.update_of_ne hij] at hp
        exact hgrows.holds p [] (h.saved i p hp)
    | made j p hp hinst _ hsaved =>
      refine ⟨fun i p hp => hgrows.holds p [] (h.saved i p (hsaved ▸ hp)), fun k inst hk => hgrows.holds _ [] ?_⟩
      simp only [hinst] at hk
      rcases Counting.getElem?_concat_cases hk with hk | rfl
      · exact h.given k inst hk
      · exact h.saved j p hp

theorem step (h : HarnessInv c) (hs : Steps c c') : HarnessInv c' := by
  obtain ⟨hsaved, hgiven⟩ := h.persisters_step hs
  refine ⟨?_, h.phases_step hs, fun r q info hq hinfo => h.found_step hs hq hinfo,
    fun r q k hq hk => h.handled_step hs hq hk, hsaved, hgiven⟩
  intro r q' hq'
  rcases hs.request hq' with hq | ⟨e, rfl⟩ | ⟨a, q, hq, hacts⟩
  · exact h.fit r q' hq
  · exact ⟨rfl, rfl⟩
  · exact (h.fit r q hq).acts hacts

theorem of_run {evs : List (Event n E σ R)} (h : run Config.step (Config.make n E σ R) evs = some c) : HarnessInv c :=
  run_inductive (I := HarnessInv) (fun _ _ _ hI hs => hI.step (steps_of_step hs)) make h

end HarnessInv

/-! ### A call that returns `true` -/

/-- The handler of call `r` has returned on instance `k` of peer `i`, which saves to `p`, with
`m` saved there; and if the call says `true`, then `m` is in the persister of the peer. -/
structure Acked (r k p : ℕ) (i : Fin n) (m : List σ) (reply : R) (c : Config n E σ R) : Prop where
  instance_ : c.instances[k]? = some ⟨i, p⟩
  holds : Holds c p m
  call : ∃ q, c.net.requests[r]? = some q ∧ (q.handler = .finished k reply ∨ q.handler = .gone k reply) ∧
    ((∃ rep, q.proc.Says rep) → Keeps c i m)

theorem Acked.step {r k p : ℕ} {i : Fin n} {m : List σ} {reply : R} (h : Acked r k p i m reply c) (hI : HarnessInv c)
    (hs : Steps c c') : Acked r k p i m reply c' := by
  have hgrows := hs.grows
  obtain ⟨q, hq, hh, hsay⟩ := h.call
  refine ⟨hgrows.instances _ _ h.instance_, hgrows.holds _ _ h.holds, ?_⟩
  obtain ⟨q', hq', rfl | ⟨a, hacts⟩⟩ := hs.request_step hq
  · exact ⟨q', hq', hh, fun hrep => hgrows.keeps _ _ (hsay hrep)⟩
  · refine ⟨q', hq', (hI.fit r q hq).returned hacts hh, fun ⟨rep, hrep⟩ => hgrows.keeps _ _ ?_⟩
    rcases hacts.says hrep with hrep | ⟨lose, info, -, hp, -, hserver⟩
    · exact hsay ⟨rep, hrep⟩
    · -- the last look: the peer is up, with the instance that ran the handler
      have hgone : q.handler = .gone info.server rep := by simpa [Request.Fits, hp] using hI.fit r q hq
      obtain rfl : info.server = k := by
        rcases hh with hh | hh
        · rw [hgone] at hh
          cases hh
        · have := hgone.symm.trans hh
          simp only [Handler.gone.injEq] at this
          exact this.1
      obtain ⟨φ, -, hφ⟩ := hI.phases
      obtain ⟨p', hinst, hsaved⟩ := (hφ info.servername).of_server hserver
      have := hinst.symm.trans h.instance_
      simp only [Option.some.injEq, Instance.mk.injEq] at this
      obtain ⟨rfl, rfl⟩ := this
      exact ⟨p', hsaved, h.holds⟩

omit [DecidableEq E] in
theorem Holds.stored {k p : ℕ} {i : Fin n} (hinst : c.instances[k]? = some ⟨i, p⟩) (h : Holds c p []) :
    Holds c p (c.stored k) := by
  obtain ⟨states, hp, -⟩ := h
  exact ⟨states, hp, by simp [Config.stored, hinst, hp]⟩

omit [DecidableEq E] in
theorem Keeps.isSuffix_kept {i : Fin n} {m : List σ} (h : Keeps c i m) : m <:+ c.kept i := by
  obtain ⟨p, hp, states, hstates, hm⟩ := h
  simpa [Config.kept, hp, hstates] using hm

/-- **Acknowledged state survives a restart.** Let the handler of a call return `reply` on an
instance of a peer, at any point of any run of tester, network and instances, and let the call
return `true` later. Then the reply is that one, and from then on all that was saved on that
instance's persister when the handler returned is in the persister the tester keeps for the
peer, through any number of crashes and restarts. -/
theorem acknowledged_state_kept {evs₁ evs₂ : List (Event n E σ R)} {c₁ c₂ c₃ : Config n E σ R} {r : ℕ} {reply rep : R}
    {q : Request E (Fin n) ℕ R} (h₁ : run Config.step (Config.make n E σ R) evs₁ = some c₁)
    (hfinish : c₁.step (.act r (.finish reply)) = some c₂) (h₂ : run Config.step c₂ evs₂ = some c₃)
    (hq : c₃.net.requests[r]? = some q) (hret : q.proc = .returned (some rep)) :
    rep = reply ∧ ∃ k inst, c₂.instances[k]? = some inst ∧ q.handler = .gone k reply ∧
      c₂.stored k <:+ c₃.kept inst.peer := by
  have hI₁ := HarnessInv.of_run h₁
  have hI₂ := hI₁.step (steps_of_step hfinish)
  obtain ⟨net, hnet, rfl⟩ := Option.map_eq_some_iff.mp hfinish
  obtain ⟨q₁, q₂, hq₁, hacts, rfl⟩ := Network.step_act_iff.mp hnet
  cases hacts with
  | finish k _ hh =>
    obtain ⟨⟨i, p⟩, hinst⟩ := hI₁.handled r q₁ k hq₁ (by rw [hh]; rfl)
    -- while the handler runs the call says nothing
    have hsilent : ¬∃ rep, q₁.proc.Says rep := by
      rintro ⟨rep, hrep⟩
      have hgone := hI₁.fit r q₁ hq₁
      rcases hrep with hrep | hrep <;> simp [Request.Fits, hrep, hh] at hgone
    have hacked := run_inductive
      (I := fun c => HarnessInv c ∧ Acked r k p i (c₁.stored k) reply c)
      (fun _ _ _ hI hs => ⟨hI.1.step (steps_of_step hs), hI.2.step hI.1 (steps_of_step hs)⟩)
      ⟨hI₂, hinst, .stored hinst (hI₁.given k _ hinst), _, List.getElem?_set_self (List.getElem?_eq_some_iff.mp hq₁).1,
        .inl rfl, fun hrep => absurd hrep hsilent⟩ h₂
    obtain ⟨hI₃, -, -, q₃, hq₃, hh₃, hsay⟩ := hacked
    obtain rfl : q₃ = q := Option.some.inj (hq₃.symm.trans hq)
    have hgone : ∃ server, q₃.handler = .gone server rep := by simpa [Request.Fits, hret] using hI₃.fit r q₃ hq
    obtain ⟨server, hgone⟩ := hgone
    have hboth : server = k ∧ rep = reply := by simpa [hgone] using hh₃
    obtain ⟨rfl, rfl⟩ := hboth
    exact ⟨rfl, server, ⟨i, p⟩, hinst, hgone, (hsay ⟨rep, .inr hret⟩).isSuffix_kept⟩

/-- The tester does all of an operation. -/
def perform (o : Op n E) : List (Event n E σ R) := .op o :: List.replicate o.program.length .tester

/-- Two peers are started and connected. -/
def bothConnected (a b : Fin n) : List (Event n ℕ ℕ ℕ) :=
  perform (.start1 a fun j => j.val) ++ perform (.start1 b fun j => n + j.val) ++ perform (.connect a) ++
    perform (.connect b)

/-- The first peer calls the second, which saves 7. -/
def beforeReturn (a b : Fin n) : List (Event n ℕ ℕ ℕ) :=
  bothConnected a b ++ [.call b.val, .act 0 .accept, .act 0 .read, .act 0 .spawn, .act 0 .begin, .save 1 7]

/-- The call returns, and the second peer is restarted. -/
def afterReturn (b : Fin n) : List (Event n ℕ ℕ ℕ) :=
  [.act 0 .hand, .act 0 (.check false), .act 0 .deliver, .save 1 8] ++ perform (.start1 b fun j => 2 * n + j.val)

theorem acknowledged_state_kept_restarted :
    ∃ c₁ c₂ c₃ : Config 2 ℕ ℕ ℕ, run Config.step (Config.make 2 ℕ ℕ ℕ) (beforeReturn 0 1) = some c₁ ∧
      c₁.step (.act 0 (.finish 5)) = some c₂ ∧ run Config.step c₂ (afterReturn 1) = some c₃ ∧
      c₂.stored 1 = [7] ∧ c₂.stored 1 <:+ c₃.kept 1 := by
  have hall : ((run Config.step (Config.make 2 ℕ ℕ ℕ) (beforeReturn 0 1)).bind fun c₁ =>
      (c₁.step (.act 0 (.finish 5))).bind fun c₂ => (run Config.step c₂ (afterReturn 1)).map fun c₃ =>
        (c₂.stored 1, c₂.instances[1]?, c₃.net.requests[0]?)) =
      some ([7], some ⟨1, 1⟩, some ⟨1, .returned (some 5), .gone 1 5, false⟩) := by decide +kernel
  simp only [Option.bind_eq_some_iff, Option.map_eq_some_iff, Prod.mk.injEq] at hall
  obtain ⟨c₁, h₁, c₂, hf, c₃, h₂, hstored, hinst, hq⟩ := hall
  refine ⟨c₁, c₂, c₃, h₁, hf, h₂, hstored, ?_⟩
  obtain ⟨-, k, inst, hk, hgone, hkept⟩ := acknowledged_state_kept h₁ hf h₂ hq rfl
  obtain rfl : 1 = k := by simpa using hgone
  obtain rfl : inst = ⟨1, 1⟩ := Option.some.inj (hk.symm.trans hinst)
  exact hkept

end Cs426.Rpc
