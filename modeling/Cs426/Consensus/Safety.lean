import Cs426.Consensus.Completeness
import Cs426.Consensus.CommitRule

/-!
# State machine safety

What the peers commit, over any number of terms. A leader commits by `updateCommitIndex`,
a follower by taking over `LeaderCommit` without comparing it with its own last index. As
long as elections keep the election restriction and every call of `updateCommitIndex` keeps
the commit rule, no two peers ever commit different entries at one index, at whatever two
moments one looks at them, and a leader has everything that was committed in its own term
or before.

## The argument

`Justified`: an index is justified in a log if the log reaches past it and what the log has
up to it begins a list that a majority has stored. A commit by counting is justified
because a slot of `matchIndex` that has reached an entry of the leader's own term says that
the peer has stored the leader's log up to it (`SafeInv.slots`). A justified index stays
justified when a peer fills its log: the request is of a later leader, which has the list
by leader completeness, or of the list's own term, and then it reaches at least as far.
-/

namespace Cs426.Consensus

open Cs426.Machine Cs426.Logs Raft

variable {n : ℕ} {C : Type*}

/-- A peer that restarts does not restart with more committed than it had. -/
def RestartsBelow (h : History n C) : Label n C → Prop
  | .crash i commitIndex => commitIndex ≤ (h.now.nodes i).commitIndex
  | _ => True

instance (h : History n C) : DecidablePred (RestartsBelow h)
  | .crash .. => inferInstanceAs (Decidable (_ ≤ _))
  | .elect .. | .raiseTerm .. | .start .. | .ownSlot .. | .send .. | .deliver .. | .ack .. => isTrue trivial

/-- What a step of a run is required to keep of what `raft.go` and the guard of
`updateCommitIndex` are for: elections keep the election restriction, a restart does not
raise `commitIndex`, and every call of `updateCommitIndex` keeps the commit rule. -/
structure Disciplined (h : History n C) (l : Label n C) : Prop where
  elects : h.WinsElection l
  restarts : RestartsBelow h l
  commits : ∀ rf, Commits h.now l rf → rf.CommitRule

/-! ### Deciding it -/

instance (rf : Raft n C) (j : ℤ) : Decidable (rf.IsCurrent j) := inferInstanceAs (Decidable (Option.map _ _ = some _))

/-- The commit rule is about the last index committed. -/
theorem commitRule_iff_last (rf : Raft n C) :
    rf.CommitRule ↔ rf.updateCommitIndex.commitIndex ≤ rf.commitIndex ∨
      ∃ j ∈ List.range rf.logEntries.length, rf.updateCommitIndex.commitIndex ≤ (j : ℤ) ∧ rf.IsCurrent j ∧
        rf.MajorityHas j := by
  constructor
  · intro hrule
    by_cases hlt : rf.commitIndex < rf.updateCommitIndex.commitIndex
    · obtain ⟨j, hj, hcur, hmaj⟩ := hrule _ hlt le_rfl
      obtain ⟨e, he, -⟩ := Option.map_eq_some_iff.mp hcur
      unfold getLogEntryByIndex at he
      split_ifs at he with hj0
      lift j to ℕ using hj0
      have hlen := (List.getElem?_eq_some_iff.mp he).1
      exact .inr ⟨j, List.mem_range.mpr hlen, hj, hcur, hmaj⟩
    · exact .inl (not_lt.mp hlt)
  · rintro (hle | ⟨j, -, hj, hcur, hmaj⟩) i hi hi'
    · omega
    · exact ⟨j, hi'.trans hj, hcur, hmaj⟩

instance (rf : Raft n C) : Decidable rf.CommitRule := decidable_of_iff _ (commitRule_iff_last rf).symm

/-- If the step calls `updateCommitIndex`, the call keeps the commit rule. -/
def CallKeepsRule (c : Cluster n C) : Label n C → Prop
  | .ack k => ∀ a ∈ c.answers[k]?, a.reply.term ≤ (c.nodes a.msg.src).currentTerm ∧
      (c.nodes a.msg.src).role = .leader ∧ (c.nodes a.msg.src).currentTerm = a.msg.args.term ∧
      a.reply.success = true ∧ endsInTerm a.msg.args (c.nodes a.msg.src).currentTerm = true →
      ((c.nodes a.msg.src).recordSuccess a.msg.dst a.reply).CommitRule
  | _ => True

instance (c : Cluster n C) : DecidablePred (CallKeepsRule c)
  | .ack _ => inferInstanceAs (Decidable (∀ _ ∈ _, _))
  | .elect .. | .raiseTerm .. | .crash .. | .start .. | .ownSlot .. | .send .. | .deliver .. => isTrue trivial

theorem callKeepsRule_iff {c : Cluster n C} {l : Label n C} :
    CallKeepsRule c l ↔ ∀ rf, Commits c l rf → rf.CommitRule := by
  constructor
  · rintro hc _ ⟨k, a, rfl, ha, hterm, hrole, hcur, hsucc, hends, rfl⟩
    exact hc a ha ⟨hterm, hrole, hcur, hsucc, hends⟩
  · intro hc
    cases l with
    | ack k =>
      rintro a ha ⟨hterm, hrole, hcur, hsucc, hends⟩
      exact hc _ ⟨k, a, rfl, ha, hterm, hrole, hcur, hsucc, hends, rfl⟩
    | elect | raiseTerm | crash | start | ownSlot | send | deliver => trivial

instance (h : History n C) (l : Label n C) : Decidable (Disciplined h l) :=
  decidable_of_iff (h.WinsElection l ∧ RestartsBelow h l ∧ CallKeepsRule h.now l)
    ⟨fun hc => ⟨hc.1, hc.2.1, callKeepsRule_iff.mp hc.2.2⟩,
      fun hd => ⟨hd.elects, hd.restarts, callKeepsRule_iff.mpr hd.commits⟩⟩

/-! ### What is committed -/

/-- `log` reaches past `i`, and up to `i` it is what a list chosen in a term up to `t`
begins with. The sentinel at index 0 needs no majority. -/
def Justified (h : History n C) (i : ℤ) (log : List (LogEntry C)) (t : ℤ) : Prop :=
  i < log.length ∧ (0 < i → ∃ u ≤ t, ∃ P, Chosen h u P ∧ log.take (i + 1).toNat <+: P)

theorem Chosen.record {h : History n C} {t : ℤ} {P : List (LogEntry C)} (hc : Chosen h t P) (c : Cluster n C) :
    Chosen (h.record c) t P := by
  obtain ⟨hP, Q, hQ, hs⟩ := hc
  exact ⟨hP, Q, hQ, fun p hp => (hs p hp).record c⟩

namespace Justified

variable {h : History n C} {i : ℤ} {log : List (LogEntry C)} {t : ℤ}

theorem record (hj : Justified h i log t) (c : Cluster n C) : Justified (h.record c) i log t := by
  refine ⟨hj.1, fun hi => ?_⟩
  obtain ⟨u, hu, P, hP, hpre⟩ := hj.2 hi
  exact ⟨u, hu, P, hP.record c, hpre⟩

/-- A smaller index, a longer log and a later term are justified too. -/
theorem mono (hj : Justified h i log t) {i' : ℤ} {log' : List (LogEntry C)} {t' : ℤ} (hi : i' ≤ i)
    (hlog : log <+: log') (ht : t ≤ t') : Justified h i' log' t' := by
  have hlen := hlog.length_le
  have hilt := hj.1
  refine ⟨by omega, fun hpos => ?_⟩
  obtain ⟨u, hu, P, hP, hpre⟩ := hj.2 (by omega)
  refine ⟨u, hu.trans ht, P, hP, List.IsPrefix.trans ?_ hpre⟩
  obtain ⟨ext, rfl⟩ := hlog
  rw [List.take_append_of_le_length (by omega)]
  exact List.take_prefix_take_left (by omega)

end Justified

/-- What the slots of `matchIndex` say: a peer whose slot has reached an entry of the
leader's own term has stored the leader's log up to it. -/
def SlotsStored (h : History n C) (rf : Raft n C) : Prop :=
  ∀ p (k : ℕ) e, (k : ℤ) ≤ rf.matchIndex p → rf.logEntries[k]? = some e → e.term = rf.currentTerm →
    h.Stored rf.currentTerm (rf.logEntries.take (k + 1)) p

theorem SlotsStored.record {h : History n C} {rf : Raft n C} (hs : SlotsStored h rf) (c : Cluster n C) :
    SlotsStored (h.record c) rf :=
  fun p k e hk he het => (hs p k e hk he het).record c

theorem endsIn_take {log : List (LogEntry C)} {k : ℕ} {e : LogEntry C} (he : log[k]? = some e) :
    EndsIn (log.take (k + 1)) e.term := by
  have hk := (List.getElem?_eq_some_iff.mp he).1
  refine ⟨e, ?_, rfl⟩
  rw [List.getLast?_eq_getElem?, List.length_take, Nat.min_eq_left (by omega), Nat.add_sub_cancel,
    List.getElem?_take_of_lt (by omega), he]

/-- **A call of `updateCommitIndex` that keeps the commit rule commits what is justified.** -/
theorem justified_updateCommitIndex {h : History n C} {rf : Raft n C} (hs : SlotsStored h rf)
    (hj : Justified h rf.commitIndex rf.logEntries rf.currentTerm) (hrule : rf.CommitRule) :
    Justified h rf.updateCommitIndex.commitIndex rf.logEntries rf.currentTerm := by
  obtain ⟨i, hi, hle, -, -⟩ := updateCommitIndex_spec rf
  rw [hi]
  by_cases hlt : rf.commitIndex < i
  · obtain ⟨j, hij, hcur, hmaj⟩ := hrule i hlt (by rw [hi])
    obtain ⟨e, he, het⟩ := Option.map_eq_some_iff.mp hcur
    unfold getLogEntryByIndex at he
    split_ifs at he with hj0
    have hjlt := (List.getElem?_eq_some_iff.mp he).1
    refine ⟨by simp only; omega, fun _ => ⟨_, le_rfl, rf.logEntries.take (j.toNat + 1), ⟨het ▸ endsIn_take he, ?_⟩, ?_⟩⟩
    · refine ⟨_, hmaj, fun p hp => hs p j.toNat e ?_ he het⟩
      rw [Int.toNat_of_nonneg hj0]
      exact (Finset.mem_filter.mp hp).2
    · exact List.take_prefix_take_left (by simp only; omega)
  · obtain rfl : i = rf.commitIndex := by omega
    exact hj

variable [Inhabited C]

/-- The invariant: over `ElectInv`, what acknowledgements, slots and commit indices say. -/
structure SafeInv (h : History n C) : Prop where
  elect : ∃ owner base, ElectInv h owner base
  slotInv : SlotInv h.now
  /-- A success is given by a peer that has just taken over the log. -/
  answers : ∀ a ∈ h.now.answers, a.reply.success = true →
    (a.msg.args.term, a.msg.built) ∈ h.seen a.msg.dst
  slots : ∀ i, (h.now.nodes i).role = .leader → SlotsStored h (h.now.nodes i)
  commits : ∀ p, Justified h (h.now.nodes p).commitIndex (h.now.nodes p).logEntries (h.now.nodes p).currentTerm
  requests : ∀ m ∈ h.now.msgs, Justified h m.args.leaderCommit m.built m.args.term

namespace SafeInv

variable {h h' : History n C}

theorem init {c : Cluster n C} (h : c.Init) (hterm : ∀ p, 0 ≤ (c.nodes p).currentTerm)
    (hcommit : ∀ p, (c.nodes p).commitIndex ≤ 0) : SafeInv (History.start c) where
  elect := ⟨_, _, ElectInv.init h hterm⟩
  slotInv := SlotInv.init h
  answers := by simp [History.start, h.answers]
  slots := fun i hi => absurd hi (h.roles i)
  commits := by
    intro p
    have := hcommit p
    refine ⟨?_, fun hpos => ?_⟩
    · simp only [History.start, h.logs p, List.length_singleton]
      omega
    · simp only [History.start] at hpos
      omega
  requests := by simp [History.start, h.msgs]

/-- Recording a success of the leader's own term. -/
theorem slots_recordSuccess (hI : SafeInv h) {a : Answer n C} (ha : a ∈ h.now.answers)
    (hrole : (h.now.nodes a.msg.src).role = .leader)
    (hterm : (h.now.nodes a.msg.src).currentTerm = a.msg.args.term) (hs : a.reply.success = true) :
    SlotsStored h ((h.now.nodes a.msg.src).recordSuccess a.msg.dst a.reply) := by
  intro p k e hk he het
  rw [recordSuccess_logEntries, recordSuccess_currentTerm] at *
  have hold := hI.slots _ hrole p k e
  unfold recordSuccess at hk
  split_ifs at hk with hlt
  · by_cases hp : p = a.msg.dst
    · -- the peer took over the log the request was built from, which is what the leader's begins with
      obtain ⟨owner, base, hE⟩ := hI.elect
      obtain ⟨hmem, hnext⟩ := hI.slotInv.answers a ha
      have hlog : (h.now.nodes a.msg.src).logEntries = owner a.msg.args.term := by
        rw [← hterm]
        exact (hE.logs.led _ (hE.logs.leader _ hrole)).2.2 rfl
      have hpre := (hE.logs.msgs _ hmem).2.1
      rw [← hlog] at hpre
      have := hnext hs
      simp only [hp, Function.update_self] at hk
      have hlen : k + 1 ≤ a.msg.built.length := by omega
      refine ⟨_, hp ▸ hI.answers a ha hs, hterm.symm, ?_⟩
      exact List.prefix_of_prefix_length_le (List.take_prefix _ _) hpre ((List.length_take_le _ _).trans hlen)
    · simp only [Function.update_of_ne hp] at hk
      exact hold hk he het
  · exact hold hk he het

/-- A peer's commit index after it has filled its log from a request. -/
theorem justified_fill (hI : SafeInv h) {m : Message n C} (hm : m ∈ h.now.msgs)
    (hterm : (h.now.nodes m.dst).currentTerm ≤ m.args.term) (hprev : (h.now.nodes m.dst).HasPrev m.args)
    (ho : (h.now.nodes m.dst).isArgsEntriesOutOfOrder m.args = false) :
    Justified h (((h.now.nodes m.dst).follow m.args.term).fill m.args).commitIndex
      (((h.now.nodes m.dst).follow m.args.term).fill m.args).logEntries m.args.term := by
  obtain ⟨owner, base, hE⟩ := hI.elect
  obtain ⟨-, -, -, hhead, q, hq, hqt⟩ := hE.logs.msgs m hm
  have hcommit : (((h.now.nodes m.dst).follow m.args.term).fill m.args).commitIndex = m.args.leaderCommit ∨
      (((h.now.nodes m.dst).follow m.args.term).fill m.args).commitIndex = (h.now.nodes m.dst).commitIndex := by
    unfold Raft.fill
    simp only
    split_ifs
    · exact .inl rfl
    · exact .inr rfl
  rw [hE.logs.fill_eq_built hm hprev]
  rcases hcommit with hc | hc <;> rw [hc]
  · exact hI.requests m hm
  · obtain ⟨hlt, hchosen⟩ := hI.commits m.dst
    have hpos : 0 < m.built.length := List.length_pos_iff.mpr fun hnil => by simp [hnil] at hhead
    by_cases hci : 0 < (h.now.nodes m.dst).commitIndex
    · obtain ⟨u, hu, P, hP, hpre⟩ := hchosen hci
      -- what is committed is what the request was built from begins with
      have hbuilt : (h.now.nodes m.dst).logEntries.take ((h.now.nodes m.dst).commitIndex + 1).toNat <+: m.built := by
        rcases (hu.trans hterm).eq_or_lt with rfl | hlt'
        · exact hE.isPrefix_built hm hterm ho (List.take_prefix _ _) (hpre.trans (hE.isPrefix_owner_of_chosen hP))
        · have := hE.complete hP q hq (by omega)
          rw [hqt] at this
          exact hpre.trans (this.trans (hE.startLog_isPrefix hm))
      have hlen := hbuilt.length_le
      rw [List.length_take] at hlen
      refine ⟨by omega, fun _ => ⟨u, hu.trans hterm, P, hP, ?_⟩⟩
      have heq := List.prefix_iff_eq_take.mp hbuilt
      rw [List.length_take, Nat.min_eq_left (by omega)] at heq
      rwa [← heq]
    · exact ⟨by omega, fun hc => absurd hc hci⟩

section Step

variable {c : Cluster n C} {l : Label n C}

theorem answers_step (hI : SafeInv h) (hs : Cluster.step h.now l = some c) {a : Answer n C} (ha : a ∈ c.answers)
    (hsucc : a.reply.success = true) : (a.msg.args.term, a.msg.built) ∈ (h.record c).seen a.msg.dst := by
  rcases (Cluster.net_cases hs).answers_cases ha with ha | ⟨hm, hr⟩
  · exact List.mem_cons_of_mem _ (hI.answers a ha hsucc)
  · obtain ⟨owner, base, hE⟩ := hI.elect
    rcases appendEntries_cases hr with ⟨-, -, hreply⟩ | ⟨-, -, -, hfail⟩ | ⟨-, hrf, -, hprev, -⟩
    · simp [hreply] at hsucc
    · simp [hfail] at hsucc
    · refine List.mem_cons.mpr (.inl ?_)
      rw [hrf, hE.logs.fill_eq_built hm hprev]
      rfl

/-- **The slots of a leader** after a step. -/
theorem slots_step (hI : SafeInv h) (hs : Cluster.step h.now l = some c) {i : Fin n}
    (hlead : (c.nodes i).role = .leader) : SlotsStored (h.record c) (c.nodes i) := by
  have hi := Cluster.node_cases hs i
  -- its own log is on record, so its own slot may be anything
  have hown : ∀ k, (h.record c).Stored (c.nodes i).currentTerm ((c.nodes i).logEntries.take (k + 1)) i :=
    fun k => ⟨_, List.mem_cons_self .., rfl, List.take_prefix _ _⟩
  generalize c.nodes i = rf at hi hlead hown
  cases hi with
  | stays => exact (hI.slots i hlead).record c
  | elected t _ hlog =>
    intro p k e _ he het
    exact absurd het (hlog e (List.mem_of_getElem? he)).ne
  | follows | restarts | fills => simp at hlead
  | starts command hrole =>
    intro p k e hk he het
    by_cases hp : p = i
    · subst hp
      exact hown k
    · -- another peer's slot has not reached the new entry
      simp only [Cluster.started, Function.update_of_ne hp] at hk he het ⊢
      have hlt : k < (h.now.nodes i).logEntries.length := by
        have := hI.slotInv.slots i hrole p
        omega
      rw [List.getElem?_append_left hlt] at he
      rw [List.take_append_of_le_length hlt]
      exact (hI.slots i hrole p k e hk he het).record c
  | setsSlot v hrole =>
    intro p k e hk he het
    by_cases hp : p = i
    · subst hp
      exact hown k
    · simp only [Function.update_of_ne hp] at hk
      exact (hI.slots i hrole p k e hk he het).record c
  | handles k a _ ha hsrc =>
    subst hsrc
    have hmem := List.mem_of_getElem? ha
    have hreply := reply_cases ha
    generalize ((h.now.nodes a.msg.src).handleReply a.msg.dst a.msg.args a.reply).rf = rf at hreply hlead
    cases hreply with
    | stays | moves => exact (hI.slots _ hlead).record c
    | follows => simp at hlead
    | records hrole hterm hsucc => exact (hI.slots_recordSuccess hmem hrole hterm hsucc).record c
    | commits hrole hterm hsucc =>
      have := (hI.slots_recordSuccess hmem hrole hterm hsucc).record c
      unfold SlotsStored at this ⊢
      simpa only [updateCommitIndex_matchIndex, updateCommitIndex_logEntries, updateCommitIndex_currentTerm] using this

/-- **The commit index of a peer** after a step. -/
theorem commits_step (hI : SafeInv h) (hd : Disciplined h l) (hs : Cluster.step h.now l = some c) (p : Fin n) :
    Justified (h.record c) (c.nodes p).commitIndex (c.nodes p).logEntries (c.nodes p).currentTerm := by
  have hp := Cluster.node_cases hs p
  have hold := hI.commits p
  refine Justified.record ?_ c
  generalize c.nodes p = rf at hp
  cases hp with
  | stays | setsSlot => exact hold
  | elected t hle => exact hold.mono le_rfl List.prefix_rfl hle
  | follows t hle => exact hold.mono le_rfl List.prefix_rfl hle
  | restarts ci hl =>
    subst hl
    exact hold.mono hd.restarts List.prefix_rfl le_rfl
  | starts command => exact hold.mono le_rfl (List.prefix_append _ _) le_rfl
  | fills m hm hdst hle hprev ho =>
    subst hdst
    exact hI.justified_fill hm hle hprev ho
  | handles k a hl ha hsrc =>
    subst hl hsrc
    have hreply := reply_cases ha
    generalize ((h.now.nodes a.msg.src).handleReply a.msg.dst a.msg.args a.reply).rf = rf at hreply
    cases hreply with
    | stays | moves => exact hold
    | follows t hle => exact hold.mono le_rfl List.prefix_rfl hle
    | records =>
      rw [recordSuccess_commitIndex, recordSuccess_logEntries, recordSuccess_currentTerm]
      exact hold
    | commits hrole hterm hsucc hcalls =>
      rw [updateCommitIndex_logEntries, updateCommitIndex_currentTerm]
      refine justified_updateCommitIndex (hI.slots_recordSuccess (List.mem_of_getElem? ha) hrole hterm hsucc) ?_
        (hd.commits _ hcalls)
      rw [recordSuccess_commitIndex, recordSuccess_logEntries, recordSuccess_currentTerm]
      exact hold

theorem requests_step (hI : SafeInv h) (hs : Cluster.step h.now l = some c) {m : Message n C} (hm : m ∈ c.msgs) :
    Justified (h.record c) m.args.leaderCommit m.built m.args.term := by
  refine Justified.record ?_ c
  cases Cluster.net_cases hs with
  | same hmsgs => exact hI.requests m (hmsgs ▸ hm)
  | answered _ _ _ _ hmsgs => exact hI.requests m (hmsgs ▸ hm)
  | sent i p args _ hargs hmsgs =>
    rw [hmsgs] at hm
    rcases List.mem_append.mp hm with hm | hm
    · exact hI.requests m hm
    · obtain rfl := List.mem_singleton.mp hm
      obtain ⟨-, hterm, hcommit⟩ :=
        makeAppendEntriesArgs_spec hargs (List.ne_nil_of_length_pos (hI.slotInv.length_pos i))
      rw [hterm, hcommit]
      exact hI.commits i

end Step

/-- **Every disciplined step preserves the invariant.** -/
theorem step {l : Label n C} (hI : SafeInv h) (hd : Disciplined h l) (hs : History.step h l = some h') : SafeInv h' := by
  obtain ⟨owner, base, hE⟩ := hI.elect
  have hE' := hE.step hd.elects hs
  obtain ⟨c, hc, rfl⟩ := History.step_iff.mp hs
  exact ⟨hE', hI.slotInv.step hc, fun a ha hsucc => hI.answers_step hc ha hsucc, fun i hi => hI.slots_step hc hi,
    hI.commits_step hd hc, fun m hm => hI.requests_step hc hm⟩

theorem of_run {c₀ : Cluster n C} (h₀ : c₀.Init) (hterm : ∀ p, 0 ≤ (c₀.nodes p).currentTerm)
    (hcommit : ∀ p, (c₀.nodes p).commitIndex ≤ 0) {ls : List (Label n C)}
    (hd : Along History.step Disciplined (History.start c₀) ls)
    (hr : run History.step (History.start c₀) ls = some h) : SafeInv h :=
  run_invariant (fun _ _ _ hI hd hs => hI.step hd hs) hd (init h₀ hterm hcommit) hr

theorem head (hI : SafeInv h) (p : Fin n) : (h.now.nodes p).logEntries.head? = some sentinel := by
  obtain ⟨owner, base, hE⟩ := hI.elect
  exact (hE.logs.logs p).2

end SafeInv

section Runs

variable {h h' : History n C} {i j : ℤ} {log log' : List (LogEntry C)} {t u : ℤ}

omit [Inhabited C] in
/-- What is justified at one moment of a run is justified at every later one. -/
theorem Justified.run {ls : List (Label n C)} (hj : Justified h i log t)
    (hr : Machine.run History.step h ls = some h') : Justified h' i log t :=
  run_inductive (I := fun h : History n C => Justified h i log t) (fun h l h' hj hs => by
    obtain ⟨c, -, rfl⟩ := History.step_iff.mp hs
    exact hj.record c) hj hr

omit [Inhabited C] in
/-- A justified log agrees with the chosen list on what is justified. -/
theorem Justified.exists_chosen (hj : Justified h i log t) {k : ℕ} (hk : 0 < k) (hki : (k : ℤ) ≤ i) :
    ∃ u ≤ t, ∃ P, Chosen h u P ∧ k < P.length ∧ log[k]? = P[k]? := by
  have hlt := hj.1
  obtain ⟨u, hu, P, hP, hpre⟩ := hj.2 (by omega)
  have hlen : k < (log.take (i + 1).toNat).length := by
    rw [List.length_take]
    omega
  refine ⟨u, hu, P, hP, hlen.trans_le hpre.length_le, ?_⟩
  rw [← getElem?_of_isPrefix hpre hlen, List.getElem?_take_of_lt (by omega)]

/-- **Two justified logs agree on what is justified in both.** -/
theorem SafeInv.agree (hI : SafeInv h) (hj : Justified h i log t) (hj' : Justified h j log' u)
    (hhead : log.head? = log'.head?) {k : ℕ} (hki : (k : ℤ) ≤ i) (hkj : (k : ℤ) ≤ j) : log[k]? = log'[k]? := by
  obtain ⟨owner, base, hE⟩ := hI.elect
  rcases k.eq_zero_or_pos with rfl | hk
  · rwa [List.head?_eq_getElem?, List.head?_eq_getElem?] at hhead
  · obtain ⟨_, -, P, hP, hkP, heq⟩ := hj.exists_chosen hk hki
    obtain ⟨_, -, R, hR, hkR, heq'⟩ := hj'.exists_chosen hk hkj
    rw [heq, heq']
    rcases hE.chosen_comparable hP hR with hpre | hpre
    · exact getElem?_of_isPrefix hpre hkP
    · exact (getElem?_of_isPrefix hpre hkR).symm

/-- **A leader agrees with what is justified in its own term or an earlier one.** -/
theorem SafeInv.leader_agree (hI : SafeInv h) (hj : Justified h i log t) {q : Fin n}
    (hhead : log.head? = some sentinel) (hrole : (h.now.nodes q).role = .leader)
    (hterm : t ≤ (h.now.nodes q).currentTerm) {k : ℕ} (hki : (k : ℤ) ≤ i) :
    log[k]? = (h.now.nodes q).logEntries[k]? := by
  obtain ⟨owner, base, hE⟩ := hI.elect
  rcases k.eq_zero_or_pos with rfl | hk
  · rw [← List.head?_eq_getElem?, ← List.head?_eq_getElem?, hhead, hI.head q]
  · obtain ⟨v, hv, P, hP, hkP, heq⟩ := hj.exists_chosen hk hki
    have hlog : (h.now.nodes q).logEntries = owner (h.now.nodes q).currentTerm :=
      (hE.logs.led _ (hE.logs.leader _ hrole)).2.2 rfl
    have hne : owner (h.now.nodes q).currentTerm ≠ [] := by
      rw [← hlog]
      exact List.ne_nil_of_length_pos (hI.slotInv.length_pos q)
    rw [heq, hlog]
    exact getElem?_of_isPrefix (hE.isPrefix_owner_of_le hP (hv.trans hterm) hne) hkP

omit [Inhabited C] in
/-- A justified index has an entry. -/
theorem Justified.getLogEntryByIndex {rf : Raft n C} (hj : Justified h i rf.logEntries t) {k : ℤ} (hk : 0 ≤ k)
    (hki : k ≤ i) : ∃ e, rf.getLogEntryByIndex k = some e := by
  have hlt : k.toNat < rf.logEntries.length := by
    have := hj.1
    omega
  exact ⟨_, by rw [Raft.getLogEntryByIndex, if_pos hk, List.getElem?_eq_getElem hlt]⟩

end Runs

/-! ### State machine safety -/

section Safety

variable {c₀ : Cluster n C} {h h' : History n C} {ls ls' : List (Label n C)}

/-- `a` is elected for term 1 by `a` and `b`, and commits a command that `b` has too. -/
def termOne (a b : Fin n) : List (Label n ℕ) :=
  [.raiseTerm a 1, .raiseTerm b 1, .elect a 1, .start a 7, .send a b, .deliver 0, .ack 0]

/-- `b` is elected for term 2 by `b` and `d`, brings `d` up to date and commits one more. -/
def termTwo (b d : Fin n) : List (Label n ℕ) :=
  [.raiseTerm b 2, .raiseTerm d 2, .elect b 2, .start b 9, .send b d, .deliver 1, .ack 1, .send b d, .deliver 2,
   .ack 2]

theorem disciplined_two_terms :
    Along History.step Disciplined (History.start (Cluster.fresh 3 ℕ)) (termOne 0 1 ++ termTwo 1 2) := by
  decide +kernel

/-- **State machine safety.** In any disciplined run of any number of peers and terms, over
a network that loses, duplicates, delays and reorders: if a peer has committed index `k` at
some moment, and a peer has committed it at that or any later moment, they have the same
entry there. -/
theorem state_machine_safety (h₀ : c₀.Init) (hterm : ∀ p, 0 ≤ (c₀.nodes p).currentTerm)
    (hcommit : ∀ p, (c₀.nodes p).commitIndex ≤ 0)
    (hd : Along History.step Disciplined (History.start c₀) (ls ++ ls'))
    (hr : run History.step (History.start c₀) ls = some h) (hr' : run History.step h ls' = some h') (p q : Fin n)
    {k : ℤ} (hk : 0 ≤ k) (hp : k ≤ (h.now.nodes p).commitIndex) (hq : k ≤ (h'.now.nodes q).commitIndex) :
    ∃ e, (h.now.nodes p).getLogEntryByIndex k = some e ∧ (h'.now.nodes q).getLogEntryByIndex k = some e := by
  have hI : SafeInv h := .of_run h₀ hterm hcommit (along_append_iff.mp hd).1 hr
  have hI' : SafeInv h' := .of_run h₀ hterm hcommit hd (by rw [run_append, hr, Option.bind_some, hr'])
  have hj := (hI.commits p).run hr'
  obtain ⟨e, he⟩ := hj.getLogEntryByIndex hk hp
  refine ⟨e, he, ?_⟩
  have hagree := hI'.agree hj (hI'.commits q) (by rw [hI.head p, hI'.head q]) (k := k.toNat) (by omega) (by omega)
  rw [Raft.getLogEntryByIndex, if_pos hk] at he ⊢
  rw [← hagree, he]

theorem state_machine_safety_two_terms :
    ∃ h h' : History 3 ℕ, run History.step (History.start (Cluster.fresh 3 ℕ)) (termOne 0 1) = some h ∧
      run History.step h (termTwo 1 2) = some h' ∧
      ∃ e, (h.now.nodes 0).getLogEntryByIndex 1 = some e ∧ (h'.now.nodes 1).getLogEntryByIndex 1 = some e := by
  have hr : run History.step (History.start (Cluster.fresh 3 ℕ)) (termOne 0 1) = some _ :=
    run_eq_some_get _ (by decide)
  refine ⟨_, _, hr, run_eq_some_get _ (by decide), ?_⟩
  exact state_machine_safety Cluster.fresh_init (fun _ => le_rfl) (fun _ => le_rfl) disciplined_two_terms hr
    (run_eq_some_get _ _) 0 1 (by decide) (by decide) (by decide)

/-- `a` makes an entry in term 1 and gives it to `b`; `f`, elected for term 2, makes another
one at the same index; `a`, elected for term 3, gives its old entry to `d` and a new one to
`b`, and commits the old entry; then `f`, elected for term 4, replaces it. -/
def oldEntryReplaced (a b d e f : Fin n) : List (Label n ℕ) :=
  [.raiseTerm a 1, .raiseTerm b 1, .raiseTerm d 1, .elect a 1, .start a 7, .send a b, .deliver 0,
   .raiseTerm d 2, .raiseTerm e 2, .raiseTerm f 2, .elect f 2, .start f 8,
   .raiseTerm a 3, .raiseTerm b 3, .raiseTerm d 3, .elect a 3, .send a d, .deliver 1, .ack 1, .send a d, .deliver 2,
   .ack 2, .start a 9, .send a b, .deliver 3, .ack 3,
   .raiseTerm d 4, .raiseTerm e 4, .raiseTerm f 4, .elect f 4, .start f 6, .send f e, .deliver 4, .ack 4, .send f e,
   .deliver 5, .ack 5, .send f d, .deliver 6, .ack 6, .send f d, .deliver 7, .ack 7]

/-- **The commit rule is what safety needs of `updateCommitIndex`**: with proper elections
and restarts alone, two peers commit different entries at index 1. -/
theorem diverges_without_commit_rule :
    ∃ h : History 5 ℕ, run History.step (History.start (Cluster.fresh 5 ℕ)) (oldEntryReplaced 0 1 2 3 4) = some h ∧
      Along History.step (fun h l => h.WinsElection l ∧ RestartsBelow h l) (History.start (Cluster.fresh 5 ℕ))
        (oldEntryReplaced 0 1 2 3 4) ∧
      1 ≤ (h.now.nodes 0).commitIndex ∧ 1 ≤ (h.now.nodes 4).commitIndex ∧
      (h.now.nodes 0).getLogEntryByIndex 1 = some ⟨1, 7⟩ ∧ (h.now.nodes 4).getLogEntryByIndex 1 = some ⟨2, 8⟩ :=
  ⟨_, run_eq_some_get _ (by decide +kernel), by decide +kernel, by decide +kernel, by decide +kernel,
    by decide +kernel, by decide +kernel⟩

/-- **Leader completeness for commits.** In any disciplined run, whatever a peer has
committed at some moment is in the log of every leader, at that or any later moment, whose
term is not below the peer's. -/
theorem leader_has_committed (h₀ : c₀.Init) (hterm : ∀ p, 0 ≤ (c₀.nodes p).currentTerm)
    (hcommit : ∀ p, (c₀.nodes p).commitIndex ≤ 0)
    (hd : Along History.step Disciplined (History.start c₀) (ls ++ ls'))
    (hr : run History.step (History.start c₀) ls = some h) (hr' : run History.step h ls' = some h') (p q : Fin n)
    (hlead : (h'.now.nodes q).role = .leader)
    (hpq : (h.now.nodes p).currentTerm ≤ (h'.now.nodes q).currentTerm) {k : ℤ} (hk : 0 ≤ k)
    (hp : k ≤ (h.now.nodes p).commitIndex) :
    ∃ e, (h.now.nodes p).getLogEntryByIndex k = some e ∧ (h'.now.nodes q).getLogEntryByIndex k = some e := by
  have hI : SafeInv h := .of_run h₀ hterm hcommit (along_append_iff.mp hd).1 hr
  have hI' : SafeInv h' := .of_run h₀ hterm hcommit hd (by rw [run_append, hr, Option.bind_some, hr'])
  have hj := (hI.commits p).run hr'
  obtain ⟨e, he⟩ := hj.getLogEntryByIndex hk hp
  refine ⟨e, he, ?_⟩
  have hagree := hI'.leader_agree hj (hI.head p) hlead hpq (k := k.toNat) (by omega)
  rw [Raft.getLogEntryByIndex, if_pos hk] at he ⊢
  rw [← hagree, he]

theorem leader_has_committed_two_terms :
    ∃ h h' : History 3 ℕ, run History.step (History.start (Cluster.fresh 3 ℕ)) (termOne 0 1) = some h ∧
      run History.step h (termTwo 1 2) = some h' ∧
      ∃ e, (h.now.nodes 0).getLogEntryByIndex 1 = some e ∧ (h'.now.nodes 1).getLogEntryByIndex 1 = some e := by
  have hr : run History.step (History.start (Cluster.fresh 3 ℕ)) (termOne 0 1) = some _ :=
    run_eq_some_get _ (by decide)
  refine ⟨_, _, hr, run_eq_some_get _ (by decide), ?_⟩
  exact leader_has_committed Cluster.fresh_init (fun _ => le_rfl) (fun _ => le_rfl) disciplined_two_terms hr
    (run_eq_some_get _ _) 0 1 (by decide) (by decide) (by decide) (by decide)

end Safety

end Cs426.Consensus
