import Cs426.Consensus.LogMatching

/-!
# The commit rule

A leader may commit by counting replicas only up to an entry of its own term: when
`updateCommitIndex` sets `commitIndex` to `i`, more than half of the peers should have some
entry of the current term at `i` or later. `sendAppendEntries` guards the call by the term
of the last entry of the *one request* just acknowledged, but the loop counts the slots of
*all* peers, and those may have been filled by requests that ended in an older term.

## What is proved

* `SlotInv` — over whole runs, no slot of a leader's `matchIndex` reaches past its log.
* `commit_rule_iff` — the rule is kept along a run just when, at every call, the largest
  index that a majority has (`quorumIndex`) is not above `commitIndex` or holds an entry of
  the current term.
* `commit_rule_broken` — a run of five peers in which it is not.
-/

namespace Cs426.Consensus

open Cs426.Machine Cs426.Majority Raft

variable {n : ℕ} {C : Type*}

namespace Raft

/-- The largest index that more than half of the slots have reached. -/
def quorumIndex (rf : Raft n C) : ℤ := quorum (List.ofFn rf.matchIndex) 0

/-- The entry at `j` is of the current term. -/
def IsCurrent (rf : Raft n C) (j : ℤ) : Prop :=
  (rf.getLogEntryByIndex j).map LogEntry.term = some rf.currentTerm

/-- **The commit rule**, for a call of `updateCommitIndex` on `rf`: whatever index it sets
`commitIndex` to, a majority has an entry of the current term at that index or later. -/
def CommitRule (rf : Raft n C) : Prop :=
  ∀ i, rf.commitIndex < i → i ≤ rf.updateCommitIndex.commitIndex → ∃ j ≥ i, rf.IsCurrent j ∧ rf.MajorityHas j

/-- What the loop does not look at: if there is anything to commit, the largest index a
majority has is of the current term. -/
def QuorumCurrent (rf : Raft n C) : Prop :=
  rf.quorumIndex ≤ rf.commitIndex ∨ rf.IsCurrent rf.quorumIndex

theorem le_quorumIndex_iff (rf : Raft n C) (i : ℤ) : i ≤ rf.quorumIndex ↔ rf.MajorityHas i := by
  have hn : 0 < n := rf.me.pos
  have hne : List.ofFn rf.matchIndex ≠ [] := by
    rw [ne_eq, List.ofFn_eq_nil_iff]
    omega
  rw [quorumIndex, le_quorum_iff hne, List.length_ofFn, countP_ofFn, MajorityHas]
  simp only [decide_eq_true_eq]
  omega

/-- Slots inside the log: `updateCommitIndex` goes exactly as far as a majority does. -/
theorem updateCommitIndex_eq_max (rf : Raft n C) (hm : ∀ p, rf.matchIndex p < rf.logEntries.length) :
    rf.updateCommitIndex.commitIndex = max rf.commitIndex rf.quorumIndex := by
  obtain ⟨c, hc, hle, hall, hstop⟩ := updateCommitIndex_spec rf
  rw [hc]
  simp only
  have hlow : rf.commitIndex < c → c ≤ rf.quorumIndex := fun hlt =>
    (rf.le_quorumIndex_iff c).mpr (hall c hlt le_rfl)
  have hhigh : rf.quorumIndex ≤ c := by
    by_contra hlt
    push Not at hlt
    -- a majority has `c + 1`, so it is in the log and the loop would not have stopped
    have hmaj : rf.MajorityHas (c + 1) := (rf.le_quorumIndex_iff _).mp (by omega)
    obtain ⟨p, hp⟩ := hmaj.exists
    have := hm p
    rcases hstop with hlen | hno
    · omega
    · exact hno hmaj
  omega

/-- **One call keeps the rule just when the largest index a majority has is current**, or
is committed already. -/
theorem commitRule_iff (rf : Raft n C) (hm : ∀ p, rf.matchIndex p < rf.logEntries.length) :
    rf.CommitRule ↔ rf.QuorumCurrent := by
  have hq : rf.MajorityHas rf.quorumIndex := (rf.le_quorumIndex_iff _).mp le_rfl
  unfold CommitRule QuorumCurrent
  rw [updateCommitIndex_eq_max rf hm]
  constructor
  · intro h
    by_cases hle : rf.quorumIndex ≤ rf.commitIndex
    · exact Or.inl hle
    · obtain ⟨j, hj, hcur, hmaj⟩ := h rf.quorumIndex (by omega) (le_max_right _ _)
      have := (rf.le_quorumIndex_iff j).mpr hmaj
      obtain rfl : j = rf.quorumIndex := by omega
      exact Or.inr hcur
  · rintro (hle | hcur) i hi hi'
    · omega
    · exact ⟨rf.quorumIndex, by omega, hcur, hq⟩

end Raft

/-- In the step `l` from `c` a leader calls `updateCommitIndex`, as `rf`. -/
def Commits (c : Cluster n C) (l : Label n C) (rf : Raft n C) : Prop :=
  ∃ k a, l = .ack k ∧ c.answers[k]? = some a ∧ a.reply.term ≤ (c.nodes a.msg.src).currentTerm ∧
    (c.nodes a.msg.src).role = .leader ∧ (c.nodes a.msg.src).currentTerm = a.msg.args.term ∧
    a.reply.success = true ∧ endsInTerm a.msg.args (c.nodes a.msg.src).currentTerm = true ∧
    rf = (c.nodes a.msg.src).recordSuccess a.msg.dst a.reply

/-- What `Commits` says of a step: the answer's leader becomes `updateCommitIndex` of `rf`. -/
theorem step_of_commits {c c' : Cluster n C} {l : Label n C} {rf : Raft n C} (h : Commits c l rf)
    (hs : Cluster.step c l = some c') : ∃ i, c' = c.setNode i rf.updateCommitIndex := by
  obtain ⟨k, a, rfl, ha, hterm, hrole, hcur, hsucc, hends, rfl⟩ := h
  obtain ⟨a', ha', rfl⟩ := Cluster.step_ack_iff.mp hs
  obtain rfl : a = a' := Option.some.inj (ha.symm.trans ha')
  refine ⟨a.msg.src, ?_⟩
  rw [handleReply, if_neg (not_lt.mpr hterm), if_neg (by simp [hrole, hcur]), if_pos hsucc]
  simp only [hends, if_true]

/-- What handling the `k`-th answer, which is `a`, can make of the peer it is for. -/
inductive ReplyChange (c : Cluster n C) (k : ℕ) (a : Answer n C) : Raft n C → Prop
  | stays : ReplyChange c k a (c.nodes a.msg.src)
  | follows (t : ℤ) : (c.nodes a.msg.src).currentTerm ≤ t → ReplyChange c k a ((c.nodes a.msg.src).follow t)
  | moves (nextIndex : Fin n → ℤ) : ReplyChange c k a { c.nodes a.msg.src with nextIndex := nextIndex }
  | records : (c.nodes a.msg.src).role = .leader → (c.nodes a.msg.src).currentTerm = a.msg.args.term →
      a.reply.success = true → ReplyChange c k a ((c.nodes a.msg.src).recordSuccess a.msg.dst a.reply)
  | commits : (c.nodes a.msg.src).role = .leader → (c.nodes a.msg.src).currentTerm = a.msg.args.term →
      a.reply.success = true → Commits c (.ack k) ((c.nodes a.msg.src).recordSuccess a.msg.dst a.reply) →
      ReplyChange c k a ((c.nodes a.msg.src).recordSuccess a.msg.dst a.reply).updateCommitIndex

theorem reply_cases {c : Cluster n C} {k : ℕ} {a : Answer n C} (ha : c.answers[k]? = some a) :
    ReplyChange c k a ((c.nodes a.msg.src).handleReply a.msg.dst a.msg.args a.reply).rf := by
  by_cases hterm : (c.nodes a.msg.src).currentTerm < a.reply.term
  · rw [handleReply, if_pos hterm]
    exact .follows _ hterm.le
  · rcases handleReply_cases (c.nodes a.msg.src) a.msg.dst a.msg.args a.reply with
      ⟨hlt, -⟩ | hrf | ⟨hrole, hcur, hsucc, hrf | ⟨hends, hrf⟩⟩ | ⟨-, -, -, -, hrf⟩
    · exact absurd hlt hterm
    · rw [hrf]
      exact .stays
    · rw [hrf]
      exact .records hrole hcur hsucc
    · rw [hrf]
      exact .commits hrole hcur hsucc ⟨k, a, rfl, ha, not_lt.mp hterm, hrole, hcur, hsucc, hends, rfl⟩
    · rw [hrf]
      exact .moves _

variable [Inhabited C]

/-- Over whole runs: a success says how long the log it was built from is, and no slot of a
leader reaches past its log. -/
structure SlotInv (c : Cluster n C) : Prop where
  logs : ∃ owner base, LogInv c owner base
  answers : ∀ a ∈ c.answers, a.msg ∈ c.msgs ∧
    (a.reply.success = true → a.reply.nexIndex = a.msg.built.length)
  slots : ∀ i, (c.nodes i).role = .leader → ∀ p, (c.nodes i).matchIndex p < (c.nodes i).logEntries.length

namespace SlotInv

variable {c c' : Cluster n C}

theorem init (h : c.Init) : SlotInv c :=
  ⟨⟨_, _, LogInv.init h⟩, by simp [h.answers], fun i hi => absurd hi (h.roles i)⟩

/-- Recording a success of the leader's own term keeps the slots inside its log. -/
theorem slot_recordSuccess (h : SlotInv c) {a : Answer n C} (ha : a ∈ c.answers)
    (hrole : (c.nodes a.msg.src).role = .leader)
    (hterm : (c.nodes a.msg.src).currentTerm = a.msg.args.term) (hs : a.reply.success = true) (p : Fin n) :
    ((c.nodes a.msg.src).recordSuccess a.msg.dst a.reply).matchIndex p <
      (c.nodes a.msg.src).logEntries.length := by
  obtain ⟨owner, base, hI⟩ := h.logs
  obtain ⟨hmem, hsucc⟩ := h.answers a ha
  unfold recordSuccess
  split_ifs with hlt
  · by_cases hp : p = a.msg.dst
    · -- the request was built from what is now the beginning of the leader's log
      have hlog : (c.nodes a.msg.src).logEntries = owner a.msg.args.term := by
        rw [← hterm]
        exact (hI.led _ (hI.leader _ hrole)).2.2 rfl
      have hlen := (hI.msgs _ hmem).2.1.length_le
      have hnext := hsucc hs
      simp only [hp, Function.update_self]
      rw [hlog]
      omega
    · simp only [Function.update_of_ne hp]
      exact h.slots _ hrole p
  · exact h.slots _ hrole p

theorem length_pos (h : SlotInv c) (i : Fin n) : 0 < (c.nodes i).logEntries.length := by
  obtain ⟨owner, base, hI⟩ := h.logs
  exact hI.length_pos i

/-- A leader's slots after a step. -/
theorem slots_step (h : SlotInv c) {l : Label n C} {j : Fin n} {rf : Raft n C} (hrf : Cluster.NodeChange c l j rf)
    (hlead : rf.role = .leader) (p : Fin n) : rf.matchIndex p < rf.logEntries.length := by
  have hpos := h.length_pos j
  cases hrf with
  | stays => exact h.slots j hlead p
  | elected t =>
    by_cases hp : p = j
    · simp only [Cluster.elected, hp, Function.update_self, getLastLogTermIndex_snd]
      omega
    · simp only [Cluster.elected, Function.update_of_ne hp]
      omega
  | follows | restarts | fills => simp at hlead
  | starts command hrole =>
    have := h.slots j hrole p
    simp only [Cluster.started, List.length_append, List.length_singleton, getLastLogTermIndex_snd]
    by_cases hp : p = j
    · simp only [hp, Function.update_self]
      omega
    · simp only [Function.update_of_ne hp]
      omega
  | setsSlot v hrole hv =>
    rw [getLastLogTermIndex_snd] at hv
    by_cases hp : p = j
    · simp only [hp, Function.update_self]
      omega
    · simp only [Function.update_of_ne hp]
      exact h.slots j hrole p
  | handles k a _ ha hsrc =>
    subst hsrc
    have hrole := ((handleReply_term _ a.msg.dst a.msg.args a.reply).2 hlead).1
    have hmem := List.mem_of_getElem? ha
    have hreply := reply_cases ha
    rw [handleReply_logEntries]
    generalize ((c.nodes a.msg.src).handleReply a.msg.dst a.msg.args a.reply).rf = rf at hreply
    cases hreply with
    | stays | follows | moves => exact h.slots _ hrole p
    | records _ hterm hsucc => exact h.slot_recordSuccess hmem hrole hterm hsucc p
    | commits _ hterm hsucc =>
      rw [updateCommitIndex_matchIndex]
      exact h.slot_recordSuccess hmem hrole hterm hsucc p

/-- **Every step preserves the invariant.** -/
theorem step {l : Label n C} (h : SlotInv c) (hs : Cluster.step c l = some c') : SlotInv c' := by
  obtain ⟨owner, base, hI⟩ := h.logs
  have hnet := Cluster.net_cases hs
  refine ⟨hI.step hs, fun a ha => ?_, fun j hj => h.slots_step (Cluster.node_cases hs j) hj⟩
  rcases hnet.answers_cases ha with ha | ⟨hm, hr⟩
  · exact ⟨hnet.mem_msgs (h.answers a ha).1, (h.answers a ha).2⟩
  · refine ⟨hnet.mem_msgs hm, fun hsucc => ?_⟩
    rcases appendEntries_cases hr with ⟨-, -, hreply⟩ | ⟨-, -, -, hfail⟩ | ⟨-, hrf, hreply, hprev, -⟩
    · simp [hreply] at hsucc
    · simp [hfail] at hsucc
    · rw [hreply, hrf, hI.fill_eq_built hm hprev]

end SlotInv

/-- **When the commit rule is kept.** Along any run of any number of peers and terms, every
call of `updateCommitIndex` keeps the commit rule if and only if at every call the largest
index a majority has is not above `commitIndex` or holds an entry of the current term. -/
theorem commit_rule_iff {c₀ : Cluster n C} (h₀ : c₀.Init) (ls : List (Label n C)) :
    Along Cluster.step (fun c l => ∀ rf, Commits c l rf → rf.CommitRule) c₀ ls ↔
      Along Cluster.step (fun c l => ∀ rf, Commits c l rf → rf.QuorumCurrent) c₀ ls := by
  refine along_iff (I := SlotInv) (fun _ _ _ hI hs => hI.step hs) (fun c l hI => ?_) (SlotInv.init h₀)
  have hcall : ∀ rf, Commits c l rf → (rf.CommitRule ↔ rf.QuorumCurrent) := by
    rintro _ ⟨k, a, -, ha, -, hrole, hterm, hsucc, -, rfl⟩
    refine commitRule_iff _ fun p => ?_
    rw [recordSuccess_logEntries]
    exact hI.slot_recordSuccess (List.mem_of_getElem? ha) hrole hterm hsucc p
  exact ⟨fun h rf hc => (hcall rf hc).mp (h rf hc), fun h rf hc => (hcall rf hc).mpr (h rf hc)⟩

/-- Peer 0 leads term 1 and gives peer 1 an entry; as the leader of term 2 it first gives
peer 2 the old entry, then appends a new one and gives it to peer 1. -/
def oldEntryThenNew : List (Label 5 ℕ) :=
  [.elect 0 1, .start 0 7, .send 0 1, .deliver 0,
   .elect 0 2, .send 0 2, .deliver 1, .ack 1, .send 0 2, .deliver 2, .ack 2,
   .start 0 9, .send 0 1, .deliver 3]

/-- Where that run stops, with peer 1's acknowledgement of the new entry on its way. -/
def newEntryAcked : Cluster 5 ℕ :=
  (run Cluster.step (Cluster.fresh 5 ℕ) oldEntryThenNew).get (by decide)

/-- The leader once that acknowledgement is recorded: peers 0 and 1 have the entry of term
2, peer 2 only that of term 1. -/
def ackedLeader : Raft 5 ℕ := (newEntryAcked.nodes 0).recordSuccess 1 ⟨2, true, 3⟩

theorem run_oldEntryThenNew :
    run Cluster.step (Cluster.fresh 5 ℕ) oldEntryThenNew = some newEntryAcked :=
  (Option.some_get _).symm

theorem commits_ackedLeader : Commits newEntryAcked (.ack 3) ackedLeader :=
  ⟨3, newEntryAcked.answers.get ⟨3, by decide⟩, rfl, by rfl, by decide, by decide, by decide,
    by decide, by decide, by rfl⟩

/-- It commits the entry of term 1: three of five slots have reached index 1, but only two
have reached the entry of term 2. -/
theorem ackedLeader_not_commitRule : ¬ ackedLeader.CommitRule := by
  intro h
  obtain ⟨j, hj, hcur, hmaj⟩ := h 1 (by decide) (by decide)
  have hlt : j < 3 := by
    obtain ⟨p, hp⟩ := hmaj.exists
    have hslots : ∀ p, ackedLeader.matchIndex p < 3 := by decide
    exact lt_of_le_of_lt hp (hslots p)
  obtain rfl | rfl : j = 1 ∨ j = 2 := by omega
  · revert hcur
    unfold IsCurrent
    decide
  · revert hmaj
    decide

/-- What fails of that leader fails along the run. -/
theorem not_along_ackedLeader {P : Raft 5 ℕ → Prop} (hP : ¬ P ackedLeader) :
    ¬ Along Cluster.step (fun c l => ∀ rf, Commits c l rf → P rf) (Cluster.fresh 5 ℕ)
      (oldEntryThenNew ++ [.ack 3]) := by
  intro h
  have hlast := (along_append_iff.mp h).2 _ run_oldEntryThenNew
  exact hP (hlast.1 _ commits_ackedLeader)

/-- **The commit rule is not kept**: a leader of term 2 commits an entry of term 1 while
only two of the five peers have an entry of term 2. -/
theorem commit_rule_broken :
    ¬ Along Cluster.step (fun c l => ∀ rf, Commits c l rf → rf.CommitRule) (Cluster.fresh 5 ℕ)
      (oldEntryThenNew ++ [.ack 3]) :=
  not_along_ackedLeader ackedLeader_not_commitRule

/-- In that run a majority has index 1 and no more, and the entry there is of term 1. -/
theorem commit_rule_iff_oldEntryThenNew :
    ¬ Along Cluster.step (fun c l => ∀ rf, Commits c l rf → rf.QuorumCurrent) (Cluster.fresh 5 ℕ)
      (oldEntryThenNew ++ [.ack 3]) :=
  fun h => not_along_ackedLeader ackedLeader_not_commitRule
    ((commit_rule_iff Cluster.fresh_init (oldEntryThenNew ++ [.ack 3])).mpr h)

end Cs426.Consensus
