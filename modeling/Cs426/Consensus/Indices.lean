import Cs426.Consensus.LogMatching

/-!
# Replication indices stay in range

A leader overwrites `nextIndex` by numbers that followers choose (`lab3/raft/my_util.go`).
A number past the end of its log, or below `1`, would make `makeAppendEntriesArgs` slice out
of range, and a negative one would send `sendAppendEntries` round its loop with the lock
held. Whatever the network delivers, in whatever order and term, neither happens. That the lock
is released rests on one assumption: the send on `signalApplyCh`, made with the lock held after
`updateCommitIndex` has raised `commitIndex`, does not block for good.

## The argument

A peer answers with the length of its own log or with a place at or below the entry it was
asked about (`appendEntries_nexIndex`), so an answer never points past the log the request
was built from. The leader listens only to answers to requests of its own term, and in that
term its log only grows, so it has that log still. `IndexInv` says this of every answer on
record and of every leader.
-/

namespace Cs426.Consensus

open Cs426.Machine Raft

variable {n : ℕ} {C : Type*}

namespace Raft

/-- With `nextIndex` at `1` or more, the entry before it exists. -/
theorem makeAppendEntriesArgs_isSome {rf : Raft n C} {p : Fin n} (h : 1 ≤ rf.nextIndex p) :
    (rf.makeAppendEntriesArgs p).isSome = true := by
  have hend := getLastLogTermIndex_snd rf
  unfold makeAppendEntriesArgs
  simp only
  split_ifs with hlast
  · rfl
  · have hget : (rf.nextIndex p - 1).toNat < rf.logEntries.length := by omega
    rw [Option.isSome_map, getLogEntryByIndex, if_pos (by omega), List.getElem?_eq_getElem hget]
    rfl

/-- A peer that is asked about an index it has finds the entry there. -/
theorem appendEntries_isSome {rf : Raft n C} {args : AppendEntriesArgs n C} (h : 0 ≤ args.prevLogIndex) :
    (rf.appendEntries args).isSome = true := by
  have hend := getLastLogTermIndex_snd rf
  unfold appendEntries
  simp only
  split_ifs with hterm hlast hzero
  · rfl
  · rfl
  · rfl
  · have hget : args.prevLogIndex.toNat < rf.logEntries.length := by omega
    rw [Option.isSome_map, getLogEntryByIndex, if_pos h, List.getElem?_eq_getElem hget]
    rfl

/-- Filling makes the log no longer than the log the request was built from. -/
theorem length_fill_le (rf : Raft n C) {args : AppendEntriesArgs n C} {log : List (LogEntry C)}
    (hb : BuiltFrom args log) : (rf.fill args).logEntries.length ≤ log.length := by
  have hlen := hb.length_eq
  obtain ⟨p, e, hp, -⟩ := hb
  simp only [fill, List.length_append, List.length_take]
  omega

/-- **Where an answer points**: never below `0`, never past the log the request was built
from. -/
theorem appendEntries_nexIndex {rf rf' : Raft n C} {args : AppendEntriesArgs n C} {reply : AppendEntriesReply}
    {log : List (LogEntry C)} (h : rf.appendEntries args = some (rf', reply)) (hb : BuiltFrom args log) :
    0 ≤ reply.nexIndex ∧ reply.nexIndex ≤ log.length := by
  have hfill : ∀ {rf' reply}, rf.fillInOrder args = (rf', reply) →
      0 ≤ reply.nexIndex ∧ reply.nexIndex ≤ log.length := by
    intro rf' reply hr
    rcases fillInOrder_cases hr with ⟨-, rfl⟩ | ⟨rfl, rfl, -⟩
    · simp
    · have := length_fill_le (rf.follow args.term) hb
      simp only
      omega
  have hlen := hb.length_eq
  have hend := getLastLogTermIndex_snd rf
  obtain ⟨p, e, hp, -⟩ := id hb
  unfold appendEntries at h
  simp only at h
  split_ifs at h with hterm hlast hzero
  · simp only [Option.some.injEq, Prod.mk.injEq] at h
    rw [← h.2]
    simp
  · -- its log is too short: it points to its own end, which is at or below the entry asked about
    simp only [Option.some.injEq, Prod.mk.injEq] at h
    rw [← h.2]
    simp only
    omega
  · exact hfill (Option.some.inj h)
  · obtain ⟨prev, -, h⟩ := Option.map_eq_some_iff.mp h
    split_ifs at h with hsame
    · exact hfill h
    · simp only [Prod.mk.injEq] at h
      rw [← h.2]
      have := backOff_le rf prev.term args.prevLogIndex.toNat
      simp only
      omega

/-- An answer that does not point below `0` has the lock released, once. -/
theorem handleReply_unlocks (rf : Raft n C) (p : Fin n) (args : AppendEntriesArgs n C) {reply : AppendEntriesReply}
    (h : 0 ≤ reply.nexIndex) : (rf.handleReply p args reply).unlocks = 1 := by
  unfold handleReply
  split_ifs with hterm hrole hsucc hends hzero hpos
  · rfl
  · rfl
  · rfl
  · rfl
  · rfl
  · omega
  · rfl

theorem recordSuccess_nextIndex (rf : Raft n C) (p q : Fin n) (reply : AppendEntriesReply) :
    (rf.recordSuccess p reply).nextIndex q = rf.nextIndex q ∨
      rf.nextIndex p < reply.nexIndex ∧ (rf.recordSuccess p reply).nextIndex q = reply.nexIndex := by
  unfold recordSuccess
  split_ifs with hlt
  · by_cases hq : q = p
    · subst hq
      exact .inr ⟨hlt, by simp⟩
    · exact .inl (by simp [Function.update_of_ne hq])
  · exact .inl rfl

/-- **What an answer does to `nextIndex`**: nothing, or the leader of the request's term takes
over the number in the answer, which then is positive or more than another slot has. -/
theorem handleReply_nextIndex (rf : Raft n C) (p q : Fin n) (args : AppendEntriesArgs n C)
    (reply : AppendEntriesReply) :
    (rf.handleReply p args reply).rf.nextIndex q = rf.nextIndex q ∨
      rf.currentTerm = args.term ∧ (0 < reply.nexIndex ∨ rf.nextIndex p < reply.nexIndex) ∧
        (rf.handleReply p args reply).rf.nextIndex q = reply.nexIndex := by
  rcases handleReply_cases rf p args reply with
    ⟨-, h⟩ | h | ⟨-, hterm, -, h | ⟨-, h⟩⟩ | ⟨-, hterm, -, hpos, h⟩ <;> rw [h]
  · exact .inl rfl
  · exact .inl rfl
  · rcases recordSuccess_nextIndex rf p q reply with hq | ⟨hlt, hq⟩
    · exact .inl hq
    · exact .inr ⟨hterm, .inr hlt, hq⟩
  · rw [updateCommitIndex_nextIndex]
    rcases recordSuccess_nextIndex rf p q reply with hq | ⟨hlt, hq⟩
    · exact .inl hq
    · exact .inr ⟨hterm, .inr hlt, hq⟩
  · by_cases hq : q = p
    · subst hq
      exact .inr ⟨hterm, .inl hpos, by simp⟩
    · exact .inl (by simp [Function.update_of_ne hq])

end Raft

variable [Inhabited C]

/-- Over whole runs: no answer points outside the log its request was built from, and a
leader's `nextIndex` lies between `1` and one past its last index. -/
structure IndexInv (c : Cluster n C) : Prop where
  logs : ∃ owner base, LogInv c owner base
  answers : ∀ a ∈ c.answers, a.msg ∈ c.msgs ∧ 0 ≤ a.reply.nexIndex ∧ a.reply.nexIndex ≤ a.msg.built.length
  next : ∀ i, (c.nodes i).role = .leader → ∀ p,
    1 ≤ (c.nodes i).nextIndex p ∧ (c.nodes i).nextIndex p ≤ (c.nodes i).logEntries.length

namespace IndexInv

variable {c c' : Cluster n C}

theorem init (h : c.Init) : IndexInv c :=
  ⟨⟨_, _, LogInv.init h⟩, by simp [h.answers], fun i hi => absurd hi (h.roles i)⟩

/-- A leader's `nextIndex` after a step. -/
theorem next_step (h : IndexInv c) {l : Label n C} {j : Fin n} {rf : Raft n C} (hrf : Cluster.NodeChange c l j rf)
    (hlead : rf.role = .leader) (p : Fin n) : 1 ≤ rf.nextIndex p ∧ rf.nextIndex p ≤ rf.logEntries.length := by
  obtain ⟨owner, base, hI⟩ := h.logs
  cases hrf with
  | stays | setsSlot => exact h.next j hlead p
  | elected t =>
    have := hI.length_pos j
    simp only [Cluster.elected, getLastLogTermIndex_snd]
    omega
  | follows | restarts | fills => simp at hlead
  | starts command hrole =>
    have := h.next j hrole p
    simp only [Cluster.started, List.length_append, List.length_singleton]
    omega
  | handles k a _ ha hsrc =>
    subst hsrc
    have hrole := ((handleReply_term _ a.msg.dst a.msg.args a.reply).2 hlead).1
    rw [handleReply_logEntries]
    rcases handleReply_nextIndex (c.nodes a.msg.src) a.msg.dst p a.msg.args a.reply with hq | ⟨hterm, hpos, hq⟩ <;>
      rw [hq]
    · exact h.next _ hrole p
    · -- the leader still has the log the request was built from
      obtain ⟨hmem, -, hle⟩ := h.answers a (List.mem_of_getElem? ha)
      have hdst := h.next _ hrole a.msg.dst
      have hlog : (c.nodes a.msg.src).logEntries = owner a.msg.args.term := by
        rw [← hterm]
        exact (hI.led _ (hI.leader _ hrole)).2.2 rfl
      have hlen := (hI.msgs _ hmem).2.1.length_le
      rw [hlog]
      omega

/-- **Every step preserves the invariant.** -/
theorem step {l : Label n C} (h : IndexInv c) (hs : Cluster.step c l = some c') : IndexInv c' := by
  obtain ⟨owner, base, hI⟩ := h.logs
  have hnet := Cluster.net_cases hs
  refine ⟨hI.step hs, fun a ha => ?_, fun j hj => h.next_step (Cluster.node_cases hs j) hj⟩
  rcases hnet.answers_cases ha with ha | ⟨hm, hr⟩
  · exact ⟨hnet.mem_msgs (h.answers a ha).1, (h.answers a ha).2⟩
  · exact ⟨hnet.mem_msgs hm, appendEntries_nexIndex hr (hI.msgs _ hm).1⟩

end IndexInv

/-- **Indices stay in range and the lock is released.** Wherever a run arrives, over any
number of peers and terms and whatever the network does: a leader's `nextIndex` lies between
`1` and one past its last index, so it can build the request for any peer; any request on
record asks about an index that is not negative, so the peer it is for can answer it, and
finds every entry its search for the conflicting term looks at; no answer on record points
below `0`; and handling it releases the lock exactly once, if the send on `signalApplyCh` that
handling it may come to does not block. -/
theorem indices_in_range {c₀ c : Cluster n C} (h₀ : c₀.Init) (ls : List (Label n C))
    (h : run Cluster.step c₀ ls = some c) :
    (∀ i p, (c.nodes i).role = .leader →
      1 ≤ (c.nodes i).nextIndex p ∧ (c.nodes i).nextIndex p ≤ (c.nodes i).getLastLogTermIndex.2 + 1 ∧
        ((c.nodes i).makeAppendEntriesArgs p).isSome = true) ∧
    (∀ m ∈ c.msgs, 0 ≤ m.args.prevLogIndex ∧ ((c.nodes m.dst).appendEntries m.args).isSome = true ∧
      (m.args.prevLogIndex ≤ (c.nodes m.dst).getLastLogTermIndex.2 →
        ∀ idx, 0 ≤ idx → idx ≤ m.args.prevLogIndex → ((c.nodes m.dst).getLogEntryByIndex idx).isSome = true)) ∧
    ∀ a ∈ c.answers, 0 ≤ a.reply.nexIndex ∧
      ((c.nodes a.msg.src).handleReply a.msg.dst a.msg.args a.reply).unlocks = 1 := by
  have hI : IndexInv c := run_inductive (fun _ _ _ hI hs => hI.step hs) (IndexInv.init h₀) h
  obtain ⟨owner, base, hlogs⟩ := hI.logs
  refine ⟨fun i p hrole => ?_, fun m hm => ?_, fun a ha => ?_⟩
  · have hnext := hI.next i hrole p
    rw [getLastLogTermIndex_snd]
    exact ⟨hnext.1, by omega, makeAppendEntriesArgs_isSome hnext.1⟩
  · obtain ⟨k, e, hk, -⟩ := (hlogs.msgs m hm).1
    refine ⟨by omega, appendEntries_isSome (by omega), fun hle idx h0 hidx => ?_⟩
    rw [getLastLogTermIndex_snd] at hle
    have hget : idx.toNat < (c.nodes m.dst).logEntries.length := by omega
    rw [getLogEntryByIndex, if_pos h0, List.getElem?_eq_getElem hget]
    rfl
  · obtain ⟨-, hpos, -⟩ := hI.answers a ha
    exact ⟨hpos, handleReply_unlocks _ _ _ hpos⟩

/-- Peer 0 gives peer 1 an entry and is elected again; peer 2, which has nothing yet, refuses
the next request. -/
def refusedRequest : List (Label 7 ℕ) :=
  [.elect 0 1, .start 0 7, .send 0 1, .deliver 0, .ack 0, .elect 0 2, .send 0 2, .deliver 1]

/-- Where that run stops, with the refusal on its way. -/
def refused : Cluster 7 ℕ := (run Cluster.step (Cluster.fresh 7 ℕ) refusedRequest).get (by decide)

theorem indices_in_range_refused :
    run Cluster.step (Cluster.fresh 7 ℕ) refusedRequest = some refused ∧
      (refused.answers.map fun a => (a.reply.success, a.reply.nexIndex)) = [(true, 2), (false, 1)] ∧
      1 ≤ (refused.nodes 0).nextIndex 2 ∧
      ∀ a ∈ refused.answers, ((refused.nodes a.msg.src).handleReply a.msg.dst a.msg.args a.reply).unlocks = 1 := by
  have hrun : run Cluster.step (Cluster.fresh 7 ℕ) refusedRequest = some refused := run_eq_some_get _ _
  obtain ⟨hnext, -, hans⟩ := indices_in_range Cluster.fresh_init refusedRequest hrun
  exact ⟨hrun, by decide, (hnext 0 2 (by decide)).1, fun a ha => (hans a ha).2⟩

end Cs426.Consensus
