import Cs426.Consensus.Term

/-!
# Commit agreement within a term

A follower sets `commitIndex` to `LeaderCommit` without taking the minimum with its own
last index, and the leader's loop tries indices up to `len(logEntries)`, one past the last.
Both are safe inside a term: a request carries the leader's whole log, which reaches past
`LeaderCommit`, and no slot of `matchIndex` reaches past the leader's log.

## What is proved

* `CommitInv` — every `commitIndex` lies inside its log, and what a peer has committed is
  what the leader's log begins with.
* `commit_agreement` — `commitIndex` never goes down and never leaves the log, no answer
  touches a committed entry, and peers agree on what both have committed.
-/

namespace Cs426.Consensus

open Cs426.Machine Cs426.Logs Raft

variable {n : ℕ} {C : Type*}

/-- What peer `p` has committed. -/
def committed (c : Cluster n C) (p : Fin n) : List (LogEntry C) :=
  (c.nodes p).logEntries.take ((c.nodes p).commitIndex + 1).toNat

theorem committed_isPrefix (c : Cluster n C) (p : Fin n) : committed c p <+: (c.nodes p).logEntries :=
  List.take_prefix _ _

variable [Inhabited C]

/-- How the term starts, with what every peer has committed in the leader's log. -/
structure CommitStart (c : Cluster n C) (ldr : Fin n) (t : ℤ) : Prop extends TermStart c ldr t where
  inLog : ∀ p, (c.nodes p).commitIndex < (c.nodes p).logEntries.length
  inLeader : ∀ p, committed c p <+: (c.nodes ldr).logEntries
  ownSlot : (c.nodes ldr).matchIndex ldr ≤ (c.nodes ldr).getLastLogTermIndex.2

/-- The invariant of `TermInv`, and where the commit indices are. -/
structure CommitInv (c : Cluster n C) (ldr : Fin n) (t : ℤ) (log₀ : List (LogEntry C)) : Prop
    extends TermInv c ldr t log₀ where
  inLog : ∀ p, (c.nodes p).commitIndex < (c.nodes p).logEntries.length
  safe : ∀ p ≠ ldr, committed c p <+: log₀ ∨ Synced c ldr log₀ p
  request : ∀ m ∈ c.msgs, m.args.leaderCommit < m.built.length
  ownSlot : (c.nodes ldr).matchIndex ldr < (c.nodes ldr).logEntries.length

namespace CommitInv

variable {c c' : Cluster n C} {ldr : Fin n} {t : ℤ} {log₀ : List (LogEntry C)}

theorem init (h : CommitStart c ldr t) : CommitInv c ldr t (c.nodes ldr).logEntries where
  toTermInv := TermInv.init h.toTermStart
  inLog := h.inLog
  safe := fun p _ => Or.inl (h.inLeader p)
  request := by simp [h.msgs]
  ownSlot := by
    have := h.ownSlot
    rw [getLastLogTermIndex_snd] at this
    omega

/-- What a peer has committed is what the leader's log begins with. -/
theorem committed_isPrefix_ldr (h : CommitInv c ldr t log₀) (p : Fin n) :
    committed c p <+: (c.nodes ldr).logEntries := by
  by_cases hp : p = ldr
  · subst hp
    exact committed_isPrefix c p
  · rcases h.safe p hp with hlow | hs
    · exact hlow.trans h.isPrefix_ldr
    · exact (committed_isPrefix c p).trans hs.2

/-- What a peer has committed is what any request it accepts begins with. -/
theorem committed_isPrefix_built (h : CommitInv c ldr t log₀) {m : Message n C} (hm : m ∈ c.msgs)
    (ho : (c.nodes m.dst).isArgsEntriesOutOfOrder m.args = false) : committed c m.dst <+: m.built := by
  obtain ⟨-, hdst, -, -, h₀, -⟩ := h.msgs m hm
  rcases h.safe m.dst hdst with hlow | hs
  · exact hlow.trans h₀
  · exact (committed_isPrefix c m.dst).trans (h.isPrefix_built hm ho hs)

/-- Every slot lies inside the leader's log. -/
theorem slot_lt (h : CommitInv c ldr t log₀) (p : Fin n) :
    (c.nodes ldr).matchIndex p < (c.nodes ldr).logEntries.length := by
  by_cases hp : p = ldr
  · subst hp
    exact h.ownSlot
  · by_contra hlt
    obtain ⟨e, -, he⟩ := h.agree_matchIndex hp (show ((c.nodes ldr).logEntries.length : ℤ) ≤ _ by omega)
    have := (List.getElem?_eq_some_iff.mp he).1
    omega

omit [Inhabited C] in
/-- The index after the last is never tried with success: the loop stays in the log. -/
theorem updateCommitIndex_lt {rf : Raft n C} (hc : rf.commitIndex < rf.logEntries.length)
    (hm : ∀ p, rf.matchIndex p < rf.logEntries.length) : rf.updateCommitIndex.commitIndex < rf.logEntries.length := by
  obtain ⟨k, hk, -, hall, -⟩ := updateCommitIndex_spec rf
  rw [hk]
  by_cases hlt : rf.commitIndex < k
  · obtain ⟨p, hp⟩ := (hall k hlt le_rfl).exists
    exact lt_of_le_of_lt hp (hm p)
  · simp only
    omega

/-- All logs stay, and only the leader's `commitIndex` may move, inside its log. -/
theorem of_same_logs (h : CommitInv c ldr t log₀) (hT : TermInv c' ldr t log₀)
    (hlog : ∀ p, (c'.nodes p).logEntries = (c.nodes p).logEntries)
    (hcommit : ∀ p ≠ ldr, (c'.nodes p).commitIndex = (c.nodes p).commitIndex)
    (hldr : (c'.nodes ldr).commitIndex < (c.nodes ldr).logEntries.length) (hmsgs : c'.msgs = c.msgs)
    (hown : (c'.nodes ldr).matchIndex ldr < (c.nodes ldr).logEntries.length) : CommitInv c' ldr t log₀ where
  toTermInv := hT
  inLog := by
    intro p
    rw [hlog p]
    by_cases hp : p = ldr
    · rw [hp]
      exact hldr
    · rw [hcommit p hp]
      exact h.inLog p
  safe := by
    intro p hp
    rw [committed, Synced, hlog p, hlog ldr, hcommit p hp]
    exact h.safe p hp
  request := by
    rw [hmsgs]
    exact h.request
  ownSlot := by
    rw [hlog ldr]
    exact hown

/-- A peer fills its log from a request. -/
theorem fill {m : Message n C} {reply : AppendEntriesReply} (h : CommitInv c ldr t log₀) (hm : m ∈ c.msgs)
    (hprev : (c.nodes m.dst).HasPrev m.args)
    (ho : (c.nodes m.dst).isArgsEntriesOutOfOrder m.args = false)
    (hreply : reply.nexIndex = (((c.nodes m.dst).follow m.args.term).fill m.args).logEntries.length) :
    CommitInv { c.setNode m.dst (((c.nodes m.dst).follow m.args.term).fill m.args) with
      answers := c.answers ++ [⟨m, reply⟩] } ldr t log₀ := by
  have hbuilt := h.fill_eq_built hm hprev
  have hdst := (h.msgs m hm).2.1
  have hT := h.toTermInv.fill hm hprev ho hreply
  refine ⟨hT, fun p => ?_, fun p hp => ?_, h.request, ?_⟩
  · refine c.setNode_induction m.dst _ p ?_ fun k _ => h.inLog k
    have hpre := (h.committed_isPrefix_built hm ho).length_le
    have hlt := h.inLog m.dst
    have hreq := h.request m hm
    rw [hbuilt]
    simp only [Raft.fill, follow_commitIndex]
    rw [committed, List.length_take] at hpre
    split_ifs <;> omega
  · by_cases hpm : p = m.dst
    · subst hpm
      right
      simp only [Synced, Cluster.setNode_nodes, Function.update_self, Function.update_of_ne hdst.symm, hbuilt]
      exact (h.msgs m hm).2.2.2.2
    · simp only [committed, Synced, Cluster.setNode_nodes, Function.update_of_ne hpm,
        Function.update_of_ne hdst.symm]
      exact h.safe p hp
  · simp only [Cluster.setNode_nodes, Function.update_of_ne hdst.symm]
    exact h.ownSlot

/-- The leader appends an entry. -/
theorem start {command : C} (h : CommitInv c ldr t log₀) (hrole : (c.nodes ldr).role = .leader) :
    CommitInv (c.setNode ldr (Cluster.started (c.nodes ldr) ldr command)) ldr t log₀ := by
  refine ⟨h.toTermInv.start hrole, fun p => ?_, fun p hp => ?_, h.request, ?_⟩
  · refine c.setNode_induction ldr _ p ?_ fun k _ => h.inLog k
    have hlt := h.inLog ldr
    simp only [Cluster.started, List.length_append, List.length_singleton]
    omega
  · simp only [committed, Synced, Cluster.setNode_nodes, Function.update_of_ne hp, Function.update_self,
      Cluster.started]
    rcases h.safe p hp with hlow | hs
    · exact Or.inl hlow
    · exact Or.inr ⟨hs.1, hs.2.trans (List.prefix_append _ _)⟩
  · simp only [Cluster.setNode_nodes, Function.update_self, Cluster.started, getLastLogTermIndex_snd,
      List.length_append, List.length_singleton]
    omega

/-- The leader sends a request, with a commit index inside the log it is built from. -/
theorem send {p : Fin n} {args : AppendEntriesArgs n C} (h : CommitInv c ldr t log₀) (hp : p ≠ ldr)
    (hrole : (c.nodes ldr).role = .leader) (hargs : (c.nodes ldr).makeAppendEntriesArgs p = some args) :
    CommitInv { c with msgs := c.msgs ++ [⟨ldr, p, args, (c.nodes ldr).logEntries⟩] } ldr t log₀ := by
  have hlt := h.inLog ldr
  have hne : (c.nodes ldr).logEntries ≠ [] := fun hnil => by
    have := h.isPrefix_ldr
    rw [hnil, List.prefix_nil] at this
    have hhead := h.head
    simp [this] at hhead
  obtain ⟨-, -, hcommit⟩ := makeAppendEntriesArgs_spec hargs hne
  refine ⟨h.toTermInv.send hp hrole hargs, h.inLog, h.safe, fun m hm => ?_, h.ownSlot⟩
  rcases List.mem_append.mp hm with hm | hm
  · exact h.request m hm
  · rw [List.mem_singleton] at hm
    subst hm
    rw [hcommit]
    exact hlt

/-- The leader handles an answer. -/
theorem ack {a : Answer n C} (h : CommitInv c ldr t log₀) (ha : a ∈ c.answers)
    (hT : TermInv (c.setNode ldr ((c.nodes ldr).handleReply a.msg.dst a.msg.args a.reply).rf) ldr t log₀) :
    CommitInv (c.setNode ldr ((c.nodes ldr).handleReply a.msg.dst a.msg.args a.reply).rf) ldr t log₀ := by
  have hdst := (h.msgs _ (h.answers a ha).1).2.1
  have hslots : ∀ p, ((c.nodes ldr).recordSuccess a.msg.dst a.reply).matchIndex p <
      (c.nodes ldr).logEntries.length ∨ a.reply.success = false := by
    intro p
    unfold recordSuccess
    split_ifs with hlt
    · by_cases hp : p = a.msg.dst
      · by_cases hs : a.reply.success = true
        · obtain ⟨hmem, hsucc⟩ := h.answers a ha
          have := (h.msgs _ hmem).2.2.2.2.2.length_le
          have hnext := (hsucc hs).1
          simp only [hp, Function.update_self]
          omega
        · exact Or.inr (by simpa using hs)
      · simp only [Function.update_of_ne hp]
        exact Or.inl (h.slot_lt p)
    · exact Or.inl (h.slot_lt p)
  refine h.of_same_logs hT (fun p => ?_) (fun p hp => ?_) ?_ rfl ?_
  · by_cases hp : p = ldr
    · subst hp
      simp
    · simp [Function.update_of_ne hp]
  · simp [Function.update_of_ne hp]
  · simp only [Cluster.setNode_nodes, Function.update_self]
    rcases handleReply_cases (c.nodes ldr) a.msg.dst a.msg.args a.reply with
      ⟨-, hrf⟩ | hrf | ⟨-, -, hs, hrf | ⟨-, hrf⟩⟩ | ⟨-, -, -, -, hrf⟩ <;> rw [hrf]
    · exact h.inLog ldr
    · exact h.inLog ldr
    · rw [recordSuccess_commitIndex]
      exact h.inLog ldr
    · rw [← recordSuccess_logEntries (c.nodes ldr) a.msg.dst a.reply]
      refine updateCommitIndex_lt ?_ fun p => ?_
      · rw [recordSuccess_commitIndex, recordSuccess_logEntries]
        exact h.inLog ldr
      · rw [recordSuccess_logEntries]
        rcases hslots p with hlt | hf
        · exact hlt
        · simp [hs] at hf
    · exact h.inLog ldr
  · simp only [Cluster.setNode_nodes, Function.update_self, handleReply_matchIndex_of_ne hdst.symm]
    exact h.ownSlot

/-- **Every step of the term preserves the invariant.** -/
theorem step {l : Label n C} (h : CommitInv c ldr t log₀) (hl : l.InTerm ldr)
    (hs : Cluster.step c l = some c') : CommitInv c' ldr t log₀ := by
  have hT := h.toTermInv.step hl hs
  have hkeep : ∀ {i rf c''}, TermInv c'' ldr t log₀ → c''.nodes = (c.setNode i rf).nodes → c''.msgs = c.msgs →
      rf.logEntries = (c.nodes i).logEntries → rf.commitIndex = (c.nodes i).commitIndex →
      (i = ldr → rf.matchIndex ldr < (c.nodes ldr).logEntries.length) → CommitInv c'' ldr t log₀ := by
    intro i rf c'' hT hnodes hmsgs hlog hc hown
    have hp : ∀ p, ((c.setNode i rf).nodes p).logEntries = (c.nodes p).logEntries ∧
        ((c.setNode i rf).nodes p).commitIndex = (c.nodes p).commitIndex := fun p => by
      by_cases hp : p = i
      · subst hp
        simp [hlog, hc]
      · simp [Function.update_of_ne hp]
    refine h.of_same_logs hT (fun p => ?_) (fun p _ => ?_) ?_ hmsgs ?_
    · rw [hnodes, (hp p).1]
    · rw [hnodes, (hp p).2]
    · rw [hnodes, (hp ldr).2]
      exact h.inLog ldr
    · rw [hnodes]
      by_cases hi : ldr = i
      · simp only [hi, Cluster.setNode_nodes, Function.update_self]
        rw [← hi]
        exact hown hi.symm
      · simp only [Cluster.setNode_nodes, Function.update_of_ne hi]
        exact h.ownSlot
  cases l with
  | elect i t => exact hl.elim
  | crash i ci => exact hl.elim
  | raiseTerm i t' =>
    obtain ⟨-, rfl⟩ := Cluster.step_raiseTerm_iff.mp hs
    exact hkeep hT rfl rfl rfl rfl fun hi => by
      subst hi
      exact h.ownSlot
  | start i command =>
    obtain rfl : i = ldr := hl
    obtain ⟨hrole, rfl⟩ := Cluster.step_start_iff.mp hs
    exact h.start hrole
  | ownSlot i v =>
    obtain rfl : i = ldr := hl
    obtain ⟨-, hv, rfl⟩ := Cluster.step_ownSlot_iff.mp hs
    refine hkeep hT rfl rfl rfl rfl fun _ => ?_
    rw [getLastLogTermIndex_snd] at hv
    simp only [Function.update_self]
    omega
  | send i p =>
    obtain ⟨rfl, hp⟩ := hl
    obtain ⟨hrole, args, hargs, rfl⟩ := Cluster.step_send_iff.mp hs
    exact h.send hp hrole hargs
  | deliver k =>
    obtain ⟨m, rf', reply, hm, hr, rfl⟩ := Cluster.step_deliver_iff.mp hs
    have hm := List.mem_of_getElem? hm
    have hdst := (h.msgs m hm).2.1
    rcases appendEntries_cases hr with ⟨-, rfl, rfl⟩ | ⟨-, rfl, -, hfail⟩ | ⟨-, rfl, rfl, hprev, ho⟩
    · exact hkeep hT rfl rfl rfl rfl fun hi => absurd hi hdst
    · exact hkeep hT rfl rfl rfl rfl fun hi => absurd hi hdst
    · exact h.fill hm hprev ho rfl
  | ack k =>
    obtain ⟨a, ha, rfl⟩ := Cluster.step_ack_iff.mp hs
    have ha := List.mem_of_getElem? ha
    have hsrc := (h.msgs _ (h.answers a ha).1).1
    rw [hsrc] at hT ⊢
    exact h.ack ha hT

theorem of_run {c₀ : Cluster n C} {ls : List (Label n C)} (h₀ : CommitInv c₀ ldr t log₀)
    (hls : ∀ l ∈ ls, l.InTerm ldr) (h : run Cluster.step c₀ ls = some c) : CommitInv c ldr t log₀ :=
  run_invariant (I := fun c => CommitInv c ldr t log₀) (P := fun _ l => l.InTerm ldr)
    (fun _ _ _ hI hl hs => hI.step hl hs) (along_of_forall_mem c₀ hls) h₀ h

omit [Inhabited C] in
/-- No step of the term lowers a `commitIndex`. -/
theorem commitIndex_mono {l : Label n C} (hl : l.InTerm ldr) (hs : Cluster.step c l = some c') (p : Fin n) :
    (c.nodes p).commitIndex ≤ (c'.nodes p).commitIndex := by
  have hset : ∀ {i rf}, (c.nodes i).commitIndex ≤ rf.commitIndex →
      (c.nodes p).commitIndex ≤ (Function.update c.nodes i rf p).commitIndex := by
    intro i rf hle
    by_cases hp : p = i
    · subst hp
      simpa using hle
    · simp [Function.update_of_ne hp]
  cases l with
  | elect i t => exact hl.elim
  | crash i ci => exact hl.elim
  | raiseTerm i t' =>
    obtain ⟨-, rfl⟩ := Cluster.step_raiseTerm_iff.mp hs
    exact hset le_rfl
  | start i command =>
    obtain ⟨-, rfl⟩ := Cluster.step_start_iff.mp hs
    exact hset le_rfl
  | ownSlot i v =>
    obtain ⟨-, -, rfl⟩ := Cluster.step_ownSlot_iff.mp hs
    exact hset le_rfl
  | send i q =>
    obtain ⟨-, args, -, rfl⟩ := Cluster.step_send_iff.mp hs
    exact le_rfl
  | deliver k =>
    obtain ⟨m, rf', reply, -, hr, rfl⟩ := Cluster.step_deliver_iff.mp hs
    rcases appendEntries_cases hr with ⟨-, rfl, -⟩ | ⟨-, rfl, -, -⟩ | ⟨-, rfl, -, -, -⟩
    · exact hset le_rfl
    · exact hset le_rfl
    · exact hset (le_fill_commitIndex ((c.nodes m.dst).follow m.args.term) m.args)
  | ack k =>
    obtain ⟨a, -, rfl⟩ := Cluster.step_ack_iff.mp hs
    exact hset (le_handleReply_commitIndex _ _ _ _)

/-- An answer keeps what the peer has committed. -/
theorem appendEntries_committed (h : CommitInv c ldr t log₀) {m : Message n C} (hm : m ∈ c.msgs)
    {rf : Raft n C} {reply : AppendEntriesReply} (hr : (c.nodes m.dst).appendEntries m.args = some (rf, reply))
    {i : ℕ} (hi : (i : ℤ) ≤ (c.nodes m.dst).commitIndex) :
    rf.logEntries[i]? = (c.nodes m.dst).logEntries[i]? := by
  rcases appendEntries_cases hr with ⟨-, rfl, -⟩ | ⟨-, rfl, -, -⟩ | ⟨-, rfl, -, hprev, ho⟩
  · rfl
  · rfl
  · rw [h.fill_eq_built hm hprev]
    have hlt := h.inLog m.dst
    have hlen : i < (committed c m.dst).length := by
      rw [committed, List.length_take]
      omega
    rw [List.prefix_iff_getElem?.mp (h.committed_isPrefix_built hm ho) i hlen,
      List.prefix_iff_getElem?.mp (committed_isPrefix c m.dst) i hlen]

/-- A committed entry is the leader's. -/
theorem getElem?_of_le_commitIndex (h : CommitInv c ldr t log₀) {p : Fin n} {i : ℕ}
    (hi : (i : ℤ) ≤ (c.nodes p).commitIndex) : ∃ e, (c.nodes p).logEntries[i]? = some e ∧
      (c.nodes ldr).logEntries[i]? = some e := by
  have hlt := h.inLog p
  have hlen : i < (committed c p).length := by
    rw [committed, List.length_take]
    omega
  exact ⟨_, List.prefix_iff_getElem?.mp (committed_isPrefix c p) i hlen,
    List.prefix_iff_getElem?.mp (h.committed_isPrefix_ldr p) i hlen⟩

end CommitInv

/-- **Commit agreement within a term.** In a run inside the term `t` of `ldr`, from its
start `c₀` through `c₁` to `c₂`: no peer's `commitIndex` is smaller at `c₂` than at `c₁`; at
`c₂` it does not exceed the index of the peer's last entry; whichever request is delivered
next, the peer that answers it keeps every entry up to its `commitIndex`; and two peers have
the same entry at every index both have committed. -/
theorem commit_agreement {c₀ c₁ c₂ : Cluster n C} {ldr : Fin n} {t : ℤ} (h₀ : CommitStart c₀ ldr t)
    (ls₁ ls₂ : List (Label n C)) (hls₁ : ∀ l ∈ ls₁, l.InTerm ldr) (hls₂ : ∀ l ∈ ls₂, l.InTerm ldr)
    (h₁ : run Cluster.step c₀ ls₁ = some c₁) (h₂ : run Cluster.step c₁ ls₂ = some c₂) :
    (∀ p, (c₁.nodes p).commitIndex ≤ (c₂.nodes p).commitIndex) ∧
    (∀ p, (c₂.nodes p).commitIndex ≤ (c₂.nodes p).getLastLogTermIndex.2) ∧
    (∀ (k : ℕ) (m : Message n C) (rf : Raft n C) (reply : AppendEntriesReply), c₂.msgs[k]? = some m →
      (c₂.nodes m.dst).appendEntries m.args = some (rf, reply) →
      ∀ i : ℕ, (i : ℤ) ≤ (c₂.nodes m.dst).commitIndex →
        rf.logEntries[i]? = (c₂.nodes m.dst).logEntries[i]?) ∧
    ∀ (p q : Fin n) (i : ℕ), (i : ℤ) ≤ (c₂.nodes p).commitIndex → (i : ℤ) ≤ (c₂.nodes q).commitIndex →
      ∃ e, (c₂.nodes p).logEntries[i]? = some e ∧ (c₂.nodes q).logEntries[i]? = some e := by
  have hI₁ := (CommitInv.init h₀).of_run hls₁ h₁
  have hI₂ := hI₁.of_run hls₂ h₂
  refine ⟨fun p => ?_, fun p => ?_, fun k m rf reply hm hr i hi => ?_, fun p q i hp hq => ?_⟩
  · exact run_invariant (I := fun c => (c₁.nodes p).commitIndex ≤ (c.nodes p).commitIndex)
      (P := fun _ l => l.InTerm ldr) (fun _ _ _ hle hl hs => hle.trans (CommitInv.commitIndex_mono hl hs p))
      (along_of_forall_mem c₁ hls₂) le_rfl h₂
  · have := hI₂.inLog p
    rw [getLastLogTermIndex_snd]
    omega
  · exact hI₂.appendEntries_committed (List.mem_of_getElem? hm) hr hi
  · obtain ⟨e, he, hel⟩ := hI₂.getElem?_of_le_commitIndex hp
    obtain ⟨e', he', hel'⟩ := hI₂.getElem?_of_le_commitIndex hq
    obtain rfl : e = e' := by
      rw [hel] at hel'
      exact Option.some.inj hel'
    exact ⟨e, he, he'⟩

theorem firstTerm_commitStart : CommitStart firstTerm 0 1 where
  toTermStart := firstTerm_start
  inLog := fun _ => by simp [firstTerm]
  inLeader := fun _ => by simp [committed, firstTerm]
  ownSlot := by simp [firstTerm, getLastLogTermIndex_snd]

/-- One entry is replicated and committed, and the follower learns of it. -/
theorem commit_agreement_firstTerm :
    ∃ c, run Cluster.step firstTerm [.start 0 5, .send 0 1, .deliver 0, .ack 0, .send 0 1, .deliver 1] = some c ∧
      (c.nodes 0).commitIndex = 1 ∧ (c.nodes 1).commitIndex = 1 ∧
      ∃ e, (c.nodes 0).logEntries[1]? = some e ∧ (c.nodes 1).logEntries[1]? = some e := by
  obtain ⟨c, hc⟩ := Option.isSome_iff_exists.mp (show (run Cluster.step firstTerm
    [.start 0 5, .send 0 1, .deliver 0, .ack 0, .send 0 1, .deliver 1]).isSome = true by decide)
  have hcommit : (run Cluster.step firstTerm [.start 0 5, .send 0 1, .deliver 0, .ack 0, .send 0 1, .deliver 1]).map
      (fun c => ((c.nodes 0).commitIndex, (c.nodes 1).commitIndex)) = some (1, 1) := by decide
  rw [hc, Option.map_some, Option.some.injEq, Prod.mk.injEq] at hcommit
  refine ⟨c, hc, hcommit.1, hcommit.2, ?_⟩
  refine (commit_agreement firstTerm_commitStart _ [] ?_ (by simp) hc rfl).2.2.2 0 1 1 ?_ ?_
  · simp [Label.InTerm]
  · rw [hcommit.1]
    rfl
  · rw [hcommit.2]
    rfl

end Cs426.Consensus
