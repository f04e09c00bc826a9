import Cs426.Consensus.Basic

/-!
# Repairing a follower's log

The loop of `sendAppendEntries` (`lab3/raft/my_util.go`) against one follower when no call
is lost and no term changes: the leader builds a request, the follower answers it, the
leader handles the answer, and after a refusal it goes round again from where the refusal
says.

A refusal names one of three places: the end of a log that is too short, the start of the
conflicting term, no earlier than what is committed, or `0`. The loop ends because each of
them lies at or below the `PrevLogIndex` that was refused, and it would not if one of them
lay just above it. That it never does rests on what the two logs have in common
(`Repairable`), which every refused round preserves.

## What is proved

* `backOff_lt` — the search for the start of a term that is not committed makes progress.
* `Repairable.round_cases` — one round: success and equal logs, or a refusal after which the
  logs are as repairable as before and `nextIndex` is smaller.
* `log_repair` — the whole loop.
-/

namespace Cs426.Consensus

open Cs426.Logs

variable {n : ℕ} {C : Type*}

namespace Raft

/-- One turn of the loop: the request, its answer, the follower then, and what the leader
made of the answer. -/
structure Round (n : ℕ) (C : Type*) where
  args : AppendEntriesArgs n C
  reply : AppendEntriesReply
  follower : Raft n C
  handled : Handled n C

/-- The request of leader `ldr` for its peer `p` reaches the follower `flw`, and the answer
comes back. -/
def round (p : Fin n) (ldr flw : Raft n C) : Option (Round n C) :=
  (ldr.makeAppendEntriesArgs p).bind fun args =>
    (flw.appendEntries args).map fun r => ⟨args, r.2, r.1, ldr.handleReply p args r.2⟩

/-- The turns `sendAppendEntries` takes, in order; `none` when there are more of them than
`fuel`, or one of them panics. -/
def sendAppendEntries (p : Fin n) : ℕ → Raft n C → Raft n C → Option (List (Round n C))
  | 0, _, _ => none
  | fuel + 1, ldr, flw =>
    if ldr.role ≠ .leader then some []
    else (round p ldr flw).bind fun r =>
      if r.handled.again then (sendAppendEntries p fuel r.handled.rf r.follower).map (r :: ·) else some [r]

/-! ### Where a refusal points -/

/-- From an entry of the term that is not committed, the search goes down at least once. -/
theorem backOff_lt {rf : Raft n C} {e : LogEntry C} {idx : ℕ} (h0 : idx ≠ 0) (hc : rf.commitIndex < idx)
    (he : rf.logEntries[idx]? = some e) : rf.backOff e.term idx < idx := by
  obtain ⟨i, rfl⟩ := Nat.exists_eq_succ_of_ne_zero h0
  unfold backOff
  rw [if_pos ⟨by push_cast at hc; exact hc, by rw [he]; rfl⟩]
  exact Nat.lt_succ_of_le (backOff_le rf e.term i)

/-! ### What repair rests on -/

/-- The two logs as a leader finds them: they start with the sentinel and match, they agree
on what the follower has committed, and past the end of the leader's log the follower has
nothing of the leader's term. -/
structure Repairable [Inhabited C] (ldr flw : Raft n C) : Prop where
  leads : ldr.role = .leader
  term_le : flw.currentTerm ≤ ldr.currentTerm
  ldr_head : ldr.logEntries.head? = some sentinel
  flw_head : flw.logEntries.head? = some sentinel
  matching : Matching LogEntry.term flw.logEntries ldr.logEntries
  agree : ∀ (i : ℕ) (a b : LogEntry C), i ≤ flw.commitIndex → flw.logEntries[i]? = some a →
    ldr.logEntries[i]? = some b → a = b
  none_beyond : ∀ (i : ℕ) (e : LogEntry C), ldr.logEntries.length ≤ i → flw.logEntries[i]? = some e →
    e.term ≠ ldr.currentTerm

namespace Repairable

variable [Inhabited C] {ldr flw : Raft n C} {p : Fin n} {args : AppendEntriesArgs n C}

theorem ldr_ne_nil (h : Repairable ldr flw) : ldr.logEntries ≠ [] := by
  intro hnil
  simpa [hnil] using h.ldr_head

theorem flw_ne_nil (h : Repairable ldr flw) : flw.logEntries ≠ [] := by
  intro hnil
  simpa [hnil] using h.flw_head

/-- A request of this leader is in order at this follower. -/
theorem inOrder (h : Repairable ldr flw) (hb : BuiltFrom args ldr.logEntries) (ht : args.term = ldr.currentTerm) :
    flw.isArgsEntriesOutOfOrder args = false := by
  by_contra hout
  have hlen := hb.length_eq
  obtain ⟨hlt, hlast⟩ : args.prevLogIndex + args.entries.length < flw.getLastLogTermIndex.2 ∧
      flw.getLastLogTermIndex.1 = args.term := by
    simpa [isArgsEntriesOutOfOrder] using hout
  rw [getLastLogTermIndex_snd] at hlt
  have hget : flw.logEntries[flw.logEntries.length - 1]? = some (flw.logEntries.getLast h.flw_ne_nil) := by
    rw [← List.getLast?_eq_getElem?, List.getLast?_eq_some_getLast]
  refine h.none_beyond _ _ (by omega) hget ?_
  rw [← ht, ← hlast]
  simp [getLastLogTermIndex, List.getLast?_eq_some_getLast h.flw_ne_nil]

/-- Where the entry before the request's entries is there, the follower fills its log and has
the leader's log then. -/
theorem fillInOrder_eq (h : Repairable ldr flw) (hb : BuiltFrom args ldr.logEntries)
    (ht : args.term = ldr.currentTerm) (hp : flw.HasPrev args) :
    ∃ flw' reply, flw.fillInOrder args = (flw', reply) ∧ reply.term = flw.currentTerm ∧ reply.success = true ∧
      flw'.logEntries = ldr.logEntries := by
  refine ⟨_, _, by rw [fillInOrder, if_neg (by simp [h.inOrder hb ht])], rfl, rfl, ?_⟩
  exact fill_logEntries hb h.matching (by rw [follow_logEntries, h.flw_head, h.ldr_head]) hp

/-- **What the follower answers**: success, and its log is the leader's; or a refusal that
points into the log, at or below the `PrevLogIndex` it refuses. -/
theorem appendEntries_eq (h : Repairable ldr flw) (hb : BuiltFrom args ldr.logEntries)
    (ht : args.term = ldr.currentTerm) :
    ∃ flw' reply, flw.appendEntries args = some (flw', reply) ∧ reply.term = flw.currentTerm ∧
      (reply.success = true ∧ flw'.logEntries = ldr.logEntries ∨
        reply.success = false ∧ flw' = flw.follow args.term ∧
          1 ≤ reply.nexIndex ∧ reply.nexIndex ≤ args.prevLogIndex) := by
  obtain ⟨k, prev, hk, hprev, hpt, -⟩ := id hb
  have hpos := List.length_pos_iff.mpr h.flw_ne_nil
  have hterm_le := h.term_le
  have hlast := getLastLogTermIndex_snd flw
  unfold appendEntries
  rw [if_neg (by omega)]
  simp only
  by_cases hshort : args.prevLogIndex > flw.getLastLogTermIndex.2
  · rw [if_pos hshort]
    refine ⟨_, _, rfl, rfl, Or.inr ⟨rfl, rfl, ?_, ?_⟩⟩ <;> simp only <;> omega
  rw [if_neg hshort]
  by_cases hzero : args.prevLogIndex = 0
  · obtain ⟨flw', reply, hfill, hrt, hsucc, hlog⟩ := h.fillInOrder_eq hb ht (Or.inl hzero)
    exact ⟨flw', reply, by rw [if_pos hzero, hfill], hrt, Or.inl ⟨hsucc, hlog⟩⟩
  · rw [if_neg hzero]
    have hlt : k < flw.logEntries.length := by omega
    have he : flw.getLogEntryByIndex args.prevLogIndex = some flw.logEntries[k] := by
      rw [hk, getLogEntryByIndex, if_pos (Int.natCast_nonneg k), Int.toNat_natCast, List.getElem?_eq_getElem hlt]
    rw [he, Option.map_some]
    by_cases hterm : flw.logEntries[k].term = args.prevLogTerm
    · obtain ⟨flw', reply, hfill, hrt, hsucc, hlog⟩ := h.fillInOrder_eq hb ht (Or.inr ⟨_, he, hterm⟩)
      exact ⟨flw', reply, by rw [if_pos hterm, hfill], hrt, Or.inl ⟨hsucc, hlog⟩⟩
    · rw [if_neg hterm]
      -- a conflict, so the entry is not committed and the search makes progress
      have hcommit : flw.commitIndex < k := by
        by_contra hle
        have := h.agree k _ _ (not_lt.mp hle) (List.getElem?_eq_getElem hlt) hprev
        exact hterm (by rw [this, hpt])
      have hback := backOff_lt (by omega) hcommit (List.getElem?_eq_getElem hlt)
      refine ⟨_, _, rfl, rfl, Or.inr ⟨rfl, rfl, ?_, ?_⟩⟩ <;> simp only [hk, Int.toNat_natCast] <;> omega

/-- `PrevLogIndex` is just before `nextIndex`, as long as that is not past the log. -/
theorem makeAppendEntriesArgs_eq (h : Repairable ldr flw) (h1 : 1 ≤ ldr.nextIndex p)
    (h2 : ldr.nextIndex p ≤ ldr.logEntries.length) :
    ∃ args, ldr.makeAppendEntriesArgs p = some args ∧ BuiltFrom args ldr.logEntries ∧
      args.term = ldr.currentTerm ∧ args.prevLogIndex = ldr.nextIndex p - 1 := by
  obtain ⟨args, hargs, hprev⟩ : ∃ args, ldr.makeAppendEntriesArgs p = some args ∧
      args.prevLogIndex = ldr.nextIndex p - 1 := by
    have hlast := getLastLogTermIndex_snd ldr
    unfold makeAppendEntriesArgs
    simp only
    by_cases hnext : ldr.nextIndex p > ldr.getLastLogTermIndex.2
    · rw [if_pos hnext]
      refine ⟨_, rfl, ?_⟩
      simp only
      omega
    · rw [if_neg hnext]
      have hlt : (ldr.nextIndex p - 1).toNat < ldr.logEntries.length := by omega
      rw [getLogEntryByIndex, if_pos (by omega), List.getElem?_eq_getElem hlt]
      exact ⟨_, rfl, rfl⟩
  obtain ⟨hb, ht, -⟩ := makeAppendEntriesArgs_spec hargs h.ldr_ne_nil
  exact ⟨args, hargs, hb, ht, hprev⟩

/-- What a refusal changes is nothing repair rests on. -/
theorem refused (h : Repairable ldr flw) (next : Fin n → ℤ) :
    Repairable { ldr with nextIndex := next } (flw.follow ldr.currentTerm) where
  leads := h.leads
  term_le := le_rfl
  ldr_head := h.ldr_head
  flw_head := h.flw_head
  matching := h.matching
  agree := h.agree
  none_beyond := h.none_beyond

/-- **One round**: it succeeds, the logs are equal and the loop ends; or it is refused, the
loop goes round again, and the next `PrevLogIndex` is smaller. -/
theorem round_cases (h : Repairable ldr flw) (h1 : 1 ≤ ldr.nextIndex p)
    (h2 : ldr.nextIndex p ≤ ldr.logEntries.length) :
    ∃ r, round p ldr flw = some r ∧ r.args.prevLogIndex = ldr.nextIndex p - 1 ∧
      r.handled.rf.logEntries = ldr.logEntries ∧
      (r.reply.success = true ∧ r.follower.logEntries = ldr.logEntries ∧ r.handled.again = false ∨
        r.reply.success = false ∧ r.handled.again = true ∧ Repairable r.handled.rf r.follower ∧
          1 ≤ r.handled.rf.nextIndex p ∧ r.handled.rf.nextIndex p < ldr.nextIndex p) := by
  obtain ⟨args, hargs, hb, ht, hprev⟩ := h.makeAppendEntriesArgs_eq h1 h2
  obtain ⟨flw', reply, hans, hrt, hcases⟩ := h.appendEntries_eq hb ht
  refine ⟨⟨args, reply, flw', ldr.handleReply p args reply⟩, by simp [round, hargs, hans], hprev,
    handleReply_logEntries .., ?_⟩
  have hterm : ¬ ldr.currentTerm < reply.term := by
    rw [hrt]
    exact not_lt.mpr h.term_le
  have hrole : ¬ (ldr.role ≠ .leader ∨ ldr.currentTerm ≠ args.term) := by simp [h.leads, ht]
  rcases hcases with ⟨hsucc, hlog⟩ | ⟨hfail, rfl, hone, hle⟩
  · refine Or.inl ⟨hsucc, hlog, ?_⟩
    simp [handleReply, if_neg hterm, if_neg hrole, hsucc]
  · have hhandled : ldr.handleReply p args reply =
        ⟨{ ldr with nextIndex := Function.update ldr.nextIndex p reply.nexIndex }, 1, true⟩ := by
      unfold handleReply
      rw [if_neg hterm, if_neg hrole, if_neg (by simp [hfail]), if_pos (by omega), if_pos (by omega)]
    rw [hhandled]
    refine Or.inr ⟨hfail, rfl, ht ▸ h.refused _, ?_, ?_⟩ <;> simp only [Function.update_self] <;> omega

/-- The whole loop, by induction on a bound for `nextIndex`. -/
theorem sendAppendEntries_eq (k : ℕ) (h : Repairable ldr flw) (h1 : 1 ≤ ldr.nextIndex p)
    (h2 : ldr.nextIndex p ≤ ldr.logEntries.length) (hk : ldr.nextIndex p ≤ k) :
    ∃ (refused : List (Round n C)) (last : Round n C),
      (∀ fuel, k ≤ fuel → sendAppendEntries p fuel ldr flw = some (refused ++ [last])) ∧
      (∀ r ∈ refused, r.reply.success = false) ∧ last.reply.success = true ∧
      (refused ++ [last]).Pairwise (fun r r' => r'.args.prevLogIndex < r.args.prevLogIndex) ∧
      (∀ r ∈ refused ++ [last], r.args.prevLogIndex < ldr.nextIndex p) ∧
      last.follower.logEntries = ldr.logEntries ∧ last.handled.rf.logEntries = ldr.logEntries := by
  induction k generalizing ldr flw with
  | zero => exact absurd (h1.trans hk) (by simp)
  | succ k ih =>
    obtain ⟨r, hr, hprev, hlog, hcases⟩ := h.round_cases h1 h2
    -- enough fuel is fuel for this round and as much as the rest needs
    have hfuel : ∀ fuel, k + 1 ≤ fuel → ∃ fuel', fuel = fuel' + 1 ∧ k ≤ fuel' := fun fuel hle =>
      ⟨fuel - 1, by omega, by omega⟩
    rcases hcases with ⟨hsucc, heq, hstop⟩ | ⟨hfail, hagain, h', hone, hlt⟩
    · refine ⟨[], r, fun fuel hle => ?_, by simp, hsucc, by simp, by simpa using by omega, heq, hlog⟩
      obtain ⟨fuel, rfl, -⟩ := hfuel fuel hle
      simp [sendAppendEntries, h.leads, hr, hstop]
    · obtain ⟨refused, last, hrun, hall, hsucc, hpair, hbound, heq, heq'⟩ :=
        ih h' hone (by rw [hlog]; omega) (by omega)
      refine ⟨r :: refused, last, fun fuel hle => ?_, ?_, hsucc, ?_, ?_, heq.trans hlog, heq'.trans hlog⟩
      · obtain ⟨fuel, rfl, hle'⟩ := hfuel fuel hle
        simp [sendAppendEntries, h.leads, hr, hagain, hrun fuel hle']
      · rintro s (_ | ⟨_, hs⟩)
        · exact hfail
        · exact hall s hs
      · refine List.pairwise_cons.mpr ⟨fun s hs => ?_, hpair⟩
        have := hbound s hs
        omega
      · rintro s (_ | ⟨_, hs⟩)
        · omega
        · exact (hbound s hs).trans hlt

end Repairable

/-- **Repair by back-off.** Whatever `nextIndex` the leader starts from, the loop of
`sendAppendEntries` ends: every round but the last is refused, the last one succeeds,
`PrevLogIndex` goes down from round to round, and at the end the follower's log is the
leader's, which has not changed. As many rounds as the leader's log is long are enough. -/
theorem log_repair [Inhabited C] {ldr flw : Raft n C} {p : Fin n} (h : Repairable ldr flw)
    (h1 : 1 ≤ ldr.nextIndex p) (h2 : ldr.nextIndex p ≤ ldr.getLastLogTermIndex.2 + 1) :
    ∃ (refused : List (Round n C)) (last : Round n C),
      (∀ fuel, ldr.logEntries.length ≤ fuel → sendAppendEntries p fuel ldr flw = some (refused ++ [last])) ∧
      (∀ r ∈ refused, r.reply.success = false) ∧ last.reply.success = true ∧
      (refused ++ [last]).Pairwise (fun r r' => r'.args.prevLogIndex < r.args.prevLogIndex) ∧
      last.follower.logEntries = ldr.logEntries ∧ last.handled.rf.logEntries = ldr.logEntries := by
  have h2' : ldr.nextIndex p ≤ ldr.logEntries.length := by
    rw [getLastLogTermIndex_snd] at h2
    omega
  obtain ⟨refused, last, hrun, hall, hsucc, hpair, -, heq, heq'⟩ := h.sendAppendEntries_eq _ h1 h2' h2'
  exact ⟨refused, last, hrun, hall, hsucc, hpair, heq, heq'⟩

/-- A leader of term 4 and a follower left behind with entries of two terms the leader does
not have. -/
def repairLeader : Raft 4 ℕ :=
  ⟨0, .leader, 4, [sentinel, ⟨1, 10⟩, ⟨4, 11⟩, ⟨4, 12⟩, ⟨4, 13⟩], 1, fun _ => 5, fun _ => 0⟩

@[inherit_doc repairLeader]
def repairFollower : Raft 4 ℕ :=
  ⟨1, .follower, 3, [sentinel, ⟨1, 10⟩, ⟨2, 20⟩, ⟨3, 21⟩], 1, fun _ => 0, fun _ => 0⟩

theorem repairLeader_repairable : Repairable repairLeader repairFollower := by
  refine ⟨rfl, by decide, rfl, rfl, ?_, ?_, ?_⟩
  · rintro (_ | _ | _ | _ | i) a b ha hb hab <;> grind [repairLeader, repairFollower]
  · rintro (_ | _ | _ | _ | i) a b hi ha hb <;> simp_all [repairLeader, repairFollower]
  · intro i e hi he
    simp only [repairLeader, repairFollower, List.length_cons, List.length_nil] at hi he
    rw [List.getElem?_eq_none (by simpa using by omega)] at he
    cases he

theorem log_repair_twoConflicts :
    ∃ (refused : List (Round 4 ℕ)) (last : Round 4 ℕ),
      (∀ fuel, 5 ≤ fuel → sendAppendEntries 1 fuel repairLeader repairFollower = some (refused ++ [last])) ∧
      (∀ r ∈ refused, r.reply.success = false) ∧ last.reply.success = true ∧
      (refused ++ [last]).Pairwise (fun r r' => r'.args.prevLogIndex < r.args.prevLogIndex) ∧
      last.follower.logEntries = repairLeader.logEntries ∧
      last.handled.rf.logEntries = repairLeader.logEntries :=
  log_repair (p := 1) repairLeader_repairable (by decide) (by decide)

end Raft

end Cs426.Consensus
