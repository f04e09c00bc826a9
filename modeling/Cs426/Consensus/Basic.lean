import Cs426.Lib.Logs
import Cs426.Lib.Majority
import Mathlib.Logic.Function.Basic

/-!
# Log replication of a Raft peer

`lab3/raft/my_util.go`: how a leader builds an `AppendEntries` request, how a peer
answers it, how the leader handles the answer, and how it advances `commitIndex`.

## The model

`Raft n C` has the fields of a peer that this code reads or writes, for `n` peers and
commands of type `C`; `nextIndex` and `matchIndex` have one slot per peer. A Go `int` is
an integer, an index out of range is a panic, and a function that may panic answers an
`Option`. `raft.go` is not readable at this commit; its helpers are taken as
`logEntries[0]` being a `sentinel` of term `0`, `getIdxByLogIndex` the identity,
`getLogEntryByIndex` the entry at an index, and `getLastLogTermIndex` the term and index
of the last entry. Timers, the log lines and `persist` change nothing that is modelled. A peer
that has raised `commitIndex` sends on `signalApplyCh` before it releases the lock; who receives
there is in `raft.go`. It is assumed that this send returns, so that a function which comes to
its end here does in the source, lock and all.

## What is proved

* `makeAppendEntriesArgs_spec` — a request always carries the whole tail of the log it
  was built from (`BuiltFrom`).
* `appendEntries_cases` — everything `AppendEntries` can do: reject an old term, refuse,
  or fill.
* `fill_logEntries` — filling from a log that matches makes the logs equal.
* `updateCommitIndex_spec` — where the loop of `updateCommitIndex` stops.
-/

namespace Cs426.Consensus

open Cs426.Logs Cs426.Majority

/-- An entry of a log. -/
structure LogEntry (C : Type*) where
  /-- The term in which a leader made the entry. -/
  term : ℤ
  /-- The command. -/
  command : C
  deriving DecidableEq

/-- The entry every log starts with. -/
def sentinel {C : Type*} [Inhabited C] : LogEntry C := ⟨0, default⟩

/-- The roles of a peer. -/
inductive Role where
  | follower
  | candidate
  | leader
  deriving DecidableEq

/-- The request of an `AppendEntries` call. -/
structure AppendEntriesArgs (n : ℕ) (C : Type*) where
  term : ℤ
  leaderId : Fin n
  prevLogIndex : ℤ
  prevLogTerm : ℤ
  entries : List (LogEntry C)
  leaderCommit : ℤ

/-- The answer to an `AppendEntries` call. -/
structure AppendEntriesReply where
  term : ℤ
  success : Bool
  nexIndex : ℤ
  deriving DecidableEq

/-- The part of a peer's state that log replication uses. -/
structure Raft (n : ℕ) (C : Type*) where
  /-- This peer's index among the peers. -/
  me : Fin n
  role : Role
  currentTerm : ℤ
  logEntries : List (LogEntry C)
  commitIndex : ℤ
  nextIndex : Fin n → ℤ
  matchIndex : Fin n → ℤ

variable {n : ℕ} {C : Type*}

namespace Raft

/-! ### The leader's request -/

/-- The term and index of the last entry. -/
def getLastLogTermIndex (rf : Raft n C) : ℤ × ℤ :=
  ((rf.logEntries.getLast?.map LogEntry.term).getD 0, rf.logEntries.length - 1)

/-- The entry at an index; `none` is an index out of range. -/
def getLogEntryByIndex (rf : Raft n C) (i : ℤ) : Option (LogEntry C) :=
  if 0 ≤ i then rf.logEntries[i.toNat]? else none

/-- The request for a peer: the entries from `nextIndex` on, after the entry before them. -/
def makeAppendEntriesArgs (rf : Raft n C) (peeridx : Fin n) : Option (AppendEntriesArgs n C) :=
  let nextIdx := rf.nextIndex peeridx
  let (lastLogTerm, lastLogIndex) := rf.getLastLogTermIndex
  if nextIdx > lastLogIndex then
    some { term := rf.currentTerm, leaderId := rf.me, prevLogIndex := lastLogIndex, prevLogTerm := lastLogTerm,
           entries := [], leaderCommit := rf.commitIndex }
  else
    -- a `nextIdx` below 1 has no entry before it; below 0 the slice is out of range too
    (rf.getLogEntryByIndex (nextIdx - 1)).map fun prev =>
      { term := rf.currentTerm, leaderId := rf.me, prevLogIndex := nextIdx - 1, prevLogTerm := prev.term,
        entries := rf.logEntries.drop nextIdx.toNat, leaderCommit := rf.commitIndex }

/-! ### The follower's answer -/

/-- A request that ends before this log does, when this log ends with an entry of the
request's own term. -/
def isArgsEntriesOutOfOrder (rf : Raft n C) (args : AppendEntriesArgs n C) : Bool :=
  let (lastLogTerm, lastLogIndex) := rf.getLastLogTermIndex
  decide (args.prevLogIndex + args.entries.length < lastLogIndex) && decide (lastLogTerm = args.term)

/-- Where the search for the end of the previous term stops: it goes down from `idx`
while the entries have the term `argTerm` and are not committed. -/
def backOff (rf : Raft n C) (argTerm : ℤ) : ℕ → ℕ
  | 0 => 0
  | idx + 1 =>
    if rf.commitIndex < idx + 1 ∧ (rf.logEntries[idx + 1]?.map LogEntry.term) = some argTerm then
      backOff rf argTerm idx
    else idx + 1

/-- The peer takes over the request's term and follows. -/
def follow (rf : Raft n C) (term : ℤ) : Raft n C := { rf with currentTerm := term, role := .follower }

/-- The log up to `PrevLogIndex`, then the request's entries; and the leader's commit
index if it is larger. -/
def fill (rf : Raft n C) (args : AppendEntriesArgs n C) : Raft n C :=
  { rf with
    logEntries := rf.logEntries.take (args.prevLogIndex.toNat + 1) ++ args.entries
    commitIndex := if args.leaderCommit > rf.commitIndex then args.leaderCommit else rf.commitIndex }

/-- Fill the log, unless the request is out of order. -/
def fillInOrder (rf : Raft n C) (args : AppendEntriesArgs n C) : Raft n C × AppendEntriesReply :=
  if rf.isArgsEntriesOutOfOrder args then (rf.follow args.term, ⟨rf.currentTerm, false, 0⟩)
  else
    let rf' := (rf.follow args.term).fill args
    (rf', ⟨rf.currentTerm, true, rf'.getLastLogTermIndex.2 + 1⟩)

/-- The handler of an `AppendEntries` call. -/
def appendEntries (rf : Raft n C) (args : AppendEntriesArgs n C) : Option (Raft n C × AppendEntriesReply) :=
  if args.term < rf.currentTerm then some (rf, ⟨rf.currentTerm, false, 0⟩)
  else
    let lastLogIndex := rf.getLastLogTermIndex.2
    if args.prevLogIndex > lastLogIndex then
      some (rf.follow args.term, ⟨rf.currentTerm, false, lastLogIndex + 1⟩)
    else if args.prevLogIndex = 0 then some (rf.fillInOrder args)
    else (rf.getLogEntryByIndex args.prevLogIndex).map fun e =>
      if e.term = args.prevLogTerm then rf.fillInOrder args
      else (rf.follow args.term, ⟨rf.currentTerm, false, rf.backOff e.term args.prevLogIndex.toNat + 1⟩)

/-! ### The leader's handling of the answer -/

/-- The inner loop of `updateCommitIndex`: whether counting the slots that have reached
`i`, from `count` on, gets past `half`. -/
def countReaches (i : ℤ) (half : ℕ) : ℕ → List ℤ → Bool
  | _, [] => false
  | count, m :: ms =>
    if m ≥ i then
      if count + 1 > half then true else countReaches i half (count + 1) ms
    else countReaches i half count ms

/-- The outer loop of `updateCommitIndex`, with `k` indices left to try. At its head the
index being tried is always `commitIndex + 1`. -/
def commitLoop : ℕ → Raft n C → Raft n C
  | 0, rf => rf
  | k + 1, rf =>
    if countReaches (rf.commitIndex + 1) (n / 2) 0 (List.ofFn rf.matchIndex) then
      commitLoop k { rf with commitIndex := rf.commitIndex + 1 }
    else rf

/-- Advance `commitIndex` while more than half of the peers have the next index; the
indices tried are those up to `len(logEntries)`. -/
def updateCommitIndex (rf : Raft n C) : Raft n C :=
  commitLoop (rf.logEntries.length - rf.commitIndex).toNat rf

/-- A success moves `nextIndex` and `matchIndex` forward, never back. -/
def recordSuccess (rf : Raft n C) (peeridx : Fin n) (reply : AppendEntriesReply) : Raft n C :=
  if rf.nextIndex peeridx < reply.nexIndex then
    { rf with
      nextIndex := Function.update rf.nextIndex peeridx reply.nexIndex
      matchIndex := Function.update rf.matchIndex peeridx (reply.nexIndex - 1) }
  else rf

/-- Whether the request carried entries and ended with one of the term `term`. -/
def endsInTerm (args : AppendEntriesArgs n C) (term : ℤ) : Bool :=
  args.entries.getLast?.map LogEntry.term = some term

/-- What handling an answer leaves behind: the peer, how often it released the lock, provided
that the send on `signalApplyCh` in `updateCommitIndex` has returned, and whether the loop of
`sendAppendEntries` goes round again. -/
structure Handled (n : ℕ) (C : Type*) where
  rf : Raft n C
  unlocks : ℕ
  again : Bool

/-- The part of `sendAppendEntries` after an answer has arrived. -/
def handleReply (rf : Raft n C) (peeridx : Fin n) (args : AppendEntriesArgs n C) (reply : AppendEntriesReply) :
    Handled n C :=
  if rf.currentTerm < reply.term then ⟨rf.follow reply.term, 1, false⟩
  else if rf.role ≠ .leader ∨ rf.currentTerm ≠ args.term then ⟨rf, 1, false⟩
  else if reply.success then
    let rf' := rf.recordSuccess peeridx reply
    ⟨if endsInTerm args rf.currentTerm then rf'.updateCommitIndex else rf', 1, false⟩
  else if reply.nexIndex ≠ 0 then
    if 0 < reply.nexIndex then
      ⟨{ rf with nextIndex := Function.update rf.nextIndex peeridx reply.nexIndex }, 1, true⟩
    else ⟨rf, 0, true⟩ -- the loop goes round with the lock still held
  else ⟨rf, 1, true⟩

/-! ### What a request carries -/

/-- The request carries the whole tail of `log` after one of its entries. -/
def BuiltFrom (args : AppendEntriesArgs n C) (log : List (LogEntry C)) : Prop :=
  ∃ (p : ℕ) (e : LogEntry C), args.prevLogIndex = p ∧ log[p]? = some e ∧ args.prevLogTerm = e.term ∧
    args.entries = log.drop (p + 1)

/-- Where the request ends is where the log it was built from ends. -/
theorem BuiltFrom.length_eq {args : AppendEntriesArgs n C} {log : List (LogEntry C)} (h : BuiltFrom args log) :
    args.prevLogIndex + args.entries.length + 1 = log.length := by
  obtain ⟨p, e, hp, he, -, hes⟩ := h
  have := (List.getElem?_eq_some_iff.mp he).1
  rw [hp, hes, List.length_drop]
  omega

theorem getLastLogTermIndex_snd (rf : Raft n C) : rf.getLastLogTermIndex.2 = rf.logEntries.length - 1 := rfl

/-- **A request is built from the leader's log**, whatever `nextIndex` is. -/
theorem makeAppendEntriesArgs_spec {rf : Raft n C} {peeridx : Fin n} {args : AppendEntriesArgs n C}
    (h : rf.makeAppendEntriesArgs peeridx = some args) (hne : rf.logEntries ≠ []) :
    BuiltFrom args rf.logEntries ∧ args.term = rf.currentTerm ∧ args.leaderCommit = rf.commitIndex := by
  have hpos := List.length_pos_iff.mpr hne
  unfold makeAppendEntriesArgs at h
  simp only at h
  split_ifs at h with hnext
  · -- nothing to send: the tail after the last entry is empty
    rw [Option.some.injEq] at h
    subst h
    refine ⟨⟨rf.logEntries.length - 1, rf.logEntries.getLast hne, ?_, ?_, ?_, ?_⟩, rfl, rfl⟩
    · simp only [getLastLogTermIndex_snd]
      omega
    · rw [← List.getLast?_eq_getElem?, List.getLast?_eq_some_getLast hne]
    · simp [getLastLogTermIndex, List.getLast?_eq_some_getLast hne]
    · rw [List.drop_eq_nil_of_le (by omega)]
  · obtain ⟨prev, hprev, rfl⟩ := Option.map_eq_some_iff.mp h
    unfold getLogEntryByIndex at hprev
    split_ifs at hprev with h0
    refine ⟨⟨(rf.nextIndex peeridx - 1).toNat, prev, ?_, hprev, rfl, ?_⟩, rfl, rfl⟩
    · simp only
      omega
    · simp only
      congr 1
      omega

/-! ### What an answer does -/

@[simp] theorem follow_logEntries (rf : Raft n C) (t : ℤ) : (rf.follow t).logEntries = rf.logEntries := rfl
@[simp] theorem follow_commitIndex (rf : Raft n C) (t : ℤ) : (rf.follow t).commitIndex = rf.commitIndex := rfl
@[simp] theorem follow_currentTerm (rf : Raft n C) (t : ℤ) : (rf.follow t).currentTerm = t := rfl
@[simp] theorem follow_role (rf : Raft n C) (t : ℤ) : (rf.follow t).role = .follower := rfl
@[simp] theorem fill_currentTerm (rf : Raft n C) (args : AppendEntriesArgs n C) :
    (rf.fill args).currentTerm = rf.currentTerm := rfl
@[simp] theorem fill_role (rf : Raft n C) (args : AppendEntriesArgs n C) : (rf.fill args).role = rf.role := rfl

/-- The entry before the request's entries is in the log, with the term the request says. -/
def HasPrev (rf : Raft n C) (args : AppendEntriesArgs n C) : Prop :=
  args.prevLogIndex = 0 ∨ ∃ e, rf.getLogEntryByIndex args.prevLogIndex = some e ∧ e.term = args.prevLogTerm

theorem fillInOrder_cases {rf rf' : Raft n C} {args : AppendEntriesArgs n C} {reply : AppendEntriesReply}
    (h : rf.fillInOrder args = (rf', reply)) :
    (rf' = rf.follow args.term ∧ reply = ⟨rf.currentTerm, false, 0⟩) ∨
    (rf' = (rf.follow args.term).fill args ∧ reply = ⟨rf.currentTerm, true, rf'.logEntries.length⟩ ∧
      rf.isArgsEntriesOutOfOrder args = false) := by
  unfold fillInOrder at h
  split_ifs at h with ho
  · rw [Prod.mk.injEq] at h
    exact Or.inl ⟨h.1.symm, h.2.symm⟩
  · rw [Prod.mk.injEq] at h
    obtain ⟨rfl, rfl⟩ := h
    exact Or.inr ⟨rfl, by simp [getLastLogTermIndex_snd], by simpa using ho⟩

/-- **What `AppendEntries` does**: it rejects an old term; or it follows the leader but
refuses the entries; or it follows the leader and fills its log with them, which it does
only when it has the entry before them and they are not out of order. -/
theorem appendEntries_cases {rf rf' : Raft n C} {args : AppendEntriesArgs n C} {reply : AppendEntriesReply}
    (h : rf.appendEntries args = some (rf', reply)) :
    (args.term < rf.currentTerm ∧ rf' = rf ∧ reply = ⟨rf.currentTerm, false, 0⟩) ∨
    (rf.currentTerm ≤ args.term ∧ rf' = rf.follow args.term ∧ reply.term = rf.currentTerm ∧
      reply.success = false) ∨
    (rf.currentTerm ≤ args.term ∧ rf' = (rf.follow args.term).fill args ∧
      reply = ⟨rf.currentTerm, true, rf'.logEntries.length⟩ ∧ rf.HasPrev args ∧
      rf.isArgsEntriesOutOfOrder args = false) := by
  unfold appendEntries at h
  simp only at h
  split_ifs at h with hterm hlast hzero
  · simp only [Option.some.injEq, Prod.mk.injEq] at h
    exact Or.inl ⟨hterm, h.1.symm, h.2.symm⟩
  · simp only [Option.some.injEq, Prod.mk.injEq] at h
    obtain ⟨rfl, rfl⟩ := h
    exact Or.inr (Or.inl ⟨not_lt.mp hterm, rfl, rfl, rfl⟩)
  · rcases fillInOrder_cases (Option.some.inj h) with ⟨rfl, rfl⟩ | ⟨hrf, hreply, ho⟩
    · exact Or.inr (Or.inl ⟨not_lt.mp hterm, rfl, rfl, rfl⟩)
    · exact Or.inr (Or.inr ⟨not_lt.mp hterm, hrf, hreply, Or.inl hzero, ho⟩)
  · obtain ⟨e, he, h⟩ := Option.map_eq_some_iff.mp h
    split_ifs at h with het
    · rcases fillInOrder_cases h with ⟨rfl, rfl⟩ | ⟨hrf, hreply, ho⟩
      · exact Or.inr (Or.inl ⟨not_lt.mp hterm, rfl, rfl, rfl⟩)
      · exact Or.inr (Or.inr ⟨not_lt.mp hterm, hrf, hreply, Or.inr ⟨e, he, het⟩, ho⟩)
    · rw [Prod.mk.injEq] at h
      obtain ⟨rfl, rfl⟩ := h
      exact Or.inr (Or.inl ⟨not_lt.mp hterm, rfl, rfl, rfl⟩)

theorem backOff_le (rf : Raft n C) (argTerm : ℤ) (idx : ℕ) : rf.backOff argTerm idx ≤ idx := by
  induction idx with
  | zero => exact le_rfl
  | succ idx ih =>
    unfold backOff
    split_ifs
    · exact ih.trans (Nat.le_succ idx)
    · exact le_rfl

/-- **Filling from a log that matches makes the logs equal**: what the follower keeps is
what the leader's log begins with. -/
theorem fill_logEntries {rf : Raft n C} {args : AppendEntriesArgs n C} {log : List (LogEntry C)}
    (hb : BuiltFrom args log) (hm : Matching LogEntry.term rf.logEntries log)
    (h0 : rf.logEntries.head? = log.head?) (hp : rf.HasPrev args) : (rf.fill args).logEntries = log := by
  obtain ⟨p, e, hpi, he, hpt, hes⟩ := hb
  simp only [fill, hpi, Int.toNat_natCast, hes]
  rcases hp with hz | ⟨a, ha, hat⟩
  · -- `PrevLogIndex` is 0: both logs begin with the same entry
    obtain rfl : p = 0 := by omega
    rw [List.head?_eq_getElem?, List.head?_eq_getElem?] at h0
    exact hm.splice (h0.trans he) he rfl
  · rw [hpi] at ha
    simp only [getLogEntryByIndex, Int.natCast_nonneg, if_true, Int.toNat_natCast] at ha
    exact hm.splice ha he (hat.trans hpt)

/-- A request that is in order and shorter than the log it meets meets a log whose last
entry is of another term. -/
theorem getLast_term_ne {rf : Raft n C} {args : AppendEntriesArgs n C} {log : List (LogEntry C)}
    (hb : BuiltFrom args log) (ho : rf.isArgsEntriesOutOfOrder args = false)
    (hlt : log.length < rf.logEntries.length) {e : LogEntry C} (he : rf.logEntries.getLast? = some e) :
    e.term ≠ args.term := by
  intro het
  have := hb.length_eq
  simp only [isArgsEntriesOutOfOrder, getLastLogTermIndex, Bool.and_eq_false_iff, decide_eq_false_iff_not, he,
    Option.map_some, Option.getD_some] at ho
  rcases ho with ho | ho
  · omega
  · exact ho het

/-! ### What the commit loop does -/

/-- More than half of the peers have `i` or more in their slot of `matchIndex`. -/
def MajorityHas (rf : Raft n C) (i : ℤ) : Prop :=
  n < 2 * (Finset.univ.filter fun p => i ≤ rf.matchIndex p).card

instance (rf : Raft n C) (i : ℤ) : Decidable (rf.MajorityHas i) :=
  inferInstanceAs (Decidable (n < 2 * (Finset.univ.filter fun p => i ≤ rf.matchIndex p).card))

theorem countReaches_iff (i : ℤ) {half : ℕ} (ms : List ℤ) {count : ℕ} (hc : count ≤ half) :
    countReaches i half count ms = true ↔ half < count + ms.countP (fun m => decide (i ≤ m)) := by
  induction ms generalizing count with
  | nil =>
    simp only [countReaches, List.countP_nil, Bool.false_eq_true, false_iff]
    omega
  | cons m ms ih =>
    unfold countReaches
    split_ifs with hm hcount
    · rw [List.countP_cons_of_pos (by simpa using hm)]
      simp only [true_iff]
      omega
    · rw [List.countP_cons_of_pos (by simpa using hm), ih (by omega)]
      omega
    · rw [List.countP_cons_of_neg (by simpa using hm), ih hc]

theorem countReaches_ofFn_iff (rf : Raft n C) (i : ℤ) :
    countReaches i (n / 2) 0 (List.ofFn rf.matchIndex) = true ↔ rf.MajorityHas i := by
  rw [countReaches_iff i _ (Nat.zero_le _), countP_ofFn, MajorityHas]
  simp only [decide_eq_true_eq]
  omega

/-- The loop stops after `j` of its `k` turns, at the first index without a majority. -/
theorem commitLoop_spec (k : ℕ) (rf : Raft n C) :
    ∃ j : ℕ, commitLoop k rf = { rf with commitIndex := rf.commitIndex + j } ∧
      (∀ i, rf.commitIndex < i → i ≤ rf.commitIndex + j → rf.MajorityHas i) ∧
      (j = k ∨ ¬ rf.MajorityHas (rf.commitIndex + j + 1)) := by
  induction k generalizing rf with
  | zero => exact ⟨0, by simp [commitLoop], by intros; omega, Or.inl rfl⟩
  | succ k ih =>
    unfold commitLoop
    split_ifs with hm
    · rw [countReaches_ofFn_iff] at hm
      obtain ⟨j, hj, hall, hstop⟩ := ih { rf with commitIndex := rf.commitIndex + 1 }
      refine ⟨j + 1, ?_, ?_, ?_⟩
      · rw [hj]
        congr 1
        simp only
        omega
      · intro i hi hle
        by_cases hi' : i = rf.commitIndex + 1
        · exact hi' ▸ hm
        · exact hall i (by simp only; omega) (by simp only; omega)
      · rcases hstop with rfl | hstop
        · exact Or.inl rfl
        · refine Or.inr fun h => hstop ?_
          simp only [MajorityHas] at h ⊢
          rwa [show rf.commitIndex + 1 + (j : ℤ) + 1 = rf.commitIndex + ((j + 1 : ℕ) : ℤ) + 1 by omega]
    · rw [countReaches_ofFn_iff] at hm
      exact ⟨0, by simp, by intros; omega, Or.inr (by simpa using hm)⟩

/-- **Where `updateCommitIndex` stops**: every index it passed has a majority, and the
next one has none or is past the log. -/
theorem updateCommitIndex_spec (rf : Raft n C) :
    ∃ c, rf.updateCommitIndex = { rf with commitIndex := c } ∧ rf.commitIndex ≤ c ∧
      (∀ i, rf.commitIndex < i → i ≤ c → rf.MajorityHas i) ∧
      (rf.logEntries.length ≤ c ∨ ¬ rf.MajorityHas (c + 1)) := by
  obtain ⟨j, hj, hall, hstop⟩ := commitLoop_spec (rf.logEntries.length - rf.commitIndex).toNat rf
  refine ⟨rf.commitIndex + j, hj, by omega, hall, ?_⟩
  rcases hstop with rfl | hstop
  · exact Or.inl (by omega)
  · exact Or.inr hstop

/-- A majority is not empty. -/
theorem MajorityHas.exists {rf : Raft n C} {i : ℤ} (h : rf.MajorityHas i) : ∃ p, i ≤ rf.matchIndex p := by
  by_contra hne
  push Not at hne
  have : (Finset.univ.filter fun p => i ≤ rf.matchIndex p) = ∅ :=
    Finset.filter_eq_empty_iff.mpr fun p _ => not_le.mpr (hne p)
  rw [MajorityHas, this, Finset.card_empty] at h
  omega

/-! ### What handling an answer does -/

/-- **What the leader does with an answer**: it steps down to a newer term; or it
ignores the answer; or, as the leader of the request's term, it records a success and
perhaps advances `commitIndex`, or moves `nextIndex` where a refusal says. -/
theorem handleReply_cases (rf : Raft n C) (p : Fin n) (args : AppendEntriesArgs n C) (reply : AppendEntriesReply) :
    (rf.currentTerm < reply.term ∧ (rf.handleReply p args reply).rf = rf.follow reply.term) ∨
    (rf.handleReply p args reply).rf = rf ∨
    (rf.role = .leader ∧ rf.currentTerm = args.term ∧ reply.success = true ∧
      ((rf.handleReply p args reply).rf = rf.recordSuccess p reply ∨
        endsInTerm args rf.currentTerm = true ∧
          (rf.handleReply p args reply).rf = (rf.recordSuccess p reply).updateCommitIndex)) ∨
    (rf.role = .leader ∧ rf.currentTerm = args.term ∧ reply.success = false ∧ 0 < reply.nexIndex ∧
      (rf.handleReply p args reply).rf =
        { rf with nextIndex := Function.update rf.nextIndex p reply.nexIndex }) := by
  unfold handleReply
  split_ifs with hterm hrole hsucc hends hzero hpos
  · exact Or.inl ⟨hterm, rfl⟩
  · exact Or.inr (Or.inl rfl)
  · push Not at hrole
    exact Or.inr (Or.inr (Or.inl ⟨hrole.1, hrole.2, hsucc, Or.inr ⟨hends, rfl⟩⟩))
  · push Not at hrole
    exact Or.inr (Or.inr (Or.inl ⟨hrole.1, hrole.2, hsucc, Or.inl rfl⟩))
  · push Not at hrole
    exact Or.inr (Or.inr (Or.inr ⟨hrole.1, hrole.2, by simpa using hsucc, hpos, rfl⟩))
  · exact Or.inr (Or.inl rfl)
  · exact Or.inr (Or.inl rfl)

@[simp] theorem updateCommitIndex_logEntries (rf : Raft n C) :
    rf.updateCommitIndex.logEntries = rf.logEntries := by
  obtain ⟨c, hc, -⟩ := updateCommitIndex_spec rf
  rw [hc]

@[simp] theorem updateCommitIndex_matchIndex (rf : Raft n C) :
    rf.updateCommitIndex.matchIndex = rf.matchIndex := by
  obtain ⟨c, hc, -⟩ := updateCommitIndex_spec rf
  rw [hc]

@[simp] theorem updateCommitIndex_nextIndex (rf : Raft n C) :
    rf.updateCommitIndex.nextIndex = rf.nextIndex := by
  obtain ⟨c, hc, -⟩ := updateCommitIndex_spec rf
  rw [hc]

@[simp] theorem updateCommitIndex_currentTerm (rf : Raft n C) :
    rf.updateCommitIndex.currentTerm = rf.currentTerm := by
  obtain ⟨c, hc, -⟩ := updateCommitIndex_spec rf
  rw [hc]

@[simp] theorem updateCommitIndex_role (rf : Raft n C) : rf.updateCommitIndex.role = rf.role := by
  obtain ⟨c, hc, -⟩ := updateCommitIndex_spec rf
  rw [hc]

@[simp] theorem recordSuccess_logEntries (rf : Raft n C) (p : Fin n) (reply : AppendEntriesReply) :
    (rf.recordSuccess p reply).logEntries = rf.logEntries := by
  unfold recordSuccess
  split_ifs <;> rfl

@[simp] theorem recordSuccess_currentTerm (rf : Raft n C) (p : Fin n) (reply : AppendEntriesReply) :
    (rf.recordSuccess p reply).currentTerm = rf.currentTerm := by
  unfold recordSuccess
  split_ifs <;> rfl

@[simp] theorem recordSuccess_role (rf : Raft n C) (p : Fin n) (reply : AppendEntriesReply) :
    (rf.recordSuccess p reply).role = rf.role := by
  unfold recordSuccess
  split_ifs <;> rfl

@[simp] theorem recordSuccess_commitIndex (rf : Raft n C) (p : Fin n) (reply : AppendEntriesReply) :
    (rf.recordSuccess p reply).commitIndex = rf.commitIndex := by
  unfold recordSuccess
  split_ifs <;> rfl

/-- Handling an answer leaves the log alone. -/
@[simp] theorem handleReply_logEntries (rf : Raft n C) (p : Fin n) (args : AppendEntriesArgs n C)
    (reply : AppendEntriesReply) : (rf.handleReply p args reply).rf.logEntries = rf.logEntries := by
  rcases handleReply_cases rf p args reply with ⟨-, h⟩ | h | ⟨-, -, -, h | ⟨-, h⟩⟩ | ⟨-, -, -, -, h⟩ <;>
    rw [h] <;> simp

/-- Handling an answer never lowers the term, and a peer that still leads leads the same
term as before. -/
theorem handleReply_term (rf : Raft n C) (p : Fin n) (args : AppendEntriesArgs n C) (reply : AppendEntriesReply) :
    rf.currentTerm ≤ (rf.handleReply p args reply).rf.currentTerm ∧
      ((rf.handleReply p args reply).rf.role = .leader →
        rf.role = .leader ∧ (rf.handleReply p args reply).rf.currentTerm = rf.currentTerm) := by
  rcases handleReply_cases rf p args reply with ⟨hlt, h⟩ | h | ⟨-, -, -, h | ⟨-, h⟩⟩ | ⟨-, -, -, -, h⟩
  · rw [h]
    exact ⟨hlt.le, by simp⟩
  all_goals rw [h]; simp

theorem recordSuccess_matchIndex_of_ne {p q : Fin n} (hq : q ≠ p) (rf : Raft n C) (reply : AppendEntriesReply) :
    (rf.recordSuccess p reply).matchIndex q = rf.matchIndex q := by
  unfold recordSuccess
  split_ifs
  · simp [Function.update_of_ne hq]
  · rfl

/-- Handling an answer touches only the slot of the peer that answered. -/
theorem handleReply_matchIndex_of_ne {p q : Fin n} (hq : q ≠ p) (rf : Raft n C) (args : AppendEntriesArgs n C)
    (reply : AppendEntriesReply) : (rf.handleReply p args reply).rf.matchIndex q = rf.matchIndex q := by
  rcases handleReply_cases rf p args reply with ⟨-, h⟩ | h | ⟨-, -, -, h | ⟨-, h⟩⟩ | ⟨-, -, -, -, h⟩ <;> rw [h]
  · rfl
  · exact recordSuccess_matchIndex_of_ne hq rf reply
  · rw [updateCommitIndex_matchIndex, recordSuccess_matchIndex_of_ne hq rf reply]

theorem le_updateCommitIndex (rf : Raft n C) : rf.commitIndex ≤ rf.updateCommitIndex.commitIndex := by
  obtain ⟨c, hc, hle, -⟩ := updateCommitIndex_spec rf
  rw [hc]
  exact hle

/-- Handling an answer never lowers `commitIndex`. -/
theorem le_handleReply_commitIndex (rf : Raft n C) (p : Fin n) (args : AppendEntriesArgs n C)
    (reply : AppendEntriesReply) : rf.commitIndex ≤ (rf.handleReply p args reply).rf.commitIndex := by
  rcases handleReply_cases rf p args reply with ⟨-, h⟩ | h | ⟨-, -, -, h | ⟨-, h⟩⟩ | ⟨-, -, -, -, h⟩ <;> rw [h]
  · rfl
  · rw [recordSuccess_commitIndex]
  · rw [← recordSuccess_commitIndex rf p reply]
    exact le_updateCommitIndex _

/-- Filling never lowers `commitIndex`. -/
theorem le_fill_commitIndex (rf : Raft n C) (args : AppendEntriesArgs n C) :
    rf.commitIndex ≤ (rf.fill args).commitIndex := by
  simp only [fill]
  split_ifs <;> omega

end Raft

end Cs426.Consensus
