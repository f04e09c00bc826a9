import Cs426.Lib.Machine
import Cs426.Consensus.Basic

/-!
# A cluster of Raft peers

The peers of `Cs426.Consensus.Basic` and the network between them, as a machine. Every
request ever sent and every answer ever given stays on record and may be delivered any
number of times, at any later moment and in any order, or never: messages are lost,
duplicated, delayed across terms and reordered.

What `raft.go` does is left to the labels, within what the replication code relies on:
at most one peer leads a term (`led`); a peer that becomes the leader of a term keeps its
log, whose entries are all of smaller terms, and resets `nextIndex` and `matchIndex`; a
leader appends entries of its own term only, at the end; terms never go down; and
`currentTerm` and the log survive a crash.
-/

namespace Cs426.Consensus

open Cs426.Machine

/-- A request on its way. `built` is the sender's log when the request was built; the
code does not send it, it only says what the request was made from. -/
structure Message (n : ℕ) (C : Type*) where
  src : Fin n
  dst : Fin n
  args : AppendEntriesArgs n C
  built : List (LogEntry C)

/-- An answer on its way back, with the request it answers. -/
structure Answer (n : ℕ) (C : Type*) where
  msg : Message n C
  reply : AppendEntriesReply

/-- The peers, the network, and which peer has led which term. -/
structure Cluster (n : ℕ) (C : Type*) where
  nodes : Fin n → Raft n C
  msgs : List (Message n C)
  answers : List (Answer n C)
  led : List (ℤ × Fin n)

/-- What can happen. -/
inductive Label (n : ℕ) (C : Type*) where
  /-- Peer `i` becomes the leader of term `t`. -/
  | elect (i : Fin n) (t : ℤ)
  /-- Peer `i` learns of term `t` outside log replication, or stops leading. -/
  | raiseTerm (i : Fin n) (t : ℤ)
  /-- Peer `i` crashes and restarts, with some `commitIndex`. -/
  | crash (i : Fin n) (commitIndex : ℤ)
  /-- Leader `i` appends a client's command. -/
  | start (i : Fin n) (command : C)
  /-- Leader `i` sets its own slot of `matchIndex`. -/
  | ownSlot (i : Fin n) (v : ℤ)
  /-- Leader `i` sends a request to `p`. -/
  | send (i p : Fin n)
  /-- The `k`-th request is delivered and answered. -/
  | deliver (k : ℕ)
  /-- The `k`-th answer is delivered and handled. -/
  | ack (k : ℕ)

variable {n : ℕ} {C : Type*}

namespace Cluster

/-- Peer `i` is now `rf`. -/
def setNode (c : Cluster n C) (i : Fin n) (rf : Raft n C) : Cluster n C :=
  { c with nodes := Function.update c.nodes i rf }

/-- Peer `i` as the new leader of term `t`. -/
def elected (rf : Raft n C) (i : Fin n) (t : ℤ) : Raft n C :=
  let lastLogIndex := rf.getLastLogTermIndex.2
  { rf with
    role := .leader
    currentTerm := t
    nextIndex := fun _ => lastLogIndex + 1
    matchIndex := Function.update (fun _ => 0) i lastLogIndex }

/-- Leader `i` with one more entry, which its own slot covers. -/
def started (rf : Raft n C) (i : Fin n) (command : C) : Raft n C :=
  { rf with
    logEntries := rf.logEntries ++ [⟨rf.currentTerm, command⟩]
    matchIndex := Function.update rf.matchIndex i (rf.getLastLogTermIndex.2 + 1) }

/-- One step of the cluster. -/
def step (c : Cluster n C) : Label n C → Option (Cluster n C)
  | .elect i t =>
    let rf := c.nodes i
    if rf.currentTerm ≤ t ∧ (∀ e ∈ rf.logEntries, e.term < t) ∧ ∀ q ∈ c.led, q.1 = t → q.2 = i then
      some { c.setNode i (elected rf i t) with led := (t, i) :: c.led }
    else none
  | .raiseTerm i t =>
    if (c.nodes i).currentTerm ≤ t then some (c.setNode i ((c.nodes i).follow t)) else none
  | .crash i commitIndex =>
    some (c.setNode i { c.nodes i with
      role := .follower, commitIndex := commitIndex, nextIndex := fun _ => 0, matchIndex := fun _ => 0 })
  | .start i command =>
    if (c.nodes i).role = .leader then some (c.setNode i (started (c.nodes i) i command)) else none
  | .ownSlot i v =>
    let rf := c.nodes i
    if rf.role = .leader ∧ v ≤ rf.getLastLogTermIndex.2 then
      some (c.setNode i { rf with matchIndex := Function.update rf.matchIndex i v })
    else none
  | .send i p =>
    if (c.nodes i).role = .leader then
      ((c.nodes i).makeAppendEntriesArgs p).map fun args =>
        { c with msgs := c.msgs ++ [⟨i, p, args, (c.nodes i).logEntries⟩] }
    else none
  | .deliver k =>
    c.msgs[k]?.bind fun m => ((c.nodes m.dst).appendEntries m.args).map fun r =>
      { c.setNode m.dst r.1 with answers := c.answers ++ [⟨m, r.2⟩] }
  | .ack k =>
    c.answers[k]?.map fun a =>
      c.setNode a.msg.src ((c.nodes a.msg.src).handleReply a.msg.dst a.msg.args a.reply).rf

/-- How a cluster starts: every log is the sentinel alone, nobody has led, and the
network is empty. -/
structure Init [Inhabited C] (c : Cluster n C) : Prop where
  logs : ∀ i, (c.nodes i).logEntries = [sentinel]
  roles : ∀ i, (c.nodes i).role ≠ .leader
  msgs : c.msgs = []
  answers : c.answers = []
  led : c.led = []

/-- A cluster at its start, with every term `0`. -/
def fresh (n : ℕ) (C : Type*) [Inhabited C] : Cluster n C where
  nodes i := ⟨i, .follower, 0, [sentinel], 0, fun _ => 0, fun _ => 0⟩
  msgs := []
  answers := []
  led := []

theorem fresh_init [Inhabited C] : (fresh n C).Init :=
  ⟨fun _ => rfl, fun _ => by simp [fresh], rfl, rfl, rfl⟩

/-! ### The steps, one by one -/

@[simp] theorem setNode_nodes (c : Cluster n C) (i : Fin n) (rf : Raft n C) :
    (c.setNode i rf).nodes = Function.update c.nodes i rf := rfl
@[simp] theorem setNode_answers (c : Cluster n C) (i : Fin n) (rf : Raft n C) :
    (c.setNode i rf).answers = c.answers := rfl
@[simp] theorem setNode_led (c : Cluster n C) (i : Fin n) (rf : Raft n C) : (c.setNode i rf).led = c.led := rfl

/-- What holds of the peer that is set, and of the others as they were, holds of all peers. -/
@[elab_as_elim] theorem setNode_induction (c : Cluster n C) (i : Fin n) (rf : Raft n C)
    {motive : Fin n → Raft n C → Prop} (j : Fin n) (self : motive i rf)
    (other : ∀ k, k ≠ i → motive k (c.nodes k)) : motive j ((c.setNode i rf).nodes j) := by
  rw [setNode_nodes]
  by_cases hj : j = i
  · subst hj
    rwa [Function.update_self]
  · rw [Function.update_of_ne hj]
    exact other j hj

variable {c c' : Cluster n C}

theorem step_elect_iff {i : Fin n} {t : ℤ} :
    step c (.elect i t) = some c' ↔ (c.nodes i).currentTerm ≤ t ∧ (∀ e ∈ (c.nodes i).logEntries, e.term < t) ∧
      (∀ q ∈ c.led, q.1 = t → q.2 = i) ∧
      c' = { c.setNode i (elected (c.nodes i) i t) with led := (t, i) :: c.led } := by
  simp only [step, Option.ite_none_right_eq_some, Option.some.injEq, and_assoc, eq_comm (a := c')]

theorem step_raiseTerm_iff {i : Fin n} {t : ℤ} :
    step c (.raiseTerm i t) = some c' ↔
      (c.nodes i).currentTerm ≤ t ∧ c' = c.setNode i ((c.nodes i).follow t) := by
  simp only [step, Option.ite_none_right_eq_some, Option.some.injEq, eq_comm (a := c')]

theorem step_start_iff {i : Fin n} {command : C} :
    step c (.start i command) = some c' ↔
      (c.nodes i).role = .leader ∧ c' = c.setNode i (started (c.nodes i) i command) := by
  simp only [step, Option.ite_none_right_eq_some, Option.some.injEq, eq_comm (a := c')]

theorem step_ownSlot_iff {i : Fin n} {v : ℤ} :
    step c (.ownSlot i v) = some c' ↔ (c.nodes i).role = .leader ∧ v ≤ (c.nodes i).getLastLogTermIndex.2 ∧
      c' = c.setNode i { c.nodes i with matchIndex := Function.update (c.nodes i).matchIndex i v } := by
  simp only [step, Option.ite_none_right_eq_some, Option.some.injEq, and_assoc, eq_comm (a := c')]

theorem step_send_iff {i p : Fin n} :
    step c (.send i p) = some c' ↔ (c.nodes i).role = .leader ∧
      ∃ args, (c.nodes i).makeAppendEntriesArgs p = some args ∧
        c' = { c with msgs := c.msgs ++ [⟨i, p, args, (c.nodes i).logEntries⟩] } := by
  simp only [step, Option.ite_none_right_eq_some, Option.map_eq_some_iff, eq_comm (a := c')]

theorem step_deliver_iff {k : ℕ} :
    step c (.deliver k) = some c' ↔ ∃ m rf' reply, c.msgs[k]? = some m ∧
      (c.nodes m.dst).appendEntries m.args = some (rf', reply) ∧
      c' = { c.setNode m.dst rf' with answers := c.answers ++ [⟨m, reply⟩] } := by
  simp only [step, Option.bind_eq_some_iff, Option.map_eq_some_iff, Prod.exists, eq_comm (a := c')]
  constructor
  · rintro ⟨m, hm, rf', reply, h, hc⟩
    exact ⟨m, rf', reply, hm, h, hc⟩
  · rintro ⟨m, rf', reply, hm, h, hc⟩
    exact ⟨m, hm, rf', reply, h, hc⟩

theorem step_ack_iff {k : ℕ} :
    step c (.ack k) = some c' ↔ ∃ a, c.answers[k]? = some a ∧
      c' = c.setNode a.msg.src ((c.nodes a.msg.src).handleReply a.msg.dst a.msg.args a.reply).rf := by
  simp only [step, Option.map_eq_some_iff, eq_comm (a := c')]

/-! ### What a step changes -/

/-- What the step `l` from `c` can make of peer `p`. -/
inductive NodeChange (c : Cluster n C) (l : Label n C) (p : Fin n) : Raft n C → Prop
  | stays : NodeChange c l p (c.nodes p)
  | elected (t : ℤ) : (c.nodes p).currentTerm ≤ t → (∀ e ∈ (c.nodes p).logEntries, e.term < t) →
      NodeChange c l p (elected (c.nodes p) p t)
  | follows (t : ℤ) : (c.nodes p).currentTerm ≤ t → NodeChange c l p ((c.nodes p).follow t)
  | restarts (commitIndex : ℤ) : l = .crash p commitIndex → NodeChange c l p { c.nodes p with
      role := .follower, commitIndex := commitIndex, nextIndex := fun _ => 0, matchIndex := fun _ => 0 }
  | starts (command : C) : (c.nodes p).role = .leader → NodeChange c l p (started (c.nodes p) p command)
  | setsSlot (v : ℤ) : (c.nodes p).role = .leader → v ≤ (c.nodes p).getLastLogTermIndex.2 →
      NodeChange c l p { c.nodes p with matchIndex := Function.update (c.nodes p).matchIndex p v }
  | fills (m : Message n C) : m ∈ c.msgs → m.dst = p → (c.nodes p).currentTerm ≤ m.args.term →
      (c.nodes p).HasPrev m.args → (c.nodes p).isArgsEntriesOutOfOrder m.args = false →
      NodeChange c l p (((c.nodes p).follow m.args.term).fill m.args)
  | handles (k : ℕ) (a : Answer n C) : l = .ack k → c.answers[k]? = some a → a.msg.src = p →
      NodeChange c l p ((c.nodes p).handleReply a.msg.dst a.msg.args a.reply).rf

/-- One peer is set, and the others are as they were. -/
theorem NodeChange.of_setNode {l : Label n C} {i p : Fin n} {rf : Raft n C} (hi : NodeChange c l i rf) :
    NodeChange c l p ((c.setNode i rf).nodes p) :=
  c.setNode_induction i rf p hi fun _ _ => .stays

/-- **What a step does to a peer.** -/
theorem node_cases {l : Label n C} (hs : step c l = some c') (p : Fin n) : NodeChange c l p (c'.nodes p) := by
  cases l with
  | elect i t =>
    obtain ⟨hterm, hlog, -, rfl⟩ := step_elect_iff.mp hs
    exact .of_setNode (.elected t hterm hlog)
  | raiseTerm i t =>
    obtain ⟨hterm, rfl⟩ := step_raiseTerm_iff.mp hs
    exact .of_setNode (.follows t hterm)
  | crash i ci =>
    simp only [step, Option.some.injEq] at hs
    subst hs
    exact .of_setNode (.restarts ci rfl)
  | start i command =>
    obtain ⟨hrole, rfl⟩ := step_start_iff.mp hs
    exact .of_setNode (.starts command hrole)
  | ownSlot i v =>
    obtain ⟨hrole, hv, rfl⟩ := step_ownSlot_iff.mp hs
    exact .of_setNode (.setsSlot v hrole hv)
  | send i q =>
    obtain ⟨-, args, -, rfl⟩ := step_send_iff.mp hs
    exact .stays
  | deliver k =>
    obtain ⟨m, rf, reply, hm, hr, rfl⟩ := step_deliver_iff.mp hs
    refine .of_setNode ?_
    rcases Raft.appendEntries_cases hr with ⟨-, rfl, -⟩ | ⟨hterm, rfl, -, -⟩ | ⟨hterm, rfl, -, hprev, ho⟩
    · exact .stays
    · exact .follows _ hterm
    · exact .fills m (List.mem_of_getElem? hm) rfl hterm hprev ho
  | ack k =>
    obtain ⟨a, ha, rfl⟩ := step_ack_iff.mp hs
    exact .of_setNode (.handles k a rfl ha rfl)

/-- What a step from `c` to `c'` can do to the network. -/
inductive NetChange (c c' : Cluster n C) : Prop
  | same : c'.msgs = c.msgs → c'.answers = c.answers → NetChange c c'
  | sent (i p : Fin n) (args : AppendEntriesArgs n C) : (c.nodes i).role = .leader →
      (c.nodes i).makeAppendEntriesArgs p = some args →
      c'.msgs = c.msgs ++ [⟨i, p, args, (c.nodes i).logEntries⟩] → c'.answers = c.answers → NetChange c c'
  | answered (m : Message n C) (reply : AppendEntriesReply) : m ∈ c.msgs →
      (c.nodes m.dst).appendEntries m.args = some (c'.nodes m.dst, reply) → c'.msgs = c.msgs →
      c'.answers = c.answers ++ [⟨m, reply⟩] → NetChange c c'

/-- **What a step does to the network**, with the peers as they were and as they are then. -/
theorem net_cases {l : Label n C} (hs : step c l = some c') : NetChange c c' := by
  cases l with
  | elect i t =>
    obtain ⟨-, -, -, rfl⟩ := step_elect_iff.mp hs
    exact .same rfl rfl
  | raiseTerm i t =>
    obtain ⟨-, rfl⟩ := step_raiseTerm_iff.mp hs
    exact .same rfl rfl
  | crash i ci =>
    simp only [step, Option.some.injEq] at hs
    subst hs
    exact .same rfl rfl
  | start i command =>
    obtain ⟨-, rfl⟩ := step_start_iff.mp hs
    exact .same rfl rfl
  | ownSlot i v =>
    obtain ⟨-, -, rfl⟩ := step_ownSlot_iff.mp hs
    exact .same rfl rfl
  | send i p =>
    obtain ⟨hrole, args, hargs, rfl⟩ := step_send_iff.mp hs
    exact .sent i p args hrole hargs rfl rfl
  | deliver k =>
    obtain ⟨m, rf, reply, hm, hr, rfl⟩ := step_deliver_iff.mp hs
    refine .answered m reply (List.mem_of_getElem? hm) ?_ rfl rfl
    simpa using hr
  | ack k =>
    obtain ⟨a, -, rfl⟩ := step_ack_iff.mp hs
    exact .same rfl rfl

/-- A request once sent stays on record. -/
theorem NetChange.mem_msgs (h : NetChange c c') {m : Message n C} (hm : m ∈ c.msgs) : m ∈ c'.msgs := by
  cases h with
  | same hmsgs | answered _ _ _ _ hmsgs => exact hmsgs ▸ hm
  | sent _ _ _ _ _ hmsgs =>
    rw [hmsgs]
    exact List.mem_append_left _ hm

/-- An answer on record was there before, or a peer has just given it to a request on
record. -/
theorem NetChange.answers_cases (h : NetChange c c') {a : Answer n C} (ha : a ∈ c'.answers) :
    a ∈ c.answers ∨
      a.msg ∈ c.msgs ∧ (c.nodes a.msg.dst).appendEntries a.msg.args = some (c'.nodes a.msg.dst, a.reply) := by
  cases h with
  | same _ hans | sent _ _ _ _ _ _ hans => exact .inl (hans ▸ ha)
  | answered m reply hm hr _ hans =>
    rw [hans] at ha
    rcases List.mem_append.mp ha with ha | ha
    · exact .inl ha
    · obtain rfl := List.mem_singleton.mp ha
      exact .inr ⟨hm, hr⟩

end Cluster

end Cs426.Consensus
