import Cs426.Consensus.Cluster

/-!
# Log Matching over whole runs

Whatever the network does, over any number of terms: two logs with an entry of one term
at one index are the same below it, and a peer that answers an `AppendEntries` with
`Success` has exactly the log the request was built from.

## The argument

Every entry of a term comes, with its history, from the log of the peer that leads that
term, and that log only grows while the peer stays in the term. `LogInv` keeps, for each
term, that log (`owner`) and its length at the election (`base`); every log of a peer and
every log a request was built from is attributed to the owners. A request of a term that
meets the term's own leader cannot shorten its log: beyond `base` all entries are of that
term, so `isArgsEntriesOutOfOrder` refuses a shorter request.
-/

namespace Cs426.Consensus

open Cs426.Machine Cs426.Logs Raft

variable {n : ℕ} {C : Type*} [Inhabited C]

/-- The invariant: `owner t` is the log of the leader of term `t` as it last was in that
term, and `base t` its length when it was elected. -/
structure LogInv (c : Cluster n C) (owner : ℤ → List (LogEntry C)) (base : ℤ → ℕ) : Prop where
  /-- The sentinel belongs to term 0. -/
  zero : owner 0 = [sentinel]
  /-- A term nobody has led has no entries. -/
  unled : ∀ t ≠ 0, (∀ q ∈ c.led, q.1 ≠ t) → owner t = []
  /-- The owners are attributed to each other. -/
  owners : ∀ t, Attributed LogEntry.term owner (owner t)
  /-- An owner never gets shorter than it was at the election. -/
  bases : ∀ t, base t ≤ (owner t).length
  /-- After the election a leader appends entries of its own term. -/
  tails : ∀ (t : ℤ) (i : ℕ) (e : LogEntry C), base t ≤ i → (owner t)[i]? = some e → e.term = t
  /-- Every log is attributed to the owners and starts with the sentinel. -/
  logs : ∀ i, Attributed LogEntry.term owner (c.nodes i).logEntries ∧
    (c.nodes i).logEntries.head? = some sentinel
  /-- A leader is on record for its term. -/
  leader : ∀ i, (c.nodes i).role = .leader → ((c.nodes i).currentTerm, i) ∈ c.led
  /-- A term has one leader. -/
  unique : ∀ q ∈ c.led, ∀ q' ∈ c.led, q.1 = q'.1 → q.2 = q'.2
  /-- Who has led a term is in that term, with the owner's log, or in a later one. -/
  led : ∀ q ∈ c.led, 0 < q.1 ∧ q.1 ≤ (c.nodes q.2).currentTerm ∧
    ((c.nodes q.2).currentTerm = q.1 → (c.nodes q.2).logEntries = owner q.1)
  /-- A request was built from what its term's owner was then. -/
  msgs : ∀ m ∈ c.msgs, BuiltFrom m.args m.built ∧ m.built <+: owner m.args.term ∧
    base m.args.term ≤ m.built.length ∧ m.built.head? = some sentinel ∧ ∃ q ∈ c.led, q.1 = m.args.term

namespace LogInv

variable {c c' : Cluster n C} {owner : ℤ → List (LogEntry C)} {base : ℤ → ℕ}

theorem init {c : Cluster n C} (h : c.Init) :
    LogInv c (fun t => if t = 0 then [sentinel] else []) (fun _ => 0) := by
  have hsent : Attributed LogEntry.term (fun t : ℤ => if t = 0 then [(sentinel : LogEntry C)] else [])
      [sentinel] := by
    intro i a ha
    obtain rfl : i = 0 := by
      have := (List.getElem?_eq_some_iff.mp ha).1
      simpa using this
    obtain rfl : sentinel = a := by simpa using ha
    rfl
  refine ⟨rfl, fun t ht _ => if_neg ht, fun t => ?_, fun t => Nat.zero_le _, fun t i e _ he => ?_, fun i => ?_,
    ?_, ?_, ?_, ?_⟩
  · by_cases ht : t = 0
    · simp only [ht, if_true]
      exact hsent
    · simp only [ht, if_false]
      intro i a ha
      simp at ha
  · by_cases ht : t = 0
    · simp only [ht, if_true] at he
      have := List.mem_of_getElem? he
      rw [List.mem_singleton] at this
      rw [this, ht, sentinel]
    · simp [ht] at he
  · rw [h.logs i]
    exact ⟨hsent, rfl⟩
  · exact fun i hi => absurd hi (h.roles i)
  · simp [h.led]
  · simp [h.led]
  · simp [h.msgs]

/-- No log is empty. -/
theorem length_pos (h : LogInv c owner base) (i : Fin n) : 0 < (c.nodes i).logEntries.length := by
  refine List.length_pos_iff.mpr fun hnil => ?_
  have := (h.logs i).2
  simp [hnil] at this

/-- A peer whose log stays and whose term does not go down, and who leads only if it led
before. -/
theorem keep {i : Fin n} {rf : Raft n C} (h : LogInv c owner base)
    (hlog : rf.logEntries = (c.nodes i).logEntries) (hterm : (c.nodes i).currentTerm ≤ rf.currentTerm)
    (hlead : rf.role = .leader → (c.nodes i).role = .leader ∧ rf.currentTerm = (c.nodes i).currentTerm) :
    LogInv (c.setNode i rf) owner base where
  zero := h.zero
  unled := h.unled
  owners := h.owners
  bases := h.bases
  tails := h.tails
  logs := by
    intro j
    refine c.setNode_induction i rf j ?_ fun k _ => h.logs k
    rw [hlog]
    exact h.logs i
  leader := by
    intro j
    refine c.setNode_induction i rf j ?_ fun k _ => h.leader k
    intro hr
    rw [(hlead hr).2]
    exact h.leader i (hlead hr).1
  unique := h.unique
  led := by
    intro q hq
    obtain ⟨hpos, hle, heq⟩ := h.led q hq
    by_cases hj : q.2 = i
    · subst hj
      simp only [Cluster.setNode_nodes, Function.update_self, hlog]
      exact ⟨hpos, hle.trans hterm, fun ht => heq (by omega)⟩
    · simp only [Cluster.setNode_nodes, Function.update_of_ne hj]
      exact ⟨hpos, hle, heq⟩
  msgs := h.msgs

/-- What is recorded of answers does not matter. -/
theorem of_answers {as : List (Answer n C)} (h : LogInv c owner base) :
    LogInv { c with answers := as } owner base :=
  ⟨h.zero, h.unled, h.owners, h.bases, h.tails, h.logs, h.leader, h.unique, h.led, h.msgs⟩

/-- **A success makes the logs equal**: a peer that fills its log from a request ends up
with the log the request was built from. -/
theorem fill_eq_built (h : LogInv c owner base) {m : Message n C} (hm : m ∈ c.msgs)
    (hprev : (c.nodes m.dst).HasPrev m.args) :
    (((c.nodes m.dst).follow m.args.term).fill m.args).logEntries = m.built := by
  obtain ⟨hb, hpre, -, hhead, -⟩ := h.msgs m hm
  refine Raft.fill_logEntries hb ?_ ?_ hprev
  · exact (h.logs m.dst).1.matching ((h.owners m.args.term).of_isPrefix hpre)
  · rw [hhead]
    exact (h.logs m.dst).2

/-- A request of a term that its own leader accepts is as long as the leader's log. -/
theorem built_eq_owner (h : LogInv c owner base) {m : Message n C} (hm : m ∈ c.msgs)
    (ho : (c.nodes m.dst).isArgsEntriesOutOfOrder m.args = false)
    (hlog : (c.nodes m.dst).logEntries = owner m.args.term) : m.built = owner m.args.term := by
  obtain ⟨hb, hpre, hbase, -, -⟩ := h.msgs m hm
  refine hpre.eq_of_length_le (not_lt.mp fun hlt => ?_)
  -- a longer owner ends with an entry of its own term, and then the request is out of order
  have he := List.getLast?_eq_some_getLast (List.ne_nil_of_length_pos (show 0 < (owner m.args.term).length by omega))
  refine Raft.getLast_term_ne hb ho (by rw [hlog]; exact hlt) (by rw [hlog]; exact he) ?_
  rw [List.getLast?_eq_getElem?] at he
  exact h.tails _ _ _ (by omega) he

/-- A peer fills its log from a request. -/
theorem fill (h : LogInv c owner base) {m : Message n C} (hm : m ∈ c.msgs)
    (hterm : (c.nodes m.dst).currentTerm ≤ m.args.term) (hprev : (c.nodes m.dst).HasPrev m.args)
    (ho : (c.nodes m.dst).isArgsEntriesOutOfOrder m.args = false) :
    LogInv (c.setNode m.dst (((c.nodes m.dst).follow m.args.term).fill m.args)) owner base := by
  have hbuilt := h.fill_eq_built hm hprev
  obtain ⟨-, hpre, -, hhead, -⟩ := h.msgs m hm
  refine ⟨h.zero, h.unled, h.owners, h.bases, h.tails, fun j => ?_, fun j => ?_, h.unique, fun q hq => ?_, h.msgs⟩
  · refine c.setNode_induction m.dst _ j ?_ fun k _ => h.logs k
    rw [hbuilt]
    exact ⟨(h.owners m.args.term).of_isPrefix hpre, hhead⟩
  · refine c.setNode_induction m.dst _ j ?_ fun k _ => h.leader k
    simp
  · obtain ⟨hpos, hle, heq⟩ := h.led q hq
    by_cases hj : q.2 = m.dst
    · rw [Cluster.setNode_nodes, hj, Function.update_self, hbuilt]
      rw [hj] at hle heq
      refine ⟨hpos, hle.trans hterm, fun ht => ?_⟩
      -- it leads the request's term, so it already has the owner's log
      have hq1 : m.args.term = q.1 := by simpa using ht
      rw [← hq1] at heq hle ⊢
      exact h.built_eq_owner hm ho (heq (by omega))
    · rw [Cluster.setNode_nodes, Function.update_of_ne hj]
      exact ⟨hpos, hle, heq⟩

/-- Peer `i` becomes the leader of a term nobody has led: its log is the term's owner. -/
theorem elect_new {i : Fin n} {t : ℤ} (h : LogInv c owner base) (hterm : (c.nodes i).currentTerm ≤ t)
    (hnew : ∀ q ∈ c.led, q.1 ≠ t) (hpos : 0 < t) :
    LogInv { c.setNode i (Cluster.elected (c.nodes i) i t) with led := (t, i) :: c.led }
      (Function.update owner t (c.nodes i).logEntries)
      (Function.update base t (c.nodes i).logEntries.length) := by
  have hempty := h.unled t hpos.ne' hnew
  have hkeep : ∀ {l}, Attributed LogEntry.term owner l →
      Attributed LogEntry.term (Function.update owner t (c.nodes i).logEntries) l :=
    fun hl => hl.update_new hempty _
  refine ⟨?_, fun t' ht' hnl => ?_, fun t' => ?_, fun t' => ?_, fun t' j e hj he => ?_, fun j => ?_, fun j => ?_,
    ?_, ?_, ?_⟩
  · rw [Function.update_of_ne hpos.ne, h.zero]
  · have hne : t' ≠ t := fun heq => hnl (t, i) (List.mem_cons_self ..) heq.symm
    rw [Function.update_of_ne hne]
    exact h.unled t' ht' fun q hq => hnl q (List.mem_cons_of_mem _ hq)
  · by_cases ht' : t' = t
    · rw [ht', Function.update_self]
      exact hkeep (h.logs i).1
    · rw [Function.update_of_ne ht']
      exact hkeep (h.owners t')
  · by_cases ht' : t' = t
    · rw [ht', Function.update_self, Function.update_self]
    · rw [Function.update_of_ne ht', Function.update_of_ne ht']
      exact h.bases t'
  · by_cases ht' : t' = t
    · rw [ht', Function.update_self] at hj he
      have := (List.getElem?_eq_some_iff.mp he).1
      omega
    · rw [Function.update_of_ne ht'] at hj he
      exact h.tails t' j e hj he
  · have hlogs (k : Fin n) := And.intro (hkeep (h.logs k).1) (h.logs k).2
    exact c.setNode_induction i (Cluster.elected (c.nodes i) i t) j (hlogs i) fun k _ => hlogs k
  · refine c.setNode_induction i (Cluster.elected (c.nodes i) i t) j ?_ fun k _ hr => ?_
    · exact fun _ => List.mem_cons_self ..
    · exact List.mem_cons_of_mem _ (h.leader k hr)
  · intro q hq q' hq' heq
    rcases List.mem_cons.mp hq with rfl | hq <;> rcases List.mem_cons.mp hq' with rfl | hq'
    · rfl
    · exact absurd heq.symm (hnew q' hq')
    · exact absurd heq (hnew q hq)
    · exact h.unique q hq q' hq' heq
  · intro q hq
    rcases List.mem_cons.mp hq with rfl | hq
    · simp [Cluster.elected, hpos]
    · obtain ⟨hqpos, hle, heq⟩ := h.led q hq
      rw [Function.update_of_ne (hnew q hq)]
      by_cases hj : q.2 = i
      · simp only [Cluster.setNode_nodes, hj, Function.update_self, Cluster.elected]
        rw [hj] at hle
        exact ⟨hqpos, hle.trans hterm, fun ht => absurd ht.symm (hnew q hq)⟩
      · simp only [Cluster.setNode_nodes, Function.update_of_ne hj]
        exact ⟨hqpos, hle, heq⟩
  · intro m hm
    obtain ⟨hb, hpre, hbase, hhead, q, hq, hqt⟩ := h.msgs m hm
    have hne : m.args.term ≠ t := hqt ▸ hnew q hq
    rw [Function.update_of_ne hne, Function.update_of_ne hne]
    exact ⟨hb, hpre, hbase, hhead, q, List.mem_cons_of_mem _ hq, hqt⟩

/-- Peer `i` becomes the leader of a term it has led before: it is still in that term, so
it has the owner's log. -/
theorem elect_again {i : Fin n} {t : ℤ} (h : LogInv c owner base) (hterm : (c.nodes i).currentTerm ≤ t)
    (hled : (t, i) ∈ c.led) :
    LogInv { c.setNode i (Cluster.elected (c.nodes i) i t) with led := (t, i) :: c.led } owner base := by
  obtain ⟨hpos, hle, heq⟩ := h.led _ hled
  have hmem : ∀ q, q ∈ (t, i) :: c.led ↔ q ∈ c.led := fun q => by
    rw [List.mem_cons, or_iff_right_of_imp]
    rintro rfl
    exact hled
  refine ⟨h.zero, fun t' ht' hnl => h.unled t' ht' fun q hq => hnl q (List.mem_cons_of_mem _ hq), h.owners,
    h.bases, h.tails, fun j => ?_, fun j => ?_, ?_, ?_, ?_⟩
  · exact c.setNode_induction i (Cluster.elected (c.nodes i) i t) j (h.logs i) fun k _ => h.logs k
  · refine c.setNode_induction i (Cluster.elected (c.nodes i) i t) j ?_ fun k _ hr => ?_
    · exact fun _ => List.mem_cons_self ..
    · exact List.mem_cons_of_mem _ (h.leader k hr)
  · intro q hq q' hq'
    exact h.unique q ((hmem q).mp hq) q' ((hmem q').mp hq')
  · intro q hq
    obtain ⟨hqpos, hqle, hqeq⟩ := h.led q ((hmem q).mp hq)
    by_cases hj : q.2 = i
    · simp only [Cluster.setNode_nodes, hj, Function.update_self, Cluster.elected]
      rw [hj] at hqle hqeq
      exact ⟨hqpos, hqle.trans hterm, fun ht => hqeq (by omega)⟩
    · simp only [Cluster.setNode_nodes, Function.update_of_ne hj]
      exact ⟨hqpos, hqle, hqeq⟩
  · intro m hm
    obtain ⟨hb, hpre, hbase, hhead, q, hq, hqt⟩ := h.msgs m hm
    exact ⟨hb, hpre, hbase, hhead, q, List.mem_cons_of_mem _ hq, hqt⟩

/-- Leader `i` appends an entry: the owner of its term grows with its log. -/
theorem start {i : Fin n} {command : C} (h : LogInv c owner base) (hrole : (c.nodes i).role = .leader) :
    LogInv (c.setNode i (Cluster.started (c.nodes i) i command))
      (Function.update owner (c.nodes i).currentTerm
        (owner (c.nodes i).currentTerm ++ [⟨(c.nodes i).currentTerm, command⟩])) base := by
  have hled := h.leader i hrole
  obtain ⟨hpos, -, heq⟩ := h.led _ hled
  have hlog := heq rfl
  simp only at hpos hlog
  generalize ht : (c.nodes i).currentTerm = t at *
  have hkeep : ∀ {l}, Attributed LogEntry.term owner l →
      Attributed LogEntry.term (Function.update owner t (owner t ++ [⟨t, command⟩])) l :=
    fun hl => hl.update_append t
  have hnew : Attributed LogEntry.term (Function.update owner t (owner t ++ [⟨t, command⟩]))
      (owner t ++ [⟨t, command⟩]) := (h.owners t).update_concat rfl
  refine ⟨?_, fun t' ht' hnl => ?_, fun t' => ?_, fun t' => ?_, fun t' j e hj he => ?_, fun j => ?_, fun j => ?_,
    h.unique, fun q hq => ?_, fun m hm => ?_⟩
  · rw [Function.update_of_ne hpos.ne, h.zero]
  · rw [Function.update_of_ne (fun hc => hnl _ hled hc.symm)]
    exact h.unled t' ht' hnl
  · by_cases ht' : t' = t
    · rw [ht', Function.update_self]
      exact hnew
    · rw [Function.update_of_ne ht']
      exact hkeep (h.owners t')
  · have := h.bases t'
    by_cases ht' : t' = t
    · rw [ht', Function.update_self, List.length_append]
      rw [ht'] at this
      omega
    · rw [Function.update_of_ne ht']
      exact this
  · by_cases ht' : t' = t
    · subst ht'
      rw [Function.update_self] at he
      by_cases hlt : j < (owner t').length
      · rw [List.getElem?_append_left hlt] at he
        exact h.tails t' j e hj he
      · rw [List.getElem?_append_right (by omega)] at he
        have : e = ⟨t', command⟩ := by simpa using List.mem_of_getElem? he
        rw [this]
    · rw [Function.update_of_ne ht'] at he
      exact h.tails t' j e hj he
  · refine c.setNode_induction i (Cluster.started (c.nodes i) i command) j ?_ fun k _ =>
      ⟨hkeep (h.logs k).1, (h.logs k).2⟩
    have hhead := (h.logs i).2
    rw [hlog] at hhead
    simp only [Cluster.started, ht, hlog]
    refine ⟨hnew, ?_⟩
    rw [List.head?_append, hhead]
    rfl
  · refine c.setNode_induction i (Cluster.started (c.nodes i) i command) j ?_ fun k _ => h.leader k
    simp only [Cluster.started, Cluster.setNode_led, ht]
    exact fun _ => hled
  · obtain ⟨hqpos, hqle, hqeq⟩ := h.led q hq
    by_cases hj : q.2 = i
    · simp only [Cluster.setNode_nodes, hj, Function.update_self, Cluster.started, ht]
      rw [hj, ht] at hqle hqeq
      refine ⟨hqpos, hqle, fun hqt => ?_⟩
      rw [← hqt, Function.update_self, hlog]
    · -- the term has one leader, so this is another term
      have hne : q.1 ≠ t := fun hc => hj (h.unique q hq _ hled hc)
      simp only [Cluster.setNode_nodes, Function.update_of_ne hj, Function.update_of_ne hne]
      exact ⟨hqpos, hqle, hqeq⟩
  · obtain ⟨hb, hpre, hmbase, hhead, hq⟩ := h.msgs m hm
    refine ⟨hb, ?_, hmbase, hhead, hq⟩
    by_cases hmt : m.args.term = t
    · rw [hmt, Function.update_self]
      rw [hmt] at hpre
      exact hpre.trans (List.prefix_append _ _)
    · rw [Function.update_of_ne hmt]
      exact hpre

/-- Leader `i` sends a request, built from the owner of its term. -/
theorem send {i p : Fin n} {args : AppendEntriesArgs n C} (h : LogInv c owner base)
    (hrole : (c.nodes i).role = .leader) (hargs : (c.nodes i).makeAppendEntriesArgs p = some args) :
    LogInv { c with msgs := c.msgs ++ [⟨i, p, args, (c.nodes i).logEntries⟩] } owner base := by
  have hled := h.leader i hrole
  have hhead := (h.logs i).2
  obtain ⟨hb, hterm, -⟩ := makeAppendEntriesArgs_spec hargs (fun hnil => by simp [hnil] at hhead)
  have hlog : (c.nodes i).logEntries = owner args.term := by
    rw [hterm]
    exact (h.led _ hled).2.2 rfl
  refine ⟨h.zero, h.unled, h.owners, h.bases, h.tails, h.logs, h.leader, h.unique, h.led, fun m hm => ?_⟩
  rcases List.mem_append.mp hm with hm | hm
  · exact h.msgs m hm
  · rw [List.mem_singleton] at hm
    subst hm
    exact ⟨hb, by rw [hlog], by simp only [hlog]; exact h.bases _, hhead, _, hled, hterm.symm⟩

end LogInv

/-! ### What a step does to the owners -/

/-- The log with which the leader of a term was elected. -/
def startLog (owner : ℤ → List (LogEntry C)) (base : ℤ → ℕ) (t : ℤ) : List (LogEntry C) := (owner t).take (base t)

/-- What a step does to the owners: those elected stay elected, with the logs they were
elected with; what is attributed stays attributed; no owner gets an entry of a later term;
and who is elected anew has a log of smaller terms. -/
structure Advance (c c' : Cluster n C) (l : Label n C) (owner owner' : ℤ → List (LogEntry C)) (base base' : ℤ → ℕ) :
    Prop where
  led : ∀ q ∈ c.led, q ∈ c'.led
  starts : ∀ q ∈ c.led, startLog owner' base' q.1 = startLog owner base q.1
  attributed : ∀ log, Attributed LogEntry.term owner log → Attributed LogEntry.term owner' log
  terms : (∀ t, ∀ e ∈ owner t, e.term ≤ t) → ∀ t, ∀ e ∈ owner' t, e.term ≤ t
  elected : ∀ q ∈ c'.led, q ∈ c.led ∨ l = .elect q.2 q.1 ∧ (∀ q' ∈ c.led, q'.1 ≠ q.1) ∧
    startLog owner' base' q.1 = (c.nodes q.2).logEntries ∧ ∀ e ∈ (c.nodes q.2).logEntries, e.term < q.1

namespace LogInv

variable {c c' : Cluster n C} {owner : ℤ → List (LogEntry C)} {base : ℤ → ℕ}

omit [Inhabited C] in
/-- Nobody is elected, and the owners stay. -/
theorem advance_same {l : Label n C} (hled : ∀ q, q ∈ c'.led ↔ q ∈ c.led) :
    Advance c c' l owner owner base base :=
  ⟨fun q => (hled q).mpr, fun _ _ => rfl, fun _ h => h, fun h => h, fun q hq => .inl ((hled q).mp hq)⟩

/-- The leader of a term nobody has led. -/
theorem advance_elect {i : Fin n} {t : ℤ} {base' : ℤ → ℕ} (h : LogInv c owner base)
    (hlog : ∀ e ∈ (c.nodes i).logEntries, e.term < t) (hnew : ∀ q ∈ c.led, q.1 ≠ t) (hpos : 0 < t)
    (hled : c'.led = (t, i) :: c.led)
    (hbase : base' = Function.update base t (c.nodes i).logEntries.length) :
    Advance c c' (.elect i t) owner (Function.update owner t (c.nodes i).logEntries) base base' where
  led := by
    intro q hq
    rw [hled]
    exact List.mem_cons_of_mem _ hq
  starts := by
    intro q hq
    simp only [startLog, hbase, Function.update_of_ne (hnew q hq)]
  attributed := fun log hl => hl.update_new (h.unled t hpos.ne' hnew) _
  terms := by
    intro hown t' e he
    by_cases ht' : t' = t
    · rw [ht', Function.update_self] at he
      exact ht' ▸ (hlog e he).le
    · rw [Function.update_of_ne ht'] at he
      exact hown t' e he
  elected := by
    intro q hq
    rw [hled] at hq
    rcases List.mem_cons.mp hq with rfl | hq
    · refine .inr ⟨rfl, hnew, ?_, hlog⟩
      simp only [startLog, hbase, Function.update_self, List.take_length]
    · exact .inl hq

/-- A leader appends an entry of its own term. -/
theorem advance_start {l : Label n C} {t : ℤ} {e : LogEntry C} (h : LogInv c owner base) (he : e.term = t)
    (hled : c'.led = c.led) :
    Advance c c' l owner (Function.update owner t (owner t ++ [e])) base base where
  led := fun q hq => hled ▸ hq
  starts := by
    intro q _
    by_cases hq : q.1 = t
    · rw [startLog, startLog, hq, Function.update_self, List.take_append_of_le_length (h.bases t)]
    · rw [startLog, startLog, Function.update_of_ne hq]
  attributed := fun log hl => hl.update_append t
  terms := by
    intro hown t' e' he'
    by_cases ht' : t' = t
    · rw [ht', Function.update_self] at he'
      rcases List.mem_append.mp he' with he' | he'
      · exact ht' ▸ hown t e' he'
      · rw [List.mem_singleton.mp he', he, ht']
    · rw [Function.update_of_ne ht'] at he'
      exact hown t' e' he'
  elected := fun q hq => .inl (hled ▸ hq)

/-- **What a step does to the owners**: the invariant holds with those it leaves. -/
theorem advance (h : LogInv c owner base) {l : Label n C} (hs : Cluster.step c l = some c') :
    ∃ owner' base', LogInv c' owner' base' ∧ Advance c c' l owner owner' base base' := by
  cases l with
  | elect i t =>
    obtain ⟨hterm, hlog, huniq, rfl⟩ := Cluster.step_elect_iff.mp hs
    by_cases hled : (t, i) ∈ c.led
    · refine ⟨owner, base, h.elect_again hterm hled, advance_same fun q => ?_⟩
      rw [List.mem_cons, or_iff_right_of_imp]
      rintro rfl
      exact hled
    · have hnew : ∀ q ∈ c.led, q.1 ≠ t := by
        rintro ⟨t', j⟩ hq rfl
        obtain rfl := huniq _ hq rfl
        exact hled hq
      have hpos : 0 < t := hlog sentinel (List.mem_of_mem_head? (h.logs i).2)
      exact ⟨_, _, h.elect_new hterm hnew hpos, h.advance_elect hlog hnew hpos rfl rfl⟩
  | raiseTerm i t =>
    obtain ⟨hterm, rfl⟩ := Cluster.step_raiseTerm_iff.mp hs
    exact ⟨owner, base, h.keep rfl hterm (by simp), advance_same fun _ => Iff.rfl⟩
  | crash i ci =>
    simp only [Cluster.step, Option.some.injEq] at hs
    subst hs
    exact ⟨owner, base, h.keep rfl le_rfl (by simp), advance_same fun _ => Iff.rfl⟩
  | start i command =>
    obtain ⟨hrole, rfl⟩ := Cluster.step_start_iff.mp hs
    exact ⟨_, _, h.start hrole, h.advance_start rfl rfl⟩
  | ownSlot i v =>
    obtain ⟨hrole, -, rfl⟩ := Cluster.step_ownSlot_iff.mp hs
    exact ⟨owner, base, h.keep rfl le_rfl fun _ => ⟨hrole, rfl⟩, advance_same fun _ => Iff.rfl⟩
  | send i p =>
    obtain ⟨hrole, args, hargs, rfl⟩ := Cluster.step_send_iff.mp hs
    exact ⟨owner, base, h.send hrole hargs, advance_same fun _ => Iff.rfl⟩
  | deliver k =>
    obtain ⟨m, rf', reply, hm, hr, rfl⟩ := Cluster.step_deliver_iff.mp hs
    have hm := List.mem_of_getElem? hm
    refine ⟨owner, base, of_answers ?_, advance_same fun _ => Iff.rfl⟩
    rcases appendEntries_cases hr with ⟨-, rfl, -⟩ | ⟨hterm, rfl, -, -⟩ | ⟨hterm, rfl, -, hprev, ho⟩
    · exact h.keep rfl le_rfl fun hrole => ⟨hrole, rfl⟩
    · exact h.keep rfl hterm (by simp)
    · exact h.fill hm hterm hprev ho
  | ack k =>
    obtain ⟨a, -, rfl⟩ := Cluster.step_ack_iff.mp hs
    obtain ⟨hterm, hlead⟩ := handleReply_term (c.nodes a.msg.src) a.msg.dst a.msg.args a.reply
    exact ⟨owner, base, h.keep (handleReply_logEntries ..) hterm hlead, advance_same fun _ => Iff.rfl⟩

/-- **Every step preserves the invariant.** -/
theorem step {l : Label n C} (h : LogInv c owner base) (hs : Cluster.step c l = some c') :
    ∃ owner' base', LogInv c' owner' base' := by
  obtain ⟨owner', base', h', -⟩ := h.advance hs
  exact ⟨owner', base', h'⟩

/-- The invariant holds wherever a run from the start arrives. -/
theorem of_run {c₀ : Cluster n C} (h₀ : c₀.Init) {ls : List (Label n C)} (h : run Cluster.step c₀ ls = some c) :
    ∃ owner base, LogInv c owner base :=
  run_inductive (I := fun c => ∃ owner base, LogInv c owner base) (fun _ _ _ ⟨_, _, hI⟩ hs => hI.step hs)
    ⟨_, _, init h₀⟩ h

end LogInv

/-- **Log Matching.** Wherever a run arrives, over any number of peers and terms and
whatever the network does: two logs with an entry of one term at one index are the same at
all smaller indices; and whichever request is delivered next, to a peer that answers it
with `Success`, that peer's log then is the log the request was built from. -/
theorem log_matching {c₀ c : Cluster n C} (h₀ : c₀.Init) (ls : List (Label n C))
    (h : run Cluster.step c₀ ls = some c) :
    (∀ (i j : Fin n) (k : ℕ) (a b : LogEntry C), (c.nodes i).logEntries[k]? = some a →
      (c.nodes j).logEntries[k]? = some b → a.term = b.term →
      ∀ k' < k, (c.nodes i).logEntries[k']? = (c.nodes j).logEntries[k']?) ∧
    ∀ (k : ℕ) (m : Message n C) (rf : Raft n C) (reply : AppendEntriesReply), c.msgs[k]? = some m →
      (c.nodes m.dst).appendEntries m.args = some (rf, reply) → reply.success = true →
      rf.logEntries = m.built := by
  obtain ⟨owner, base, hI⟩ := LogInv.of_run h₀ h
  refine ⟨fun i j k a b ha hb hab k' hk' => ?_, fun k m rf reply hm hr hsucc => ?_⟩
  · exact getElem?_of_take_eq ((hI.logs i).1.matching (hI.logs j).1 k a b ha hb hab) hk'.le
  · rcases appendEntries_cases hr with ⟨-, -, rfl⟩ | ⟨-, -, -, hfail⟩ | ⟨-, rfl, -, hprev, -⟩
    · simp at hsucc
    · simp [hfail] at hsucc
    · exact hI.fill_eq_built (List.mem_of_getElem? hm) hprev

/-- Peer 1 first takes an entry of term 1 from peer 0, then loses it to peer 2, the
leader of term 2; what peers 1 and 2 then share is the same. -/
def twoLeaders : List (Label 3 ℕ) :=
  [.elect 0 1, .start 0 7, .send 0 1, .deliver 0, .elect 2 2, .start 2 9, .send 2 1, .deliver 1]

theorem log_matching_twoLeaders :
    ∃ c, run Cluster.step (Cluster.fresh 3 ℕ) twoLeaders = some c ∧
      (c.nodes 1).logEntries[1]? = some ⟨2, 9⟩ ∧ (c.nodes 2).logEntries[1]? = some ⟨2, 9⟩ ∧
      (c.nodes 1).logEntries[0]? = (c.nodes 2).logEntries[0]? := by
  obtain ⟨c, hc⟩ := Option.isSome_iff_exists.mp
    (show (run Cluster.step (Cluster.fresh 3 ℕ) twoLeaders).isSome = true by decide)
  have hlogs : (run Cluster.step (Cluster.fresh 3 ℕ) twoLeaders).map
      (fun c => ((c.nodes 1).logEntries[1]?, (c.nodes 2).logEntries[1]?)) =
        some (some ⟨2, 9⟩, some ⟨2, 9⟩) := by decide
  rw [hc, Option.map_some, Option.some.injEq, Prod.mk.injEq] at hlogs
  exact ⟨c, hc, hlogs.1, hlogs.2,
    (log_matching Cluster.fresh_init twoLeaders hc).1 1 2 1 _ _ hlogs.1 hlogs.2 rfl 0 (by decide)⟩

end Cs426.Consensus
