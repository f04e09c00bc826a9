import Cs426.Consensus.LogMatching
import Mathlib.Data.Finset.Card

/-!
# Histories and the election restriction

The cluster of `Cs426.Consensus.Cluster` over any number of terms, with the election
restriction added: whoever becomes the leader of a term has been voted for by a majority,
and nobody votes for a log that is less up to date than its own. The code of the elections
is in `raft.go`, which is not readable at this commit; here it is what a step of a run is
required to satisfy (`WinsElection`), and everything about logs is what the replication
code of `my_util.go` makes of it.

A `History` keeps, beside the cluster, every term and log each peer has had. A list of
entries that ends in term `t` is *stored* by a peer once its log begins with it while the
peer is in term `t` (`Stored`), and a majority that stores it makes it *chosen* (`Chosen`).

## What is proved

* `LogInv.peer_cases` — everything a step can do to the term and the log of a peer.
* `isPrefix_owner`, `le_lastTerm` — what a log that is up to date has in it.
* `exists_mem_of_majorities` — two majorities have a peer in common.
-/

namespace Cs426.Consensus

open Cs426.Machine Cs426.Logs Raft

variable {n : ℕ} {C : Type*}

/-! ### Histories -/

/-- The cluster, with the terms and logs every peer has had. -/
structure History (n : ℕ) (C : Type*) where
  now : Cluster n C
  seen : Fin n → List (ℤ × List (LogEntry C))

namespace History

/-- A history that begins with `c`. -/
def start (c : Cluster n C) : History n C :=
  ⟨c, fun p => [((c.nodes p).currentTerm, (c.nodes p).logEntries)]⟩

/-- The cluster has become `c`. -/
def record (h : History n C) (c : Cluster n C) : History n C :=
  ⟨c, fun p => ((c.nodes p).currentTerm, (c.nodes p).logEntries) :: h.seen p⟩

/-- One step of the cluster, on record. -/
def step (h : History n C) (l : Label n C) : Option (History n C) := (h.now.step l).map h.record

theorem step_iff {h h' : History n C} {l : Label n C} :
    step h l = some h' ↔ ∃ c, h.now.step l = some c ∧ h' = h.record c := by
  simp only [step, Option.map_eq_some_iff, eq_comm (a := h')]

/-- The term of the last entry of a log. -/
def lastTerm (log : List (LogEntry C)) : ℤ := (log.getLast?.map LogEntry.term).getD 0

/-- `log` is at least as up to date as `other`: its last term is larger, or it is the same
and `log` is at least as long. -/
def UpToDate (log other : List (LogEntry C)) : Prop :=
  lastTerm other < lastTerm log ∨ lastTerm other = lastTerm log ∧ other.length ≤ log.length

instance (log other : List (LogEntry C)) : Decidable (UpToDate log other) :=
  inferInstanceAs (Decidable (_ ∨ _))

/-- Peer `p` was in term `t` at a moment when `log` was at least as up to date as its own. -/
def MayVote (h : History n C) (t : ℤ) (log : List (LogEntry C)) (p : Fin n) : Prop :=
  ∃ x ∈ h.seen p, x.1 = t ∧ UpToDate log x.2

instance (h : History n C) (t : ℤ) (log : List (LogEntry C)) : DecidablePred (h.MayVote t log) :=
  fun p => inferInstanceAs (Decidable (∃ x ∈ h.seen p, x.1 = t ∧ UpToDate log x.2))

/-- **The election restriction**: a majority may have voted for the peer that becomes the
leader of a term, with the log it has. -/
def WinsElection (h : History n C) : Label n C → Prop
  | .elect i t => n < 2 * (Finset.univ.filter (h.MayVote t (h.now.nodes i).logEntries)).card
  | _ => True

instance (h : History n C) : DecidablePred h.WinsElection
  | .elect .. => inferInstanceAs (Decidable (n < 2 * Finset.card _))
  | .raiseTerm .. | .crash .. | .start .. | .ownSlot .. | .send .. | .deliver .. | .ack .. => isTrue trivial

/-- Peer `p` had `log` at the beginning of its log while it was in term `t`. -/
def Stored (h : History n C) (t : ℤ) (log : List (LogEntry C)) (p : Fin n) : Prop :=
  ∃ x ∈ h.seen p, x.1 = t ∧ log <+: x.2

theorem Stored.record {h : History n C} {t : ℤ} {log : List (LogEntry C)} {p : Fin n} (hs : h.Stored t log p)
    (c : Cluster n C) : (h.record c).Stored t log p := by
  obtain ⟨x, hx, ht, hpre⟩ := hs
  exact ⟨x, List.mem_cons_of_mem _ hx, ht, hpre⟩

/-- What is stored after a step was stored before, or is stored now. -/
theorem stored_record {h : History n C} {c : Cluster n C} {t : ℤ} {log : List (LogEntry C)} {p : Fin n}
    (hs : (h.record c).Stored t log p) :
    h.Stored t log p ∨ t = (c.nodes p).currentTerm ∧ log <+: (c.nodes p).logEntries := by
  obtain ⟨x, hx, ht, hpre⟩ := hs
  rcases List.mem_cons.mp hx with rfl | hx
  · exact .inr ⟨ht.symm, hpre⟩
  · exact .inl ⟨x, hx, ht, hpre⟩

end History

/-- The last entry of `log` is of term `t`. -/
def EndsIn (log : List (LogEntry C)) (t : ℤ) : Prop := ∃ e, log.getLast? = some e ∧ e.term = t

/-- `log` ends in term `t`, and a majority stored it in that term. -/
def Chosen (h : History n C) (t : ℤ) (log : List (LogEntry C)) : Prop :=
  EndsIn log t ∧ ∃ Q : Finset (Fin n), n < 2 * Q.card ∧ ∀ p ∈ Q, h.Stored t log p

theorem EndsIn.ne_nil {log : List (LogEntry C)} {t : ℤ} (h : EndsIn log t) : log ≠ [] := by
  obtain ⟨e, he, -⟩ := h
  rintro rfl
  simp at he

/-- A log that is not empty ends in its last term. -/
theorem endsIn_lastTerm {log : List (LogEntry C)} (h : log ≠ []) : EndsIn log (History.lastTerm log) := by
  refine ⟨log.getLast h, List.getLast?_eq_some_getLast h, ?_⟩
  rw [History.lastTerm, List.getLast?_eq_some_getLast h, Option.map_some, Option.getD_some]

/-- A list that ends in term `t` and with which an attributed log begins is what the
term's owner begins with. -/
theorem isPrefix_owner {owner : ℤ → List (LogEntry C)} {log P : List (LogEntry C)} {t : ℤ}
    (hl : Attributed LogEntry.term owner log) (hP : EndsIn P t) (hpre : P <+: log) : P <+: owner t := by
  obtain ⟨e, he, rfl⟩ := hP
  rw [(hl.of_isPrefix hpre).eq_take he]
  exact List.take_prefix _ _

/-- The last term of an attributed log is at least the one of any list it begins with. -/
theorem le_lastTerm {owner : ℤ → List (LogEntry C)} (hown : ∀ t, ∀ e ∈ owner t, e.term ≤ t)
    {log P : List (LogEntry C)} {t : ℤ} (hl : Attributed LogEntry.term owner log) (hP : EndsIn P t) (hpre : P <+: log) : t ≤ History.lastTerm log := by
  obtain ⟨e, he, rfl⟩ := hP
  have hne : log ≠ [] := fun hnil => by
    rw [hnil, List.prefix_nil] at hpre
    simp [hpre] at he
  obtain ⟨b, hb, hbt⟩ := endsIn_lastTerm hne
  rw [← hbt]
  have hmem : e ∈ log := hpre.subset (List.mem_of_getLast? he)
  obtain ⟨i, hi⟩ := List.getElem?_of_mem hmem
  have hilt := (List.getElem?_eq_some_iff.mp hi).1
  rw [List.getLast?_eq_getElem?] at hb
  exact hl.key_le hown (by omega) hi hb

/-- Two majorities have a peer in common. -/
theorem exists_mem_of_majorities {Q Q' : Finset (Fin n)} (h : n < 2 * Q.card) (h' : n < 2 * Q'.card) :
    ∃ p, p ∈ Q ∧ p ∈ Q' := by
  have hcard : (Finset.univ : Finset (Fin n)).card < Q.card + Q'.card := by
    rw [Finset.card_fin]
    omega
  obtain ⟨p, hp⟩ :=
    Finset.inter_nonempty_of_card_lt_card_add_card (Finset.subset_univ Q) (Finset.subset_univ Q') hcard
  exact ⟨p, Finset.mem_inter.mp hp⟩

/-! ### What a step does to a term and a log -/

/-- What a step can do to the term and the log of peer `p`: the log stays and the term does
not go down; or `p` leads and appends; or `p` fills its log from a request. -/
inductive PeerChange (c : Cluster n C) (p : Fin n) : ℤ → List (LogEntry C) → Prop
  | keeps (t : ℤ) : (c.nodes p).currentTerm ≤ t → PeerChange c p t (c.nodes p).logEntries
  | starts (command : C) : (c.nodes p).role = .leader → PeerChange c p (c.nodes p).currentTerm
      ((c.nodes p).logEntries ++ [⟨(c.nodes p).currentTerm, command⟩])
  | fills (m : Message n C) : m ∈ c.msgs → m.dst = p → (c.nodes p).currentTerm ≤ m.args.term →
      (c.nodes p).isArgsEntriesOutOfOrder m.args = false → PeerChange c p m.args.term m.built

theorem PeerChange.term_le {c : Cluster n C} {p : Fin n} {t : ℤ} {log : List (LogEntry C)}
    (h : PeerChange c p t log) : (c.nodes p).currentTerm ≤ t := by
  cases h with
  | keeps _ hle => exact hle
  | starts => exact le_rfl
  | fills _ _ _ hle => exact hle

/-- A peer that fills its log has then the log the request was built from. -/
theorem LogInv.peer_cases [Inhabited C] {c c' : Cluster n C} {owner : ℤ → List (LogEntry C)} {base : ℤ → ℕ}
    (h : LogInv c owner base) {l : Label n C} (hs : Cluster.step c l = some c') (p : Fin n) :
    PeerChange c p (c'.nodes p).currentTerm (c'.nodes p).logEntries := by
  have hp := Cluster.node_cases hs p
  generalize c'.nodes p = rf at hp
  cases hp with
  | stays | restarts | setsSlot => exact .keeps _ le_rfl
  | elected t hle => exact .keeps t hle
  | follows t hle => exact .keeps t hle
  | starts command hrole => exact .starts command hrole
  | fills m hm hdst hle hprev ho =>
    subst hdst
    rw [h.fill_eq_built hm hprev]
    exact .fills m hm rfl hle ho
  | handles k a =>
    rw [handleReply_logEntries]
    exact .keeps _ (handleReply_term ..).1

/-- An entry of an attributed log is the sentinel's or of a term that somebody has led. -/
theorem LogInv.led_of_mem [Inhabited C] {c : Cluster n C} {owner : ℤ → List (LogEntry C)} {base : ℤ → ℕ}
    (h : LogInv c owner base) {log : List (LogEntry C)} (hl : Attributed LogEntry.term owner log) {e : LogEntry C}
    (he : e ∈ log) : e.term = 0 ∨ 0 < e.term ∧ ∃ q ∈ c.led, q.1 = e.term := by
  by_cases hzero : e.term = 0
  · exact .inl hzero
  · by_cases hled : ∃ q ∈ c.led, q.1 = e.term
    · obtain ⟨q, hq, hqt⟩ := hled
      exact .inr ⟨hqt ▸ (h.led q hq).1, q, hq, hqt⟩
    · push Not at hled
      exact absurd rfl (hl.key_ne (h.unled e.term hzero hled) e he)

end Cs426.Consensus
