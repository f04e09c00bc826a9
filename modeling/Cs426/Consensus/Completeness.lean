import Cs426.Consensus.Elections

/-!
# Leader completeness

What a majority has stored is in the log of every later leader.

## The argument

What a peer has stored it loses only to a later leader that was elected without it
(`ElectInv.later`). By induction on the term no such leader exists for a chosen list: the
voters of the next leader and the peers that store the list have a peer in common, that
peer still had the list when it voted, and a log at least as up to date as one that has
the list has it too (`ElectInv.upToDate_carries`).
-/

namespace Cs426.Consensus

open Cs426.Machine Cs426.Logs Raft

variable {n : ℕ} {C : Type*} [Inhabited C]

/-! ### The invariant -/

/-- Peer `p` voted for the leader of term `t` with the log `log`: it has been in term `t`
since, and whatever it had stored before was in `log`, unless a leader before term `t` was
elected without it. -/
structure Voted (h : History n C) (owner : ℤ → List (LogEntry C)) (base : ℤ → ℕ) (t : ℤ) (p : Fin n)
    (log : List (LogEntry C)) : Prop where
  term : t ≤ (h.now.nodes p).currentTerm
  upToDate : History.UpToDate (startLog owner base t) log
  attributed : Attributed LogEntry.term owner log
  stored : ∀ u < t, ∀ P, EndsIn P u → h.Stored u P p →
    P <+: log ∨ ∃ q ∈ h.now.led, u < q.1 ∧ q.1 < t ∧ ¬ P <+: startLog owner base q.1

/-- The invariant: over `LogInv`, what became of what every peer has stored. -/
structure ElectInv (h : History n C) (owner : ℤ → List (LogEntry C)) (base : ℤ → ℕ) : Prop where
  logs : LogInv h.now owner base
  /-- No owner has an entry of a later term, and at its election of no term but earlier ones. -/
  ownTerms : ∀ t, ∀ e ∈ owner t, e.term ≤ t
  startTerms : ∀ q ∈ h.now.led, ∀ e ∈ startLog owner base q.1, e.term < q.1
  /-- No peer has an entry of a term it has not reached. -/
  terms : ∀ p, ∀ e ∈ (h.now.nodes p).logEntries, e.term ≤ (h.now.nodes p).currentTerm
  /-- What a peer is now is on record, and its term has never been larger. -/
  now : ∀ p, ((h.now.nodes p).currentTerm, (h.now.nodes p).logEntries) ∈ h.seen p
  seen : ∀ p, ∀ x ∈ h.seen p, x.1 ≤ (h.now.nodes p).currentTerm ∧ Attributed LogEntry.term owner x.2
  /-- Within its term a peer keeps what it has stored. -/
  kept : ∀ p P, EndsIn P (h.now.nodes p).currentTerm → h.Stored (h.now.nodes p).currentTerm P p →
    P <+: (h.now.nodes p).logEntries
  /-- In a later term it has it unless a leader in between was elected without it. -/
  later : ∀ p t P, EndsIn P t → h.Stored t P p → ∀ x ∈ h.seen p, t < x.1 →
    P <+: x.2 ∨ ∃ q ∈ h.now.led, t < q.1 ∧ q.1 ≤ x.1 ∧ ¬ P <+: startLog owner base q.1
  /-- A majority voted for every leader. -/
  voters : ∀ q ∈ h.now.led, ∃ Q : Finset (Fin n), n < 2 * Q.card ∧ ∀ p ∈ Q, ∃ log, Voted h owner base q.1 p log

namespace ElectInv

variable {h h' : History n C} {owner : ℤ → List (LogEntry C)} {base : ℤ → ℕ}

/-- **A log at least as up to date as one that has a list has it too**, if the leader of
its last term was elected with the list. -/
theorem upToDate_carries (hI : ElectInv h owner base) {log other P : List (LogEntry C)} {t : ℤ}
    (hl : Attributed LogEntry.term owner log) (ho : Attributed LogEntry.term owner other)
    (hup : History.UpToDate log other) (hP : EndsIn P t) (hpre : P <+: other)
    (hlater : ∀ q ∈ h.now.led, q.1 = History.lastTerm log → t < q.1 → P <+: startLog owner base q.1) :
    P <+: log := by
  have hle := le_lastTerm hI.ownTerms ho hP hpre
  have ht0 : 0 ≤ t := by
    obtain ⟨e, he, rfl⟩ := hP
    rcases hI.logs.led_of_mem ho (hpre.subset (List.mem_of_getLast? he)) with h0 | ⟨h0, -⟩ <;> omega
  have hone : other ≠ [] := fun hnil => hP.ne_nil (List.prefix_nil.mp (hnil ▸ hpre))
  have hpos := List.length_pos_iff.mpr hone
  have hne : log ≠ [] := by
    rintro rfl
    have h0 : History.lastTerm ([] : List (LogEntry C)) = 0 := rfl
    have hlen : ([] : List (LogEntry C)).length = 0 := rfl
    rcases hup with hlt | ⟨heq, hlen'⟩ <;> omega
  obtain ⟨a, ha, hat⟩ := endsIn_lastTerm hne
  obtain ⟨b, hb, hbt⟩ := endsIn_lastTerm hone
  rcases hup with hlt | ⟨heq, hlen⟩
  · -- a later last term: its leader was elected with the list, and `log` reaches past that
    obtain h0 | ⟨-, q, hq, hqt⟩ := hI.logs.led_of_mem hl (List.mem_of_getLast? ha)
    · omega
    · have hqa : q.1 = History.lastTerm log := by omega
      have hPq := hlater q hq hqa (by omega)
      have hlog : log <+: owner q.1 := by
        rw [hqa]
        exact isPrefix_owner hl ⟨a, ha, hat⟩ List.prefix_rfl
      refine List.prefix_of_prefix_length_le (hPq.trans (List.take_prefix _ _)) hlog (not_lt.mp fun hshort => ?_)
      -- otherwise the last entry of `log` is one the leader was elected with
      have hmem : a ∈ startLog owner base q.1 :=
        (List.prefix_of_prefix_length_le hlog (List.take_prefix _ _) (hshort.le.trans hPq.length_le)).subset
          (List.mem_of_getLast? ha)
      have := hI.startTerms q hq a hmem
      omega
  · exact hpre.trans (ho.isPrefix_of_last hl hb ha (by omega) hlen)

/-- **Leader completeness**: who is elected after a list was chosen, in a later term, has
it in the log it is elected with. -/
theorem complete (hI : ElectInv h owner base) {t : ℤ} {P : List (LogEntry C)} (hc : Chosen h t P) :
    ∀ q ∈ h.now.led, t < q.1 → P <+: startLog owner base q.1 := by
  obtain ⟨hP, Q, hQ, hstored⟩ := hc
  intro q
  -- by induction on the term, from `t` on
  induction hk : (q.1 - t).toNat using Nat.strong_induction_on generalizing q with
  | _ k ih =>
    intro hq ht
    obtain ⟨Q', hQ', hvoted⟩ := hI.voters q hq
    obtain ⟨p, hp, hp'⟩ := exists_mem_of_majorities hQ hQ'
    obtain ⟨log, hv⟩ := hvoted p hp'
    have hpre : P <+: log := by
      rcases hv.stored t ht P hP (hstored p hp) with hpre | ⟨w, hw, htw, hwq, hlacks⟩
      · exact hpre
      · exact absurd (ih _ (by omega) w rfl hw htw) hlacks
    refine hI.upToDate_carries ((hI.logs.owners q.1).of_isPrefix (List.take_prefix _ _)) hv.attributed hv.upToDate
      hP hpre fun w hw hwt htw => ih _ ?_ w rfl hw htw
    -- the last entry of a log somebody is elected with is of a smaller term
    have hlt : w.1 < q.1 := by
      by_cases hne : startLog owner base q.1 = []
      · rw [hne, show History.lastTerm ([] : List (LogEntry C)) = 0 from rfl] at hwt
        exact hwt ▸ (hI.logs.led q hq).1
      · obtain ⟨a, ha, hat⟩ := endsIn_lastTerm hne
        rw [hwt, ← hat]
        exact hI.startTerms q hq a (List.mem_of_getLast? ha)
    omega

/-- A chosen list is what the owner of its term begins with. -/
theorem isPrefix_owner_of_chosen (hI : ElectInv h owner base) {t : ℤ} {P : List (LogEntry C)} (hc : Chosen h t P) :
    P <+: owner t := by
  obtain ⟨hP, Q, hQ, hs⟩ := hc
  obtain ⟨p, hp, -⟩ := exists_mem_of_majorities hQ hQ
  obtain ⟨x, hx, -, hpre⟩ := hs p hp
  exact isPrefix_owner (hI.seen p x hx).2 hP hpre

/-- A chosen list is what the owner of any later term with entries begins with. -/
theorem isPrefix_owner_of_le (hI : ElectInv h owner base) {t u : ℤ} {P : List (LogEntry C)} (hc : Chosen h t P)
    (htu : t ≤ u) (hne : owner u ≠ []) : P <+: owner u := by
  have hown := hI.isPrefix_owner_of_chosen hc
  rcases htu.eq_or_lt with rfl | hlt
  · exact hown
  · by_cases hled : ∃ q ∈ h.now.led, q.1 = u
    · obtain ⟨q, hq, rfl⟩ := hled
      exact (hI.complete hc q hq hlt).trans (List.take_prefix _ _)
    · push Not at hled
      have hu : u = 0 := by
        by_contra hu
        exact hne (hI.logs.unled u hu hled)
      obtain ⟨e, he, rfl⟩ := hc.1
      rcases hI.logs.led_of_mem (hI.logs.owners _) (hown.subset (List.mem_of_getLast? he)) with h0 | ⟨h0, -⟩ <;> omega

/-- **Of two chosen lists, one begins with the other.** -/
theorem chosen_comparable (hI : ElectInv h owner base) {t u : ℤ} {P R : List (LogEntry C)} (hP : Chosen h t P)
    (hR : Chosen h u R) : P <+: R ∨ R <+: P := by
  have hown : ∀ {t P}, Chosen h t P → P <+: owner t ∧ owner t ≠ [] := fun hc =>
    ⟨hI.isPrefix_owner_of_chosen hc, fun hnil =>
      hc.1.ne_nil (List.prefix_nil.mp (hnil ▸ hI.isPrefix_owner_of_chosen hc))⟩
  rcases le_total t u with hle | hle
  · exact List.prefix_or_prefix_of_prefix (hI.isPrefix_owner_of_le hP hle (hown hR).2) (hown hR).1
  · exact List.prefix_or_prefix_of_prefix (hown hP).1 (hI.isPrefix_owner_of_le hR hle (hown hP).2)

/-- What a peer's log and the owner of a term both begin with is what every request of that
term that the peer accepts begins with. -/
theorem isPrefix_built (hI : ElectInv h owner base) {m : Message n C} (hm : m ∈ h.now.msgs)
    (hterm : (h.now.nodes m.dst).currentTerm ≤ m.args.term)
    (ho : (h.now.nodes m.dst).isArgsEntriesOutOfOrder m.args = false) {P : List (LogEntry C)}
    (hlog : P <+: (h.now.nodes m.dst).logEntries) (hown : P <+: owner m.args.term) : P <+: m.built := by
  obtain ⟨hb, hpre, hbase, -, -⟩ := hI.logs.msgs m hm
  refine List.prefix_of_prefix_length_le hown hpre (not_lt.mp fun hlt => ?_)
  -- `P` reaches past the request, with an entry of the request's term: so does the log, and
  -- it ends in that term
  have hlen := hlog.length_le
  have hat := hI.logs.tails _ _ _ hbase (List.prefix_iff_getElem?.mp hown _ hlt)
  have ha := List.prefix_iff_getElem?.mp hlog _ hlt
  generalize P[m.built.length] = a at hat ha
  have hne : (h.now.nodes m.dst).logEntries ≠ [] := List.ne_nil_of_length_pos (by omega)
  have he := List.getLast?_eq_some_getLast hne
  have hge : a.term ≤ ((h.now.nodes m.dst).logEntries.getLast hne).term := by
    have he' := he
    rw [List.getLast?_eq_getElem?] at he'
    exact (hI.logs.logs m.dst).1.key_le hI.ownTerms (by omega) ha he'
  have hle := hI.terms m.dst _ (List.mem_of_getLast? he)
  exact getLast_term_ne hb ho (by omega) he (by omega)

/-- A request begins with the log its sender was elected with. -/
theorem startLog_isPrefix (hI : ElectInv h owner base) {m : Message n C} (hm : m ∈ h.now.msgs) :
    startLog owner base m.args.term <+: m.built := by
  obtain ⟨-, hpre, hbase, -, -⟩ := hI.logs.msgs m hm
  exact List.prefix_of_prefix_length_le (List.take_prefix _ _) hpre ((List.length_take_le _ _).trans hbase)

theorem init {c : Cluster n C} (h : c.Init) (hterm : ∀ p, 0 ≤ (c.nodes p).currentTerm) :
    ElectInv (History.start c) (fun t => if t = 0 then [sentinel] else []) (fun _ => 0) where
  logs := LogInv.init h
  ownTerms := by
    intro t e he
    split_ifs at he with ht
    · rw [List.mem_singleton.mp he, ht, sentinel]
    · simp at he
  startTerms := by simp [History.start, h.led]
  terms := by
    intro p e he
    simp only [History.start, h.logs p, List.mem_singleton] at he ⊢
    rw [he]
    exact hterm p
  now := fun p => List.mem_singleton_self _
  seen := by
    intro p x hx
    rw [List.mem_singleton.mp hx]
    exact ⟨le_rfl, ((LogInv.init h).logs p).1⟩
  kept := by
    rintro p P - ⟨x, hx, -, hpre⟩
    rw [List.mem_singleton.mp hx] at hpre
    exact hpre
  later := by
    rintro p t P - ⟨y, hy, hyt, -⟩ x hx hlt
    rw [List.mem_singleton.mp hy] at hyt
    rw [List.mem_singleton.mp hx, ← hyt] at hlt
    exact absurd hlt (lt_irrefl _)
  voters := by simp [History.start, h.led]

section Step

variable {c : Cluster n C} {l : Label n C} {owner' : ℤ → List (LogEntry C)} {base' : ℤ → ℕ}

theorem terms_step (hI : ElectInv h owner base) {p : Fin n} {t : ℤ} {log : List (LogEntry C)}
    (hp : PeerChange h.now p t log) : ∀ e ∈ log, e.term ≤ t := by
  intro e he
  cases hp with
  | keeps _ hle => exact (hI.terms p e he).trans hle
  | starts =>
    rcases List.mem_append.mp he with he | he
    · exact hI.terms p e he
    · rw [List.mem_singleton.mp he]
  | fills m hm => exact hI.ownTerms _ e ((hI.logs.msgs m hm).2.1.subset he)

/-- What a peer has stored in its term, it keeps while it stays in the term. -/
theorem kept_step (hI : ElectInv h owner base) {p : Fin n} {log P : List (LogEntry C)}
    (hp : PeerChange h.now p (h.now.nodes p).currentTerm log) (hP : EndsIn P (h.now.nodes p).currentTerm)
    (hs : h.Stored (h.now.nodes p).currentTerm P p) : P <+: log := by
  have hkept := hI.kept p P hP hs
  have hown := isPrefix_owner (hI.logs.logs p).1 hP hkept
  generalize hu : (h.now.nodes p).currentTerm = u at hp hown
  cases hp with
  | keeps => exact hkept
  | starts => exact hkept.trans (List.prefix_append _ _)
  | fills m hm hdst hle ho =>
    subst hdst
    exact hI.isPrefix_built hm hle ho hkept hown

/-- What a peer has stored is in its log after a step into a later term, unless a leader in
between was elected without it. -/
theorem later_step (hI : ElectInv h owner base) {p : Fin n} {t u : ℤ} {log P : List (LogEntry C)}
    (hp : PeerChange h.now p u log) (hP : EndsIn P t) (hs : h.Stored t P p) (htu : t < u) :
    P <+: log ∨ ∃ q ∈ h.now.led, t < q.1 ∧ q.1 ≤ u ∧ ¬ P <+: startLog owner base q.1 := by
  have hle := hp.term_le
  have hcur : t < (h.now.nodes p).currentTerm → P <+: (h.now.nodes p).logEntries ∨
      ∃ q ∈ h.now.led, t < q.1 ∧ q.1 ≤ u ∧ ¬ P <+: startLog owner base q.1 := by
    intro hlt
    rcases hI.later p t P hP hs _ (hI.now p) hlt with hpre | ⟨q, hq, htq, hqu, hlacks⟩
    · exact .inl hpre
    · exact .inr ⟨q, hq, htq, hqu.trans hle, hlacks⟩
  cases hp with
  | keeps =>
    obtain ⟨x, hx, hxt, -⟩ := id hs
    have hxle := (hI.seen p x hx).1
    by_cases ht : t = (h.now.nodes p).currentTerm
    · subst ht
      exact .inl (hI.kept p P hP hs)
    · exact hcur (by omega)
  | starts =>
    rcases hcur htu with hpre | hlacks
    · exact .inl (hpre.trans (List.prefix_append _ _))
    · exact .inr hlacks
  | fills m hm =>
    obtain ⟨-, -, -, -, q, hq, hqt⟩ := hI.logs.msgs m hm
    by_cases hpre : P <+: startLog owner base m.args.term
    · exact .inl (hpre.trans (hI.startLog_isPrefix hm))
    · exact .inr ⟨q, hq, by omega, by omega, hqt ▸ hpre⟩

omit [Inhabited C] in
/-- Who has voted stays a voter: it stores nothing more of an earlier term. -/
theorem voted_step (hadv : Advance h.now c l owner owner' base base')
    (hterm : ∀ p, (h.now.nodes p).currentTerm ≤ (c.nodes p).currentTerm) {q : ℤ × Fin n} (hq : q ∈ h.now.led)
    {p : Fin n} {log : List (LogEntry C)} (hv : Voted h owner base q.1 p log) :
    Voted (h.record c) owner' base' q.1 p log where
  term := hv.term.trans (hterm p)
  upToDate := (hadv.starts q hq).symm ▸ hv.upToDate
  attributed := hadv.attributed log hv.attributed
  stored := by
    intro u hu P hP hs
    rcases History.stored_record hs with hs | ⟨hut, -⟩
    · rcases hv.stored u hu P hP hs with hpre | ⟨w, hw, huw, hwq, hlacks⟩
      · exact .inl hpre
      · exact .inr ⟨w, hadv.led w hw, huw, hwq, (hadv.starts w hw).symm ▸ hlacks⟩
    · have := hv.term.trans (hterm p)
      omega

/-- Who may vote for the log of a peer that is elected has voted for it. -/
theorem voted_of_mayVote (hI : ElectInv h owner base) (hadv : Advance h.now c l owner owner' base base')
    (hterm : ∀ p, (h.now.nodes p).currentTerm ≤ (c.nodes p).currentTerm) {t : ℤ} {p : Fin n}
    (hnew : ∀ q ∈ h.now.led, q.1 ≠ t) (hm : h.MayVote t (startLog owner' base' t) p) :
    ∃ log, Voted (h.record c) owner' base' t p log := by
  obtain ⟨x, hx, rfl, hup⟩ := hm
  obtain ⟨hle, hattr⟩ := hI.seen p x hx
  refine ⟨x.2, hle.trans (hterm p), hup, hadv.attributed _ hattr, fun u hu P hP hs => ?_⟩
  rcases History.stored_record hs with hs | ⟨hut, -⟩
  · rcases hI.later p u P hP hs x hx hu with hpre | ⟨w, hw, huw, hwx, hlacks⟩
    · exact .inl hpre
    · exact .inr ⟨w, hadv.led w hw, huw, lt_of_le_of_ne hwx (hnew w hw), (hadv.starts w hw).symm ▸ hlacks⟩
  · have := hle.trans (hterm p)
    omega

end Step

/-- **Every step that keeps the election restriction preserves the invariant.** -/
theorem step {l : Label n C} (hI : ElectInv h owner base) (hw : h.WinsElection l) (hs : History.step h l = some h') :
    ∃ owner' base', ElectInv h' owner' base' := by
  obtain ⟨c, hc, rfl⟩ := History.step_iff.mp hs
  obtain ⟨owner', base', hL, hadv⟩ := hI.logs.advance hc
  have hchange := hI.logs.peer_cases hc
  have hterm : ∀ p, (h.now.nodes p).currentTerm ≤ (c.nodes p).currentTerm := fun p => (hchange p).term_le
  have hseen : ∀ p, ∀ x ∈ (h.record c).seen p, x.1 ≤ (c.nodes p).currentTerm ∧
      Attributed LogEntry.term owner' x.2 := by
    intro p x hx
    rcases List.mem_cons.mp hx with rfl | hx
    · exact ⟨le_rfl, (hL.logs p).1⟩
    · exact ⟨(hI.seen p x hx).1.trans (hterm p), hadv.attributed _ (hI.seen p x hx).2⟩
  have hlacks : ∀ {t u : ℤ} {P log : List (LogEntry C)},
      (P <+: log ∨ ∃ q ∈ h.now.led, t < q.1 ∧ q.1 ≤ u ∧ ¬ P <+: startLog owner base q.1) →
      P <+: log ∨ ∃ q ∈ c.led, t < q.1 ∧ q.1 ≤ u ∧ ¬ P <+: startLog owner' base' q.1 := by
    rintro t u P log (hpre | ⟨q, hq, htq, hqu, hno⟩)
    · exact .inl hpre
    · exact .inr ⟨q, hadv.led q hq, htq, hqu, (hadv.starts q hq).symm ▸ hno⟩
  refine ⟨owner', base', hL, hadv.terms hI.ownTerms, fun q hq => ?_, fun p => hI.terms_step (hchange p),
    fun p => List.mem_cons_self .., hseen, fun p P hP hst => ?_, fun p t P hP hst x hx htx => ?_, fun q hq => ?_⟩
  · rcases hadv.elected q hq with hq | ⟨-, -, hstart, hlt⟩
    · rw [hadv.starts q hq]
      exact hI.startTerms q hq
    · rw [hstart]
      exact hlt
  · rcases History.stored_record hst with hst | ⟨-, hpre⟩
    · -- the term was reached before, so the peer stays in it
      obtain ⟨x, hx, hxt, -⟩ := id hst
      have hle : (c.nodes p).currentTerm ≤ (h.now.nodes p).currentTerm := hxt ▸ (hI.seen p x hx).1
      have heq : (c.nodes p).currentTerm = (h.now.nodes p).currentTerm := le_antisymm hle (hterm p)
      have hp := hchange p
      rw [heq] at hp
      exact hI.kept_step hp (heq ▸ hP) (heq ▸ hst)
    · exact hpre
  · rcases History.stored_record hst with hst | ⟨rfl, -⟩
    · rcases List.mem_cons.mp hx with rfl | hx
      · exact hlacks (hI.later_step (hchange p) hP hst htx)
      · exact hlacks (hI.later p t P hP hst x hx htx)
    · exact absurd htx (not_lt.mpr (hseen p x hx).1)
  · rcases hadv.elected q hq with hq | ⟨rfl, hnew, hstart, -⟩
    · obtain ⟨Q, hQ, hv⟩ := hI.voters q hq
      refine ⟨Q, hQ, fun p hp => ?_⟩
      obtain ⟨log, hlog⟩ := hv p hp
      exact ⟨log, voted_step hadv hterm hq hlog⟩
    · refine ⟨_, hw, fun p hp => hI.voted_of_mayVote hadv hterm hnew ?_⟩
      rw [hstart]
      exact (Finset.mem_filter.mp hp).2

end ElectInv

end Cs426.Consensus
