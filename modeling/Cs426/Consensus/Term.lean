import Cs426.Consensus.Cluster

/-!
# One term of one leader

A run inside one term `t`: its leader appends entries of term `t` and sends requests, and
the other peers answer them, in any order and with any loss, duplication and delay. At
the start the logs match the leader's and have no entry of term `t`.

`AppendEntries` always cuts the log after `PrevLogIndex`, so a delayed, shorter request
could erase entries a peer has already acknowledged. What prevents it is that every
request of the term carries the leader's whole log at some moment, that all of these begin
with the log the leader was elected with, and that beyond that log all entries are of term
`t`: a log that ends in another term is the log of the election, which no request of the
term is shorter than.

## What is proved

* `TermInv` — the invariant; `TermInv.step` — every step of the term preserves it.
* `acknowledged_never_lost` — a peer that has once answered `Success` has, from then on, a
  log that the leader's log begins with and that only grows; and every peer has what the
  leader's `matchIndex` says it has.
-/

namespace Cs426.Consensus

open Cs426.Machine Cs426.Logs Raft

variable {n : ℕ} {C : Type*}

/-- The steps of a run inside the term of `ldr`: only `ldr` appends and sends. -/
def Label.InTerm (ldr : Fin n) : Label n C → Prop
  | .elect _ _ | .crash _ _ => False
  | .start i _ | .ownSlot i _ => i = ldr
  | .send i p => i = ldr ∧ p ≠ ldr
  | .raiseTerm _ _ | .deliver _ | .ack _ => True

variable [Inhabited C]

/-- How the term `t` of `ldr` starts. -/
structure TermStart (c : Cluster n C) (ldr : Fin n) (t : ℤ) : Prop where
  role : (c.nodes ldr).role = .leader
  term : (c.nodes ldr).currentTerm = t
  heads : ∀ i, (c.nodes i).logEntries.head? = some sentinel
  matching : ∀ i, Matching LogEntry.term (c.nodes i).logEntries (c.nodes ldr).logEntries
  noEntry : ∀ i, ∀ e ∈ (c.nodes i).logEntries, e.term ≠ t
  nextIndex : ∀ p ≠ ldr, (c.nodes ldr).nextIndex p = (c.nodes ldr).getLastLogTermIndex.2 + 1
  matchIndex : ∀ p ≠ ldr, (c.nodes ldr).matchIndex p = 0
  msgs : c.msgs = []
  answers : c.answers = []

/-- Peer `p` has answered `Success`. -/
def Replied (c : Cluster n C) (p : Fin n) : Prop :=
  ∃ a ∈ c.answers, a.msg.dst = p ∧ a.reply.success = true

/-- Peer `p` still has a log it had at the start: it matches the log `log₀` the leader was
elected with, and has no entry of the term. -/
def Untouched (c : Cluster n C) (t : ℤ) (log₀ : List (LogEntry C)) (p : Fin n) : Prop :=
  Matching LogEntry.term (c.nodes p).logEntries log₀ ∧ (∀ e ∈ (c.nodes p).logEntries, e.term ≠ t) ∧
    (c.nodes p).logEntries.head? = some sentinel ∧ ¬ Replied c p

/-- Peer `p` has a log between `log₀` and the leader's. -/
def Synced (c : Cluster n C) (ldr : Fin n) (log₀ : List (LogEntry C)) (p : Fin n) : Prop :=
  log₀ <+: (c.nodes p).logEntries ∧ (c.nodes p).logEntries <+: (c.nodes ldr).logEntries

/-- The invariant of a run inside the term, `log₀` being the leader's log at its start. -/
structure TermInv (c : Cluster n C) (ldr : Fin n) (t : ℤ) (log₀ : List (LogEntry C)) : Prop where
  head : log₀.head? = some sentinel
  leads : (c.nodes ldr).role = .leader → (c.nodes ldr).currentTerm = t
  grown : ∃ ext, (c.nodes ldr).logEntries = log₀ ++ ext ∧ ∀ e ∈ ext, e.term = t
  msgs : ∀ m ∈ c.msgs, m.src = ldr ∧ m.dst ≠ ldr ∧ m.args.term = t ∧ BuiltFrom m.args m.built ∧
    log₀ <+: m.built ∧ m.built <+: (c.nodes ldr).logEntries
  peers : ∀ p ≠ ldr, Untouched c t log₀ p ∨ Synced c ldr log₀ p
  answers : ∀ a ∈ c.answers, a.msg ∈ c.msgs ∧ (a.reply.success = true →
    a.reply.nexIndex = a.msg.built.length ∧ a.msg.built <+: (c.nodes a.msg.dst).logEntries)
  slots : ∀ p ≠ ldr, (c.nodes ldr).matchIndex p = 0 ∨ ∃ a ∈ c.answers, a.msg.dst = p ∧
    a.reply.success = true ∧ (c.nodes ldr).matchIndex p = a.reply.nexIndex - 1

namespace TermInv

variable {c c' : Cluster n C} {ldr : Fin n} {t : ℤ} {log₀ : List (LogEntry C)}

theorem init (h : TermStart c ldr t) : TermInv c ldr t (c.nodes ldr).logEntries where
  head := h.heads ldr
  leads := fun _ => h.term
  grown := ⟨[], by simp, by simp⟩
  msgs := by simp [h.msgs]
  peers := fun p _ => Or.inl ⟨h.matching p, h.noEntry p, h.heads p, by simp [Replied, h.answers]⟩
  answers := by simp [h.answers]
  slots := fun p hp => Or.inl (h.matchIndex p hp)

theorem isPrefix_ldr (h : TermInv c ldr t log₀) : log₀ <+: (c.nodes ldr).logEntries := by
  obtain ⟨ext, hext, -⟩ := h.grown
  exact ⟨ext, hext.symm⟩

/-- Beyond `log₀`, whatever the leader's log begins with has entries of the term. -/
theorem exists_tail (h : TermInv c ldr t log₀) {l : List (LogEntry C)} (h₀ : log₀ <+: l)
    (hl : l <+: (c.nodes ldr).logEntries) : ∃ ext, l = log₀ ++ ext ∧ ∀ e ∈ ext, e.term = t := by
  obtain ⟨ext, hext, hall⟩ := h.grown
  obtain ⟨tl, rfl⟩ := h₀
  rw [hext, List.prefix_append_right_inj] at hl
  exact ⟨tl, rfl, fun e he => hall e (hl.subset he)⟩

/-- **What a success leaves**: the peer has the log the request was built from. -/
theorem fill_eq_built (h : TermInv c ldr t log₀) {m : Message n C} (hm : m ∈ c.msgs)
    (hprev : (c.nodes m.dst).HasPrev m.args) :
    (((c.nodes m.dst).follow m.args.term).fill m.args).logEntries = m.built := by
  obtain ⟨-, hdst, -, hb, h₀, hl⟩ := h.msgs m hm
  have hhead : ∀ {l : List (LogEntry C)}, log₀ <+: l → l.head? = some sentinel := by
    rintro _ ⟨tl, rfl⟩
    rw [List.head?_append, h.head]
    rfl
  rcases h.peers m.dst hdst with ⟨hmatch, hno, hsent, -⟩ | ⟨hlow, hhigh⟩
  · obtain ⟨ext, hext, hall⟩ := h.exists_tail h₀ hl
    refine fill_logEntries hb ?_ (by rw [hhead h₀]; exact hsent) hprev
    rw [hext]
    exact hmatch.append_fresh hno hall
  · exact fill_logEntries hb (Matching.of_isPrefix_of_isPrefix hhigh hl)
      (by rw [hhead h₀]; exact hhead hlow) hprev

/-- **A success never shortens a log of the term.** -/
theorem isPrefix_built (h : TermInv c ldr t log₀) {m : Message n C} (hm : m ∈ c.msgs)
    (ho : (c.nodes m.dst).isArgsEntriesOutOfOrder m.args = false) (hs : Synced c ldr log₀ m.dst) :
    (c.nodes m.dst).logEntries <+: m.built := by
  obtain ⟨-, -, hterm, hb, h₀, hl⟩ := h.msgs m hm
  refine List.prefix_of_prefix_length_le hs.2 hl (not_lt.mp fun hlt => ?_)
  -- the log is longer than the request's, so it ends with an entry of the term
  obtain ⟨ext, hext, hall⟩ := h.exists_tail hs.1 hs.2
  have hpos : ext ≠ [] := by
    rintro rfl
    rw [List.append_nil] at hext
    rw [hext] at hlt
    exact absurd h₀.length_le (by omega)
  have hlast : (c.nodes m.dst).logEntries.getLast? = some (ext.getLast hpos) := by
    rw [hext, List.getLast?_append_of_ne_nil _ hpos, List.getLast?_eq_some_getLast hpos]
  refine getLast_term_ne hb ho hlt hlast ?_
  rw [hterm]
  exact hall _ (List.getLast_mem hpos)

/-- The leader keeps its log, and `matchIndex` changes as `slots` allows. -/
theorem setLeader {rf : Raft n C} (h : TermInv c ldr t log₀) (hlog : rf.logEntries = (c.nodes ldr).logEntries)
    (hlead : rf.role = .leader → rf.currentTerm = t)
    (hslots : ∀ p ≠ ldr, rf.matchIndex p = (c.nodes ldr).matchIndex p ∨ ∃ a ∈ c.answers, a.msg.dst = p ∧
      a.reply.success = true ∧ rf.matchIndex p = a.reply.nexIndex - 1) :
    TermInv (c.setNode ldr rf) ldr t log₀ := by
  have hl : ((c.setNode ldr rf).nodes ldr).logEntries = (c.nodes ldr).logEntries := by simp [hlog]
  have hp : ∀ p ≠ ldr, (c.setNode ldr rf).nodes p = c.nodes p := fun p hp => by
    simp [Function.update_of_ne hp]
  refine ⟨h.head, by simpa using hlead, by rw [hl]; exact h.grown, fun m hm => ?_, fun p hpl => ?_,
    fun a ha => ?_, fun p hpl => ?_⟩
  · rw [hl]
    exact h.msgs m hm
  · rw [Untouched, Synced, hp p hpl, hl]
    exact h.peers p hpl
  · obtain ⟨hmem, hsucc⟩ := h.answers a ha
    rw [hp _ (h.msgs _ hmem).2.1]
    exact ⟨hmem, hsucc⟩
  · simp only [Cluster.setNode_nodes, Function.update_self, Cluster.setNode_answers]
    rcases hslots p hpl with heq | hnew
    · rw [heq]
      exact h.slots p hpl
    · exact Or.inr hnew

/-- Another peer keeps its log. -/
theorem setPeer {p : Fin n} {rf : Raft n C} (h : TermInv c ldr t log₀) (hp : p ≠ ldr)
    (hlog : rf.logEntries = (c.nodes p).logEntries) : TermInv (c.setNode p rf) ldr t log₀ := by
  have hl : (c.setNode p rf).nodes ldr = c.nodes ldr := by simp [Function.update_of_ne hp.symm]
  have hlogs : ∀ q, ((c.setNode p rf).nodes q).logEntries = (c.nodes q).logEntries := fun q => by
    by_cases hq : q = p
    · subst hq
      simp [hlog]
    · simp [Function.update_of_ne hq]
  refine ⟨h.head, by rw [hl]; exact h.leads, by rw [hl]; exact h.grown, fun m hm => ?_, fun q hq => ?_,
    fun a ha => ?_, fun q hq => ?_⟩
  · rw [hl]
    exact h.msgs m hm
  · rw [Untouched, Synced, hlogs q, hlogs ldr]
    exact h.peers q hq
  · rw [hlogs]
    exact h.answers a ha
  · rw [hl]
    exact h.slots q hq

/-- A refusal is put on record. -/
theorem addRefusal {a : Answer n C} (h : TermInv c ldr t log₀) (hm : a.msg ∈ c.msgs)
    (ha : a.reply.success = false) : TermInv { c with answers := c.answers ++ [a] } ldr t log₀ := by
  have hrep : ∀ p, Replied { c with answers := c.answers ++ [a] } p ↔ Replied c p := fun p => by
    simp [Replied, ha, or_and_right, exists_or]
  refine ⟨h.head, h.leads, h.grown, h.msgs, fun p hp => ?_, fun b hb => ?_, fun p hp => ?_⟩
  · rw [Untouched, hrep]
    exact h.peers p hp
  · rcases List.mem_append.mp hb with hb | hb
    · exact h.answers b hb
    · rw [List.mem_singleton] at hb
      subst hb
      exact ⟨hm, fun hs => by simp [ha] at hs⟩
  · rcases h.slots p hp with h0 | ⟨b, hb, hrest⟩
    · exact Or.inl h0
    · exact Or.inr ⟨b, List.mem_append_left _ hb, hrest⟩

/-- A peer fills its log from a request and says so. -/
theorem fill {m : Message n C} {reply : AppendEntriesReply} (h : TermInv c ldr t log₀) (hm : m ∈ c.msgs)
    (hprev : (c.nodes m.dst).HasPrev m.args)
    (ho : (c.nodes m.dst).isArgsEntriesOutOfOrder m.args = false)
    (hreply : reply.nexIndex = (((c.nodes m.dst).follow m.args.term).fill m.args).logEntries.length) :
    TermInv { c.setNode m.dst (((c.nodes m.dst).follow m.args.term).fill m.args) with
      answers := c.answers ++ [⟨m, reply⟩] } ldr t log₀ := by
  have hbuilt := h.fill_eq_built hm hprev
  generalize hrf : ((c.nodes m.dst).follow m.args.term).fill m.args = rf at *
  obtain ⟨-, hdst, -, -, h₀, hl⟩ := h.msgs m hm
  have hldr : (c.setNode m.dst rf).nodes ldr = c.nodes ldr := by simp [Function.update_of_ne hdst.symm]
  have hself : ((c.setNode m.dst rf).nodes m.dst).logEntries = m.built := by simp [hbuilt]
  have hother : ∀ p ≠ m.dst, (c.setNode m.dst rf).nodes p = c.nodes p := fun p hp => by
    simp [Function.update_of_ne hp]
  refine ⟨h.head, by simp only [hldr]; exact h.leads, by simp only [hldr]; exact h.grown, fun m' hm' => ?_,
    fun p hp => ?_, fun a ha => ?_, fun p hp => ?_⟩
  · simp only [hldr]
    exact h.msgs m' hm'
  · by_cases hpd : p = m.dst
    · subst hpd
      right
      simp only [Synced, hself, hldr]
      exact ⟨h₀, hl⟩
    · simp only [Untouched, Synced, Replied, hother p hpd, hldr]
      rcases h.peers p hp with ⟨h1, h2, h3, h4⟩ | hs
      · refine Or.inl ⟨h1, h2, h3, ?_⟩
        rintro ⟨a, ha, had, has⟩
        rcases List.mem_append.mp ha with ha | ha
        · exact h4 ⟨a, ha, had, has⟩
        · rw [List.mem_singleton] at ha
          subst ha
          exact hpd had.symm
      · exact Or.inr hs
  · rcases List.mem_append.mp ha with ha | ha
    · obtain ⟨hmem, hsucc⟩ := h.answers a ha
      refine ⟨hmem, fun has => ⟨(hsucc has).1, ?_⟩⟩
      by_cases had : a.msg.dst = m.dst
      · -- it has answered before, so its log is one of the term and only grows
        simp only [had, hself]
        rcases h.peers m.dst hdst with hu | hs
        · exact absurd ⟨a, ha, had, has⟩ hu.2.2.2
        · exact (had ▸ (hsucc has).2).trans (h.isPrefix_built hm ho hs)
      · simp only [hother _ had]
        exact (hsucc has).2
    · rw [List.mem_singleton] at ha
      subst ha
      refine ⟨hm, fun _ => ⟨by rw [hreply, hbuilt], ?_⟩⟩
      simp only [hself]
      exact List.prefix_rfl
  · simp only [hldr]
    rcases h.slots p hp with h0 | ⟨b, hb, hrest⟩
    · exact Or.inl h0
    · exact Or.inr ⟨b, List.mem_append_left _ hb, hrest⟩

/-- The leader appends an entry of the term. -/
theorem start {command : C} (h : TermInv c ldr t log₀) (hrole : (c.nodes ldr).role = .leader) :
    TermInv (c.setNode ldr (Cluster.started (c.nodes ldr) ldr command)) ldr t log₀ := by
  have hterm := h.leads hrole
  have hl : ((c.setNode ldr (Cluster.started (c.nodes ldr) ldr command)).nodes ldr).logEntries =
      (c.nodes ldr).logEntries ++ [⟨t, command⟩] := by simp [Cluster.started, hterm]
  have hgrow : (c.nodes ldr).logEntries <+: (c.nodes ldr).logEntries ++ [⟨t, command⟩] := List.prefix_append _ _
  have hother : ∀ p ≠ ldr, (c.setNode ldr (Cluster.started (c.nodes ldr) ldr command)).nodes p = c.nodes p :=
    fun p hp => by simp [Function.update_of_ne hp]
  refine ⟨h.head, fun _ => by simpa [Cluster.started] using hterm, ?_, fun m hm => ?_, fun p hp => ?_,
    fun a ha => ?_, fun p hp => ?_⟩
  · obtain ⟨ext, hext, hall⟩ := h.grown
    refine ⟨ext ++ [⟨t, command⟩], by rw [hl, hext, List.append_assoc], fun e he => ?_⟩
    rcases List.mem_append.mp he with he | he
    · exact hall e he
    · rw [List.mem_singleton] at he
      rw [he]
  · obtain ⟨h1, h2, h3, h4, h5, h6⟩ := h.msgs m hm
    rw [hl]
    exact ⟨h1, h2, h3, h4, h5, h6.trans hgrow⟩
  · rw [Untouched, Synced, hother p hp, hl]
    rcases h.peers p hp with hu | hs
    · exact Or.inl hu
    · exact Or.inr ⟨hs.1, hs.2.trans hgrow⟩
  · obtain ⟨hmem, hsucc⟩ := h.answers a ha
    rw [hother _ (h.msgs _ hmem).2.1]
    exact ⟨hmem, hsucc⟩
  · simp only [Cluster.setNode_nodes, Function.update_self, Cluster.started, Function.update_of_ne hp]
    exact h.slots p hp

/-- The leader sends a request. -/
theorem send {p : Fin n} {args : AppendEntriesArgs n C} (h : TermInv c ldr t log₀) (hp : p ≠ ldr)
    (hrole : (c.nodes ldr).role = .leader) (hargs : (c.nodes ldr).makeAppendEntriesArgs p = some args) :
    TermInv { c with msgs := c.msgs ++ [⟨ldr, p, args, (c.nodes ldr).logEntries⟩] } ldr t log₀ := by
  have hne : (c.nodes ldr).logEntries ≠ [] := by
    obtain ⟨ext, hext, -⟩ := h.grown
    have := h.head
    rintro hnil
    rw [hnil, eq_comm, List.append_eq_nil_iff] at hext
    simp [hext.1] at this
  obtain ⟨hb, hterm, -⟩ := makeAppendEntriesArgs_spec hargs hne
  refine ⟨h.head, h.leads, h.grown, fun m hm => ?_, h.peers, fun a ha => ?_, h.slots⟩
  · rcases List.mem_append.mp hm with hm | hm
    · exact h.msgs m hm
    · rw [List.mem_singleton] at hm
      subst hm
      exact ⟨rfl, hp, hterm.trans (h.leads hrole), hb, h.isPrefix_ldr, List.prefix_rfl⟩
  · exact ⟨List.mem_append_left _ (h.answers a ha).1, (h.answers a ha).2⟩

omit [Inhabited C] in
/-- Recording an answer changes a slot only as `slots` allows. -/
theorem slot_of_handleReply {a : Answer n C} (ha : a ∈ c.answers) (p : Fin n) (rf : Raft n C) :
    (rf.handleReply a.msg.dst a.msg.args a.reply).rf.matchIndex p = rf.matchIndex p ∨
      ∃ b ∈ c.answers, b.msg.dst = p ∧ b.reply.success = true ∧
        (rf.handleReply a.msg.dst a.msg.args a.reply).rf.matchIndex p = b.reply.nexIndex - 1 := by
  have hrec : a.reply.success = true → (rf.recordSuccess a.msg.dst a.reply).matchIndex p = rf.matchIndex p ∨
      ∃ b ∈ c.answers, b.msg.dst = p ∧ b.reply.success = true ∧
        (rf.recordSuccess a.msg.dst a.reply).matchIndex p = b.reply.nexIndex - 1 := by
    intro hs
    unfold recordSuccess
    split_ifs with hlt
    · by_cases hp : p = a.msg.dst
      · exact Or.inr ⟨a, ha, hp.symm, hs, by simp [hp]⟩
      · exact Or.inl (by simp [Function.update_of_ne hp])
    · exact Or.inl rfl
  rcases handleReply_cases rf a.msg.dst a.msg.args a.reply with
    ⟨-, h⟩ | h | ⟨-, -, hs, h | ⟨-, h⟩⟩ | ⟨-, -, -, -, h⟩
  · exact Or.inl (by rw [h]; rfl)
  · exact Or.inl (by rw [h])
  · rw [h]
    exact hrec hs
  · rw [h, updateCommitIndex_matchIndex]
    exact hrec hs
  · exact Or.inl (by rw [h])

/-- **Every step of the term preserves the invariant.** -/
theorem step {l : Label n C} (h : TermInv c ldr t log₀) (hl : l.InTerm ldr) (hs : Cluster.step c l = some c') :
    TermInv c' ldr t log₀ := by
  cases l with
  | elect i t => exact hl.elim
  | crash i ci => exact hl.elim
  | raiseTerm i t' =>
    obtain ⟨-, rfl⟩ := Cluster.step_raiseTerm_iff.mp hs
    by_cases hi : i = ldr
    · subst hi
      exact h.setLeader rfl (by simp) fun _ _ => Or.inl rfl
    · exact h.setPeer hi rfl
  | start i command =>
    obtain rfl : i = ldr := hl
    obtain ⟨hrole, rfl⟩ := Cluster.step_start_iff.mp hs
    exact h.start hrole
  | ownSlot i v =>
    obtain rfl : i = ldr := hl
    obtain ⟨hrole, -, rfl⟩ := Cluster.step_ownSlot_iff.mp hs
    exact h.setLeader rfl (fun _ => h.leads hrole) fun p hp => Or.inl (Function.update_of_ne hp _ _)
  | send i p =>
    obtain ⟨rfl, hp⟩ := hl
    obtain ⟨hrole, args, hargs, rfl⟩ := Cluster.step_send_iff.mp hs
    exact h.send hp hrole hargs
  | deliver k =>
    obtain ⟨m, rf', reply, hm, hr, rfl⟩ := Cluster.step_deliver_iff.mp hs
    have hm := List.mem_of_getElem? hm
    have hdst := (h.msgs m hm).2.1
    rcases appendEntries_cases hr with ⟨-, rfl, rfl⟩ | ⟨-, rfl, -, hfail⟩ | ⟨-, rfl, rfl, hprev, ho⟩
    · exact (h.setPeer hdst rfl).addRefusal hm rfl
    · have hset : TermInv (c.setNode m.dst ((c.nodes m.dst).follow m.args.term)) ldr t log₀ := h.setPeer hdst rfl
      exact hset.addRefusal (a := ⟨m, reply⟩) hm hfail
    · exact h.fill hm hprev ho rfl
  | ack k =>
    obtain ⟨a, ha, rfl⟩ := Cluster.step_ack_iff.mp hs
    have ha := List.mem_of_getElem? ha
    have hsrc := (h.msgs _ (h.answers a ha).1).1
    obtain ⟨-, hlead⟩ := handleReply_term (c.nodes a.msg.src) a.msg.dst a.msg.args a.reply
    rw [hsrc] at hlead ⊢
    exact h.setLeader (by simp) (fun hr => (hlead hr).2.trans (h.leads (hlead hr).1)) fun p _ =>
      slot_of_handleReply ha p (c.nodes ldr)

theorem of_run {c₀ : Cluster n C} {ls : List (Label n C)} (h₀ : TermInv c₀ ldr t log₀)
    (hls : ∀ l ∈ ls, l.InTerm ldr) (h : run Cluster.step c₀ ls = some c) : TermInv c ldr t log₀ :=
  run_invariant (I := fun c => TermInv c ldr t log₀) (P := fun _ l => l.InTerm ldr)
    (fun _ _ _ hI hl hs => hI.step hl hs) (along_of_forall_mem c₀ hls) h₀ h

/-- A log of the term only grows. -/
theorem isPrefix_step {l : Label n C} {p : Fin n} (h : TermInv c ldr t log₀) (hl : l.InTerm ldr) (hp : p ≠ ldr)
    (hs : Synced c ldr log₀ p) (hstep : Cluster.step c l = some c') :
    (c.nodes p).logEntries <+: (c'.nodes p).logEntries := by
  have hkeep : ∀ {i rf}, rf.logEntries = (c.nodes i).logEntries →
      (c.nodes p).logEntries <+: ((c.setNode i rf).nodes p).logEntries := by
    intro i rf hlog
    by_cases hpi : p = i
    · subst hpi
      simp [hlog]
    · simp [Function.update_of_ne hpi]
  cases l with
  | elect i t => exact hl.elim
  | crash i ci => exact hl.elim
  | raiseTerm i t' =>
    obtain ⟨-, rfl⟩ := Cluster.step_raiseTerm_iff.mp hstep
    exact hkeep rfl
  | start i command =>
    obtain rfl : i = ldr := hl
    obtain ⟨-, rfl⟩ := Cluster.step_start_iff.mp hstep
    simp [Function.update_of_ne hp]
  | ownSlot i v =>
    obtain ⟨-, -, rfl⟩ := Cluster.step_ownSlot_iff.mp hstep
    exact hkeep rfl
  | send i q =>
    obtain ⟨-, args, -, rfl⟩ := Cluster.step_send_iff.mp hstep
    exact List.prefix_rfl
  | deliver k =>
    obtain ⟨m, rf', reply, hm, hr, rfl⟩ := Cluster.step_deliver_iff.mp hstep
    have hm := List.mem_of_getElem? hm
    rcases appendEntries_cases hr with ⟨-, rfl, -⟩ | ⟨-, rfl, -, -⟩ | ⟨-, rfl, -, hprev, ho⟩
    · exact hkeep rfl
    · exact hkeep rfl
    · by_cases hpm : p = m.dst
      · subst hpm
        simp only [Cluster.setNode_nodes, Function.update_self, h.fill_eq_built hm hprev]
        exact h.isPrefix_built hm ho hs
      · simp [Function.update_of_ne hpm]
  | ack k =>
    obtain ⟨a, -, rfl⟩ := Cluster.step_ack_iff.mp hstep
    exact hkeep (by simp)

omit [Inhabited C] in
/-- Who has answered stays on record. -/
theorem replied_step {l : Label n C} {p : Fin n} (h : Replied c p) (hl : l.InTerm ldr)
    (hstep : Cluster.step c l = some c') : Replied c' p := by
  cases l with
  | elect i t => exact hl.elim
  | crash i ci => exact hl.elim
  | raiseTerm i t' =>
    obtain ⟨-, rfl⟩ := Cluster.step_raiseTerm_iff.mp hstep
    exact h
  | start i command =>
    obtain ⟨-, rfl⟩ := Cluster.step_start_iff.mp hstep
    exact h
  | ownSlot i v =>
    obtain ⟨-, -, rfl⟩ := Cluster.step_ownSlot_iff.mp hstep
    exact h
  | send i q =>
    obtain ⟨-, args, -, rfl⟩ := Cluster.step_send_iff.mp hstep
    exact h
  | deliver k =>
    obtain ⟨m, rf', reply, -, -, rfl⟩ := Cluster.step_deliver_iff.mp hstep
    obtain ⟨a, ha, hrest⟩ := h
    exact ⟨a, List.mem_append_left _ ha, hrest⟩
  | ack k =>
    obtain ⟨a, -, rfl⟩ := Cluster.step_ack_iff.mp hstep
    exact h

/-- Who has answered `Success` has a log of the term. -/
theorem synced_of_replied {p : Fin n} (h : TermInv c ldr t log₀) (hp : p ≠ ldr) (hr : Replied c p) :
    Synced c ldr log₀ p := by
  rcases h.peers p hp with hu | hs
  · exact absurd hr hu.2.2.2
  · exact hs

/-- **What `matchIndex` says is so.** -/
theorem agree_matchIndex {p : Fin n} (h : TermInv c ldr t log₀) (hp : p ≠ ldr) {i : ℕ}
    (hi : (i : ℤ) ≤ (c.nodes ldr).matchIndex p) :
    ∃ e, (c.nodes p).logEntries[i]? = some e ∧ (c.nodes ldr).logEntries[i]? = some e := by
  rcases h.slots p hp with h0 | ⟨a, ha, had, has, hslot⟩
  · obtain rfl : i = 0 := by omega
    have hldr : (c.nodes ldr).logEntries[0]? = some sentinel := by
      rw [← List.head?_eq_getElem?]
      obtain ⟨ext, hext, -⟩ := h.grown
      rw [hext, List.head?_append, h.head]
      rfl
    refine ⟨sentinel, ?_, hldr⟩
    rcases h.peers p hp with hu | hs
    · rw [← List.head?_eq_getElem?]
      exact hu.2.2.1
    · obtain ⟨tl, htl⟩ := hs.1
      rw [← htl, ← List.head?_eq_getElem?, List.head?_append, h.head]
      rfl
  · obtain ⟨hmem, hsucc⟩ := h.answers a ha
    obtain ⟨hnext, hpre⟩ := hsucc has
    have hlt : i < a.msg.built.length := by omega
    refine ⟨a.msg.built[i], ?_, ?_⟩
    · exact had ▸ List.prefix_iff_getElem?.mp hpre i hlt
    · exact List.prefix_iff_getElem?.mp (h.msgs _ hmem).2.2.2.2.2 i hlt

end TermInv

/-- **Acknowledged entries are never lost within a term.** In a run inside the term `t` of
`ldr`, from its start `c₀` through `c₁` to `c₂`: a peer that had answered `Success` by `c₁`
has at `c₂` a log that the leader's log begins with and that is no shorter than at `c₁`; and
at `c₂` every peer has the leader's entry at every index up to its slot of the leader's
`matchIndex`. -/
theorem acknowledged_never_lost {c₀ c₁ c₂ : Cluster n C} {ldr : Fin n} {t : ℤ} (h₀ : TermStart c₀ ldr t)
    (ls₁ ls₂ : List (Label n C)) (hls₁ : ∀ l ∈ ls₁, l.InTerm ldr) (hls₂ : ∀ l ∈ ls₂, l.InTerm ldr)
    (h₁ : run Cluster.step c₀ ls₁ = some c₁) (h₂ : run Cluster.step c₁ ls₂ = some c₂) (p : Fin n) (hp : p ≠ ldr) :
    (Replied c₁ p → (c₂.nodes p).logEntries <+: (c₂.nodes ldr).logEntries ∧
      (c₁.nodes p).logEntries.length ≤ (c₂.nodes p).logEntries.length) ∧
    ∀ i : ℕ, (i : ℤ) ≤ (c₂.nodes ldr).matchIndex p →
      ∃ e, (c₂.nodes p).logEntries[i]? = some e ∧ (c₂.nodes ldr).logEntries[i]? = some e := by
  have hI₁ := (TermInv.init h₀).of_run hls₁ h₁
  have hI₂ := hI₁.of_run hls₂ h₂
  refine ⟨fun hr => ?_, fun i hi => hI₂.agree_matchIndex hp hi⟩
  -- carried along the run: the invariant, the answer, and that the log has grown since `c₁`
  obtain ⟨hI, hr₂, hgrow⟩ := run_invariant (P := fun _ l => l.InTerm ldr)
    (I := fun c => TermInv c ldr t (c₀.nodes ldr).logEntries ∧ Replied c p ∧
      (c₁.nodes p).logEntries <+: (c.nodes p).logEntries)
    (fun c l c' ⟨hI, hr, hgrow⟩ hl hstep => ⟨hI.step hl hstep, TermInv.replied_step hr hl hstep,
      hgrow.trans (hI.isPrefix_step hl hp (hI.synced_of_replied hp hr) hstep)⟩)
    (along_of_forall_mem c₁ hls₂) ⟨hI₁, hr, List.prefix_rfl⟩ h₂
  exact ⟨(hI.synced_of_replied hp hr₂).2, hgrow.length_le⟩

/-- The leader of term 1 among two peers, before anything was appended. -/
def firstTerm : Cluster 2 ℕ where
  nodes i := ⟨i, if i = 0 then .leader else .follower, 1, [sentinel], 0, fun _ => 1, fun _ => 0⟩
  msgs := []
  answers := []
  led := [(1, 0)]

theorem firstTerm_start : TermStart firstTerm 0 1 :=
  ⟨rfl, rfl, fun _ => rfl, fun _ _ _ _ _ _ _ => rfl, fun _ e he => by
    rw [List.mem_singleton.mp he]
    decide, fun _ _ => rfl, fun _ _ => rfl, rfl, rfl⟩

/-- The request for one entry is overtaken by the request for two, and comes late. -/
theorem acknowledged_never_lost_overtaken :
    ∃ c₁ c₂, run Cluster.step firstTerm [.start 0 5, .send 0 1, .start 0 6, .send 0 1, .deliver 1] = some c₁ ∧
      run Cluster.step c₁ [.deliver 0, .ack 0] = some c₂ ∧ (c₁.nodes 1).logEntries.length = 3 ∧
      (c₁.nodes 1).logEntries.length ≤ (c₂.nodes 1).logEntries.length := by
  obtain ⟨c₁, h₁⟩ := Option.isSome_iff_exists.mp (show (run Cluster.step firstTerm
    [.start 0 5, .send 0 1, .start 0 6, .send 0 1, .deliver 1]).isSome = true by decide)
  have hlate : (run Cluster.step firstTerm [.start 0 5, .send 0 1, .start 0 6, .send 0 1, .deliver 1]).map
      (fun c => (run Cluster.step c [.deliver 0, .ack 0]).isSome &&
        c.answers.any (fun a => a.msg.dst = 1 && a.reply.success) &&
        decide ((c.nodes 1).logEntries.length = 3)) = some true := by decide
  rw [h₁, Option.map_some, Option.some.injEq, Bool.and_eq_true, Bool.and_eq_true] at hlate
  obtain ⟨⟨hrun, hrep⟩, hlen⟩ := hlate
  obtain ⟨c₂, h₂⟩ := Option.isSome_iff_exists.mp hrun
  refine ⟨c₁, c₂, h₁, h₂, by simpa using hlen, ?_⟩
  refine ((acknowledged_never_lost firstTerm_start _ _ ?_ ?_ h₁ h₂ 1 (by decide)).1 ?_).2
  · simp [Label.InTerm]
  · simp [Label.InTerm]
  · simpa [Replied] using hrep

end Cs426.Consensus
