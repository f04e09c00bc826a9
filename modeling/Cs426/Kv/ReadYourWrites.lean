import Cs426.Kv.Client
import Cs426.Kv.Copying
import Cs426.Kv.ShardCopy

/-!
# Reading one's writes

What a session of a client (`Cs426.Kv.Client`) can rely on, on servers that have all handled
a shard map which does not change.

## The argument

A write that returned `nil` was acknowledged by every node, each at a moment between its call
and its return, so every node shows it (`Kept`) until something overrides it. In the middle
of a write every node is to be asked, shows it, or has caused an error, which `Set` and
`Delete` do not forget. What a `Get` is answered is what the asked node shows at that moment.

## What is proved

* `Cluster.Steady.act` — servers that have handled the map stay so.
* `Inv.step`, `Inv.of_run` — the invariant, over every session.
* `read_your_writes` — so a `Get` returns what the last write promised.
-/

namespace Cs426.Kv

open Cs426.Machine

/-! ### Servers that have handled the map -/

/-- A server that hosts all its shards has nothing to copy. -/
theorem Server.idle_step {srv srv' : Server} {st : ShardMapState} {e : Event}
    (hidle : ∀ caller, srv.handlers caller = .idle) (hadded : srv.added st = []) (h : srv.step st e = some srv')
    (caller : Caller) : srv'.handlers caller = .idle := by
  cases handler_cases h caller with
  | same hh => exact hh.trans (hidle caller)
  | start =>
    obtain ⟨-, -, rfl⟩ := step_startUpdate_iff.mp h
    simpa [hadded] using hidle caller
  | add hh | reply hh | refuse hh | giveUp hh | relock hh | install hh | finish hh =>
    rw [hidle caller] at hh
    cases hh

/-- Every server has handled the map, and is well formed. -/
structure Cluster.Steady (st : ShardMapState) (c : Cluster) : Prop extends c.Settled where
  map : c.shardMap = st
  named : ∀ name, (c.servers name).nodeName = name
  wf : ∀ name, (c.servers name).Wf

theorem Cluster.hosting_steady {names hosts : List String} {kvShard : KvShard}
    (h : ∀ key obj, kvShard.data.lookup key = some obj → obj.storedTime ≤ 0) :
    (hosting names hosts kvShard).Steady (.oneShard names hosts) where
  toSettled := hosting_settled
  map := rfl
  named := (hosting_sound h).named
  wf := (hosting_sound h).wf

theorem Cluster.Steady.act {st : ShardMapState} {c c' : Cluster} {name : String} {e : Event} (hc : c.Steady st)
    (h : c.act name e = some c') : c'.Steady st := by
  have hserver : ∀ other, ((c'.servers other).nodeName = other ∧ (c'.servers other).Wf) ∧
      (∀ caller, (c'.servers other).handlers caller = .idle) ∧
      ∀ shard, (c'.servers other).Hosts shard ↔ shard ∈ st.fetchShards other := by
    intro other
    have hhosts := hc.hosts other
    rw [hc.map] at hhosts
    rcases (act_cases h other).2 with hsame | ⟨-, hstep⟩
    · rw [hsame]
      exact ⟨⟨hc.named other, hc.wf other⟩, hc.idle other, hhosts⟩
    · rw [hc.map] at hstep
      have hadded : (c.servers other).added st = [] := by
        refine List.eq_nil_iff_forall_not_mem.mpr fun shard hmem => ?_
        obtain ⟨hmem, hnot⟩ := Server.mem_added.mp hmem
        exact hnot ((hhosts shard).mpr (hc.named other ▸ hmem))
      refine ⟨⟨(Server.nodeName_step hstep).trans (hc.named other), (hc.wf other).step hstep⟩,
        Server.idle_step (hc.idle other) hadded hstep, fun shard => ?_⟩
      rcases Server.hosts_cases hstep shard with hiff | ⟨_, -, hiff⟩ | ⟨caller, index, rfl, -⟩
      · exact hiff.trans (hhosts shard)
      · rw [hiff, hc.named, hhosts, and_self]
      · obtain ⟨_, _, _, hh, -⟩ := Server.step_addShard_iff.mp hstep
        rw [hc.idle other] at hh
        cases hh
  have hmap : c'.shardMap = st := (act_cases h name).1.trans hc.map
  exact ⟨⟨fun other => (hserver other).2.1, fun other => hmap ▸ (hserver other).2.2⟩, hmap,
    fun other => (hserver other).1.1, fun other => (hserver other).1.2⟩

/-! ### What a write promises -/

/-- After `w'` the promise of `w` does not stand any more. -/
def Write.overrides : Write → Write → Bool
  | delete _, delete _ => false
  | w', w => w'.key == w.key

theorem Write.acks_iff {srv : Server} {st : ShardMapState} {w : Write} {now : ℤ} :
    srv.acks (st, w.event now) w.key = true ↔ w.error srv st.numShards now = none := by
  cases w with
  | set key value ttl =>
    cases hs : srv.set st.numShards key value (milliseconds ttl) now <;>
      simp [event, Write.key, Server.acks, error, hs, Except.isOk, Except.toBool]
  | delete key =>
    cases hs : srv.delete st.numShards key <;>
      simp [event, Write.key, Server.acks, error, hs, Except.isOk, Except.toBool]

theorem Write.acks_key {srv : Server} {st : ShardMapState} {w : Write} {now : ℤ} {key : String}
    (h : srv.acks (st, w.event now) key = true) : w.key = key := by
  cases w <;> exact beq_iff_eq.mp (Bool.and_eq_true_iff.mp h).1

/-- Requests are answered in terms of elapsed time, so the clock of a node does not show. -/
theorem Write.owed_event (w : Write) (t now skew : ℤ) :
    Server.owed (t + skew) (w.event (now + skew)) = Server.owed t (w.event now) := by
  cases w with
  | set => simp only [event, Server.owed, Int.add_sub_add_right]
  | delete => rfl

/-- The server shows what `w` has left on it at a moment between `t₀` and `t₁`. -/
def Kept (skew numShards : ℤ) (w : Write) (t₀ t₁ : ℤ) (srv : Server) : Prop :=
  ∃ t, (t₀ ≤ t ∧ t ≤ t₁) ∧
    srv.Shows (int32 (getShardForKey w.key numShards)) w.key (Server.written (w.event (t + skew))) ∧
    ∀ obj, Server.written (w.event (t + skew)) = some obj → obj.storedTime ≤ srv.now

namespace Kept

variable {skew : ℤ} {st : ShardMapState} {w : Write} {t₀ t₁ : ℤ} {srv srv' : Server} {e : Event}

theorem mono {t₁' : ℤ} (hk : Kept skew st.numShards w t₀ t₁ srv) (hle : t₁ ≤ t₁') :
    Kept skew st.numShards w t₀ t₁' srv := by
  obtain ⟨t, ht, hrest⟩ := hk
  exact ⟨t, ⟨ht.1, ht.2.trans hle⟩, hrest⟩

/-- An acknowledged write is kept. -/
theorem of_error {t : ℤ} (ht : t₀ ≤ t) (h : srv.step st (w.event (t + skew)) = some srv')
    (herr : w.error srv st.numShards (t + skew) = none) : Kept skew st.numShards w t₀ t srv' :=
  ⟨t, ⟨ht, le_rfl⟩, .of_acks (Write.acks_iff.mpr herr) h, Server.storedTime_le_of_step h⟩

/-- It goes on being kept, whatever else happens. -/
theorem step (hk : Kept skew st.numShards w t₀ t₁ srv) (hw : srv.Wf) (hidle : ∀ caller, srv.handlers caller = .idle)
    (hhosts : ∀ shard, srv.Hosts shard → shard ∈ st.fetchShards srv.nodeName) (h : srv.step st e = some srv')
    (hacks : srv.acks (st, e) w.key = false) : Kept skew st.numShards w t₀ t₁ srv' := by
  obtain ⟨t, ht, hshow, hpast⟩ := hk
  refine ⟨t, ht, hshow.step hw h ?_ hacks ?_, fun obj hobj => (hpast obj hobj).trans (Server.now_le_step h)⟩
  · cases e <;> simp [Server.keeps, hhosts _ hshow.1]
  · cases e <;> simp [Server.installs, hidle]

/-- Another write does not undo it, unless it overrides it. -/
theorem step_write {w' : Write} {now : ℤ} (hk : Kept skew st.numShards w t₀ t₁ srv) (hw : srv.Wf)
    (hidle : ∀ caller, srv.handlers caller = .idle)
    (hhosts : ∀ shard, srv.Hosts shard → shard ∈ st.fetchShards srv.nodeName)
    (h : srv.step st (w'.event now) = some srv') (hov : w'.overrides w = false) :
    Kept skew st.numShards w t₀ t₁ srv' := by
  cases hacks : srv.acks (st, w'.event now) w.key with
  | false => exact hk.step hw hidle hhosts h hacks
  | true =>
    -- a `Delete` after a `Delete`
    have hkey := Write.acks_key hacks
    cases w' with
    | set => simp [Write.overrides, hkey] at hov
    | delete key' =>
      cases w with
      | set => simp [Write.overrides, hkey] at hov
      | delete key =>
        obtain ⟨t, ht, -, -⟩ := hk
        have hshow := Server.Shows.of_acks hacks h
        exact ⟨t, ht, hshow, by rintro _ ⟨⟩⟩

/-- What a server that keeps the write answers. -/
theorem get_eq {t : ℤ} {r : GetResponse} (hk : Kept skew st.numShards w t₀ t₁ srv) (hnow : srv.now ≤ t + skew)
    (h : srv.get st.numShards w.key (t + skew) = .ok r) :
    ∃ t', (t₀ ≤ t' ∧ t' ≤ t₁) ∧ r = Server.owed t (w.event t') := by
  obtain ⟨t', ht', hshow, hpast⟩ := hk
  have hkey : w.key ≠ "" := by
    rintro hkey
    unfold Server.get Server.shardOf at h
    simp only [hkey, if_true] at h
    split at h <;> cases h
  rw [hshow.get_eq_owed hkey hnow hpast, Except.ok.injEq, Write.owed_event] at h
  exact ⟨t', ht', h.symm⟩

end Kept

/-! ### Histories -/

def Record.overrides : Record → Write → Bool
  | .wrote w' _ _ _, w => w'.overrides w
  | .got .., _ => false

def Phase.overrides : Phase → Write → Bool
  | .writing w' _ _ _, w => w'.overrides w
  | _, _ => false

/-- `w` returned `nil`, and nothing that has returned since overrides it. -/
inductive Standing (w : Write) (t₀ t₁ : ℤ) : List Record → Prop
  | here {older : List Record} : Standing w t₀ t₁ (.wrote w t₀ t₁ none :: older)
  | later {r : Record} {older : List Record} : r.overrides w = false → Standing w t₀ t₁ older →
      Standing w t₀ t₁ (r :: older)

theorem Standing.of_append {w : Write} {t₀ t₁ : ℤ} {between older : List Record}
    (h : ∀ r ∈ between, r.overrides w = false) : Standing w t₀ t₁ (between ++ .wrote w t₀ t₁ none :: older) := by
  induction between with
  | nil => exact .here
  | cons r between ih =>
    exact .later (h r (List.mem_cons_self ..)) (ih fun r hr => h r (List.mem_cons_of_mem _ hr))

/-- `r` is what `w` promises at some moment between `t₂` and `t₃`. -/
def Promised (w : Write) (t₀ t₁ t₂ t₃ : ℤ) (r : GetResponse) : Prop :=
  ∃ t' t, (t₀ ≤ t' ∧ t' ≤ t₁) ∧ (t₂ ≤ t ∧ t ≤ t₃) ∧ r = Server.owed t (w.event t')

/-- Every `Get` returned what the write that stood promised. -/
def Truthful (history : List Record) : Prop :=
  ∀ newer key t₂ t₃ r older, history = newer ++ .got key t₂ t₃ (.ok r) :: older →
    ∀ w t₀ t₁, w.key = key → Standing w t₀ t₁ older → Promised w t₀ t₁ t₂ t₃ r

theorem Truthful.cons {rec : Record} {history : List Record} (h : Truthful history)
    (hrec : ∀ key t₂ t₃ r, rec = .got key t₂ t₃ (.ok r) →
      ∀ w t₀ t₁, w.key = key → Standing w t₀ t₁ history → Promised w t₀ t₁ t₂ t₃ r) :
    Truthful (rec :: history) := by
  intro newer key t₂ t₃ r older heq
  cases newer with
  | nil =>
    obtain ⟨rfl, rfl⟩ := List.cons.inj heq
    exact hrec key t₂ t₃ r rfl
  | cons _ newer => exact h newer key t₂ t₃ r older (List.cons.inj heq).2

/-! ### The loops -/

/-- No error is forgotten. -/
theorem lastError_eq_none_iff {errs : List (Option Status)} {err : Option Status} :
    lastError err errs = none ↔ err = none ∧ ∀ e, some e ∉ errs := by
  induction errs generalizing err with
  | nil => simp [lastError]
  | cons e errs ih =>
    cases e with
    | none => simp [lastError, ih]
    | some e =>
      rw [lastError, ih]
      exact ⟨by rintro ⟨⟨⟩, -⟩, fun h => absurd (List.mem_cons_self ..) (h.2 e)⟩

/-- What `Get` returns without an error was answered by a node. -/
theorem mem_of_getLoop_eq_ok {answers : List (Except Status GetResponse)} {err : Option Status} {r : GetResponse}
    (h : getLoop err answers = .ok r) (hsome : err = none → answers ≠ []) : .ok r ∈ answers := by
  induction answers generalizing err with
  | nil => cases err <;> simp_all [getLoop]
  | cons a answers ih =>
    cases a with
    | ok r' =>
      have hr : r' = r := by simpa [getLoop] using h
      exact hr ▸ List.mem_cons_self ..
    | error e =>
      have h' : getLoop (some e) answers = .ok r := by simpa [getLoop] using h
      exact List.mem_cons_of_mem _ (ih h' (by simp))

/-! ### The invariant of a session -/

namespace Session

/-- What is carried along a session. -/
structure Inv (skew : String → ℤ) (st : ShardMapState) (s : Session) : Prop where
  steady : s.cluster.Steady st
  kept : ∀ w t₀ t₁, Standing w t₀ t₁ s.history → s.phase.overrides w = false →
    ∀ node ∈ s.nodes w.key, Kept (skew node) st.numShards w t₀ t₁ (s.cluster.servers node)
  writing : ∀ w called todo errs, s.phase = .writing w called todo errs → called ≤ s.time ∧
    ((∃ e, some e ∈ errs) ∨ ∀ node ∈ s.nodes w.key, node ∈ todo ∨
      Kept (skew node) st.numShards w called s.time (s.cluster.servers node))
  reading : ∀ key called rest answers, s.phase = .reading key called rest answers → called ≤ s.time ∧
    (∀ node ∈ rest, node ∈ s.nodes key) ∧ (rest = [] → answers ≠ []) ∧
    ∀ r, .ok r ∈ answers → ∀ w t₀ t₁, w.key = key → Standing w t₀ t₁ s.history → Promised w t₀ t₁ called s.time r
  truthful : Truthful s.history

variable {skew : String → ℤ} {st : ShardMapState} {s s' : Session} {t : ℤ}

namespace Inv

/-- Another server acts, or this one in a way that leaves the write alone. -/
theorem kept_act (hI : s.Inv skew st) {name node : String} {e : Event} {c : Cluster} {w : Write} {t₀ t₁ : ℤ}
    (hk : Kept (skew node) st.numShards w t₀ t₁ (s.cluster.servers node)) (h : s.cluster.act name e = some c)
    (he : (∃ w' now, e = Write.event w' now ∧ w'.overrides w = false) ∨ e.isWrite = false) :
    Kept (skew node) st.numShards w t₀ t₁ (c.servers node) := by
  rcases (Cluster.act_cases h node).2 with hsame | ⟨rfl, hstep⟩
  · exact hsame ▸ hk
  · rw [hI.steady.map] at hstep
    have hhosts : ∀ shard, (s.cluster.servers node).Hosts shard →
        shard ∈ st.fetchShards (s.cluster.servers node).nodeName := by
      intro shard hs
      rw [hI.steady.named, ← hI.steady.map]
      exact (hI.steady.hosts node shard).mp hs
    rcases he with ⟨w', now, rfl, hov⟩ | he
    · exact hk.step_write (hI.steady.wf node) (hI.steady.idle node) hhosts hstep hov
    · refine hk.step (hI.steady.wf node) (hI.steady.idle node) hhosts hstep ?_
      cases e <;> first | rfl | cases he

theorem nodes_act {name : String} {e : Event} {c : Cluster} (h : s.cluster.act name e = some c) (key : String) :
    nodes { s with cluster := c } key = s.nodes key := by
  rw [nodes, nodes, (Cluster.act_cases h name).1]

theorem step_callWrite (hI : s.Inv skew st) {w : Write} (h : s.step skew (.callWrite w t) = some s') :
    s'.Inv skew st := by
  obtain ⟨hidle, ht, todo, errs, rfl, htodo⟩ := Session.step_callWrite h
  refine ⟨hI.steady, fun w' t₀ t₁ hst _ => hI.kept w' t₀ t₁ hst ?_, ?_, ?_, hI.truthful⟩
  · rw [hidle]
    rfl
  · rintro _ _ _ _ ⟨⟩
    refine ⟨le_rfl, htodo.imp_right ?_⟩
    rintro rfl node hnode
    exact .inl hnode
  · rintro _ _ _ _ ⟨⟩

theorem step_callGet (hI : s.Inv skew st) {key : String} {index : ℕ}
    (h : s.step skew (.callGet key index t) = some s') : s'.Inv skew st := by
  obtain ⟨hidle, ht, rest, answers, rfl, hrest, hnil, hnone⟩ := Session.step_callGet h
  refine ⟨hI.steady, fun w' t₀ t₁ hst _ => hI.kept w' t₀ t₁ hst ?_, ?_, ?_, hI.truthful⟩
  · rw [hidle]
    rfl
  · rintro _ _ _ _ ⟨⟩
  · rintro _ _ _ _ ⟨⟩
    exact ⟨le_rfl, hrest, hnil, fun r hr => absurd hr (hnone r)⟩

theorem step_background (hI : s.Inv skew st) {name : String} {e : Event}
    (h : s.step skew (.background name e t) = some s') : s'.Inv skew st := by
  obtain ⟨ht, he, c, hc, rfl⟩ := Session.step_background h
  refine ⟨hI.steady.act hc, ?_, ?_, ?_, hI.truthful⟩
  · intro w t₀ t₁ hst hov node hnode
    exact hI.kept_act (hI.kept w t₀ t₁ hst hov node (nodes_act hc w.key ▸ hnode)) hc (.inr he)
  · intro w called todo errs hphase
    obtain ⟨hcalled, hall⟩ := hI.writing w called todo errs hphase
    refine ⟨hcalled.trans ht, hall.imp_right fun hall node hnode => ?_⟩
    exact (hall node (nodes_act hc w.key ▸ hnode)).imp_right fun hk => (hI.kept_act hk hc (.inr he)).mono ht
  · intro key called rest answers hphase
    obtain ⟨hcalled, hrest, hnil, hall⟩ := hI.reading key called rest answers hphase
    refine ⟨hcalled.trans ht, fun node hnode => nodes_act hc key ▸ hrest node hnode, hnil,
      fun r hr w t₀ t₁ hkey hst => ?_⟩
    obtain ⟨t', t'', ht', ht'', rfl⟩ := hall r hr w t₀ t₁ hkey hst
    exact ⟨t', t'', ht', ⟨ht''.1, ht''.2.trans ht⟩, rfl⟩

/-- What the servers are after a call of the client, whatever becomes of it. -/
theorem outcome (hI : s.Inv skew st) {node : String} {e : Event} {outcome : Outcome} {c : Cluster}
    (h : outcome.cluster s.cluster node e = some c) :
    c.Steady st ∧ (∀ key, nodes { s with cluster := c } key = s.nodes key) ∧ ∀ w t₀ t₁ other,
      (∃ w' now, e = Write.event w' now ∧ w'.overrides w = false) ∨ e.isWrite = false ∨ other ≠ node →
        Kept (skew other) st.numShards w t₀ t₁ (s.cluster.servers other) →
        Kept (skew other) st.numShards w t₀ t₁ (c.servers other) := by
  rcases Outcome.cluster_cases h with hact | ⟨rfl, -⟩
  · refine ⟨hI.steady.act hact, nodes_act hact, ?_⟩
    rintro w t₀ t₁ other (he | he | hne) hk
    · exact hI.kept_act hk hact (.inl he)
    · exact hI.kept_act hk hact (.inr he)
    · rcases (Cluster.act_cases hact other).2 with hsame | ⟨heq, -⟩
      · exact hsame ▸ hk
      · exact absurd heq hne
  · exact ⟨hI.steady, fun _ => rfl, fun _ _ _ _ _ hk => hk⟩

/-- A goroutine of `Set` or `Delete` calls its node. -/
theorem step_rpc_write (hI : s.Inv skew st) {w : Write} {called : ℤ} {todo : List String}
    {errs : List (Option Status)} (hphase : s.phase = .writing w called todo errs) {node : String}
    {outcome : Outcome} {c : Cluster} (ht : s.time ≤ t)
    (hc : outcome.cluster s.cluster node (w.event (t + skew node)) = some c) :
    Inv skew st { s with
      cluster := c
      time := t
      phase := .writing w called (todo.erase node) (errs ++
        [outcome.seen (w.error (s.cluster.servers node) s.cluster.shardMap.numShards (t + skew node))]) } := by
  obtain ⟨hsteady, hnodes, hkept⟩ := hI.outcome hc
  obtain ⟨hcalled, hall⟩ := hI.writing w called todo errs hphase
  refine ⟨hsteady, fun w' t₀ t₁ hst hov other hother => ?_, ?_, by rintro _ _ _ _ ⟨⟩, hI.truthful⟩
  · refine hkept w' t₀ t₁ other (.inl ⟨w, _, rfl, hov⟩) (hI.kept w' t₀ t₁ hst ?_ other (hnodes w'.key ▸ hother))
    rw [hphase]
    exact hov
  · rintro _ _ _ _ ⟨⟩
    refine ⟨hcalled.trans ht, ?_⟩
    rcases hall with ⟨e, he⟩ | hall
    · exact .inl ⟨e, List.mem_append_left _ he⟩
    · cases hseen : outcome.seen (w.error (s.cluster.servers node) s.cluster.shardMap.numShards (t + skew node)) with
      | some e => exact .inl ⟨e, by simp⟩
      | none =>
        refine .inr fun other hother => ?_
        by_cases hne : other = node
        · subst hne
          obtain ⟨rfl, herr⟩ := Outcome.seen_eq_none hseen
          obtain ⟨srv, hsrv, rfl⟩ := Cluster.act_iff.mp hc
          rw [hI.steady.map] at hsrv herr
          rw [Cluster.setServer_self]
          exact .inr (.of_error (hcalled.trans ht) hsrv herr)
        · rcases hall other (hnodes w.key ▸ hother) with hmem | hk
          · exact .inl ((List.mem_erase_of_ne hne).mpr hmem)
          · exact .inr ((hkept w _ _ other (.inr (.inr hne)) hk).mono ht)

/-- `Get` calls its next node. -/
theorem step_rpc_read (hI : s.Inv skew st) {key : String} {called : ℤ} {node : String} {rest : List String}
    {answers : List (Except Status GetResponse)} (hphase : s.phase = .reading key called (node :: rest) answers)
    {outcome : Outcome} {c : Cluster} (ht : s.time ≤ t)
    (hc : outcome.cluster s.cluster node (.get key (t + skew node)) = some c) :
    Inv skew st { s with
      cluster := c
      time := t
      phase := .reading key called rest (answers ++
        [outcome.answer ((s.cluster.servers node).get s.cluster.shardMap.numShards key (t + skew node))]) } := by
  obtain ⟨hsteady, hnodes, hkept⟩ := hI.outcome hc
  obtain ⟨hcalled, hrest, -, hall⟩ := hI.reading key called _ answers hphase
  refine ⟨hsteady, fun w t₀ t₁ hst _ other hother => ?_, by rintro _ _ _ _ ⟨⟩, ?_, hI.truthful⟩
  · refine hkept w t₀ t₁ other (.inr (.inl rfl)) (hI.kept w t₀ t₁ hst ?_ other (hnodes w.key ▸ hother))
    rw [hphase]
    rfl
  · rintro _ _ _ _ ⟨⟩
    refine ⟨hcalled.trans ht, fun other hother => ?_, fun _ => by simp, fun r hr w t₀ t₁ hkey hst => ?_⟩
    · exact hnodes key ▸ hrest other (List.mem_cons_of_mem _ hother)
    · rcases List.mem_append.mp hr with hr | hr
      · obtain ⟨t', t'', ht', ht'', rfl⟩ := hall r hr w t₀ t₁ hkey hst
        exact ⟨t', t'', ht', ⟨ht''.1, ht''.2.trans ht⟩, rfl⟩
      · -- the node that has just answered keeps the write
        obtain ⟨rfl, hget⟩ := Outcome.answer_eq_ok (List.mem_singleton.mp hr).symm
        obtain ⟨srv, hsrv, -⟩ := Cluster.act_iff.mp hc
        obtain ⟨⟨-, hnow⟩, -⟩ := Server.step_get_iff.mp hsrv
        subst hkey
        rw [hI.steady.map] at hget
        have hk := hI.kept w t₀ t₁ hst (by rw [hphase]; rfl) node (hrest node (List.mem_cons_self ..))
        obtain ⟨t', ht', rfl⟩ := hk.get_eq hnow hget
        exact ⟨t', t, ht', ⟨hcalled.trans ht, le_rfl⟩, rfl⟩

/-- An operation returns. -/
theorem step_ret (hI : s.Inv skew st) (h : s.step skew (.ret t) = some s') : s'.Inv skew st := by
  obtain ⟨ht, ⟨w, called, errs, hphase, rfl⟩ | ⟨key, called, rest, answers, hphase, hdone, rfl⟩⟩ := Session.step_ret h
  · obtain ⟨hcalled, hall⟩ := hI.writing w called [] errs hphase
    refine ⟨hI.steady, fun w' t₀ t₁ hst _ node hnode => ?_, by rintro _ _ _ _ ⟨⟩, by rintro _ _ _ _ ⟨⟩,
      hI.truthful.cons (by rintro _ _ _ _ ⟨⟩)⟩
    generalize hrec : Record.wrote w called t (lastError none errs) = rec at hst
    cases hst with
    | here =>
      -- no node has caused an error, and none is left to be asked
      obtain ⟨rfl, rfl, rfl, hnone⟩ := Record.wrote.inj hrec
      rcases hall with ⟨e, he⟩ | hall
      · exact absurd he ((lastError_eq_none_iff.mp hnone).2 e)
      · rcases hall node hnode with hmem | hk
        · cases hmem
        · exact hk.mono ht
    | later hov hst =>
      subst hrec
      exact hI.kept w' t₀ t₁ hst (by rw [hphase]; exact hov) node hnode
  · obtain ⟨hcalled, hrest, hnil, hall⟩ := hI.reading key called rest answers hphase
    refine ⟨hI.steady, fun w' t₀ t₁ hst _ node hnode => ?_, by rintro _ _ _ _ ⟨⟩, by rintro _ _ _ _ ⟨⟩,
      hI.truthful.cons ?_⟩
    · cases hst with
      | later _ hst => exact hI.kept w' t₀ t₁ hst (by rw [hphase]; rfl) node hnode
    · intro key' t₂ t₃ r hrec w t₀ t₁ hkey hst
      obtain ⟨rfl, rfl, rfl, hr⟩ := Record.got.inj hrec
      have hsome : answers ≠ [] := by
        rcases hdone with hdone | ⟨a, ha, -⟩
        · exact hnil hdone
        · exact List.ne_nil_of_mem ha
      obtain ⟨t', t'', ht', ht'', rfl⟩ := hall r (mem_of_getLoop_eq_ok hr fun _ => hsome) w t₀ t₁ hkey hst
      exact ⟨t', t'', ht', ⟨ht''.1, ht''.2.trans ht⟩, rfl⟩

/-- **One step of a session.** -/
theorem step (hI : s.Inv skew st) {a : Action} (h : s.step skew a = some s') : s'.Inv skew st := by
  cases a with
  | callWrite => exact hI.step_callWrite h
  | callGet => exact hI.step_callGet h
  | ret => exact hI.step_ret h
  | background => exact hI.step_background h
  | rpc node outcome t =>
    obtain ⟨ht, ⟨w, called, todo, errs, c, hphase, -, hc, rfl⟩ | ⟨key, called, rest, answers, c, hphase, hc, rfl⟩⟩ :=
      Session.step_rpc h
    · exact hI.step_rpc_write hphase ht hc
    · exact hI.step_rpc_read hphase ht hc

/-- How a session starts: every server has handled the map, and nothing has been called. -/
theorem init {c : Cluster} (hc : c.Steady st) (time : ℤ) : Inv skew st ⟨c, time, .idle, []⟩ where
  steady := hc
  kept := by rintro w t₀ t₁ ⟨⟩
  writing := by rintro _ _ _ _ ⟨⟩
  reading := by rintro _ _ _ _ ⟨⟩
  truthful := by
    intro newer key t₂ t₃ r older heq
    cases newer <;> cases heq

/-- A whole session. -/
theorem of_run (hI : s.Inv skew st) {as : List Action} (h : run (Session.step skew) s as = some s') :
    s'.Inv skew st :=
  run_inductive (fun _ _ _ hI hs => hI.step hs) hI h

end Inv

end Session

/-! ### Reading one's writes -/

/-- What a `Set` promises a `Get` that is called at `t₂` and returns at `t₃`. -/
theorem Promised.of_set {key value : String} {ttl t₀ t₁ t₂ t₃ : ℤ} {r : GetResponse}
    (h : Promised (.set key value ttl) t₀ t₁ t₂ t₃ r) :
    (t₃ < t₀ + milliseconds ttl * 1000000 → r = ⟨value, true⟩) ∧
      (t₁ + milliseconds ttl * 1000000 ≤ t₂ → r = ⟨"", false⟩) := by
  obtain ⟨t', t, ht', ht, rfl⟩ := h
  simp only [Write.event, Server.owed]
  constructor
  · intro hlt
    rw [if_pos (by omega)]
  · intro hle
    rw [if_neg (by omega)]

/-- **A client reads its own writes**, for as long as they live. The shard map does not change
and every server has handled it; any call to a server may fail. Of two operations of one
client, with only operations between them that leave the key alone, let the first be a `Set`
that returned `nil` and the second a `Get` that returned no error: it returned the value if it
returned within the time to live of the call of the `Set`, and nothing if it was called that
long after the `Set` had returned. After a `Delete` that returned `nil` it returns nothing,
as long as there was no `Set` in between. -/
theorem read_your_writes {skew : String → ℤ} {st : ShardMapState} {c : Cluster} (hc : c.Steady st) (time : ℤ)
    (as : List Action) {s : Session} (h : run (Session.step skew) ⟨c, time, .idle, []⟩ as = some s)
    (key : String) (newer between older : List Record) (t₀ t₁ t₂ t₃ : ℤ) (r : GetResponse) :
    (∀ value ttl, s.history = newer ++ .got key t₂ t₃ (.ok r) ::
        (between ++ .wrote (.set key value ttl) t₀ t₁ none :: older) →
      (∀ w t t' err, .wrote w t t' err ∈ between → w.key ≠ key) →
      (t₃ < t₀ + milliseconds ttl * 1000000 → r = ⟨value, true⟩) ∧
      (t₁ + milliseconds ttl * 1000000 ≤ t₂ → r = ⟨"", false⟩)) ∧
    (s.history = newer ++ .got key t₂ t₃ (.ok r) :: (between ++ .wrote (.delete key) t₀ t₁ none :: older) →
      (∀ value ttl t t' err, .wrote (.set key value ttl) t t' err ∉ between) → r = ⟨"", false⟩) := by
  have hI : s.Inv skew st := (Session.Inv.init hc time).of_run h
  constructor
  · intro value ttl hsplit hbetween
    refine (hI.truthful newer key t₂ t₃ r _ hsplit (.set key value ttl) t₀ t₁ rfl
      (.of_append fun rec hrec => ?_)).of_set
    cases rec with
    | got => rfl
    | wrote w t t' err => cases w <;> simpa [Record.overrides, Write.overrides, Write.key] using hbetween _ _ _ _ hrec
  · intro hsplit hbetween
    have hp := hI.truthful newer key t₂ t₃ r _ hsplit (.delete key) t₀ t₁ rfl (.of_append fun rec hrec => ?_)
    · obtain ⟨_, _, -, -, rfl⟩ := hp
      rfl
    · cases rec with
      | got => rfl
      | wrote w t t' err =>
        cases w with
        | delete => rfl
        | set key' value ttl =>
          simp only [Record.overrides, Write.overrides, Write.key, beq_eq_false_iff_ne]
          rintro rfl
          exact hbetween _ _ _ _ _ hrec

/-- A `Set` on two nodes, whose clocks differ by five nanoseconds, the removal of expired
keys, and a `Get` that fails over to the second node. -/
def setAndGet : List Action :=
  [.callWrite (.set "k" "v" 10000000) 0, .rpc "n2" .answered 1, .rpc "n1" .answered 2, .ret 3,
   .background "n2" (.cleanup 1 (fun _ => 9) 9) 4, .callGet "k" 0 5,
   .rpc "n1" (.unsent ⟨.other 14, "unavailable"⟩) 6, .rpc "n2" .answered 7, .ret 8]

def twoReplicas : Cluster := .hosting ["n1", "n2"] ["n1", "n2"] makeKvShard

def afterSetAndGet : Session :=
  (run (Session.step fun name => if name = "n2" then 5 else 0) ⟨twoReplicas, 0, .idle, []⟩ setAndGet).get
    (by decide +kernel)

theorem read_your_writes_setAndGet : ∃ r, afterSetAndGet.history =
    [.got "k" 5 8 (.ok r), .wrote (.set "k" "v" 10000000) 0 3 none] ∧ r = ⟨"v", true⟩ := by
  have hc : twoReplicas.Steady (.oneShard ["n1", "n2"] ["n1", "n2"]) :=
    Cluster.hosting_steady (by simp [makeKvShard])
  have hrun : run (Session.step fun name => if name = "n2" then 5 else 0) ⟨twoReplicas, 0, .idle, []⟩ setAndGet =
      some afterSetAndGet := run_eq_some_get _ _
  obtain ⟨r, hr⟩ : ∃ r, afterSetAndGet.history =
      [.got "k" 5 8 (.ok r), .wrote (.set "k" "v" 10000000) 0 3 none] := ⟨⟨"v", true⟩, by decide +kernel⟩
  exact ⟨r, hr, ((read_your_writes hc 0 setAndGet hrun "k" [] [] [] 0 3 5 8 r).1 "v" 10000000 hr (by simp)).1
    (by decide)⟩

end Cs426.Kv
