import Cs426.Kv.Migration

/-!
# Where values come from

Copies go from node to node on every change of the shard map, while clients write, values expire,
calls fail and further updates come (`GetShardContents`, `fetchShardContent` and
`handleShardMapUpdate` in `lab4/kv/server.go`). A copy may undo a write, as `Copying` shows, and it
may outlive its original by the delays on its way, as `Drift` shows. What it can not do is make
something up: this holds of every run, with nothing assumed of the shard maps or of the calls that
fail, and of the clocks only what `Cluster` assumes.

## What is proved

* `values_were_written` — what is stored on any node, about to be installed there, listed by
  `GetShardContents` or returned by `Get` was written under its key by an acknowledged `Set`, with a
  time to live that was at least as long.
-/

namespace Cs426.Kv

open Cs426.Machine

/-! ### What backs a value -/

/-- Everything stored, or about to be, satisfies `P`: a key, a value, and a time to live. -/
structure Cluster.Backed (P : String → String → ℤ → Prop) (c : Cluster) : Prop where
  stored : ∀ name shard key obj, (c.servers name).entry shard key = some obj → P key obj.value obj.ttlMs
  pending : ∀ name shard v, (c.servers name).Pending shard v → P v.key v.value v.ttlMsRemaining

/-- A `Set` of the key at a server that hosts its shard. -/
def Server.AcksSet (srv : Server) (st : ShardMapState) (key value : String) (ttlMs now : ℤ) : Prop :=
  ∃ srv', srv.set st.numShards key value ttlMs now = .ok srv'

theorem Server.acksSet_of_shardOf {srv : Server} {st : ShardMapState} {key value : String} {ttlMs now : ℤ}
    {s : ℤ × KvShard} (h : srv.shardOf st.numShards key = .ok s) : srv.AcksSet st key value ttlMs now :=
  ⟨_, by rw [Server.set, h, Except.map]⟩

namespace Cluster.Backed

variable {P Q : String → String → ℤ → Prop} {c c' : Cluster}

theorem imp (h : c.Backed P) (hPQ : ∀ key value ttlMs, P key value ttlMs → Q key value ttlMs) : c.Backed Q :=
  ⟨fun name shard key obj hobj => hPQ _ _ _ (h.stored name shard key obj hobj),
    fun name shard v hv => hPQ _ _ _ (h.pending name shard v hv)⟩

/-- What a server lists is backed, since no time to live gets longer by waiting. -/
theorem of_mem_contents (h : c.Backed P)
    (hP : ∀ key value ttlMs ttlMs', ttlMs ≤ ttlMs' → P key value ttlMs' → P key value ttlMs)
    {node : String} (hw : (c.servers node).Wf) {shard finish : ℤ} {visits : List Visit} {values : List GetShardValue}
    (hin : InTime (c.servers node).now finish visits)
    (hans : (c.servers node).getShardContents shard visits = .ok values) {v : GetShardValue} (hv : v ∈ values) :
    P v.key v.value v.ttlMsRemaining := by
  obtain ⟨w, hw', obj, hobj, rfl⟩ := Server.entry_of_mem_contents hans hv
  have hstored := hw.stored shard w.key obj hobj
  obtain ⟨htested, hread, -⟩ := hin.mem hw'
  have helapsed : 0 ≤ milliseconds (w.readAt - obj.storedTime) := by
    rw [milliseconds_of_nonneg (by omega)]
    omega
  exact hP _ _ _ _ (show obj.ttlMs - milliseconds (w.readAt - obj.storedTime) ≤ obj.ttlMs by omega)
    (h.stored node shard w.key obj hobj)

/-- A server acts: what it stores is what it is asked to store, or what was pending; what comes to be
pending is what it is answered. -/
theorem act (h : c.Backed P) {name : String} {e : Event} (hact : c.act name e = some c')
    (hset : ∀ key value ttlMs now, e = .set key value ttlMs now →
      (c.servers name).AcksSet c.shardMap key value ttlMs now → P key value ttlMs)
    (hreply : ∀ caller f vs now shard rest, e = .fetchReply caller f (some vs) now →
      ((c.servers name).handlers caller).fetches[f]? = some ⟨shard, rest⟩ →
        ∀ v ∈ vs, P v.key v.value v.ttlMsRemaining) : c'.Backed P where
  stored := by
    intro other shard key obj hobj
    rcases (act_cases hact other).2 with hsame | ⟨rfl, hstep⟩
    · exact h.stored other shard key obj (hsame ▸ hobj)
    · cases Server.entry_cases hstep shard key with
      | same heq => exact h.stored other shard key obj (heq ▸ hobj)
      | @set value ttlMs now kvShard hs hnew =>
        rw [hnew, Option.some.injEq] at hobj
        subst hobj
        exact hset key value ttlMs now rfl (Server.acksSet_of_shardOf hs)
      | @install caller now s v values hh hkey hshard hnew =>
        rw [hnew, Option.some.injEq] at hobj
        subst hobj
        rw [← hkey]
        exact h.pending other s v ⟨caller, by rw [hh]; exact List.mem_cons_self ..⟩
      | delete _ hnone | expire _ hnone | drop _ hnone | create _ hnone => simp [hnone] at hobj
  pending := by
    intro other shard v hv
    rcases (act_cases hact other).2 with hsame | ⟨rfl, hstep⟩
    · exact h.pending other shard v (hsame ▸ hv)
    · rcases Server.pending_cases hstep hv with hv | ⟨caller, f, vs, node, rest, he, hfetch, hmem⟩
      · exact h.pending other shard v hv
      · exact hreply caller f vs _ shard _ he hfetch v hmem

/-- **One step of the cluster** adds what it acknowledges, and nothing else. -/
theorem step (h : c.Backed P) (hP : ∀ key value ttlMs ttlMs', ttlMs ≤ ttlMs' → P key value ttlMs' → P key value ttlMs)
    (hw : ∀ name, (c.servers name).Wf) {l : Label} (hstep : c.step l = some c')
    (hset : ∀ name key value ttlMs now, l = .event name (.set key value ttlMs now) →
      (c.servers name).AcksSet c.shardMap key value ttlMs now → P key value ttlMs) : c'.Backed P := by
  cases l with
  | update =>
    obtain rfl : _ = c' := Option.some.inj hstep
    exact ⟨h.stored, h.pending⟩
  | event name e =>
    obtain ⟨he, hact⟩ := step_event_iff.mp hstep
    refine h.act hact (fun key value ttlMs now heq => hset name key value ttlMs now (by rw [heq])) ?_
    rintro _ _ _ _ _ _ rfl
    cases he
  | fail name caller f now =>
    refine h.act hstep ?_ ?_
    · rintro _ _ _ _ ⟨⟩
    · rintro _ _ _ _ _ _ ⟨⟩
  | ask name caller f visits finish received =>
    obtain ⟨shard, node, rest, c₁, hfetch, h₁, -, h₂⟩ := step_ask_iff.mp hstep
    obtain ⟨srv, hserved, -⟩ := act_iff.mp h₁
    obtain ⟨⟨-, hin, -⟩, -⟩ := Server.step_getShardContents_iff.mp hserved
    have hb₁ : c₁.Backed P := by
      refine h.act h₁ ?_ ?_
      · rintro _ _ _ _ ⟨⟩
      · rintro _ _ _ _ _ _ ⟨⟩
    refine hb₁.act h₂ ?_ ?_
    · rintro _ _ _ _ ⟨⟩
    · intro caller' f' vs now' shard' rest' he hf' v hv
      obtain ⟨rfl, hans⟩ := reply_of_ask hfetch h₁ he hf'
      exact h.of_mem_contents hP (hw node) hin hans hv

end Cluster.Backed

/-- What `Get` returns, the server stores, and it has not expired. -/
theorem Server.entry_of_get {srv : Server} {numShards now : ℤ} {key value : String}
    (h : srv.get numShards key now = .ok ⟨value, true⟩) :
    ∃ shard obj, srv.entry shard key = some obj ∧ obj.value = value ∧ live now obj = true := by
  cases hs : srv.shardOf numShards key with
  | error err => simp [Server.get, hs, Except.map] at h
  | ok s =>
    obtain ⟨shard, kvShard⟩ := s
    simp only [Server.get, hs, Except.map, Except.ok.injEq] at h
    cases hget : kvShard.get key now with
    | none => simp [hget] at h
    | some obj =>
      obtain ⟨hobj, hlive⟩ := KvShard.get_eq_some_iff.mp hget
      refine ⟨shard, obj, ?_, by simpa [hget] using h, hlive⟩
      rw [entry_of_lookup (shardOf_eq_ok_iff.mp hs).2.1, hobj]

/-! ### Whole runs -/

/-- In the run `ls` from `c₀` a `Set` of this key to this value was acknowledged, by some server, to
live at least that long. -/
def Wrote (c₀ : Cluster) (ls : List Label) (key value : String) (ttlMs : ℤ) : Prop :=
  ∃ ls₁ ls₂ c name ttlMs' now, ls = ls₁ ++ .event name (.set key value ttlMs' now) :: ls₂ ∧
    run Cluster.step c₀ ls₁ = some c ∧ (c.servers name).AcksSet c.shardMap key value ttlMs' now ∧ ttlMs ≤ ttlMs'

theorem Wrote.append {c₀ : Cluster} {ls ls' : List Label} {key value : String} {ttlMs : ℤ}
    (h : Wrote c₀ ls key value ttlMs) : Wrote c₀ (ls ++ ls') key value ttlMs := by
  obtain ⟨ls₁, ls₂, c, name, ttlMs', now, rfl, hrest⟩ := h
  exact ⟨ls₁, ls₂ ++ ls', c, name, ttlMs', now, by simp, hrest⟩

theorem Wrote.mono {c₀ : Cluster} {ls : List Label} {key value : String} {ttlMs ttlMs' : ℤ} (hle : ttlMs ≤ ttlMs')
    (h : Wrote c₀ ls key value ttlMs') : Wrote c₀ ls key value ttlMs := by
  obtain ⟨ls₁, ls₂, c, name, t, now, hls, hrun, hacks, ht⟩ := h
  exact ⟨ls₁, ls₂, c, name, t, now, hls, hrun, hacks, hle.trans ht⟩

/-- What is carried along a run. -/
structure Cluster.Traced (c₀ : Cluster) (ls : List Label) (c : Cluster) : Prop where
  reached : run Cluster.step c₀ ls = some c
  wf : ∀ name, (c.servers name).Wf
  backed : c.Backed (Wrote c₀ ls)

theorem Cluster.Traced.init {c₀ : Cluster} (h : c₀.Init) : Traced c₀ [] c₀ := by
  refine ⟨rfl, fun name => ?_, fun name shard key obj hobj => ?_, fun name shard v hv => ?_⟩ <;>
    obtain ⟨now, hname⟩ := h name
  · rw [hname]
    exact Server.Wf.makeKvServer name now
  · simp [hname, makeKvServer, Server.entry] at hobj
  · simp [hname, makeKvServer, Server.Pending, Handler.values] at hv

theorem Cluster.Traced.step {c₀ c c' : Cluster} {ls : List Label} {l : Label} (h : Traced c₀ ls c)
    (hstep : c.step l = some c') : Traced c₀ (ls ++ [l]) c' where
  reached := by
    rw [run_append, h.reached]
    exact (run_cons_iff _).mpr ⟨c', hstep, rfl⟩
  wf name := servers_of_step hstep (fun _ _ _ _ hwf hs => hwf.step hs) (h.wf name)
  backed := by
    refine (h.backed.imp fun _ _ _ => Wrote.append).step (fun _ _ _ _ => Wrote.mono) h.wf hstep ?_
    intro name key value ttlMs now hl hacks
    exact ⟨ls, [], c, name, ttlMs, now, by rw [hl], h.reached, hacks, le_rfl⟩

/-- **Values were written.** In every run of any number of servers from their start, whatever updates
come and whatever calls fail, with clocks that do not go back: what `Get` returns from any server,
what `GetShardContents` lists, what is stored and what is about to be installed was written under
that key by a `Set` of the run that was acknowledged, and with a time to live at least as long. -/
theorem values_were_written {c₀ c : Cluster} (h₀ : c₀.Init) {ls : List Label} (h : run Cluster.step c₀ ls = some c) :
    (∀ name numShards key value now, (c.servers name).now ≤ now →
      (c.servers name).get numShards key now = .ok ⟨value, true⟩ →
      ∃ ttlMs, 0 < ttlMs ∧ Wrote c₀ ls key value ttlMs) ∧
    (∀ name shard visits finish values srv',
      (c.servers name).step c.shardMap (.getShardContents shard visits finish) = some srv' →
      (c.servers name).getShardContents shard visits = .ok values →
      ∀ v ∈ values, Wrote c₀ ls v.key v.value v.ttlMsRemaining) ∧
    c.Backed (Wrote c₀ ls) := by
  have ht : Cluster.Traced c₀ ls c :=
    run_history (I := Cluster.Traced c₀) (fun _ _ _ _ _ ht hs => ht.step hs) (.init h₀) h
  refine ⟨?_, ?_, ht.backed⟩
  · intro name numShards key value now hnow hget
    obtain ⟨shard, obj, hobj, rfl, hlive⟩ := Server.entry_of_get hget
    have hstored := (ht.wf name).stored shard key obj hobj
    refine ⟨obj.ttlMs, ?_, ht.backed.stored name shard key obj hobj⟩
    -- it was stored before, so that a live object has some time to live
    rw [live_iff, milliseconds_of_nonneg (by omega)] at hlive
    omega
  · intro name shard visits finish values srv' hserved hans v hv
    obtain ⟨⟨-, hin, -⟩, -⟩ := Server.step_getShardContents_iff.mp hserved
    exact ht.backed.of_mem_contents (fun _ _ _ _ => Wrote.mono) (ht.wf name) hin hans hv

/-- The copied value is installed, and the call ends. -/
def oneInstalled : List Label :=
  oneCopied ++ [.event "n1" (.install .makeKvServer 9), .event "n1" (.finishUpdate .makeKvServer)]

/-- Where this run arrives. -/
def installedCluster : Cluster :=
  (run Cluster.step (.fresh (.oneShard ["n1", "n2"] ["n1", "n2"])) oneInstalled).get (by decide +kernel)

/-- The client that reads from `n1` what was written to `n2`. -/
theorem values_were_written_oneInstalled : (installedCluster.servers "n1").get 1 "k" 10 = .ok ⟨"v", true⟩ ∧
    ∃ ttlMs, 0 < ttlMs ∧ Wrote (.fresh (.oneShard ["n1", "n2"] ["n1", "n2"])) oneInstalled "k" "v" ttlMs := by
  have hrun : run Cluster.step (.fresh (.oneShard ["n1", "n2"] ["n1", "n2"])) oneInstalled = some installedCluster :=
    run_eq_some_get _ _
  have hget : (installedCluster.servers "n1").get 1 "k" 10 = .ok ⟨"v", true⟩ := by decide +kernel
  have hnow : (installedCluster.servers "n1").now ≤ 10 := by decide +kernel
  exact ⟨hget, (values_were_written (Cluster.fresh_init _) hrun).1 "n1" 1 "k" "v" 10 hnow hget⟩

end Cs426.Kv
