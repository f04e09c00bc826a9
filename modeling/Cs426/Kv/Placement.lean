import Cs426.Kv.Cluster

/-!
# Keys are where their hash says

The install at the end of `handleShardMapUpdate` does not know which shard a response was
requested for: it stores every value in the shard its key hashes to. That this is the shard
the snapshot was taken of rests on what every other node stores.

## The argument

`Placed` says that everything a server stores, and everything it has yet to install, is of
the shard it is kept for. A `Set` and an install put a key where its hash says; with fewer
than `2 ^ 31` shards the conversion to `int32` keeps it (`int32_getShardForKey`). What a
server has yet to install it got from a peer's `GetShardContents`, which lists what the peer
stores.

## What is proved

* `Placed.of_run` — the invariant holds wherever a cluster arrives.
* `key_placement` — so keys are stored in the shards they hash to, `GetShardContents` lists
  keys of its shard only and each once, and an install stores into the shard that was
  requested.
-/

namespace Cs426.Kv

open Cs426.Machine

/-- Everything stored and everything to be installed is of the shard it is kept for. -/
structure Server.Placed (numShards : ℤ) (srv : Server) : Prop where
  stored : ∀ shard key obj, srv.entry shard key = some obj → getShardForKey key numShards = shard
  pending : ∀ shard v, srv.Pending shard v → getShardForKey v.key numShards = shard

/-- Every server of the cluster keeps its keys in place. -/
structure Cluster.Placed (numShards : ℤ) (c : Cluster) : Prop where
  numShards_eq : c.shardMap.numShards = numShards
  servers : ∀ name, (c.servers name).Placed numShards

variable {N : ℤ}

namespace Server.Placed

variable {srv srv' : Server} {st : ShardMapState} {e : Event}

theorem makeKvServer (name : String) (now : ℤ) : (makeKvServer name now).Placed N where
  stored := by simp [entry, Kv.makeKvServer]
  pending := by simp [Pending, Kv.makeKvServer, Handler.values]

/-- What a server lists for a shard is of that shard. -/
theorem of_mem_contents (hp : srv.Placed N) {shard : ℤ} {visits : List Visit} {values : List GetShardValue}
    (h : srv.getShardContents shard visits = .ok values) {v : GetShardValue} (hv : v ∈ values) :
    getShardForKey v.key N = shard := by
  obtain ⟨w, -, obj, hobj, rfl⟩ := entry_of_mem_contents h hv
  exact hp.stored shard w.key obj hobj

/-- An event keeps the keys in place, if the values it brings are of the shard they were
requested for. -/
theorem step (hp : srv.Placed N) (hN : 0 < N) (hN' : N < 2 ^ 31) (hst : st.numShards = N)
    (h : srv.step st e = some srv')
    (hreply : ∀ c f vs now shard rest, e = .fetchReply c f (some vs) now →
      (srv.handlers c).fetches[f]? = some ⟨shard, rest⟩ → ∀ v ∈ vs, getShardForKey v.key N = shard) :
    srv'.Placed N where
  stored := by
    intro shard key obj hobj
    cases entry_cases h shard key with
    | same heq => exact hp.stored shard key obj (heq ▸ hobj)
    | set hs =>
      rw [(shardOf_eq_ok_iff.mp hs).1, hst, int32_getShardForKey key hN hN']
    | install _ _ hshard => rw [hshard, hst, int32_getShardForKey key hN hN']
    | delete _ hnone | expire _ hnone | drop _ hnone | create _ hnone => simp [hnone] at hobj
  pending := by
    intro shard v hv
    rcases pending_cases h hv with hv | ⟨c, f, vs, node, rest, he, hf, hmem⟩
    · exact hp.pending shard v hv
    · exact hreply c f vs _ shard _ he hf v hmem

end Server.Placed

namespace Cluster.Placed

variable {c c' : Cluster} {l : Label}

theorem init (h : c.Init) (hN : c.shardMap.numShards = N) : c.Placed N where
  numShards_eq := hN
  servers := by
    intro name
    obtain ⟨now, hname⟩ := h name
    rw [hname]
    exact Server.Placed.makeKvServer name now

/-- One server acts. -/
theorem act (hp : c.Placed N) (hN : 0 < N) (hN' : N < 2 ^ 31) {name : String} {e : Event} (h : c.act name e = some c')
    (hreply : ∀ caller f vs now shard rest, e = .fetchReply caller f (some vs) now →
      ((c.servers name).handlers caller).fetches[f]? = some ⟨shard, rest⟩ →
      ∀ v ∈ vs, getShardForKey v.key N = shard) : c'.Placed N where
  numShards_eq := (act_cases h name).1 ▸ hp.numShards_eq
  servers := by
    intro other
    rcases (act_cases h other).2 with hsame | ⟨rfl, hstep⟩
    · exact hsame ▸ hp.servers other
    · exact (hp.servers other).step hN hN' hp.numShards_eq hstep hreply

/-- **One step keeps every key in place.** -/
theorem step (hp : c.Placed N) (hN : 0 < N) (hN' : N < 2 ^ 31) (hl : ∀ st, l = .update st → st.numShards = N)
    (h : c.step l = some c') : c'.Placed N := by
  cases l with
  | update st =>
    obtain rfl : _ = c' := Option.some.inj h
    exact ⟨hl st rfl, hp.servers⟩
  | event name e =>
    obtain ⟨he, h⟩ := step_event_iff.mp h
    refine hp.act hN hN' h ?_
    rintro _ _ _ _ _ _ rfl
    cases he
  | fail name caller f now =>
    refine hp.act hN hN' h ?_
    rintro _ _ _ _ _ _ he
    cases he
  | ask name caller f visits finish received =>
    obtain ⟨shard, node, rest, c₁, hf, h₁, -, h₂⟩ := step_ask_iff.mp h
    have hp₁ : c₁.Placed N := by
      refine hp.act hN hN' h₁ ?_
      rintro _ _ _ _ _ _ he
      cases he
    refine hp₁.act hN hN' h₂ ?_
    intro caller' f' vs now' shard' rest' he hf' v hv
    obtain ⟨rfl, hans⟩ := reply_of_ask hf h₁ he hf'
    exact (hp.servers node).of_mem_contents hans hv

/-- The whole run does. -/
theorem of_run (hp : c.Placed N) (hN : 0 < N) (hN' : N < 2 ^ 31) {ls : List Label}
    (hls : ∀ st, Label.update st ∈ ls → st.numShards = N) (h : run Cluster.step c ls = some c') : c'.Placed N :=
  run_invariant (fun _ _ _ hp hl hs => hp.step hN hN' hl hs)
    (along_of_forall_mem (Q := fun l : Label => ∀ st, l = .update st → st.numShards = N) c
      fun _ hl st he => hls st (he ▸ hl)) hp h

end Cluster.Placed

/-- **Key placement.** Wherever a cluster arrives whose shard maps all have the same number
of shards, between 1 and `2 ^ 31 - 1`: every stored key is in the shard it hashes to; a
served `GetShardContents` lists keys of its shard only, each at most once; and an install
stores its value in the shard the snapshot was requested for, and nowhere else. -/
theorem key_placement (hN : 0 < N) (hN' : N < 2 ^ 31) {c₀ c : Cluster} (h₀ : c₀.Init)
    (hst₀ : c₀.shardMap.numShards = N) (ls : List Label) (hls : ∀ st, Label.update st ∈ ls → st.numShards = N)
    (h : run Cluster.step c₀ ls = some c) :
    (∀ name shard kvShard, (c.servers name).shards.lookup shard = some kvShard →
      ∀ key ∈ kvShard.data, getShardForKey key N = shard) ∧
    (∀ name shard visits finish values srv', (c.servers name).step c.shardMap (.getShardContents shard visits finish) =
      some srv' → (c.servers name).getShardContents shard visits = .ok values →
      (∀ v ∈ values, getShardForKey v.key N = shard) ∧ (values.map GetShardValue.key).Nodup) ∧
    ∀ name caller shard v values now srv', (c.servers name).handlers caller = .installing ((shard, v) :: values) →
      (c.servers name).step c.shardMap (.install caller now) = some srv' →
      ∃ kvShard, (c.servers name).shards.lookup shard = some kvShard ∧
        srv'.shards = (c.servers name).shards.insert shard (kvShard.set v.key v.value v.ttlMsRemaining now) := by
  have hp := (Cluster.Placed.init h₀ hst₀).of_run hN hN' hls h
  refine ⟨fun name shard kvShard hs key hkey => ?_, fun name shard visits finish values srv' hserved hans =>
    ⟨fun v hv => (hp.servers name).of_mem_contents hans hv, ?_⟩,
    fun name caller shard v values now srv' hh hinst => ?_⟩
  · obtain ⟨obj, hobj⟩ := Option.isSome_iff_exists.mp (AList.lookup_isSome.mpr hkey)
    exact (hp.servers name).stored shard key obj ((Server.entry_of_lookup hs key).trans hobj)
  · obtain ⟨⟨-, -, hit⟩, -⟩ := Server.step_getShardContents_iff.mp hserved
    unfold Server.getShardContents at hans
    cases hs : (c.servers name).shards.lookup shard with
    | none => simp [hs] at hans
    | some kvShard =>
      rw [hs, Except.ok.injEq] at hans
      exact hans ▸ KvShard.contents_keys_nodup (hit kvShard hs)
  · obtain ⟨s, w, vs, kvShard, hh', hs, -, rfl⟩ := Server.step_install_iff.mp hinst
    rw [hh, Handler.installing.injEq, List.cons.injEq, Prod.mk.injEq] at hh'
    obtain ⟨⟨rfl, rfl⟩, rfl⟩ := hh'
    have hplace : getShardForKey v.key N = shard :=
      (hp.servers name).pending shard v ⟨caller, by rw [hh]; exact List.mem_cons_self ..⟩
    rw [hp.numShards_eq, int32_getShardForKey v.key hN hN', hplace] at hs
    refine ⟨kvShard, hs, ?_⟩
    rw [hp.numShards_eq, int32_getShardForKey v.key hN hN', hplace]

/-- Node `n2` has come to host the only shard and has stored a key; `n1` has fetched it. -/
def oneCopied : List Label :=
  [.event "n2" (.startUpdate .makeKvServer), .event "n2" (.addShard .makeKvServer 1 0),
   .ask "n2" .makeKvServer 0 [] 1 2, .event "n2" (.fetchGiveUp .makeKvServer 0), .event "n2" (.relock .makeKvServer),
   .event "n2" (.finishUpdate .makeKvServer), .event "n2" (.set "k" "v" 1000 5),
   .event "n1" (.startUpdate .makeKvServer), .event "n1" (.addShard .makeKvServer 1 0),
   .ask "n1" .makeKvServer 0 [⟨"k", 6, 6⟩] 7 8, .event "n1" (.relock .makeKvServer)]

/-- Where this run arrives. -/
def copiedCluster : Cluster :=
  (run Cluster.step (.fresh (.oneShard ["n1", "n2"] ["n1", "n2"])) oneCopied).get (by decide +kernel)

theorem key_placement_oneCopied :
    ∃ srv', (copiedCluster.servers "n1").step copiedCluster.shardMap (.install .makeKvServer 9) = some srv' ∧
      ∃ kvShard, (copiedCluster.servers "n1").shards.lookup 1 = some kvShard ∧
        srv'.shards = (copiedCluster.servers "n1").shards.insert 1 (kvShard.set "k" "v" 1000 9) := by
  have hrun : run Cluster.step (.fresh (.oneShard ["n1", "n2"] ["n1", "n2"])) oneCopied = some copiedCluster :=
    run_eq_some_get _ _
  refine ⟨_, (Option.some_get (by decide +kernel)).symm, ?_⟩
  exact (key_placement (by decide) (by decide) (Cluster.fresh_init _) rfl oneCopied (by simp [oneCopied])
    hrun).2.2 "n1" .makeKvServer 1 ⟨"k", "v", 1000⟩ [] 9 _ (by decide +kernel) (Option.some_get _).symm

end Cs426.Kv
