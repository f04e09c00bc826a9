import Cs426.Kv.Migration

/-!
# Copying a shard to new nodes

What an update that gives a shard to new nodes, any number of them at once, does to the keys
of the shard: `Cs426.Kv.Migration` for every key that a retained host has in the end. A
retained host stores in the end only what it stored when the update began (`Undisturbed`),
and when the update began the hosts agreed on the key (`Cluster.Agree`). They may have stored
it at different times; what counts is that none of them lets it expire before the moment at
which the nodes are looked at, or all do.

## What is proved

* `shard_copy_complete` — if nobody is answered by a node that is still copying, every new
  node ends up with every unexpired key of the retained hosts.
* `shard_copy_incomplete` — if somebody is, it need not: the empty placeholder of one new
  node is taken for the contents of the shard by another.
-/

namespace Cs426.Kv

open Cs426.Machine

variable {N : ℤ} {c c' : Cluster} {l : Label}

/-- The value stored under a key and not expired at the moment `t`. -/
def Server.valueAt (srv : Server) (shard : ℤ) (key : String) (t : ℤ) : Option String :=
  ((srv.entry shard key).filter (live t)).map KvObject.value

theorem Server.valueAt_eq_some_iff {srv : Server} {shard : ℤ} {key value : String} {t : ℤ} :
    srv.valueAt shard key t = some value ↔ ∃ obj, srv.entry shard key = some obj ∧ obj.value = value ∧
      live t obj = true := by
  simp only [valueAt, Option.map_eq_some_iff, Option.filter_eq_some_iff]
  constructor
  · rintro ⟨obj, ⟨hobj, hl⟩, hv⟩
    exact ⟨obj, hobj, hv, hl⟩
  · rintro ⟨obj, hobj, hv, hl⟩
    exact ⟨obj, ⟨hobj, hl⟩, hv⟩

/-- The hosts of the shard agree on what they have under the key at the moment `t`. -/
def Cluster.Agree (c : Cluster) (shard : ℤ) (key : String) (t : ℤ) : Prop :=
  ∀ p q, (c.servers p).Hosts shard → (c.servers q).Hosts shard →
    (c.servers p).valueAt shard key t = (c.servers q).valueAt shard key t

/-! ### Retained hosts -/

/-- A host that keeps the shard gets no copy of it: it stores what it stored in `srv₀`, as
far as `cleanup` has not removed it. -/
structure Undisturbed (shard : ℤ) (srv₀ srv : Server) : Prop where
  hosts : srv.Hosts shard
  noFetch : ∀ rest, ¬ srv.Fetching shard rest
  noPending : ∀ v, ¬ srv.Pending shard v
  sub : ∀ key obj, srv.entry shard key = some obj → srv₀.entry shard key = some obj

theorem Undisturbed.step {shard : ℤ} {srv₀ srv srv' : Server} {st : ShardMapState} {e : Event}
    (hu : Undisturbed shard srv₀ srv) (hN : 0 < N) (hN' : N < 2 ^ 31) (hst : st.numShards = N) (hp : srv.Placed N)
    (hw : srv.Wf) (hmem : shard ∈ st.fetchShards srv.nodeName) (he : e.isWrite = false)
    (h : srv.step st e = some srv') : Undisturbed shard srv₀ srv' where
  hosts := by
    rcases Server.hosts_cases h shard with hiff | ⟨_, -, hiff⟩ | ⟨_, _, -, hs⟩
    · exact hiff.mpr hu.hosts
    · exact hiff.mpr ⟨hu.hosts, hmem⟩
    · exact hs
  noFetch := by
    intro rest hf
    rcases Server.fetching_cases h hf with hf | ⟨node, hf⟩ | ⟨c, _, -, htodo, -⟩
    · exact hu.noFetch _ hf
    · exact hu.noFetch _ hf
    · exact (hw.fresh c).2 _ htodo hu.hosts
  noPending := by
    intro v hv
    rcases Server.pending_cases h hv with hv | ⟨c, f, _, _, _, -, hf, -⟩
    · exact hu.noPending v hv
    · exact hu.noFetch _ ⟨c, List.mem_of_getElem? hf⟩
  sub := by
    intro key obj hobj
    cases Server.entry_cases h shard key with
    | same heq => exact hu.sub key obj (heq ▸ hobj)
    | set | delete => cases he
    | @install c now s v values hh hkey hshard =>
      -- the value would have been requested for this very shard
      have hv : srv.Pending s v := ⟨c, by rw [hh]; exact List.mem_cons_self ..⟩
      have hplace := hp.pending s v hv
      rw [hst, int32_getShardForKey key hN hN', ← hkey, hplace] at hshard
      exact absurd (hshard ▸ hv) (hu.noPending v)
    | expire _ hnone | drop _ hnone | create _ hnone => simp [hnone] at hobj

theorem Undisturbed.act {shard : ℤ} {srv₀ : Server} {name q : String} {e : Event} (hc : c.Sound N) (hN : 0 < N)
    (hN' : N < 2 ^ 31) (hmem : shard ∈ c.shardMap.fetchShards q) (he : e.isWrite = false)
    (h : c.act name e = some c') (hu : Undisturbed shard srv₀ (c.servers q)) :
    Undisturbed shard srv₀ (c'.servers q) := by
  rcases (Cluster.act_cases h q).2 with hsame | ⟨rfl, hstep⟩
  · exact hsame ▸ hu
  · exact hu.step hN hN' hc.numShards_eq (hc.servers q) (hc.wf q) ((hc.named q).symm ▸ hmem) he hstep

theorem Undisturbed.of_step {shard : ℤ} {srv₀ : Server} {q : String} {st : ShardMapState} (hc : c.Sound N)
    (hN : 0 < N) (hN' : N < 2 ^ 31) (hmap : c.shardMap = st) (hmem : shard ∈ st.fetchShards q) (hl : l.Quiet st)
    (h : c.step l = some c') (hu : Undisturbed shard srv₀ (c.servers q)) :
    Undisturbed shard srv₀ (c'.servers q) := by
  subst hmap
  cases l with
  | update =>
    obtain rfl : _ = c' := Option.some.inj h
    exact hu
  | event name e => exact hu.act hc hN hN' hmem hl (Cluster.step_event_iff.mp h).2
  | fail => exact absurd hl id
  | ask name caller f visits finish received =>
    obtain ⟨shard', node, rest, c₁, -, h₁, -, h₂⟩ := Cluster.step_ask_iff.mp h
    have hc₁ : c₁.Sound N := hc.step hN hN' (by rintro _ ⟨⟩) (Cluster.step_event_iff.mpr ⟨rfl, h₁⟩)
    have hmap₁ := (Cluster.act_cases h₁ node).1
    exact (hu.act hc hN hN' hmem rfl h₁).act hc₁ hN hN' (hmap₁.symm ▸ hmem) rfl h₂

/-- What a retained host stores after a run, it stored when the run began. -/
theorem Undisturbed.of_run {shard : ℤ} {q : String} {st : ShardMapState} {ls : List Label} (hc : c.Sound N)
    (hN : 0 < N) (hN' : N < 2 ^ 31) (hst : st.numShards = N) (hmap : c.shardMap = st)
    (hmem : shard ∈ st.fetchShards q) (hidle : c.Idle) (hhost : (c.servers q).Hosts shard)
    (hls : ∀ l ∈ ls, l.Quiet st) (h : run Cluster.step c ls = some c') :
    Undisturbed shard (c.servers q) (c'.servers q) := by
  have hstart : Undisturbed shard (c.servers q) (c.servers q) :=
    ⟨hhost, fun _ => hidle.not_fetching, fun _ => hidle.not_pending, fun _ _ hobj => hobj⟩
  have hstep : ∀ (d : Cluster) (l : Label) (d' : Cluster),
      (d.Sound N ∧ d.shardMap = st) ∧ Undisturbed shard (c.servers q) (d.servers q) →
      l.Quiet st → d.step l = some d' →
      (d'.Sound N ∧ d'.shardMap = st) ∧ Undisturbed shard (c.servers q) (d'.servers q) := by
    rintro d l d' ⟨⟨hd, hdmap⟩, hu⟩ hl hs
    exact ⟨⟨hd.step_quiet hN hN' hst hl hs, hl.shardMap_eq hdmap hs⟩, hu.of_step hd hN hN' hdmap hmem hl hs⟩
  exact (run_invariant hstep (along_of_forall_mem c hls) ⟨⟨hc, hmap⟩, hstart⟩ h).2

/-! ### Clusters with a single shard -/

theorem ShardMapState.mem_fetchShards_oneShard {names hosts : List String} {name : String} {shard : ℤ} :
    shard ∈ (oneShard names hosts).fetchShards name ↔ name ∈ hosts ∧ shard = 1 := by
  have hnodes : ∀ s, (oneShard names hosts).nodesForShard s = if s = 1 then hosts else [] := by
    intro s
    by_cases hs : s = 1
    · subst hs
      rfl
    · rw [if_neg hs, nodesForShard, oneShard, AList.lookup_eq_none.mpr]
      rw [AList.mem_keys, AList.keys_singleton, List.mem_singleton]
      exact hs
  rw [mem_fetchShards]
  constructor
  · rintro ⟨s, hs, rfl⟩
    rw [hnodes] at hs
    split_ifs at hs with h1
    · subst h1
      exact ⟨hs, rfl⟩
    · simp at hs
  · rintro ⟨hname, rfl⟩
    exact ⟨1, by rwa [hnodes, if_pos rfl], rfl⟩

/-- A shard with a single key, stored at zero. -/
theorem KvShard.single_stored {key value : String} {ttlMs : ℤ} (k : String) (obj : KvObject)
    (h : (makeKvShard.set key value ttlMs 0).data.lookup k = some obj) : obj.storedTime ≤ 0 := by
  rw [lookup_set] at h
  split_ifs at h
  · rw [← Option.some.inj h]
  · simp [makeKvShard] at h

namespace Cluster

/-- The nodes `hosts` host the only shard, with the contents `kvShard`; every clock is at
zero. -/
def hosting (names hosts : List String) (kvShard : KvShard) : Cluster where
  shardMap := .oneShard names hosts
  servers := fun name =>
    if name ∈ hosts then ⟨name, (∅ : AList fun _ : ℤ => KvShard).insert 1 kvShard, fun _ => .idle, 0⟩
    else makeKvServer name 0

variable {names hosts : List String} {kvShard : KvShard}

theorem hosting_idle : (hosting names hosts kvShard).Idle := by
  intro name caller
  by_cases hname : name ∈ hosts <;> simp [hosting, hname, makeKvServer]

theorem hosting_now (name : String) : ((hosting names hosts kvShard).servers name).now = 0 := by
  by_cases hname : name ∈ hosts <;> simp [hosting, hname, makeKvServer]

theorem hosting_of_not_mem {name : String} (h : name ∉ hosts) :
    (hosting names hosts kvShard).servers name = makeKvServer name 0 := if_neg h

theorem hosting_entry (name : String) (shard : ℤ) (key : String) :
    ((hosting names hosts kvShard).servers name).entry shard key =
      if name ∈ hosts ∧ shard = 1 then kvShard.data.lookup key else none := by
  by_cases hname : name ∈ hosts
  · simp only [hosting, hname, if_true, true_and, Server.entry, Server.entry_insert, AList.lookup_empty,
      Option.bind_none]
  · simp [hosting, hname, makeKvServer, Server.entry]

theorem hosting_hosts {name : String} {shard : ℤ} :
    ((hosting names hosts kvShard).servers name).Hosts shard ↔ name ∈ hosts ∧ shard = 1 := by
  by_cases hname : name ∈ hosts
  · simp only [hosting, hname, if_true, true_and, Server.Hosts, AList.mem_insert, AList.notMem_empty, or_false]
  · simp [hosting, hname, makeKvServer, Server.Hosts]

theorem hosting_sound (h : ∀ key obj, kvShard.data.lookup key = some obj → obj.storedTime ≤ 0) :
    (hosting names hosts kvShard).Sound 1 where
  numShards_eq := rfl
  named := by
    intro name
    by_cases hname : name ∈ hosts <;> simp [hosting, hname, makeKvServer]
  servers := by
    refine fun name => ⟨fun shard key obj hobj => ?_, fun shard v hv => absurd hv hosting_idle.not_pending⟩
    rw [hosting_entry] at hobj
    split_ifs at hobj with hs
    rw [hs.2, getShardForKey, Int.tmod_one]
    rfl
  wf := by
    refine fun name => ⟨fun shard key obj hobj => ?_, fun c _ hc => ?_, fun c => ?_⟩
    · rw [hosting_entry] at hobj
      split_ifs at hobj
      rw [hosting_now]
      exact h key obj hobj
    · simp [hosting_idle name c, Handler.holdsLock] at hc
    · simp [hosting_idle name c, Handler.todo]

theorem hosting_settled : (hosting names hosts kvShard).Settled :=
  ⟨hosting_idle, fun _ _ => hosting_hosts.trans ShardMapState.mem_fetchShards_oneShard.symm⟩

/-- The hosts agree. -/
theorem hosting_agree (shard : ℤ) (key : String) (t : ℤ) : (hosting names hosts kvShard).Agree shard key t := by
  intro p q hp hq
  rw [Server.valueAt, Server.valueAt, hosting_entry, hosting_entry, if_pos (hosting_hosts.mp hp),
    if_pos (hosting_hosts.mp hq)]

end Cluster

/-- The servers that take part in a step. -/
def Label.parties (c : Cluster) : Label → List String
  | .update _ => []
  | .event name _ | .fail name .. => [name]
  | .ask name caller f .. => name :: ((c.servers name).nextNode caller f).toList.map Prod.snd

theorem Cluster.servers_of_not_party {name : String} (hl : name ∉ l.parties c) (h : c.step l = some c') :
    c'.servers name = c.servers name := by
  have hact : ∀ {c c' : Cluster} {other : String} {e : Event}, c.act other e = some c' → name ≠ other →
      c'.servers name = c.servers name := by
    intro c c' other e h hne
    obtain ⟨srv, -, rfl⟩ := act_iff.mp h
    exact setServer_of_ne c hne srv
  cases l with
  | update st =>
    obtain rfl : _ = c' := Option.some.inj h
    rfl
  | event => exact hact (step_event_iff.mp h).2 (List.ne_of_not_mem_cons hl)
  | fail => exact hact h (List.ne_of_not_mem_cons hl)
  | ask other caller f =>
    obtain ⟨shard, node, rest, c₁, hf, h₁, -, h₂⟩ := step_ask_iff.mp h
    have hnext := nextNode_eq_some_iff.mpr ⟨rest, hf⟩
    simp only [Label.parties, hnext, Option.toList_some, List.map_cons, List.map_nil, List.mem_cons,
      List.not_mem_nil, or_false, not_or] at hl
    exact (hact h₂ hl.1).trans (hact h₁ hl.2)

/-- Who never takes part in a run stays as it was. -/
theorem Cluster.servers_of_run {acting : List String} {ls : List Label}
    (hls : Along Cluster.step (fun c l => ∀ name ∈ l.parties c, name ∈ acting) c ls)
    (h : run Cluster.step c ls = some c') {name : String} (hname : name ∉ acting) :
    c'.servers name = c.servers name :=
  run_invariant (I := fun d : Cluster => d.servers name = c.servers name)
    (fun _ _ _ hd hl hs => (servers_of_not_party (fun hmem => hname (hl name hmem)) hs).trans hd) hls rfl h

/-- An update of the map of a single shard has been handled when the nodes of the map have
done so, the others hosting nothing and taking no part. -/
theorem Cluster.settled_of_update {names hosts : List String} {ls : List Label} (hidle : c.Idle)
    (hout : ∀ name, name ∉ names → (c.servers name).shards = ∅) (hsub : ∀ name ∈ hosts, name ∈ names)
    (hquiet : ∀ l ∈ ls, l.Quiet (.oneShard names hosts))
    (hls : Along Cluster.step (fun c l => ∀ name ∈ l.parties c, name ∈ names) c
      (.update (.oneShard names hosts) :: ls))
    (h : run Cluster.step c (.update (.oneShard names hosts) :: ls) = some c')
    (hin : ∀ name ∈ names, (∀ caller ∈ [Caller.makeKvServer, .shardMapListenLoop],
      (c'.servers name).handlers caller = .idle) ∧ (c'.servers name).shards.keys = if name ∈ hosts then [1] else []) :
    c'.Settled := by
  have hmap : c'.shardMap = .oneShard names hosts := by
    obtain ⟨c₁, h₁, h⟩ := (run_cons_iff _).mp h
    exact Label.shardMap_of_run hquiet (by rw [← Option.some.inj h₁]) h
  constructor
  · intro name caller
    by_cases hname : name ∈ names
    · exact (hin name hname).1 caller (by cases caller <;> simp)
    · rw [servers_of_run hls h hname, hidle]
  · intro name shard
    rw [hmap, ShardMapState.mem_fetchShards_oneShard, Server.Hosts]
    by_cases hname : name ∈ names
    · rw [AList.mem_keys, (hin name hname).2]
      split_ifs with hhost <;> simp [hhost]
    · have hnot : name ∉ hosts := fun hhost => hname (hsub name hhost)
      rw [servers_of_run hls h hname, hout name hname]
      simp [hnot]

theorem Cluster.before_of_run {acting : List String} {ls : List Label} {τ : ℤ}
    (hls : Along Cluster.step (fun c l => ∀ name ∈ l.parties c, name ∈ acting) c ls)
    (h : run Cluster.step c ls = some c') (hout : ∀ name, name ∉ acting → (c.servers name).now ≤ τ)
    (hin : ∀ name ∈ acting, (c'.servers name).now ≤ τ) : c'.Before τ := by
  intro name
  by_cases hname : name ∈ acting
  · exact hin name hname
  · rw [servers_of_run hls h hname]
    exact hout name hname

/-! ### The main result -/

/-- **A shard copy is complete** if nobody who fetches the shard is answered by a node that
is itself copying it. An update to a valid map gives `shard` to new nodes and leaves it with
some of its hosts. However the nodes handle the update, once all have done so every new node
has every key that a retained host has and that has not expired, with the same value, if the
hosts agreed on this key when the update began. -/
theorem shard_copy_complete (hN : 0 < N) (hN' : N < 2 ^ 31) {st : ShardMapState} (hvalid : st.isValid = true)
    (hst : st.numShards = N) {c₀ c : Cluster} (h₀ : c₀.Sound N) (hidle : c₀.Idle) {shard : ℤ} (ls : List Label)
    (hls : ∀ l ∈ ls, l.Quiet st)
    (hwhole : Along Cluster.step (Label.FromWhole shard) c₀ (.update st :: ls))
    (h : run Cluster.step c₀ (.update st :: ls) = some c) (hsettled : c.Settled) :
    ∀ p q, p ∈ st.nodesForShard shard → ¬ (c₀.servers p).Hosts shard →
      q ∈ st.nodesForShard shard → (c₀.servers q).Hosts shard →
      ∀ key value t, (∀ name, (c.servers name).now ≤ t) → c₀.Agree shard key t →
        (c.servers q).valueAt shard key t = some value → (c.servers p).valueAt shard key t = some value := by
  intro p q hp _ hq hqhost key value t ht hagree hvalue
  obtain ⟨c₁, h₁, h⟩ := (run_cons_iff _).mp h
  have hwhole₁ := hwhole.2 c₁ h₁
  obtain rfl : { c₀ with shardMap := st } = c₁ := Option.some.inj h₁
  have hs₁ : Cluster.Sound N { c₀ with shardMap := st } := h₀.step hN hN' (by rintro _ ⟨⟩; exact hst) h₁
  have hmem : ∀ {name}, shard ∈ st.fetchShards name ↔ name ∈ st.nodesForShard shard :=
    ShardMapState.mem_fetchShards_iff hvalid (hst ▸ hN')
  -- what the retained host has in the end, it had when the update began
  obtain ⟨obj, hobj, rfl, hlive⟩ := Server.valueAt_eq_some_iff.mp hvalue
  have hobj₀ : (c₀.servers q).entry shard key = some obj :=
    (Undisturbed.of_run hs₁ hN hN' hst rfl (hmem.mpr hq) hidle hqhost hls h).sub key obj hobj
  -- and so had the others
  have hI : CopyInv N ⟨shard, key, obj.value, t⟩ st
      (fun name => name ∈ st.nodesForShard shard ∧ (c₀.servers name).Hosts shard) { c₀ with shardMap := st } := by
    refine CopyInv.init hs₁ rfl hidle (fun _ => Iff.rfl) fun name hname => ?_
    have hsame := hagree name q hname.2 hqhost
    rw [Server.valueAt_eq_some_iff.mpr ⟨obj, hobj₀, rfl, hlive⟩] at hsame
    obtain ⟨obj', hobj', hv, hl⟩ := Server.valueAt_eq_some_iff.mp hsame
    exact ⟨obj', hobj', hv, hl⟩
  have hr : Retains N st ⟨shard, key, obj.value, t⟩
      (fun name => name ∈ st.nodesForShard shard ∧ (c₀.servers name).Hosts shard) :=
    ⟨hN, hN', hst, hvalid, (h₀.servers q).stored shard key obj hobj₀, fun _ hname => hname.1, q, hq, hqhost⟩
  have hI' := hI.of_run hr (fun _ _ _ _ _ _ _ node _ hfrom hnext => .inr (hfrom node hnext)) hls hwhole₁ ht h
  have hphost : (c.servers p).Hosts shard := by
    rw [hsettled.hosts, hI'.map]
    exact hmem.mpr hp
  obtain ⟨obj', hobj', hv, hl⟩ := hI'.final hsettled.idle hp hphost
  exact Server.valueAt_eq_some_iff.mpr ⟨obj', hobj', hv, hl⟩

instance (srv : Server) (shard : ℤ) : Decidable (srv.Copying shard) :=
  decidable_of_iff (∃ caller ∈ [Caller.makeKvServer, .shardMapListenLoop],
      (∃ fetch ∈ (srv.handlers caller).fetches, fetch.shard = shard) ∨
      ∃ v ∈ (srv.handlers caller).values, v.1 = shard) <| by
    constructor
    · rintro ⟨caller, -, ⟨⟨_, rest⟩, hf, rfl⟩ | ⟨⟨_, v⟩, hv, rfl⟩⟩
      · exact .inl ⟨rest, caller, hf⟩
      · exact .inr ⟨v, caller, hv⟩
    · rintro (⟨rest, caller, hf⟩ | ⟨v, caller, hv⟩)
      · exact ⟨caller, by cases caller <;> simp, .inl ⟨_, hf, rfl⟩⟩
      · exact ⟨caller, by cases caller <;> simp, .inr ⟨_, hv, rfl⟩⟩

instance (shard : ℤ) (c : Cluster) : ∀ l : Label, Decidable (l.FromWhole shard c)
  | .ask name caller f _ _ _ =>
    decidable_of_iff (∀ p ∈ (c.servers name).nextNode caller f, p.1 = shard → ¬ (c.servers p.2).Copying shard)
      ⟨fun h node hnode => h _ hnode rfl, by rintro h ⟨_, node⟩ hp rfl; exact h node hp⟩
  | .update _ | .event .. | .fail .. => .isTrue trivial

/-- What the only host of the shard stores. -/
def oneKey : KvShard := makeKvShard.set "k" "v" 1000 0

/-- `n2` and `n3` handle the update one after the other. -/
def oneByOne : List Label :=
  [.event "n2" (.startUpdate .shardMapListenLoop), .event "n2" (.addShard .shardMapListenLoop 1 2),
   .ask "n2" .shardMapListenLoop 0 [] 1 1, .ask "n2" .shardMapListenLoop 0 [⟨"k", 1, 1⟩] 1 2,
   .event "n2" (.relock .shardMapListenLoop), .event "n2" (.install .shardMapListenLoop 3),
   .event "n2" (.finishUpdate .shardMapListenLoop), .event "n1" (.startUpdate .shardMapListenLoop),
   .event "n3" (.startUpdate .shardMapListenLoop), .event "n3" (.addShard .shardMapListenLoop 1 1),
   .ask "n3" .shardMapListenLoop 0 [⟨"k", 4, 4⟩] 4 5, .event "n3" (.relock .shardMapListenLoop),
   .event "n3" (.install .shardMapListenLoop 6), .event "n3" (.finishUpdate .shardMapListenLoop)]

/-- `n2` and `n3` handle the update at the same time: `n3` has created its shard when `n2`
asks it. -/
def bothAtOnce : List Label :=
  [.event "n2" (.startUpdate .shardMapListenLoop), .event "n2" (.addShard .shardMapListenLoop 1 2),
   .event "n3" (.startUpdate .shardMapListenLoop), .event "n3" (.addShard .shardMapListenLoop 1 0),
   .ask "n2" .shardMapListenLoop 0 [] 1 1, .event "n2" (.relock .shardMapListenLoop),
   .event "n2" (.finishUpdate .shardMapListenLoop), .ask "n3" .shardMapListenLoop 0 [⟨"k", 1, 1⟩] 1 2,
   .event "n3" (.relock .shardMapListenLoop), .event "n3" (.install .shardMapListenLoop 3),
   .event "n3" (.finishUpdate .shardMapListenLoop), .event "n1" (.startUpdate .shardMapListenLoop)]

/-- `n1` hosts the shard. -/
def oneHost : Cluster := .hosting ["n1", "n2", "n3"] ["n1"] oneKey

/-- `n2` and `n3` are to host it too. -/
def threeHosts : ShardMapState := .oneShard ["n1", "n2", "n3"] ["n1", "n2", "n3"]

/-- Where the update leads if it is handled one by one. -/
def copiedOneByOne : Cluster := (run Cluster.step oneHost (.update threeHosts :: oneByOne)).get (by decide +kernel)

/-- Where it leads if it is handled by both at once. -/
def copiedAtOnce : Cluster := (run Cluster.step oneHost (.update threeHosts :: bothAtOnce)).get (by decide +kernel)

theorem copiedOneByOne_run : run Cluster.step oneHost (.update threeHosts :: oneByOne) = some copiedOneByOne :=
  run_eq_some_get _ _

theorem copiedAtOnce_run : run Cluster.step oneHost (.update threeHosts :: bothAtOnce) = some copiedAtOnce :=
  run_eq_some_get _ _

theorem oneHost_settled {ls : List Label} (h : run Cluster.step oneHost (.update threeHosts :: ls) = some c)
    (hquiet : ∀ l ∈ ls, l.Quiet threeHosts)
    (hls : Along Cluster.step (fun c l => ∀ name ∈ l.parties c, name ∈ ["n1", "n2", "n3"]) oneHost
      (.update threeHosts :: ls))
    (hin : ∀ name ∈ ["n1", "n2", "n3"], (∀ caller ∈ [Caller.makeKvServer, .shardMapListenLoop],
      (c.servers name).handlers caller = .idle) ∧
      (c.servers name).shards.keys = if name ∈ ["n1", "n2", "n3"] then [1] else [])
    (hnow : ∀ name ∈ ["n1", "n2", "n3"], (c.servers name).now ≤ 10) : c.Settled ∧ c.Before 10 := by
  constructor
  · refine Cluster.settled_of_update Cluster.hosting_idle (fun name hname => ?_) (fun _ h => h) hquiet hls h hin
    rw [Cluster.hosting_of_not_mem fun hmem => hname (by simp_all)]
    rfl
  · exact Cluster.before_of_run hls h (fun name _ => (Cluster.hosting_now name).trans_le (by decide)) hnow

theorem shard_copy_complete_oneByOne : (copiedOneByOne.servers "n3").valueAt 1 "k" 10 = some "v" := by
  have hquiet : ∀ l ∈ oneByOne, l.Quiet threeHosts := by simp [oneByOne, Label.Quiet, Event.isWrite]
  have hend := oneHost_settled copiedOneByOne_run hquiet (by decide +kernel) (by decide +kernel)
    (by decide +kernel)
  have hvalid : threeHosts.isValid = true := by decide +kernel
  exact shard_copy_complete (by decide) (by decide) hvalid rfl
    (Cluster.hosting_sound KvShard.single_stored) Cluster.hosting_idle oneByOne
    hquiet (by decide +kernel) copiedOneByOne_run hend.1
    "n3" "n1" (by decide +kernel) (by decide +kernel) (by decide +kernel) (by decide +kernel) "k" "v" 10 hend.2
    (Cluster.hosting_agree 1 "k" 10) (by decide +kernel)

/-- **A shard copy can miss keys.** Two nodes gain the shard at once, the only host stays, no
call fails and no client writes; once all have handled the update, `n2` has nothing of what
the retained host `n1` has. -/
theorem shard_copy_incomplete :
    threeHosts.isValid = true ∧ oneHost.Sound 1 ∧ oneHost.Idle ∧
    (∀ key t, oneHost.Agree 1 key t) ∧
    (∀ l ∈ bothAtOnce, l.Quiet threeHosts) ∧
    run Cluster.step oneHost (.update threeHosts :: bothAtOnce) = some copiedAtOnce ∧
    copiedAtOnce.Settled ∧ copiedAtOnce.Before 10 ∧
    (copiedAtOnce.servers "n1").valueAt 1 "k" 10 = some "v" ∧
    (copiedAtOnce.servers "n3").valueAt 1 "k" 10 = some "v" ∧
    (copiedAtOnce.servers "n2").valueAt 1 "k" 10 = none := by
  have hquiet : ∀ l ∈ bothAtOnce, l.Quiet threeHosts := by simp [bothAtOnce, Label.Quiet, Event.isWrite]
  have hend := oneHost_settled copiedAtOnce_run hquiet (by decide +kernel) (by decide +kernel)
    (by decide +kernel)
  exact ⟨by decide +kernel, Cluster.hosting_sound KvShard.single_stored, Cluster.hosting_idle,
    Cluster.hosting_agree 1, hquiet, copiedAtOnce_run, hend.1, hend.2,
    by decide +kernel, by decide +kernel, by decide +kernel⟩

end Cs426.Kv
