import Cs426.Kv.Placement

/-!
# One key in an update of the shard map

An update of the shard map gives a shard to new nodes and leaves it with some of its hosts.
Every node handles the update in its own time; a new node creates the shard, empty, and then
copies it from some node of the new list, which may be a new node too. This module follows
one key of the shard through it.

## The argument

Fix a key of the shard, a value and a moment `τ` that no clock has passed when the nodes are
done. If every retained host stores that value under the key for longer than `τ`, the same is
true, in the end, of every node of the list. What is carried along the run is, for every
node of the list (`Holds`): what it stores or is about to install under the key is that
value and lives longer than `τ`; and once it hosts the shard it stores the key, is about to
install it, or has a goroutine that has yet to ask a retained host. A retained host always
answers, and with the key. The other nodes of the list answer with the key if they are not
copying the shard themselves. A copy outlives its original (`live_copy`), and `cleanup`
removes nothing that lives longer than `τ`.

## What is proved

* `CopyInv.step`, `CopyInv.of_run` — the invariant, kept by every step in which nobody is
  answered by a node that is still copying.
* `CopyInv.final` — so in the end whoever hosts the shard has the key.
-/

namespace Cs426.Kv

open Cs426.Machine

/-! ### What holds of every cluster -/

/-- Every server is well formed, has its own name, and keeps its keys in place. -/
structure Cluster.Sound (N : ℤ) (c : Cluster) : Prop extends c.Placed N where
  named : ∀ name, (c.servers name).nodeName = name
  wf : ∀ name, (c.servers name).Wf

variable {N : ℤ} {c c' : Cluster} {l : Label}

/-- A step changes a server by events only. -/
theorem Cluster.servers_of_step (h : c.step l = some c') {I : Server → Prop}
    (hI : ∀ srv st e srv', I srv → srv.step st e = some srv' → I srv') {name : String} (hs : I (c.servers name)) :
    I (c'.servers name) := by
  have hact : ∀ {c c' : Cluster} {other : String} {e : Event}, c.act other e = some c' → I (c.servers name) →
      I (c'.servers name) := by
    intro c c' other e h hs
    rcases (act_cases h name).2 with hsame | ⟨-, hstep⟩
    · exact hsame ▸ hs
    · exact hI _ _ _ _ hs hstep
  cases l with
  | update st =>
    obtain rfl : _ = c' := Option.some.inj h
    exact hs
  | event => exact hact (step_event_iff.mp h).2 hs
  | fail => exact hact h hs
  | ask =>
    obtain ⟨_, _, _, c₁, -, h₁, -, h₂⟩ := step_ask_iff.mp h
    exact hact h₂ (hact h₁ hs)

namespace Cluster.Sound

theorem init (h : c.Init) (hN : c.shardMap.numShards = N) : c.Sound N where
  toPlaced := .init h hN
  named := by
    intro name
    obtain ⟨now, hname⟩ := h name
    rw [hname]
    rfl
  wf := by
    intro name
    obtain ⟨now, hname⟩ := h name
    rw [hname]
    exact .makeKvServer name now

theorem step (hc : c.Sound N) (hN : 0 < N) (hN' : N < 2 ^ 31) (hl : ∀ st, l = .update st → st.numShards = N)
    (h : c.step l = some c') : c'.Sound N where
  toPlaced := hc.toPlaced.step hN hN' hl h
  named := fun name => c.servers_of_step h (I := fun srv => srv.nodeName = name)
    (fun _ _ _ _ hn hs => (Server.nodeName_step hs).trans hn) (hc.named name)
  wf := fun name => c.servers_of_step h (fun _ _ _ _ hw hs => hw.step hs) (hc.wf name)

end Cluster.Sound

/-- No clock has passed the moment `τ`. -/
def Cluster.Before (τ : ℤ) (c : Cluster) : Prop := ∀ name, (c.servers name).now ≤ τ

theorem Cluster.now_le_step (h : c.step l = some c') (name : String) :
    (c.servers name).now ≤ (c'.servers name).now :=
  c.servers_of_step h (I := fun srv => (c.servers name).now ≤ srv.now)
    (fun _ _ _ _ hle hs => hle.trans (Server.now_le_step hs)) le_rfl

theorem Cluster.Before.of_step {τ : ℤ} (h : c.step l = some c') (hb : c'.Before τ) : c.Before τ :=
  fun name => (Cluster.now_le_step h name).trans (hb name)

/-- No server is handling an update. -/
def Cluster.Idle (c : Cluster) : Prop := ∀ name caller, (c.servers name).handlers caller = .idle

/-- Every server has handled the shard map in force. -/
structure Cluster.Settled (c : Cluster) : Prop where
  idle : c.Idle
  hosts : ∀ name shard, (c.servers name).Hosts shard ↔ shard ∈ c.shardMap.fetchShards name

theorem Cluster.Idle.not_fetching (h : c.Idle) {name : String} {shard : ℤ} {rest : List String} :
    ¬ (c.servers name).Fetching shard rest := by
  rintro ⟨caller, hf⟩
  simp [h name caller, Handler.fetches] at hf

theorem Cluster.Idle.not_pending (h : c.Idle) {name : String} {shard : ℤ} {v : GetShardValue} :
    ¬ (c.servers name).Pending shard v := by
  rintro ⟨caller, hv⟩
  simp [h name caller, Handler.values] at hv

/-! ### One key, followed through an update -/

/-- A key of a shard, a value, and the moment up to which it is followed. -/
structure Item where
  shard : ℤ
  key : String
  value : String
  horizon : ℤ

/-- The object has the value and does not expire up to the horizon. -/
def Item.Fits (i : Item) (obj : KvObject) : Prop := obj.value = i.value ∧ live i.horizon obj = true

/-- A copied value will fit when it is installed at the moment `now` or later. -/
def Item.WillFit (i : Item) (now : ℤ) (v : GetShardValue) : Prop := i.Fits ⟨v.value, now, v.ttlMsRemaining⟩

theorem Item.WillFit.mono {i : Item} {now now' : ℤ} {v : GetShardValue} (h : i.WillFit now v) (hle : now ≤ now') :
    i.WillFit now' v :=
  ⟨h.1, live_of_storedTime_le hle h.2⟩

/-- The server is copying the shard: some goroutine is fetching it, or some value fetched for
it has yet to be installed. -/
def Server.Copying (srv : Server) (shard : ℤ) : Prop :=
  (∃ rest, srv.Fetching shard rest) ∨ ∃ v, srv.Pending shard v

/-- The event is not a client's write. -/
def Event.isWrite : Event → Bool
  | set .. | delete .. => true
  | _ => false

/-- What holds of the server `name` in the middle of an update to `st` that leaves the shard
of `i` with the hosts `kept`. -/
structure Holds (i : Item) (st : ShardMapState) (kept : String → Prop) (name : String) (srv : Server) : Prop where
  has : kept name → ∃ obj, srv.entry i.shard i.key = some obj
  still : kept name → ∀ rest, ¬ srv.Fetching i.shard rest
  stored : name ∈ st.nodesForShard i.shard → ∀ obj, srv.entry i.shard i.key = some obj → i.Fits obj
  pending : name ∈ st.nodesForShard i.shard → ∀ s v, srv.Pending s v → v.key = i.key → i.WillFit srv.now v
  adding : ∀ c, i.shard ∈ (srv.handlers c).todo → name ∈ st.nodesForShard i.shard
  asking : ∀ rest, srv.Fetching i.shard rest → name ∈ st.nodesForShard i.shard ∧
    ∀ node ∈ rest, node ∈ st.nodesForShard i.shard ∧ node ≠ name
  covered : name ∈ st.nodesForShard i.shard → srv.Hosts i.shard →
    (∃ obj, srv.entry i.shard i.key = some obj) ∨ (∃ s v, srv.Pending s v ∧ v.key = i.key) ∨
      ∃ rest, srv.Fetching i.shard rest ∧ ∃ node ∈ rest, kept node

/-- The update keeps the hosts `kept`, at least one, and the number of shards; the key is of
the shard. -/
structure Retains (N : ℤ) (st : ShardMapState) (i : Item) (kept : String → Prop) : Prop where
  numShards_pos : 0 < N
  numShards_lt : N < 2 ^ 31
  numShards_eq : st.numShards = N
  valid : st.isValid = true
  placed : getShardForKey i.key N = i.shard
  listed : ∀ name, kept name → name ∈ st.nodesForShard i.shard
  nonempty : ∃ name, kept name

namespace Retains

variable {st : ShardMapState} {i : Item} {kept : String → Prop}

theorem mem_fetchShards (hr : Retains N st i kept) {name : String} :
    i.shard ∈ st.fetchShards name ↔ name ∈ st.nodesForShard i.shard :=
  ShardMapState.mem_fetchShards_iff hr.valid (hr.numShards_eq ▸ hr.numShards_lt)

/-- The key is installed into its shard. -/
theorem int32_eq (hr : Retains N st i kept) : int32 (getShardForKey i.key st.numShards) = i.shard := by
  rw [hr.numShards_eq, int32_getShardForKey i.key hr.numShards_pos hr.numShards_lt, hr.placed]

end Retains

/-- What is asked of the replies the server gets: values under the key will fit, a reply for
the shard has the key, and no retained host refuses. -/
structure GoodReply (i : Item) (kept : String → Prop) (srv : Server) (e : Event) : Prop where
  fits : ∀ c f vs now s rest, e = .fetchReply c f (some vs) now →
    (srv.handlers c).fetches[f]? = some ⟨s, rest⟩ → ∀ v ∈ vs, v.key = i.key → i.WillFit now v
  whole : ∀ c f vs now rest, e = .fetchReply c f (some vs) now →
    (srv.handlers c).fetches[f]? = some ⟨i.shard, rest⟩ → ∃ v ∈ vs, v.key = i.key
  refused : ∀ c f now node rest, e = .fetchReply c f none now →
    (srv.handlers c).fetches[f]? = some ⟨i.shard, node :: rest⟩ → ¬ kept node

theorem GoodReply.of_not_isReply {i : Item} {kept : String → Prop} {srv : Server} {e : Event} (he : e.isReply = false) :
    GoodReply i kept srv e where
  fits := by
    rintro _ _ _ _ _ _ rfl
    cases he
  whole := by
    rintro _ _ _ _ _ rfl
    cases he
  refused := by
    rintro _ _ _ _ _ rfl
    cases he

namespace Holds

variable {i : Item} {st : ShardMapState} {kept : String → Prop} {name : String} {srv srv' : Server} {e : Event}

/-- A fitting object stays, or is replaced by a copied one: it is not removed. -/
theorem entry_step (hs : Holds i st kept name srv) (hr : Retains N st i kept) (hw : srv.Wf)
    (hname : srv.nodeName = name) (hmem : name ∈ st.nodesForShard i.shard) (h : srv.step st e = some srv')
    (he : e.isWrite = false) (hτ : srv'.now ≤ i.horizon) (hobj : ∃ obj, srv.entry i.shard i.key = some obj) :
    ∃ obj, srv'.entry i.shard i.key = some obj := by
  obtain ⟨obj, hobj⟩ := hobj
  cases Server.entry_cases h i.shard i.key with
  | same heq => exact ⟨obj, heq.trans hobj⟩
  | set | delete => cases he
  | install _ _ _ hnew => exact ⟨_, hnew⟩
  | expire hobj' _ hdead =>
    rw [hobj, Option.some.injEq] at hobj'
    subst hobj'
    rw [live_antitone hτ (hs.stored hmem obj hobj).2] at hdead
    cases hdead
  | drop hnot => exact absurd (hr.mem_fetchShards.mpr hmem) (hname ▸ hnot)
  | create htodo => exact absurd (Server.hosts_of_entry hobj) ((hw.fresh _).2 _ htodo)

theorem still_step (hs : Holds i st kept name srv) (hw : srv.Wf) (h : srv.step st e = some srv') (hk : kept name)
    (rest : List String) : ¬ srv'.Fetching i.shard rest := by
  intro hf
  rcases Server.fetching_cases h hf with hf | ⟨node, hf⟩ | ⟨c, index, -, htodo, -⟩
  · exact hs.still hk _ hf
  · exact hs.still hk _ hf
  · obtain ⟨obj, hobj⟩ := hs.has hk
    exact (hw.fresh c).2 _ htodo (Server.hosts_of_entry hobj)

theorem stored_step (hs : Holds i st kept name srv) (hmem : name ∈ st.nodesForShard i.shard)
    (h : srv.step st e = some srv') (he : e.isWrite = false) {obj : KvObject}
    (hobj : srv'.entry i.shard i.key = some obj) : i.Fits obj := by
  cases Server.entry_cases h i.shard i.key with
  | same heq => exact hs.stored hmem obj (heq ▸ hobj)
  | set | delete => cases he
  | @install c now s v values hh hkey _ hnew hnow =>
    rw [hnew, Option.some.injEq] at hobj
    subst hobj
    have hp : srv.Pending s v := ⟨c, by rw [hh]; exact List.mem_cons_self ..⟩
    exact (hs.pending hmem s v hp hkey).mono (hnow ▸ Server.now_le_step h)
  | expire _ hnone | drop _ hnone | create _ hnone => simp [hnone] at hobj

theorem pending_step (hs : Holds i st kept name srv) (hmem : name ∈ st.nodesForShard i.shard)
    (h : srv.step st e = some srv') (hg : GoodReply i kept srv e) {s : ℤ} {v : GetShardValue}
    (hv : srv'.Pending s v) (hkey : v.key = i.key) : i.WillFit srv'.now v := by
  rcases Server.pending_cases h hv with hv | ⟨c, f, vs, node, rest, he, hf, hv⟩
  · exact (hs.pending hmem s v hv hkey).mono (Server.now_le_step h)
  · exact hg.fits c f vs _ s _ he hf v hv hkey

theorem adding_step (hs : Holds i st kept name srv) (hr : Retains N st i kept) (hname : srv.nodeName = name)
    (h : srv.step st e = some srv') {c : Caller} (htodo : i.shard ∈ (srv'.handlers c).todo) :
    name ∈ st.nodesForShard i.shard := by
  rcases Server.todo_cases h htodo with htodo | hadded
  · exact hs.adding c htodo
  · exact hr.mem_fetchShards.mp (hname ▸ (Server.mem_added.mp hadded).1)

theorem asking_step (hs : Holds i st kept name srv) (hname : srv.nodeName = name) (h : srv.step st e = some srv')
    {rest : List String} (hf : srv'.Fetching i.shard rest) : name ∈ st.nodesForShard i.shard ∧
      ∀ node ∈ rest, node ∈ st.nodesForShard i.shard ∧ node ≠ name := by
  rcases Server.fetching_cases h hf with hf | ⟨first, hf⟩ | ⟨c, index, -, htodo, rfl⟩
  · exact hs.asking rest hf
  · have hall := hs.asking _ hf
    exact ⟨hall.1, fun node hnode => hall.2 node (List.mem_cons_of_mem _ hnode)⟩
  · exact ⟨hs.adding c htodo, fun node hnode => hname ▸ Server.mem_fetchOrder.mp hnode⟩

/-- What a node that hosts the shard is covered by: the three ways, one after the other. -/
theorem covered_step (hs : Holds i st kept name srv) (hr : Retains N st i kept) (hw : srv.Wf)
    (hname : srv.nodeName = name) (hmem : name ∈ st.nodesForShard i.shard) (h : srv.step st e = some srv')
    (he : e.isWrite = false) (hτ : srv'.now ≤ i.horizon) (hg : GoodReply i kept srv e) (hhost : srv'.Hosts i.shard) :
    (∃ obj, srv'.entry i.shard i.key = some obj) ∨ (∃ s v, srv'.Pending s v ∧ v.key = i.key) ∨
      ∃ rest, srv'.Fetching i.shard rest ∧ ∃ node ∈ rest, kept node := by
  by_cases hadd : ∃ c index, e = .addShard c i.shard index
  · -- a new goroutine has all retained hosts to ask
    obtain ⟨c, index, rfl⟩ := hadd
    obtain ⟨node, hk⟩ := hr.nonempty
    obtain ⟨_, _, _, hh, ⟨htodo, -⟩, -⟩ := Server.step_addShard_iff.mp h
    have hnew : ¬ srv.Hosts i.shard := (hw.fresh c).2 _ (by rw [hh]; exact htodo)
    refine .inr (.inr ⟨_, Server.fetching_of_add h, node, Server.mem_fetchOrder.mpr ⟨hr.listed node hk, ?_⟩, hk⟩)
    rintro rfl
    obtain ⟨obj, hobj⟩ := hs.has (hname ▸ hk)
    exact hnew (Server.hosts_of_entry hobj)
  · have hhost₀ : srv.Hosts i.shard := by
      rcases Server.hosts_cases h i.shard with hiff | ⟨_, -, hiff⟩ | ⟨c, index, he, -⟩
      · exact hiff.mp hhost
      · exact (hiff.mp hhost).1
      · exact absurd ⟨c, index, he⟩ hadd
    rcases hs.covered hmem hhost₀ with hobj | ⟨s, v, hv, hkey⟩ | ⟨rest, hf, node, hnode, hk⟩
    · exact .inl (hs.entry_step hr hw hname hmem h he hτ hobj)
    · rcases Server.pending_step h hv with hv | ⟨c, now, values, rfl, hh⟩
      · exact .inr (.inl ⟨s, v, hv, hkey⟩)
      · have hnew := Server.entry_of_install h hh
        rw [hkey, hr.int32_eq] at hnew
        exact .inl ⟨_, hnew⟩
    · rcases Server.fetching_step h hf with hf | rfl | ⟨c, f, answer, rfl, hf⟩
      · exact .inr (.inr ⟨rest, hf, node, hnode, hk⟩)
      · simp at hnode
      · cases answer with
        | some vs =>
          obtain ⟨v, hv, hkey⟩ := hg.whole c f vs _ rest rfl hf
          exact .inr (.inl ⟨i.shard, v, Server.pending_of_reply h hf hv, hkey⟩)
        | none =>
          cases rest with
          | nil => simp at hnode
          | cons first rest =>
            have hfirst := hg.refused c f _ first rest rfl hf
            have hrest : node ∈ rest := by
              rcases List.mem_cons.mp hnode with rfl | hnode
              · exact absurd hk hfirst
              · exact hnode
            exact .inr (.inr ⟨rest, Server.fetching_of_refusal h hf, node, hrest, hk⟩)

/-- **One event of one server.** -/
theorem step (hs : Holds i st kept name srv) (hr : Retains N st i kept) (hw : srv.Wf)
    (hname : srv.nodeName = name) (h : srv.step st e = some srv') (he : e.isWrite = false)
    (hτ : srv'.now ≤ i.horizon) (hg : GoodReply i kept srv e) : Holds i st kept name srv' where
  has := fun hk => hs.entry_step hr hw hname (hr.listed name hk) h he hτ (hs.has hk)
  still := hs.still_step hw h
  stored := fun hmem _ hobj => hs.stored_step hmem h he hobj
  pending := fun hmem _ _ hv hkey => hs.pending_step hmem h hg hv hkey
  adding := fun _ htodo => hs.adding_step hr hname h htodo
  asking := fun _ hf => hs.asking_step hname h hf
  covered := fun hmem hhost => hs.covered_step hr hw hname hmem h he hτ hg hhost

end Holds

/-! ### The whole cluster -/

/-- Nothing but the update to `st` happens: no client writes, no call fails, no other map. -/
def Label.Quiet (st : ShardMapState) : Label → Prop
  | .update st' => st' = st
  | .event _ e => e.isWrite = false
  | .ask .. => True
  | .fail .. => False

theorem Label.Quiet.shardMap_eq {st : ShardMapState} (hl : l.Quiet st) (hmap : c.shardMap = st)
    (h : c.step l = some c') : c'.shardMap = st := by
  cases l with
  | update st' =>
    obtain rfl : _ = c' := Option.some.inj h
    exact hl
  | event name => exact ((Cluster.act_cases (Cluster.step_event_iff.mp h).2 name).1).trans hmap
  | fail => exact absurd hl id
  | ask name =>
    obtain ⟨_, node, _, c₁, -, h₁, -, h₂⟩ := Cluster.step_ask_iff.mp h
    exact (Cluster.act_cases h₂ name).1.trans ((Cluster.act_cases h₁ node).1.trans hmap)

theorem Cluster.Sound.step_quiet {st : ShardMapState} (hc : c.Sound N) (hN : 0 < N) (hN' : N < 2 ^ 31)
    (hst : st.numShards = N) (hl : l.Quiet st) (h : c.step l = some c') : c'.Sound N := by
  refine hc.step hN hN' ?_ h
  rintro st' rfl
  obtain rfl : st' = st := hl
  exact hst

/-- The map in force stays in force. -/
theorem Label.shardMap_of_run {st : ShardMapState} {ls : List Label} (hls : ∀ l ∈ ls, l.Quiet st)
    (hmap : c.shardMap = st) (h : run Cluster.step c ls = some c') : c'.shardMap = st :=
  run_invariant (I := fun d : Cluster => d.shardMap = st) (fun _ _ _ hd hl hs => hl.shardMap_eq hd hs)
    (along_of_forall_mem c hls) hmap h

/-- Nobody who fetches the shard is answered by a node that is itself copying it. -/
def Label.FromWhole (shard : ℤ) (c : Cluster) : Label → Prop
  | .ask name caller f _ _ _ => ∀ node, (c.servers name).nextNode caller f = some (shard, node) →
    ¬ (c.servers node).Copying shard
  | _ => True

/-- What is carried along an update to `st`. -/
structure CopyInv (N : ℤ) (i : Item) (st : ShardMapState) (kept : String → Prop) (c : Cluster) : Prop extends
    c.Sound N where
  map : c.shardMap = st
  holds : ∀ name, Holds i st kept name (c.servers name)

namespace CopyInv

variable {i : Item} {st : ShardMapState} {kept : String → Prop}

/-- A server of the cluster acts. -/
theorem holds_act (hI : CopyInv N i st kept c) (hr : Retains N st i kept) {name : String} {e : Event}
    (h : c.act name e = some c') (he : e.isWrite = false) (hτ : (c'.servers name).now ≤ i.horizon)
    (hg : GoodReply i kept (c.servers name) e) (other : String) : Holds i st kept other (c'.servers other) := by
  rcases (Cluster.act_cases h other).2 with hsame | ⟨rfl, hstep⟩
  · exact hsame ▸ hI.holds other
  · rw [hI.map] at hstep
    exact (hI.holds other).step hr (hI.wf other) (hI.named other) hstep he hτ hg

/-- A value under the key that a node of the list gives away will fit where it is received. -/
theorem fits_of_answer (hI : CopyInv N i st kept c) {node : String} (hmem : node ∈ st.nodesForShard i.shard)
    {visits : List Visit} {finish received : ℤ} {values : List GetShardValue}
    (hin : InTime (c.servers node).now finish visits) (hle : finish ≤ received) (hτ : received ≤ i.horizon)
    (hans : (c.servers node).getShardContents i.shard visits = .ok values) {v : GetShardValue} (hv : v ∈ values)
    (hkey : v.key = i.key) : i.WillFit received v := by
  obtain ⟨w, hw, obj, hobj, rfl⟩ := Server.entry_of_mem_contents hans hv
  change w.key = i.key at hkey
  rw [hkey] at hobj
  obtain ⟨hvalue, hlive⟩ := (hI.holds node).stored hmem obj hobj
  have hpast := (hI.wf node).stored _ _ _ hobj
  have htimes := hin.mem hw
  exact ⟨hvalue, live_copy (by omega) (by omega) hτ hlive _⟩

/-- A node that stores the key gives it away. -/
theorem key_of_answer (hI : CopyInv N i st kept c) {node : String} (hmem : node ∈ st.nodesForShard i.shard)
    {visits : List Visit} {finish : ℤ} {values : List GetShardValue} {kvShard : KvShard}
    (hin : InTime (c.servers node).now finish visits) (hτ : finish ≤ i.horizon)
    (hs : (c.servers node).shards.lookup i.shard = some kvShard) (hit : kvShard.Iterates visits)
    (hans : (c.servers node).getShardContents i.shard visits = .ok values)
    (hobj : ∃ obj, (c.servers node).entry i.shard i.key = some obj) : ∃ v ∈ values, v.key = i.key := by
  obtain ⟨obj, hentry⟩ := hobj
  have hlive := ((hI.holds node).stored hmem obj hentry).2
  rw [Server.entry_of_lookup hs] at hentry
  rw [Server.getShardContents, hs, Except.ok.injEq] at hans
  subst hans
  have hvisited : i.key ∈ visits.map Visit.key := by
    rw [hit.mem_iff]
    exact AList.mem_keys.mp (AList.lookup_isSome.mp (by simp [hentry]))
  obtain ⟨w, hw, hkey⟩ := List.mem_map.mp hvisited
  have htimes := hin.mem hw
  refine ⟨_, KvShard.mem_contents_iff.mpr ⟨w, hw, KvShard.listed_eq_some_iff.mpr ⟨obj, ?_, ?_, rfl⟩⟩, hkey⟩
  · rw [hkey, hentry]
  · exact live_antitone (by omega) hlive

/-- A node that hosts the shard and is not copying it stores the key. -/
theorem entry_of_not_copying (hI : CopyInv N i st kept c) (hr : Retains N st i kept) {node : String}
    (hmem : node ∈ st.nodesForShard i.shard) (hhost : (c.servers node).Hosts i.shard)
    (hnot : kept node ∨ ¬ (c.servers node).Copying i.shard) :
    ∃ obj, (c.servers node).entry i.shard i.key = some obj := by
  rcases hnot with hk | hnot
  · exact (hI.holds node).has hk
  · rcases (hI.holds node).covered hmem hhost with hobj | ⟨s, v, hv, hkey⟩ | ⟨rest, hf, -⟩
    · exact hobj
    · -- a value under the key was requested for the shard of the key
      have hplace := (hI.servers node).pending s v hv
      rw [hkey, hr.placed] at hplace
      exact absurd (.inr ⟨v, hplace ▸ hv⟩) hnot
    · exact absurd (.inl ⟨rest, hf⟩) hnot

theorem step_event (hI : CopyInv N i st kept c) (hr : Retains N st i kept) {name : String} {e : Event}
    (he : e.isWrite = false) (hτ : (c'.servers name).now ≤ i.horizon) (h : c.step (.event name e) = some c') :
    CopyInv N i st kept c' := by
  obtain ⟨hrep, hact⟩ := Cluster.step_event_iff.mp h
  refine ⟨hI.toSound.step hr.numShards_pos hr.numShards_lt ?_ h, ?_, ?_⟩
  · rintro _ ⟨⟩
  · rw [(Cluster.act_cases hact name).1, hI.map]
  · exact hI.holds_act hr hact he hτ (.of_not_isReply hrep)

/-- What a node answers to a call for `shard` is a good reply, unless it is a node that is
copying the shard of the key. -/
theorem goodReply_of_ask (hI : CopyInv N i st kept c) (hr : Retains N st i kept) {name node : String} {srv : Server}
    {caller : Caller} {f : ℕ} {shard : ℤ} {rest : List String} {visits : List Visit} {finish received : ℤ}
    (hhandlers : srv.handlers = (c.servers name).handlers)
    (hf : ((c.servers name).handlers caller).fetches[f]? = some ⟨shard, node :: rest⟩)
    (hin : InTime (c.servers node).now finish visits)
    (hit : ∀ kvShard, (c.servers node).shards.lookup shard = some kvShard → kvShard.Iterates visits)
    (hle : finish ≤ received) (hτ : received ≤ i.horizon)
    (hask : shard = i.shard → (c.servers node).Hosts shard → kept node ∨ ¬ (c.servers node).Copying shard) :
    GoodReply i kept srv
      (.fetchReply caller f ((c.servers node).getShardContents shard visits).toOption received) := by
  have hlisted : shard = i.shard → node ∈ st.nodesForShard i.shard := by
    rintro rfl
    exact (((hI.holds name).asking _ ⟨caller, List.mem_of_getElem? hf⟩).2 node (List.mem_cons_self ..)).1
  cases hans : (c.servers node).getShardContents shard visits with
  | error =>
    refine ⟨by rintro _ _ _ _ _ _ ⟨⟩, by rintro _ _ _ _ _ ⟨⟩, ?_⟩
    rintro _ _ _ _ _ ⟨⟩ hf' hk
    rw [hhandlers, hf, Option.some.injEq, Fetch.mk.injEq, List.cons.injEq] at hf'
    obtain ⟨rfl, rfl, rfl⟩ := hf'
    -- a retained host has the shard and does not refuse
    obtain ⟨obj, hobj⟩ := (hI.holds node).has hk
    obtain ⟨kvShard, hs⟩ := Server.hosts_iff.mp (Server.hosts_of_entry hobj)
    simp [Server.getShardContents, hs] at hans
  | ok values =>
    refine ⟨?_, ?_, by rintro _ _ _ _ _ ⟨⟩⟩
    · rintro _ _ _ _ _ _ ⟨⟩ - v hv hkey
      obtain rfl : i.shard = shard := by
        rw [← hr.placed, ← hkey]
        exact (hI.servers node).of_mem_contents hans hv
      exact hI.fits_of_answer (hlisted rfl) hin hle hτ hans hv hkey
    · rintro _ _ _ _ _ ⟨⟩ hf'
      rw [hhandlers, hf, Option.some.injEq, Fetch.mk.injEq] at hf'
      obtain ⟨rfl, -⟩ := hf'
      cases hs : (c.servers node).shards.lookup i.shard with
      | none => simp [Server.getShardContents, hs] at hans
      | some kvShard =>
        have hhost : (c.servers node).Hosts i.shard := Server.hosts_iff.mpr ⟨kvShard, hs⟩
        exact hI.key_of_answer (hlisted rfl) hin (hle.trans hτ) hs (hit kvShard hs) hans
          (hI.entry_of_not_copying hr (hlisted rfl) hhost (hask rfl hhost))

/-- **One step of the cluster**, in which nobody who fetches the shard is answered by a node
that is copying it. -/
theorem step (hI : CopyInv N i st kept c) (hr : Retains N st i kept) (hl : l.Quiet st)
    (hask : ∀ name caller f visits finish received node, l = .ask name caller f visits finish received →
      (c.servers name).nextNode caller f = some (i.shard, node) → (c.servers node).Hosts i.shard →
      kept node ∨ ¬ (c.servers node).Copying i.shard)
    (hτ : c'.Before i.horizon) (h : c.step l = some c') : CopyInv N i st kept c' := by
  cases l with
  | update st' =>
    obtain rfl : _ = c' := Option.some.inj h
    obtain rfl : st' = st := hl
    exact ⟨hI.toSound.step hr.numShards_pos hr.numShards_lt (by rintro _ ⟨⟩; exact hr.numShards_eq) h, rfl, hI.holds⟩
  | event name e => exact hI.step_event hr hl (hτ name) h
  | fail => exact absurd hl id
  | ask name caller f visits finish received =>
    obtain ⟨shard, node, rest, c₁, hf, h₁, hle, h₂⟩ := Cluster.step_ask_iff.mp h
    have hreceived : (c'.servers name).now = received := by
      obtain ⟨srv, hsrv, rfl⟩ := Cluster.act_iff.mp h₂
      obtain ⟨_, _, _, _, _, _, -, -, -, rfl⟩ := Server.step_fetchReply_iff.mp hsrv
      simp
    have hnow : received ≤ i.horizon := hreceived ▸ hτ name
    obtain ⟨hmap, hfinish, hsame⟩ := Cluster.act_getShardContents h₁
    have hI₁ : CopyInv N i st kept c₁ :=
      hI.step_event hr rfl (by omega) (Cluster.step_event_iff.mpr ⟨rfl, h₁⟩)
    obtain ⟨srv, hserved, -⟩ := Cluster.act_iff.mp h₁
    obtain ⟨⟨-, hin, hit⟩, -⟩ := Server.step_getShardContents_iff.mp hserved
    have hg : GoodReply i kept (c₁.servers name)
        (.fetchReply caller f ((c.servers node).getShardContents shard visits).toOption received) := by
      refine hI.goodReply_of_ask hr (hsame name).2.2 hf hin hit hle hnow ?_
      rintro rfl hhost
      exact hask name caller f visits finish received node rfl (Cluster.nextNode_eq_some_iff.mpr ⟨rest, hf⟩) hhost
    refine ⟨hI.toSound.step hr.numShards_pos hr.numShards_lt (by rintro _ ⟨⟩) h, ?_, ?_⟩
    · rw [(Cluster.act_cases h₂ name).1, hmap, hI.map]
    · exact hI₁.holds_act hr h₂ rfl (hτ name) hg

/-- An update begins when nobody is handling one, every retained host having the key. -/
theorem init (hs : c.Sound N) (hmap : c.shardMap = st) (hidle : c.Idle)
    (hkept : ∀ name, kept name ↔ name ∈ st.nodesForShard i.shard ∧ (c.servers name).Hosts i.shard)
    (hfits : ∀ name, kept name → ∃ obj, (c.servers name).entry i.shard i.key = some obj ∧ i.Fits obj) :
    CopyInv N i st kept c where
  toSound := hs
  map := hmap
  holds := by
    intro name
    refine ⟨fun hk => ?_, fun _ _ => hidle.not_fetching, fun hmem obj hobj => ?_, fun _ _ _ hv => ?_,
      fun caller htodo => ?_, fun rest hf => absurd hf hidle.not_fetching, fun hmem hhost => ?_⟩
    · obtain ⟨obj, hobj, -⟩ := hfits name hk
      exact ⟨obj, hobj⟩
    · obtain ⟨obj', hobj', hfit⟩ := hfits name ((hkept name).mpr ⟨hmem, Server.hosts_of_entry hobj⟩)
      rw [hobj, Option.some.injEq] at hobj'
      exact hobj' ▸ hfit
    · exact absurd hv hidle.not_pending
    · simp [hidle name caller, Handler.todo] at htodo
    · obtain ⟨obj, hobj, -⟩ := hfits name ((hkept name).mpr ⟨hmem, hhost⟩)
      exact .inl ⟨obj, hobj⟩

/-- When nobody is handling the update any more, whoever hosts the shard has the key. -/
theorem final (hI : CopyInv N i st kept c) (hidle : c.Idle) {name : String}
    (hmem : name ∈ st.nodesForShard i.shard) (hhost : (c.servers name).Hosts i.shard) :
    ∃ obj, (c.servers name).entry i.shard i.key = some obj ∧ i.Fits obj := by
  rcases (hI.holds name).covered hmem hhost with ⟨obj, hobj⟩ | ⟨s, v, hv, -⟩ | ⟨rest, hf, -⟩
  · exact ⟨obj, hobj, (hI.holds name).stored hmem obj hobj⟩
  · exact absurd hv hidle.not_pending
  · exact absurd hf hidle.not_fetching

/-- A whole run, every step of which has a property that keeps nodes from being answered by
one that is copying the shard. -/
theorem of_run {P : Cluster → Label → Prop} (hI : CopyInv N i st kept c) (hr : Retains N st i kept)
    (hask : ∀ d name caller f visits finish received node, CopyInv N i st kept d →
      P d (.ask name caller f visits finish received) → (d.servers name).nextNode caller f = some (i.shard, node) →
      kept node ∨ ¬ (d.servers node).Copying i.shard) {ls : List Label} (hls : ∀ l ∈ ls, l.Quiet st)
    (hP : Along Cluster.step P c ls) (hτ : c'.Before i.horizon) (h : run Cluster.step c ls = some c') :
    CopyInv N i st kept c' := by
  have hbefore := (along_of_final (fun _ _ _ hs hb => Cluster.Before.of_step hs hb) hτ h).2
  refine run_invariant (fun d l d' hI ⟨⟨hl, hP⟩, hb⟩ hs => hI.step hr hl ?_ (hb d' hs) hs)
    (((along_of_forall_mem c hls).and hP).and hbefore) hI h
  rintro name caller f visits finish received node rfl hnext -
  exact hask d name caller f visits finish received node hI hP hnext

end CopyInv

end Cs426.Kv
