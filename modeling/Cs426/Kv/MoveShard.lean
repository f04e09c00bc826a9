import Cs426.Kv.Client
import Cs426.Kv.Copying
import Cs426.Kv.ShardCopy
import Cs426.Kv.Workflow

/-!
# Graceful moves lose nothing

Any number of `MoveShard` workflows, one after the other, on a cluster in which nobody writes
and no call fails.

## The argument

Each of the two updates of a workflow gives every shard at most one new node and leaves it
with one of its hosts (`Graceful`). A node that copies a shard is the new one, so whoever it
asks is a retained host and has the whole shard: what `Cs426.Kv.ShardCopy` has to assume of a
run holds of every run here. So every key is carried along by `CopyInv`, up to any moment
that no clock has passed in the end and at which the key had not expired on any of the hosts
that stored it before the first workflow. Nothing else comes to be stored (`From`).

A copy may outlive its original: the remaining time is counted anew from the install. So
hosts agree on the keys that are within their original time to live, but not on others.

## What is proved

* `Moves.induction` — what one graceful update preserves, any number of workflows does.
* `graceful_moves` — the keys that were stored and have not expired are on every host, `Get`
  finds them whichever replica it starts with, and nothing else has come up.
* `graceful_moves_drift` — a host can still have a key that has expired on another.
-/

namespace Cs426.Kv

open Cs426.Machine

variable {N : ℤ} {c c' : Cluster} {l : Label}

/-! ### At most one new node -/

/-- A run in which at most one node of the list is new: whoever copies the shard asks a
retained host. -/
theorem CopyInv.of_run_oneNew {i : Item} {st : ShardMapState} {kept : String → Prop} (hI : CopyInv N i st kept c)
    (hr : Retains N st i kept) (hone : ∀ p q, p ∈ st.nodesForShard i.shard → q ∈ st.nodesForShard i.shard →
      ¬ kept p → ¬ kept q → p = q) {ls : List Label} (hls : ∀ l ∈ ls, l.Quiet st) (hτ : c'.Before i.horizon)
    (h : run Cluster.step c ls = some c') : CopyInv N i st kept c' := by
  refine hI.of_run (P := fun _ _ => True) hr ?_ hls (along_of_forall_mem c fun _ _ => trivial) hτ h
  intro d name caller f visits finish received node hI _ hnext
  obtain ⟨rest, hf⟩ := Cluster.nextNode_eq_some_iff.mp hnext
  have hfetch : (d.servers name).Fetching i.shard (node :: rest) := ⟨caller, List.mem_of_getElem? hf⟩
  obtain ⟨hname, hrest⟩ := (hI.holds name).asking _ hfetch
  obtain ⟨hnode, hne⟩ := hrest node (List.mem_cons_self ..)
  refine .inl (by_contra fun hnot => hne (hone node name hnode hname hnot ?_))
  exact fun hk => (hI.holds name).still hk _ hfetch

/-! ### Nothing new is stored -/

/-- All that is stored or about to be stored, under a key of a shard, is among `old`. -/
structure Cluster.From (old : ℤ → String → String → Prop) (c : Cluster) : Prop where
  stored : ∀ name shard key obj, (c.servers name).entry shard key = some obj → old shard key obj.value
  pending : ∀ name shard v, (c.servers name).Pending shard v → old shard v.key v.value

namespace Cluster.From

variable {old : ℤ → String → String → Prop}

theorem act (hf : c.From old) (hs : c.Sound N) (hN : 0 < N) (hN' : N < 2 ^ 31) {name : String} {e : Event}
    (h : c.act name e = some c') (he : e.isWrite = false)
    (hreply : ∀ caller f vs now shard rest, e = .fetchReply caller f (some vs) now →
      ((c.servers name).handlers caller).fetches[f]? = some ⟨shard, rest⟩ → ∀ v ∈ vs, old shard v.key v.value) :
    c'.From old where
  stored := by
    intro other shard key obj hobj
    rcases (act_cases h other).2 with hsame | ⟨rfl, hstep⟩
    · exact hf.stored other shard key obj (hsame ▸ hobj)
    · cases Server.entry_cases hstep shard key with
      | same heq => exact hf.stored other shard key obj (heq ▸ hobj)
      | set | delete => cases he
      | @install caller now s v values hh hkey hshard hnew =>
        have hv : (c.servers other).Pending s v := ⟨caller, by rw [hh]; exact List.mem_cons_self ..⟩
        have hplace := (hs.servers other).pending s v hv
        rw [hs.numShards_eq, int32_getShardForKey key hN hN', ← hkey, hplace] at hshard
        rw [hnew, Option.some.injEq] at hobj
        rw [hshard, ← hkey, ← hobj]
        exact hf.pending other s v hv
      | expire _ hnone | drop _ hnone | create _ hnone => simp [hnone] at hobj
  pending := by
    intro other shard v hv
    rcases (act_cases h other).2 with hsame | ⟨rfl, hstep⟩
    · exact hf.pending other shard v (hsame ▸ hv)
    · rcases Server.pending_cases hstep hv with hv | ⟨caller, f, vs, node, rest, he, hfetch, hmem⟩
      · exact hf.pending other shard v hv
      · exact hreply caller f vs _ shard _ he hfetch v hmem

theorem step (hf : c.From old) (hs : c.Sound N) (hN : 0 < N) (hN' : N < 2 ^ 31) {st : ShardMapState} (hl : l.Quiet st)
    (h : c.step l = some c') : c'.From old := by
  cases l with
  | update =>
    obtain rfl : _ = c' := Option.some.inj h
    exact ⟨hf.stored, hf.pending⟩
  | event name e =>
    obtain ⟨he, h⟩ := step_event_iff.mp h
    refine hf.act hs hN hN' h hl ?_
    rintro _ _ _ _ _ _ rfl
    cases he
  | fail => exact absurd hl id
  | ask name caller f visits finish received =>
    obtain ⟨shard, node, rest, c₁, hfetch, h₁, -, h₂⟩ := step_ask_iff.mp h
    have hs₁ : c₁.Sound N := hs.step hN hN' (by rintro _ ⟨⟩) (step_event_iff.mpr ⟨rfl, h₁⟩)
    have hf₁ : c₁.From old := hf.act hs hN hN' h₁ rfl (by rintro _ _ _ _ _ _ ⟨⟩)
    refine hf₁.act hs₁ hN hN' h₂ rfl ?_
    intro caller' f' vs now' shard' rest' he hf' v hv
    -- the values were asked for, and what the peer lists it stores
    obtain ⟨rfl, hans⟩ := reply_of_ask hfetch h₁ he hf'
    obtain ⟨w, -, obj, hobj, rfl⟩ := Server.entry_of_mem_contents hans hv
    exact hf.stored node _ w.key obj hobj

end Cluster.From

/-! ### Graceful updates -/

/-- Between two workflows: every server has handled a valid map. -/
structure Cluster.Ready (N : ℤ) (c : Cluster) : Prop extends c.Sound N, c.Settled where
  valid : c.shardMap.isValid = true

/-- The update gives a shard at most one new node, and leaves it with one it had. -/
structure Graceful (st st' : ShardMapState) : Prop where
  valid : st'.isValid = true
  numShards_eq : st'.numShards = st.numShards
  kept : ∀ shard, st.nodesForShard shard ≠ [] → ∃ name ∈ st'.nodesForShard shard, name ∈ st.nodesForShard shard
  oneNew : ∀ shard p q, p ∈ st'.nodesForShard shard → q ∈ st'.nodesForShard shard →
    p ∉ st.nodesForShard shard → q ∉ st.nodesForShard shard → p = q

/-- The update leaves the one shard with one of its nodes, and gives it at most one new node. -/
structure Gentle (shard : ℤ) (st st' : ShardMapState) : Prop where
  valid : st'.isValid = true
  numShards_eq : st'.numShards = st.numShards
  kept : ∃ name ∈ st'.nodesForShard shard, name ∈ st.nodesForShard shard
  oneNew : ∀ p q, p ∈ st'.nodesForShard shard → q ∈ st'.nodesForShard shard →
    p ∉ st.nodesForShard shard → q ∉ st.nodesForShard shard → p = q

theorem Graceful.gentle {st st' : ShardMapState} (h : Graceful st st') {shard : ℤ}
    (hne : st.nodesForShard shard ≠ []) : Gentle shard st st' :=
  ⟨h.valid, h.numShards_eq, h.kept shard hne, h.oneNew shard⟩

/-- The servers come to handle the map `st`, which is in force. -/
def Eases (c : Cluster) (st : ShardMapState) (c' : Cluster) : Prop :=
  ∃ ls, (∀ l ∈ ls, Label.Quiet st l) ∧ run Cluster.step { c with shardMap := st } ls = some c' ∧ c'.Settled

theorem Handled.eases {st : ShardMapState} (h : Handled c st c') : Eases c st c' := by
  obtain ⟨ls, hls, h, hsettled⟩ := h
  obtain ⟨c₁, h₁, h⟩ := (run_cons_iff _).mp h
  obtain rfl : _ = c₁ := Option.some.inj h₁
  exact ⟨ls, hls, h, hsettled⟩

namespace Graceful

variable {st : ShardMapState}

theorem refl (h : st.isValid = true) : Graceful st st where
  valid := h
  numShards_eq := rfl
  kept := by
    intro shard hne
    obtain ⟨name, hname⟩ := List.exists_mem_of_ne_nil _ hne
    exact ⟨name, hname, hname⟩
  oneNew := fun _ _ _ hp _ hnot _ => absurd hp hnot

/-- One shard gets other nodes, of which at most one is new, and not all its nodes go. -/
theorem setNodes (h : st.isValid = true) {shard : ℤ} (hshard : 1 ≤ shard ∧ shard ≤ st.numShards) {nodes : List String}
    (hnodup : nodes.Nodup) (hknown : ∀ node ∈ nodes, node ∈ st.nodes.keys)
    (hkept : st.nodesForShard shard ≠ [] → ∃ name ∈ nodes, name ∈ st.nodesForShard shard)
    (hone : ∀ p q, p ∈ nodes → q ∈ nodes → p ∉ st.nodesForShard shard → q ∉ st.nodesForShard shard → p = q) :
    Graceful st (st.setNodes shard nodes) where
  valid := ShardMapState.isValid_setNodes h hshard hnodup hknown
  numShards_eq := rfl
  kept := by
    intro s hne
    rw [ShardMapState.nodesForShard_setNodes]
    split_ifs with hs
    · subst hs
      exact hkept hne
    · exact (refl h).kept s hne
  oneNew := by
    intro s p q
    rw [ShardMapState.nodesForShard_setNodes]
    split_ifs with hs
    · subst hs
      exact hone p q
    · exact (refl h).oneNew s p q

/-- The first update of a workflow. -/
theorem of_add (h : st.isValid = true) {shard : ℤ} (hshard : 1 ≤ shard ∧ shard ≤ st.numShards) {dstNode : String}
    (hdst : dstNode ∈ st.nodes.keys) {perm : List ℕ} {smState : ShardMapState}
    (hadd : st.addReplicasForShard shard 1 [dstNode] perm = some (.ok smState)) :
    Graceful st (st.updateShardMapping smState) := by
  obtain ⟨hnew, rfl⟩ := ShardMapState.addReplicasForShard_one hadd
  obtain ⟨hnodup, hknown⟩ := ShardMapState.nodup_nodesForShard h shard
  refine setNodes h hshard ?_ ?_ ?_ ?_
  · exact hnodup.append (List.nodup_singleton _) (by simpa using hnew)
  · rintro node hnode
    rcases List.mem_append.mp hnode with hnode | hnode
    · exact hknown node hnode
    · exact List.mem_singleton.mp hnode ▸ hdst
  · intro hne
    obtain ⟨name, hname⟩ := List.exists_mem_of_ne_nil _ hne
    exact ⟨name, List.mem_append_left _ hname, hname⟩
  · have honly : ∀ p, p ∈ st.nodesForShard shard ++ [dstNode] → p ∉ st.nodesForShard shard → p = dstNode := by
      intro p hp hnot
      exact List.mem_singleton.mp ((List.mem_append.mp hp).resolve_left hnot)
    exact fun p q hp hq hp' hq' => (honly p hp hp').trans (honly q hq hq').symm

/-- The second update of a workflow, which has another node left. -/
theorem of_drop (h : st.isValid = true) {shard : ℤ} (hshard : 1 ≤ shard ∧ shard ≤ st.numShards)
    {srcNode dstNode : String} (hne : srcNode ≠ dstNode) (hdst : dstNode ∈ st.nodesForShard shard) {perm : List ℕ}
    {smState : ShardMapState} (hperm : perm.Perm (List.range ((st.nodesForShard shard).length - 1)))
    (hdrop : st.dropReplicasForShard shard 1 [srcNode] perm = some (.ok smState)) :
    Graceful st (st.updateShardMapping smState) := by
  obtain ⟨chosen, hchosen, rfl⟩ := ShardMapState.dropReplicasForShard_one hperm hdrop
  obtain ⟨hnodup, hknown⟩ := ShardMapState.nodup_nodesForShard h shard
  have hsub : ∀ name ∈ chosen, name ∈ st.nodesForShard shard :=
    fun name hname => List.mem_of_mem_erase (hchosen.mem_iff.mp hname)
  refine setNodes h hshard (hchosen.nodup_iff.mpr (hnodup.erase srcNode))
    (fun node hnode => hknown node (hsub node hnode))
    (fun _ => ⟨dstNode, hchosen.mem_iff.mpr ((List.mem_erase_of_ne hne.symm).mpr hdst), hdst⟩) ?_
  exact fun p _ hp _ hnot _ => absurd (hsub p hp) hnot

end Graceful

/-! ### Any number of workflows -/

theorem Cluster.Ready.sound_update {st : ShardMapState} (hc : c.Ready N) (hN : 0 < N) (hN' : N < 2 ^ 31)
    (hnum : st.numShards = c.shardMap.numShards) : Cluster.Sound N { c with shardMap := st } := by
  refine hc.toSound.step hN hN' (l := .update st) ?_ rfl
  rintro _ ⟨⟩
  exact hnum.trans hc.numShards_eq

/-- What holds once a valid map has been handled. -/
theorem Cluster.Ready.handled {st : ShardMapState} (hc : c.Ready N) (hN : 0 < N) (hN' : N < 2 ^ 31)
    (hvalid : st.isValid = true) (hnum : st.numShards = c.shardMap.numShards) (h : Eases c st c') :
    c'.Ready N ∧ c'.shardMap = st := by
  obtain ⟨ls, hls, h, hsettled⟩ := h
  have hmap : c'.shardMap = st := Label.shardMap_of_run hls rfl h
  have hsound : c'.Sound N :=
    run_invariant (fun _ _ _ hd hl hs => hd.step_quiet hN hN' (hnum.trans hc.numShards_eq) hl hs)
      (along_of_forall_mem _ hls) (hc.sound_update hN hN' hnum) h
  exact ⟨⟨hsound, hsettled, hmap ▸ hvalid⟩, hmap⟩

/-- What holds after one graceful update. -/
theorem Cluster.Ready.eases {st : ShardMapState} (hc : c.Ready N) (hN : 0 < N) (hN' : N < 2 ^ 31)
    (hst : Graceful c.shardMap st) (h : Eases c st c') : c'.Ready N ∧ c'.shardMap = st :=
  hc.handled hN hN' hst.valid hst.numShards_eq h

/-- A host is a node of the list. -/
theorem Cluster.Ready.hosts_iff (hc : c.Ready N) (hN' : N < 2 ^ 31) {name : String} {shard : ℤ} :
    (c.servers name).Hosts shard ↔ name ∈ c.shardMap.nodesForShard shard := by
  rw [hc.hosts, ShardMapState.mem_fetchShards_iff hc.valid (hc.numShards_eq ▸ hN')]

/-- **The rule for workflows**: what every graceful update preserves, any number of
workflows preserves. -/
theorem Moves.induction {P : Cluster → Prop} {c₀ : Cluster} (hN : 0 < N) (hN' : N < 2 ^ 31) (h₀ : c₀.Ready N)
    (hP₀ : P c₀)
    (hstep : ∀ c st c', c.Ready N → P c → Graceful c.shardMap st → Eases c st c' → P c') (h : Moves c₀ c) :
    c.Ready N ∧ P c := by
  have hone : ∀ {c st c'}, c.Ready N ∧ P c → Graceful c.shardMap st → Eases c st c' → c'.Ready N ∧ P c' :=
    fun hc hst h => ⟨(hc.1.eases hN hN' hst h).1, hstep _ _ _ hc.1 hc.2 hst h⟩
  induction h with
  | refl => exact ⟨h₀, hP₀⟩
  | wait _ hls hrun hsettled ih => exact hone ih (.refl ih.1.valid) ⟨_, hls, hrun, hsettled⟩
  | @move c' c'' shard srcNode dstNode _ hshard hdst hmove ih =>
    cases hmove with
    | noop => exact ih
    | addFails => exact ih
    | dropFails _ hadd hhandled => exact hone ih (.of_add ih.1.valid hshard hdst hadd) hhandled.eases
    | @moves _ _ _ _ c₁ _ hne hadd hhandled hperm hdrop hhandled' =>
      have hst := Graceful.of_add ih.1.valid hshard hdst hadd
      obtain ⟨hready₁, hmap₁⟩ := ih.1.eases hN hN' hst hhandled.eases
      have hdst₁ : dstNode ∈ c₁.shardMap.nodesForShard shard := by
        rw [hmap₁, (ShardMapState.addReplicasForShard_one hadd).2]
        change dstNode ∈ (c'.shardMap.setNodes shard _).nodesForShard shard
        simp [ShardMapState.nodesForShard_setNodes]
      refine hone (hone ih hst hhandled.eases) (.of_drop hready₁.valid ?_ hne hdst₁ hperm hdrop) hhandled'.eases
      rw [hmap₁]
      exact hshard

theorem Cluster.Before.of_eases {st : ShardMapState} {τ : ℤ} (h : Eases c st c') (hb : c'.Before τ) : c.Before τ := by
  obtain ⟨ls, -, h, -⟩ := h
  exact (along_of_final (fun _ _ _ hs hb => Cluster.Before.of_step hs hb) hb h).1

/-- Every host has the item. -/
structure Cluster.Has (i : Item) (c : Cluster) : Prop where
  hosted : c.shardMap.nodesForShard i.shard ≠ []
  fits : ∀ name, (c.servers name).Hosts i.shard → ∃ obj, (c.servers name).entry i.shard i.key = some obj ∧ i.Fits obj

/-- **A gentle update of a shard keeps its items** that live until all have handled it. -/
theorem Cluster.Has.handled {i : Item} {st : ShardMapState} (hi : c.Has i) (hc : c.Ready N) (hN : 0 < N)
    (hN' : N < 2 ^ 31) (hplaced : getShardForKey i.key N = i.shard) (hst : Gentle i.shard c.shardMap st)
    (h : Eases c st c') (hτ : c'.Before i.horizon) : c'.Has i := by
  obtain ⟨hc', hmap⟩ := hc.handled hN hN' hst.valid hst.numShards_eq h
  obtain ⟨ls, hls, hrun, -⟩ := h
  have hnum : st.numShards = N := hst.numShards_eq.trans hc.numShards_eq
  obtain ⟨name, hname, hold⟩ := hst.kept
  have hr : Retains N st i fun name => name ∈ st.nodesForShard i.shard ∧ (c.servers name).Hosts i.shard :=
    ⟨hN, hN', hnum, hst.valid, hplaced, fun _ hk => hk.1, name, hname, (hc.hosts_iff hN').mpr hold⟩
  have hI := CopyInv.init (hc.sound_update hN hN' hst.numShards_eq) rfl hc.idle (fun _ => Iff.rfl)
    fun name hk => hi.fits name hk.2
  have hI' := hI.of_run_oneNew hr (fun p q hp hq hp' hq' => ?_) hls hτ hrun
  · refine ⟨fun hnil => ?_, fun name hhost => hI'.final hc'.idle ?_ hhost⟩
    · rw [hmap] at hnil
      simp [hnil] at hname
    · exact hmap ▸ (hc'.hosts_iff hN').mp hhost
  · refine hst.oneNew p q hp hq ?_ ?_
    · exact fun hmem => hp' ⟨hp, (hc.hosts_iff hN').mpr hmem⟩
    · exact fun hmem => hq' ⟨hq, (hc.hosts_iff hN').mpr hmem⟩

/-- **One graceful update keeps every item** that lives until all have handled it. -/
theorem Cluster.Has.eases {i : Item} {st : ShardMapState} (hi : c.Has i) (hc : c.Ready N) (hN : 0 < N)
    (hN' : N < 2 ^ 31) (hplaced : getShardForKey i.key N = i.shard) (hst : Graceful c.shardMap st) (h : Eases c st c')
    (hτ : c'.Before i.horizon) : c'.Has i :=
  hi.handled hc hN hN' hplaced (hst.gentle hi.hosted) h hτ

/-- Handling a map brings up nothing new. -/
theorem Cluster.From.handled {old : ℤ → String → String → Prop} {st : ShardMapState} (hf : c.From old)
    (hc : c.Ready N) (hN : 0 < N) (hN' : N < 2 ^ 31) (hnum : st.numShards = c.shardMap.numShards)
    (h : Eases c st c') : c'.From old := by
  obtain ⟨ls, hls, hrun, -⟩ := h
  have hstep : ∀ (d : Cluster) (l : Label) (d' : Cluster), d.Sound N ∧ d.From old → l.Quiet st → d.step l = some d' →
      d'.Sound N ∧ d'.From old := by
    rintro d l d' ⟨hd, hf⟩ hl hs
    exact ⟨hd.step_quiet hN hN' (hnum.trans hc.numShards_eq) hl hs, hf.step hd hN hN' hl hs⟩
  exact (run_invariant hstep (along_of_forall_mem _ hls)
    ⟨hc.sound_update hN hN' hnum, ⟨hf.stored, hf.pending⟩⟩ hrun).2

theorem Cluster.From.eases {old : ℤ → String → String → Prop} {st : ShardMapState} (hf : c.From old) (hc : c.Ready N)
    (hN : 0 < N) (hN' : N < 2 ^ 31) (hst : Graceful c.shardMap st) (h : Eases c st c') : c'.From old :=
  hf.handled hc hN hN' hst.numShards_eq h

/-! ### The main result -/

/-- `Kv.Get` with the start index `index` when no call fails, each node reading its own
clock. -/
def Cluster.get (c : Cluster) (key : String) (index : ℕ) (clock : String → ℤ) : Except Status GetResponse :=
  let nodes := c.shardMap.nodesForShard (getShardForKey key c.shardMap.numShards)
  if nodes = [] then .error noNodeFound
  else getLoop none ((nodes.rotate index).map fun node =>
    (c.servers node).get c.shardMap.numShards key (clock node))

/-- `Get` finds an item that every host has, whichever replica it starts with. -/
theorem Cluster.Has.get_eq {i : Item} (hi : c.Has i) (hc : c.Ready N) (hN : 0 < N) (hN' : N < 2 ^ 31)
    (hplaced : getShardForKey i.key N = i.shard) (hkey : i.key ≠ "") (index : ℕ) {clock : String → ℤ}
    (hclock : ∀ name, (c.servers name).now ≤ clock name ∧ clock name ≤ i.horizon) :
    c.get i.key index clock = .ok ⟨i.value, true⟩ := by
  unfold Cluster.get
  rw [hc.numShards_eq, hplaced]
  simp only [if_neg hi.hosted]
  cases hrot : (c.shardMap.nodesForShard i.shard).rotate index with
  | nil => exact absurd (List.rotate_eq_nil_iff.mp hrot) hi.hosted
  | cons first rest =>
    have hfirst : first ∈ c.shardMap.nodesForShard i.shard := by
      rw [← List.mem_rotate (n := index), hrot]
      exact List.mem_cons_self ..
    have hhost := (hc.hosts_iff hN').mpr hfirst
    obtain ⟨obj, hobj, hvalue, hlive⟩ := hi.fits first hhost
    have hshard : int32 (getShardForKey i.key N) = i.shard := by rw [int32_getShardForKey i.key hN hN', hplaced]
    have hshow : (c.servers first).Shows (int32 (getShardForKey i.key N)) i.key (some obj) := by
      rw [hshard]
      exact ⟨hhost, fun t _ => by rw [hobj]⟩
    have hget := hshow.get_eq hkey (hclock first).1
    rw [Option.filter_some, if_pos (live_antitone (hclock first).2 hlive)] at hget
    rw [List.map_cons, hget]
    simp only [getLoop, hvalue]

/-- What the hosts agree on, all of them have, in its place. -/
theorem Cluster.Agree.has {shard t : ℤ} {key value : String} (hagree : c.Agree shard key t) (hc : c.Ready N)
    (hN' : N < 2 ^ 31) {q : String} (hvalue : (c.servers q).valueAt shard key t = some value) :
    c.Has ⟨shard, key, value, t⟩ ∧ getShardForKey key N = shard := by
  obtain ⟨obj, hobj, -, -⟩ := Server.valueAt_eq_some_iff.mp hvalue
  have hqhost := Server.hosts_of_entry hobj
  refine ⟨⟨List.ne_nil_of_mem ((hc.hosts_iff hN').mp hqhost), fun p hp => ?_⟩, (hc.servers q).stored shard key obj hobj⟩
  obtain ⟨obj', hobj', hv', hlive'⟩ := Server.valueAt_eq_some_iff.mp ((hagree p q hp hqhost).trans hvalue)
  exact ⟨obj', hobj', hv', hlive'⟩

/-- What every host has, it has at the horizon. -/
theorem Cluster.Has.valueAt_eq {i : Item} (hi : c.Has i) {p : String} (hp : (c.servers p).Hosts i.shard) :
    (c.servers p).valueAt i.shard i.key i.horizon = some i.value := by
  obtain ⟨obj, hobj, hv, hlive⟩ := hi.fits p hp
  exact Server.valueAt_eq_some_iff.mpr ⟨obj, hobj, hv, hlive⟩

/-- **Graceful moves lose nothing.** Let `t` be a moment that no clock has passed after any
number of workflows, and let the hosts of a shard have agreed, before them, on what they have
under a key at `t`. If they had it, unexpired, it is on every host now, with its value, `Get`
returns it whichever replica it starts with, and so the hosts agree on it again. Whatever a
host has was stored before. -/
theorem graceful_moves (hN : 0 < N) (hN' : N < 2 ^ 31) {c₀ c : Cluster} (h₀ : c₀.Sound N) (hsettled : c₀.Settled)
    (hvalid : c₀.shardMap.isValid = true) (hmoves : Moves c₀ c) {t : ℤ} (ht : c.Before t) (shard : ℤ) (key : String) :
    (c₀.Agree shard key t → ∀ q value, (c₀.servers q).valueAt shard key t = some value →
      (∀ p, (c.servers p).Hosts shard → (c.servers p).valueAt shard key t = some value) ∧
      (key ≠ "" → ∀ index clock, (∀ name, (c.servers name).now ≤ clock name ∧ clock name ≤ t) →
        c.get key index clock = .ok ⟨value, true⟩)) ∧
    (∀ p value, (c.servers p).valueAt shard key t = some value →
      ∃ q obj, (c₀.servers q).entry shard key = some obj ∧ obj.value = value) ∧
    (c₀.Agree shard key t → (∃ q, (c₀.servers q).valueAt shard key t ≠ none) → c.Agree shard key t) := by
  have hready : c₀.Ready N := ⟨h₀, hsettled, hvalid⟩
  have hall : c₀.Agree shard key t → ∀ q value, (c₀.servers q).valueAt shard key t = some value →
      c.Ready N ∧ c.Has ⟨shard, key, value, t⟩ ∧ getShardForKey key N = shard := by
    intro hagree q value hvalue
    obtain ⟨hhas₀, hplaced⟩ := hagree.has hready hN' hvalue
    obtain ⟨hc, hhas⟩ := hmoves.induction (P := fun d => d.Before t → d.Has ⟨shard, key, value, t⟩) hN hN' hready
      (fun _ => hhas₀) fun d st d' hd hP hst he hb => (hP (hb.of_eases he)).eases hd hN hN' hplaced hst he hb
    exact ⟨hc, hhas ht, hplaced⟩
  refine ⟨fun hagree q value hvalue => ?_, fun p value hvalue => ?_, ?_⟩
  · obtain ⟨hc, hhas, hplaced⟩ := hall hagree q value hvalue
    exact ⟨fun p hp => hhas.valueAt_eq hp,
      fun hkey index clock hclock => hhas.get_eq hc hN hN' hplaced hkey index hclock⟩
  · obtain ⟨obj, hobj, rfl, -⟩ := Server.valueAt_eq_some_iff.mp hvalue
    have hfrom₀ : c₀.From fun shard key value =>
        ∃ q obj, (c₀.servers q).entry shard key = some obj ∧ obj.value = value :=
      ⟨fun q _ _ obj hobj => ⟨q, obj, hobj, rfl⟩, fun _ _ _ hv => absurd hv hsettled.idle.not_pending⟩
    exact (hmoves.induction hN hN' hready hfrom₀ fun d st d' hd hf hst he => hf.eases hd hN hN' hst he).2.stored
      p shard key obj hobj
  · rintro hagree ⟨q, hq⟩ p p' hp hp'
    obtain ⟨value, hvalue⟩ := Option.ne_none_iff_exists'.mp hq
    obtain ⟨-, hhas, -⟩ := hall hagree q value hvalue
    exact (hhas.valueAt_eq hp).trans (hhas.valueAt_eq hp').symm

/-! ### A move of a short-lived key -/

theorem ShardMapState.setNodes_oneShard (names hosts nodes : List String) :
    (oneShard names hosts).setNodes 1 nodes = oneShard names nodes := by
  rw [setNodes, oneShard, AList.insert_singleton_eq]
  rfl

/-- A key with ten milliseconds to live. -/
def shortLived : KvShard := makeKvShard.set "k" "v" 10 0

/-- `n1` and `n2` host the shard. -/
def beforeMove : Cluster := .hosting ["n1", "n2", "n3"] ["n1", "n2"] shortLived

/-- `n3` copies the shard at once, and installs it after eight milliseconds. -/
def addPhase : List Label :=
  [.event "n3" (.startUpdate .shardMapListenLoop), .event "n3" (.addShard .shardMapListenLoop 1 0),
   .ask "n3" .shardMapListenLoop 0 [⟨"k", 1, 1⟩] 1 2, .event "n3" (.relock .shardMapListenLoop),
   .event "n3" (.install .shardMapListenLoop 8000000), .event "n3" (.finishUpdate .shardMapListenLoop),
   .event "n1" (.startUpdate .shardMapListenLoop), .event "n2" (.startUpdate .shardMapListenLoop)]

/-- Then `n1` drops it. -/
def dropPhase : List Label :=
  [.event "n1" (.startUpdate .shardMapListenLoop), .event "n2" (.startUpdate .shardMapListenLoop),
   .event "n3" (.startUpdate .shardMapListenLoop)]

def afterAdd : Cluster :=
  (run Cluster.step beforeMove (.update (.oneShard ["n1", "n2", "n3"] ["n1", "n2", "n3"]) :: addPhase)).get
    (by decide +kernel)

def afterMove : Cluster :=
  (run Cluster.step afterAdd (.update (.oneShard ["n1", "n2", "n3"] ["n2", "n3"]) :: dropPhase)).get
    (by decide +kernel)

/-- Nobody but the three nodes takes part. -/
theorem afterAdd_out (name : String) (hname : name ∉ ["n1", "n2", "n3"]) :
    afterAdd.servers name = makeKvServer name 0 := by
  have hrun : run Cluster.step beforeMove (.update (.oneShard ["n1", "n2", "n3"] ["n1", "n2", "n3"]) :: addPhase) =
      some afterAdd := run_eq_some_get _ _
  rw [Cluster.servers_of_run (by decide +kernel) hrun hname]
  exact Cluster.hosting_of_not_mem fun hmem => hname (by simp_all)

theorem handled_add : Handled beforeMove (.oneShard ["n1", "n2", "n3"] ["n1", "n2", "n3"]) afterAdd := by
  have hquiet : ∀ l ∈ addPhase, l.Quiet (.oneShard ["n1", "n2", "n3"] ["n1", "n2", "n3"]) := by
    simp [addPhase, Label.Quiet, Event.isWrite]
  refine ⟨addPhase, hquiet, run_eq_some_get _ _, ?_⟩
  refine Cluster.settled_of_update Cluster.hosting_idle (fun name hname => ?_) (by decide) hquiet (by decide +kernel)
    (run_eq_some_get _ _) (by decide +kernel)
  rw [Cluster.hosting_of_not_mem fun hmem => hname (by simp_all)]
  rfl

theorem handled_drop : Handled afterAdd (.oneShard ["n1", "n2", "n3"] ["n2", "n3"]) afterMove := by
  have hquiet : ∀ l ∈ dropPhase, l.Quiet (.oneShard ["n1", "n2", "n3"] ["n2", "n3"]) := by
    simp [dropPhase, Label.Quiet, Event.isWrite]
  have hidle : afterAdd.Idle := by
    obtain ⟨_, -, -, hsettled⟩ := handled_add
    exact hsettled.idle
  refine ⟨dropPhase, hquiet, run_eq_some_get _ _, ?_⟩
  refine Cluster.settled_of_update hidle (fun name hname => ?_) (by decide) hquiet (by decide +kernel)
    (run_eq_some_get _ _) (by decide +kernel)
  rw [afterAdd_out name hname]
  rfl

theorem moveShard_beforeMove : MoveShard 1 "n1" "n3" beforeMove afterMove := by
  have hmap : afterAdd.shardMap = .oneShard ["n1", "n2", "n3"] ["n1", "n2", "n3"] := by
    obtain ⟨ls, hls, h, -⟩ := handled_add.eases
    exact Label.shardMap_of_run hls rfl h
  have hadd : beforeMove.shardMap.addReplicasForShard 1 1 ["n3"] [] =
      some (.ok (.oneShard ["n1", "n2", "n3"] ["n1", "n2", "n3"])) := by
    rw [← ShardMapState.setNodes_oneShard _ ["n1", "n2"]]
    rfl
  have hdrop : afterAdd.shardMap.dropReplicasForShard 1 1 ["n1"] [0, 1] =
      some (.ok (.oneShard ["n1", "n2", "n3"] ["n2", "n3"])) := by
    rw [hmap, ← ShardMapState.setNodes_oneShard _ ["n1", "n2", "n3"]]
    rfl
  refine .moves (by decide) hadd handled_add ?_ hdrop ?_
  · rw [hmap]
    decide
  · rw [hmap]
    exact handled_drop

theorem afterMove_before {τ : ℤ} (h : 8000000 ≤ τ) : afterMove.Before τ := by
  have hls : Along Cluster.step (fun c l => ∀ name ∈ l.parties c, name ∈ ["n1", "n2", "n3"]) afterAdd
      (.update (.oneShard ["n1", "n2", "n3"] ["n2", "n3"]) :: dropPhase) := by decide +kernel
  have hnow : ∀ name ∈ ["n1", "n2", "n3"], (afterMove.servers name).now ≤ 8000000 := by decide +kernel
  refine Cluster.before_of_run hls (run_eq_some_get _ _) (fun name hname => ?_)
    fun name hname => (hnow name hname).trans h
  rw [afterAdd_out name hname]
  change (0 : ℤ) ≤ τ
  omega

theorem graceful_moves_beforeMove : afterMove.get "k" 1 (fun _ => 9000000) = .ok ⟨"v", true⟩ := by
  have hmoves : Moves beforeMove afterMove := .move .refl (by decide) (by decide +kernel) moveShard_beforeMove
  exact ((graceful_moves (by decide) (by decide) (Cluster.hosting_sound KvShard.single_stored) Cluster.hosting_settled
    (by decide +kernel) hmoves (afterMove_before (by decide)) 1 "k").1 (Cluster.hosting_agree 1 "k" _) "n2" "v"
    (by decide +kernel)).2 (by decide) 1 _
    fun name => ⟨afterMove_before (by decide) name, le_rfl⟩

/-- **Hosts drift apart on keys past their time to live.** `n1` and `n2` have stored a key for
ten milliseconds. After a move of the shard from `n1` to `n3`, whose install took eight, the
key has expired on `n2` but not on `n3`. -/
theorem graceful_moves_drift :
    (beforeMove.Sound 1 ∧ beforeMove.Settled ∧ beforeMove.shardMap.isValid = true ∧
      ∀ shard key t, beforeMove.Agree shard key t) ∧
    MoveShard 1 "n1" "n3" beforeMove afterMove ∧ afterMove.Before 12000000 ∧
    ((afterMove.servers "n2").Hosts 1 ∧ (afterMove.servers "n2").valueAt 1 "k" 12000000 = none) ∧
    (afterMove.servers "n3").Hosts 1 ∧ (afterMove.servers "n3").valueAt 1 "k" 12000000 = some "v" :=
  ⟨⟨Cluster.hosting_sound KvShard.single_stored, Cluster.hosting_settled, by decide +kernel, Cluster.hosting_agree⟩,
    moveShard_beforeMove, afterMove_before (by decide), ⟨by decide +kernel, by decide +kernel⟩,
    by decide +kernel, by decide +kernel⟩

end Cs426.Kv
