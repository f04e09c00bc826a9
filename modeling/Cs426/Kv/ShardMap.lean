import Mathlib.Algebra.Order.Ring.Int
import Mathlib.Data.List.AList
import Mathlib.Data.List.Dedup

/-!
# The shard map

`ShardMapState` and its views (`lab4/kv/shardmap.go`), and `GetShardForKey`
(`lab4/kv/util.go`).

Go's `int` is ℤ here: nothing below leaves the 64-bit range. Servers index their shards by
`int32`, and that conversion is written out (`int32`). The order in which a Go map is
visited shows only in the order of `shardsForNode`, which its caller forgets.
`ShardMap.state` is an atomic pointer: each view below reads the state in force at one
moment. `GetShardForKey` divides by the number of shards: where that is zero, any call of a
client or a server that asks for the shard of a key panics. That panic is left out: for zero
`getShardForKey` is a number that stands for nothing. Which maps come into force with no shards
is in `Cs426.Kv.FileShardMap`.
-/

namespace Cs426.Kv

/-- Conversion to `int32`. -/
def int32 (i : ℤ) : ℤ := i.bmod (2 ^ 32)

theorem int32_of_lt {i : ℤ} (h : 0 ≤ i) (h' : i < 2 ^ 31) : int32 i = i := by
  unfold int32
  rw [Int.bmod_eq_of_le] <;> omega

/-- `fnv.New32` and `Sum32`: the 32-bit FNV-1 hash of the bytes of the key. -/
def sum32 (key : String) : UInt32 :=
  key.toUTF8.toList.foldl (fun hash byte => (hash * 16777619) ^^^ byte.toUInt32) 2166136261

/-- Not modelled at zero, where the source panics. -/
def getShardForKey (key : String) (numShards : ℤ) : ℤ :=
  ((sum32 key).toNat : ℤ).tmod numShards + 1

theorem one_le_getShardForKey (key : String) (numShards : ℤ) : 1 ≤ getShardForKey key numShards := by
  have := Int.tmod_nonneg (a := ((sum32 key).toNat : ℤ)) numShards (by omega)
  unfold getShardForKey
  omega

theorem getShardForKey_le (key : String) {numShards : ℤ} (h : 0 < numShards) :
    getShardForKey key numShards ≤ numShards := by
  have := Int.tmod_lt_of_pos ((sum32 key).toNat : ℤ) h
  unfold getShardForKey
  omega

/-- As long as there are fewer than `2 ^ 31` shards, the shard of a key survives the
conversion. -/
theorem int32_getShardForKey (key : String) {numShards : ℤ} (h : 0 < numShards) (h' : numShards < 2 ^ 31) :
    int32 (getShardForKey key numShards) = getShardForKey key numShards := by
  have := one_le_getShardForKey key numShards
  have := getShardForKey_le key h
  exact int32_of_lt (by omega) (by omega)

structure NodeInfo where
  address : String
  port : ℤ
deriving DecidableEq

structure ShardMapState where
  nodes : AList fun _ : String => NodeInfo
  shardsToNodes : AList fun _ : ℤ => List String
  numShards : ℤ

namespace ShardMapState

/-- The loop of `IsValid` over the nodes of one shard, those in `nodeSet` having been seen. -/
def validNodes (st : ShardMapState) : List String → List String → Bool
  | _, [] => true
  | nodeSet, node :: nodes =>
    if node ∉ st.nodes.keys then false
    else if node ∈ nodeSet then false
    else st.validNodes (node :: nodeSet) nodes

def isValid (st : ShardMapState) : Bool :=
  if (st.shardsToNodes.keys.length : ℤ) > st.numShards then false
  else st.shardsToNodes.entries.all fun e =>
    if e.1 < 1 ∨ e.1 > st.numShards then false else st.validNodes [] e.2

def shardsForNode (st : ShardMapState) (nodeName : String) : List ℤ :=
  st.shardsToNodes.entries.flatMap fun e => (e.2.filter (· == nodeName)).map fun _ => e.1

def nodesForShard (st : ShardMapState) (shard : ℤ) : List String :=
  match st.shardsToNodes.lookup shard with
  | none => []
  | some nodeNames => nodeNames

/-- The two views say the same. -/
theorem mem_shardsForNode {st : ShardMapState} {nodeName : String} {shard : ℤ} :
    shard ∈ st.shardsForNode nodeName ↔ nodeName ∈ st.nodesForShard shard := by
  have hmem : ∀ nodes, (⟨shard, nodes⟩ : Sigma fun _ : ℤ => List String) ∈ st.shardsToNodes.entries ↔
      st.shardsToNodes.lookup shard = some nodes := fun nodes => AList.mem_lookup_iff.symm
  unfold shardsForNode nodesForShard
  rw [List.mem_flatMap]
  constructor
  · rintro ⟨⟨s, nodes⟩, he, hs⟩
    obtain ⟨node, hnode, rfl⟩ := List.mem_map.mp hs
    obtain ⟨hnode, heq⟩ := List.mem_filter.mp hnode
    rw [(hmem nodes).mp he, ← beq_iff_eq.mp heq]
    exact hnode
  · intro h
    cases hl : st.shardsToNodes.lookup shard with
    | none => simp [hl] at h
    | some nodes =>
      rw [hl] at h
      exact ⟨⟨shard, nodes⟩, (hmem nodes).mpr hl, List.mem_map.mpr ⟨nodeName, by simpa using h, rfl⟩⟩

/-- The loop accepts a list of known nodes without repetition. -/
theorem validNodes_iff {st : ShardMapState} {nodes nodeSet : List String} :
    st.validNodes nodeSet nodes = true ↔ nodes.Nodup ∧ ∀ node ∈ nodes, node ∉ nodeSet ∧ node ∈ st.nodes.keys := by
  induction nodes generalizing nodeSet with
  | nil => simp [validNodes]
  | cons node nodes ih =>
    rw [validNodes, List.nodup_cons, List.forall_mem_cons]
    split_ifs with hknown hseen
    · exact ⟨fun h => absurd h (by simp), fun h => absurd hseen h.2.1.1⟩
    · rw [ih]
      constructor
      · rintro ⟨hnodup, hfresh⟩
        exact ⟨⟨fun hmem => (hfresh node hmem).1 (List.mem_cons_self ..), hnodup⟩, ⟨hseen, hknown⟩,
          fun other hother =>
            ⟨fun hmem => (hfresh other hother).1 (List.mem_cons_of_mem _ hmem), (hfresh other hother).2⟩⟩
      · rintro ⟨⟨hnew, hnodup⟩, -, hfresh⟩
        refine ⟨hnodup, fun other hother => ⟨fun hmem => ?_, (hfresh other hother).2⟩⟩
        rcases List.mem_cons.mp hmem with rfl | hmem
        · exact hnew hother
        · exact (hfresh other hother).1 hmem
    · exact ⟨fun h => absurd h (by simp), fun h => absurd h.2.1.2 hknown⟩

/-- What `IsValid` decides. -/
theorem isValid_iff {st : ShardMapState} : st.isValid = true ↔ (st.shardsToNodes.keys.length : ℤ) ≤ st.numShards ∧
    ∀ shard nodes, st.shardsToNodes.lookup shard = some nodes →
      (1 ≤ shard ∧ shard ≤ st.numShards) ∧ nodes.Nodup ∧ ∀ node ∈ nodes, node ∈ st.nodes.keys := by
  unfold isValid
  split_ifs with hlen
  · simp only [false_iff, not_and]
    exact fun h => absurd h (by omega)
  · rw [List.all_eq_true]
    have hentry : ∀ shard nodes, (if shard < 1 ∨ shard > st.numShards then false else st.validNodes [] nodes) = true ↔
        (1 ≤ shard ∧ shard ≤ st.numShards) ∧ nodes.Nodup ∧ ∀ node ∈ nodes, node ∈ st.nodes.keys := by
      intro shard nodes
      split_ifs with hrange
      · simp only [false_iff, not_and]
        exact fun h => absurd h (by omega)
      · simp only [validNodes_iff, List.not_mem_nil, not_false_eq_true, true_and]
        exact ⟨fun h => ⟨by omega, h⟩, fun h => h.2⟩
    constructor
    · exact fun h => ⟨by omega, fun shard nodes hl => (hentry shard nodes).mp (h _ (AList.mem_lookup_iff.mp hl))⟩
    · rintro ⟨-, h⟩ ⟨shard, nodes⟩ he
      exact (hentry shard nodes).mpr (h shard nodes (AList.mem_lookup_iff.mpr he))

/-- A valid map gives nodes only to the shards from 1 to their number. -/
theorem range_of_mem_nodesForShard {st : ShardMapState} (h : st.isValid = true) {shard : ℤ} {node : String}
    (hnode : node ∈ st.nodesForShard shard) : 1 ≤ shard ∧ shard ≤ st.numShards := by
  unfold nodesForShard at hnode
  cases hl : st.shardsToNodes.lookup shard with
  | none => simp [hl] at hnode
  | some nodes => exact ((isValid_iff.mp h).2 shard nodes hl).1

/-- If there are fewer than `2 ^ 31`, the conversion keeps them. -/
theorem int32_of_mem_nodesForShard {st : ShardMapState} (h : st.isValid = true) (hN : st.numShards < 2 ^ 31)
    {shard : ℤ} {node : String} (hnode : node ∈ st.nodesForShard shard) : int32 shard = shard := by
  have := range_of_mem_nodesForShard h hnode
  exact int32_of_lt (by omega) (by omega)

/-- `fetchShards`: the shards of a node, as the keys of a Go map. -/
def fetchShards (st : ShardMapState) (nodeName : String) : List ℤ :=
  ((st.shardsForNode nodeName).map int32).dedup

theorem mem_fetchShards {st : ShardMapState} {nodeName : String} {shard : ℤ} :
    shard ∈ st.fetchShards nodeName ↔ ∃ s, nodeName ∈ st.nodesForShard s ∧ int32 s = shard := by
  simp [fetchShards, mem_shardsForNode]

theorem mem_fetchShards_iff {st : ShardMapState} (h : st.isValid = true) (hN : st.numShards < 2 ^ 31)
    {nodeName : String} {shard : ℤ} : shard ∈ st.fetchShards nodeName ↔ nodeName ∈ st.nodesForShard shard := by
  rw [mem_fetchShards]
  constructor
  · rintro ⟨s, hs, rfl⟩
    rwa [int32_of_mem_nodesForShard h hN hs]
  · exact fun hs => ⟨shard, hs, int32_of_mem_nodesForShard h hN hs⟩

/-- A cluster with a single shard, which `hosts` host. -/
def oneShard (names hosts : List String) : ShardMapState :=
  ⟨names.foldr (fun name nodes => nodes.insert name ⟨"localhost", 9000⟩) ∅, AList.singleton 1 hosts, 1⟩

end ShardMapState

end Cs426.Kv
