import Cs426.Kv.Validity
import Cs426.Lib.Striping

/-!
# Generated shard maps

`make_shardmap` (`lab4/scripts/make-shardmap.py`), which writes the shard maps that the servers
load.

## The model

Python's integers are ℤ. What `random` draws is a parameter that keeps to what it documents
(`Random`). An exception is the absence of a result: `random.randint` with its bounds the wrong way
round, `random.sample` with a number that it cannot draw, and a base port given on the command
line, which is a text and is not added to a number. Loops are given by what they have built after
each turn. The list `["n1"]` that a shard is given first is always replaced, and is left out.

## What is proved

* `striped_valid_iff` — with `--stripe`, the numbers of replicas of any two nodes differ by at most
  one, and `IsValid` accepts the map exactly if no shard has more replicas than there are nodes.
  Nothing in the script sees to that (`striped_invalid`).
* `sampled_valid` — without `--stripe`, every map that is made is valid: `random.sample` raises.
-/

namespace Cs426.Kv.MakeShardmap

open Cs426.Striping

/-- `args.base_port`: a number by default, a text if it is given. -/
inductive BasePort where
  | int (port : ℤ)
  | str (text : String)

/-- `args.base_port + i`. -/
def BasePort.add : BasePort → ℕ → Option ℤ
  | int port, i => some (port + i)
  | str _, _ => none

structure Args where
  nodes : ℤ
  shards : ℤ
  replicas : ℤ
  maxReplicas : Option ℤ
  stripe : Bool
  address : String
  basePort : BasePort

/-- What is drawn for the shards, by their places. -/
structure Random where
  randint : ℕ → ℤ → ℤ → ℤ
  sample : ℕ → List String → ℕ → List String
  randint_mem : ∀ i lo hi, lo ≤ hi → lo ≤ randint i lo hi ∧ randint i lo hi ≤ hi
  sample_subperm : ∀ i names k, k ≤ names.length → (sample i names k).Subperm names ∧ (sample i names k).length = k

def nodeName (i : ℕ) : String := "n" ++ toString (i + 1)

/-- The nodes after `k` turns. -/
def makeNodes (args : Args) : ℕ → Option (AList fun _ : String => NodeInfo)
  | 0 => some ∅
  | k + 1 =>
    (makeNodes args k).bind fun nodes =>
      (args.basePort.add k).map fun port => nodes.insert (nodeName k) ⟨args.address, port⟩

def numReplicas (args : Args) (random : Random) (i : ℕ) : Option ℤ :=
  match args.maxReplicas with
  | none => some args.replicas
  | some maxReplicas =>
    if maxReplicas < args.replicas then none else some (random.randint i args.replicas maxReplicas)

/-- The loop that stripes: the nodes of a shard, and the counter after it. -/
def stripeLoop (nodeNames : List String) : ℕ → ℕ → Option (List String × ℕ)
  | 0, counter => some ([], counter)
  | left + 1, counter =>
    nodeNames[counter % nodeNames.length]?.bind fun node =>
      (stripeLoop nodeNames left (counter + 1)).map fun r => (node :: r.1, r.2)

/-- One turn of the loop over the shards: the nodes of the shard, and the counter after it. -/
def assign (args : Args) (random : Random) (nodeNames : List String) (i counter : ℕ) : Option (List String × ℕ) :=
  (numReplicas args random i).bind fun num =>
    if args.stripe then stripeLoop nodeNames num.toNat counter
    else if num < 0 ∨ num > nodeNames.length then none
    else some (random.sample i nodeNames num.toNat, counter)

/-- The shards, and the counter, after `k` turns. -/
def makeShards (args : Args) (random : Random) (nodeNames : List String) :
    ℕ → Option ((AList fun _ : ℤ => List String) × ℕ)
  | 0 => some (∅, 0)
  | k + 1 =>
    (makeShards args random nodeNames k).bind fun s =>
      (assign args random nodeNames k s.2).map fun r => (s.1.insert (k + 1) r.1, r.2)

def makeShardmap (args : Args) (random : Random) : Option ShardMapState :=
  (makeNodes args args.nodes.toNat).bind fun nodes =>
    -- a dictionary is listed in the order of insertion
    (makeShards args random nodes.keys.reverse args.shards.toNat).map fun s => ⟨nodes, s.1, args.shards⟩

/-! ### The nodes -/

theorem nodeName_injective : Function.Injective nodeName := by
  intro i j h
  have hrepr : (i + 1).repr = (j + 1).repr := (String.append_right_inj "n").mp h
  rw [Nat.repr_eq_ofList_toDigits, Nat.repr_eq_ofList_toDigits, String.ofList_inj] at hrepr
  -- the digits give back the number
  have hsucc := congrArg (Nat.ofDigitChars 10 · 0) hrepr
  simp only [Nat.ofDigitChars_ten_toDigits] at hsucc
  exact Nat.succ.inj hsucc

/-- The names of `n` nodes, in order. -/
def names (n : ℕ) : List String := (List.range n).map nodeName

@[simp] theorem length_names (n : ℕ) : (names n).length = n := by
  simp [names]

theorem names_succ (n : ℕ) : names (n + 1) = names n ++ [nodeName n] := by
  rw [names, List.range_succ, List.map_append, List.map_singleton, names]

theorem getElem?_names {n j : ℕ} (hj : j < n) : (names n)[j]? = some (nodeName j) := by
  rw [names, List.getElem?_map, List.getElem?_range hj, Option.map_some]

theorem keys_makeNodes {args : Args} {k : ℕ} {nodes : AList fun _ : String => NodeInfo}
    (h : makeNodes args k = some nodes) : nodes.keys.reverse = names k := by
  induction k generalizing nodes with
  | zero =>
    cases h
    rfl
  | succ k ih =>
    obtain ⟨before, hbefore, h⟩ := Option.bind_eq_some_iff.mp h
    obtain ⟨port, -, rfl⟩ := Option.map_eq_some_iff.mp h
    have hkeys := ih hbefore
    have hnew : nodeName k ∉ before.keys := by
      rw [← List.mem_reverse, hkeys]
      simp [names, nodeName_injective.eq_iff]
    rw [AList.keys_insert, List.erase_of_not_mem hnew, List.reverse_cons, hkeys, names_succ]

theorem makeNodes_isSome {args : Args} {port : ℤ} (hport : args.basePort = .int port) (k : ℕ) :
    ∃ nodes, makeNodes args k = some nodes := by
  induction k with
  | zero => exact ⟨_, rfl⟩
  | succ k ih =>
    obtain ⟨nodes, hnodes⟩ := ih
    exact ⟨_, by rw [makeNodes, hnodes, hport]; rfl⟩

/-! ### The shards -/

/-- The loop takes the turns from where the counter stands. -/
theorem stripeLoop_eq {n : ℕ} (hn : 0 < n) (num counter : ℕ) :
    stripeLoop (names n) num counter = some ((stripe n counter num).map nodeName, counter + num) := by
  induction num generalizing counter with
  | zero => rfl
  | succ num ih =>
    rw [stripeLoop, length_names, getElem?_names (Nat.mod_lt counter hn), Option.bind_some, ih, Option.map_some,
      stripe_cons, List.map_cons, Nat.add_right_comm, Nat.add_assoc]

section Shards

variable {args : Args} {random : Random} {nodeNames : List String} {k counter : ℕ}
  {shards : AList fun _ : ℤ => List String}

/-- The shards made so far are `1` to `k`. -/
theorem mem_makeShards (h : makeShards args random nodeNames k = some (shards, counter)) (s : ℤ) :
    s ∈ shards ↔ 1 ≤ s ∧ s ≤ k := by
  induction k generalizing shards counter with
  | zero =>
    cases h
    refine iff_of_false (AList.notMem_empty s) ?_
    omega
  | succ k ih =>
    obtain ⟨⟨before, c⟩, hbefore, h⟩ := Option.bind_eq_some_iff.mp h
    obtain ⟨⟨nodes, c'⟩, -, heq⟩ := Option.map_eq_some_iff.mp h
    cases heq
    rw [AList.mem_insert, ih hbefore]
    omega

/-- The nodes of each shard were assigned in its turn. -/
theorem lookup_makeShards (h : makeShards args random nodeNames k = some (shards, counter)) {i : ℕ} (hi : i < k) :
    ∃ c nodes c', assign args random nodeNames i c = some (nodes, c') ∧
      shards.lookup ((i : ℤ) + 1) = some nodes := by
  induction k generalizing shards counter with
  | zero => omega
  | succ k ih =>
    obtain ⟨⟨before, c⟩, hbefore, h⟩ := Option.bind_eq_some_iff.mp h
    obtain ⟨⟨nodes, c'⟩, hassign, heq⟩ := Option.map_eq_some_iff.mp h
    cases heq
    by_cases hik : i = k
    · subst hik
      exact ⟨c, nodes, c', hassign, AList.lookup_insert _⟩
    · obtain ⟨d, ns, d', hd, hl⟩ := ih hbefore (by omega)
      refine ⟨d, ns, d', hd, ?_⟩
      rwa [AList.lookup_insert_ne (by omega)]

/-- The map is valid if and only if every shard was assigned known nodes, each once. -/
theorem isValid_iff_assigned {nodes : AList fun _ : String => NodeInfo} (hshards : 0 ≤ args.shards)
    (h : makeShards args random nodeNames args.shards.toNat = some (shards, counter)) :
    (⟨nodes, shards, args.shards⟩ : ShardMapState).isValid = true ↔
      ∀ i < args.shards.toNat, ∀ ns : List String, shards.lookup ((i : ℤ) + 1) = some ns →
        ns.Nodup ∧ ∀ node ∈ ns, node ∈ nodes.keys := by
  rw [ShardMapState.isValid_iff_wellFormed]
  constructor
  · rintro ⟨-, hwf⟩ i - ns hl
    exact (hwf _ ns hl).2
  · intro hall
    refine ⟨hshards, fun s ns hl => ?_⟩
    have hmem : s ∈ shards := AList.lookup_isSome.mp (Option.isSome_iff_exists.mpr ⟨ns, hl⟩)
    have hrange := (mem_makeShards h s).mp hmem
    have hs : s = ((s.toNat - 1 : ℕ) : ℤ) + 1 := by omega
    refine ⟨?_, hall (s.toNat - 1) (by omega) ns (hs ▸ hl)⟩
    show 1 ≤ s ∧ s ≤ args.shards
    omega

theorem makeShards_isSome (h : ∀ i < k, ∀ c, ∃ r, assign args random nodeNames i c = some r) :
    ∃ s, makeShards args random nodeNames k = some s := by
  induction k with
  | zero => exact ⟨_, rfl⟩
  | succ k ih =>
    obtain ⟨s, hs⟩ := ih fun i hi => h i (by omega)
    obtain ⟨r, hr⟩ := h k (by omega) s.2
    exact ⟨_, by rw [makeShards, hs, Option.bind_some, hr, Option.map_some]⟩

theorem numReplicas_le {i : ℕ} {num : ℤ} (h : numReplicas args random i = some num) :
    num ≤ args.maxReplicas.getD args.replicas := by
  unfold numReplicas at h
  split at h
  · next hmax =>
    cases h
    rw [hmax, Option.getD_none]
  · next maxReplicas hmax =>
    split_ifs at h with hlt
    cases h
    rw [hmax, Option.getD_some]
    exact (random.randint_mem i _ _ (not_lt.mp hlt)).2

/-! ### Striping -/

section Striped

variable {n : ℕ}

theorem assign_striped (hstripe : args.stripe = true) (hn : 0 < n) {i : ℕ} {num : ℤ}
    (hnum : numReplicas args random i = some num) (c : ℕ) :
    assign args random (names n) i c = some ((stripe n c num.toNat).map nodeName, c + num.toNat) := by
  rw [assign, hnum, Option.bind_some, if_pos hstripe, stripeLoop_eq hn]

/-- What striping assigned: the number that was asked for, from where the counter stood. -/
theorem assign_cases (hstripe : args.stripe = true) (hn : 0 < n) {i c c' : ℕ} {nodes : List String}
    (h : assign args random (names n) i c = some (nodes, c')) :
    ∃ num, numReplicas args random i = some num ∧ nodes = (stripe n c num.toNat).map nodeName ∧
      c' = c + num.toNat := by
  obtain ⟨num, hnum, -⟩ := Option.bind_eq_some_iff.mp h
  rw [assign_striped hstripe hn hnum, Option.some.injEq, Prod.mk.injEq] at h
  exact ⟨num, hnum, h.1.symm, h.2.symm⟩

/-- The replicas of a node, over all shards so far, are its turns. -/
theorem count_makeShards (hstripe : args.stripe = true) (hn : 0 < n)
    (h : makeShards args random (names n) k = some (shards, counter)) (j : ℕ) :
    (shards.entries.map fun e => e.2.count (nodeName j)).sum = (stripe n 0 counter).count j := by
  induction k generalizing shards counter with
  | zero =>
    cases h
    rfl
  | succ k ih =>
    obtain ⟨⟨before, c⟩, hbefore, h⟩ := Option.bind_eq_some_iff.mp h
    obtain ⟨⟨nodes, c'⟩, hassign, heq⟩ := Option.map_eq_some_iff.mp h
    cases heq
    obtain ⟨num, -, rfl, rfl⟩ := assign_cases hstripe hn hassign
    have hnew : (k : ℤ) + 1 ∉ before := by
      rw [mem_makeShards hbefore]
      omega
    have happend := stripe_append (n := n) (c := 0) (r := c) num.toNat
    rw [Nat.zero_add] at happend
    rw [AList.entries_insert_of_notMem hnew, List.map_cons, List.sum_cons, ih hbefore, ← happend, List.count_append,
      List.count_map_of_injective _ nodeName nodeName_injective, Nat.add_comm]

/-- The nodes of a shard are distinct if and only if they are at most as many as there are. -/
theorem nodup_striped_iff (hn : 0 < n) (c : ℕ) (num : ℤ) :
    ((stripe n c num.toNat).map nodeName).Nodup ↔ num ≤ n := by
  rw [List.nodup_map_iff nodeName_injective, nodup_stripe_iff hn, Int.toNat_le]

end Striped

end Shards

/-- The number of replicas on a node. -/
theorem length_shardsForNode (st : ShardMapState) (nodeName : String) :
    (st.shardsForNode nodeName).length = (st.shardsToNodes.entries.map fun e => e.2.count nodeName).sum := by
  rw [ShardMapState.shardsForNode, List.length_flatMap]
  congr 1
  refine List.map_congr_left fun e _ => ?_
  rw [List.length_map, List.count_eq_length_filter]

/-- **Striped maps.** For at least one node, and numbers of replicas that can be drawn, the script
makes a map; no two nodes have numbers of replicas in it that differ by more than one; and `IsValid`
accepts it if and only if no shard has more replicas than there are nodes, as when `--max-replicas`,
or else `--replicas`, is no more than that. -/
theorem striped_valid_iff {args : Args} {random : Random} (hnodes : 1 ≤ args.nodes) (hshards : 0 ≤ args.shards)
    {port : ℤ} (hport : args.basePort = .int port) (hstripe : args.stripe = true)
    (hdraw : ∀ i < args.shards.toNat, (numReplicas args random i).isSome = true) :
    ∃ st, makeShardmap args random = some st ∧
      (st.isValid = true ↔
        ∀ i < args.shards.toNat, ∀ num, numReplicas args random i = some num → num ≤ args.nodes) ∧
      (args.maxReplicas.getD args.replicas ≤ args.nodes → st.isValid = true) ∧
      ∀ a ∈ st.nodes.keys, ∀ b ∈ st.nodes.keys, (st.shardsForNode a).length ≤ (st.shardsForNode b).length + 1 := by
  have hn : 0 < args.nodes.toNat := by omega
  obtain ⟨nodes, hmade⟩ := makeNodes_isSome hport args.nodes.toNat
  have hkeys := keys_makeNodes hmade
  have hmem (j : ℕ) (hj : j < args.nodes.toNat) : nodeName j ∈ nodes.keys := by
    rw [← List.mem_reverse, hkeys]
    exact List.mem_of_getElem? (getElem?_names hj)
  obtain ⟨⟨shards, counter⟩, hs⟩ :
      ∃ s, makeShards args random (names args.nodes.toNat) args.shards.toNat = some s := by
    refine makeShards_isSome fun i hi c => ?_
    obtain ⟨num, hnum⟩ := Option.isSome_iff_exists.mp (hdraw i hi)
    exact ⟨_, assign_striped hstripe hn hnum c⟩
  have hvalid : (⟨nodes, shards, args.shards⟩ : ShardMapState).isValid = true ↔
      ∀ i < args.shards.toNat, ∀ num, numReplicas args random i = some num → num ≤ args.nodes := by
    rw [isValid_iff_assigned hshards hs]
    refine forall₂_congr fun i hi => ?_
    obtain ⟨c, ns, c', hassign, hl⟩ := lookup_makeShards hs hi
    obtain ⟨num, hnum, rfl, -⟩ := assign_cases hstripe hn hassign
    have hknown : ∀ node ∈ (stripe args.nodes.toNat c num.toNat).map nodeName, node ∈ nodes.keys := by
      intro node hnode
      obtain ⟨j, hj, rfl⟩ := List.mem_map.mp hnode
      exact hmem j (lt_of_mem_stripe hn hj)
    have hnodup := nodup_striped_iff hn c num
    rw [Int.toNat_of_nonneg (by omega)] at hnodup
    simp only [hl, hnum, Option.some.injEq, forall_eq', hnodup]
    exact and_iff_left hknown
  refine ⟨⟨nodes, shards, args.shards⟩, ?_, hvalid, ?_, ?_⟩
  · rw [makeShardmap, hmade, Option.bind_some, hkeys, hs, Option.map_some]
  · intro hle
    exact hvalid.mpr fun i _ num hnum => (numReplicas_le hnum).trans hle
  · intro a ha b hb
    show ((⟨nodes, shards, args.shards⟩ : ShardMapState).shardsForNode a).length ≤
      ((⟨nodes, shards, args.shards⟩ : ShardMapState).shardsForNode b).length + 1
    have hname {a : String} (ha : a ∈ nodes.keys) : ∃ j < args.nodes.toNat, nodeName j = a := by
      rw [← List.mem_reverse, hkeys] at ha
      simpa [names] using ha
    obtain ⟨i, hi, rfl⟩ := hname ha
    obtain ⟨j, hj, rfl⟩ := hname hb
    rw [length_shardsForNode, length_shardsForNode, count_makeShards hstripe hn hs, count_makeShards hstripe hn hs]
    exact count_stripe_le hi hj

/-- The least number of replicas, and the first nodes. -/
def least : Random where
  randint _ lo _ := lo
  sample _ names k := names.take k
  randint_mem _ _ _ h := ⟨le_rfl, h⟩
  sample_subperm _ _ _ h := ⟨(List.take_sublist _ _).subperm, List.length_take_of_le h⟩

/-- Three nodes, and four shards with two replicas each. -/
def fourByTwo : Args := ⟨3, 4, 2, none, true, "127.0.0.1", .int 9000⟩

theorem striped_valid_iff_fourByTwo : ∃ st, makeShardmap fourByTwo least = some st ∧ st.isValid = true := by
  obtain ⟨st, hst, -, hvalid, -⟩ := striped_valid_iff (show 1 ≤ fourByTwo.nodes by decide)
    (show 0 ≤ fourByTwo.shards by decide) (show fourByTwo.basePort = .int 9000 from rfl) rfl
    (fun i _ => (rfl : (numReplicas fourByTwo least i).isSome = true))
  exact ⟨st, hst, hvalid (by decide)⟩

/-- **A striped map can be invalid.** One node and two replicas: the node is listed twice. -/
theorem striped_invalid :
    ∃ st, makeShardmap ⟨1, 1, 2, none, true, "127.0.0.1", .int 9000⟩ least = some st ∧
      st.nodesForShard 1 = ["n1", "n1"] ∧ st.isValid = false :=
  ⟨_, rfl, by decide +kernel, by decide +kernel⟩

/-- **Sampled maps.** Without `--stripe`, every map that is made is valid. -/
theorem sampled_valid {args : Args} {random : Random} (hshards : 0 ≤ args.shards) (hstripe : args.stripe = false)
    {st : ShardMapState} (h : makeShardmap args random = some st) : st.isValid = true := by
  obtain ⟨nodes, hmade, h⟩ := Option.bind_eq_some_iff.mp h
  obtain ⟨⟨shards, counter⟩, hs, rfl⟩ := Option.map_eq_some_iff.mp h
  rw [isValid_iff_assigned hshards hs]
  intro i hi ns hns
  obtain ⟨c, ns', c', hassign, hl⟩ := lookup_makeShards hs hi
  obtain rfl := Option.some.inj (hns.symm.trans hl)
  obtain ⟨num, -, hassign⟩ := Option.bind_eq_some_iff.mp hassign
  rw [if_neg (by simp [hstripe])] at hassign
  split_ifs at hassign with hnum
  cases hassign
  obtain ⟨hsub, -⟩ := random.sample_subperm i nodes.keys.reverse num.toNat (by omega)
  constructor
  · obtain ⟨l, hperm, hsublist⟩ := hsub
    exact hperm.nodup_iff.mp (hsublist.nodup (List.nodup_reverse.mpr nodes.keys_nodup))
  · intro node hnode
    exact List.mem_reverse.mp (hsub.subset hnode)

end Cs426.Kv.MakeShardmap
