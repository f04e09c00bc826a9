import Cs426.Kv.Client
import Cs426.Lib.Scan

/-!
# Failover

The two loops that ask the nodes of a shard one after the other: `Get` of the client
(`lab4/kv/client.go`) and `fetchShardContent` of the server (`lab4/kv/server.go`). Both
begin at a random index and go around the list; the server leaves itself out.

The loops are modelled whole, as functions of what the pool and the nodes answer. Each
returns, beside what the source returns, the nodes it has called, in order; `none` is an
index out of range, or a start index that `rand.Intn` does not give.

## What is proved

* `get_eq`, `fetchShardContent_eq` — the loops are scans of the rotated list.
* `getLoop_map_scan` — what `Get` returns is what a session, which asks node after node in
  steps of its own, computes from the answers.
* `failover_scans` — both are exhaustive, ask no node twice and stop at the first success.
-/

namespace Cs426.Kv

open Cs426.Scan

/-- A call of one node: a client for it from the pool, then the request. -/
def callNode {α : Type*} (getClient : String → Except Status Unit) (request : String → Except Status α) (node : String) :
    Except Status α :=
  match getClient node with
  | .error err => .error err
  | .ok _ => request node

/-- The node answers: there is a client for it, and the request succeeds. -/
def Answers {α : Type*} (getClient : String → Except Status Unit) (request : String → Except Status α) (node : String)
    (a : α) : Prop :=
  getClient node = .ok () ∧ request node = .ok a

/-- The node fails: there is no client for it, or the request to it fails. -/
def Fails {α : Type*} (getClient : String → Except Status Unit) (request : String → Except Status α) (node : String)
    (err : Status) : Prop :=
  getClient node = .error err ∨ getClient node = .ok () ∧ request node = .error err

section CallNode

variable {α : Type*} {getClient : String → Except Status Unit} {request : String → Except Status α} {node : String}

theorem callNode_eq_ok_iff {a : α} : callNode getClient request node = .ok a ↔ Answers getClient request node a := by
  unfold callNode Answers
  cases getClient node <;> simp

theorem callNode_eq_error_iff {err : Status} :
    callNode getClient request node = .error err ↔ Fails getClient request node err := by
  unfold callNode Fails
  cases getClient node <;> simp

theorem callNode_isOk_eq_false_iff :
    (callNode getClient request node).isOk = false ↔ ∃ err, Fails getClient request node err := by
  simp only [← callNode_eq_error_iff]
  cases callNode getClient request node <;> simp [Except.isOk, Except.toBool]

end CallNode

namespace Client

variable (getClient : String → Except Status Unit) (request : String → Except Status GetResponse)

/-- `kv.get`. -/
def getNode (node : String) : Except Status GetResponse := callNode getClient request node

/-- `Get`, `nodes` being those of the key's shard. -/
def get (nodes : List String) (index : ℕ) : Option (List String × Except Status GetResponse) :=
  if nodes = [] then some ([], .error noNodeFound)
  else if index < nodes.length then
    (walk nodes (fun _ => false) (getNode getClient request) index nodes.length 0 none).map fun r =>
      match r.2 with
      | .ok res => (r.1, .ok res)
      | .error (some err) => (r.1, .error err)
      | .error none => (r.1, .ok ⟨"", false⟩)
  else none

end Client

namespace Server

variable (srv : Server) (getClient : String → Except Status Unit)
  (request : String → Except Status (List GetShardValue))

def fetchNodeShardContent (node : String) : Except Status (List GetShardValue) := callNode getClient request node

/-- The snapshot, empty if no node gave one, and the error. -/
def fetchShardContent (nodes : List String) (index : ℕ) :
    Option (List String × List GetShardValue × Option Status) :=
  if index < nodes.length then
    (walk nodes (· == srv.nodeName) (fetchNodeShardContent getClient request) index nodes.length 0 none).map fun r =>
      match r.2 with
      | .ok values => (r.1, values, none)
      | .error err => (r.1, [], err)
  else none

end Server

/-! ### The loops as scans -/

/-- `Get`'s result from the outcome of its loop. -/
def Client.answer : Except (Option Status) GetResponse → Except Status GetResponse
  | .ok res => .ok res
  | .error (some err) => .error err
  | .error none => .ok ⟨"", false⟩

theorem Client.get_eq (getClient : String → Except Status Unit) (request : String → Except Status GetResponse)
    {nodes : List String} {index : ℕ} (hindex : index < nodes.length) :
    Client.get getClient request nodes index =
      some ((scan (getNode getClient request) (nodes.rotate index) none).1,
        answer (scan (getNode getClient request) (nodes.rotate index) none).2) := by
  have hne : nodes ≠ [] := List.ne_nil_of_length_pos (by omega)
  have hfilter : (nodes.rotate index).filter (fun _ => !false) = nodes.rotate index := by simp
  rw [get, if_neg hne, if_pos hindex, walk_eq_scan, hfilter, Option.map_some]
  cases (scan (getNode getClient request) (nodes.rotate index) none).2 with
  | ok res => rfl
  | error err => cases err <;> rfl

theorem Server.fetchShardContent_eq (srv : Server) (getClient : String → Except Status Unit)
    (request : String → Except Status (List GetShardValue)) {nodes : List String} {index : ℕ}
    (hindex : index < nodes.length) :
    srv.fetchShardContent getClient request nodes index =
      match (scan (fetchNodeShardContent getClient request) (srv.fetchOrder nodes index) none).2 with
      | .ok values =>
        some ((scan (fetchNodeShardContent getClient request) (srv.fetchOrder nodes index) none).1, values, none)
      | .error err =>
        some ((scan (fetchNodeShardContent getClient request) (srv.fetchOrder nodes index) none).1, [], err) := by
  have horder : (nodes.rotate index).filter (fun node => !(node == srv.nodeName)) = srv.fetchOrder nodes index := rfl
  rw [fetchShardContent, if_pos hindex, walk_eq_scan, horder, Option.map_some]
  split <;> rfl

/-- What a session returns, having asked the nodes of the scan one by one. -/
theorem getLoop_map_scan (ask : String → Except Status GetResponse) (order : List String) (err : Option Status) :
    getLoop err ((scan ask order err).1.map ask) = Client.answer (scan ask order err).2 := by
  induction order generalizing err with
  | nil => cases err <;> rfl
  | cons node rest ih =>
    cases hask : ask node with
    | ok res => simp [scan, hask, getLoop, Client.answer]
    | error e => simpa [scan, hask, getLoop] using ih (some e)

namespace Client

variable {ask : String → Except Status GetResponse} {order asked : List String}
  {res : Except (Option Status) GetResponse}

/-- A scan of at least one node ends with an answer, or with the error of the last. -/
theorem answer_cases (h : Scanned ask order asked res) (hne : order ≠ []) :
    (∃ r, res = .ok r) ∨ ∃ node err, res = .error (some err) ∧ asked = order ∧ asked.getLast? = some node ∧
      ask node = .error err := by
  cases hres : res with
  | ok r => exact .inl ⟨r, rfl⟩
  | error err =>
    obtain ⟨hasked, -, ⟨hnil, -⟩ | ⟨node, e, hlast, hnode, rfl⟩⟩ := h.exhausted err hres
    · exact absurd hnil hne
    · exact .inr ⟨node, e, rfl, hasked, by rw [hasked, hlast], hnode⟩

theorem answer_ok_iff (h : Scanned ask order asked res) (hne : order ≠ []) (r : GetResponse) :
    answer res = .ok r ↔ ∃ node, asked.getLast? = some node ∧ ask node = .ok r := by
  rw [← h.ok_iff r]
  rcases answer_cases h hne with ⟨r', rfl⟩ | ⟨node, err, rfl, -⟩ <;> simp [answer]

theorem answer_error_iff (h : Scanned ask order asked res) (hne : order ≠ []) :
    (∃ err, answer res = .error err) ↔ ∀ node ∈ order, (ask node).isOk = false := by
  rw [← h.error_iff]
  rcases answer_cases h hne with ⟨r', rfl⟩ | ⟨node, err, rfl, -⟩ <;> simp [answer]

theorem last_of_answer_error (h : Scanned ask order asked res) (hne : order ≠ []) {err : Status}
    (herr : answer res = .error err) : asked = order ∧ ∃ node, asked.getLast? = some node ∧ ask node = .error err := by
  rcases answer_cases h hne with ⟨r', rfl⟩ | ⟨node, err', rfl, hasked, hlast, hnode⟩
  · cases herr
  · obtain rfl := Except.error.inj herr
    exact ⟨hasked, node, hlast, hnode⟩

end Client

/-- Nodes listed once are asked at most once. -/
theorem nodup_fetchOrder (srv : Server) {nodes : List String} (h : nodes.Nodup) (index : ℕ) :
    (srv.fetchOrder nodes index).Nodup :=
  (List.nodup_rotate.mpr h).filter _

/-! ### The guarantee -/

/-- **Failover**: from any start index and whatever the pool and the nodes answer, `Get` asks the
nodes in rotated order, each at most once, up to the first that answers; it fails when all fail,
with the error of the last. `fetchShardContent` does so with all nodes but the server itself, and
gives an empty snapshot of its own only when these all fail, or there are none. -/
theorem failover_scans {nodes : List String} (hnodup : nodes.Nodup) {index : ℕ} (hindex : index < nodes.length)
    (getClient : String → Except Status Unit) :
    (∀ request : String → Except Status GetResponse, ∃ asked answer,
      Client.get getClient request nodes index = some (asked, answer) ∧
      asked <+: nodes.rotate index ∧ asked.Nodup ∧
      (∀ node ∈ asked.dropLast, ∃ err, Fails getClient request node err) ∧
      (∀ res, answer = .ok res ↔ ∃ node, asked.getLast? = some node ∧ Answers getClient request node res) ∧
      ((∃ err, answer = .error err) ↔ ∀ node ∈ nodes, ∃ err, Fails getClient request node err) ∧
      (∀ err, answer = .error err → asked = nodes.rotate index ∧
        ∃ node, asked.getLast? = some node ∧ Fails getClient request node err)) ∧
    ∀ (srv : Server) (request : String → Except Status (List GetShardValue)), ∃ asked values err,
      srv.fetchShardContent getClient request nodes index = some (asked, values, err) ∧
      asked <+: (nodes.rotate index).filter (· ≠ srv.nodeName) ∧ asked.Nodup ∧ srv.nodeName ∉ asked ∧
      (∀ node ∈ asked.dropLast, ∃ e, Fails getClient request node e) ∧
      ((∃ node, asked.getLast? = some node ∧ Answers getClient request node values ∧ err = none) ∨
        values = [] ∧ asked = (nodes.rotate index).filter (· ≠ srv.nodeName) ∧
          (∀ node ∈ nodes, node ≠ srv.nodeName → ∃ e, Fails getClient request node e) ∧
          ((∀ node ∈ nodes, node = srv.nodeName) ∧ err = none ∨
            ∃ node e, asked.getLast? = some node ∧ Fails getClient request node e ∧ err = some e)) := by
  refine ⟨fun request => ?_, fun srv request => ?_⟩
  · have hs := scanned (Client.getNode getClient request) (nodes.rotate index)
    have hrotate : nodes.rotate index ≠ [] := fun h => by
      rw [List.rotate_eq_nil_iff.mp h] at hindex
      exact Nat.not_lt_zero _ hindex
    have herror := Client.answer_error_iff hs hrotate
    simp only [List.mem_rotate] at herror
    simp only [← callNode_isOk_eq_false_iff]
    simp only [← callNode_eq_ok_iff, ← callNode_eq_error_iff]
    exact ⟨_, _, Client.get_eq getClient request hindex, hs.isPrefix,
      hs.isPrefix.sublist.nodup (List.nodup_rotate.mpr hnodup), hs.failed, Client.answer_ok_iff hs hrotate, herror,
      fun err => Client.last_of_answer_error hs hrotate⟩
  · have horder : (nodes.rotate index).filter (· ≠ srv.nodeName) = srv.fetchOrder nodes index := by
      refine List.filter_congr fun node _ => ?_
      by_cases hnode : node = srv.nodeName <;> simp [hnode]
    have hs := scanned (Server.fetchNodeShardContent getClient request) (srv.fetchOrder nodes index)
    have hnodup' := hs.isPrefix.sublist.nodup (nodup_fetchOrder srv hnodup index)
    have hself : srv.nodeName ∉ (scan (Server.fetchNodeShardContent getClient request)
        (srv.fetchOrder nodes index) none).1 := fun hmem =>
      (Server.mem_fetchOrder.mp (hs.isPrefix.subset hmem)).2 rfl
    rw [Server.fetchShardContent_eq srv getClient request hindex, horder]
    simp only [← callNode_isOk_eq_false_iff]
    simp only [← callNode_eq_ok_iff, ← callNode_eq_error_iff]
    cases hres : (scan (Server.fetchNodeShardContent getClient request) (srv.fetchOrder nodes index) none).2 with
    | ok values =>
      obtain ⟨node, hlast, hnode⟩ := (hs.ok_iff values).mp hres
      exact ⟨_, values, none, rfl, hs.isPrefix, hnodup', hself, hs.failed, .inl ⟨node, hlast, hnode, rfl⟩⟩
    | error err =>
      obtain ⟨hasked, hall, hlast⟩ := hs.exhausted err hres
      refine ⟨_, [], err, rfl, hs.isPrefix, hnodup', hself, hs.failed, .inr ⟨rfl, hasked, ?_, ?_⟩⟩
      · exact fun node hnode hne => hall node (Server.mem_fetchOrder.mpr ⟨hnode, hne⟩)
      · rw [hasked]
        refine hlast.imp_left fun ⟨hnil, herr⟩ => ⟨fun node hnode => by_contra fun hne => ?_, herr⟩
        have hmem : node ∈ srv.fetchOrder nodes index := Server.mem_fetchOrder.mpr ⟨hnode, hne⟩
        simp [hnil] at hmem

/-- Only `n3` answers. -/
def onlyThird {α : Type*} (a : α) (node : String) : Except Status α :=
  if node = "n3" then .ok a else .error ⟨.other 14, node⟩

/-- From the second of three nodes on, of which only the third answers: the second is asked and
fails, the third answers, the first is not asked. A server among the nodes is left out, and if no
other node answers its snapshot is empty, with the error of the last. -/
theorem failover_scans_threeNodes :
    Client.get (fun _ => .ok ()) (onlyThird ⟨"v", true⟩) ["n1", "n2", "n3"] 1 =
        some (["n2", "n3"], .ok ⟨"v", true⟩) ∧
      (makeKvServer "n2" 0).fetchShardContent (fun _ => .ok ()) (onlyThird [⟨"k", "v", 5⟩]) ["n1", "n2", "n3"] 1 =
        some (["n3"], [⟨"k", "v", 5⟩], none) ∧
      (makeKvServer "n3" 0).fetchShardContent (fun _ => .ok ()) (onlyThird [⟨"k", "v", 5⟩]) ["n1", "n2", "n3"] 1 =
        some (["n2", "n1"], [], some ⟨.other 14, "n1"⟩) ∧
      (∀ asked answer, Client.get (fun _ => .ok ()) (onlyThird ⟨"v", true⟩) ["n1", "n2", "n3"] 1 = some (asked, answer) →
        asked <+: ["n2", "n3", "n1"] ∧ asked.Nodup) ∧
      ∀ asked values err, (makeKvServer "n3" 0).fetchShardContent (fun _ => .ok ()) (onlyThird [⟨"k", "v", 5⟩])
        ["n1", "n2", "n3"] 1 = some (asked, values, err) → asked.Nodup ∧ "n3" ∉ asked := by
  have hscans := failover_scans (show (["n1", "n2", "n3"] : List String).Nodup by decide) (show 1 < 3 by decide)
    fun _ => .ok ()
  refine ⟨by rfl, by rfl, by rfl, fun asked answer hget => ?_, fun asked values err hfetch => ?_⟩
  · obtain ⟨asked', answer', hget', hpre, hnodup, -⟩ := hscans.1 (onlyThird ⟨"v", true⟩)
    obtain ⟨rfl, -⟩ := Prod.mk.inj (Option.some.inj (hget.symm.trans hget'))
    exact ⟨hpre, hnodup⟩
  · obtain ⟨asked', values', err', hfetch', -, hnodup, hself, -⟩ :=
      hscans.2 (makeKvServer "n3" 0) (onlyThird [⟨"k", "v", 5⟩])
    obtain ⟨rfl, -⟩ := Prod.mk.inj (Option.some.inj (hfetch.symm.trans hfetch'))
    exact ⟨hnodup, hself⟩

end Cs426.Kv
