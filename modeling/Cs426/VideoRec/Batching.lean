import Mathlib.Logic.Relation
import Cs426.VideoRec.Ranking
import Cs426.VideoRec.Service

/-!
# Batching does not show

`GetTopVideos` asks both services in batches of `MaxBatchSize`. With services that do not fail
and accept batches of that size, nothing depends on the size: a call comes to what
`recommendAtOnce` says, which looks up all ids in one go.

## The model

`userRequests` and `videoRequests` are the requests that a call sends; `recommend_congr` says
that these are all: what a service would answer to any other does not matter. `getTopVideos` is a
whole call, the cache being read as it is when the call falls back; `reaches_result` says that it
is what the call of a running service comes to.

## What is proved

* `likedBySubscriptions_eq`, `fetchVideos_eq` — the two loops as one lookup each.
* `recommend_eq_atOnce` — so the whole, given enough turns for the loops.
* `batching_invisible` — every request passes the checks of the services, `fetchVideos` finds
  what it is asked for, and two batch sizes give the same response.
-/

namespace Cs426.VideoRec

open Cs426.Batches

/-! ### A whole call -/

/-- The response of a call, from what it has come to. -/
def Outcome.result (cfg : Config) (cache : TrendingVideos) (req : GetTopVideosRequest) :
    Outcome → Except Status GetTopVideosResponse
  | userServiceErr err | videoServiceErr err =>
    if cfg.options.disableFallback = false then fallBack cache req else .error err
  | ranked videos => .ok ⟨videos, false⟩

def getTopVideos (cfg : Config) (rank : Coefficients → Coefficients → UInt64) (sorter : Sorter) (b : Backend)
    (fuel : ℕ) (cache : TrendingVideos) (req : GetTopVideosRequest) : Option (Except Status GetTopVideosResponse) :=
  (recommend cfg rank sorter b fuel req).map (Outcome.result cfg cache req)

/-- One update of a call, whatever the counters are. -/
def Phase.Follows (cfg : Config) (cache : TrendingVideos) (phase phase' : Phase) : Prop :=
  ∃ c c', phase.next cfg cache c = some (phase', c')

/-- A call of the running service whose requests are answered returns that response. -/
theorem reaches_result (cfg : Config) (cache : TrendingVideos) (req : GetTopVideosRequest) (latency : Int64)
    (outcome : Outcome) : ∃ exit, exit.result = outcome.result cfg cache req ∧
      Relation.ReflTransGen (Phase.Follows cfg cache) (outcome.phase req latency) (.returned exit) := by
  have hleave : ∀ exit, Relation.ReflTransGen (Phase.Follows cfg cache) (.leaving exit) (.returned exit) :=
    fun exit => .head ⟨Service.fresh.counters, _, rfl⟩ (.single ⟨Service.fresh.counters, _, rfl⟩)
  have hafter : ∀ err, ∃ exit,
      exit.result = (if cfg.options.disableFallback = false then fallBack cache req else .error err) ∧
      Relation.ReflTransGen (Phase.Follows cfg cache) (afterServiceErr cfg err req) (.returned exit) := by
    intro err
    rw [afterServiceErr]
    split_ifs
    · cases hback : fallBack cache req with
      | error err' =>
        refine ⟨.fellBack (.error err'), rfl, .head ⟨Service.fresh.counters, Service.fresh.counters, ?_⟩ (hleave _)⟩
        simp only [Phase.next, hback]
      | ok response =>
        refine ⟨.fellBack (.ok response), rfl, .head (b := .stale response)
          ⟨Service.fresh.counters, Service.fresh.counters, ?_⟩ (.head ⟨Service.fresh.counters, _, rfl⟩ (hleave _))⟩
        simp only [Phase.next, hback]
    · exact ⟨.failed err, rfl, .head ⟨Service.fresh.counters, _, rfl⟩ (hleave _)⟩
  cases outcome with
  | userServiceErr err | videoServiceErr err =>
    obtain ⟨exit, hresult, hreach⟩ := hafter err
    exact ⟨exit, hresult, .head ⟨Service.fresh.counters, _, rfl⟩ hreach⟩
  | ranked videos => exact ⟨.answered videos, rfl, .head ⟨Service.fresh.counters, _, rfl⟩ (hleave _)⟩

/-! ### The requests of a call -/

/-- What `likedBySubscriptions` makes of the `k`-th answer. -/
def likedCall (b : Backend) (k : ℕ) (batch : List UInt64) : Except Status (List UInt64) :=
  (b.getUser (k + 1) batch).map (·.flatMap UserInfo.likedVideos)

/-- The `GetUser` requests, each with its number. -/
def userRequests (cfg : Config) (b : Backend) (fuel : ℕ) (req : GetTopVideosRequest) : List (ℕ × List UInt64) :=
  if hasClient cfg cfg.mockUserFlag then
    (0, [req.userId]) ::
      match b.getUser 0 [req.userId] with
      | .ok (user :: _) =>
        (sent cfg.options.maxBatchSize (likedCall b) user.subscribedTo fuel 0 0).map fun c => (c.1 + 1, c.2)
      | _ => []
  else []

/-- The `GetVideo` requests, each with its number. -/
def videoRequests (cfg : Config) (b : Backend) (fuel : ℕ) (req : GetTopVideosRequest) : List (ℕ × List UInt64) :=
  if hasClient cfg cfg.mockUserFlag then
    match b.getUser 0 [req.userId] with
    | .ok (user :: _) =>
      match likedBySubscriptions cfg b fuel user.subscribedTo with
      | some (.ok candidates) =>
        if hasClient cfg cfg.mockVideoFlag then
          sent cfg.options.maxBatchSize b.getVideo (deduplicateIds candidates) fuel 0 0
        else []
      | _ => []
    | _ => []
  else []

theorem likedBySubscriptions_eq_collected (cfg : Config) (b : Backend) (fuel : ℕ) (ids : List UInt64) :
    likedBySubscriptions cfg b fuel ids =
      (batchLoop cfg.options.maxBatchSize (likedCall b) ids fuel 0 0 []).map collected := by
  rw [likedBySubscriptions]
  congr 1
  funext ⟨found, err⟩
  cases err <;> rfl

/-- Nothing but the answers to these requests matters. -/
theorem recommend_congr {cfg : Config} {rank : Coefficients → Coefficients → UInt64} {sorter : Sorter} {b b' : Backend}
    {fuel : ℕ} {req : GetTopVideosRequest}
    (huser : ∀ c ∈ userRequests cfg b fuel req, b'.getUser c.1 c.2 = b.getUser c.1 c.2)
    (hvideo : ∀ c ∈ videoRequests cfg b fuel req, b'.getVideo c.1 c.2 = b.getVideo c.1 c.2) :
    recommend cfg rank sorter b' fuel req = recommend cfg rank sorter b fuel req := by
  rw [userRequests] at huser
  rw [videoRequests] at hvideo
  rw [recommend, recommend]
  by_cases hclient : hasClient cfg cfg.mockUserFlag = true
  swap
  · rw [if_neg hclient, if_neg hclient]
  rw [if_pos hclient] at huser hvideo
  rw [if_pos hclient, if_pos hclient, huser _ (List.mem_cons_self ..)]
  cases hfirst : b.getUser 0 [req.userId] with
  | error err => rfl
  | ok users =>
    cases users with
    | nil => rfl
    | cons user others =>
      rw [hfirst] at huser hvideo
      have hliked : likedBySubscriptions cfg b' fuel user.subscribedTo =
          likedBySubscriptions cfg b fuel user.subscribedTo := by
        have hcalls : ∀ c ∈ sent cfg.options.maxBatchSize (likedCall b) user.subscribedTo fuel 0 0,
            likedCall b' c.1 c.2 = likedCall b c.1 c.2 := fun c hc => by
          rw [likedCall, likedCall, huser (c.1 + 1, c.2) (List.mem_cons_of_mem _ (List.mem_map_of_mem hc))]
        rw [likedBySubscriptions_eq_collected, likedBySubscriptions_eq_collected, batchLoop_congr hcalls]
      simp only [hliked]
      cases hcandidates : likedBySubscriptions cfg b fuel user.subscribedTo with
      | none => rfl
      | some liked =>
        cases liked with
        | error err => rfl
        | ok candidates =>
          simp only [hcandidates] at hvideo
          have hfetch : fetchVideos cfg b' fuel (deduplicateIds candidates) =
              fetchVideos cfg b fuel (deduplicateIds candidates) := by
            rw [fetchVideos, fetchVideos]
            split_ifs with hclient'
            · rw [if_pos hclient'] at hvideo
              rw [batchLoop_congr hvideo]
            · rfl
          simp only [Option.bind_some, hfetch]

/-! ### Services that do not fail -/

/-- The answers of the two services, nothing failing. -/
def Backend.reliable (udb : UserServiceServer) (vdb : VideoServiceServer) : Backend :=
  .ofServers udb vdb (fun _ => .handled false) fun _ => .handled false

/-- A batch size that both services accept. -/
structure Fits (udb : UserServiceServer) (vdb : VideoServiceServer) (size : ℤ) : Prop where
  pos : 1 ≤ size
  user : size ≤ udb.maxBatchSize
  video : size ≤ vdb.maxBatchSize

def Config.withBatchSize (cfg : Config) (size : ℤ) : Config :=
  { cfg with options := { cfg.options with maxBatchSize := size } }

/-- `GetTopVideos` without batches. -/
def recommendAtOnce (cfg : Config) (rank : Coefficients → Coefficients → UInt64) (sorter : Sorter)
    (udb : UserServiceServer) (vdb : VideoServiceServer) (req : GetTopVideosRequest) : Option Outcome :=
  if hasClient cfg cfg.mockUserFlag then
    match udb.users req.userId with
    | none =>
      some (.userServiceErr (if cfg.mockUserFlag then ⟨.unknown, "Mock User service client returned Error"⟩
        else UserServiceServer.notFound req.userId))
    | some user =>
      match lookupLoop UserServiceServer.notFound udb.users user.subscribedTo [] with
      | .error err => some (.userServiceErr err)
      | .ok users =>
        if hasClient cfg cfg.mockVideoFlag then
          match lookupLoop VideoServiceServer.notFound vdb.videos
            (deduplicateIds (users.flatMap UserInfo.likedVideos)) [] with
          | .error _ =>
            some (.videoServiceErr
              ⟨.unavailable, "Video service client fail to get the video responses from the server"⟩)
          | .ok infos => some (.ranked (topVideos rank sorter user infos req.limit))
        else none
  else none

/-- More turns than the loops of a call can take. -/
def turns (udb : UserServiceServer) (req : GetTopVideosRequest) : ℕ :=
  match udb.users req.userId with
  | none => 0
  | some user => max user.subscribedTo.length (udb.liked user).length + 1

section Reliable

variable {udb : UserServiceServer} {vdb : VideoServiceServer} {cfg : Config} {size : ℤ} {fuel : ℕ} {ids : List UInt64}

theorem getUser_reliable (k : ℕ) (hne : ids ≠ []) (hlength : ids.length ≤ udb.maxBatchSize) :
    (Backend.reliable udb vdb).getUser k ids = lookupLoop UserServiceServer.notFound udb.users ids [] :=
  UserServiceServer.getUser_of_valid hne hlength

theorem getVideo_reliable (k : ℕ) (hne : ids ≠ []) (hlength : ids.length ≤ vdb.maxBatchSize) (hnodup : ids.Nodup) :
    (Backend.reliable udb vdb).getVideo k ids = lookupLoop VideoServiceServer.notFound vdb.videos ids [] :=
  VideoServiceServer.getVideo_of_valid hne hlength hnodup

/-- The loop over the subscriptions is one lookup. -/
theorem likedBySubscriptions_eq (h : Fits udb vdb size) (hfuel : ids.length < fuel) :
    likedBySubscriptions (cfg.withBatchSize size) (.reliable udb vdb) fuel ids =
      some ((lookupLoop UserServiceServer.notFound udb.users ids []).map (·.flatMap UserInfo.likedVideos)) := by
  have hcall : ∀ k xs, IsBatch size ids xs → likedCall (.reliable udb vdb) k xs =
      (lookupLoop UserServiceServer.notFound udb.users xs []).map (·.flatMap UserInfo.likedVideos) := fun k xs hxs => by
    rw [likedCall, getUser_reliable (k + 1) hxs.ne_nil (hxs.length_le.trans h.user)]
  have happend : ∀ xs ys, (lookupLoop UserServiceServer.notFound udb.users (xs ++ ys) []).map
      (·.flatMap UserInfo.likedVideos) =
      ((lookupLoop UserServiceServer.notFound udb.users xs []).map (·.flatMap UserInfo.likedVideos)).bind fun found =>
        ((lookupLoop UserServiceServer.notFound udb.users ys []).map (·.flatMap UserInfo.likedVideos)).map
          (found ++ ·) := by
    intro xs ys
    rw [lookupLoop_append]
    cases lookupLoop UserServiceServer.notFound udb.users xs [] with
    | error err => rfl
    | ok found =>
      cases lookupLoop UserServiceServer.notFound udb.users ys [] with
      | error err => rfl
      | ok found' => simp [Except.map, Except.bind]
  have hloop := batchLoop_eq_answer h.pos (by rfl) happend hcall 0 [] le_rfl (by simpa using hfuel)
  rw [likedBySubscriptions_eq_collected]
  refine hloop.trans ?_
  rw [Int.toNat_zero, List.drop_zero]
  cases lookupLoop UserServiceServer.notFound udb.users ids [] <;> rfl

/-- The loop of `fetchVideos` is one lookup. -/
theorem fetchVideos_eq (h : Fits udb vdb size) (hclient : hasClient cfg cfg.mockVideoFlag = true) (hnodup : ids.Nodup)
    (hfuel : ids.length < fuel) : fetchVideos (cfg.withBatchSize size) (.reliable udb vdb) fuel ids =
      match lookupLoop VideoServiceServer.notFound vdb.videos ids [] with
      | .ok infos => some (.ok infos)
      | .error _ => some (.error
          ⟨.unavailable, "Video service client fail to get the video responses from the server"⟩) := by
  have hcall : ∀ k xs, IsBatch size ids xs → (Backend.reliable udb vdb).getVideo k xs =
      lookupLoop VideoServiceServer.notFound vdb.videos xs [] := fun k xs hxs =>
    getVideo_reliable k hxs.ne_nil (hxs.length_le.trans h.video) (hnodup.sublist hxs.isInfix.sublist)
  have hloop := batchLoop_eq_answer h.pos (by rfl) lookupLoop_append hcall 0 [] le_rfl (by simpa using hfuel)
  obtain ⟨⟨found, err⟩, hrun, hfound⟩ := Option.map_eq_some_iff.mp hloop
  have hclient' : hasClient (cfg.withBatchSize size) (cfg.withBatchSize size).mockVideoFlag = true := hclient
  rw [Int.toNat_zero, List.drop_zero] at hfound
  rw [fetchVideos, if_pos hclient']
  change (batchLoop size _ _ _ _ _ _).map _ = _
  rw [hrun]
  cases hlookup : lookupLoop VideoServiceServer.notFound vdb.videos ids [] with
  | ok infos =>
    cases err with
    | none => simpa [hlookup, collected, Except.map] using hfound
    | some err => simp [hlookup, collected, Except.map] at hfound
  | error err' =>
    cases err with
    | none => simp [hlookup, collected, Except.map] at hfound
    | some err => rfl

/-- **Without batches**: given enough turns, a call comes to what it would come to if it looked up
all ids at once. -/
theorem recommend_eq_atOnce (h : Fits udb vdb size) (rank : Coefficients → Coefficients → UInt64) (sorter : Sorter)
    {req : GetTopVideosRequest} (hfuel : turns udb req ≤ fuel) :
    recommend (cfg.withBatchSize size) rank sorter (.reliable udb vdb) fuel req =
      recommendAtOnce cfg rank sorter udb vdb req := by
  rw [recommend, recommendAtOnce]
  change (if hasClient cfg cfg.mockUserFlag = true then _ else _) = _
  by_cases hclient : hasClient cfg cfg.mockUserFlag = true
  swap
  · rw [if_neg hclient, if_neg hclient]
  have hone : (([req.userId] : List UInt64).length : ℤ) ≤ udb.maxBatchSize := h.pos.trans h.user
  rw [if_pos hclient, if_pos hclient, getUser_reliable 0 (List.cons_ne_nil _ _) hone, lookupLoop_cons]
  cases huser : udb.users req.userId with
  | none => rfl
  | some user =>
    have hturns : max user.subscribedTo.length (udb.liked user).length + 1 ≤ fuel := by rwa [turns, huser] at hfuel
    simp only [lookupLoop, Except.map]
    rw [likedBySubscriptions_eq h (by omega)]
    cases hlookup : lookupLoop UserServiceServer.notFound udb.users user.subscribedTo [] with
    | error err => rfl
    | ok users =>
      have hliked : users.flatMap UserInfo.likedVideos = udb.liked user :=
        flatMap_likedVideos (lookupLoop_eq_ok_iff.mp hlookup)
      have hlength := length_deduplicateIds_le (udb.liked user)
      simp only [Except.map, Option.bind_some, hliked]
      by_cases hclient' : hasClient cfg cfg.mockVideoFlag = true
      · rw [if_pos hclient', fetchVideos_eq h hclient' (nodup_deduplicateIds _) (by omega)]
        cases lookupLoop VideoServiceServer.notFound vdb.videos (deduplicateIds (udb.liked user)) [] <;> rfl
      · rw [if_neg hclient', fetchVideos, if_neg]
        · rfl
        · exact hclient'

/-- With connections to choose from, a call comes to something. -/
theorem isSome_recommendAtOnce {rank : Coefficients → Coefficients → UInt64} {sorter : Sorter}
    {req : GetTopVideosRequest} (huser : hasClient cfg cfg.mockUserFlag = true)
    (hvideo : hasClient cfg cfg.mockVideoFlag = true) :
    (recommendAtOnce cfg rank sorter udb vdb req).isSome = true := by
  rw [recommendAtOnce, if_pos huser]
  split
  · rfl
  · split
    · rfl
    · rw [if_pos hvideo]
      split <;> rfl

/-- Every `GetUser` request passes the checks. -/
theorem userRequests_valid (h : Fits udb vdb size) {req : GetTopVideosRequest} {c : ℕ × List UInt64}
    (hc : c ∈ userRequests (cfg.withBatchSize size) (.reliable udb vdb) fuel req) :
    c.2 ≠ [] ∧ c.2.length ≤ udb.maxBatchSize := by
  rw [userRequests] at hc
  split_ifs at hc
  · rcases List.mem_cons.mp hc with rfl | hc
    · exact ⟨List.cons_ne_nil _ _, h.pos.trans h.user⟩
    · split at hc
      · obtain ⟨c', hc', rfl⟩ := List.mem_map.mp hc
        have hbatch := isBatch_of_mem_sent h.pos le_rfl hc'
        exact ⟨hbatch.ne_nil, hbatch.length_le.trans h.user⟩
      · cases hc
  · cases hc

/-- Every `GetVideo` request passes the checks. -/
theorem videoRequests_valid (h : Fits udb vdb size) {req : GetTopVideosRequest} {c : ℕ × List UInt64}
    (hc : c ∈ videoRequests (cfg.withBatchSize size) (.reliable udb vdb) fuel req) :
    c.2 ≠ [] ∧ c.2.length ≤ vdb.maxBatchSize ∧ c.2.Nodup := by
  rw [videoRequests] at hc
  split_ifs at hc
  · split at hc
    · split at hc
      · have hbatch := isBatch_of_mem_sent h.pos le_rfl hc
        exact ⟨hbatch.ne_nil, hbatch.length_le.trans h.video,
          (nodup_deduplicateIds _).sublist hbatch.isInfix.sublist⟩
      · cases hc
    · cases hc
  · split at hc
    · split at hc <;> cases hc
    · cases hc
  · cases hc

/-- `fetchVideos` finds what is stored under its ids, in order, if all are known. -/
theorem fetchVideos_eq_ok_iff (h : Fits udb vdb size) (hclient : hasClient cfg cfg.mockVideoFlag = true)
    (hnodup : ids.Nodup) (hfuel : ids.length < fuel) (infos : List VideoInfo) :
    fetchVideos (cfg.withBatchSize size) (.reliable udb vdb) fuel ids = some (.ok infos) ↔
      List.Forall₂ (fun id info => vdb.videos id = some info) ids infos := by
  rw [fetchVideos_eq h hclient hnodup hfuel, ← lookupLoop_eq_ok_iff]
  cases lookupLoop VideoServiceServer.notFound vdb.videos ids [] <;> simp

theorem fetchVideos_error_iff (h : Fits udb vdb size) (hclient : hasClient cfg cfg.mockVideoFlag = true)
    (hnodup : ids.Nodup) (hfuel : ids.length < fuel) :
    (∃ err, fetchVideos (cfg.withBatchSize size) (.reliable udb vdb) fuel ids = some (.error err)) ↔
      ∃ id ∈ ids, vdb.videos id = none := by
  have hok : (∃ infos, lookupLoop VideoServiceServer.notFound vdb.videos ids [] = .ok infos) ↔
      ∀ id ∈ ids, ∃ info, vdb.videos id = some info := lookupLoop_isOk_iff
  have hunknown : (∃ id ∈ ids, vdb.videos id = none) ↔ ¬ ∀ id ∈ ids, ∃ info, vdb.videos id = some info := by
    simp [Option.eq_none_iff_forall_ne_some]
  rw [fetchVideos_eq h hclient hnodup hfuel, hunknown, ← hok]
  cases lookupLoop VideoServiceServer.notFound vdb.videos ids [] <;> simp

end Reliable

/-! ### Two batch sizes -/

/-- **Batching is invisible.** With services that do not fail and accept batches of either size,
every request of a call passes their checks, so that they only ever complain about unknown ids;
`fetchVideos` returns the info of each of its ids, in order, or fails if one is unknown; and the
two sizes give the same response, or error. -/
theorem batching_invisible {udb : UserServiceServer} {vdb : VideoServiceServer} {size₁ size₂ : ℤ}
    (h₁ : Fits udb vdb size₁) (h₂ : Fits udb vdb size₂) (cfg : Config)
    (rank : Coefficients → Coefficients → UInt64) (sorter : Sorter) (cache : TrendingVideos)
    (req : GetTopVideosRequest) :
    (∀ fuel, ∀ c ∈ userRequests (cfg.withBatchSize size₁) (.reliable udb vdb) fuel req,
      c.2 ≠ [] ∧ c.2.length ≤ udb.maxBatchSize ∧
      ∀ err, (Backend.reliable udb vdb).getUser c.1 c.2 = .error err → err.code = .notFound) ∧
    (∀ fuel, ∀ c ∈ videoRequests (cfg.withBatchSize size₁) (.reliable udb vdb) fuel req,
      c.2 ≠ [] ∧ c.2.length ≤ vdb.maxBatchSize ∧ c.2.Nodup ∧
      ∀ err, (Backend.reliable udb vdb).getVideo c.1 c.2 = .error err → err.code = .notFound) ∧
    (hasClient cfg cfg.mockVideoFlag = true → ∀ ids fuel, ids.Nodup → ids.length < fuel →
      (∀ infos, fetchVideos (cfg.withBatchSize size₁) (.reliable udb vdb) fuel ids = some (.ok infos) ↔
        List.Forall₂ (fun id info => vdb.videos id = some info) ids infos) ∧
      ((∃ err, fetchVideos (cfg.withBatchSize size₁) (.reliable udb vdb) fuel ids = some (.error err)) ↔
        ∃ id ∈ ids, vdb.videos id = none)) ∧
    ∃ n, ∀ fuel ≥ n,
      getTopVideos (cfg.withBatchSize size₁) rank sorter (.reliable udb vdb) fuel cache req =
        getTopVideos (cfg.withBatchSize size₂) rank sorter (.reliable udb vdb) fuel cache req ∧
      (hasClient cfg cfg.mockUserFlag = true → hasClient cfg cfg.mockVideoFlag = true →
        (getTopVideos (cfg.withBatchSize size₁) rank sorter (.reliable udb vdb) fuel cache req).isSome = true) := by
  refine ⟨fun fuel c hc => ?_, fun fuel c hc => ?_, fun hclient ids fuel hnodup hfuel => ?_,
    turns udb req, fun fuel hfuel => ?_⟩
  · obtain ⟨hne, hlength⟩ := userRequests_valid h₁ hc
    refine ⟨hne, hlength, fun err herr => ?_⟩
    rw [getUser_reliable c.1 hne hlength] at herr
    obtain ⟨id, -, rfl⟩ := lookupLoop_error herr
    rfl
  · obtain ⟨hne, hlength, hnodup⟩ := videoRequests_valid h₁ hc
    refine ⟨hne, hlength, hnodup, fun err herr => ?_⟩
    rw [getVideo_reliable c.1 hne hlength hnodup] at herr
    obtain ⟨id, -, rfl⟩ := lookupLoop_error herr
    rfl
  · exact ⟨fetchVideos_eq_ok_iff h₁ hclient hnodup hfuel, fetchVideos_error_iff h₁ hclient hnodup hfuel⟩
  · rw [getTopVideos, getTopVideos, recommend_eq_atOnce h₁ rank sorter hfuel, recommend_eq_atOnce h₂ rank sorter hfuel]
    refine ⟨rfl, fun huser hvideo => ?_⟩
    rw [Option.isSome_map]
    exact isSome_recommendAtOnce huser hvideo

theorem fits_three {size : ℤ} (hpos : 1 ≤ size) (hle : size ≤ 10) : Fits threeLiked threeVideos size := ⟨hpos, hle, hle⟩

/-- One by one or two by two, the two best of three liked videos are returned. -/
theorem batching_invisible_byTwos : (∃ n, ∀ fuel ≥ n,
      getTopVideos (byTwos.withBatchSize 1) (BcryptRanker.rank id) .insertion (.reliable threeLiked threeVideos) fuel
          threeTrending ⟨1, 2⟩ =
        getTopVideos (byTwos.withBatchSize 2) (BcryptRanker.rank id) .insertion (.reliable threeLiked threeVideos) fuel
          threeTrending ⟨1, 2⟩) ∧
    getTopVideos (byTwos.withBatchSize 2) (BcryptRanker.rank id) .insertion (.reliable threeLiked threeVideos) 5
      threeTrending ⟨1, 2⟩ = some (.ok ⟨[plainVideo 9, plainVideo 8], false⟩) := by
  have h₁ : Fits threeLiked threeVideos 1 := fits_three (by decide) (by decide)
  have h₂ : Fits threeLiked threeVideos 2 := fits_three (by decide) (by decide)
  obtain ⟨-, -, -, n, hn⟩ := batching_invisible h₁ h₂ byTwos (BcryptRanker.rank id) .insertion threeTrending ⟨1, 2⟩
  exact ⟨⟨n, fun fuel hfuel => (hn fuel hfuel).1⟩, rfl⟩

end Cs426.VideoRec
