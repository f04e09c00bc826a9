import Cs426.Lib.Counting
import Cs426.VideoRec.Databases
import Cs426.VideoRec.Trending

/-!
# The recommendation service under load

All of lab 1 put together: a recommendation service between the two services of `Databases`, which
were started with one seed, and the clients that send it requests, the load generator
(`lab1/cmd/loadgen/loadgen.go`) and the front end (`lab1/cmd/frontend/frontend.go`). Both only ask
for users of whom the user service has made sure that they exist.

## What is proved

* `load_is_served` — if nothing fails, then in every run every call that has returned was answered
  with the top of the videos liked by those its user subscribes to. None has fallen back or failed,
  no error is counted, and every call in progress can come to its end.
* `load_survives_failures` — if the requests that calls make may fail, or get lost, in any way, but
  the cache has been filled once and no `GetVideo` request of a refresh fails, then every call that
  has returned was answered, with videos that exist, and no error is counted.
-/

namespace Cs426.VideoRec

open Cs426.Batches Cs426.Draws Cs426.Machine Cs426.Counting

/-! ### The clients -/

/-- `getNextUserId` of the load generator. -/
def getNextUserId (userId : UInt64) : UInt64 := (userId + 1) % 5000 + 200000

/-- `getUserId` of the front end; the 64 bits of the FNV hash are a parameter. -/
def getUserId (sum64 : String → UInt64) (netId : String) : UInt64 := sum64 netId % 5000 + 200000

/-- A request of the load generator, each of whose loops starts with the first user, or of the
front end. -/
def FromClient (req : GetTopVideosRequest) : Prop :=
  (∃ k, req.userId = getNextUserId^[k] 200000) ∨ ∃ sum64 netId, req.userId = getUserId sum64 netId

theorem within_mod_add (x : UInt64) : Within USER_ID_OFFSET 5000 (x % 5000 + 200000) := by
  have hnat : (x % 5000 + 200000).toNat = (x.toNat % 5000 + 200000) % 2 ^ 64 := by
    rw [UInt64.toNat_add, UInt64.toNat_mod]
    rfl
  rw [Within, USER_ID_OFFSET, hnat]
  omega

theorem FromClient.within {req : GetTopVideosRequest} (h : FromClient req) :
    Within USER_ID_OFFSET 5000 req.userId := by
  rcases h with ⟨k, hk⟩ | ⟨sum64, netId, hid⟩
  · cases k with
    | zero =>
      rw [hk]
      exact within_mod_add 0
    | succ k =>
      rw [hk, Function.iterate_succ_apply']
      exact within_mod_add _
  · rw [hid]
    exact within_mod_add _

/-- The requests among the labels of a run, in order. -/
def requests (ls : List Label) : List GetTopVideosRequest :=
  ls.filterMap fun
    | .getTopVideos req => some req
    | _ => none

theorem requests_concat (ls : List Label) (req : GetTopVideosRequest) :
    requests (ls ++ [.getTopVideos req]) = requests ls ++ [req] := List.filterMap_append

theorem requests_concat_of_ne {ls : List Label} {l : Label} (h : ∀ req, l ≠ .getTopVideos req) :
    requests (ls ++ [l]) = requests ls := by
  rw [requests, List.filterMap_append, ← requests]
  cases l with
  | getTopVideos req => exact absurd rfl (h req)
  | work | next | refresh | getStats | load => exact List.append_nil _

/-! ### One call, with nothing failing -/

section Call

variable {cfg : Config} {rank : Coefficients → Coefficients → UInt64} {sorter : Sorter} {b : Backend}
  {req : GetTopVideosRequest} {outcome : Outcome}

/-- With more turns a call comes to the same. -/
theorem recommend_mono {fuel fuel' : ℕ} (hle : fuel ≤ fuel')
    (h : recommend cfg rank sorter b fuel req = some outcome) :
    recommend cfg rank sorter b fuel' req = some outcome := by
  have hliked : ∀ {ids r}, likedBySubscriptions cfg b fuel ids = some r →
      likedBySubscriptions cfg b fuel' ids = some r := by
    intro ids r hr
    obtain ⟨found, hfound, rfl⟩ := Option.map_eq_some_iff.mp hr
    exact Option.map_eq_some_iff.mpr ⟨found, batchLoop_mono hle hfound, rfl⟩
  have hfetch : ∀ {ids r}, fetchVideos cfg b fuel ids = some r → fetchVideos cfg b fuel' ids = some r := by
    intro ids r hr
    rw [fetchVideos] at hr ⊢
    split_ifs at hr ⊢
    obtain ⟨found, hfound, rfl⟩ := Option.map_eq_some_iff.mp hr
    exact Option.map_eq_some_iff.mpr ⟨found, batchLoop_mono hle hfound, rfl⟩
  rw [recommend] at h ⊢
  by_cases hclient : hasClient cfg cfg.mockUserFlag = true
  swap
  · rw [if_neg hclient] at h
    cases h
  rw [if_pos hclient] at h ⊢
  cases huser : b.getUser 0 [req.userId] with
  | error err => simpa [huser] using h
  | ok users =>
    cases users with
    | nil => simp [huser] at h
    | cons user others =>
      rw [huser] at h
      obtain ⟨r, hr, h⟩ := Option.bind_eq_some_iff.mp h
      refine Option.bind_eq_some_iff.mpr ⟨r, hliked hr, ?_⟩
      cases r with
      | error err => exact h
      | ok candidates =>
        obtain ⟨fetched, hfetched, rfl⟩ := Option.map_eq_some_iff.mp h
        exact Option.map_eq_some_iff.mpr ⟨fetched, hfetch hfetched, rfl⟩

/-- The videos are the top of those liked by the users whom the user of the request subscribes to. -/
def Served (rank : Coefficients → Coefficients → UInt64) (udb : UserServiceServer) (vdb : VideoServiceServer)
    (req : GetTopVideosRequest) (videos : List VideoInfo) : Prop :=
  ∃ user infos sorter, udb.users req.userId = some user ∧
    List.Forall₂ (fun id info => vdb.videos id = some info) (deduplicateIds (udb.liked user)) infos ∧
    videos = topVideos rank sorter user infos req.limit

variable {udb : UserServiceServer} {vdb : TrendingServer}

/-- A service whose databases are closed, and whose batches they accept, with connections to both. -/
structure Deployed (cfg : Config) (udb : UserServiceServer) (vdb : TrendingServer) : Prop where
  closed : Closed udb vdb
  fits : Fits udb vdb.toVideoServiceServer cfg.options.maxBatchSize
  userClient : hasClient cfg cfg.mockUserFlag = true
  videoClient : hasClient cfg cfg.mockVideoFlag = true

/-- Everything that a call looks up is there. -/
theorem Deployed.recommendAtOnce_eq (h : Deployed cfg udb vdb) (rank : Coefficients → Coefficients → UInt64)
    (sorter : Sorter) (hreq : FromClient req) :
    ∃ videos, recommendAtOnce cfg rank sorter udb vdb.toVideoServiceServer req = some (.ranked videos) ∧
      Served rank udb vdb.toVideoServiceServer req videos := by
  obtain ⟨user, huser⟩ := h.closed.users req.userId hreq.within
  have hknown : ∀ other ∈ user.subscribedTo, ∃ info, udb.users other = some info := fun other hother =>
    (h.closed.subscribed req.userId user huser other hother).2
  obtain ⟨users, husers⟩ : ∃ users, lookupLoop UserServiceServer.notFound udb.users user.subscribedTo [] = .ok users :=
    lookupLoop_isOk_iff.mpr hknown
  have hliked : users.flatMap UserInfo.likedVideos = udb.liked user :=
    flatMap_likedVideos (lookupLoop_eq_ok_iff.mp husers)
  have hexists : ∀ id ∈ deduplicateIds (udb.liked user), ∃ info, vdb.videos id = some info := by
    intro id hid
    obtain ⟨other, -, info, hinfo, hid⟩ := mem_liked.mp (mem_deduplicateIds.mp hid)
    exact h.closed.liked other info hinfo id hid
  obtain ⟨infos, hinfos⟩ : ∃ infos, lookupLoop VideoServiceServer.notFound vdb.videos
      (deduplicateIds (udb.liked user)) [] = .ok infos := lookupLoop_isOk_iff.mpr hexists
  refine ⟨topVideos rank sorter user infos req.limit, ?_, user, infos, sorter, huser, lookupLoop_eq_ok_iff.mp hinfos, rfl⟩
  simp only [recommendAtOnce, if_pos h.userClient, huser, husers, hliked, if_pos h.videoClient, hinfos]

/-- With turns enough, so does a call. -/
theorem Deployed.recommend_turns (h : Deployed cfg udb vdb) (rank : Coefficients → Coefficients → UInt64)
    (sorter : Sorter) (hreq : FromClient req) {fuel : ℕ} (hfuel : turns udb req ≤ fuel) :
    ∃ videos, recommend cfg rank sorter (.reliable udb vdb.toVideoServiceServer) fuel req = some (.ranked videos) ∧
      Served rank udb vdb.toVideoServiceServer req videos := by
  have heq : recommend (cfg.withBatchSize cfg.options.maxBatchSize) rank sorter
      (.reliable udb vdb.toVideoServiceServer) fuel req = _ := recommend_eq_atOnce h.fits rank sorter hfuel
  obtain ⟨videos, hvideos, hserved⟩ := h.recommendAtOnce_eq rank sorter hreq
  exact ⟨videos, heq.trans hvideos, hserved⟩

/-- However many turns it is given, a call comes to nothing else. -/
theorem Deployed.recommend_eq (h : Deployed cfg udb vdb) (hreq : FromClient req) {fuel : ℕ}
    (hrec : recommend cfg rank sorter (.reliable udb vdb.toVideoServiceServer) fuel req = some outcome) :
    ∃ videos, outcome = .ranked videos ∧ Served rank udb vdb.toVideoServiceServer req videos := by
  obtain ⟨videos, hvideos, hserved⟩ := h.recommend_turns rank sorter hreq (Nat.le_add_left (turns udb req) fuel)
  rw [recommend_mono (Nat.le_add_right fuel _) hrec, Option.some.injEq] at hvideos
  exact ⟨videos, hvideos, hserved⟩

end Call

/-! ### Runs in which nothing fails -/

/-- The call, made for this request, is on its way to being answered, or has been. -/
def Phase.Serves (rank : Coefficients → Coefficients → UInt64) (udb : UserServiceServer) (vdb : VideoServiceServer)
    (req : GetTopVideosRequest) : Phase → Prop
  | .called r | .active r => r = req
  | .timing videos _ | .leaving (.answered videos) | .closing (.answered videos) | .returned (.answered videos) =>
    Served rank udb vdb req videos
  | _ => False

/-- No error has been counted, nor a stale response. -/
def Counters.Clean (c : Counters) : Prop :=
  c.numTopVideoErrs = 0 ∧ c.numUserServiceErrs = 0 ∧ c.numVideoServiceErrs = 0 ∧ c.numStaleResponse = 0

/-- The services answer every request that the call makes. -/
def Label.Reliable (udb : UserServiceServer) (vdb : VideoServiceServer) (l : Label) : Prop :=
  ∀ i b sorter fuel latency, l = .work i b sorter fuel latency → b = .reliable udb vdb

def Label.FromClients (l : Label) : Prop := ∀ req, l = .getTopVideos req → FromClient req

section Reliable

variable {cfg : Config} {rank : Coefficients → Coefficients → UInt64} {udb : UserServiceServer} {vdb : TrendingServer}
  {req : GetTopVideosRequest} {s s' : Service}

theorem Phase.Serves.next {phase phase' : Phase} {cache : TrendingVideos} {c c' : Counters}
    (h : phase.Serves rank udb vdb.toVideoServiceServer req) (hc : c.Clean)
    (hn : phase.next cfg cache c = some (phase', c')) :
    phase'.Serves rank udb vdb.toVideoServiceServer req ∧ c'.Clean := by
  cases phase with
  | called r =>
    cases hn
    exact ⟨h, hc⟩
  | timing videos latency =>
    cases hn
    exact ⟨h, hc⟩
  | leaving exit =>
    cases hn
    cases exit with
    | answered videos => exact ⟨h, hc⟩
    | fellBack result => exact h.elim
    | failed err => exact h.elim
  | closing exit =>
    cases hn
    cases exit with
    | answered videos => exact ⟨h, hc⟩
    | fellBack result => exact h.elim
    | failed err => exact h.elim
  | active r => cases hn
  | returned exit => cases hn
  | userErr err r => exact h.elim
  | videoErr err r => exact h.elim
  | fallingBack r => exact h.elim
  | stale response => exact h.elim
  | erring err => exact h.elim

/-- Every call serves its request, and none has counted an error. -/
structure AllServed (rank : Coefficients → Coefficients → UInt64) (udb : UserServiceServer) (vdb : VideoServiceServer)
    (ls : List Label) (s : Service) : Prop where
  clients : ∀ req ∈ requests ls, FromClient req
  calls : List.Forall₂ (fun req phase => phase.Serves rank udb vdb req) (requests ls) s.calls
  clean : s.counters.Clean

/-- What is not a call of `GetTopVideos` makes no request. -/
theorem AllServed.concat {done : List Label} {l : Label} (hl : ∀ req, l ≠ .getTopVideos req)
    (h : AllServed rank udb vdb.toVideoServiceServer done s) :
    AllServed rank udb vdb.toVideoServiceServer (done ++ [l]) s := by
  obtain ⟨hreqs, hcalls, hclean⟩ := h
  rw [← requests_concat_of_ne hl] at hreqs hcalls
  exact ⟨hreqs, hcalls, hclean⟩

theorem AllServed.step (hd : Deployed cfg udb vdb) {done : List Label} {l : Label}
    (h : AllServed rank udb vdb.toVideoServiceServer done s) (hclients : l.FromClients)
    (hreliable : l.Reliable udb vdb.toVideoServiceServer) (hstep : s.step cfg rank l = some s') :
    AllServed rank udb vdb.toVideoServiceServer (done ++ [l]) s' := by
  cases l with
  | getTopVideos req =>
    cases hstep
    refine ⟨fun r hr => ?_, ?_, h.clean⟩
    · rw [requests_concat] at hr
      rcases List.mem_append.mp hr with hr | hr
      · exact h.clients r hr
      · exact hclients r (by rw [List.mem_singleton.mp hr])
    · rw [requests_concat]
      exact List.rel_append h.calls (.cons rfl .nil)
  | work i b sorter fuel latency =>
    obtain rfl := hreliable i b sorter fuel latency rfl
    obtain ⟨r, outcome, hi, hrec, rfl⟩ := Service.step_work_iff.mp hstep
    refine AllServed.concat (by simp) ⟨h.clients, forall₂_set h.calls hi fun req hreq hr => ?_, h.clean⟩
    obtain rfl : r = req := hr
    obtain ⟨videos, rfl, hserved⟩ := hd.recommend_eq (h.clients r hreq) hrec
    exact hserved
  | next i =>
    obtain ⟨phase, phase', c', hi, hn, rfl⟩ := Service.step_next_iff.mp hstep
    -- the counters change with the call, whichever request it serves
    obtain ⟨req, -, hserves⟩ := forall₂_getElem? h.calls hi
    refine AllServed.concat (by simp) ⟨h.clients, forall₂_set h.calls hi fun req _ hr => ?_, ?_⟩
    · exact (hr.next h.clean hn).1
    · exact (hserves.next h.clean hn).2
  | refresh r fuel =>
    obtain ⟨cache, -, rfl⟩ := Service.step_refresh_iff.mp hstep
    exact AllServed.concat (by simp) ⟨h.clients, h.calls, h.clean⟩
  | getStats =>
    cases hstep
    exact AllServed.concat (by simp) ⟨h.clients, h.calls, h.clean⟩
  | load j =>
    obtain ⟨loaded, load, -, -, rfl⟩ := Service.step_load_iff.mp hstep
    exact AllServed.concat (by simp) ⟨h.clients, h.calls, h.clean⟩

/-- By further steps, in which the services answer, the call comes to be answered with what its
request asks for. -/
def Service.CanAnswer (cfg : Config) (rank : Coefficients → Coefficients → UInt64) (udb : UserServiceServer)
    (vdb : VideoServiceServer) (req : GetTopVideosRequest) (i : ℕ) (s : Service) : Prop :=
  ∃ ls s' videos, (∀ l ∈ ls, Label.Reliable udb vdb l) ∧ run (Service.step cfg rank) s ls = some s' ∧
    s'.calls[i]? = some (.returned (.answered videos)) ∧ Served rank udb vdb req videos

section CanAnswer

variable {i : ℕ} {videos : List VideoInfo} (hserved : Served rank udb vdb.toVideoServiceServer req videos)

theorem Service.CanAnswer.of_step {l : Label} (hl : l.Reliable udb vdb.toVideoServiceServer)
    (hstep : s.step cfg rank l = some s') (h : s'.CanAnswer cfg rank udb vdb.toVideoServiceServer req i) :
    s.CanAnswer cfg rank udb vdb.toVideoServiceServer req i := by
  obtain ⟨ls, u, videos, hls, hrun, hu⟩ := h
  exact ⟨l :: ls, u, videos, List.forall_mem_cons.mpr ⟨hl, hls⟩, (run_cons_iff _).mpr ⟨s', hstep, hrun⟩, hu⟩

/-- One update of a call, and then the rest. -/
theorem Service.CanAnswer.of_next {phase phase' : Phase} {c' : Counters} (hi : s.calls[i]? = some phase)
    (hn : phase.next cfg s.fallBackVideos s.counters = some (phase', c'))
    (h : ∀ u : Service, u.calls[i]? = some phase' → u.CanAnswer cfg rank udb vdb.toVideoServiceServer req i) :
    s.CanAnswer cfg rank udb vdb.toVideoServiceServer req i := by
  refine .of_step (l := .next i) (by simp [Label.Reliable])
    (Service.step_next_iff.mpr ⟨phase, phase', c', hi, hn, rfl⟩) (h _ ?_)
  exact List.getElem?_set_self (List.getElem?_eq_some_iff.mp hi).1

include hserved

theorem canAnswer_of_returned (hi : s.calls[i]? = some (.returned (.answered videos))) :
    s.CanAnswer cfg rank udb vdb.toVideoServiceServer req i :=
  ⟨[], s, videos, by simp, rfl, hi, hserved⟩

theorem canAnswer_of_closing (hi : s.calls[i]? = some (.closing (.answered videos))) :
    s.CanAnswer cfg rank udb vdb.toVideoServiceServer req i :=
  .of_next hi rfl fun _ => canAnswer_of_returned hserved

theorem canAnswer_of_leaving (hi : s.calls[i]? = some (.leaving (.answered videos))) :
    s.CanAnswer cfg rank udb vdb.toVideoServiceServer req i :=
  .of_next hi rfl fun _ => canAnswer_of_closing hserved

theorem canAnswer_of_timing {latency : Int64} (hi : s.calls[i]? = some (.timing videos latency)) :
    s.CanAnswer cfg rank udb vdb.toVideoServiceServer req i :=
  .of_next hi rfl fun _ => canAnswer_of_leaving hserved

omit hserved in
theorem canAnswer_of_active (hd : Deployed cfg udb vdb) (hreq : FromClient req) (hi : s.calls[i]? = some (.active req)) :
    s.CanAnswer cfg rank udb vdb.toVideoServiceServer req i := by
  obtain ⟨videos, hvideos, hserved⟩ := hd.recommend_turns rank .insertion hreq le_rfl
  have hstep : s.step cfg rank (.work i (.reliable udb vdb.toVideoServiceServer) .insertion (turns udb req) 0) = _ :=
    Service.step_work_iff.mpr ⟨req, _, hi, hvideos, rfl⟩
  refine .of_step (fun _ _ _ _ _ hl => ?_) hstep
    (canAnswer_of_timing hserved (List.getElem?_set_self (List.getElem?_eq_some_iff.mp hi).1))
  cases hl
  rfl

end CanAnswer

/-- **No call is stuck.** -/
theorem AllServed.canAnswer (hd : Deployed cfg udb vdb) {ls : List Label}
    (h : AllServed rank udb vdb.toVideoServiceServer ls s) {i : ℕ} (hi : i < s.calls.length) :
    ∃ req, (requests ls)[i]? = some req ∧ s.CanAnswer cfg rank udb vdb.toVideoServiceServer req i := by
  have hphase := List.getElem?_eq_getElem hi
  obtain ⟨req, hreq, hserves⟩ := forall₂_getElem? h.calls hphase
  refine ⟨req, hreq, ?_⟩
  have hclient := h.clients req (List.mem_of_getElem? hreq)
  generalize s.calls[i] = phase at hphase hserves
  cases phase with
  | called r =>
    obtain rfl : r = req := hserves
    exact .of_next hphase rfl fun u hu => canAnswer_of_active hd hclient hu
  | active r =>
    obtain rfl : r = req := hserves
    exact canAnswer_of_active hd hclient hphase
  | timing videos latency => exact canAnswer_of_timing hserves hphase
  | leaving exit =>
    cases exit with
    | answered videos => exact canAnswer_of_leaving hserves hphase
    | fellBack result => exact hserves.elim
    | failed err => exact hserves.elim
  | closing exit =>
    cases exit with
    | answered videos => exact canAnswer_of_closing hserves hphase
    | fellBack result => exact hserves.elim
    | failed err => exact hserves.elim
  | returned exit =>
    cases exit with
    | answered videos => exact canAnswer_of_returned hserves hphase
    | fellBack result => exact hserves.elim
    | failed err => exact hserves.elim
  | userErr err r => exact hserves.elim
  | videoErr err r => exact hserves.elim
  | fallingBack r => exact hserves.elim
  | stale response => exact hserves.elim
  | erring err => exact hserves.elim

end Reliable

/-- **The load is served.** Take services that were started with one seed, whatever the generators,
and a recommendation service that sends batches they accept. If nothing fails, then in every run in
which clients send requests, every call that has returned was answered with the top of the videos
that its user should see; no call has failed or fallen back, and no error is counted; and every call
can still be answered so. -/
theorem load_is_served {ρ φ : Type} (R : Source ρ) (F : Faker φ) {uo : UserServiceOptions} {vo : VideoServiceOptions}
    {cfg : Config} {rank : Coefficients → Coefficients → UInt64} (hseed : uo.seed = vo.seed)
    (hfits : Fits (makeUserServiceServer R uo) (makeVideoServiceServer R F vo).toVideoServiceServer
      cfg.options.maxBatchSize)
    (huserClient : hasClient cfg cfg.mockUserFlag = true) (hvideoClient : hasClient cfg cfg.mockVideoFlag = true)
    {ls : List Label} {s : Service} (hclients : ∀ l ∈ ls, l.FromClients)
    (hreliable : ∀ l ∈ ls,
      l.Reliable (makeUserServiceServer R uo) (makeVideoServiceServer R F vo).toVideoServiceServer)
    (h : run (Service.step cfg rank) .fresh ls = some s) :
    (∀ (i : ℕ) (exit : Exit), s.calls[i]? = some (.returned exit) → ∃ req videos, (requests ls)[i]? = some req ∧
      exit = .answered videos ∧ Served rank (makeUserServiceServer R uo)
        (makeVideoServiceServer R F vo).toVideoServiceServer req videos) ∧
    s.counters.Clean ∧
    ∀ i < s.calls.length, ∃ req, (requests ls)[i]? = some req ∧ s.CanAnswer cfg rank (makeUserServiceServer R uo)
      (makeVideoServiceServer R F vo).toVideoServiceServer req i := by
  have hd : Deployed cfg (makeUserServiceServer R uo) (makeVideoServiceServer R F vo) :=
    ⟨closed_of_seed R F hseed, hfits, huserClient, hvideoClient⟩
  have hall : AllServed rank (makeUserServiceServer R uo) (makeVideoServiceServer R F vo).toVideoServiceServer ls s := by
    refine run_history (fun done s l s' hl hdone hstep => hdone.step hd (hclients l hl) (hreliable l hl) hstep) ?_ h
    exact ⟨by simp [requests], .nil, rfl, rfl, rfl, rfl⟩
  refine ⟨fun i exit hi => ?_, hall.clean, fun i hi => hall.canAnswer hd hi⟩
  obtain ⟨req, hreq, hserves⟩ := forall₂_getElem? hall.calls hi
  cases exit with
  | answered videos => exact ⟨req, videos, hreq, rfl, hserves⟩
  | fellBack result => exact hserves.elim
  | failed err => exact hserves.elim

/-! #### The first user -/

/-- A generator that counts. -/
def counting : Source ℕ where
  seed := Int.toNat
  intn n := fun s => (s % n, s + 1)
  intn_lt s hn := Nat.mod_lt s hn

/-- A faker that knows one word. -/
def oneWord : Faker Unit := ⟨fun _ => (), fun _ => pure "word"⟩

def countedUsers : UserServiceServer := makeUserServiceServer counting defaultUserServiceOptions

def countedVideos : TrendingServer := makeVideoServiceServer counting oneWord defaultVideoServiceOptions

/-- Batches of `50`, four connections to each service, and the fallback enabled. -/
def fiftyByFifty : Config := makeVideoRecServiceServer ⟨50, false, 4⟩

theorem fits_fifty : Fits countedUsers countedVideos.toVideoServiceServer fiftyByFifty.options.maxBatchSize :=
  ⟨by decide, le_refl (50 : ℤ), le_refl (50 : ℤ)⟩

/-- A call for the first user, from its start to its end, and then a request for the second. -/
def twoRequests (b : Backend) (fuel : ℕ) : List Label :=
  [.getTopVideos ⟨200000, 5⟩, .next 0, .work 0 b .insertion fuel 7, .next 0, .next 0, .next 0,
    .getTopVideos ⟨getNextUserId 200000, 5⟩]

section TwoRequests

variable {cfg : Config} {rank : Coefficients → Coefficients → UInt64} {b : Backend} {fuel : ℕ}

theorem requests_twoRequests : requests (twoRequests b fuel) = [⟨200000, 5⟩, ⟨getNextUserId 200000, 5⟩] := rfl

theorem twoRequests_fromClients {l : Label} (hl : l ∈ twoRequests b fuel) : l.FromClients := by
  simp only [twoRequests, List.mem_cons, List.not_mem_nil, or_false] at hl
  rcases hl with rfl | rfl | rfl | rfl | rfl | rfl | rfl <;> intro req hreq <;> cases hreq
  · exact .inl ⟨0, rfl⟩
  · exact .inl ⟨1, rfl⟩

theorem twoRequests_reliable {udb : UserServiceServer} {vdb : VideoServiceServer} {l : Label}
    (hl : l ∈ twoRequests (.reliable udb vdb) fuel) : l.Reliable udb vdb := by
  simp only [twoRequests, List.mem_cons, List.not_mem_nil, or_false] at hl
  rcases hl with rfl | rfl | rfl | rfl | rfl | rfl | rfl <;> intro i b sorter fuel latency hwork <;> cases hwork
  rfl

theorem run_twoRequests {videos : List VideoInfo}
    (h : recommend cfg rank .insertion b fuel ⟨200000, 5⟩ = some (.ranked videos)) :
    run (Service.step cfg rank) .fresh (twoRequests b fuel) =
      some ⟨⟨1, 0, 0, 0, 0, 7, 0⟩, ⟨[], 0⟩, [.returned (.answered videos), .called ⟨getNextUserId 200000, 5⟩], []⟩ := by
  simp [twoRequests, run, Service.step, Service.fresh, Phase.next, h, Outcome.phase]

end TwoRequests

/-- The first user is served, and the second can be. -/
theorem load_is_served_firstUser : ∃ fuel s videos,
    run (Service.step fiftyByFifty (BcryptRanker.rank id)) .fresh
      (twoRequests (.reliable countedUsers countedVideos.toVideoServiceServer) fuel) = some s ∧
      s.calls[0]? = some (.returned (.answered videos)) ∧
      Served (BcryptRanker.rank id) countedUsers countedVideos.toVideoServiceServer ⟨200000, 5⟩ videos ∧
      s.CanAnswer fiftyByFifty (BcryptRanker.rank id) countedUsers countedVideos.toVideoServiceServer
        ⟨getNextUserId 200000, 5⟩ 1 := by
  have hseed : defaultUserServiceOptions.seed = defaultVideoServiceOptions.seed := rfl
  have hd : Deployed fiftyByFifty countedUsers countedVideos :=
    ⟨closed_of_seed counting oneWord hseed, fits_fifty, rfl, rfl⟩
  have hclient : FromClient ⟨200000, 5⟩ := .inl ⟨0, rfl⟩
  obtain ⟨videos, hvideos, -⟩ := hd.recommend_turns (BcryptRanker.rank id) .insertion hclient le_rfl
  have hrun := run_twoRequests hvideos
  obtain ⟨hserved, -, hcan⟩ := load_is_served counting oneWord hseed fits_fifty rfl rfl
    (fun _ => twoRequests_fromClients) (fun _ => twoRequests_reliable) hrun
  rw [requests_twoRequests] at hserved hcan
  refine ⟨_, _, videos, hrun, rfl, ?_, ?_⟩
  · obtain ⟨req, videos', hreq, hexit, hserves⟩ := hserved 0 _ rfl
    rw [List.getElem?_cons_zero, Option.some.injEq] at hreq
    rw [Exit.answered.injEq] at hexit
    rw [hreq, hexit]
    exact hserves
  · obtain ⟨req, hreq, hcan⟩ := hcan 1 Nat.one_lt_two
    rw [List.getElem?_cons_succ, List.getElem?_cons_zero, Option.some.injEq] at hreq
    exact hreq.symm ▸ hcan

/-! ### Runs in which requests fail -/

/-- The videos are videos of the database. -/
def Stored (vdb : VideoServiceServer) (videos : List VideoInfo) : Prop := ∀ v ∈ videos, vdb.videos v.videoId = some v

/-- An answer with videos that exist; from the cache, with at least one. -/
def Answer (vdb : VideoServiceServer) (response : GetTopVideosResponse) : Prop :=
  Stored vdb response.videos ∧ (response.staleResponse = true → response.videos ≠ [])

/-- The call has not failed, and will not. -/
def Phase.Holds (vdb : VideoServiceServer) : Phase → Prop
  | .erring _ => False
  | .stale response => Answer vdb response
  | .timing videos _ => Stored vdb videos
  | .leaving exit | .closing exit | .returned exit => ∃ response, exit.result = .ok response ∧ Answer vdb response
  | _ => True

/-- The requests of calls may fail or get lost; so may `GetTrendingVideos`, but what a refresh asks
of `GetVideo` is answered. -/
structure Label.Survivable (udb : UserServiceServer) (vdb : TrendingServer) (l : Label) : Prop where
  work : ∀ i b sorter fuel latency, l = .work i b sorter fuel latency →
    ∃ userCalls videoCalls, b = .ofServers udb vdb.toVideoServiceServer userCalls videoCalls
  getVideo : ∀ r fuel, l = .refresh r fuel → ∀ k ids, r.getVideo k ids = vdb.getVideo false ids
  getTrendingVideos : ∀ r fuel, l = .refresh r fuel → (∃ err, r.getTrendingVideos = .error err) ∨
    ∃ now, r.getTrendingVideos = vdb.getTrendingVideos false now

section Failures

variable {cfg : Config} {rank : Coefficients → Coefficients → UInt64} {udb : UserServiceServer} {vdb : TrendingServer}
  {s s' : Service}

/-- What is recommended is stored, whatever failed on the way. -/
theorem Closed.stored_of_recommend (h : Closed udb vdb) {userCalls videoCalls : ℕ → Delivery} {sorter : Sorter}
    {fuel : ℕ} {req : GetTopVideosRequest} {videos : List VideoInfo}
    (hrec : recommend cfg rank sorter (.ofServers udb vdb.toVideoServiceServer userCalls videoCalls) fuel req =
      some (.ranked videos)) : Stored vdb.toVideoServiceServer videos := by
  obtain ⟨user, candidates, infos, hranked, rfl⟩ := recommend_ranked hrec
  obtain ⟨rest, hperm, -⟩ := topVideos_spec rank sorter user infos req.limit
  have hinfos := stored_of_mem h.videoId (forall₂_of_fetchVideos hranked.fetched)
  exact fun v hv => hinfos v (hperm.subset (List.mem_append_left _ hv))

/-- A refresh that gets the trending ids gets their infos. -/
theorem Closed.batchLoop_eq (h : Closed udb vdb) (hfits : Fits udb vdb.toVideoServiceServer cfg.options.maxBatchSize)
    {getVideo : ℕ → List UInt64 → Except Status (List VideoInfo)}
    (hgetVideo : ∀ k ids, getVideo k ids = vdb.getVideo false ids) {fuel : ℕ}
    {fetched : List VideoInfo × Option Status}
    (hloop : batchLoop cfg.options.maxBatchSize getVideo vdb.topVideos fuel 0 0 [] = some fetched) :
    List.Forall₂ (fun id info => vdb.videos id = some info) vdb.topVideos fetched.1 := by
  have hcall : ∀ k xs, IsBatch cfg.options.maxBatchSize vdb.topVideos xs →
      getVideo k xs = lookupLoop VideoServiceServer.notFound vdb.videos xs [] := fun k xs hxs => by
    rw [hgetVideo]
    exact VideoServiceServer.getVideo_of_valid hxs.ne_nil (hxs.length_le.trans hfits.video)
      (h.once.sublist hxs.isInfix.sublist)
  have hmore := batchLoop_mono (Nat.le_add_right fuel (vdb.topVideos.length + 1)) hloop
  have hanswer := batchLoop_eq_answer hfits.pos (by rfl) lookupLoop_append hcall 0 [] le_rfl
    (show (vdb.topVideos.length - (0 : ℤ)).toNat < fuel + (vdb.topVideos.length + 1) by omega)
  rw [hmore, Int.toNat_zero, List.drop_zero, Option.map_some, Option.some.injEq] at hanswer
  obtain ⟨infos, hinfos⟩ : ∃ infos, lookupLoop VideoServiceServer.notFound vdb.videos vdb.topVideos [] = .ok infos :=
    lookupLoop_isOk_iff.mpr h.trending
  obtain ⟨found, err⟩ := fetched
  rw [hinfos] at hanswer
  cases err with
  | some err => cases hanswer
  | none =>
    obtain rfl : found = infos := by simpa [collected, Except.map] using hanswer
    exact lookupLoop_eq_ok_iff.mp hinfos

/-- The cache has videos in it, all of which exist. -/
def Filled (vdb : VideoServiceServer) (cache : TrendingVideos) : Prop := cache.videos ≠ [] ∧ Stored vdb cache.videos

theorem Closed.filled_of_forall₂ (h : Closed udb vdb) {infos : List VideoInfo} {expireTime : ℤ}
    (hinfos : List.Forall₂ (fun id info => vdb.videos id = some info) vdb.topVideos infos) :
    Filled vdb.toVideoServiceServer ⟨infos, expireTime⟩ := by
  refine ⟨fun hnil => ?_, stored_of_mem h.videoId hinfos⟩
  obtain rfl : infos = [] := hnil
  exact h.trends (List.forall₂_nil_right_iff.mp hinfos)

/-- A refresh past the expiry time that gets the trending ids fills the cache. -/
theorem Closed.filled_of_ok (h : Closed udb vdb)
    (hfits : Fits udb vdb.toVideoServiceServer cfg.options.maxBatchSize) {r : Refresh} {fuel : ℕ} {now : ℤ}
    {cache cache' : TrendingVideos} (hnow : cache.expireTime < r.now)
    (hgetVideo : ∀ k ids, r.getVideo k ids = vdb.getVideo false ids)
    (htrending : r.getTrendingVideos = vdb.getTrendingVideos false now)
    (hturn : fetchTrendingVideos cfg r fuel cache = some cache') : Filled vdb.toVideoServiceServer cache' := by
  rw [fetchTrendingVideos, if_neg (not_le.mpr hnow)] at hturn
  by_cases hdial : cfg.mockVideoFlag = false ∧ r.dial.isOk = false
  · rw [if_pos hdial] at hturn
    cases hturn
  · rw [if_neg hdial, htrending] at hturn
    obtain ⟨fetched, hloop, rfl⟩ := Option.map_eq_some_iff.mp hturn
    exact h.filled_of_forall₂ (h.batchLoop_eq hfits hgetVideo hloop)

/-- A refresh whose `GetTrendingVideos` fails leaves the cache as it is, if it does not panic. -/
theorem eq_of_refresh_error {r : Refresh} {fuel : ℕ} {cache cache' : TrendingVideos} {err : Status}
    (herr : r.getTrendingVideos = .error err) (hturn : fetchTrendingVideos cfg r fuel cache = some cache') :
    cache' = cache := by
  simp only [fetchTrendingVideos, herr] at hturn
  split_ifs at hturn <;> exact (Option.some.inj hturn).symm

/-- A refresh leaves a filled cache filled. -/
theorem Closed.filled_refresh (h : Closed udb vdb)
    (hfits : Fits udb vdb.toVideoServiceServer cfg.options.maxBatchSize) {r : Refresh} {fuel : ℕ}
    {cache cache' : TrendingVideos} (hl : (Label.refresh r fuel).Survivable udb vdb)
    (hturn : fetchTrendingVideos cfg r fuel cache = some cache') (hcache : Filled vdb.toVideoServiceServer cache) :
    Filled vdb.toVideoServiceServer cache' := by
  by_cases hnow : r.now ≤ cache.expireTime
  · rw [fetchTrendingVideos, if_pos hnow, Option.some.injEq] at hturn
    exact hturn ▸ hcache
  · rcases hl.getTrendingVideos r fuel rfl with ⟨err, herr⟩ | ⟨now, htrending⟩
    · exact eq_of_refresh_error herr hturn ▸ hcache
    · exact h.filled_of_ok hfits (not_le.mp hnow) (hl.getVideo r fuel rfl) htrending hturn

/-- A filled cache answers every request. -/
theorem Filled.fallBack {cache : TrendingVideos} (h : Filled vdb.toVideoServiceServer cache)
    (req : GetTopVideosRequest) :
    ∃ response, fallBack cache req = .ok response ∧ Answer vdb.toVideoServiceServer response := by
  obtain ⟨hne, hstored⟩ := h
  have hlength := List.length_pos_iff.mpr hne
  simp only [VideoRec.fallBack, if_pos hne]
  refine ⟨_, rfl, fun v hv => hstored v (List.mem_of_mem_take hv), fun _ hnil => ?_⟩
  rcases List.take_eq_nil_iff.mp hnil with hzero | hnil
  · split_ifs at hzero <;> omega
  · exact hne hnil

theorem Phase.Holds.next (hfallback : cfg.options.disableFallback = false) {phase phase' : Phase}
    {cache : TrendingVideos} {c c' : Counters} (hcache : Filled vdb.toVideoServiceServer cache)
    (h : phase.Holds vdb.toVideoServiceServer) (hn : phase.next cfg cache c = some (phase', c')) :
    phase'.Holds vdb.toVideoServiceServer ∧ c'.numTopVideoErrs = c.numTopVideoErrs := by
  cases phase with
  | called r =>
    cases hn
    exact ⟨trivial, rfl⟩
  | active r => cases hn
  | userErr err r | videoErr err r =>
    simp only [Phase.next, afterServiceErr, if_pos hfallback] at hn
    cases hn
    exact ⟨trivial, rfl⟩
  | fallingBack r =>
    obtain ⟨response, hresponse, hanswer⟩ := hcache.fallBack r
    simp only [Phase.next, hresponse] at hn
    cases hn
    exact ⟨hanswer, rfl⟩
  | stale response =>
    cases hn
    exact ⟨⟨response, rfl, h⟩, rfl⟩
  | erring err => exact h.elim
  | timing videos latency =>
    cases hn
    exact ⟨⟨_, rfl, h, by simp⟩, rfl⟩
  | leaving exit | closing exit =>
    cases hn
    exact ⟨h, rfl⟩
  | returned exit => cases hn

/-- The cache is filled, no call has failed, and none will; `errs` errors have been counted. -/
structure Surviving (vdb : VideoServiceServer) (errs : UInt64) (s : Service) : Prop where
  filled : Filled vdb s.fallBackVideos
  calls : ∀ phase ∈ s.calls, phase.Holds vdb
  errs : s.counters.numTopVideoErrs = errs

theorem Surviving.step (h : Closed udb vdb) (hfits : Fits udb vdb.toVideoServiceServer cfg.options.maxBatchSize)
    (hfallback : cfg.options.disableFallback = false) {l : Label} {errs : UInt64}
    (hs : Surviving vdb.toVideoServiceServer errs s) (hl : l.Survivable udb vdb)
    (hstep : s.step cfg rank l = some s') : Surviving vdb.toVideoServiceServer errs s' := by
  obtain ⟨hfilled, hcalls, herrs⟩ := hs
  cases l with
  | getTopVideos req =>
    cases hstep
    exact ⟨hfilled, List.forall_mem_append.mpr ⟨hcalls, by simp [Phase.Holds]⟩, herrs⟩
  | work i b sorter fuel latency =>
    obtain ⟨userCalls, videoCalls, rfl⟩ := hl.work i b sorter fuel latency rfl
    obtain ⟨req, outcome, hi, hrec, rfl⟩ := Service.step_work_iff.mp hstep
    refine ⟨hfilled, fun phase hphase => ?_, herrs⟩
    rcases List.mem_or_eq_of_mem_set hphase with hphase | rfl
    · exact hcalls phase hphase
    · cases outcome with
      | userServiceErr err => trivial
      | videoServiceErr err => trivial
      | ranked videos => exact h.stored_of_recommend hrec
  | next i =>
    obtain ⟨phase, phase', c', hi, hn, rfl⟩ := Service.step_next_iff.mp hstep
    obtain ⟨hphase', hc'⟩ := (hcalls phase (List.mem_of_getElem? hi)).next hfallback hfilled hn
    refine ⟨hfilled, fun p hp => ?_, hc'.trans herrs⟩
    rcases List.mem_or_eq_of_mem_set hp with hp | rfl
    · exact hcalls p hp
    · exact hphase'
  | refresh r fuel =>
    obtain ⟨cache, hturn, rfl⟩ := Service.step_refresh_iff.mp hstep
    exact ⟨h.filled_refresh hfits hl hturn hfilled, hcalls, herrs⟩
  | getStats =>
    cases hstep
    exact ⟨hfilled, hcalls, herrs⟩
  | load j =>
    obtain ⟨loaded, load, -, -, rfl⟩ := Service.step_load_iff.mp hstep
    exact ⟨hfilled, hcalls, herrs⟩

theorem Surviving.run (h : Closed udb vdb) (hfits : Fits udb vdb.toVideoServiceServer cfg.options.maxBatchSize)
    (hfallback : cfg.options.disableFallback = false) {errs : UInt64} {ls : List Label}
    (hs : Surviving vdb.toVideoServiceServer errs s) (hls : ∀ l ∈ ls, Label.Survivable udb vdb l)
    (hrun : Machine.run (Service.step cfg rank) s ls = some s') : Surviving vdb.toVideoServiceServer errs s' := by
  refine run_invariant (I := Surviving vdb.toVideoServiceServer errs) ?_ (along_of_forall_mem _ hls) hs hrun
  exact fun _ _ _ hu hl hstep => hu.step h hfits hfallback hl hstep

end Failures

/-- **The load survives failures.** Take the same services, with the fallback enabled, in any state in
which no call has failed and the cache is filled, or the run begins with a refresh that fills it.
Let requests that calls make to either service fail or get lost in any way, and `GetTrendingVideos`
fail, as long as what a refresh asks of `GetVideo` is answered. Then no call ever fails: every call
that has returned was answered, with videos that exist, and with at least one if they are from the
cache; and no error is counted. -/
theorem load_survives_failures {ρ φ : Type} (R : Source ρ) (F : Faker φ) {uo : UserServiceOptions}
    {vo : VideoServiceOptions} {cfg : Config} {rank : Coefficients → Coefficients → UInt64} (hseed : uo.seed = vo.seed)
    (hfits : Fits (makeUserServiceServer R uo) (makeVideoServiceServer R F vo).toVideoServiceServer
      cfg.options.maxBatchSize)
    (hfallback : cfg.options.disableFallback = false) {ls : List Label} {s s' : Service}
    (hcalls : ∀ phase ∈ s.calls, phase.Holds (makeVideoServiceServer R F vo).toVideoServiceServer)
    (hcache : Filled (makeVideoServiceServer R F vo).toVideoServiceServer s.fallBackVideos ∨
      ∃ r fuel now, ls.head? = some (.refresh r fuel) ∧ s.fallBackVideos.expireTime < r.now ∧
        r.getTrendingVideos = (makeVideoServiceServer R F vo).getTrendingVideos false now)
    (hall : ∀ l ∈ ls, Label.Survivable (makeUserServiceServer R uo) (makeVideoServiceServer R F vo) l)
    (h : run (Service.step cfg rank) s ls = some s') :
    (∀ exit, Phase.returned exit ∈ s'.calls → ∃ response, exit.result = .ok response ∧
      Answer (makeVideoServiceServer R F vo).toVideoServiceServer response) ∧
    s'.counters.numTopVideoErrs = s.counters.numTopVideoErrs := by
  have hclosed := closed_of_seed R F hseed
  have hend : Surviving (makeVideoServiceServer R F vo).toVideoServiceServer s.counters.numTopVideoErrs s' := by
    rcases hcache with hfilled | ⟨r, fuel, now, hhead, hnow, hfirst⟩
    · exact Surviving.run hclosed hfits hfallback ⟨hfilled, hcalls, rfl⟩ hall h
    · obtain ⟨ls, rfl⟩ := List.head?_eq_some_iff.mp hhead
      obtain ⟨hl, hls⟩ := List.forall_mem_cons.mp hall
      obtain ⟨u, hu, hrun⟩ := (run_cons_iff _).mp h
      obtain ⟨cache, hturn, rfl⟩ := Service.step_refresh_iff.mp hu
      have hstart : Surviving (makeVideoServiceServer R F vo).toVideoServiceServer s.counters.numTopVideoErrs
          { s with fallBackVideos := cache } :=
        ⟨hclosed.filled_of_ok hfits hnow (hl.getVideo r fuel rfl) hfirst hturn, hcalls, rfl⟩
      exact hstart.run hclosed hfits hfallback hls hrun
  exact ⟨fun exit hexit => hend.calls _ hexit, hend.errs⟩

/-- Everything that is asked of the user service gets lost. -/
def usersLost : Backend := .ofServers countedUsers countedVideos.toVideoServiceServer
  (fun _ => .lost ⟨.unavailable, "lost"⟩) fun _ => .handled false

/-- A first refresh. -/
def firstRefresh : Refresh :=
  ⟨1, .ok (), countedVideos.getTrendingVideos false 1, fun _ ids => countedVideos.getVideo false ids⟩

/-- A call that cannot reach the user service and falls back. -/
def lostCall : List Label :=
  [.getTopVideos ⟨200000, 5⟩, .next 0, .work 0 usersLost .insertion 1 0, .next 0, .next 0, .next 0, .next 0, .next 0]

theorem recommend_usersLost (rank : Coefficients → Coefficients → UInt64) (req : GetTopVideosRequest) :
    recommend fiftyByFifty rank .insertion usersLost 1 req = some (.userServiceErr ⟨.unavailable, "lost"⟩) := rfl

theorem run_lostCall {cache : TrendingVideos} {response : GetTopVideosResponse}
    (h : fallBack cache ⟨200000, 5⟩ = .ok response) :
    run (Service.step fiftyByFifty (BcryptRanker.rank id)) { Service.fresh with fallBackVideos := cache } lostCall =
      some ⟨⟨1, 0, 0, 1, 0, 0, 1⟩, cache, [.returned (.fellBack (.ok response))], []⟩ := by
  have hfallback : fiftyByFifty.options.disableFallback = false := rfl
  simp [lostCall, run, Service.step, Service.fresh, Phase.next, recommend_usersLost, Outcome.phase, afterServiceErr,
    hfallback, h]

theorem firstRefresh_survivable {l : Label} {fuel : ℕ} (hl : l ∈ .refresh firstRefresh fuel :: lostCall) :
    l.Survivable countedUsers countedVideos := by
  simp only [lostCall, List.mem_cons, List.not_mem_nil, or_false] at hl
  rcases hl with rfl | rfl | rfl | rfl | rfl | rfl | rfl | rfl | rfl <;>
    refine ⟨fun i b sorter fuel latency h => ?_, fun r fuel h => ?_, fun r fuel h => ?_⟩ <;> cases h
  · exact fun _ _ => rfl
  · exact .inr ⟨1, rfl⟩
  · exact ⟨_, _, rfl⟩

/-- After a first refresh, a call whose requests all get lost is answered. -/
theorem load_survives_failures_lostCall : ∃ fuel s exit,
    run (Service.step fiftyByFifty (BcryptRanker.rank id)) .fresh (.refresh firstRefresh fuel :: lostCall) = some s ∧
      s.calls = [.returned exit] ∧
      ∃ response, exit.result = .ok response ∧ Answer countedVideos.toVideoServiceServer response := by
  have hclosed : Closed countedUsers countedVideos := closed_of_seed counting oneWord rfl
  have hsome : (batchLoop 50 firstRefresh.getVideo countedVideos.topVideos (countedVideos.topVideos.length + 1) 0 0
      []).isSome = true := batchLoop_isSome (by decide) 0 [] (by simp)
  obtain ⟨fetched, hfetched⟩ := Option.isSome_iff_exists.mp hsome
  have hturn : fetchTrendingVideos fiftyByFifty firstRefresh (countedVideos.topVideos.length + 1) ⟨[], 0⟩ =
      some ⟨fetched.1, int64 (UInt64.ofInt (1 + 60))⟩ := Option.map_eq_some_iff.mpr ⟨fetched, hfetched, rfl⟩
  have hnow : (0 : ℤ) < firstRefresh.now := Int.one_pos
  obtain ⟨response, hresponse, -⟩ := (hclosed.filled_of_ok fits_fifty hnow (fun _ _ => rfl)
    (show firstRefresh.getTrendingVideos = countedVideos.getTrendingVideos false 1 from rfl) hturn).fallBack ⟨200000, 5⟩
  have hs : run (Service.step fiftyByFifty (BcryptRanker.rank id)) .fresh
      (.refresh firstRefresh (countedVideos.topVideos.length + 1) :: lostCall) = _ :=
    (run_cons_iff _).mpr ⟨_, Service.step_refresh_iff.mpr ⟨_, hturn, rfl⟩, run_lostCall hresponse⟩
  have hanswered := load_survives_failures counting oneWord rfl fits_fifty rfl
    (fun _ hphase => (List.not_mem_nil hphase).elim)
    (.inr ⟨firstRefresh, _, 1, rfl, hnow, rfl⟩) (fun l hl => firstRefresh_survivable hl) hs
  exact ⟨_, _, _, hs, rfl, hanswered.1 _ (List.mem_singleton_self _)⟩

end Cs426.VideoRec
