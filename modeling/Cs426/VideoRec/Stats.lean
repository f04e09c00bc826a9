import Cs426.Lib.Counting
import Cs426.VideoRec.Service

/-!
# What the request statistics say

`GetStats` reports counters that every call of `GetTopVideos` updates by hand on its way
out. Each of them is a `Tally`: at every moment it is the number, modulo `2 ^ 64`, of the
calls that have come so far as to be counted (`Phase.next_counts`). From that, with fewer than
`2 ^ 64` calls,

* `stats_exact` — when no call is in progress, the numbers of requests, of stale responses
  and of active requests are exact, and the number of errors is exact unless a call read an
  empty cache in `fallBack`: that call returns an error and does not count it
  (`stats_emptyCache`);
* `success_count_exact` — the difference by which the latency is divided does not wrap if no
  call is between its two counts when they are loaded; otherwise it can
  (`success_count_wraps`), because an error is counted before its request is.
-/

namespace Cs426.VideoRec

open Cs426.Machine Cs426.Counting

/-! ### Counters as counts of calls -/

namespace Phase

/-- The call has counted itself as a request. -/
def isRequest : Phase → Bool
  | .closing _ | .returned _ => true
  | _ => false

/-- The call is between its first update and its last. -/
def isActive : Phase → Bool
  | .called _ | .returned _ => false
  | _ => true

/-- The call has counted an error: it ends with the error of a service. -/
def isErr : Phase → Bool
  | .leaving (.failed _) | .closing (.failed _) | .returned (.failed _) => true
  | _ => false

/-- The call has counted a stale response: `fallBack` gave it one. -/
def isStale : Phase → Bool
  | .leaving (.fellBack (.ok _)) | .closing (.fellBack (.ok _)) | .returned (.fellBack (.ok _)) => true
  | _ => false

/-- The call fell back to an empty cache. -/
def isEmptyFallBack : Phase → Bool
  | .leaving (.fellBack (.error _)) | .closing (.fellBack (.error _)) | .returned (.fellBack (.error _)) => true
  | _ => false

variable {cfg : Config} {cache : TrendingVideos} {c c' : Counters} {phase phase' : Phase}

/-- **What an update does to the counters**: each of them changes by what the call comes to stand
for. -/
theorem next_counts (h : phase.next cfg cache c = some (phase', c')) :
    c'.numTopVideoRequests + phase.isRequest.toUInt64 = c.numTopVideoRequests + phase'.isRequest.toUInt64 ∧
      c'.numActiveRequests.toUInt64 + phase.isActive.toUInt64 =
        c.numActiveRequests.toUInt64 + phase'.isActive.toUInt64 ∧
      c'.numTopVideoErrs + phase.isErr.toUInt64 = c.numTopVideoErrs + phase'.isErr.toUInt64 ∧
      c'.numStaleResponse + phase.isStale.toUInt64 = c.numStaleResponse + phase'.isStale.toUInt64 := by
  have hadd : ∀ x : Int64, (x + 1).toUInt64 = x.toUInt64 + 1 := fun _ => rfl
  have hsub : ∀ x : Int64, (x - 1).toUInt64 = x.toUInt64 - 1 := fun _ => rfl
  have hone : true.toUInt64 = 1 := rfl
  have hzero : false.toUInt64 = 0 := rfl
  cases phase with
  | active | returned => cases h
  | called req | erring err | timing videos latency =>
    cases h
    simp [isRequest, isActive, isErr, isStale, hadd, hone, hzero]
  | userErr err req | videoErr err req =>
    cases h
    unfold afterServiceErr
    split_ifs <;> simp [isRequest, isActive, isErr, isStale, hone, hzero]
  | fallingBack req =>
    simp only [Phase.next] at h
    split at h <;> cases h <;> simp [isRequest, isActive, isErr, isStale, hone, hzero]
  | stale response =>
    cases h
    simp [isRequest, isActive, isErr, isStale, hone, hzero]
  | leaving exit | closing exit =>
    cases h
    rcases exit with videos | (err | response) | err <;> simp [isRequest, isActive, isErr, isStale, hsub, hone, hzero]

/-- A call falls back to an empty cache when it reads one, and that stays so. -/
theorem isEmptyFallBack_next (h : phase.next cfg cache c = some (phase', c')) :
    phase'.isEmptyFallBack = true ↔
      phase.isEmptyFallBack = true ∨ (∃ req, phase = .fallingBack req) ∧ cache.videos = [] := by
  cases phase with
  | active | returned => cases h
  | called req | erring err | timing videos latency | stale response =>
    cases h
    simp [isEmptyFallBack]
  | userErr err req | videoErr err req =>
    cases h
    unfold afterServiceErr
    split_ifs <;> simp [isEmptyFallBack]
  | fallingBack req =>
    have hempty : (∃ err, fallBack cache req = .error err) ↔ cache.videos = [] := fallBack_error_iff
    simp only [Phase.next] at h
    split at h <;> cases h <;> simp_all [isEmptyFallBack]
  | leaving exit | closing exit =>
    cases h
    rcases exit with videos | (err | response) | err <;> simp [isEmptyFallBack]

end Phase

/-- A counter, and the calls it counts. -/
structure Tally (cfg : Config) where
  count : Counters → UInt64
  counts : Phase → Bool
  fresh : count Service.fresh.counters = 0
  called : ∀ req, counts (.called req) = false
  work : ∀ req latency (outcome : Outcome), counts (outcome.phase req latency) = counts (.active req)
  next : ∀ cache c c' (phase phase' : Phase), phase.next cfg cache c = some (phase', c') →
    count c' + (counts phase).toUInt64 = count c + (counts phase').toUInt64

namespace Tally

variable {cfg : Config} {rank : Coefficients → Coefficients → UInt64} {s s' : Service}

/-- One step changes the counter and the number of calls alike. -/
theorem step (t : Tally cfg) {l : Label} (h : s.step cfg rank l = some s')
    (hs : t.count s.counters = UInt64.ofNat (s.calls.countP t.counts)) :
    t.count s'.counters = UInt64.ofNat (s'.calls.countP t.counts) := by
  rcases Service.step_cases h with ⟨hcalls, hc⟩ | ⟨req, hcalls, hc⟩ | ⟨i, phase, phase', hp, hcalls, hmove⟩
  · rw [hcalls, hc, hs]
  · rw [hcalls, hc, hs, List.countP_append, List.countP_singleton, t.called]
    rfl
  · rcases hmove with ⟨req, outcome, latency, rfl, rfl, hc⟩ | ⟨-, hn⟩
    · rw [hcalls, hc, hs, countP_set_of_eq t.counts hp _ (t.work req latency outcome)]
    · have hset := congrArg UInt64.ofNat (countP_set_add t.counts hp phase')
      have hnext := t.next _ _ _ _ _ hn
      have hbit : ∀ b : Bool, UInt64.ofNat b.toNat = b.toUInt64 := by decide
      rw [UInt64.ofNat_add, UInt64.ofNat_add, hbit, hbit, ← hs, ← hnext] at hset
      rw [hcalls]
      exact (UInt64.add_left_inj _).mp hset.symm

/-- **At every moment the counter is the number of the calls it counts**, modulo `2 ^ 64`. -/
theorem of_run (t : Tally cfg) {ls : List Label} (h : run (Service.step cfg rank) .fresh ls = some s) :
    t.count s.counters = UInt64.ofNat (s.calls.countP t.counts) :=
  run_inductive (I := fun s : Service => t.count s.counters = UInt64.ofNat (s.calls.countP t.counts))
    (fun _ _ _ hs hstep => t.step hstep hs) t.fresh h

/-- With fewer calls than that, it is that number. -/
theorem toNat_of_run (t : Tally cfg) {ls : List Label} (h : run (Service.step cfg rank) .fresh ls = some s)
    (hbound : s.calls.length < 2 ^ 64) : (t.count s.counters).toNat = s.calls.countP t.counts := by
  rw [t.of_run h]
  exact UInt64.toNat_ofNat_of_lt (List.countP_le_length.trans_lt hbound)

def requests (cfg : Config) : Tally cfg where
  count := Counters.numTopVideoRequests
  counts := Phase.isRequest
  fresh := rfl
  called _ := rfl
  work _ _ outcome := by cases outcome <;> rfl
  next _ _ _ _ _ h := (Phase.next_counts h).1

def active (cfg : Config) : Tally cfg where
  count c := c.numActiveRequests.toUInt64
  counts := Phase.isActive
  fresh := rfl
  called _ := rfl
  work _ _ outcome := by cases outcome <;> rfl
  next _ _ _ _ _ h := (Phase.next_counts h).2.1

def errs (cfg : Config) : Tally cfg where
  count := Counters.numTopVideoErrs
  counts := Phase.isErr
  fresh := rfl
  called _ := rfl
  work _ _ outcome := by cases outcome <;> rfl
  next _ _ _ _ _ h := (Phase.next_counts h).2.2.1

def stale (cfg : Config) : Tally cfg where
  count := Counters.numStaleResponse
  counts := Phase.isStale
  fresh := rfl
  called _ := rfl
  work _ _ outcome := by cases outcome <;> rfl
  next _ _ _ _ _ h := (Phase.next_counts h).2.2.2

end Tally

/-! ### When no call is in progress -/

/-- What the calls that have returned returned, the oldest call first. -/
def Service.results (s : Service) : List (Except Status GetTopVideosResponse) :=
  s.calls.filterMap fun
    | .returned exit => some exit.result
    | _ => none

/-- No call of `GetTopVideos` is in progress. -/
def Service.Idle (s : Service) : Prop := ∀ phase ∈ s.calls, ∃ exit, phase = .returned exit

def isError (result : Except Status GetTopVideosResponse) : Bool := !result.isOk

def isStale : Except Status GetTopVideosResponse → Bool
  | .ok response => response.staleResponse
  | .error _ => false

/-- Responses of `fallBack` are marked as stale. -/
def Phase.Marked : Phase → Prop
  | .stale response => response.staleResponse = true
  | .leaving (.fellBack (.ok response)) | .closing (.fellBack (.ok response))
  | .returned (.fellBack (.ok response)) => response.staleResponse = true
  | _ => True

variable {cfg : Config} {rank : Coefficients → Coefficients → UInt64} {s s' : Service}

theorem Phase.Marked.next {cache : TrendingVideos} {c c' : Counters} {phase phase' : Phase} (h : phase.Marked)
    (hn : phase.next cfg cache c = some (phase', c')) : phase'.Marked := by
  cases phase with
  | called | userErr | videoErr | erring | timing =>
    simp only [Phase.next, afterServiceErr] at hn
    grind [Phase.Marked]
  | active | returned => cases hn
  | fallingBack req =>
    unfold Phase.next fallBack at hn
    grind [Phase.Marked]
  | stale response =>
    obtain ⟨rfl, rfl⟩ : phase' = _ ∧ c' = _ := by simpa [Phase.next, eq_comm] using hn
    exact h
  | leaving exit | closing exit =>
    obtain ⟨rfl, rfl⟩ : phase' = _ ∧ c' = _ := by simpa [Phase.next, eq_comm] using hn
    rcases exit with videos | (err | response) | err <;> exact h

/-- What holds of every call that arrives and is kept by what a call does holds of all calls. -/
theorem Service.forall_calls_step {P : Phase → Prop} {l : Label} (hcalled : ∀ req, P (.called req))
    (hwork : ∀ req latency (outcome : Outcome), P (outcome.phase req latency))
    (hnext : ∀ cache c c' phase phase', P phase → Phase.next cfg cache c phase = some (phase', c') → P phase')
    (hs : ∀ phase ∈ s.calls, P phase) (hstep : s.step cfg rank l = some s') : ∀ phase ∈ s'.calls, P phase := by
  rcases Service.step_cases hstep with ⟨hcalls, -⟩ | ⟨req, hcalls, -⟩ | ⟨i, phase, phase', hp, hcalls, hmove⟩
  · rwa [hcalls]
  · rw [hcalls]
    exact List.forall_mem_append.mpr ⟨hs, List.forall_mem_singleton.mpr (hcalled req)⟩
  · intro other hmem
    rw [hcalls] at hmem
    rcases List.mem_or_eq_of_mem_set hmem with hmem | rfl
    · exact hs other hmem
    · rcases hmove with ⟨req, outcome, latency, -, rfl, -⟩ | ⟨-, hn⟩
      · exact hwork req latency outcome
      · exact hnext _ _ _ _ _ (hs phase (List.mem_of_getElem? hp)) hn

theorem marked_of_run {ls : List Label} (h : run (Service.step cfg rank) .fresh ls = some s) :
    ∀ phase ∈ s.calls, phase.Marked :=
  run_inductive (I := fun s : Service => ∀ phase ∈ s.calls, phase.Marked)
    (fun _ _ _ => Service.forall_calls_step (fun _ => trivial) (fun _ _ outcome => by cases outcome <;> trivial)
      fun _ _ _ _ _ => Phase.Marked.next)
    (by simp [Service.fresh]) h

/-- Whoever reads the cache in `fallBack` in this step finds it filled. -/
def Service.ReadsFilled (s : Service) (l : Label) : Prop :=
  ∀ i req, l = .next i → s.calls[i]? = some (.fallingBack req) → s.fallBackVideos.videos ≠ []

/-- A step leaves no call that fell back to an empty cache if there was none, and none does so now. -/
theorem countP_isEmptyFallBack_step {l : Label} (h : s.step cfg rank l = some s') :
    s'.calls.countP Phase.isEmptyFallBack = 0 ↔ s.calls.countP Phase.isEmptyFallBack = 0 ∧ s.ReadsFilled l := by
  have hother (hl : ∀ i, l ≠ .next i) : s.ReadsFilled l := fun i _ heq => absurd heq (hl i)
  cases l with
  | next i =>
    obtain ⟨phase, phase', c', hp, hn, rfl⟩ := Service.step_next_iff.mp h
    have hphase := Phase.isEmptyFallBack_next hn
    have hreads : s.ReadsFilled (.next i) ↔ ¬ ((∃ req, phase = .fallingBack req) ∧ s.fallBackVideos.videos = []) := by
      constructor
      · rintro hfilled ⟨⟨req, rfl⟩, hnil⟩
        exact hfilled i req rfl hp hnil
      · rintro hnot j req ⟨⟩ hj hnil
        exact hnot ⟨⟨req, Option.some.inj (hp.symm.trans hj)⟩, hnil⟩
    rw [hreads]
    by_cases hempty : (∃ req, phase = .fallingBack req) ∧ s.fallBackVideos.videos = []
    · have hset := countP_set_add Phase.isEmptyFallBack hp phase'
      have hnot : phase.isEmptyFallBack = false := by
        obtain ⟨⟨req, rfl⟩, -⟩ := hempty
        rfl
      rw [hphase.mpr (.inr hempty), hnot, Bool.toNat_true, Bool.toNat_false] at hset
      exact iff_of_false (by simp only; omega) fun hnone => hnone.2 hempty
    · rw [or_iff_left hempty] at hphase
      have hsame := countP_set_of_eq Phase.isEmptyFallBack hp phase' (Bool.eq_iff_iff.mpr hphase)
      simp [hsame, hempty]
  | work i b sorter fuel latency =>
    obtain ⟨req, outcome, hi, -, rfl⟩ := Service.step_work_iff.mp h
    have hsame := countP_set_of_eq Phase.isEmptyFallBack hi (outcome.phase req latency) (by cases outcome <;> rfl)
    simp [hsame, hother]
  | getTopVideos req =>
    cases h
    simp [Phase.isEmptyFallBack, hother]
  | refresh r fuel =>
    obtain ⟨cache, -, rfl⟩ := Service.step_refresh_iff.mp h
    simp [hother]
  | getStats =>
    cases h
    simp [hother]
  | load j =>
    obtain ⟨_, _, -, -, rfl⟩ := Service.step_load_iff.mp h
    simp [hother]

/-- Nobody falls back where that is disabled. -/
theorem Phase.next_ne_fallingBack (hcfg : cfg.options.disableFallback = true) {cache : TrendingVideos}
    {c c' : Counters} {phase phase' : Phase} (h : phase.next cfg cache c = some (phase', c'))
    (req : GetTopVideosRequest) : phase' ≠ .fallingBack req := by
  cases phase with
  | active | returned => cases h
  | fallingBack req =>
    simp only [Phase.next] at h
    split at h <;> cases h <;> simp
  | userErr err req | videoErr err req =>
    cases h
    simp [afterServiceErr, hcfg]
  | called | erring | timing | stale | leaving | closing =>
    cases h
    simp

/-- So there the errors are counted exactly. -/
theorem along_readsFilled (hcfg : cfg.options.disableFallback = true) (ls : List Label) :
    Along (Service.step cfg rank) Service.ReadsFilled .fresh ls := by
  refine along_imp (I := fun s : Service => ∀ phase ∈ s.calls, ∀ req, phase ≠ .fallingBack req) (P := fun _ _ => True)
    (fun s l s' hs _ hstep => ?_) (fun s l hs _ i req _ hi => absurd rfl (hs _ (List.mem_of_getElem? hi) req))
    (along_of_forall_mem _ fun _ _ => trivial) (by simp [Service.fresh])
  refine Service.forall_calls_step (fun _ => by simp) (fun _ _ outcome => ?_) (fun _ _ _ _ _ _ => ?_) hs hstep
  · cases outcome <;> simp [Outcome.phase]
  · exact Phase.next_ne_fallingBack hcfg

/-- What the calls of an idle service returned, counted by their phases. -/
theorem Service.Idle.countP_results (h : s.Idle) {p : Except Status GetTopVideosResponse → Bool} {q : Phase → Bool}
    (hpq : ∀ exit, .returned exit ∈ s.calls → p exit.result = q (.returned exit)) :
    s.results.countP p = s.calls.countP q := by
  rw [Service.results, List.countP_filterMap]
  refine List.countP_congr fun phase hphase => ?_
  obtain ⟨exit, rfl⟩ := h phase hphase
  simp [hpq exit hphase]

/-- The calls that returned an error are those that counted one, and those that fell back to an empty cache. -/
theorem Service.Idle.countP_isError (h : s.Idle) :
    s.results.countP isError = s.calls.countP Phase.isErr + s.calls.countP Phase.isEmptyFallBack := by
  have hor : s.results.countP isError = s.calls.countP fun phase => phase.isErr || phase.isEmptyFallBack :=
    h.countP_results fun exit _ => by rcases exit with videos | (err | response) | err <;> rfl
  have hdisjoint : ∀ phase : Phase, ¬ (phase.isErr = true ∧ phase.isEmptyFallBack = true) := by
    intro phase
    cases phase with
    | leaving exit | closing exit | returned exit =>
      rcases exit with videos | (err | response) | err <;> simp [Phase.isErr, Phase.isEmptyFallBack]
    | _ => simp [Phase.isErr]
  rw [hor]
  induction s.calls with
  | nil => rfl
  | cons phase calls ih =>
    have := hdisjoint phase
    simp only [List.countP_cons, ih]
    cases hp : phase.isErr <;> cases hq : phase.isEmptyFallBack <;> simp_all <;> omega

/-- One load of the youngest call of `GetStats`. -/
theorem step_load_last (s : Service) (loaded : List UInt64) :
    Service.step cfg rank { s with stats := s.stats ++ [loaded] } (.load s.stats.length) =
      statsLoads[loaded.length]?.map fun load =>
        { s with stats := s.stats ++ [loaded ++ [load s.counters]] } := by
  simp [Service.step, List.set_append_right]

/-- The youngest call of `GetStats` has made its first loads, and makes `k` more. -/
theorem run_loads (s : Service) {made k : ℕ} (hk : made + k ≤ statsLoads.length) :
    run (Service.step cfg rank) { s with stats := s.stats ++ [(statsLoads.take made).map (· s.counters)] }
        (List.replicate k (.load s.stats.length)) =
      some { s with stats := s.stats ++ [(statsLoads.take (made + k)).map (· s.counters)] } := by
  induction k generalizing made with
  | zero => rfl
  | succ k ih =>
    have hlt : made < statsLoads.length := by omega
    have hlen : ((statsLoads.take made).map (· s.counters)).length = made := by
      rw [List.length_map, List.length_take_of_le hlt.le]
    have hnext : (statsLoads.take made).map (· s.counters) ++ [statsLoads[made] s.counters] =
        (statsLoads.take (made + 1)).map (· s.counters) := by
      rw [List.take_succ_eq_append_getElem hlt, List.map_append, List.map_singleton]
    rw [List.replicate_succ, run, step_load_last, hlen, List.getElem?_eq_getElem hlt, Option.map_some,
      Option.bind_some, hnext, ih (by omega), Nat.add_assoc, Nat.add_comm 1 k]

/-- A call of `GetStats` that nothing comes in between. -/
theorem run_getStats (s : Service) :
    run (Service.step cfg rank) s (.getStats :: List.replicate 9 (.load s.stats.length)) =
      some { s with stats := s.stats ++ [statsLoads.map (· s.counters)] } :=
  (run_cons_iff _).mpr ⟨_, rfl, run_loads s (show 0 + 9 ≤ statsLoads.length from le_rfl)⟩

/-- **When no call is in progress, the statistics are exact** but for calls that fell back to
an empty cache. `GetStats`, which changes nothing but itself, then reports as many requests
as there were calls, as many stale responses as were returned, and no active request; and the
errors it reports are as many as were returned exactly if, in the whole run, whoever read the
cache in `fallBack` found it filled. -/
theorem stats_exact {ls : List Label} (h : run (Service.step cfg rank) .fresh ls = some s) (hidle : s.Idle)
    (hbound : s.calls.length < 2 ^ 64) :
    ∃ s' response, run (Service.step cfg rank) s (.getStats :: List.replicate 9 (.load s.stats.length)) = some s' ∧
      s'.stats[s.stats.length]?.bind getStatsResponse = some response ∧
      response.totalRequests.toNat = s.calls.length ∧
      response.staleResponses.toNat = s.results.countP isStale ∧
      response.activeRequests = 0 ∧
      (response.totalErrors.toNat = s.results.countP isError ↔
        Along (Service.step cfg rank) Service.ReadsFilled .fresh ls) := by
  have hmarked := marked_of_run h
  have hfilled := run_iff_along (Q := fun s : Service => s.calls.countP Phase.isEmptyFallBack = 0)
    (fun _ _ _ hstep => countP_isEmptyFallBack_step hstep) h
  -- each counter, as a count over the calls
  have hrequests : s.counters.numTopVideoRequests.toNat = s.calls.length := by
    refine ((Tally.requests cfg).toNat_of_run h hbound).trans (List.countP_eq_length.mpr fun phase hphase => ?_)
    obtain ⟨exit, rfl⟩ := hidle phase hphase
    rfl
  have hactive : s.counters.numActiveRequests.toUInt64 = 0 := by
    refine ((Tally.active cfg).of_run h).trans (congrArg UInt64.ofNat (List.countP_eq_zero.mpr fun phase hphase => ?_))
    obtain ⟨exit, rfl⟩ := hidle phase hphase
    simp [Tally.active, Phase.isActive]
  have hstale : s.counters.numStaleResponse.toNat = s.results.countP isStale := by
    refine ((Tally.stale cfg).toNat_of_run h hbound).trans (hidle.countP_results fun exit hexit => ?_).symm
    have hm := hmarked _ hexit
    rcases exit with videos | (err | response) | err <;>
      simp_all [Exit.result, isStale, Tally.stale, Phase.isStale, Phase.Marked]
  have herrs : s.counters.numTopVideoErrs.toNat = s.calls.countP Phase.isErr :=
    (Tally.errs cfg).toNat_of_run h hbound
  refine ⟨_, _, run_getStats s, by simp [statsLoads, getStatsResponse]; rfl, hrequests, hstale, hactive, ?_⟩
  rw [hidle.countP_isError]
  have hiff : s.calls.countP Phase.isEmptyFallBack = 0 ↔
      Along (Service.step cfg rank) Service.ReadsFilled .fresh ls := by
    simpa [Service.fresh] using hfilled
  rw [← hiff, ← herrs]
  change s.counters.numTopVideoErrs.toNat = _ ↔ _
  omega


/-! #### One call whose first request to `UserService` fails -/

/-- No call to a service succeeds. -/
def Backend.down : Backend := ⟨fun _ _ => .error ⟨.unavailable, "down"⟩, fun _ _ => .error ⟨.unavailable, "down"⟩⟩

/-- One call from its arrival to its return, the services being down. -/
def oneFailure : List Label :=
  [.getTopVideos ⟨1, 5⟩, .next 0, .work 0 .down .insertion 1 0, .next 0, .next 0, .next 0, .next 0]

/-- A server with mock clients. -/
def mocked (disableFallback : Bool) : Config := makeVideoRecServiceServerWithMocks ⟨10, disableFallback, 4⟩

def mockError : Status := ⟨.unknown, "Mock User service client returned Error"⟩

/-- Without fallback the call counts its error. -/
def oneError : Service := ⟨⟨1, 1, 0, 1, 0, 0, 0⟩, ⟨[], 0⟩, [.returned (.failed mockError)], []⟩

theorem stats_exact_oneError :
    ∃ s' response,
      run (Service.step (mocked true) fun _ _ => 0) oneError (.getStats :: List.replicate 9 (.load 0)) = some s' ∧
      s'.stats[0]?.bind getStatsResponse = some response ∧ response.totalRequests.toNat = 1 ∧
      response.staleResponses.toNat = 0 ∧ response.activeRequests = 0 ∧ response.totalErrors.toNat = 1 := by
  have hidle : oneError.Idle := by simp [Service.Idle, oneError]
  have hrun : run (Service.step (mocked true) fun _ _ => 0) .fresh oneFailure = some oneError := rfl
  have hfilled : Along (Service.step (mocked true) fun _ _ => 0) Service.ReadsFilled .fresh oneFailure :=
    along_readsFilled rfl oneFailure
  obtain ⟨s', response, hstats, hresponse, hrequests, hstale, hactive, herrs⟩ := stats_exact hrun hidle (by decide)
  exact ⟨s', response, hstats, hresponse, hrequests, hstale, hactive, herrs.mpr hfilled⟩

/-- With fallback it finds an empty cache. -/
def emptyCache : Service :=
  ⟨⟨1, 0, 0, 1, 0, 0, 0⟩, ⟨[], 0⟩,
    [.returned (.fellBack (.error ⟨.unavailable, "Fallback fails, no trending video cache is available"⟩))], []⟩

/-- **An error that is not counted.** With fallback and nothing in the cache yet, the same
call returns an error and `GetStats` reports one request and no error. -/
theorem stats_emptyCache :
    ∃ s s' response, run (Service.step (mocked false) fun _ _ => 0) .fresh oneFailure = some s ∧ s.Idle ∧
      run (Service.step (mocked false) fun _ _ => 0) s (.getStats :: List.replicate 9 (.load 0)) = some s' ∧
      s'.stats[0]?.bind getStatsResponse = some response ∧ response.totalRequests = 1 ∧
      s.results.countP isError = 1 ∧ response.totalErrors = 0 :=
  ⟨emptyCache, _, _, rfl, by simp [Service.Idle, emptyCache], rfl, rfl, rfl, rfl, rfl⟩

/-! ### The number the latency is divided by -/

/-- No call counts an error in this step. -/
def Service.NoErr (s : Service) (l : Label) : Prop := ∀ i err, l = .next i → s.calls[i]? ≠ some (.erring err)

theorem numTopVideoErrs_step {l : Label} (h : s.step cfg rank l = some s') (hl : s.NoErr l) :
    s'.counters.numTopVideoErrs = s.counters.numTopVideoErrs := by
  rcases Service.step_cases h with ⟨-, hc⟩ | ⟨req, -, hc⟩ | ⟨i, phase, phase', hp, -, hmove⟩
  · rw [hc]
  · rw [hc]
  · rcases hmove with ⟨req, outcome, latency, -, -, hc⟩ | ⟨rfl, hn⟩
    · rw [hc]
    · cases phase with
      | erring err => exact absurd hp (hl i err rfl)
      | _ =>
        simp only [Phase.next] at hn
        grind

/-- What a call of `GetStats` has loaded stays; it only loads more. -/
theorem stats_step {l : Label} (h : s.step cfg rank l = some s') {j : ℕ} {loaded : List UInt64}
    (hj : s.stats[j]? = some loaded) : ∃ more, s'.stats[j]? = some (loaded ++ more) := by
  cases l with
  | getTopVideos req =>
    cases h
    exact ⟨[], by simpa using hj⟩
  | work i b sorter fuel latency =>
    obtain ⟨_, _, -, -, rfl⟩ := Service.step_work_iff.mp h
    exact ⟨[], by simpa using hj⟩
  | next i =>
    obtain ⟨_, _, _, -, -, rfl⟩ := Service.step_next_iff.mp h
    exact ⟨[], by simpa using hj⟩
  | refresh r fuel =>
    obtain ⟨_, -, rfl⟩ := Service.step_refresh_iff.mp h
    exact ⟨[], by simpa using hj⟩
  | getStats =>
    cases h
    refine ⟨[], ?_⟩
    rw [List.getElem?_append_left (List.getElem?_eq_some_iff.mp hj).1, hj, List.append_nil]
  | load k =>
    obtain ⟨other, load, hk, -, rfl⟩ := Service.step_load_iff.mp h
    by_cases hkj : k = j
    · subst hkj
      obtain rfl : loaded = other := Option.some.inj (hj.symm.trans hk)
      exact ⟨[load s.counters], List.getElem?_set_self (List.getElem?_eq_some_iff.mp hk).1⟩
    · refine ⟨[], ?_⟩
      rw [List.getElem?_set_ne hkj, hj, List.append_nil]

theorem stats_run {ls : List Label} (h : run (Service.step cfg rank) s ls = some s') {j : ℕ} {loaded : List UInt64}
    (hj : s.stats[j]? = some loaded) : ∃ more, s'.stats[j]? = some (loaded ++ more) := by
  refine run_inductive (I := fun s : Service => ∃ more, s.stats[j]? = some (loaded ++ more)) ?_
    ⟨[], by rw [hj, List.append_nil]⟩ h
  rintro u l u' ⟨more, hu⟩ hstep
  obtain ⟨more', hu'⟩ := stats_step hstep hu
  exact ⟨more ++ more', by rw [hu', List.append_assoc]⟩

/-- A call that has counted an error and not yet itself is about to leave. -/
theorem Phase.isRequest_of_isErr {phase : Phase} (h : ∀ err, phase ≠ .leaving (.failed err))
    (herr : phase.isErr = true) : phase.isRequest = true := by
  cases phase with
  | leaving exit | closing exit | returned exit =>
    rcases exit with videos | result | err <;> simp_all [Phase.isErr, Phase.isRequest]
  | _ => cases herr

/-- **The difference does not wrap if no call is between its two counts.** `GetStats` loads
the number of requests in the state `s₁` and the number of errors in `s₂`. If in `s₁` no call
has counted an error and not yet itself, and no call counts an error on the way to `s₂`, the
first number it loaded is at least the second. -/
theorem success_count_exact {s₁ u s₂ s₃ : Service} {ls₁ ls₂ : List Label} {j : ℕ}
    {latency latency' requests errs : UInt64} (h₁ : run (Service.step cfg rank) .fresh ls₁ = some s₁)
    (hbound : s₁.calls.length < 2 ^ 64)
    (hj : s₁.stats[j]? = some [latency]) (hu : s₁.step cfg rank (.load j) = some u)
    (h₂ : run (Service.step cfg rank) u ls₂ = some s₂) (h₃ : s₂.step cfg rank (.load j) = some s₃)
    (hloaded : s₃.stats[j]? = some [latency', requests, errs])
    (hbetween : ∀ err, .leaving (.failed err) ∉ s₁.calls)
    (hquiet : Along (Service.step cfg rank) Service.NoErr u ls₂) : errs ≤ requests := by
  -- the second load is of the requests in `s₁`
  obtain ⟨loaded, load, hl, hload, rfl⟩ := Service.step_load_iff.mp hu
  obtain rfl : loaded = [latency] := Option.some.inj (hl.symm.trans hj)
  obtain rfl : load = Counters.numTopVideoRequests := by simpa [statsLoads] using hload.symm
  obtain ⟨more, hmore⟩ := stats_run h₂ (List.getElem?_set_self (List.getElem?_eq_some_iff.mp hj).1)
  -- the third is of the errors in `s₂`
  obtain ⟨loaded, load, hl, hload, rfl⟩ := Service.step_load_iff.mp h₃
  obtain rfl := Option.some.inj (hl.symm.trans hmore)
  rw [List.getElem?_set_self (List.getElem?_eq_some_iff.mp hmore).1] at hloaded
  obtain rfl : more = [] := by
    have := congrArg List.length (Option.some.inj hloaded)
    simpa using this
  obtain rfl : load = Counters.numTopVideoErrs := by simpa [statsLoads] using hload.symm
  have hsame : s₂.counters.numTopVideoErrs = s₁.counters.numTopVideoErrs :=
    run_invariant (P := Service.NoErr)
      (I := fun s : Service => s.counters.numTopVideoErrs = s₁.counters.numTopVideoErrs)
      (fun _ _ _ hs hl hstep => (numTopVideoErrs_step hstep hl).trans hs) hquiet rfl h₂
  have hle : s₁.calls.countP Phase.isErr ≤ s₁.calls.countP Phase.isRequest :=
    List.countP_mono_left fun phase hphase => Phase.isRequest_of_isErr fun err heq => hbetween err (heq ▸ hphase)
  have herrs : s₁.counters.numTopVideoErrs.toNat = _ := (Tally.errs cfg).toNat_of_run h₁ hbound
  have hrequests : s₁.counters.numTopVideoRequests.toNat = _ := (Tally.requests cfg).toNat_of_run h₁ hbound
  simp only [List.append_nil, List.cons_append, List.nil_append, Option.some.injEq, List.cons.injEq, and_true]
    at hloaded
  obtain ⟨-, rfl, rfl⟩ := hloaded
  rw [hsame, UInt64.le_iff_toNat_le, herrs, hrequests]
  exact hle

/-- `GetStats` has made `loaded` after the call of `oneError` has returned. -/
def oneErrorLoaded (loaded : List UInt64) : Service := { oneError with stats := [loaded] }

theorem success_count_exact_oneError :
    run (Service.step (mocked true) fun _ _ => 0) .fresh (oneFailure ++ [.getStats, .load 0]) =
        some (oneErrorLoaded [0]) ∧
      (oneErrorLoaded [0, 1]).step (mocked true) (fun _ _ => 0) (.load 0) = some (oneErrorLoaded [0, 1, 1]) ∧
      (1 : UInt64) ≤ 1 :=
  have h₁ : run (Service.step (mocked true) fun _ _ => 0) .fresh (oneFailure ++ [.getStats, .load 0]) =
      some (oneErrorLoaded [0]) := rfl
  have hu : (oneErrorLoaded [0]).step (mocked true) (fun _ _ => 0) (.load 0) = some (oneErrorLoaded [0, 1]) := rfl
  have h₂ : run (Service.step (mocked true) fun _ _ => 0) (oneErrorLoaded [0, 1]) [] =
      some (oneErrorLoaded [0, 1]) := rfl
  have h₃ : (oneErrorLoaded [0, 1]).step (mocked true) (fun _ _ => 0) (.load 0) =
      some (oneErrorLoaded [0, 1, 1]) := rfl
  ⟨h₁, h₃, success_count_exact h₁ (by decide) rfl hu h₂ h₃ rfl (by simp [oneErrorLoaded, oneError]) trivial⟩

/-- **The difference wraps.** A call has counted its error and not yet itself when `GetStats`
loads: no request, one error, and a latency divided by `2 ^ 64 - 1`. -/
theorem success_count_wraps :
    ∃ s response, run (Service.step (mocked true) fun _ _ => 0) .fresh
        (oneFailure.take 5 ++ .getStats :: List.replicate 9 (.load 0)) = some s ∧
      s.stats[0]? = some [0, 0, 1, 0, 1, 1, 1, 0, 0] ∧
      s.stats[0]?.bind getStatsResponse = some response ∧ response.averageLatencyMs.1 = 0 ∧
      response.averageLatencyMs.2.toNat = 2 ^ 64 - 1 :=
  ⟨_, _, rfl, rfl, rfl, rfl, rfl⟩

end Cs426.VideoRec
