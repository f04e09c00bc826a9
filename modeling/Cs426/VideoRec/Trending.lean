import Cs426.VideoRec.Service

/-!
# Refreshing the cache of trending videos

What one turn of `fetchTrendingVideos` leaves in the cache, and what that means for
`fallBack` over whole runs of the service.

A turn in which `GetTrendingVideos` fails leaves the cache alone, and a turn in which no call
fails fills it with the infos of all trending videos, whatever the size of a batch. A turn in
which a `GetVideo` call fails is neither: the inner loop is left by a `break`, the code after
it runs as always, and the cache is overwritten by what the earlier batches brought, with the
new expiry time (`cache_lost`). So a turn does what it should exactly if all the `GetVideo`
calls it makes succeed, and where that is so a cache that is filled stays filled
(`refresh_keeps_cache`).
-/

namespace Cs426.VideoRec

open Cs426.Batches Cs426.Machine

namespace Refresh

/-- The `GetVideo` calls that the turn makes, each with its number and its batch. -/
def asked (cfg : Config) (r : Refresh) : List (ℕ × List UInt64) :=
  match r.getTrendingVideos with
  | .error _ => []
  | .ok response => sent cfg.options.maxBatchSize r.getVideo response.videos (response.videos.length + 1) 0 0

/-- Every `GetVideo` call of the turn succeeds. -/
def BatchesSucceed (cfg : Config) (r : Refresh) : Prop :=
  ∀ batch ∈ r.asked cfg, (r.getVideo batch.1 batch.2).isOk = true

/-- Some call of the turn to `VideoService` fails. -/
def Fails (cfg : Config) (r : Refresh) : Prop := r.getTrendingVideos.isOk = false ∨ ¬ r.BatchesSucceed cfg

/-- The turn gets past dialling and closing its connection, and a `GetVideo` call of it that
succeeds answers with the infos of the ids it is asked for. -/
structure Sound (cfg : Config) (info : UInt64 → VideoInfo) (r : Refresh) : Prop where
  dialled : cfg.mockVideoFlag = false → r.dial.isOk = true
  closes : cfg.mockVideoFlag = true → r.getTrendingVideos.isOk = true
  answers : ∀ batch ∈ r.asked cfg, ∀ found, r.getVideo batch.1 batch.2 = .ok found → found = batch.2.map info

/-- What a turn should do: it ends, and leaves the cache as it is if some call has failed, and
otherwise the infos of all trending videos. -/
def Keeps (cfg : Config) (info : UInt64 → VideoInfo) (r : Refresh) (cache : TrendingVideos) : Prop :=
  ∃ enough, ∀ fuel, enough ≤ fuel → ∃ cache', fetchTrendingVideos cfg r fuel cache = some cache' ∧
    (r.Fails cfg → cache' = cache) ∧
    (¬ r.Fails cfg → ∃ response, r.getTrendingVideos = .ok response ∧
      cache' = ⟨response.videos.map info, int64 response.expirationTimeS⟩)

end Refresh

variable {cfg : Config} {rank : Coefficients → Coefficients → UInt64} {info : UInt64 → VideoInfo}
  {r : Refresh} {cache : TrendingVideos}

namespace Refresh.Sound

/-- A turn past the expiry time is what its call of `GetTrendingVideos` makes of it. -/
theorem fetchTrendingVideos_eq (h : r.Sound cfg info) (hnow : cache.expireTime < r.now) (fuel : ℕ) :
    fetchTrendingVideos cfg r fuel cache =
      match r.getTrendingVideos with
      | .error _ => some cache
      | .ok response =>
        (batchLoop cfg.options.maxBatchSize r.getVideo response.videos fuel 0 0 []).map fun fetched =>
          ⟨fetched.1, int64 response.expirationTimeS⟩ := by
  have hdial : ¬ (cfg.mockVideoFlag = false ∧ r.dial.isOk = false) := by
    rintro ⟨hmock, hfail⟩
    rw [h.dialled hmock] at hfail
    cases hfail
  unfold fetchTrendingVideos
  rw [if_neg (by omega), if_neg hdial]
  cases hans : r.getTrendingVideos with
  | ok response => rfl
  | error err =>
    have hmock : ¬ cfg.mockVideoFlag = true := by
      intro hmock
      have := h.closes hmock
      rw [hans] at this
      cases this
    exact if_neg hmock

/-- A turn that gets the trending ids comes to an end, with what its calls brought. -/
theorem exists_fetched (h : r.Sound cfg info) (hsize : 1 ≤ cfg.options.maxBatchSize) (hnow : cache.expireTime < r.now)
    {response : GetTrendingVideosResponse} (hans : r.getTrendingVideos = .ok response) :
    ∃ found, (r.BatchesSucceed cfg → found = response.videos.map info) ∧
      ∀ fuel, response.videos.length < fuel →
        fetchTrendingVideos cfg r fuel cache = some ⟨found, int64 response.expirationTimeS⟩ := by
  have hasked : r.asked cfg =
      sent cfg.options.maxBatchSize r.getVideo response.videos (response.videos.length + 1) 0 0 := by
    rw [asked, hans]
  have hsome : (batchLoop cfg.options.maxBatchSize r.getVideo response.videos (response.videos.length + 1) 0 0
      []).isSome = true := batchLoop_isSome hsize 0 [] (by simp)
  obtain ⟨⟨found, err⟩, hloop⟩ := Option.isSome_iff_exists.mp hsome
  refine ⟨found, fun hbatches => ?_, fun fuel hfuel => ?_⟩
  · obtain rfl : err = none := (batchLoop_err_eq_none_iff hloop).mpr (hasked ▸ hbatches)
    have hall := batchLoop_eq_map (f := info) (hasked ▸ h.answers) le_rfl hloop
    simpa using hall
  · rw [h.fetchTrendingVideos_eq hnow, hans]
    simp only [batchLoop_mono hfuel hloop, Option.map_some]

/-- **A turn whose batches succeed does what it should.** -/
theorem keeps (h : r.Sound cfg info) (hsize : 1 ≤ cfg.options.maxBatchSize) (hnow : cache.expireTime < r.now)
    (hbatches : r.BatchesSucceed cfg) : r.Keeps cfg info cache := by
  cases hans : r.getTrendingVideos with
  | error err =>
    have hfails : r.Fails cfg := .inl (by rw [hans]; rfl)
    refine ⟨0, fun fuel _ => ⟨cache, ?_, fun _ => rfl, fun hnot => absurd hfails hnot⟩⟩
    rw [h.fetchTrendingVideos_eq hnow, hans]
  | ok response =>
    have hnot : ¬ r.Fails cfg := by
      rintro (hfail | hfail)
      · rw [hans] at hfail
        cases hfail
      · exact hfail hbatches
    obtain ⟨found, hfound, hfetch⟩ := h.exists_fetched hsize hnow hans
    refine ⟨response.videos.length + 1, fun fuel hfuel => ⟨_, hfetch fuel hfuel, fun hfail => absurd hfail hnot,
      fun _ => ⟨response, hans, ?_⟩⟩⟩
    rw [hfound hbatches]

/-- **A turn with a batch that fails does not**: it writes the new expiry time. -/
theorem not_keeps (h : r.Sound cfg info) (hsize : 1 ≤ cfg.options.maxBatchSize) (hnow : cache.expireTime < r.now)
    (hexpiry : ∀ response, r.getTrendingVideos = .ok response → int64 response.expirationTimeS ≠ cache.expireTime)
    (hbatches : ¬ r.BatchesSucceed cfg) : ¬ r.Keeps cfg info cache := by
  rintro ⟨enough, hkeeps⟩
  cases hans : r.getTrendingVideos with
  | error err => exact hbatches (by simp [BatchesSucceed, asked, hans])
  | ok response =>
    obtain ⟨found, -, hfetch⟩ := h.exists_fetched hsize hnow hans
    obtain ⟨cache', hturn, hsame, -⟩ := hkeeps (enough + (response.videos.length + 1)) (Nat.le_add_right ..)
    rw [hfetch _ (by omega), hsame (.inr hbatches), Option.some.injEq] at hturn
    exact hexpiry response hans (by rw [← hturn])

/-- A filled cache stays filled, if the batches succeed and the trending list is not empty. -/
theorem videos_ne_nil (h : r.Sound cfg info) (hsize : 1 ≤ cfg.options.maxBatchSize) (hnow : cache.expireTime < r.now)
    (hbatches : r.BatchesSucceed cfg)
    (hlist : ∀ response, r.getTrendingVideos = .ok response → response.videos ≠ []) {fuel : ℕ}
    {cache' : TrendingVideos} (hturn : fetchTrendingVideos cfg r fuel cache = some cache')
    (hcache : cache.videos ≠ []) : cache'.videos ≠ [] := by
  rw [h.fetchTrendingVideos_eq hnow] at hturn
  cases hans : r.getTrendingVideos with
  | error err =>
    rw [hans, Option.some.injEq] at hturn
    exact hturn ▸ hcache
  | ok response =>
    rw [hans] at hturn
    obtain ⟨fetched, hloop, rfl⟩ := Option.map_eq_some_iff.mp hturn
    -- with one turn of the loop for each id it comes to the same
    obtain ⟨found, hfound, hfetch⟩ := h.exists_fetched hsize hnow hans
    have hsame := hfetch _ (Nat.lt_succ_self _)
    rw [h.fetchTrendingVideos_eq hnow, hans] at hsame
    simp only [batchLoop_of_some hsize hloop, Option.map_some, Option.some.injEq, TrendingVideos.mk.injEq,
      and_true] at hsame
    simpa [hsame, hfound hbatches] using hlist response hans

end Refresh.Sound

/-- If a turn refreshes the cache in this step, its batches succeed, and it finds some video
trending. -/
def Service.Refreshes (cfg : Config) (s : Service) (l : Label) : Prop :=
  ∀ r fuel, l = .refresh r fuel → s.fallBackVideos.expireTime < r.now →
    (∃ info, r.Sound cfg info) ∧ r.BatchesSucceed cfg ∧
      ∀ response, r.getTrendingVideos = .ok response → response.videos ≠ []

/-- Only a refresh touches the cache. -/
theorem Service.fallBackVideos_step {s s' : Service} {l : Label} (h : s.step cfg rank l = some s') :
    s'.fallBackVideos = s.fallBackVideos ∨ ∃ r fuel, l = .refresh r fuel ∧
      fetchTrendingVideos cfg r fuel s.fallBackVideos = some s'.fallBackVideos := by
  cases l with
  | refresh r fuel =>
    obtain ⟨cache, hcache, rfl⟩ := step_refresh_iff.mp h
    exact Or.inr ⟨r, fuel, rfl, hcache⟩
  | getTopVideos | getStats =>
    cases h
    exact Or.inl rfl
  | work i b sorter fuel latency =>
    obtain ⟨_, _, -, -, rfl⟩ := step_work_iff.mp h
    exact Or.inl rfl
  | next i =>
    obtain ⟨_, _, _, -, -, rfl⟩ := step_next_iff.mp h
    exact Or.inl rfl
  | load j =>
    obtain ⟨_, _, -, -, rfl⟩ := step_load_iff.mp h
    exact Or.inl rfl

/-- **A refresh keeps the cache or fills it if the batches it asks for succeed**, and, unless it
is told the old expiry time again, only then. So in every run in which the batches of each
refresh succeed, each with some video trending, a cache that is filled serves every `fallBack`
from then on. -/
theorem refresh_keeps_cache (rank : Coefficients → Coefficients → UInt64) (hsize : 1 ≤ cfg.options.maxBatchSize) :
    (∀ info r cache, Refresh.Sound cfg info r → cache.expireTime < r.now →
      (r.BatchesSucceed cfg → r.Keeps cfg info cache) ∧
      ((∀ response, r.getTrendingVideos = .ok response → int64 response.expirationTimeS ≠ cache.expireTime) →
        r.Keeps cfg info cache → r.BatchesSucceed cfg)) ∧
    ∀ (s s' : Service) (ls : List Label), s.fallBackVideos.videos ≠ [] →
      Along (Service.step cfg rank) (Service.Refreshes cfg) s ls →
      run (Service.step cfg rank) s ls = some s' → ∀ req err, fallBack s'.fallBackVideos req ≠ .error err := by
  refine ⟨fun info r cache h hnow => ⟨h.keeps hsize hnow, fun hexpiry => ?_⟩, fun s s' ls hs hls hrun req err hfail => ?_⟩
  · exact not_imp_not.mp (h.not_keeps hsize hnow hexpiry)
  have hfilled : s'.fallBackVideos.videos ≠ [] := by
    refine run_invariant (I := fun s : Service => s.fallBackVideos.videos ≠ [])
      (fun u l u' hu hl hstep => ?_) hls hs hrun
    rcases Service.fallBackVideos_step hstep with hsame | ⟨r, fuel, rfl, hturn⟩
    · rwa [hsame]
    · by_cases hnow : r.now ≤ u.fallBackVideos.expireTime
      · rw [fetchTrendingVideos, if_pos hnow, Option.some.injEq] at hturn
        exact hturn ▸ hu
      · obtain ⟨⟨info, hsound⟩, hbatches, hlist⟩ := hl r fuel rfl (not_le.mp hnow)
        exact hsound.videos_ne_nil hsize (not_le.mp hnow) hbatches hlist hturn hu
  exact hfilled (fallBack_error_iff.mp ⟨err, hfail⟩)

/-! #### A cache with one video, and two that are trending next -/

/-- The info of a video. -/
def infoOf (id : UInt64) : VideoInfo := ⟨id, "title", "author", "url", ∅⟩

/-- A turn at `now` that finds `ids` trending until `expiry`; the `k`-th `GetVideo` call
succeeds where `up k`. -/
def trending (now : ℤ) (ids : List UInt64) (expiry : UInt64) (up : ℕ → Bool) : Refresh where
  now := now
  dial := .ok ()
  getTrendingVideos := .ok ⟨ids, expiry⟩
  getVideo k ids := if up k then .ok (ids.map infoOf) else .error ⟨.unavailable, "down"⟩

/-- A server that asks for one video at a time. -/
def oneByOne : Config := makeVideoRecServiceServer ⟨1, false, 4⟩

/-- A cache with one video, which has expired at `6`. -/
def oneCached : TrendingVideos := ⟨[infoOf 1], int64 5⟩

theorem trending_sound (now : ℤ) (ids : List UInt64) (expiry : UInt64) (up : ℕ → Bool) :
    (trending now ids expiry up).Sound oneByOne infoOf := by
  refine ⟨fun _ => rfl, fun _ => rfl, fun batch _ found hfound => ?_⟩
  simp only [trending] at hfound
  split_ifs at hfound
  exact (Except.ok.inj hfound).symm

/-- A turn that gets both batches fills the cache; one that gets only the first does not do what it
should; and a turn that finds `VideoService` down leaves the cache alone. -/
theorem refresh_keeps_cache_twoTrending :
    (trending 6 [2, 3] 100 fun _ => true).Keeps oneByOne infoOf oneCached ∧
      ¬ (trending 6 [2, 3] 100 (· == 0)).Keeps oneByOne infoOf oneCached ∧
      { trending 6 [2, 3] 100 fun _ => false with getTrendingVideos := .error ⟨.unavailable, "down"⟩ }.Keeps oneByOne
        infoOf oneCached := by
  have hsize : 1 ≤ oneByOne.options.maxBatchSize := by decide
  have h := (refresh_keeps_cache (fun _ _ => 0) hsize).1 infoOf
  refine ⟨?_, fun hkeeps => ?_, ?_⟩
  · exact (h _ oneCached (trending_sound 6 [2, 3] 100 fun _ => true) (by decide)).1 fun _ _ => rfl
  · have hall := (h _ oneCached (trending_sound 6 [2, 3] 100 (· == 0)) (by decide)).2
      (fun response hans => by cases hans; decide) hkeeps
    have hsecond : ((trending 6 [2, 3] 100 (· == 0)).getVideo 1 [3]).isOk = true :=
      hall (1, [3]) (List.mem_cons_of_mem _ (List.mem_cons_self ..))
    cases hsecond
  · refine (h _ oneCached ⟨fun _ => rfl, fun hmock => (by cases hmock), ?_⟩ (by decide)).1 ?_ <;>
      exact fun _ hbatch => absurd hbatch (List.not_mem_nil)

/-- One turn of `oneByOne` past the expiry time is its loop over the batches. -/
theorem fetchTrendingVideos_trending {now : ℤ} {ids : List UInt64} {expiry : UInt64} {up : ℕ → Bool} {fuel : ℕ}
    {cache : TrendingVideos} (hnow : cache.expireTime < now) :
    fetchTrendingVideos oneByOne (trending now ids expiry up) fuel cache =
      (batchLoop 1 (trending now ids expiry up).getVideo ids fuel 0 0 []).map fun fetched =>
        ⟨fetched.1, int64 expiry⟩ := by
  have hpast : ¬ (trending now ids expiry up).now ≤ cache.expireTime := not_le.mpr hnow
  rw [fetchTrendingVideos, if_neg hpast]
  rfl

/-- **The cache is lost.** A turn whose second batch fails leaves half of the trending videos,
a turn whose first batch fails leaves none, and both set the new expiry time. So a run that
has filled the cache can come to a state in which `fallBack` fails. -/
theorem cache_lost :
    fetchTrendingVideos oneByOne (trending 6 [2, 3] 100 (· == 0)) 3 oneCached = some ⟨[infoOf 2], int64 100⟩ ∧
    fetchTrendingVideos oneByOne (trending 6 [2, 3] 100 fun _ => false) 3 oneCached = some ⟨[], int64 100⟩ ∧
    ∃ s s', run (Service.step oneByOne fun _ _ => 0) .fresh [.refresh (trending 1 [1] 5 fun _ => true) 2] = some s ∧
      s.fallBackVideos = oneCached ∧
      run (Service.step oneByOne fun _ _ => 0) s [.refresh (trending 6 [2, 3] 100 fun _ => false) 3] = some s' ∧
      fallBack s'.fallBackVideos ⟨1, 5⟩ =
        .error ⟨.unavailable, "Fallback fails, no trending video cache is available"⟩ := by
  have h1 : fetchTrendingVideos oneByOne (trending 1 [1] 5 fun _ => true) 2 ⟨[], 0⟩ = some oneCached :=
    fetchTrendingVideos_trending (by decide)
  have h2 : fetchTrendingVideos oneByOne (trending 6 [2, 3] 100 fun _ => false) 3 oneCached =
      some ⟨[], int64 100⟩ := fetchTrendingVideos_trending (by decide)
  refine ⟨fetchTrendingVideos_trending (by decide), h2, { Service.fresh with fallBackVideos := oneCached },
    { Service.fresh with fallBackVideos := ⟨[], int64 100⟩ }, ?_, rfl, ?_, rfl⟩
  · simp [run, Service.step, Service.fresh, h1]
  · simp [run, Service.step, h2]

end Cs426.VideoRec
