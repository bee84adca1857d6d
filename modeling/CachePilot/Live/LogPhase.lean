import CachePilot.Purge.TagMatch

/-!
# The log phase

A response is indexed in two steps: `index_header_filter` of
`ngx_cache_pilot_index_runtime.c` puts its tags aside while it is sent, and
`index_log_handler` writes the entry of its file when the request is over. Neither
asks whether the file was replaced; what nginx made of the request is an argument.

Results:
* `log_phase_describes`: a run of requests after which every file has the entry of
  the response that it holds;
* `log_phase_overwrites`: a response that is not stored takes the place of the
  entry of the file that it left alone.
-/

namespace CachePilot
open NgxString KeepFirst

/-! ## The handlers -/

/-- `r->upstream->cache_status`. -/
inductive CacheStatus
  | unset
  | miss
  | bypass
  | expired
  | stale
  | updating
  | revalidated
  | hit
  | scarce
deriving DecidableEq, Repr

/-- `r->cache`: the name of the cache file, which is empty until one is looked for,
and the parts of the key. -/
structure RequestCache where
  name : Bytes
  keys : List Bytes

structure UpstreamState where
  cacheable : Bool
  cacheStatus : CacheStatus
deriving DecidableEq, Repr

/-- The allocations of the two handlers: the tags of a response and the context in
the header filter; its tags again, the key text, and those of the index in the log
handler. -/
structure LogPool where
  tags : TagPool
  ctx : Bool
  lateTags : TagPool
  key : Bool
  index : AllocSite → Bool

/-- A request as the two handlers find it. `zone` is what `lookup_zone` gives for its
cache, `writer` whether the worker has a handle to write with, and `headers` are the
headers of the response. -/
structure LiveRequest where
  conf : LocConf
  zone : Option Bytes
  writer : Bool
  cache : Option RequestCache
  upstream : Option UpstreamState
  headers : List TableElt
  pool : LogPool
  now : Int

/-- `index_tags` and `index_zone_name` of the request context. -/
structure Captured where
  tags : List Bytes
  zoneName : Bytes
deriving DecidableEq, Repr

/-- The response headers that the index of a location reads. -/
def LiveRequest.wanted (r : LiveRequest) : List Bytes := r.conf.cacheTagHeaders.getD []

/-- `ngx_http_cache_pilot_index_header_filter`. -/
def headerFilter (r : LiveRequest) : Except NgxRc (Option Captured) :=
  match r.cache, r.upstream with
  | some _, some upstream =>
    if !upstream.cacheable then .ok none
    else if !locationEnabled r.conf then .ok none
    else
      match r.zone with
      | none => .ok none
      | some zoneName =>
        if !r.writer then .ok none
        else
          match responseHeaders r.pool.tags r.headers r.wanted with
          | .error _ => .error .error
          | .ok tags => if r.pool.ctx then .ok (some ⟨tags, zoneName⟩) else .error .error
  | _, _ => .ok none

/-- What `index_log_handler` writes: what the header filter has put aside, or else
what the response has by now. -/
def lateCapture (r : LiveRequest) : Option Captured → Option Captured
  | some captured => some captured
  | none =>
    if r.upstream.map UpstreamState.cacheStatus = some .hit then none
    else if !locationEnabled r.conf then none
    else
      match r.zone with
      | none => none
      | some zoneName =>
        match responseHeaders r.pool.lateTags r.headers r.wanted with
        | .error _ => none
        | .ok tags => some ⟨tags, zoneName⟩

/-- `ngx_http_cache_pilot_index_log_handler`. -/
def logHandler (N : Nginx) (r : LiveRequest) (captured : Option Captured) (shm : Shm) : Shm :=
  match r.cache with
  | none => shm
  | some cache =>
    if cache.name.length = 0 then shm
    else
      match lateCapture r captured with
      | none => shm
      | some captured =>
        if !r.writer then shm
        else if !r.pool.key then shm
        else
          (upsertFileMeta N r.pool.index r.now captured.zoneName cache.name (cacheKey cache.keys)
            r.now 0 captured.tags shm).2

/-- Both handlers, as they run on one request; a request that the header filter
fails has put nothing aside. -/
def logPhase (N : Nginx) (r : LiveRequest) (shm : Shm) : Shm :=
  match headerFilter r with
  | .ok captured => logHandler N r captured shm
  | .error _ => logHandler N r none shm

/-! ## Runs -/

/-- What nginx makes of a request: it stores the response, serves a stored one from
its file (fresh, stale, or revalidated), or sends one that is not stored. -/
inductive Outcome
  | stored (response : StoredResponse)
  | served
  | unstored

/-- The responses in the files of a cache, by path, and the index. -/
structure Live where
  stored : Bytes → Option StoredResponse
  shm : Shm

/-- One request and its log phase. A response that is not stored leaves the file. -/
def Live.request (N : Nginx) (r : LiveRequest) (outcome : Outcome) (s : Live) : Live where
  stored :=
    match outcome, r.cache with
    | .stored response, some cache => Function.update s.stored cache.name (some response)
    | _, _ => s.stored
  shm := logPhase N r s.shm

/-- The requests to the locations that are indexed in the zone. -/
structure LiveRequest.Indexed (r : LiveRequest) (zoneName : Bytes) : Prop where
  enabled : locationEnabled r.conf = true
  zone : r.zone = some zoneName

/-- Whether a request can come out like this. A response is stored only if it was
cacheable when its headers were sent and the header filter let it through; a file is
served to requests for its key, with the headers that it holds. -/
inductive Happens (s : Live) (r : LiveRequest) : Outcome → Prop
  | stored {cache : RequestCache} {upstream : UpstreamState} {response : StoredResponse}
      {captured : Option Captured} : r.cache = some cache → cache.name ≠ [] →
      r.upstream = some upstream → upstream.cacheable = true → headerFilter r = .ok captured →
      response.keys = cache.keys → response.headers = r.headers → Happens s r (.stored response)
  | served {cache : RequestCache} {response : StoredResponse} : r.cache = some cache →
      s.stored cache.name = some response → response.key = cacheKey cache.keys →
      response.headers = r.headers → Happens s r .served
  | unstored : Happens s r .unstored

/-- No allocation of the log phase fails. -/
structure LiveRequest.Allocates (r : LiveRequest) : Prop where
  tags : r.pool.tags = ⟨true, fun _ => true⟩
  ctx : r.pool.ctx = true
  lateTags : r.pool.lateTags = ⟨true, fun _ => true⟩
  key : r.pool.key = true
  index : r.pool.index = fun _ => true

/-- The tags that the header list of a zone reads from a response. -/
def tagsOf (wanted : List Bytes) (headers : List TableElt) : List Bytes :=
  keepTags [] (headerTokens headers wanted)

/-- A request whose log phase cannot do harm. Where there is a file behind it, nothing
fails and its location reads the tags that the list of the zone does; and a response
that was not stored has the key and the tags of the one that the file holds. -/
structure Harmless (wanted : List Bytes) (s : Live) (r : LiveRequest) (outcome : Outcome) : Prop where
  writer : ∀ response, outcome = .stored response → r.writer = true
  file : r.writer = true → ∀ cache, r.cache = some cache →
    outcome ≠ .unstored ∨ (s.stored cache.name).isSome = true →
    r.Allocates ∧ tagsOf r.wanted r.headers = tagsOf wanted r.headers
  unstored : r.writer = true → outcome = .unstored → ∀ cache response, r.cache = some cache →
    s.stored cache.name = some response →
    response.key = cacheKey cache.keys ∧ tagsOf wanted response.headers = tagsOf wanted r.headers

/-- Every file has the entry of the response that it holds. -/
def Live.Described (zoneName : Bytes) (wanted : List Bytes) (s : Live) : Prop :=
  ∀ p response, s.stored p = some response →
    toMap s.shm zoneName p = some (response.key, tagsOf wanted response.headers)

/-- The states that the requests of a zone reach, when each of them meets a condition. -/
inductive Reached (N : Nginx) (zoneName : Bytes) (meets : Live → LiveRequest → Outcome → Prop)
    (s0 : Live) : Live → Prop
  | start : Reached N zoneName meets s0 s0
  | request {s : Live} {r : LiveRequest} {outcome : Outcome} : Reached N zoneName meets s0 s →
      r.Indexed zoneName → Happens s r outcome → meets s r outcome →
      Reached N zoneName meets s0 (s.request N r outcome)

/-! ## What the log phase writes -/

variable {N : Nginx} {r : LiveRequest} {s : Live} {shm : Shm} {zoneName path key : Bytes}
  {wanted tags : List Bytes} {outcome : Outcome}

/-- What the header filter puts aside are the tags of the response. -/
theorem headerFilter_captured {captured : Captured} (h : headerFilter r = .ok (some captured)) :
    r.zone = some captured.zoneName ∧ captured.tags = tagsOf r.wanted r.headers := by
  unfold headerFilter at h
  split at h
  · split at h
    · exact nomatch h
    · split at h
      · exact nomatch h
      · split at h
        · exact nomatch h
        · next hzone =>
          split at h
          · exact nomatch h
          · split at h
            · exact nomatch h
            · next htags =>
              split at h
              · obtain rfl := Option.some.inj (Except.ok.inj h)
                exact ⟨hzone, responseHeaders_tags htags⟩
              · exact nomatch h
  · exact nomatch h

theorem lateCapture_captured {captured : Captured} (h : lateCapture r none = some captured) :
    r.zone = some captured.zoneName ∧ captured.tags = tagsOf r.wanted r.headers := by
  unfold lateCapture at h
  simp only at h
  split at h
  · exact nomatch h
  · split at h
    · exact nomatch h
    · split at h
      · exact nomatch h
      · next hzone =>
        split at h
        · exact nomatch h
        · next htags =>
          obtain rfl := Option.some.inj h
          exact ⟨hzone, responseHeaders_tags htags⟩

/-- The log phase leaves the index alone, or writes the tags of the response under
the name and the key that the request has by then. -/
theorem logPhase_cases (N : Nginx) (r : LiveRequest) (shm : Shm) :
    logPhase N r shm = shm ∨
      ∃ cache zoneName, r.cache = some cache ∧ r.zone = some zoneName ∧ r.writer = true ∧
        logPhase N r shm = (upsertFileMeta N r.pool.index r.now zoneName cache.name
          (cacheKey cache.keys) r.now 0 (tagsOf r.wanted r.headers) shm).2 := by
  have hwrites : ∀ captured, (∀ c, captured = some c →
        r.zone = some c.zoneName ∧ c.tags = tagsOf r.wanted r.headers) →
      logHandler N r captured shm = shm ∨
      ∃ cache zoneName, r.cache = some cache ∧ r.zone = some zoneName ∧ r.writer = true ∧
        logHandler N r captured shm = (upsertFileMeta N r.pool.index r.now zoneName cache.name
          (cacheKey cache.keys) r.now 0 (tagsOf r.wanted r.headers) shm).2 := by
    intro captured hcaptured
    have hlate : ∀ c, lateCapture r captured = some c →
        r.zone = some c.zoneName ∧ c.tags = tagsOf r.wanted r.headers := by
      intro c hc
      cases captured with
      | none => exact lateCapture_captured hc
      | some captured => exact hcaptured c hc
    unfold logHandler
    cases hcache : r.cache with
    | none => exact Or.inl rfl
    | some cache =>
      simp only
      split
      · exact Or.inl rfl
      · cases hl : lateCapture r captured with
        | none => exact Or.inl rfl
        | some c =>
          obtain ⟨hzone, htags⟩ := hlate c hl
          simp only
          cases hw : r.writer with
          | false => exact Or.inl rfl
          | true =>
            cases r.pool.key with
            | false => exact Or.inl rfl
            | true => exact Or.inr ⟨cache, c.zoneName, rfl, hzone, rfl, by rw [← htags]; rfl⟩
  unfold logPhase
  cases hf : headerFilter r with
  | error rc => exact hwrites none fun c hc => nomatch hc
  | ok captured =>
    refine hwrites captured fun c hc => ?_
    rw [hc] at hf
    exact headerFilter_captured hf

/-- The response that is stored is written. -/
theorem logPhase_stored {cache : RequestCache} {upstream : UpstreamState}
    (hindexed : r.Indexed zoneName) (hcache : r.cache = some cache) (hname : cache.name ≠ [])
    (hup : r.upstream = some upstream) (hcacheable : upstream.cacheable = true)
    (hwriter : r.writer = true) (halloc : r.Allocates) (shm : Shm) :
    logPhase N r shm = (upsertFileMeta N (fun _ => true) r.now zoneName cache.name
      (cacheKey cache.keys) r.now 0 (tagsOf r.wanted r.headers) shm).2 := by
  have hfilter : headerFilter r = .ok (some ⟨tagsOf r.wanted r.headers, zoneName⟩) := by
    unfold headerFilter
    simp only [hcache, hup, hcacheable, hindexed.enabled, hindexed.zone, hwriter, halloc.tags,
      halloc.ctx, responseHeaders_success]
    rfl
  have hlen : ¬ cache.name.length = 0 := fun h0 => hname (List.eq_nil_of_length_eq_zero h0)
  unfold logPhase
  rw [hfilter]
  show logHandler N r (some ⟨tagsOf r.wanted r.headers, zoneName⟩) shm = _
  unfold logHandler lateCapture
  simp only [hcache, if_neg hlen, hwriter, halloc.key, halloc.index, Bool.not_true,
    Bool.false_eq_true, if_false]

/-! ## Runs that describe the files -/

/-- The entry of an updated path is the new one, the others are as before. -/
theorem upsert_entry (h : ShmOk N shm) (now mtime size : Int) (zoneName path key : Bytes)
    (tags : List Bytes) (p : Bytes) :
    toMap (upsertFileMeta N (fun _ => true) now zoneName path key mtime size tags shm).2 zoneName p =
      if p = path then some (key, tags) else toMap shm zoneName p := by
  rw [(upsertFileMeta_toMap h (fun _ => true) now zoneName path key mtime size tags).2,
    upsertFileMeta_success, if_pos rfl]
  unfold IndexMap.set
  simp only [sameZoneName_refl, true_and]

/-- A request whose log phase cannot do harm keeps every file described. -/
theorem Live.Described.request (hok : ShmOk N s.shm) (h : s.Described zoneName wanted)
    (hindexed : r.Indexed zoneName) (hh : Happens s r outcome) (hharm : Harmless wanted s r outcome) :
    ShmOk N (s.request N r outcome).shm ∧ (s.request N r outcome).Described zoneName wanted := by
  have hok' : ShmOk N (logPhase N r s.shm) := by
    rcases logPhase_cases N r s.shm with hsame | ⟨cache, z, -, -, -, hup⟩
    · rw [hsame]
      exact hok
    · rw [hup]
      exact (upsertFileMeta_spec hok _ _ _ _ _ _ _ _).2.1.ok
  refine ⟨hok', fun p response hp => ?_⟩
  show toMap (logPhase N r s.shm) zoneName p = _
  cases hh with
  | @stored cache upstream new captured hcache hname hup hcacheable hfilter hkeys hheaders =>
    have hwriter := hharm.writer new rfl
    obtain ⟨halloc, hlists⟩ := hharm.file hwriter cache hcache (Or.inl (nomatch ·))
    rw [logPhase_stored hindexed hcache hname hup hcacheable hwriter halloc, upsert_entry hok]
    have hstored : (s.request N r (.stored new)).stored =
        Function.update s.stored cache.name (some new) := by
      unfold Live.request
      rw [hcache]
    rw [hstored] at hp
    cases hd : decide (p = cache.name) with
    | true =>
      obtain rfl := of_decide_eq_true hd
      rw [Function.update_self] at hp
      obtain rfl := Option.some.inj hp
      rw [if_pos rfl, hlists, ← hheaders, ← hkeys]
      rfl
    | false =>
      have hne := of_decide_eq_false hd
      rw [Function.update_of_ne hne] at hp
      rw [if_neg hne]
      exact h p response hp
  | @served cache old hcache hold hkey hheaders =>
    have hstored : (s.request N r .served).stored = s.stored := rfl
    rw [hstored] at hp
    rcases logPhase_cases N r s.shm with hsame | ⟨cache', z, hcache', hzone, hwriter, hup⟩
    · rw [hsame]
      exact h p response hp
    · obtain rfl := Option.some.inj (hcache.symm.trans hcache')
      obtain rfl := Option.some.inj (hindexed.zone.symm.trans hzone)
      obtain ⟨halloc, hlists⟩ := hharm.file hwriter cache hcache (Or.inl (nomatch ·))
      rw [hup, halloc.index, upsert_entry hok]
      cases hd : decide (p = cache.name) with
      | true =>
        obtain rfl := of_decide_eq_true hd
        obtain rfl := Option.some.inj (hold.symm.trans hp)
        rw [if_pos rfl, hlists, ← hheaders, hkey]
      | false =>
        rw [if_neg (of_decide_eq_false hd)]
        exact h p response hp
  | unstored =>
    have hstored : (s.request N r .unstored).stored = s.stored := rfl
    rw [hstored] at hp
    rcases logPhase_cases N r s.shm with hsame | ⟨cache, z, hcache, hzone, hwriter, hup⟩
    · rw [hsame]
      exact h p response hp
    · obtain rfl := Option.some.inj (hindexed.zone.symm.trans hzone)
      cases hd : decide (p = cache.name) with
      | true =>
        obtain rfl := of_decide_eq_true hd
        obtain ⟨halloc, hlists⟩ := hharm.file hwriter cache hcache (Or.inr (by rw [hp]; rfl))
        obtain ⟨hkey, htags⟩ := hharm.unstored hwriter rfl cache response hcache hp
        rw [hup, halloc.index, upsert_entry hok, if_pos rfl, hlists, hkey, htags]
      | false =>
        -- a failed update drops no other entry either
        have hne := of_decide_eq_false hd
        rw [hup, (upsertFileMeta_toMap hok _ _ _ _ _ _ _ _).2]
        unfold IndexMap.set
        rw [if_neg fun h0 => hne h0.2]
        exact h p response hp

/-- In a run in which no log phase can do harm, every file has the entry of the
response that it holds after each request. -/
theorem log_phase_describes {s0 : Live} (hok : ShmOk N s0.shm) (h0 : s0.Described zoneName wanted)
    (hr : Reached N zoneName (Harmless wanted) s0 s) : s.Described zoneName wanted := by
  have hinv : ShmOk N s.shm ∧ s.Described zoneName wanted := by
    induction hr with
    | start => exact ⟨hok, h0⟩
    | request _ hindexed hh hharm ih => exact ih.2.request ih.1 hindexed hh hharm
  exact hinv.2

/-! ## Sample runs -/

/-- A request for the key `k` at the path `a`, answered with the tag. -/
def sampleRequest (tag : UInt8) (cacheable : Bool) (status : CacheStatus) : LiveRequest where
  conf := tagLocation
  zone := some [122]
  writer := true
  cache := some ⟨[97], [[107]]⟩
  upstream := some ⟨cacheable, status⟩
  headers := [⟨[84], [tag]⟩]
  pool := ⟨⟨true, fun _ => true⟩, true, ⟨true, fun _ => true⟩, true, fun _ => true⟩
  now := 1

def sampleStored (tag : UInt8) : StoredResponse := ⟨[], [[107]], [], [⟨[84], [tag]⟩], []⟩

def emptyLive : Live := ⟨fun _ => none, .init⟩

/-- The response with the tag `t` is stored. -/
def storedLive : Live :=
  emptyLive.request .reference (sampleRequest 116 true .miss) (.stored (sampleStored 116))

theorem sampleRequest_indexed (tag : UInt8) (cacheable : Bool) (status : CacheStatus) :
    (sampleRequest tag cacheable status).Indexed [122] := ⟨rfl, rfl⟩

theorem storedLive_happens : Happens emptyLive (sampleRequest 116 true .miss)
    (.stored (sampleStored 116)) := by
  have hfilter : headerFilter (sampleRequest 116 true .miss) = .ok (some ⟨[[116]], [122]⟩) := by rfl
  exact .stored rfl (by decide) rfl rfl hfilter rfl rfl

theorem storedLive_harmless : Harmless [[84]] emptyLive (sampleRequest 116 true .miss)
    (.stored (sampleStored 116)) where
  writer _ _ := rfl
  file _ _ _ _ := ⟨⟨rfl, rfl, rfl, rfl, rfl⟩, rfl⟩
  unstored _ h := nomatch h

theorem emptyLive_described : emptyLive.Described [122] [[84]] := fun _ _ h => nomatch h

theorem log_phase_describes_sample : storedLive.Described [122] [[84]] :=
  log_phase_describes ShmOk.init emptyLive_described
    (.request .start (sampleRequest_indexed 116 true .miss) storedLive_happens storedLive_harmless)

/-- The entry of the file has expired, and the upstream answers with the tag `u`
and a response that is not stored. -/
theorem log_phase_overwrites :
    emptyLive.Described [122] [[84]] ∧
    ∃ s, Reached .reference [122] (fun _ _ _ => True) emptyLive s ∧
      (s.stored [97]).map (fun r => (r.key, tagsOf [[84]] r.headers)) = some ([107], [[116]]) ∧
      toMap s.shm [122] [97] = some ([107], [[117]]) := by
  refine ⟨emptyLive_described,
    storedLive.request .reference (sampleRequest 117 false .expired) .unstored, ?_, by decide +kernel,
    by decide +kernel⟩
  have hstored : Reached .reference [122] (fun _ _ _ => True) emptyLive storedLive :=
    .request .start (sampleRequest_indexed 116 true .miss) storedLive_happens trivial
  exact .request hstored (sampleRequest_indexed 117 false .expired) .unstored trivial

end CachePilot
