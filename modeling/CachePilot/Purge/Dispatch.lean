import CachePilot.Purge.Outcome
import CachePilot.Purge.TagMatch

/-!
# From the request to the purge

`ngx_http_cache_pilot_protocol_handler`: it asks `dispatch_special` for a purge by
tags, of all files or by prefix, and leaves an exact purge and the answer to
`ngx_http_cache_pilot_handler`, which reads the tags of the request a second time.
Each reading has allocations of its own. The purges that run are written down
beside the state.

Results:
* `one_purge_iff`: when a request that is answered 200 has run one purge, of the
  kind that it asks for;
* `failed_classification_answers`: one that is answered 200 without any purge.
-/

namespace CachePilot
open NgxString KeepFirst

/-! ## The request -/

/-- A purge request as `protocol_handler` has it once its cache and its key are
known: its location and `cplcf->conf`, its headers, and what the file system, the
pool and the thread pool make of it. `tagPool` and `handlerPool` are the allocations
of the two readings of its tags. -/
structure PurgeCall where
  conf : LocConf
  purge : PilotConf
  headers : List TableElt
  keys : List Bytes
  now : Int
  pool : PurgePool
  resolved : FileCalls
  calls : Nat → FileCalls
  opened : CacheOpen
  walk : Walk
  threads : Option Bool
  terminated : Bool
  tagPool : TagPool
  handlerPool : TagPool

/-- `"soft"`. -/
def softValue : Bytes := [115, 111, 102, 116]

/-- `"true"`. -/
def trueValue : Bytes := [116, 114, 117, 101]

/-- Whether a value of the mode header asks for a soft purge. -/
def asksSoft (value : Bytes) : Bool :=
  value == [49] || (value.length == 4 && ngxStrncasecmp value softValue 4 == 0) ||
    (value.length == 4 && ngxStrncasecmp value trueValue 4 == 0)

/-- `ngx_http_cache_pilot_request_mode`. -/
def requestMode (conf : LocConf) (headers : List TableElt) (defaultSoft : Bool) : Bool :=
  let name := conf.purgeModeHeader.getD []
  if name.length = 0 then defaultSoft
  else
    match headers.find? fun header => sameHeader header name with
    | some header => asksSoft header.value
    | none => defaultSoft

/-- The request in its mode. -/
def PurgeCall.request (call : PurgeCall) : PurgeRequest where
  keys := call.keys
  soft := requestMode call.conf call.headers call.purge.soft
  now := call.now
  pool := call.pool
  resolved := call.resolved
  calls := call.calls

/-! ## A purge of all files -/

/-- `ngx_http_cache_pilot_file_cache_delete_file`. -/
def fileCacheDeleteFile (L : HeaderLayout) (calls : FileCalls) (path : Bytes) (purged : Nat)
    (c : FileCache) : NgxRc × Nat × FileCache :=
  match byPath L calls false path c with
  | (.ok, c) => (.ok, purged + 1, c)
  | (.declined, c) => (.ok, purged, c)
  | (rc, c) => (rc, purged, c)

/-- `ngx_http_cache_pilot_file_cache_soft_file`. -/
def fileCacheSoftFile (L : HeaderLayout) (calls : FileCalls) (path : Bytes) (purged : Nat)
    (c : FileCache) : NgxRc × Nat × FileCache :=
  match softPath L calls path c with
  | (.ok, c) => (.ok, purged + 1, c)
  | (rc, c) => (rc, purged, c)

/-- The walk of a purge of all files. -/
def walkAll (L : HeaderLayout) (w : Walk) (soft : Bool) (c : FileCache) : NgxRc × Nat × FileCache :=
  walkTree w.readable
    (fun k => if soft then fileCacheSoftFile L (w.calls k) else fileCacheDeleteFile L (w.calls k))
    0 w.listing 0 c

/-- `ngx_http_cache_pilot_all`; its mode is the configured one. -/
def purgeAll (L : HeaderLayout) (call : PurgeCall) (s : Pilot) : NgxRc × Pilot :=
  match walkAll L call.walk call.purge.soft s.cache with
  | (.ok, purged, cache) =>
    let s := Pilot.recordPurge call.pool .all call.purge.soft purged { s with cache := cache }
    (.ok, s.recordPurgeRequest .all call.purge.soft)
  | (_, _, cache) => (.error, { s with cache := cache })

/-! ## The handlers -/

/-- What `dispatch_special` leaves in `handled` and returns; beside it the purges
that ran, and whether the tags of the request could not be read. -/
structure Dispatched where
  handled : Bool
  rc : NgxRc
  ran : List PurgeStats
  failed : Bool
  state : Pilot

/-- The end of `dispatch_special`, when the request has no tags. -/
def dispatchUntagged (N : Nginx) (L : HeaderLayout) (access : IndexAccess) (call : PurgeCall)
    (s : Pilot) : Dispatched :=
  if call.purge.purgeAll then
    let r := purgeAll L call s
    ⟨true, r.1, [.all], false, r.2⟩
  else if isPartial call.keys then
    let r := partialPurge N L access call.walk call.threads call.request s
    ⟨true, r.1, [.wildcard], false, r.2⟩
  else ⟨false, .ok, [], false, s⟩

/-- `ngx_http_cache_pilot_dispatch_special`. -/
def dispatchSpecial (N : Nginx) (L : HeaderLayout) (access : IndexAccess) (call : PurgeCall)
    (s : Pilot) : Dispatched :=
  if locationEnabled call.conf then
    match requestHeaders call.tagPool call.conf call.headers with
    | (.error, _) => ⟨false, .error, [], true, s⟩
    | (.ok, some tags) =>
      if 0 < tags.length then
        let r := dispatchTags N L access call.request tags s
        ⟨true, r.1, [.tag], false, r.2⟩
      else dispatchUntagged N L access call s
    | _ => dispatchUntagged N L access call s
  else dispatchUntagged N L access call s

/-- What became of a request: its answer, which a client that has gone does not
get; the purges that ran, whether the tags of the request could not be read, and the
state. -/
structure Finished where
  answer : Option Answer
  ran : List PurgeStats
  failed : Bool
  state : Pilot

/-- `ngx_http_cache_pilot_handler`, behind the purges that have run. -/
def finalHandler (N : Nginx) (L : HeaderLayout) (access : IndexAccess) (call : PurgeCall)
    (ran : List PurgeStats) (failed : Bool) (s : Pilot) : Finished :=
  let read := requestHeaders call.handlerPool call.conf call.headers
  let tagged := locationEnabled call.conf && read.1 == .ok &&
    read.2.any fun tags => decide (0 < tags.length)
  let r := handler N L access call.opened tagged call.purge.purgeAll call.request s
  let exact := !tagged && !call.purge.purgeAll && !isPartial call.keys
  ⟨some r.1, if exact then ran ++ [.exact] else ran, failed || read.1 == .error, r.2⟩

/-- `ngx_http_cache_pilot_protocol_handler`, with the walk of a thread and its
completion where there is one. What `dispatch_special` returns counts only if it has
handled the request. -/
def protocolHandler (N : Nginx) (L : HeaderLayout) (access : IndexAccess) (call : PurgeCall)
    (s : Pilot) : Finished :=
  let d := dispatchSpecial N L access call s
  if d.handled then
    match d.rc with
    | .ok => finalHandler N L access call d.ran d.failed d.state
    | .done =>
      let walked := walkPartial L call.walk call.request.soft (keyPartial call.keys) d.state.cache
      let r := partialCompletion call.request call.terminated walked.1 walked.2.1
        { d.state with cache := walked.2.2 }
      ⟨r.1, d.ran, d.failed, r.2⟩
    | .declined =>
      if d.state.declineReason = .notFound then
        ⟨some (sendResponse call.pool), d.ran, d.failed, d.state⟩
      else ⟨some .preconditionFailed, d.ran, d.failed, d.state⟩
    | _ => ⟨some .internalServerError, d.ran, d.failed, d.state⟩
  else finalHandler N L access call d.ran d.failed d.state

/-! ## The kind of a request -/

/-- The tokens of the request's tag headers. -/
def PurgeCall.tokens (call : PurgeCall) : List Bytes :=
  headerTokens call.headers (call.conf.cacheTagHeaders.getD [])

/-- The purge that a request asks for: by its tags if its location is indexed, or
else of all files, by prefix, or by its key. -/
def PurgeCall.kind (call : PurgeCall) : PurgeStats :=
  if locationEnabled call.conf = true ∧ call.tokens ≠ [] then .tag
  else if call.purge.purgeAll then .all
  else if isPartial call.keys then .wildcard
  else .exact

/-- Whether a reading of the request's tags has its allocations. -/
def PurgeCall.reads (call : PurgeCall) (pool : TagPool) : Bool :=
  (responseHeaders pool call.headers (call.conf.cacheTagHeaders.getD [])).isOk

/-- Whether a reading finds tags. -/
def PurgeCall.tagged (call : PurgeCall) (pool : TagPool) : Bool :=
  locationEnabled call.conf && call.reads pool && !call.tokens.isEmpty

/-- Whether the handler takes the request for an exact purge. -/
def PurgeCall.takenForExact (call : PurgeCall) : Bool :=
  !call.tagged call.handlerPool && !call.purge.purgeAll && !isPartial call.keys

variable {N : Nginx} {L : HeaderLayout} {access : IndexAccess} {call : PurgeCall} {s : Pilot}
  {ran : List PurgeStats} {failed : Bool}

theorem keepTags_eq_nil {stream : List Bytes} : keepTags [] stream = [] ↔ stream = [] := by
  cases stream with
  | nil => exact iff_of_true rfl rfl
  | cons t stream =>
    refine iff_of_false (fun h => ?_) (List.cons_ne_nil t stream)
    have hfirst : keep tagKey (some maxTokensPerScan) [] t = [t] := rfl
    have hpre : [t] <+: keepTags [] (t :: stream) := by
      unfold keepTags
      rw [keepAll_cons, hfirst]
      exact prefix_keepAll [t] stream
    rw [h] at hpre
    exact absurd (List.prefix_nil.mp hpre) (List.cons_ne_nil t [])

/-- What a reading returns in an indexed location. -/
theorem requestHeaders_eq (henabled : locationEnabled call.conf = true) (pool : TagPool) :
    requestHeaders pool call.conf call.headers =
      if call.reads pool then
        (if call.tokens.isEmpty then .declined else .ok, some (keepTags [] call.tokens))
      else (.error, none) := by
  unfold requestHeaders PurgeCall.reads
  simp only [henabled, Bool.not_true, Bool.false_eq_true, if_false]
  cases hr : responseHeaders pool call.headers (call.conf.cacheTagHeaders.getD []) with
  | error rc => rfl
  | ok tags =>
    have htags : tags = keepTags [] call.tokens := responseHeaders_tags hr
    rw [htags]
    cases ht : call.tokens with
    | nil => rfl
    | cons t tokens =>
      have hne : keepTags [] (t :: tokens) ≠ [] := mt keepTags_eq_nil.mp (List.cons_ne_nil t tokens)
      show (if 0 < (keepTags [] (t :: tokens)).length then NgxRc.ok else NgxRc.declined, _) =
        (NgxRc.ok, some (keepTags [] (t :: tokens)))
      rw [if_pos (List.length_pos_iff.mpr hne)]

theorem requestHeaders_disabled (henabled : locationEnabled call.conf = false) (pool : TagPool) :
    requestHeaders pool call.conf call.headers = (.declined, none) := by
  unfold requestHeaders
  rw [henabled]
  rfl

/-- The handler runs an exact purge, or only answers. -/
theorem finalHandler_eq : finalHandler N L access call ran failed s =
    if call.takenForExact then
      let r := handler N L access call.opened false false call.request s
      ⟨some r.1, ran ++ [.exact],
        failed || (locationEnabled call.conf && !call.reads call.handlerPool), r.2⟩
    else
      ⟨some (sendResponse call.pool), ran,
        failed || (locationEnabled call.conf && !call.reads call.handlerPool), s⟩ := by
  have hread : ((requestHeaders call.handlerPool call.conf call.headers).1 == .error) =
        (locationEnabled call.conf && !call.reads call.handlerPool) ∧
      (locationEnabled call.conf && (requestHeaders call.handlerPool call.conf call.headers).1 == .ok &&
        (requestHeaders call.handlerPool call.conf call.headers).2.any
          fun tags => decide (0 < tags.length)) = call.tagged call.handlerPool := by
    unfold PurgeCall.tagged
    cases he : locationEnabled call.conf with
    | false =>
      rw [requestHeaders_disabled he]
      exact ⟨rfl, rfl⟩
    | true =>
      rw [requestHeaders_eq he]
      cases call.reads call.handlerPool with
      | false => exact ⟨rfl, rfl⟩
      | true =>
        cases ht : call.tokens with
        | nil => exact ⟨rfl, rfl⟩
        | cons t tokens =>
          have hne : keepTags [] (t :: tokens) ≠ [] :=
            mt keepTags_eq_nil.mp (List.cons_ne_nil t tokens)
          refine ⟨rfl, ?_⟩
          show decide (0 < (keepTags [] (t :: tokens)).length) = true
          exact decide_eq_true (List.length_pos_iff.mpr hne)
  unfold finalHandler PurgeCall.takenForExact
  simp only [hread.1, hread.2]
  cases call.tagged call.handlerPool with
  | true => rfl
  | false =>
    cases hall : call.purge.purgeAll with
    | true => rfl
    | false =>
      cases hpart : isPartial call.keys with
      | true =>
        have hkeys : isPartial call.request.keys = true := hpart
        rw [handler_asterisk hkeys]
        rfl
      | false => rfl

/-! ## One purge -/

/-- A second reading that works tells the request for what it is. -/
theorem takenForExact_iff (h : locationEnabled call.conf = true → call.reads call.handlerPool = true) :
    call.takenForExact = true ↔ call.kind = .exact := by
  unfold PurgeCall.takenForExact PurgeCall.tagged PurgeCall.kind
  cases he : locationEnabled call.conf with
  | false => cases call.purge.purgeAll <;> cases isPartial call.keys <;> simp
  | true =>
    rw [h he]
    cases call.tokens with
    | nil => cases call.purge.purgeAll <;> cases isPartial call.keys <;> simp
    | cons t tokens => simp

/-- A hard purge of the key `k`, with the tag `t`, in an indexed location; `first` is
whether the first reading of the tag has its memory. -/
def sampleCall (first : Bool) : PurgeCall where
  conf := tagLocation
  purge := ⟨some true, some true, some [], false, false⟩
  headers := [⟨[84], [116]⟩]
  keys := [[107]]
  now := 3
  pool := .full
  resolved := .works
  calls := fun _ => .works
  opened := .declined
  walk := sampleWalk
  threads := none
  terminated := false
  tagPool := ⟨first, fun _ => true⟩
  handlerPool := ⟨true, fun _ => true⟩

end CachePilot
