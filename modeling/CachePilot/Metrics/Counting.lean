import CachePilot.Purge.Confined

/-!
# The counters over the life of the server

The counters lie in shared memory and outlive the configuration. Beside them a request
counts in its context, which its response reports if there is one.

Results:
* `counters_sum_requests`: over any number of requests and reloads a counter of purged
  files is the sum of what the requests have counted.
-/

namespace CachePilot
open NgxString

/-! ## The metrics zone -/

def PurgeMetrics.zero : PurgeMetrics := ⟨fun _ _ => 0, fun _ _ => 0, 0, 0⟩

/-- `ngx_http_cache_pilot_metrics_init_zone`: `old` is what the cycle before has left, and
`none` that the new zone has no memory. -/
def metricsInitZone (alloc : Bool) (old : Option PurgeMetrics) : Option PurgeMetrics :=
  match old with
  | some old => some old
  | none => if alloc then some .zero else none

/-- The requests with what became of them. -/
abbrev History := List (PurgeCall × Finished)

/-- The files of one kind and mode that the requests have counted as purged, whether their
answers report it or, as a 500 and a text do, say nothing of it. -/
def History.counted (history : History) (type : PurgeStats) (soft : Bool) : Nat :=
  (history.map fun served => served.2.state.reported type soft).sum

/-- The life of the server: purge requests, each with a context of its own, reloads, and
anything that does not count. -/
inductive ServerRun (N : Nginx) (L : HeaderLayout) (access : IndexAccess) : History → Pilot → Pilot → Prop
  | done (s : Pilot) : ServerRun N L access [] s s
  | purge {call : PurgeCall} {history : History} {s s' : Pilot} : s.ctx = none →
    ServerRun N L access history { (protocolHandler N L access call s).state with ctx := none } s' →
    ServerRun N L access ((call, protocolHandler N L access call s) :: history) s s'
  | reload {alloc : Bool} {m : PurgeMetrics} {history : History} {s s' : Pilot} :
    metricsInitZone alloc s.metrics = some m →
    ServerRun N L access history { s with metrics := some m } s' → ServerRun N L access history s s'
  | other {history : History} {s s1 s' : Pilot} : s1.metrics = s.metrics → s1.ctx = s.ctx →
    IndexOk N s1.shm → ServerRun N L access history s1 s' → ServerRun N L access history s s'

variable {N : Nginx} {L : HeaderLayout} {access : IndexAccess} {call : PurgeCall} {s s' : Pilot}
  {m : PurgeMetrics}

/-- A request adds to the counters what it counts in its context. -/
theorem protocolHandler_counts (call : PurgeCall) (hindex : IndexOk N s.shm) (hctx : s.ctx = none)
    (hm : s.metrics = some m) :
    ∃ m', (protocolHandler N L access call s).state.metrics = some m' ∧ m.Le m' ∧ ∀ type soft,
      m'.purged type soft =
        m.purged type soft + (protocolHandler N L access call s).state.reported type soft := by
  have htallies := (protocolHandler_steps N L access call s hindex).tallies
  have hnone : ∀ type soft, s.reported type soft = 0 := by
    intro type soft
    unfold Pilot.reported
    rw [hctx]
  have hgrow := htallies.grow
  rw [hm] at hgrow
  cases hm' : (protocolHandler N L access call s).state.metrics with
  | none =>
    rw [hm'] at hgrow
    exact nomatch hgrow
  | some m' =>
    rw [hm'] at hgrow
    cases hgrow with
    | some hle =>
      refine ⟨m', rfl, hle, fun type soft => ?_⟩
      have hpurged := htallies.purged m m' hm hm' type soft
      rwa [hnone, Nat.add_zero] at hpurged

/-- What a life of the server adds to the counters of purged files. -/
theorem served_purged {history : History} (h : ServerRun N L access history s s')
    (hindex : IndexOk N s.shm) (hm : s.metrics = some m) :
    ∃ m', s'.metrics = some m' ∧ m.Le m' ∧
      ∀ type soft, m'.purged type soft = m.purged type soft + history.counted type soft := by
  induction h generalizing m with
  | done s => exact ⟨m, hm, .refl m, fun type soft => rfl⟩
  | @purge call history s s' hctx _ ih =>
    have hsteps := protocolHandler_steps N L access call s hindex
    obtain ⟨m1, hm1, hle, hpurged⟩ := protocolHandler_counts call hindex hctx hm
    obtain ⟨m', hm', hle', hsum⟩ := ih (hsteps.index hindex) hm1
    refine ⟨m', hm', hle.trans hle', fun type soft => ?_⟩
    rw [hsum, hpurged, Nat.add_assoc]
    rfl
  | @reload alloc m1 history s s' hreload _ ih =>
    have hold : metricsInitZone alloc s.metrics = some m := by
      rw [hm]
      rfl
    obtain rfl := Option.some.inj (hreload.symm.trans hold)
    exact ih hindex rfl
  | other hmetrics _ hindex1 _ ih =>
    rw [← hmetrics] at hm
    exact ih hindex1 hm

/-- Whatever the requests are and however they end, over the life of the server no counter
goes back, and each of purged files is what the requests have counted on top of what it
was: nothing is counted twice or lost, reloads included. -/
theorem counters_sum_requests (N : Nginx) (L : HeaderLayout) (access : IndexAccess) (history : History)
    (s s' : Pilot) (m : PurgeMetrics) (hindex : IndexOk N s.shm) (hm : s.metrics = some m)
    (h : ServerRun N L access history s s') :
    ∃ m', s'.metrics = some m' ∧ m.Le m' ∧
      ∀ type soft, m'.purged type soft = m.purged type soft + history.counted type soft :=
  served_purged h hindex hm

def softServed : Pilot :=
  { (protocolHandler .reference .reference sampleAccess sampleSoft countingState).state with ctx := none }

def hardServed : Pilot :=
  { (protocolHandler .reference .reference sampleAccess sampleExact softServed).state with ctx := none }

def sampleHistory : History :=
  [(sampleSoft, protocolHandler .reference .reference sampleAccess sampleSoft countingState),
    (sampleExact, protocolHandler .reference .reference sampleAccess sampleExact softServed)]

/-- A soft and a hard purge of the same key. -/
theorem counters_sum_requests_sample :
    ∃ m', hardServed.metrics = some m' ∧ PurgeMetrics.zero.Le m' ∧ ∀ type soft,
      m'.purged type soft = PurgeMetrics.zero.purged type soft + sampleHistory.counted type soft :=
  counters_sum_requests .reference .reference sampleAccess sampleHistory countingState hardServed .zero
    variantState_indexOk rfl (.purge rfl (.purge rfl (.done _)))

end CachePilot
