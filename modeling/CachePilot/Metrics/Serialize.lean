import CachePilot.Purge.Body

/-!
# The metrics documents

`ngx_http_cache_pilot_write_json` and `ngx_http_cache_pilot_write_prometheus` over the
snapshots of the zones, and `ngx_http_cache_pilot_metrics_handler`, which gives them a
buffer. What does not fit in the buffer is left out in silence, and the name of a zone is
printed as it is.
-/

namespace CachePilot
open NgxString Print

/-! ## Snapshots -/

/-- `index_state` of a snapshot. -/
inductive IndexState
  | disabled
  | configured
  | ready
deriving DecidableEq, Repr

/-- `index_not_ready_reason` of a snapshot that has one. -/
inductive NotReadyReason
  | readerUnavailable
  | indexNotReady
  | zoneNotRegistered
deriving DecidableEq, Repr

/-- `ngx_http_cache_pilot_zone_snapshot_t`. -/
structure ZoneSnapshot where
  name : Bytes
  size : Int64
  maxSize : Int64
  indexMaxSize : Int64
  cold : UInt64
  entriesValid : UInt64
  entriesExpired : UInt64
  entriesUpdating : UInt64
  indexState : IndexState
  hasIndex : Bool
  indexLastUpdatedAt : Int64
  indexLastBootstrapAt : Int64
  indexNotReadyReason : Option NotReadyReason
  allocFailures : UInt64

/-- `ngx_http_cache_pilot_index_state_str`. -/
def IndexState.str : IndexState → Bytes
  | .disabled => ascii "disabled"
  | .configured => ascii "configured"
  | .ready => ascii "ready"

def IndexState.code : IndexState → Nat
  | .disabled => 0
  | .configured => 1
  | .ready => 2

def NotReadyReason.str : NotReadyReason → Bytes
  | .readerUnavailable => ascii "reader_unavailable"
  | .indexNotReady => ascii "index_not_ready"
  | .zoneNotRegistered => ascii "zone_not_registered"

/-- `ngx_http_cache_pilot_index_alloc_failures`. -/
def indexAllocFailures (snaps : List ZoneSnapshot) : UInt64 :=
  match snaps.find? fun s => s.hasIndex with
  | some s => s.allocFailures
  | none => 0

/-- A counter of the metrics zone, if there is one. -/
def metricsRead (m : Option PurgeMetrics) (counter : PurgeMetrics → Nat) : Nat :=
  match m with
  | some m => counter m
  | none => 0

/-- `%O` and `%T`. -/
def printInt (i : Int64) : Bytes := decimalInt i.toInt

/-! ## JSON -/

def jsonModes (counters : Bool → Nat) : List Bytes :=
  [ascii "\x7b\"hard\":", printUint (counters false), ascii ",\"soft\":", printUint (counters true),
    ascii "\x7d"]

def jsonKinds (counters : PurgeStats → Bool → Nat) : List Bytes :=
  [ascii "\x7b\"exact\":"] ++ jsonModes (counters .exact) ++ [ascii ",\"wildcard\":"] ++
    jsonModes (counters .wildcard) ++ [ascii ",\"tag\":"] ++ jsonModes (counters .tag) ++
    [ascii ",\"all\":"] ++ jsonModes (counters .all) ++ [ascii "\x7d"]

/-- What is printed before the zones. -/
def jsonHead (now : Int64) (snaps : List ZoneSnapshot) (m : Option PurgeMetrics) : List Bytes :=
  [ascii "\x7b\"version\":1,\"timestamp\":", printInt now, ascii ",\"purges\":"] ++
    jsonKinds (fun type soft => metricsRead m fun m => m.purges type soft) ++ [ascii ",\"purged\":"] ++
    jsonKinds (fun type soft => metricsRead m fun m => m.purged type soft) ++
    [ascii ",\"key_index\":\x7b\"exact_fanout\":", printUint (metricsRead m (·.keyIndexExactFanout)),
      ascii ",\"wildcard_hits\":", printUint (metricsRead m (·.keyIndexWildcardHits)),
      ascii "\x7d,\"index_store\":\x7b\"alloc_failures\":",
      printUint (indexAllocFailures snaps).toNat, ascii "\x7d,\"zones\":\x7b"]

/-- The `"index"` member of a zone. -/
def jsonIndex (s : ZoneSnapshot) : List Bytes :=
  [ascii ",\"index\":\x7b\"state\":\"", s.indexState.str, ascii "\",\"state_code\":",
      printUint s.indexState.code, ascii ",\"max_size\":", printInt s.indexMaxSize,
      ascii ",\"last_bootstrap_at\":", printInt s.indexLastBootstrapAt, ascii ",\"last_updated_at\":",
      printInt s.indexLastUpdatedAt, ascii ",\"backend\":\"shm\""] ++
    (match s.indexNotReadyReason with
      | some reason => [ascii ",\"not_ready_reason\":\"", reason.str, ascii "\""]
      | none => []) ++
    [ascii "\x7d"]

/-- Whether the loader of the zone is still at work. -/
def ZoneSnapshot.coldStr (s : ZoneSnapshot) : Bytes :=
  if s.cold ≠ 0 then ascii "true" else ascii "false"

def jsonZone (s : ZoneSnapshot) : List Bytes :=
  [ascii "\"", s.name, ascii "\":\x7b\"size\":", printInt s.size, ascii ",\"max_size\":",
      printInt s.maxSize, ascii ",\"cold\":", s.coldStr,
      ascii ",\"entries\":\x7b\"total\":",
      printUint (s.entriesValid + s.entriesExpired + s.entriesUpdating).toNat, ascii ",\"valid\":",
      printUint s.entriesValid.toNat, ascii ",\"expired\":", printUint s.entriesExpired.toNat,
      ascii ",\"updating\":", printUint s.entriesUpdating.toNat, ascii "\x7d"] ++
    (if s.hasIndex then jsonIndex s else []) ++ [ascii "\x7d"]

/-- The loop over the zones; `i` is the index of the first of them. -/
def jsonZones (i : Nat) : List ZoneSnapshot → List Bytes
  | [] => []
  | s :: snaps => (if 0 < i then [ascii ","] else []) ++ jsonZone s ++ jsonZones (i + 1) snaps

/-- `ngx_http_cache_pilot_write_json`. -/
def writeJson (size : Nat) (now : Int64) (snaps : List ZoneSnapshot) (m : Option PurgeMetrics) : Bytes :=
  putAll size [] (jsonHead now snaps m ++ jsonZones 0 snaps ++ [ascii "\x7d\x7d"])

/-! ## Prometheus -/

/-- The two lines before the samples of a metric. -/
def promHeader (metric help type : String) : Bytes :=
  ascii "# HELP " ++ ascii metric ++ ascii " " ++ ascii help ++ ascii "\n# TYPE " ++ ascii metric ++
    ascii " " ++ ascii type ++ ascii "\n"

/-- A sample of a metric. -/
def promSample (metric : String) (labels : List Bytes) (value : Bytes) : List Bytes :=
  [ascii metric, ascii "\x7b"] ++ labels ++ [ascii "\x7d ", value, ascii "\n"]

def PurgeStats.label : PurgeStats → Bytes
  | .exact => ascii "exact"
  | .wildcard => ascii "wildcard"
  | .tag => ascii "tag"
  | .all => ascii "all"

/-- The samples of the counters by kind and mode. -/
def promKinds (metric : String) (counters : PurgeStats → Bool → Nat) : List Bytes :=
  [PurgeStats.exact, .wildcard, .tag, .all].flatMap fun type =>
    promSample metric [ascii "type=\"", type.label, ascii "\",mode=\"hard\""]
        (printUint (counters type false)) ++
      promSample metric [ascii "type=\"", type.label, ascii "\",mode=\"soft\""]
        (printUint (counters type true))

/-- A sample of one zone. -/
def promZone (metric : String) (s : ZoneSnapshot) (labels : List Bytes) (value : Bytes) : List Bytes :=
  promSample metric ([ascii "zone=\"", s.name, ascii "\""] ++ labels) value

/-- A metric of the zones that have an index. Its header is printed again behind a zone that
has none; `prev` is whether the zone before has one. -/
def promIndexed (header : Bytes) (sample : ZoneSnapshot → List Bytes) :
    Bool → List ZoneSnapshot → List Bytes
  | _, [] => []
  | prev, s :: snaps =>
    (if s.hasIndex then (if prev then [] else [header]) ++ sample s else []) ++
      promIndexed header sample s.hasIndex snaps

def promCounters (m : Option PurgeMetrics) : List Bytes :=
  [promHeader "nginx_cache_pilot_purges_total" "Total cache purge operations" "counter"] ++
    promKinds "nginx_cache_pilot_purges_total"
      (fun type soft => metricsRead m fun m => m.purges type soft) ++
    [promHeader "nginx_cache_pilot_key_index_total"
      "Cache purges served via the key index (avoids filesystem walk)" "counter"] ++
    promSample "nginx_cache_pilot_key_index_total" [ascii "type=\"exact_fanout\""]
      (printUint (metricsRead m (·.keyIndexExactFanout))) ++
    promSample "nginx_cache_pilot_key_index_total" [ascii "type=\"wildcard_hits\""]
      (printUint (metricsRead m (·.keyIndexWildcardHits))) ++
    [promHeader "nginx_cache_pilot_purged_entries_total"
      "Total cache entries removed or expired by purge type and mode" "counter"] ++
    promKinds "nginx_cache_pilot_purged_entries_total"
      (fun type soft => metricsRead m fun m => m.purged type soft)

/-- Size and maximum sizes of the zones, and when their indexes were updated. -/
def promSizes (snaps : List ZoneSnapshot) : List Bytes :=
  [promHeader "nginx_cache_pilot_zone_size_bytes" "Current cache zone size in bytes" "gauge"] ++
    snaps.flatMap (fun s => promZone "nginx_cache_pilot_zone_size_bytes" s [] (printInt s.size)) ++
    [promHeader "nginx_cache_pilot_zone_max_size_bytes" "Configured maximum cache zone size in bytes"
      "gauge"] ++
    snaps.flatMap (fun s => promZone "nginx_cache_pilot_zone_max_size_bytes" s [] (printInt s.maxSize)) ++
    promIndexed (promHeader "nginx_cache_pilot_index_max_size_bytes"
        "Configured maximum shared-memory cache index size in bytes" "gauge")
      (fun s => promZone "nginx_cache_pilot_index_max_size_bytes" s [] (printInt s.indexMaxSize))
      false snaps ++
    promIndexed (promHeader "nginx_cache_pilot_index_last_updated_at_seconds"
        "Unix epoch timestamp of the last in-memory index update for the zone" "gauge")
      (fun s => promZone "nginx_cache_pilot_index_last_updated_at_seconds" s []
        (printInt s.indexLastUpdatedAt))
      false snaps

/-- The samples of one zone behind the number of failed allocations. -/
def promReady (s : ZoneSnapshot) : List Bytes :=
  if s.hasIndex then
    promZone "nginx_cache_pilot_index_last_bootstrap_at_seconds" s [] (printInt s.indexLastBootstrapAt) ++
      match s.indexNotReadyReason with
      | some reason =>
        promZone "nginx_cache_pilot_index_not_ready" s [ascii ",reason=\"", reason.str, ascii "\""]
          (ascii "1")
      | none => []
  else []

/-- When the indexes were completed, and why they are not ready. -/
def promIndexes (snaps : List ZoneSnapshot) : List Bytes :=
  [promHeader "nginx_cache_pilot_index_last_bootstrap_at_seconds"
      "Unix epoch timestamp of the last completed index bootstrap for the zone" "gauge",
    promHeader "nginx_cache_pilot_index_alloc_failures_total"
      "Shared-memory allocation failures observed by the cache index" "counter",
    promHeader "nginx_cache_pilot_index_not_ready"
      "Index not-ready reason for configured zones (1 when active)" "gauge",
    ascii "nginx_cache_pilot_index_alloc_failures_total ",
    printUint (indexAllocFailures snaps).toNat, ascii "\n"] ++ snaps.flatMap promReady

/-- The state of the zones and of their indexes. -/
def promStates (snaps : List ZoneSnapshot) : List Bytes :=
  [promHeader "nginx_cache_pilot_zone_cold" "1 if the cache zone loader has not finished, 0 if warm"
      "gauge"] ++
    snaps.flatMap (fun s => promZone "nginx_cache_pilot_zone_cold" s [] (printUint s.cold.toNat)) ++
    [promHeader "nginx_cache_pilot_zone_entries" "Number of entries in the cache zone by state" "gauge"] ++
    snaps.flatMap (fun s =>
      promZone "nginx_cache_pilot_zone_entries" s [ascii ",state=\"valid\""]
          (printUint s.entriesValid.toNat) ++
        promZone "nginx_cache_pilot_zone_entries" s [ascii ",state=\"expired\""]
          (printUint s.entriesExpired.toNat) ++
        promZone "nginx_cache_pilot_zone_entries" s [ascii ",state=\"updating\""]
          (printUint s.entriesUpdating.toNat)) ++
    [promHeader "nginx_cache_pilot_index_state"
      "Per-zone cache index state: 0=disabled, 1=configured, 2=ready" "gauge"] ++
    snaps.flatMap (fun s =>
      promZone "nginx_cache_pilot_index_state" s [ascii ",state=\"", s.indexState.str, ascii "\""]
        (printUint s.indexState.code)) ++
    promIndexed (promHeader "nginx_cache_pilot_index_info"
        "Static metadata about the configured tag index backend (always 1)" "gauge")
      (fun s => promZone "nginx_cache_pilot_index_info" s [ascii ",backend=\"shm\""] (ascii "1"))
      false snaps

/-- `ngx_http_cache_pilot_write_prometheus`. -/
def writePrometheus (size : Nat) (snaps : List ZoneSnapshot) (m : Option PurgeMetrics) : Bytes :=
  putAll size [] (promCounters m ++ promSizes snaps ++ promIndexes snaps ++ promStates snaps)

/-! ## The handler -/

/-- `ngx_align`, for a power of two. -/
def ngxAlign (d a : Nat) : Nat := (d + (a - 1)) / a * a

inductive MetricsFormat
  | prometheus
  | json
deriving DecidableEq, Repr

/-- `buf_size`. -/
def bufSize (fmt : MetricsFormat) (pagesize nzones : Nat) : Nat :=
  match fmt with
  | .prometheus => ngxAlign (3072 + nzones * 2560) pagesize
  | .json => ngxAlign (512 + nzones * 1024) pagesize

/-- `ngx_http_cache_pilot_metrics_handler`, behind its checks and the choice of the format;
without zones there is no content. -/
def metricsHandler (fmt : MetricsFormat) (pagesize : Nat) (now : Int64) (snaps : List ZoneSnapshot)
    (m : Option PurgeMetrics) : Option Bytes :=
  if snaps = [] then none
  else
    let size := bufSize fmt pagesize snaps.length
    match fmt with
    | .prometheus => some (writePrometheus size snaps m)
    | .json => some (writeJson size now snaps m)

end CachePilot
