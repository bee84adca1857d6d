import CachePilot.Metrics.Serialize
import Mathlib.Algebra.BigOperators.Group.List.Basic

/-!
# The length of the metrics documents

How long the two documents are, counted from the snapshots alone: the fixed texts, the
names as often as they are printed, and the digits of the numbers.
-/

namespace CachePilot
open NgxString Print

/-! ## Widths -/

def uintWidth (n : Nat) : Nat := digitCount (n % 2 ^ 64)

def intWidth (i : Int64) : Nat := (if i.toInt < 0 then 1 else 0) + digitCount i.toInt.natAbs

/-- The digits of the counters by kind and mode. -/
def kindsWidth (counters : PurgeStats → Bool → Nat) : Nat :=
  uintWidth (counters .exact false) + uintWidth (counters .exact true) +
    uintWidth (counters .wildcard false) + uintWidth (counters .wildcard true) +
    uintWidth (counters .tag false) + uintWidth (counters .tag true) +
    uintWidth (counters .all false) + uintWidth (counters .all true)

/-- The digits of the numbers that are not of one zone. -/
def countersWidth (snaps : List ZoneSnapshot) (m : Option PurgeMetrics) : Nat :=
  kindsWidth (fun type soft => metricsRead m fun m => m.purges type soft) +
    kindsWidth (fun type soft => metricsRead m fun m => m.purged type soft) +
    uintWidth (metricsRead m (·.keyIndexExactFanout)) +
    uintWidth (metricsRead m (·.keyIndexWildcardHits)) + uintWidth (indexAllocFailures snaps).toNat

theorem printUint_width (n : Nat) : (printUint n).length = uintWidth n := decimal_length _

theorem printInt_width (i : Int64) : (printInt i).length = intWidth i := by
  unfold printInt intWidth decimalInt
  split
  · rw [List.length_cons, decimal_length, Nat.add_comm]
  · rw [decimal_length, Nat.zero_add]

/-! ## JSON -/

/-- The bytes that one zone takes in the JSON document. -/
def ZoneSnapshot.jsonSize (s : ZoneSnapshot) : Nat :=
  85 + s.name.length + intWidth s.size + intWidth s.maxSize + s.coldStr.length +
    uintWidth (s.entriesValid + s.entriesExpired + s.entriesUpdating).toNat +
    uintWidth s.entriesValid.toNat + uintWidth s.entriesExpired.toNat +
    uintWidth s.entriesUpdating.toNat +
    (if s.hasIndex then
      103 + s.indexState.str.length + uintWidth s.indexState.code + intWidth s.indexMaxSize +
        intWidth s.indexLastBootstrapAt + intWidth s.indexLastUpdatedAt +
        (match s.indexNotReadyReason with
          | some reason => 22 + reason.str.length
          | none => 0)
    else 0)

/-- The bytes of the JSON document. -/
def jsonSize (now : Int64) (snaps : List ZoneSnapshot) (m : Option PurgeMetrics) : Nat :=
  346 + intWidth now + countersWidth snaps m + (snaps.map ZoneSnapshot.jsonSize).sum +
    (snaps.length - 1)

/-- All of the JSON document. -/
def jsonText (now : Int64) (snaps : List ZoneSnapshot) (m : Option PurgeMetrics) : Bytes :=
  (jsonHead now snaps m ++ jsonZones 0 snaps ++ [ascii "\x7d\x7d"]).flatten

theorem jsonModes_length (counters : Bool → Nat) : (jsonModes counters).flatten.length =
    17 + uintWidth (counters false) + uintWidth (counters true) := by
  have hpieces : (ascii "\x7b\"hard\":").length = 8 ∧ (ascii ",\"soft\":").length = 8 ∧
      (ascii "\x7d").length = 1 := ⟨rfl, rfl, rfl⟩
  simp only [jsonModes, List.flatten_cons, List.flatten_nil, List.append_nil, List.length_append,
    hpieces, printUint_width]
  omega

theorem jsonKinds_length (counters : PurgeStats → Bool → Nat) :
    (jsonKinds counters).flatten.length = 104 + kindsWidth counters := by
  have hpieces : (ascii "\x7b\"exact\":").length = 9 ∧ (ascii ",\"wildcard\":").length = 12 ∧
      (ascii ",\"tag\":").length = 7 ∧ (ascii ",\"all\":").length = 7 ∧
      (ascii "\x7d").length = 1 := ⟨rfl, rfl, rfl, rfl, rfl⟩
  simp only [jsonKinds, List.flatten_append, List.flatten_singleton, List.length_append,
    jsonModes_length, hpieces, kindsWidth]
  omega

theorem jsonHead_length (now : Int64) (snaps : List ZoneSnapshot) (m : Option PurgeMetrics) :
    (jsonHead now snaps m).flatten.length = 344 + intWidth now + countersWidth snaps m := by
  have hpieces : (ascii "\x7b\"version\":1,\"timestamp\":").length = 25 ∧
      (ascii ",\"purges\":").length = 10 ∧ (ascii ",\"purged\":").length = 10 ∧
      (ascii ",\"key_index\":\x7b\"exact_fanout\":").length = 29 ∧
      (ascii ",\"wildcard_hits\":").length = 17 ∧
      (ascii "\x7d,\"index_store\":\x7b\"alloc_failures\":").length = 34 ∧
      (ascii "\x7d,\"zones\":\x7b").length = 11 := ⟨rfl, rfl, rfl, rfl, rfl, rfl, rfl⟩
  unfold jsonHead countersWidth
  simp only [List.flatten_append, List.flatten_cons, List.flatten_nil, List.append_nil,
    List.length_append, jsonKinds_length, hpieces, printUint_width, printInt_width]
  omega

theorem jsonIndex_length (s : ZoneSnapshot) : (jsonIndex s).flatten.length =
    103 + s.indexState.str.length + uintWidth s.indexState.code + intWidth s.indexMaxSize +
      intWidth s.indexLastBootstrapAt + intWidth s.indexLastUpdatedAt +
      (match s.indexNotReadyReason with
        | some reason => 22 + reason.str.length
        | none => 0) := by
  have hpieces : (ascii ",\"index\":\x7b\"state\":\"").length = 19 ∧
      (ascii "\",\"state_code\":").length = 15 ∧ (ascii ",\"max_size\":").length = 12 ∧
      (ascii ",\"last_bootstrap_at\":").length = 21 ∧ (ascii ",\"last_updated_at\":").length = 19 ∧
      (ascii ",\"backend\":\"shm\"").length = 16 ∧ (ascii ",\"not_ready_reason\":\"").length = 21 ∧
      (ascii "\"").length = 1 ∧ (ascii "\x7d").length = 1 :=
      ⟨rfl, rfl, rfl, rfl, rfl, rfl, rfl, rfl, rfl⟩
  unfold jsonIndex
  cases s.indexNotReadyReason with
  | none =>
    simp only [List.flatten_append, List.flatten_cons, List.flatten_nil, List.append_nil,
      List.length_append, hpieces, printUint_width, printInt_width]
    omega
  | some reason =>
    simp only [List.flatten_append, List.flatten_cons, List.flatten_nil, List.append_nil,
      List.length_append, hpieces, printUint_width, printInt_width]
    omega

theorem jsonZone_length (s : ZoneSnapshot) : (jsonZone s).flatten.length = s.jsonSize := by
  have hpieces : (ascii "\"").length = 1 ∧ (ascii "\":\x7b\"size\":").length = 10 ∧
      (ascii ",\"max_size\":").length = 12 ∧ (ascii ",\"cold\":").length = 8 ∧
      (ascii ",\"entries\":\x7b\"total\":").length = 20 ∧ (ascii ",\"valid\":").length = 9 ∧
      (ascii ",\"expired\":").length = 11 ∧ (ascii ",\"updating\":").length = 12 ∧
      (ascii "\x7d").length = 1 := ⟨rfl, rfl, rfl, rfl, rfl, rfl, rfl, rfl, rfl⟩
  unfold jsonZone ZoneSnapshot.jsonSize
  split
  · simp only [List.flatten_append, List.flatten_cons, List.flatten_nil, List.append_nil,
      List.length_append, hpieces, printUint_width, printInt_width, jsonIndex_length]
    omega
  · simp only [List.flatten_append, List.flatten_cons, List.flatten_nil, List.append_nil,
      List.length_append, hpieces, printUint_width, printInt_width]
    omega

theorem jsonText_length {now : Int64} {snaps : List ZoneSnapshot} {m : Option PurgeMetrics} :
    (jsonText now snaps m).length = jsonSize now snaps m := by
  have hmore : ∀ i (snaps : List ZoneSnapshot), (jsonZones (i + 1) snaps).flatten.length =
      (snaps.map ZoneSnapshot.jsonSize).sum + snaps.length := by
    intro i snaps
    induction snaps generalizing i with
    | nil => rfl
    | cons s snaps ih =>
      unfold jsonZones
      rw [if_pos (Nat.succ_pos i)]
      simp only [List.flatten_append, List.length_append, jsonZone_length, ih, List.map_cons,
        List.sum_cons, List.length_cons]
      show 1 + _ + _ = _
      omega
  unfold jsonText jsonSize
  simp only [List.flatten_append, List.length_append, jsonHead_length]
  cases snaps with
  | nil =>
    show 344 + intWidth now + countersWidth [] m + 0 + 2 =
      346 + intWidth now + countersWidth [] m + 0 + 0
    omega
  | cons s snaps =>
    unfold jsonZones
    rw [if_neg (Nat.lt_irrefl 0)]
    simp only [List.nil_append, List.flatten_append, List.length_append, jsonZone_length, hmore,
      List.map_cons, List.sum_cons, List.length_cons]
    show _ + _ + 2 = _
    omega

/-! ## Prometheus -/

/-- The bytes that one zone takes in the Prometheus text, without headers. -/
def ZoneSnapshot.promSize (s : ZoneSnapshot) : Nat :=
  349 + 7 * s.name.length + intWidth s.size + intWidth s.maxSize + uintWidth s.cold.toNat +
    uintWidth s.entriesValid.toNat + uintWidth s.entriesExpired.toNat +
    uintWidth s.entriesUpdating.toNat + s.indexState.str.length + uintWidth s.indexState.code +
    (if s.hasIndex then
      221 + 4 * s.name.length + intWidth s.indexMaxSize + intWidth s.indexLastUpdatedAt +
        intWidth s.indexLastBootstrapAt +
        (match s.indexNotReadyReason with
          | some reason => 55 + s.name.length + reason.str.length
          | none => 0)
    else 0)

/-- How often the headers of the index metrics are printed. -/
def indexRuns : Bool → List ZoneSnapshot → Nat
  | _, [] => 0
  | prev, s :: snaps => (if s.hasIndex ∧ !prev then 1 else 0) + indexRuns s.hasIndex snaps

/-- The bytes of the Prometheus text. -/
def promSize (snaps : List ZoneSnapshot) (m : Option PurgeMetrics) : Nat :=
  2750 + countersWidth snaps m + 486 * indexRuns false snaps + (snaps.map ZoneSnapshot.promSize).sum

/-- All of the Prometheus text. -/
def promText (snaps : List ZoneSnapshot) (m : Option PurgeMetrics) : Bytes :=
  (promCounters m ++ promSizes snaps ++ promIndexes snaps ++ promStates snaps).flatten

theorem promHeader_length (metric help type : String) : (promHeader metric help type).length =
    18 + 2 * (ascii metric).length + (ascii help).length + (ascii type).length := by
  have hhelp : (ascii "# HELP ").length = 7 := rfl
  have htype : (ascii "\n# TYPE ").length = 8 := rfl
  have hblank : (ascii " ").length = 1 := rfl
  have hend : (ascii "\n").length = 1 := rfl
  simp only [promHeader, List.length_append, hhelp, htype, hblank, hend]
  omega

theorem promSample_length (metric : String) (labels : List Bytes) (value : Bytes) :
    (promSample metric labels value).flatten.length =
      4 + (ascii metric).length + labels.flatten.length + value.length := by
  have hopen : (ascii "\x7b").length = 1 := rfl
  have hclose : (ascii "\x7d ").length = 2 := rfl
  have hend : (ascii "\n").length = 1 := rfl
  simp only [promSample, List.flatten_append, List.flatten_cons, List.flatten_nil, List.append_nil,
    List.length_append, hopen, hclose, hend]
  omega

theorem promZone_length (metric : String) (s : ZoneSnapshot) (labels : List Bytes) (value : Bytes) :
    (promZone metric s labels value).flatten.length =
      11 + (ascii metric).length + s.name.length + labels.flatten.length + value.length := by
  have hopen : (ascii "zone=\"").length = 6 := rfl
  have hclose : (ascii "\"").length = 1 := rfl
  unfold promZone
  rw [promSample_length]
  simp only [List.flatten_append, List.flatten_cons, List.flatten_nil, List.append_nil,
    List.length_append, hopen, hclose]
  omega

theorem promKinds_length (metric : String) (counters : PurgeStats → Bool → Nat) :
    (promKinds metric counters).flatten.length =
      8 * (ascii metric).length + 222 + kindsWidth counters := by
  have hlabels : (PurgeStats.label .exact).length = 5 ∧ (PurgeStats.label .wildcard).length = 8 ∧
      (PurgeStats.label .tag).length = 3 ∧ (PurgeStats.label .all).length = 3 := ⟨rfl, rfl, rfl, rfl⟩
  have htype : (ascii "type=\"").length = 6 := rfl
  have hhard : (ascii "\",mode=\"hard\"").length = 13 := rfl
  have hsoft : (ascii "\",mode=\"soft\"").length = 13 := rfl
  simp only [promKinds, List.flatMap_cons, List.flatMap_nil, List.flatten_append, List.length_append,
    promSample_length, printUint_width, List.flatten_cons, List.flatten_nil, List.length_nil,
    hlabels, htype, hhard, hsoft, kindsWidth]
  omega

theorem flatMap_flatten_length (sample : ZoneSnapshot → List Bytes) (snaps : List ZoneSnapshot) :
    (snaps.flatMap sample).flatten.length = (snaps.map fun s => (sample s).flatten.length).sum := by
  induction snaps with
  | nil => rfl
  | cons s snaps ih =>
    rw [List.flatMap_cons, List.flatten_append, List.length_append, ih, List.map_cons, List.sum_cons]

/-- What is only there where there is an index. -/
def ZoneSnapshot.ifIndex (s : ZoneSnapshot) (n : Nat) : Nat := if s.hasIndex then n else 0

theorem promIndexed_length (header : Bytes) (sample : ZoneSnapshot → List Bytes) (prev : Bool)
    (snaps : List ZoneSnapshot) : (promIndexed header sample prev snaps).flatten.length =
      indexRuns prev snaps * header.length +
        (snaps.map fun s => s.ifIndex (sample s).flatten.length).sum := by
  induction snaps generalizing prev with
  | nil => simp [promIndexed, indexRuns]
  | cons s snaps ih =>
    unfold promIndexed indexRuns
    rw [List.flatten_append, List.length_append, ih, List.map_cons, List.sum_cons, Nat.add_mul,
      ZoneSnapshot.ifIndex]
    cases s.hasIndex with
    | false => simp
    | true =>
      cases prev with
      | false =>
        simp only [if_true, List.flatten_append, List.length_append, List.flatten_singleton,
          Bool.not_false, and_self, Nat.one_mul, Bool.false_eq_true, if_false]
        omega
      | true =>
        simp only [if_true, List.nil_append, Bool.not_true, Bool.false_eq_true, and_false, if_false,
          Nat.zero_mul]
        omega

theorem promCounters_length (m : Option PurgeMetrics) : (promCounters m).flatten.length =
    1529 + kindsWidth (fun type soft => metricsRead m fun m => m.purges type soft) +
      kindsWidth (fun type soft => metricsRead m fun m => m.purged type soft) +
      uintWidth (metricsRead m (·.keyIndexExactFanout)) +
      uintWidth (metricsRead m (·.keyIndexWildcardHits)) := by
  have hmetrics : (ascii "nginx_cache_pilot_purges_total").length = 30 ∧
      (ascii "nginx_cache_pilot_key_index_total").length = 33 ∧
      (ascii "nginx_cache_pilot_purged_entries_total").length = 38 := ⟨rfl, rfl, rfl⟩
  have htexts : (ascii "Total cache purge operations").length = 28 ∧
      (ascii "Cache purges served via the key index (avoids filesystem walk)").length = 62 ∧
      (ascii "Total cache entries removed or expired by purge type and mode").length = 61 ∧
      (ascii "counter").length = 7 ∧ (ascii "type=\"exact_fanout\"").length = 19 ∧
      (ascii "type=\"wildcard_hits\"").length = 20 := ⟨rfl, rfl, rfl, rfl, rfl, rfl⟩
  unfold promCounters
  simp only [List.flatten_append, List.length_append, promKinds_length, promSample_length,
    List.flatten_singleton, promHeader_length, printUint_width, hmetrics, htexts]
  omega

/-- The bytes of one zone among the sizes. -/
def ZoneSnapshot.sizesSize (s : ZoneSnapshot) : Nat :=
  92 + 2 * s.name.length + intWidth s.size + intWidth s.maxSize +
    (if s.hasIndex then 107 + 2 * s.name.length + intWidth s.indexMaxSize + intWidth s.indexLastUpdatedAt
    else 0)

theorem promSizes_length (snaps : List ZoneSnapshot) : (promSizes snaps).flatten.length =
    261 + 342 * indexRuns false snaps + (snaps.map ZoneSnapshot.sizesSize).sum := by
  have hmetrics : (ascii "nginx_cache_pilot_zone_size_bytes").length = 33 ∧
      (ascii "nginx_cache_pilot_zone_max_size_bytes").length = 37 ∧
      (ascii "nginx_cache_pilot_index_max_size_bytes").length = 38 ∧
      (ascii "nginx_cache_pilot_index_last_updated_at_seconds").length = 47 := ⟨rfl, rfl, rfl, rfl⟩
  have htexts : (ascii "Current cache zone size in bytes").length = 32 ∧
      (ascii "Configured maximum cache zone size in bytes").length = 43 ∧
      (ascii "Configured maximum shared-memory cache index size in bytes").length = 58 ∧
      (ascii "Unix epoch timestamp of the last in-memory index update for the zone").length = 68 ∧
      (ascii "gauge").length = 5 := ⟨rfl, rfl, rfl, rfl, rfl⟩
  simp only [promSizes, List.flatten_append, List.length_append, List.flatten_singleton,
    promHeader_length, flatMap_flatten_length, promIndexed_length, promZone_length, List.flatten_nil,
    List.length_nil, printInt_width, hmetrics, htexts]
  generalize indexRuns false snaps = runs
  induction snaps with
  | nil =>
    simp only [List.map_nil, List.sum_nil]
    omega
  | cons s snaps ih =>
    have hif : ∀ n, s.ifIndex n = if s.hasIndex then n else 0 := fun _ => rfl
    simp only [List.map_cons, List.sum_cons, hif, ZoneSnapshot.sizesSize]
    cases s.hasIndex with
    | false =>
      simp only [Bool.false_eq_true, if_false]
      omega
    | true =>
      simp only [if_true]
      omega

theorem promReady_length (s : ZoneSnapshot) : (promReady s).flatten.length =
    if s.hasIndex then
      60 + s.name.length + intWidth s.indexLastBootstrapAt +
        (match s.indexNotReadyReason with
          | some reason => 55 + s.name.length + reason.str.length
          | none => 0)
    else 0 := by
  have hmetrics : (ascii "nginx_cache_pilot_index_last_bootstrap_at_seconds").length = 49 ∧
      (ascii "nginx_cache_pilot_index_not_ready").length = 33 := ⟨rfl, rfl⟩
  have htexts : (ascii ",reason=\"").length = 9 ∧ (ascii "\"").length = 1 ∧
      (ascii "1").length = 1 := ⟨rfl, rfl, rfl⟩
  unfold promReady
  split
  · cases s.indexNotReadyReason with
    | none =>
      simp only [List.flatten_append, List.length_append, promZone_length, printInt_width, hmetrics,
        List.flatten_nil, List.length_nil]
      omega
    | some reason =>
      simp only [List.flatten_append, List.length_append, promZone_length, printInt_width, hmetrics,
        htexts, List.flatten_cons, List.flatten_nil, List.length_nil]
      omega
  · rfl

theorem promIndexes_length (snaps : List ZoneSnapshot) : (promIndexes snaps).flatten.length =
    560 + uintWidth (indexAllocFailures snaps).toNat +
      (snaps.map fun s => (promReady s).flatten.length).sum := by
  have hmetrics : (ascii "nginx_cache_pilot_index_last_bootstrap_at_seconds").length = 49 ∧
      (ascii "nginx_cache_pilot_index_alloc_failures_total").length = 44 ∧
      (ascii "nginx_cache_pilot_index_alloc_failures_total ").length = 45 ∧
      (ascii "nginx_cache_pilot_index_not_ready").length = 33 := ⟨rfl, rfl, rfl, rfl⟩
  have htexts :
      (ascii "Unix epoch timestamp of the last completed index bootstrap for the zone").length = 71 ∧
      (ascii "Shared-memory allocation failures observed by the cache index").length = 61 ∧
      (ascii "Index not-ready reason for configured zones (1 when active)").length = 59 ∧
      (ascii "gauge").length = 5 ∧ (ascii "counter").length = 7 ∧
      (ascii "\n").length = 1 := ⟨rfl, rfl, rfl, rfl, rfl, rfl⟩
  simp only [promIndexes, List.flatten_append, List.length_append, List.flatten_cons,
    List.flatten_nil, List.length_nil, promHeader_length, flatMap_flatten_length, printUint_width,
    hmetrics, htexts]
  omega

/-- The bytes of one zone among the states. -/
def ZoneSnapshot.statesSize (s : ZoneSnapshot) : Nat :=
  257 + 5 * s.name.length + uintWidth s.cold.toNat + uintWidth s.entriesValid.toNat +
    uintWidth s.entriesExpired.toNat + uintWidth s.entriesUpdating.toNat + s.indexState.str.length +
    uintWidth s.indexState.code + (if s.hasIndex then 54 + s.name.length else 0)

theorem promStates_length (snaps : List ZoneSnapshot) : (promStates snaps).flatten.length =
    400 + 144 * indexRuns false snaps + (snaps.map ZoneSnapshot.statesSize).sum := by
  have hmetrics : (ascii "nginx_cache_pilot_zone_cold").length = 27 ∧
      (ascii "nginx_cache_pilot_zone_entries").length = 30 ∧
      (ascii "nginx_cache_pilot_index_state").length = 29 ∧
      (ascii "nginx_cache_pilot_index_info").length = 28 := ⟨rfl, rfl, rfl, rfl⟩
  have htexts : (ascii "1 if the cache zone loader has not finished, 0 if warm").length = 54 ∧
      (ascii "Number of entries in the cache zone by state").length = 44 ∧
      (ascii "Per-zone cache index state: 0=disabled, 1=configured, 2=ready").length = 61 ∧
      (ascii "Static metadata about the configured tag index backend (always 1)").length = 65 ∧
      (ascii "gauge").length = 5 := ⟨rfl, rfl, rfl, rfl, rfl⟩
  have hlabels : (ascii ",state=\"valid\"").length = 14 ∧ (ascii ",state=\"expired\"").length = 16 ∧
      (ascii ",state=\"updating\"").length = 17 ∧ (ascii ",state=\"").length = 8 ∧
      (ascii "\"").length = 1 ∧ (ascii ",backend=\"shm\"").length = 14 ∧
      (ascii "1").length = 1 := ⟨rfl, rfl, rfl, rfl, rfl, rfl, rfl⟩
  simp only [promStates, List.flatten_append, List.length_append, List.flatten_cons, List.flatten_nil,
    List.length_nil, promHeader_length, flatMap_flatten_length, promIndexed_length,
    promZone_length, printUint_width, hmetrics, htexts, hlabels]
  generalize indexRuns false snaps = runs
  induction snaps with
  | nil =>
    simp only [List.map_nil, List.sum_nil]
    omega
  | cons s snaps ih =>
    have hif : ∀ n, s.ifIndex n = if s.hasIndex then n else 0 := fun _ => rfl
    simp only [List.map_cons, List.sum_cons, hif, ZoneSnapshot.statesSize]
    cases s.hasIndex with
    | false =>
      simp only [Bool.false_eq_true, if_false]
      omega
    | true =>
      simp only [if_true]
      omega

theorem promText_length {snaps : List ZoneSnapshot} {m : Option PurgeMetrics} :
    (promText snaps m).length = promSize snaps m := by
  have hzone : ∀ s : ZoneSnapshot,
      s.promSize = s.sizesSize + (promReady s).flatten.length + s.statesSize := by
    intro s
    rw [promReady_length]
    unfold ZoneSnapshot.promSize ZoneSnapshot.sizesSize ZoneSnapshot.statesSize
    cases s.hasIndex with
    | false =>
      simp only [Bool.false_eq_true, if_false]
      omega
    | true =>
      simp only [if_true]
      omega
  unfold promText promSize countersWidth
  rw [List.flatten_append, List.flatten_append, List.flatten_append, List.length_append,
    List.length_append, List.length_append, promCounters_length, promSizes_length,
    promIndexes_length, promStates_length, List.map_congr_left fun s _ => hzone s,
    List.sum_map_add, List.sum_map_add]
  omega

end CachePilot
