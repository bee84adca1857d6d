import CachePilot.Metrics.Complete
import CachePilot.Metrics.Counting
import Mathlib.Algebra.Order.BigOperators.Group.List

/-!
# The page of the metrics endpoint

`ngx_http_cache_pilot_metrics_handler`: its checks, the choice of the format, the header and the
body of its answer.

Results:
* `short_names_fit`: names of zones for which a document is always complete;
* `page_format_iff`: which requests get a page, and in which format;
* `page_tells_purges`: what the JSON page says of the purges since the start of the server.
-/

namespace CachePilot
open NgxString Print Json

/-! ## The request -/

inductive HttpMethod
  | get
  | head
  | other
deriving DecidableEq, Repr

/-- A request for the page. `discard` is what `ngx_http_discard_request_body` returns instead of
`NGX_OK`, and `formatArg` the value of the argument `format`, if `ngx_http_arg` finds one.
Then come the allocations and what nginx returns while the answer is sent. -/
structure MetricsRequest where
  method : HttpMethod
  discard : Option Int
  formatArg : Option Bytes
  headers : List TableElt
  snapsAlloc : Bool
  bufAlloc : Bool
  headerPush : Bool
  sendHeader : Int
  headerOnly : Bool
  bodyAlloc : Bool
  outputFilter : Int

/-- What a value of the `Accept` header asks for. -/
def acceptsText (value : Bytes) : Bool :=
  ngxStrnstr (ascii "text/plain") value || ngxStrnstr (ascii "application/openmetrics-text") value

/-- `ngx_http_cache_pilot_negotiate_format`. -/
def negotiateFormat (formatArg : Option Bytes) (headers : List TableElt) : MetricsFormat :=
  match formatArg with
  | some fmt =>
    if fmt.length == 10 && ngxStrncasecmp fmt (ascii "prometheus") 10 == 0 then .prometheus else .json
  | none =>
    match headers.find? fun h => sameHeader h (ascii "accept") with
    | some h => if acceptsText h.value then .prometheus else .json
    | none => .json

/-! ## The answer -/

def MetricsFormat.contentType : MetricsFormat → Bytes
  | .prometheus => ascii "text/plain; version=0.0.4; charset=utf-8"
  | .json => ascii "application/json"

/-- The header of the answer; `noStore` tells whether it has `Cache-Control: no-store`. -/
structure PageHeader where
  contentType : Bytes
  contentLength : Nat
  noStore : Bool
deriving DecidableEq, Repr

/-- What the handler returns to nginx, and the header and the body that it has sent. -/
structure PageAnswer where
  rc : Int
  header : Option PageHeader
  body : Option Bytes
deriving DecidableEq, Repr

/-- The end of the handler, from `ngx_http_send_header` on. -/
def sendPage (req : MetricsRequest) (header : PageHeader) (document : Bytes) : PageAnswer :=
  if req.method = .head then ⟨req.sendHeader, some header, none⟩
  else if req.sendHeader = -1 ∨ 0 < req.sendHeader ∨ req.headerOnly = true then
    ⟨req.sendHeader, some header, none⟩
  else if !req.bodyAlloc then ⟨500, some header, none⟩
  else ⟨req.outputFilter, some header, some document⟩

/-- `ngx_http_cache_pilot_metrics_handler`. -/
def metricsPage (req : MetricsRequest) (pagesize : Nat) (now : Int64) (snaps : List ZoneSnapshot)
    (m : Option PurgeMetrics) : PageAnswer :=
  if req.method = .other then ⟨405, none, none⟩
  else
    match req.discard with
    | some rc => ⟨rc, none, none⟩
    | none =>
      let fmt := negotiateFormat req.formatArg req.headers
      match metricsHandler fmt pagesize now snaps m with
      | none => ⟨204, none, none⟩
      | some document =>
        if !req.snapsAlloc then ⟨500, none, none⟩
        else if !req.bufAlloc then ⟨500, none, none⟩
        else sendPage req ⟨fmt.contentType, document.length, req.headerPush⟩ document

variable {req : MetricsRequest} {pagesize : Nat} {now : Int64} {snaps : List ZoneSnapshot}
  {m : Option PurgeMetrics} {s : ZoneSnapshot} {document : Bytes}

/-- The request gets a page: it is a GET or a HEAD one whose own body could be discarded, the
location shows zones, and memory is there for them and for the document. -/
structure MetricsRequest.Served (req : MetricsRequest) (snaps : List ZoneSnapshot) : Prop where
  method : req.method ≠ .other
  discard : req.discard = none
  zones : snaps ≠ []
  snapsAlloc : req.snapsAlloc = true
  bufAlloc : req.bufAlloc = true

/-- Its page has a body. -/
structure MetricsRequest.TakesBody (req : MetricsRequest) : Prop where
  method : req.method ≠ .head
  sent : ¬ (req.sendHeader = -1 ∨ 0 < req.sendHeader ∨ req.headerOnly = true)
  bodyAlloc : req.bodyAlloc = true

theorem metricsHandler_none {fmt : MetricsFormat} :
    metricsHandler fmt pagesize now snaps m = none ↔ snaps = [] := by
  unfold metricsHandler
  split
  · next hnil => exact iff_of_true rfl hnil
  · next hne => cases fmt <;> exact iff_of_false (by rintro ⟨⟩) hne

/-- The page is sent, or an answer without header and body goes back to nginx. -/
theorem metricsPage_cases (req : MetricsRequest) (pagesize : Nat) (now : Int64) (snaps : List ZoneSnapshot)
    (m : Option PurgeMetrics) :
    ¬ req.Served snaps ∧ (∃ rc, metricsPage req pagesize now snaps m = ⟨rc, none, none⟩) ∨
      req.Served snaps ∧ ∃ document,
        metricsHandler (negotiateFormat req.formatArg req.headers) pagesize now snaps m = some document ∧
        metricsPage req pagesize now snaps m =
          sendPage req ⟨(negotiateFormat req.formatArg req.headers).contentType, document.length, req.headerPush⟩
            document := by
  unfold metricsPage
  split
  · next hmethod => exact Or.inl ⟨fun h => h.method hmethod, 405, rfl⟩
  · next hmethod =>
    split
    · next rc hdiscard =>
      refine Or.inl ⟨fun h => ?_, rc, rfl⟩
      cases hdiscard.symm.trans h.discard
    · next hdiscard =>
      simp only
      split
      · next hnone => exact Or.inl ⟨fun h => h.zones (metricsHandler_none.mp hnone), 204, rfl⟩
      · next document hdocument =>
        have hzones : snaps ≠ [] := by
          intro hnil
          cases hdocument.symm.trans (metricsHandler_none.mpr hnil)
        split
        · next hsnaps => exact Or.inl ⟨fun h => by simp [h.snapsAlloc] at hsnaps, 500, rfl⟩
        · next hsnaps =>
          split
          · next hbuf => exact Or.inl ⟨fun h => by simp [h.bufAlloc] at hbuf, 500, rfl⟩
          · next hbuf =>
            have hserved : req.Served snaps :=
              ⟨hmethod, hdiscard, hzones, by simpa using hsnaps, by simpa using hbuf⟩
            exact Or.inr ⟨hserved, document, hdocument, rfl⟩

theorem sendPage_header (header : PageHeader) (document : Bytes) :
    (sendPage req header document).header = some header := by
  unfold sendPage
  split
  · rfl
  · split
    · rfl
    · split <;> rfl

theorem sendPage_body (header : PageHeader) (out : Bytes) :
    (sendPage req header document).body = some out ↔ req.TakesBody ∧ out = document := by
  unfold sendPage
  split
  · next hhead => exact iff_of_false (by rintro ⟨⟩) fun h => h.1.method hhead
  · next hhead =>
    split
    · next hunsent => exact iff_of_false (by rintro ⟨⟩) fun h => h.1.sent hunsent
    · next hsent =>
      split
      · next hbody => exact iff_of_false (by rintro ⟨⟩) fun h => by simp [h.1.bodyAlloc] at hbody
      · next hbody =>
        have htakes : req.TakesBody := ⟨hhead, hsent, by simpa using hbody⟩
        constructor
        · intro h
          exact ⟨htakes, (Option.some.inj h).symm⟩
        · rintro ⟨-, rfl⟩
          rfl

/-- The header tells the format that is asked for and how long the document is. -/
theorem metricsPage_header (header : PageHeader) :
    (metricsPage req pagesize now snaps m).header = some header ↔ req.Served snaps ∧ ∃ document,
      metricsHandler (negotiateFormat req.formatArg req.headers) pagesize now snaps m = some document ∧
      header = ⟨(negotiateFormat req.formatArg req.headers).contentType, document.length, req.headerPush⟩ := by
  rcases metricsPage_cases req pagesize now snaps m with ⟨hno, rc, hpage⟩ | ⟨hserved, out, hout, hpage⟩
  · rw [hpage]
    exact iff_of_false (by rintro ⟨⟩) fun h => hno h.1
  · rw [hpage, sendPage_header, Option.some.injEq]
    constructor
    · rintro rfl
      exact ⟨hserved, out, hout, rfl⟩
    · rintro ⟨-, document, hdocument, rfl⟩
      rw [Option.some.inj (hout.symm.trans hdocument)]

/-- The body is the document in this format. -/
theorem metricsPage_body (body : Bytes) :
    (metricsPage req pagesize now snaps m).body = some body ↔ req.Served snaps ∧ req.TakesBody ∧
      metricsHandler (negotiateFormat req.formatArg req.headers) pagesize now snaps m = some body := by
  rcases metricsPage_cases req pagesize now snaps m with ⟨hno, rc, hpage⟩ | ⟨hserved, out, hout, hpage⟩
  · rw [hpage]
    exact iff_of_false (by rintro ⟨⟩) fun h => hno h.1
  · rw [hpage, sendPage_body, hout, Option.some.injEq]
    constructor
    · rintro ⟨htakes, rfl⟩
      exact ⟨hserved, htakes, rfl⟩
    · rintro ⟨-, htakes, rfl⟩
      exact ⟨htakes, rfl⟩

/-! ## The format -/

theorem sameHeader_word {h : TableElt} {word : Bytes} (hlower : word.map ngxTolower = word) (hword : 0 ∉ word) :
    sameHeader h word = true ↔ h.key.map ngxTolower = word := by
  unfold sameHeader
  rw [Bool.and_eq_true, beq_iff_eq, beq_iff_eq]
  constructor
  · rintro ⟨hlen, hcmp⟩
    exact (ngxStrncasecmp_word hlower hword rfl hlen).mp hcmp
  · intro hkey
    have hlen : h.key.length = word.length := by rw [← hkey, List.length_map]
    exact ⟨hlen, (ngxStrncasecmp_word hlower hword rfl hlen).mpr hkey⟩

theorem acceptsText_iff {value : Bytes} : acceptsText value = true ↔
    ascii "text/plain" <:+: cstr value ∨ ascii "application/openmetrics-text" <:+: cstr value := by
  unfold acceptsText
  rw [Bool.or_eq_true, ngxStrnstr_iff (by decide +kernel) (by decide +kernel),
    ngxStrnstr_iff (by decide +kernel) (by decide +kernel)]

/-- The Prometheus text is for requests with `format=prometheus`, and for those without a
`format` whose first `Accept` header has one of two media types in it: a later one does not
count, nor does a type behind a NUL. -/
def AsksForText (formatArg : Option Bytes) (headers : List TableElt) : Prop :=
  (∃ fmt, formatArg = some fmt ∧ fmt.map ngxTolower = ascii "prometheus") ∨
    formatArg = none ∧ ∃ (front : List TableElt) (h : TableElt) (back : List TableElt),
      headers = front ++ h :: back ∧ h.key.map ngxTolower = ascii "accept" ∧
        (∀ h' ∈ front, h'.key.map ngxTolower ≠ ascii "accept") ∧
        (ascii "text/plain" <:+: cstr h.value ∨ ascii "application/openmetrics-text" <:+: cstr h.value)

theorem negotiateFormat_iff (formatArg : Option Bytes) (headers : List TableElt) :
    negotiateFormat formatArg headers = .prometheus ↔ AsksForText formatArg headers := by
  have hsame : ∀ h : TableElt, sameHeader h (ascii "accept") = true ↔ h.key.map ngxTolower = ascii "accept" :=
    fun h => sameHeader_word (by decide +kernel) (by decide +kernel)
  unfold negotiateFormat
  cases formatArg with
  | some fmt =>
    have hword : (fmt.length == 10 && ngxStrncasecmp fmt (ascii "prometheus") 10 == 0) = true ↔
        fmt.map ngxTolower = ascii "prometheus" := by
      have hlower : (ascii "prometheus").map ngxTolower = ascii "prometheus" := by decide +kernel
      have hlen10 : (ascii "prometheus").length = 10 := by decide +kernel
      rw [Bool.and_eq_true, beq_iff_eq, beq_iff_eq]
      constructor
      · rintro ⟨hlen, hcmp⟩
        exact (ngxStrncasecmp_word hlower (by decide +kernel) hlen10 hlen).mp hcmp
      · intro hfmt
        have hlen : fmt.length = 10 := by rw [← hlen10, ← hfmt, List.length_map]
        exact ⟨hlen, (ngxStrncasecmp_word hlower (by decide +kernel) hlen10 hlen).mpr hfmt⟩
    simp only
    split
    · next hprom => exact iff_of_true rfl (Or.inl ⟨fmt, rfl, hword.mp hprom⟩)
    · next hjson =>
      refine iff_of_false (nomatch ·) ?_
      rintro (⟨fmt', hfmt, hprom⟩ | ⟨hnone, -⟩)
      · obtain rfl := Option.some.inj hfmt
        exact hjson (hword.mpr hprom)
      · exact nomatch hnone
  | none =>
    have hfirst : ∀ h, headers.find? (fun h => sameHeader h (ascii "accept")) = some h ↔
        h.key.map ngxTolower = ascii "accept" ∧ ∃ front back, headers = front ++ h :: back ∧
          ∀ h' ∈ front, h'.key.map ngxTolower ≠ ascii "accept" := by
      intro h
      rw [List.find?_eq_some_iff_append, hsame]
      simp only [Bool.not_eq_true', Bool.eq_false_iff, ne_eq, hsame]
    dsimp only
    split
    · next h hfind =>
      obtain ⟨hkey, front, back, hheaders, hfront⟩ := (hfirst h).mp hfind
      split
      · next hprom =>
        exact iff_of_true rfl (Or.inr ⟨rfl, front, h, back, hheaders, hkey, hfront, acceptsText_iff.mp hprom⟩)
      · next hjson =>
        refine iff_of_false (nomatch ·) ?_
        rintro (⟨fmt, hfmt, -⟩ | ⟨-, front', h', back', hheaders', hkey', hfront', hprom⟩)
        · exact nomatch hfmt
        · have hfind' := (hfirst h').mpr ⟨hkey', front', back', hheaders', hfront'⟩
          obtain rfl := Option.some.inj (hfind.symm.trans hfind')
          exact hjson (acceptsText_iff.mpr hprom)
    · next hfind =>
      refine iff_of_false (nomatch ·) ?_
      rintro (⟨fmt, hfmt, -⟩ | ⟨-, front, h, back, hheaders, hkey, hfront, -⟩)
      · exact nomatch hfmt
      · exact nomatch hfind.symm.trans ((hfirst h).mpr ⟨hkey, front, back, hheaders, hfront⟩)

theorem negotiateFormat_json {formatArg : Option Bytes} {headers : List TableElt}
    (h : ¬ AsksForText formatArg headers) : negotiateFormat formatArg headers = .json := by
  cases hfmt : negotiateFormat formatArg headers with
  | prometheus => exact absurd ((negotiateFormat_iff formatArg headers).mp hfmt) h
  | json => rfl

theorem metricsPage_served (req : MetricsRequest) (pagesize : Nat) (now : Int64) (snaps : List ZoneSnapshot)
    (m : Option PurgeMetrics) :
    ((metricsPage req pagesize now snaps m).header.isSome = true ↔ req.Served snaps) ∧
      ((metricsPage req pagesize now snaps m).body.isSome = true ↔ req.Served snaps ∧ req.TakesBody) := by
  rcases metricsPage_cases req pagesize now snaps m with ⟨hno, rc, hpage⟩ | ⟨hserved, out, hout, hpage⟩
  · rw [hpage]
    exact ⟨iff_of_false (by rintro ⟨⟩) hno, iff_of_false (by rintro ⟨⟩) fun h => hno h.1⟩
  · rw [hpage, sendPage_header]
    refine ⟨iff_of_true rfl hserved, ?_⟩
    rw [and_iff_right hserved, Option.isSome_iff_exists]
    constructor
    · rintro ⟨body, hbody⟩
      exact ((sendPage_body _ body).mp hbody).1
    · intro htakes
      exact ⟨out, (sendPage_body _ out).mpr ⟨htakes, rfl⟩⟩

/-- What is sent in a format. -/
theorem metricsPage_sends {fmt : MetricsFormat} (hfmt : negotiateFormat req.formatArg req.headers = fmt)
    (hdocument : snaps ≠ [] → metricsHandler fmt pagesize now snaps m = some document) :
    (∀ header, (metricsPage req pagesize now snaps m).header = some header →
      header = ⟨fmt.contentType, document.length, req.headerPush⟩) ∧
    ∀ body, (metricsPage req pagesize now snaps m).body = some body → body = document := by
  refine ⟨fun header h => ?_, fun body h => ?_⟩
  · obtain ⟨hserved, out, hout, rfl⟩ := (metricsPage_header header).mp h
    rw [hfmt, hdocument hserved.zones] at hout
    rw [hfmt, Option.some.inj hout]
  · obtain ⟨hserved, -, hout⟩ := (metricsPage_body body).mp h
    rw [hfmt, hdocument hserved.zones] at hout
    exact (Option.some.inj hout).symm

/-- A HEAD request gets the header that a GET one gets. -/
theorem metricsPage_head (hget : req.method = .get) (pagesize : Nat) (now : Int64) (snaps : List ZoneSnapshot)
    (m : Option PurgeMetrics) :
    (metricsPage { req with method := .head } pagesize now snaps m).header =
      (metricsPage req pagesize now snaps m).header := by
  have hserved : MetricsRequest.Served { req with method := .head } snaps ↔ req.Served snaps := by
    have hmethod : req.method ≠ .other := by
      rw [hget]
      rintro ⟨⟩
    exact ⟨fun h => ⟨hmethod, h.discard, h.zones, h.snapsAlloc, h.bufAlloc⟩,
      fun h => ⟨by rintro ⟨⟩, h.discard, h.zones, h.snapsAlloc, h.bufAlloc⟩⟩
  refine Option.ext fun header => ?_
  rw [metricsPage_header, metricsPage_header, hserved]

/-- The metrics endpoint. A page is sent exactly to a request that is served, and has a body
if this one takes it. The header says which of the two documents was asked for, and how long
it is; the body is this document, and a HEAD request gets the header that a GET one gets. -/
theorem page_format_iff (req : MetricsRequest) (pagesize : Nat) (now : Int64) (snaps : List ZoneSnapshot)
    (m : Option PurgeMetrics) :
    let page := metricsPage req pagesize now snaps m
    let text := writePrometheus (bufSize .prometheus pagesize snaps.length) snaps m
    let json := writeJson (bufSize .json pagesize snaps.length) now snaps m
    (negotiateFormat req.formatArg req.headers = .prometheus ↔ AsksForText req.formatArg req.headers) ∧
    (page.header.isSome = true ↔ req.Served snaps) ∧
    (page.body.isSome = true ↔ req.Served snaps ∧ req.TakesBody) ∧
    (∀ header, page.header = some header →
      (AsksForText req.formatArg req.headers → header =
        ⟨ascii "text/plain; version=0.0.4; charset=utf-8", text.length, req.headerPush⟩) ∧
      (¬ AsksForText req.formatArg req.headers → header =
        ⟨ascii "application/json", json.length, req.headerPush⟩)) ∧
    (∀ body, page.body = some body →
      (AsksForText req.formatArg req.headers → body = text) ∧
      (¬ AsksForText req.formatArg req.headers → body = json)) ∧
    (req.method = .get →
      (metricsPage { req with method := .head } pagesize now snaps m).header = page.header) := by
  intro page text json
  obtain ⟨hserved, htakes⟩ := metricsPage_served req pagesize now snaps m
  have htext : AsksForText req.formatArg req.headers → (∀ header, page.header = some header → header =
        ⟨ascii "text/plain; version=0.0.4; charset=utf-8", text.length, req.headerPush⟩) ∧
      ∀ body, page.body = some body → body = text :=
    fun hasks => metricsPage_sends ((negotiateFormat_iff _ _).mpr hasks) metricsHandler_prometheus
  have hjson : ¬ AsksForText req.formatArg req.headers → (∀ header, page.header = some header → header =
        ⟨ascii "application/json", json.length, req.headerPush⟩) ∧
      ∀ body, page.body = some body → body = json :=
    fun hasks => metricsPage_sends (negotiateFormat_json hasks) metricsHandler_json
  exact ⟨negotiateFormat_iff _ _, hserved, htakes,
    fun header h => ⟨fun hasks => (htext hasks).1 header h, fun hasks => (hjson hasks).1 header h⟩,
    fun body h => ⟨fun hasks => (htext hasks).2 body h, fun hasks => (hjson hasks).2 body h⟩,
    fun hget => metricsPage_head hget pagesize now snaps m⟩

/-! ## Names that fit -/

theorem uintWidth_le (n : Nat) : uintWidth n ≤ 20 := by
  rw [← printUint_width]
  exact printUint_length n

theorem intWidth_le (i : Int64) : intWidth i ≤ 20 := by
  have hlow := i.le_toInt
  have hhigh := i.toInt_lt
  have hdigits : digitCount i.toInt.natAbs ≤ 19 := digitCount_le (by decide) (by omega)
  unfold intWidth
  split <;> omega

theorem kindsWidth_le (counters : PurgeStats → Bool → Nat) : kindsWidth counters ≤ 160 := by
  have h := fun type soft => uintWidth_le (counters type soft)
  unfold kindsWidth
  linarith [h .exact false, h .exact true, h .wildcard false, h .wildcard true, h .tag false, h .tag true,
    h .all false, h .all true]

theorem countersWidth_le (snaps : List ZoneSnapshot) (m : Option PurgeMetrics) :
    countersWidth snaps m ≤ 380 := by
  have hpurges := kindsWidth_le fun type soft => metricsRead m fun m => m.purges type soft
  have hpurged := kindsWidth_le fun type soft => metricsRead m fun m => m.purged type soft
  have hfanout := uintWidth_le (metricsRead m (·.keyIndexExactFanout))
  have hhits := uintWidth_le (metricsRead m (·.keyIndexWildcardHits))
  have halloc := uintWidth_le (indexAllocFailures snaps).toNat
  unfold countersWidth
  linarith

theorem indexState_length (state : IndexState) : state.str.length ≤ 10 ∧ uintWidth state.code = 1 := by
  cases state <;> exact ⟨by decide +kernel, by decide +kernel⟩

theorem notReadyReason_length (reason : NotReadyReason) : reason.str.length ≤ 19 := by
  cases reason <;> decide +kernel

theorem coldStr_length (s : ZoneSnapshot) : s.coldStr.length ≤ 5 := by
  unfold ZoneSnapshot.coldStr
  split <;> decide +kernel

/-- Beside its name a zone takes 425 bytes of the JSON document at most. -/
theorem zone_jsonSize_le (s : ZoneSnapshot) : s.jsonSize ≤ 425 + s.name.length := by
  have hcold := coldStr_length s
  obtain ⟨hstate, hcode⟩ := indexState_length s.indexState
  have hsizes := Nat.add_le_add (intWidth_le s.size) (intWidth_le s.maxSize)
  have htotal := uintWidth_le (s.entriesValid + s.entriesExpired + s.entriesUpdating).toNat
  have hentries := Nat.add_le_add (Nat.add_le_add (uintWidth_le s.entriesValid.toNat)
    (uintWidth_le s.entriesExpired.toNat)) (uintWidth_le s.entriesUpdating.toNat)
  have htimes := Nat.add_le_add (Nat.add_le_add (intWidth_le s.indexMaxSize)
    (intWidth_le s.indexLastBootstrapAt)) (intWidth_le s.indexLastUpdatedAt)
  unfold ZoneSnapshot.jsonSize
  split
  · split
    · next reason _ =>
      have hreason := notReadyReason_length reason
      omega
    · omega
  · omega

/-- Beside its names a zone takes 835 bytes of the Prometheus text at most. -/
theorem zone_promSize_le (s : ZoneSnapshot) : s.promSize ≤ 835 + 12 * s.name.length := by
  obtain ⟨hstate, hcode⟩ := indexState_length s.indexState
  have hsizes := Nat.add_le_add (Nat.add_le_add (intWidth_le s.size) (intWidth_le s.maxSize))
    (uintWidth_le s.cold.toNat)
  have hentries := Nat.add_le_add (Nat.add_le_add (uintWidth_le s.entriesValid.toNat)
    (uintWidth_le s.entriesExpired.toNat)) (uintWidth_le s.entriesUpdating.toNat)
  have htimes := Nat.add_le_add (Nat.add_le_add (intWidth_le s.indexMaxSize)
    (intWidth_le s.indexLastUpdatedAt)) (intWidth_le s.indexLastBootstrapAt)
  unfold ZoneSnapshot.promSize
  split
  · split
    · next reason _ =>
      have hreason := notReadyReason_length reason
      omega
    · omega
  · omega

/-- The headers of the index metrics are printed again only after a zone without an index. -/
theorem indexRuns_le (prev : Bool) (snaps : List ZoneSnapshot) :
    2 * indexRuns prev snaps ≤ snaps.length + if prev then 0 else 1 := by
  induction snaps generalizing prev with
  | nil => exact Nat.zero_le _
  | cons s snaps ih =>
    have hrest := ih s.hasIndex
    unfold indexRuns
    rw [List.length_cons]
    cases hindex : s.hasIndex <;> cases prev <;> simp [hindex] at hrest ⊢ <;> omega

theorem sum_map_le {bound : Nat} {size : ZoneSnapshot → Nat} (h : ∀ s ∈ snaps, size s ≤ bound) :
    (snaps.map size).sum ≤ snaps.length * bound := by
  have hsum := List.sum_le_card_nsmul (snaps.map size) bound (List.forall_mem_map.mpr h)
  rwa [List.length_map] at hsum

theorem le_ngxAlign (d : Nat) {a : Nat} (ha : 0 < a) : d ≤ ngxAlign d a := by
  unfold ngxAlign
  have hdiv := Nat.div_add_mod (d + (a - 1)) a
  have hmod := Nat.mod_lt (d + (a - 1)) ha
  rw [Nat.mul_comm] at hdiv
  omega

theorem metricsHandler_json_fits (hpage : 0 < pagesize) (hne : snaps ≠ [])
    (hnames : ∀ z ∈ snaps, z.name.length ≤ 364) :
    metricsHandler .json pagesize now snaps m = some (jsonText now snaps m) ∧
      (jsonText now snaps m).length < bufSize .json pagesize snaps.length := by
  have hlen : 0 < snaps.length := List.length_pos_iff.mpr hne
  have hcounters := countersWidth_le snaps m
  have hzones : (snaps.map ZoneSnapshot.jsonSize).sum ≤ snaps.length * 789 :=
    sum_map_le fun z hz => (zone_jsonSize_le z).trans (Nat.add_le_add_left (hnames z hz) 425)
  have hnow := intWidth_le now
  have hsize : jsonSize now snaps m < bufSize .json pagesize snaps.length := by
    refine Nat.lt_of_lt_of_le ?_ (le_ngxAlign (512 + snaps.length * 1024) hpage)
    unfold jsonSize
    omega
  rw [← jsonText_length] at hsize
  refine ⟨?_, hsize⟩
  rw [metricsHandler_json hne]
  exact congrArg some (putAll_fits (Nat.le_of_lt hsize))

theorem metricsHandler_prometheus_fits (hpage : 0 < pagesize) (hne : snaps ≠ [])
    (hnames : ∀ z ∈ snaps, z.name.length ≤ 98) :
    metricsHandler .prometheus pagesize now snaps m = some (promText snaps m) ∧
      (promText snaps m).length < bufSize .prometheus pagesize snaps.length := by
  have hlen : 0 < snaps.length := List.length_pos_iff.mpr hne
  have hcounters := countersWidth_le snaps m
  have hzones : (snaps.map ZoneSnapshot.promSize).sum ≤ snaps.length * 2011 :=
    sum_map_le fun z hz => (zone_promSize_le z).trans
      (Nat.add_le_add_left (Nat.mul_le_mul_left 12 (hnames z hz)) 835)
  have hruns := indexRuns_le false snaps
  rw [if_neg Bool.false_ne_true] at hruns
  have hsize : promSize snaps m < bufSize .prometheus pagesize snaps.length := by
    refine Nat.lt_of_lt_of_le ?_ (le_ngxAlign (3072 + snaps.length * 2560) hpage)
    unfold promSize
    omega
  rw [← promText_length] at hsize
  refine ⟨?_, hsize⟩
  rw [metricsHandler_prometheus hne]
  exact congrArg some (putAll_fits (Nat.le_of_lt hsize))

/-- Whatever the counters, sizes and times are, the JSON document is complete if no zone has a
name of more than 364 bytes, and the Prometheus text if none has one of more than 98. -/
theorem short_names_fit (pagesize : Nat) (now : Int64) (snaps : List ZoneSnapshot) (m : Option PurgeMetrics)
    (hpage : 0 < pagesize) (hne : snaps ≠ []) :
    ((∀ z ∈ snaps, z.name.length ≤ 364) →
      metricsHandler .json pagesize now snaps m = some (jsonText now snaps m) ∧
        (jsonText now snaps m).length < bufSize .json pagesize snaps.length) ∧
    ((∀ z ∈ snaps, z.name.length ≤ 98) →
      metricsHandler .prometheus pagesize now snaps m = some (promText snaps m) ∧
        (promText snaps m).length < bufSize .prometheus pagesize snaps.length) :=
  ⟨metricsHandler_json_fits hpage hne, metricsHandler_prometheus_fits hpage hne⟩

theorem short_names_fit_sample :
    ((∀ z ∈ [sampleZone (ascii "z")], z.name.length ≤ 364) →
      metricsHandler .json 4096 0 [sampleZone (ascii "z")] none =
          some (jsonText 0 [sampleZone (ascii "z")] none) ∧
        (jsonText 0 [sampleZone (ascii "z")] none).length < bufSize .json 4096 1) ∧
    ((∀ z ∈ [sampleZone (ascii "z")], z.name.length ≤ 98) →
      metricsHandler .prometheus 4096 0 [sampleZone (ascii "z")] none =
          some (promText [sampleZone (ascii "z")] none) ∧
        (promText [sampleZone (ascii "z")] none).length < bufSize .prometheus 4096 1) :=
  short_names_fit 4096 0 [sampleZone (ascii "z")] none (by decide) (List.cons_ne_nil _ _)

/-! ## What the page says -/

/-- The JSON page of a server whose counters began at zero: whatever requests and reloads lie
behind it, it is one document that gives for each kind and mode the sum of what the requests
have counted as purged, and that has a member for each zone of the location. -/
theorem page_tells_purges (N : Nginx) (L : HeaderLayout) (access : IndexAccess) (history : History)
    (s s' : Pilot) (req : MetricsRequest) (pagesize : Nat) (now : Int64) (snaps : List ZoneSnapshot)
    (body : Bytes) (hpage : 0 < pagesize) (hnames : ∀ z ∈ snaps, z.name.length ≤ 364)
    (hplain : ∀ z ∈ snaps, ∀ c ∈ z.name, Json.Plain c) (hindex : IndexOk N s.shm)
    (hstart : s.metrics = metricsInitZone true none) (hserved : ServerRun N L access history s s')
    (hformat : negotiateFormat req.formatArg req.headers = .json)
    (hbody : (metricsPage req pagesize now snaps s'.metrics).body = some body) :
    ∃ v zones, Json.parse body = some v ∧
      v.member (ascii "purged") = some (kindsValue history.counted) ∧
      v.member (ascii "zones") = some (.object zones) ∧
      zones.map Prod.fst = snaps.map ZoneSnapshot.name := by
  obtain ⟨-, -, hdocument⟩ := (metricsPage_body body).mp hbody
  obtain ⟨m', hm', -, hsums⟩ := served_purged hserved hindex hstart
  rw [hformat, hm'] at hdocument
  cases snaps with
  | nil => exact nomatch hdocument
  | cons z zs =>
    rw [(metricsHandler_json_fits hpage (List.cons_ne_nil z zs) hnames).1] at hdocument
    obtain rfl := Option.some.inj hdocument
    have hpurged : (fun type soft => metricsRead (some m') fun m => m.purged type soft) = history.counted := by
      funext type soft
      exact (hsums type soft).trans (Nat.zero_add _)
    refine ⟨_, _, parse_document hplain, ?_, member_zones now (z :: zs) (some m') _ [], ?_⟩
    · rw [← hpurged]
      rfl
    · unfold zonesMembers
      rw [List.map_map]
      rfl

def sampleGet : MetricsRequest where
  method := .get
  discard := none
  formatArg := none
  headers := []
  snapsAlloc := true
  bufAlloc := true
  headerPush := true
  sendHeader := 0
  headerOnly := false
  bodyAlloc := true
  outputFilter := 0

def samplePage : Bytes :=
  writeJson (bufSize .json 4096 1) 0 [sampleZone (ascii "z")] hardServed.metrics

/-- After a soft and a hard purge. -/
theorem page_tells_purges_sample :
    ∃ v zones, Json.parse samplePage = some v ∧
      v.member (ascii "purged") = some (kindsValue sampleHistory.counted) ∧
      v.member (ascii "zones") = some (.object zones) ∧ zones.map Prod.fst = [ascii "z"] :=
  page_tells_purges .reference .reference sampleAccess sampleHistory countingState hardServed sampleGet 4096 0
    [sampleZone (ascii "z")] samplePage (by decide) (by decide +kernel) (by decide +kernel)
    variantState_indexOk rfl (.purge rfl (.purge rfl (.done _))) rfl rfl

end CachePilot
