import CachePilot.Live.LogPhase
import CachePilot.Scan.Recursive
import CachePilot.Store.Readiness

/-!
# Reloads

`bootstrap_complete` lies in shared memory and outlives the configuration under which
it was set. A worker that starts does not scan a zone that is ready, whether the
files have been indexed in the meantime, and by which headers, or not.

Results:
* `readiness_survives`: a run of reloads, writes and starts after which a zone that is
  ready has the right entry of every file;
* `reload_keeps_readiness`: a run that stores a file while the cache is not registered.
-/

namespace CachePilot
open NgxString

/-! ## A server over its reloads -/

/-- `ngx_http_cache_index_store_init_zone`: what it finds of an earlier cycle, or else
in the segment. -/
def initZone (octx segment : Option Shm) : Shm :=
  match octx with
  | some sh => sh
  | none => segment.getD .init

/-- `ngx_http_cache_index_try_bootstrap_zones` on one zone, of which `headers` is the
list if the configuration registers it. A zone whose loader is cold has its turn
later. -/
def tryBootstrapZone (N : Nginx) (alloc : AllocSite → Bool) (now : Int) (zoneName : Bytes)
    (headers : Option (List Bytes)) (root : FsNode) (path : Bytes) (shm : Shm) : NgxRc × Shm :=
  match headers with
  | none => (.ok, shm)
  | some headers =>
    if (getZoneState now shm zoneName).bootstrapComplete then (.ok, shm)
    else
      match bootstrapZone N alloc now zoneName headers root path shm with
      | (.ok, shm) => (.ok, shm)
      | (_, shm) => (.error, shm)

/-- Every file has an entry with the tags of the response that it holds. -/
def Live.Tagged (zoneName : Bytes) (wanted : List Bytes) (s : Live) : Prop :=
  ∀ p response, s.stored p = some response →
    ∃ key, toMap s.shm zoneName p = some (key, tagsOf wanted response.headers)

/-- What is on disk are cache files as nginx lays them out. -/
def CacheFiles (stored : Bytes → Option StoredResponse) : Prop :=
  ∀ p response, stored p = some response → pathKnown p = true ∧ response.WellFormed

/-- The files and the index of a cache, and the header list with which the
configuration registers it, if it does. `listed` is history: the list of the last
configuration that did. -/
structure Server where
  live : Live
  headers : Option (List Bytes)
  listed : List Bytes

inductive ServerEvent
  | reload (headers : Option (List Bytes))
  | write (r : LiveRequest) (response : StoredResponse)
  | start (now : Int) (root : FsNode) (path : Bytes)

namespace Server

/-- A server that starts over the files of a cache. -/
def fresh (stored : Bytes → Option StoredResponse) : Server where
  live := ⟨stored, .init⟩
  headers := none
  listed := []

/-- One event: a reload that keeps the shared memory, a response that is stored, or
the bootstrap of a worker that has started. -/
def step (N : Nginx) (zoneName : Bytes) (s : Server) : ServerEvent → Server
  | .reload headers =>
    { live := { s.live with shm := initZone (some s.live.shm) none }
      headers := headers
      listed := headers.getD s.listed }
  | .write r response => { s with live := s.live.request N r (.stored response) }
  | .start now root path =>
    { s with
      live :=
        { s.live with
          shm := (tryBootstrapZone N (fun _ => true) now zoneName s.headers root path s.live.shm).2 } }

/-- A scan gets to every file and reads it to its end. -/
def Sees (headers : List Bytes) (root : FsNode) (path : Bytes)
    (stored : Bytes → Option StoredResponse) : Prop :=
  ∀ p response, stored p = some response → ∃ mtime,
    lastVisit (root.visits headers 0 path) p =
      some (parsedEntry .full p (some ⟨mtime, response.file.length⟩) (some response.file) headers)

/-- Whether an event can happen, with no allocation and no scan failing: a request
finds the zone that the configuration registers. -/
def Happens (N : Nginx) (zoneName : Bytes) (s : Server) : ServerEvent → Prop
  | .reload _ => True
  | .write r response =>
    CachePilot.Happens s.live r (.stored response) ∧ r.zone = s.headers.map (fun _ => zoneName) ∧
      r.Allocates ∧ response.WellFormed ∧
      ∀ cache, r.cache = some cache → pathKnown cache.name = true
  | .start now root path =>
    (tryBootstrapZone N (fun _ => true) now zoneName s.headers root path s.live.shm).1 = .ok ∧
      ∀ headers, s.headers = some headers → Sees headers root path s.live.stored

/-- A zone that is ready has an entry of every file, with the tags that its headers
give under the list of the configuration. -/
def Right (zoneName : Bytes) (s : Server) : Prop :=
  ∀ now headers, s.headers = some headers →
    (getZoneState now s.live.shm zoneName).bootstrapComplete = true →
    s.live.Tagged zoneName headers

end Server

/-- Whether the log phase of a request that stores a response writes its entry. -/
def LiveRequest.writes (r : LiveRequest) : Bool :=
  locationEnabled r.conf && r.zone.isSome && r.writer

/-- An event that keeps a ready zone right. A reload that registers the cache leaves
the tags of its files what they are. A response that is indexed when it is stored has
the same tags under the list of its location; one that is not takes the place of a
response with the same tags. A scan, which only a zone that is not ready gets, reads
back the tags of each file. -/
def Server.Keeps (zoneName : Bytes) (s : Server) : ServerEvent → Prop
  | .reload headers =>
    zoneReady s.live.shm zoneName = true → ∀ list, headers = some list →
      ∀ p response, s.live.stored p = some response →
        tagsOf list response.headers = tagsOf s.listed response.headers
  | .write r response =>
    zoneReady s.live.shm zoneName = true →
      if r.writes then tagsOf r.wanted response.headers = tagsOf s.listed response.headers
      else ∀ cache, r.cache = some cache → ∃ old, s.live.stored cache.name = some old ∧
        tagsOf s.listed old.headers = tagsOf s.listed response.headers
  | .start _ _ _ =>
    zoneReady s.live.shm zoneName = false → ∀ list, s.headers = some list →
      ∀ p response, s.live.stored p = some response → response.TagsReadable list

/-- The states that a server reaches when each event meets a condition. -/
inductive Served (N : Nginx) (zoneName : Bytes) (meets : Server → ServerEvent → Prop) (s0 : Server) :
    Server → Prop
  | refl : Served N zoneName meets s0 s0
  | step {s : Server} {e : ServerEvent} : Served N zoneName meets s0 s → s.Happens N zoneName e →
      meets s e → Served N zoneName meets s0 (s.step N zoneName e)

/-! ## The log phase of a zone that is ready -/

variable {N : Nginx} {s : Server} {zoneName : Bytes} {r : LiveRequest} {response : StoredResponse}
  {shm : Shm} {list : List Bytes}

theorem logPhase_ok (h : ShmOk N shm) (r : LiveRequest) : ShmOk N (logPhase N r shm) := by
  rcases logPhase_cases N r shm with hsame | ⟨cache, z, -, -, -, hup⟩
  · rw [hsame]
    exact h
  · rw [hup]
    exact (upsertFileMeta_spec h _ _ _ _ _ _ _ _).2.1.ok

theorem logPhase_ready (h : ShmOk N shm) (r : LiveRequest) (zoneName : Bytes) :
    zoneReady (logPhase N r shm) zoneName = zoneReady shm zoneName := by
  rcases logPhase_cases N r shm with hsame | ⟨cache, z, -, -, -, hup⟩
  · rw [hsame]
  · rw [hup]
    exact upsertFileMeta_ready h _ _ _ _ _ _ _ _ _

/-- A response that is stored and not indexed leaves the index alone. -/
theorem logPhase_unindexed (h : r.writes = false) (shm : Shm) : logPhase N r shm = shm := by
  rcases logPhase_cases N r shm with hsame | ⟨cache, z, hcache, hzone, hwriter, -⟩
  · exact hsame
  · unfold LiveRequest.writes at h
    rw [hzone, hwriter] at h
    have hdisabled : locationEnabled r.conf = false := by simpa using h
    have hlate : lateCapture r none = none := by
      unfold lateCapture
      simp only [hdisabled, Bool.not_false, if_true]
      split
      · rfl
      · rfl
    have hnone : logHandler N r none shm = shm := by
      unfold logHandler
      rw [hcache, hlate]
      simp only
      split
      · rfl
      · rfl
    have hfilter : headerFilter r = .ok none := by
      unfold headerFilter
      rw [hcache, hdisabled]
      cases r.upstream with
      | none => rfl
      | some upstream =>
        simp only [Bool.not_false, if_true]
        split
        · rfl
        · rfl
    unfold logPhase
    rw [hfilter]
    exact hnone

/-- The files behind a response that is stored. -/
theorem Live.request_stored {cache : RequestCache} (h : r.cache = some cache) (live : Live) :
    (live.request N r (.stored response)).stored =
      Function.update live.stored cache.name (some response) := by
  unfold Live.request
  simp only [h]

/-! ## Events that keep a zone right -/

/-- What holds after each event: a ready zone has the entries that the last list gives. -/
structure Server.Inv (N : Nginx) (zoneName : Bytes) (s : Server) : Prop where
  ok : ShmOk N s.live.shm
  files : CacheFiles s.live.stored
  tagged : zoneReady s.live.shm zoneName = true → s.live.Tagged zoneName s.listed
  headers : ∀ list, s.headers = some list → s.listed = list

theorem Server.Inv.reload (h : s.Inv N zoneName) (headers : Option (List Bytes))
    (hk : s.Keeps zoneName (.reload headers)) :
    (s.step N zoneName (.reload headers)).Inv N zoneName where
  ok := h.ok
  files := h.files
  tagged hready p response hp := by
    change zoneReady s.live.shm zoneName = true at hready
    obtain ⟨key, hentry⟩ := h.tagged hready p response hp
    refine ⟨key, ?_⟩
    show toMap s.live.shm zoneName p = some (key, tagsOf (headers.getD s.listed) response.headers)
    rw [hentry]
    cases headers with
    | none => rfl
    | some list => rw [Option.getD_some, hk hready list rfl p response hp]
  headers list hl := by
    change headers = some list at hl
    show headers.getD s.listed = list
    rw [hl, Option.getD_some]

/-- A response that is stored in a ready zone is written, or takes the place of one that
has its tags. -/
theorem Server.Inv.write_tagged (h : s.Inv N zoneName)
    (hh : s.Happens N zoneName (.write r response)) (hk : s.Keeps zoneName (.write r response))
    (hready : zoneReady s.live.shm zoneName = true) :
    (s.live.request N r (.stored response)).Tagged zoneName s.listed := by
  obtain ⟨hstored, hzone, halloc, -, -⟩ := hh
  have hkeeps := hk hready
  cases hstored with
  | @stored cache upstream _ captured hcache hname hup hcacheable hfilter hkeys hheaders =>
    intro p new hp
    rw [Live.request_stored hcache] at hp
    show ∃ key, toMap (logPhase N r s.live.shm) zoneName p = _
    cases hwrites : r.writes with
    | true =>
      rw [hwrites, if_pos rfl] at hkeeps
      unfold LiveRequest.writes at hwrites
      simp only [Bool.and_eq_true] at hwrites
      obtain ⟨⟨henabled, hsome⟩, hwriter⟩ := hwrites
      have hindexed : r.Indexed zoneName := by
        refine ⟨henabled, ?_⟩
        rw [hzone] at hsome ⊢
        cases hs : s.headers with
        | none =>
          rw [hs] at hsome
          exact nomatch hsome
        | some list => rfl
      rw [logPhase_stored hindexed hcache hname hup hcacheable hwriter halloc, upsert_entry h.ok]
      cases hd : decide (p = cache.name) with
      | true =>
        obtain rfl := of_decide_eq_true hd
        rw [Function.update_self] at hp
        obtain rfl := Option.some.inj hp
        rw [if_pos rfl, ← hkeeps, hheaders]
        exact ⟨_, rfl⟩
      | false =>
        have hne := of_decide_eq_false hd
        rw [Function.update_of_ne hne] at hp
        rw [if_neg hne]
        exact h.tagged hready p new hp
    | false =>
      rw [hwrites] at hkeeps
      rw [logPhase_unindexed hwrites]
      cases hd : decide (p = cache.name) with
      | true =>
        obtain rfl := of_decide_eq_true hd
        rw [Function.update_self] at hp
        obtain rfl := Option.some.inj hp
        obtain ⟨old, hold, htags⟩ := hkeeps cache hcache
        rw [← htags]
        exact h.tagged hready cache.name old hold
      | false =>
        rw [Function.update_of_ne (of_decide_eq_false hd)] at hp
        exact h.tagged hready p new hp

theorem Server.Inv.write (h : s.Inv N zoneName)
    (hh : s.Happens N zoneName (.write r response)) (hk : s.Keeps zoneName (.write r response)) :
    (s.step N zoneName (.write r response)).Inv N zoneName where
  ok := logPhase_ok h.ok r
  files p new hp := by
    obtain ⟨hstored, -, -, hwell, hknown⟩ := hh
    cases hstored with
    | @stored cache upstream _ captured hcache hname hup hcacheable hfilter hkeys hheaders =>
      change (s.live.request N r (.stored response)).stored p = some new at hp
      rw [Live.request_stored hcache] at hp
      cases hd : decide (p = cache.name) with
      | true =>
        obtain rfl := of_decide_eq_true hd
        rw [Function.update_self] at hp
        obtain rfl := Option.some.inj hp
        exact ⟨hknown cache hcache, hwell⟩
      | false =>
        rw [Function.update_of_ne (of_decide_eq_false hd)] at hp
        exact h.files p new hp
  tagged hready := by
    refine h.write_tagged hh hk ?_
    rw [← hready]
    exact (logPhase_ready h.ok r zoneName).symm
  headers := h.headers

/-- Without configured headers a scan reads as it does with none of them on the list. -/
theorem parseFile_none (pool : ParsePool) (path : Bytes) (info : Option FileInfo)
    (read : Option Bytes) :
    parseFile pool path info read none = parseFile pool path info read (some []) := by
  have hline : ∀ rest st, parseLine pool none rest st = parseLine pool (some []) rest st := by
    intro rest st
    unfold parseLine
    cases parseKeyLine pool rest st.1 with
    | error rc => rfl
    | ok key => rfl
  have hlines : ∀ lineStart buf st,
      parseLines pool none lineStart buf st = parseLines pool (some []) lineStart buf st := by
    intro lineStart buf
    induction buf generalizing lineStart with
    | nil => exact fun _ => rfl
    | cons c buf ih =>
      intro st
      unfold parseLines
      simp only [hline, ih]
  unfold parseFile
  simp only [hlines]

/-- What the scan makes of a file whose tags it reads back. -/
theorem parsedEntry_stored (hr : response.WellFormed) {p : Bytes} (hp : pathKnown p = true)
    (ht : response.TagsReadable list) (mtime : Int) :
    ∃ key, parsedEntry .full p (some ⟨mtime, response.file.length⟩) (some response.file) list =
      some (key, tagsOf list response.headers) := by
  have htags := (hr.tags_iff list).mpr ht
  refine ⟨((response.visible.sources.map Prod.snd).findSome? keyAt).getD [], ?_⟩
  unfold parsedEntry
  cases list with
  | nil =>
    have hnone : headerTokens response.headers [] = [] := by
      unfold headerTokens
      exact List.flatMap_eq_nil_iff.mpr fun _ _ => rfl
    rw [if_pos rfl, parseFile_none, hr.parseFile_eq [] hp mtime]
    unfold tagsOf
    rw [hnone]
    rfl
  | cons w list =>
    have hne := List.cons_ne_nil w list
    rw [if_neg hne, hr.parseFile_eq (w :: list) hp mtime]
    show some (_, if w :: list = [] then [] else _) = _
    rw [if_neg hne, htags]
    rfl

/-- A zone that is not ready is scanned, and what is scanned is described. -/
theorem Server.Inv.start (h : s.Inv N zoneName) (now : Int) (root : FsNode) (path : Bytes)
    (hh : s.Happens N zoneName (.start now root path)) (hk : s.Keeps zoneName (.start now root path)) :
    (s.step N zoneName (.start now root path)).Inv N zoneName := by
  obtain ⟨hok, hsees⟩ := hh
  have hshm : ∀ shm, tryBootstrapZone N (fun _ => true) now zoneName s.headers root path s.live.shm =
        (.ok, shm) → ShmOk N shm ∧
      (zoneReady shm zoneName = true → ({ s.live with shm := shm } : Live).Tagged zoneName s.listed) := by
    intro shm htry
    unfold tryBootstrapZone at htry
    cases hheaders : s.headers with
    | none =>
      rw [hheaders] at htry
      obtain rfl := (Prod.mk.inj htry).2
      exact ⟨h.ok, h.tagged⟩
    | some list =>
      rw [hheaders] at htry
      simp only [getZoneState_complete] at htry
      cases hready : zoneReady s.live.shm zoneName with
      | true =>
        rw [hready, if_pos rfl] at htry
        obtain rfl := (Prod.mk.inj htry).2
        exact ⟨h.ok, h.tagged⟩
      | false =>
        rw [hready] at htry
        have hvisits := bootstrapZone_visits h.ok now zoneName list root path
        simp only [Bool.false_eq_true, if_false] at htry
        generalize bootstrapZone N (fun _ => true) now zoneName list root path s.live.shm = result
          at hvisits htry
        obtain ⟨rc, shm'⟩ := result
        cases rc with
        | ok =>
          obtain rfl := (Prod.mk.inj htry).2
          obtain ⟨hshm, hmap⟩ := hvisits rfl
          refine ⟨hshm, fun _ p response hp => ?_⟩
          obtain ⟨hknown, hwell⟩ := h.files p response hp
          obtain ⟨mtime, hlast⟩ := hsees list hheaders p response hp
          obtain ⟨key, hentry⟩ :=
            parsedEntry_stored hwell hknown (hk hready list hheaders p response hp) mtime
          refine ⟨key, ?_⟩
          show toMap shm' zoneName p = _
          change toMap shm' = _ at hmap
          rw [hmap, IndexMap.setAll_apply, hlast, h.headers list hheaders]
          exact hentry
        | _ => exact nomatch (Prod.mk.inj htry).1
  have hresult := hshm _ (Prod.ext hok rfl)
  exact ⟨hresult.1, h.files, hresult.2, h.headers⟩

theorem Server.Inv.fresh {stored : Bytes → Option StoredResponse} (h : CacheFiles stored) :
    (Server.fresh stored).Inv N zoneName where
  ok := ShmOk.init
  files := h
  tagged hready := nomatch hready
  headers _ hl := nomatch hl

/-! ## Reloads of a ready zone -/

/-- In a run whose events keep a ready zone right, every file has the tags that the list
of the configuration gives whenever the zone is reported ready. -/
theorem readiness_survives (N : Nginx) (zoneName : Bytes) (stored : Bytes → Option StoredResponse)
    (hfiles : CacheFiles stored) (s : Server)
    (hr : Served N zoneName (Server.Keeps zoneName) (Server.fresh stored) s) : s.Right zoneName := by
  have hinv : s.Inv N zoneName := by
    induction hr with
    | refl => exact .fresh hfiles
    | @step s e _ hh hk ih =>
      cases e with
      | reload headers => exact ih.reload headers hk
      | write r response => exact ih.write hh hk
      | start now root path => exact ih.start now root path hh hk
  intro now list hlist hready
  rw [getZoneState_complete] at hready
  have htagged := hinv.tagged hready
  rwa [hinv.headers list hlist] at htagged

/-- A file of the cache `c`, with a name of thirty-two characters. -/
def reloadPath : Bytes := 99 :: samplePath

/-- The request that stores it. -/
def reloadRequest (zone : Option Bytes) : LiveRequest :=
  { sampleRequest 116 true .miss with zone := zone, cache := some ⟨reloadPath, [[107]]⟩ }

/-- The cache directory with the file, which can be read. -/
def reloadTree : FsNode :=
  .dir true (.cons (List.replicate 32 97) .reg
    { readableCalls with
      info := some ⟨1, (sampleStored 116).file.length⟩
      read := some (sampleStored 116).file } .file .nil)

def reloadServer (events : List ServerEvent) : Server :=
  events.foldl (Server.step .reference [122]) (.fresh fun _ => none)

theorem sampleStored_wellFormed : (sampleStored 116).WellFormed :=
  ⟨by decide, by decide, by decide, by decide +kernel, by decide +kernel⟩

theorem reloadRequest_happens (zone : Option Bytes) (live : Live) :
    CachePilot.Happens live (reloadRequest zone) (.stored (sampleStored 116)) := by
  cases zone with
  | none =>
    have hfilter : headerFilter (reloadRequest none) = .ok none := by rfl
    exact .stored rfl (by decide) rfl rfl hfilter rfl rfl
  | some z =>
    have hfilter : headerFilter (reloadRequest (some z)) = .ok (some ⟨[[116]], z⟩) := by rfl
    exact .stored rfl (by decide) rfl rfl hfilter rfl rfl

theorem reloadServer_writes (server : Server) (zone : Option Bytes)
    (h : zone = server.headers.map fun _ => [122]) :
    server.Happens .reference [122] (.write (reloadRequest zone) (sampleStored 116)) := by
  refine ⟨reloadRequest_happens zone _, h, ⟨rfl, rfl, rfl, rfl, rfl⟩, sampleStored_wellFormed, ?_⟩
  rintro cache hcache
  obtain rfl := Option.some.inj hcache
  decide

/-- The cache is registered, and the scan finds no file. -/
theorem emptyStart_happens :
    (reloadServer [.reload (some [[84]])]).Happens .reference [122] (.start 1 (.dir true .nil) [99]) := by
  refine ⟨?_, fun _ _ _ _ h => nomatch h⟩
  show (tryBootstrapZone .reference (fun _ => true) 1 [122] (some [[84]]) (.dir true .nil) [99]
    .init).1 = .ok
  decide +kernel

theorem readiness_survives_sample :
    (reloadServer [.reload (some [[84]]), .start 1 (.dir true .nil) [99],
      .write (reloadRequest (some [122])) (sampleStored 116)]).Right [122] := by
  refine readiness_survives .reference [122] (fun _ => none) (fun _ _ h => nomatch h) _ ?_
  have hreload : Served .reference [122] (Server.Keeps [122]) (.fresh fun _ => none)
      (reloadServer [.reload (some [[84]])]) :=
    Served.step .refl (e := .reload (some [[84]])) trivial fun h => nomatch h
  have hstart : Served .reference [122] (Server.Keeps [122]) (.fresh fun _ => none)
      (reloadServer [.reload (some [[84]]), .start 1 (.dir true .nil) [99]]) :=
    Served.step hreload emptyStart_happens fun _ _ _ _ _ h => nomatch h
  exact Served.step hstart (reloadServer_writes _ (some [122]) rfl) fun _ => rfl

/-- The events of a cache that is not registered when its file is stored. -/
def unregisteredRun : List ServerEvent :=
  [.reload (some [[84]]), .start 1 (.dir true .nil) [99], .reload none,
    .write (reloadRequest none) (sampleStored 116), .reload (some [[84]]), .start 2 reloadTree [99]]

/-- The file is stored while the cache is not registered. When it is again, the zone
is still ready, and the file has no entry. -/
theorem reload_keeps_readiness :
    Served .reference [122] (fun _ _ => True) (.fresh fun _ => none) (reloadServer unregisteredRun) ∧
      ¬ (reloadServer unregisteredRun).Right [122] := by
  constructor
  · have hreload : Served .reference [122] (fun _ _ => True) (.fresh fun _ => none)
        (reloadServer [.reload (some [[84]])]) :=
      Served.step .refl (e := .reload (some [[84]])) trivial trivial
    have hready : Served .reference [122] (fun _ _ => True) (.fresh fun _ => none)
        (reloadServer (unregisteredRun.take 3)) :=
      Served.step (Served.step hreload emptyStart_happens trivial) (e := .reload none) trivial trivial
    have hstored : Served .reference [122] (fun _ _ => True) (.fresh fun _ => none)
        (reloadServer (unregisteredRun.take 5)) :=
      Served.step (Served.step hready (reloadServer_writes _ none rfl) trivial)
        (e := .reload (some [[84]])) trivial trivial
    refine Served.step hstored (e := .start 2 reloadTree [99]) ⟨by decide +kernel, ?_⟩ trivial
    -- the scan that does not take place would have got to the file
    intro headers hheaders p response hp
    obtain rfl := Option.some.inj hheaders
    cases hd : decide (p = reloadPath) with
    | true =>
      obtain rfl := of_decide_eq_true hd
      obtain rfl := Option.some.inj hp
      exact ⟨1, by decide +kernel⟩
    | false =>
      have hother : (reloadServer (unregisteredRun.take 5)).live.stored p = none :=
        Function.update_of_ne (of_decide_eq_false hd) _ _
      have hgone : none = some response := hother.symm.trans hp
      exact nomatch hgone
  · intro hright
    have hnone : toMap (reloadServer unregisteredRun).live.shm [122] reloadPath = none := by
      decide +kernel
    have hready : (getZoneState 3 (reloadServer unregisteredRun).live.shm [122]).bootstrapComplete =
        true := by decide +kernel
    obtain ⟨key, hentry⟩ := hright 3 [[84]] rfl hready reloadPath (sampleStored 116) rfl
    rw [hnone] at hentry
    exact nomatch hentry

end CachePilot
