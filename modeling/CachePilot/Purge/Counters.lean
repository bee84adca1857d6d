import CachePilot.Purge.Attempts

/-!
# Counters

What a purge reports and counts, against the files that it removed or expired.

Results:
* `exact_count_iff`: when an exact purge that is answered 200 reports and counts the
  files that it purged;
* `soft_exact_counts_twice`: a soft one that counts its own file twice;
* `failed_purge_accounted_iff`: when a purge that breaks off has counted what it had
  purged by then;
* `broken_purge_loses_count`: one that has removed a file and has not counted it.
-/

namespace CachePilot
open NgxString

variable {N : Nginx} {L : HeaderLayout} {access : IndexAccess} {r : PurgeRequest} {s : Pilot}
  {files : Files L} {soft : Bool} {o : OpenedCache} {opened : CacheOpen} {call : PurgeCall}

/-! ## Loops for which nothing fails -/

/-- A loop over different paths purges those that are on disk. -/
theorem loopTrail_works {calls : Nat → FileCalls} {one : Nat → Bytes → Pilot → NgxRc × Pilot}
    (hone : ∀ k path s (files : Files L), s.cache.disk = files.disk →
      ByPath (calls k) soft path files ((one k path s).1, (one k path s).2.cache))
    (hcalls : ∀ k, calls k = .works) (hd : s.cache.disk = files.disk) {paths : List Bytes}
    (hn : paths.Nodup) (k : Nat) :
    (loopTrail one k paths s).broken = false ∧
      purgedPaths (loopTrail one k paths s).tried = paths.filter fun p => (files p).isSome := by
  induction paths generalizing k s files with
  | nil => exact ⟨rfl, rfl⟩
  | cons path paths ih =>
    obtain ⟨hnot, hn⟩ := List.nodup_cons.mp hn
    have hstep := hone k path s files hd
    unfold loopTrail
    cases hr : one k path s with | mk rc s1 =>
    rw [hr] at hstep
    cases hstep with
    | purged hsome hd1 =>
      obtain ⟨hb, hp⟩ := ih hd1 hn (k + 1)
      refine ⟨hb, ?_⟩
      show purgedPaths (⟨path, .ok⟩ :: _) = _
      have hcons : ((path :: paths).filter fun p => (files p).isSome) =
          path :: paths.filter fun p => (files p).isSome := List.filter_cons_of_pos hsome
      rw [purgedPaths_cons, if_pos rfl, hp, hcons]
      refine congrArg _ (List.filter_congr fun p hmem => ?_)
      have hne : p ≠ path := fun h => hnot (h ▸ hmem)
      rw [Files.purge_other files hne]
    | missing hnone hd1 =>
      obtain ⟨hb, hp⟩ := ih hd1 hn (k + 1)
      refine ⟨hb, ?_⟩
      show purgedPaths (⟨path, .declined⟩ :: _) = _
      have hcons : ((path :: paths).filter fun p => (files p).isSome) =
          paths.filter fun p => (files p).isSome := List.filter_cons_of_neg (by simp [hnone])
      rw [purgedPaths_cons, if_neg (by rintro ⟨⟩), hp, hcons]
    | vanished hw _ _ => exact absurd (hcalls k) hw
    | failed hw _ => exact absurd (hcalls k) hw

theorem keyedPaths_nodup {rs : List Record} (h : (rs.map Record.path).Nodup) (key : Bytes) :
    (keyedPaths rs key).Nodup := by
  unfold keyedPaths
  split
  · exact List.nodup_nil
  · exact h.sublist (List.filter_sublist.map Record.path)

theorem otherRecords_nodup {rs : List Record} (h : (rs.map Record.path).Nodup) (path : Bytes) :
    ((otherRecords rs path).map Record.path).Nodup :=
  h.sublist (List.filter_sublist.map Record.path)

theorem fanoutRecords_nodup {rs : List Record} (h : (rs.map Record.path).Nodup) (soft : Bool)
    (o : OpenedCache) : ((fanoutRecords soft o rs).map Record.path).Nodup := by
  cases soft with
  | true => exact h
  | false => exact otherRecords_nodup h o.name

/-- The fanout purges what is on disk of the paths that it gets. -/
theorem fanoutTrail_works (access : IndexAccess) (hindex : IndexOk N s.shm)
    (hd : s.cache.disk = files.disk) (hworks : r.FilesWork) (soft : Bool) (o : OpenedCache) :
    let t := fanoutTrail N L access r soft o s
    let rs := shownRecords access s.shm
    t.broken = false ∧
      (FanoutRuns r soft o rs → purgedPaths t.tried =
        (keyedPaths (fanoutRecords soft o rs) (cacheKey r.keys)).filter fun p => (files p).isSome) ∧
      (¬ FanoutRuns r soft o rs → purgedPaths t.tried = []) := by
  intro t rs
  have ht : t = fanoutTrail N L access r soft o s := rfl
  have hcache := fanoutList_cache N access r s soft o
  rw [fanoutTrail_eq] at ht
  cases hlist : fanoutList N access r soft o s with | mk list s1 =>
  rw [hlist] at ht hcache
  cases list with
  | none =>
    simp only at ht
    rw [ht]
    refine ⟨rfl, fun hruns => ?_, fun _ => rfl⟩
    cases hready : access.ready with
    | none =>
      have hrs : rs = [] := by simp only [rs, shownRecords, hready]
      have hnil : keyedPaths (fanoutRecords soft o []) (cacheKey r.keys) = [] := by
        cases soft with
        | true => exact ite_self _
        | false => exact ite_self _
      rw [hrs, hnil]
      rfl
    | some zoneName =>
      have hrs : rs = recordsOf s.shm zoneName := by simp only [rs, shownRecords, hready]
      have hkeys : r.keys ≠ [] := fun hnil => hruns.key (by rw [hnil]; rfl)
      have hsome := (fanoutList_spec hready hindex hkeys soft o).1 (hrs ▸ hruns)
      rw [hlist] at hsome
      exact nomatch hsome
  | some list =>
    have hsome : (fanoutList N access r soft o s).1 = some list := by rw [hlist]
    obtain ⟨hready, hkeys⟩ := fanoutList_some hsome
    obtain ⟨hruns, hempty⟩ := fanoutList_spec hready hindex hkeys soft o
    have hrs : rs = recordsOf s.shm list.1 := by simp only [rs, shownRecords, hready]
    rw [← hrs, hsome] at hruns hempty
    have hnodup : list.2.Nodup := by
      by_cases h : FanoutRuns r soft o rs
      · rw [Option.some.inj (hruns h)]
        refine keyedPaths_nodup ?_ _
        rw [hrs]
        exact fanoutRecords_nodup (hindex.ok.recordsOf_paths list.1) soft o
      · rw [hempty h list rfl]
        exact List.nodup_nil
    have hloop := loopTrail_works (fun k path s files hd => fanoutTurn_spec hd N r soft list.1 k path)
      hworks.calls (hcache ▸ hd) hnodup 0
    rw [ht]
    refine ⟨hloop.1, fun h => ?_, fun h => ?_⟩
    · rw [hloop.2, Option.some.inj (hruns h)]
    · rw [hloop.2, hempty h list rfl]
      rfl

theorem shownRecords_nodup (access : IndexAccess) (hindex : IndexOk N s.shm) :
    ((shownRecords access s.shm).map Record.path).Nodup := by
  unfold shownRecords
  cases access.ready with
  | none => exact List.nodup_nil
  | some zoneName => exact hindex.ok.recordsOf_paths zoneName

/-- No fanout purges a file twice. -/
theorem fanoutTrail_nodup (access : IndexAccess) (hindex : IndexOk N s.shm)
    (hd : s.cache.disk = files.disk) (hworks : r.FilesWork) (soft : Bool) (o : OpenedCache) :
    (purgedPaths (fanoutTrail N L access r soft o s).tried).Nodup := by
  obtain ⟨-, hruns, halone⟩ := fanoutTrail_works access hindex hd hworks soft o
  by_cases hr : FanoutRuns r soft o (shownRecords access s.shm)
  · rw [hruns hr]
    have hfan := fanoutRecords_nodup (shownRecords_nodup access hindex) soft o
    exact (keyedPaths_nodup hfan _).filter _
  · rw [halone hr]
    exact List.nodup_nil

/-- A fanout purges the opened file again when it is soft and the index lists the file
under its key. -/
theorem own_fanned_iff (access : IndexAccess) (hindex : IndexOk N s.shm)
    (hd : s.cache.disk = files.disk) (hworks : r.FilesWork) (soft : Bool) (o : OpenedCache)
    (hon : soft = true → (files o.name).isSome = true) :
    let rs := shownRecords access s.shm
    o.name ∈ purgedPaths (fanoutTrail N L access r soft o s).tried ↔
      soft = true ∧ FanoutRuns r true o rs ∧ o.name ∈ keyedPaths rs (cacheKey r.keys) := by
  intro rs
  obtain ⟨-, hruns, halone⟩ := fanoutTrail_works access hindex hd hworks soft o
  by_cases hr : FanoutRuns r soft o rs
  · rw [hruns hr, List.mem_filter]
    cases soft with
    | false =>
      refine iff_of_false (fun h => ?_) fun h => nomatch h.1
      have hkeyed := h.1
      unfold keyedPaths at hkeyed
      split at hkeyed
      · exact absurd hkeyed List.not_mem_nil
      · obtain ⟨rec, hrec, hp⟩ := List.mem_map.mp hkeyed
        exact (mem_otherRecords.mp (List.mem_filter.mp hrec).1).2 hp
    | true => exact ⟨fun h => ⟨rfl, hr, h.1⟩, fun h => ⟨h.2.2, hon rfl⟩⟩
  · rw [halone hr]
    refine iff_of_false List.not_mem_nil ?_
    rintro ⟨rfl, hr', -⟩
    exact hr hr'

/-! ## Exact purges that are answered -/

namespace Pilot

/-- Counts are reported and added up where the request has a context. -/
theorem recordPurge_report {pool : PurgePool} {s : Pilot} (type : PurgeStats) (soft : Bool)
    (count : Nat) (hctx : s.ctx.isSome = true ∨ pool.ctx = true) :
    (s.recordPurge pool type soft count).reported type soft = s.reported type soft + count ∧
      (s.recordPurge pool type soft count).reportedPath = s.reportedPath ∧
      (s.recordPurge pool type soft count).metrics =
        s.metrics.map fun m => { m with purged := addTo m.purged type soft count } := by
  obtain ⟨cache, shm, metrics, ctx⟩ := s
  unfold recordPurge
  cases count with
  | zero =>
    rw [if_pos (Or.inl rfl)]
    refine ⟨rfl, rfl, ?_⟩
    simp only [addTo_zero]
    exact Option.map_id'.symm
  | succ count =>
    have hno : ¬ (count + 1 = 0 ∨ ctx.isNone = true ∧ (!pool.ctx) = true) := by
      rintro (h | ⟨hn, hp⟩)
      · exact absurd h (Nat.succ_ne_zero count)
      · rcases hctx with h | h
        · cases ctx with
          | none => exact nomatch h
          | some ctx => exact nomatch hn
        · rw [h] at hp
          exact nomatch hp
    simp only [if_neg hno]
    cases ctx with
    | some ctx => exact ⟨if_pos ⟨rfl, rfl⟩, rfl, rfl⟩
    | none =>
      have hp : pool.ctx = true := hctx.resolve_left (nomatch ·)
      rw [hp]
      exact ⟨if_pos ⟨rfl, rfl⟩, rfl, rfl⟩

end Pilot

/-- What an exact purge reaches, tries and leaves to be reported. -/
structure ExactReached (N : Nginx) (L : HeaderLayout) (access : IndexAccess) (opened : CacheOpen)
    (r : PurgeRequest) (s : Pilot) (files : Files L) (o : OpenedCache) (s1 s2 : Pilot) : Prop where
  disk : s1.cache.disk = (files.purge r.soft o.name).disk
  shm : s1.shm = s.shm
  trail : exactTrail N L access opened r s =
    (fanoutTrail N L access r r.soft o s1).cons ⟨o.name, .ok⟩
  answer : (fanoutTrail N L access r r.soft o s1).broken = false →
    exactPurgeOf N L access opened r s = (.ok, releaseUpdating o (recordExactPurge r.pool r.soft
      (purgedPaths (fanoutTrail N L access r r.soft o s1).tried).length s2))
  ctx : s.CtxFrom r.pool s2
  reported : s2.reported = s.reported
  path : s2.reportedPath = s.reportedPath
  metrics : s2.metrics = s.metrics.map fun m => { m with purges := Pilot.addTo m.purges .exact r.soft 1 }

theorem exactPurgeOf_trail (N : Nginx) (access : IndexAccess) (hd : s.cache.disk = files.disk)
    (hworks : r.FilesWork) (hreach : Reaches opened r.soft s files o)
    (hon : (files o.name).isSome = true) :
    ∃ s1 s2, ExactReached N L access opened r s files o s1 s2 := by
  obtain ⟨rfl, hpresent, -⟩ := hreach
  have hdeletes : r.resolved.deletes = true := by rw [hworks.resolved]; rfl
  cases hs : r.soft with
  | false =>
    obtain ⟨_, hopened, hcache⟩ := deleteOpenedFile_present hpresent r.resolved
    obtain rfl := hcache hdeletes
    let s1 : Pilot := Pilot.recordPurgeRequest .exact false
      { s with cache := (markNodeDeleted s.cache o.node).setFile o.name none }
    obtain ⟨hrc, hcount, hreport⟩ := exactFanout_trail N L access r false o s1
    have hctx := exactFanout_ctx N L access r false o s1
    obtain ⟨hm, hreport⟩ := Prod.mk.inj hreport
    obtain ⟨hrep, hpath⟩ := Prod.mk.inj hreport
    refine ⟨s1, (exactFanout N L access r false o s1).2.2,
      { disk := ?_, shm := rfl, trail := ?_, answer := fun hb => ?_, ctx := hctx, reported := hrep,
        path := hpath, metrics := by rw [hs]; exact hm }⟩
    · show ((markNodeDeleted s.cache o.node).setFile o.name none).disk = _
      rw [hs, FileCache.setFile_disk, markNodeDeleted_disk, hd, Files.purge, Files.disk_update]
      rfl
    · have hunlink : unlinkRc r.resolved o.name s.cache = .ok := by
        unfold unlinkRc
        rw [hdeletes, hd, Files.disk, Option.isSome_map, hon]
        rfl
      unfold exactTrail
      simp only [hpresent, hs, hopened, hunlink, Bool.not_true, Bool.false_eq_true, if_false]
      rfl
    · rw [hs] at hb ⊢
      rw [Trail.rc, hb] at hrc
      unfold exactPurgeOf exactPurge
      simp only [hs, Bool.false_eq_true, if_false, hopened]
      rw [← hcount]
      generalize exactFanout N L access r false o s1 = fanout at hrc
      obtain ⟨rc, fanned, s2⟩ := fanout
      obtain rfl : rc = .ok := hrc
      rfl
  | true =>
    have hspec := softHeader_spec (L := L) hd r.resolved o.name
    cases hh : softHeader L r.resolved o.name s.cache with | mk rc cache =>
    rw [hh] at hspec
    cases hspec with
    | purged _ hd1 =>
      let s1 : Pilot := { s with cache := cache.setNode o.node { cache.node o.node with validSec := 0 } }
      obtain ⟨hrc, hcount, hreport⟩ := exactFanout_trail N L access r true o s1
      have hctx := exactFanout_ctx N L access r true o s1
      obtain ⟨hm, hreport⟩ := Prod.mk.inj hreport
      obtain ⟨hrep, hpath⟩ := Prod.mk.inj hreport
      refine ⟨s1, (exactFanout N L access r true o s1).2.2.recordPurgeRequest .exact true,
        { disk := by rw [hs]; exact hd1, shm := rfl, trail := ?_, answer := fun hb => ?_, ctx := hctx,
          reported := hrep, path := hpath, metrics := ?_ }⟩
      · unfold exactTrail
        simp only [hpresent, hs, hh, Bool.not_true, Bool.false_eq_true, if_false, if_true]
        rfl
      · rw [hs] at hb ⊢
        rw [Trail.rc, hb] at hrc
        unfold exactPurgeOf exactPurgeSoft
        simp only [hs, hpresent, hh, if_true, Bool.not_true, Bool.false_eq_true, if_false]
        rw [← hcount]
        generalize exactFanout N L access r true o s1 = fanout at hrc
        obtain ⟨rc, fanned, s2⟩ := fanout
        obtain rfl : rc = .ok := hrc
        rfl
      · rw [hs]
        show (exactFanout N L access r true o s1).2.2.metrics.map _ = _
        rw [hm]
    | missing hnone _ =>
      rw [hnone] at hon
      cases hon
    | vanished hw _ _ => exact absurd hworks.resolved hw
    | failed hw _ => exact absurd hworks.resolved hw

theorem Pilot.recordPurge_skip {pool : PurgePool} (type : PurgeStats) (soft : Bool) (count : Nat)
    (h : ¬ (s.ctx.isSome = true ∨ pool.ctx = true)) : s.recordPurge pool type soft count = s := by
  obtain ⟨h1, h2⟩ := not_or.mp h
  rw [Bool.not_eq_true] at h1 h2
  refine if_pos (Or.inr ⟨?_, ?_⟩)
  · rw [← Option.not_isSome, h1]
    rfl
  · rw [h2]
    rfl

/-- What the end of an exact purge reports: nothing without a context. -/
theorem recordExactPurge_report (pool : PurgePool) (soft : Bool) (fanned : Nat) (s : Pilot) :
    let s' := recordExactPurge pool soft fanned s
    (s.ctx.isSome = true ∨ pool.ctx = true →
      s'.reported .exact soft = s.reported .exact soft + (fanned + 1) ∧
      s'.reportedPath = (if 0 < fanned then .exactKeyFanout else s.reportedPath) ∧
      ∀ m, s.metrics = some m → ∃ m', s'.metrics = some m' ∧
        m'.purged .exact soft = m.purged .exact soft + (fanned + 1) ∧ m'.purges = m.purges) ∧
    (¬ (s.ctx.isSome = true ∨ pool.ctx = true) → s'.reported = s.reported) := by
  intro s'
  -- the state behind the report of the way
  have hs1 : ∃ s1 : Pilot, s' = s1.recordPurge pool .exact soft (fanned + 1) ∧
      s1.reported = s.reported ∧
      (s1.ctx.isSome = true ∨ pool.ctx = true ↔ s.ctx.isSome = true ∨ pool.ctx = true) ∧
      (s.ctx.isSome = true ∨ pool.ctx = true →
        s1.reportedPath = (if 0 < fanned then .exactKeyFanout else s.reportedPath)) ∧
      ∀ m, s.metrics = some m → ∃ m', s1.metrics = some m' ∧ m'.purged = m.purged ∧
        m'.purges = m.purges := by
    refine ⟨_, rfl, ?_⟩
    split
    · obtain ⟨hrep, hm, hctx, hpath⟩ := s.setResponsePath_spec pool .exactKeyFanout
      refine ⟨hrep, ?_, fun h => hpath (hctx.mpr h),
        fun m hsm => ⟨_, congrArg (Option.map _) (hm.trans hsm), rfl, rfl⟩⟩
      show (s.setResponsePath pool .exactKeyFanout).ctx.isSome = true ∨ _ ↔ _
      rw [hctx, or_assoc, or_self]
    · exact ⟨rfl, Iff.rfl, fun _ => rfl, fun m hm => ⟨m, hm, rfl, rfl⟩⟩
  obtain ⟨s1, he, hrep, hctx, hpath, hm⟩ := hs1
  rw [he]
  constructor
  · intro hc
    obtain ⟨h1, h2, h3⟩ := Pilot.recordPurge_report .exact soft (fanned + 1) (hctx.mpr hc)
    refine ⟨by rw [h1, hrep], h2.trans (hpath hc), fun m hsm => ?_⟩
    obtain ⟨m', hm', hp, hps⟩ := hm m hsm
    refine ⟨{ m' with purged := Pilot.addTo m'.purged .exact soft (fanned + 1) }, ?_, ?_, hps⟩
    · rw [h3, hm']
      rfl
    · show Pilot.addTo m'.purged .exact soft (fanned + 1) .exact soft = _
      rw [hp]
      exact if_pos ⟨rfl, rfl⟩
  · intro hc
    rw [Pilot.recordPurge_skip .exact soft (fanned + 1) (mt hctx.mp hc), hrep]

/-- The files that were removed or expired are reported, and added to the counter of
the kind and the mode. -/
structure ReportsPurged (type : PurgeStats) (soft : Bool) (t : Trail) (s s' : Pilot) : Prop where
  reported : s'.reported type soft = t.purged.length
  counted : ∀ m, s.metrics = some m → ∃ m', s'.metrics = some m' ∧
    m'.purged type soft = m.purged type soft + t.purged.length

/-- The purge that goes on to another file than the one that it opened says so. -/
def ReportsFanout (opened : CacheOpen) (t : Trail) (s' : Pilot) : Prop :=
  s'.reportedPath = .exactKeyFanout ↔ ∃ p ∈ t.purged, ∀ o, opened = .opened o → p ≠ o.name

theorem reported_of_ctx (h : s.ctx = none) (type : PurgeStats) (soft : Bool) :
    s.reported type soft = 0 ∧ s.reportedPath = .unset := by
  unfold Pilot.reported Pilot.reportedPath
  rw [h]
  exact ⟨rfl, rfl⟩

/-- A purge that found nothing reports nothing. -/
theorem missed_reports (hctx : s.ctx = none) (cache : FileCache) (opened : CacheOpen) :
    let s' := (Pilot.setDeclineReason r.pool .notFound { s with cache := cache }).recordPurgeRequest
      .exact r.soft
    ReportsPurged .exact r.soft .empty s s' ∧ ReportsFanout opened .empty s' := by
  intro s'
  obtain ⟨hm, hreport⟩ := Prod.mk.inj
    (Pilot.setDeclineReason_report r.pool .notFound { s with cache := cache })
  obtain ⟨hrep, hpath⟩ := Prod.mk.inj hreport
  obtain ⟨hzero, hunset⟩ := reported_of_ctx hctx .exact r.soft
  have hrep' : s'.reported = s.reported := hrep
  have hpath' : s'.reportedPath = s.reportedPath := hpath
  refine ⟨⟨by rw [hrep', hzero]; rfl, fun m hsm => ?_⟩, ?_⟩
  · refine ⟨{ m with purges := Pilot.addTo m.purges .exact r.soft 1 }, ?_, rfl⟩
    have hm' : s'.metrics = s.metrics.map fun m =>
        { m with purges := Pilot.addTo m.purges .exact r.soft 1 } := congrArg (Option.map _) hm
    rw [hm', hsm]
    rfl
  · unfold ReportsFanout
    rw [hpath', hunset]
    exact iff_of_false (nomatch ·) fun ⟨p, hp, _⟩ => absurd hp List.not_mem_nil

/-- What a purge reports that reached its file: it counts that one, and then what the
fanout purged. -/
theorem reached_reports_iff {s1 s2 : Pilot} (hctx : s.ctx = none)
    (h : ExactReached N L access (.opened o) r s files o s1 s2)
    (hn : (purgedPaths (fanoutTrail N L access r r.soft o s1).tried).Nodup) :
    let fan := purgedPaths (fanoutTrail N L access r r.soft o s1).tried
    let s' := releaseUpdating o (recordExactPurge r.pool r.soft fan.length s2)
    let t := exactTrail N L access (.opened o) r s
    ReportsPurged .exact r.soft t s s' ∧ ReportsFanout (.opened o) t s' ↔
      r.pool.ctx = true ∧ o.name ∉ fan := by
  intro fan s' t
  have hpurged : t.purged = (o.name :: fan).dedup := by
    show (purgedPaths t.tried).dedup = _
    have ht : t.tried = ⟨o.name, .ok⟩ :: (fanoutTrail N L access r r.soft o s1).tried :=
      congrArg Trail.tried h.trail
    rw [ht, purgedPaths_cons, if_pos rfl]
  have hcan : s2.ctx.isSome = true ∨ r.pool.ctx = true ↔ r.pool.ctx = true := by
    refine or_iff_right_of_imp fun h0 => (h.ctx h0).resolve_left fun h1 => ?_
    rw [hctx] at h1
    exact nomatch h1
  obtain ⟨hzero, hunset⟩ := reported_of_ctx hctx .exact r.soft
  obtain ⟨hyes, hno⟩ := recordExactPurge_report r.pool r.soft fan.length s2
  obtain ⟨hm, hreport⟩ := Prod.mk.inj
    (releaseUpdating_report o (recordExactPurge r.pool r.soft fan.length s2))
  obtain ⟨hrep, hpath⟩ := Prod.mk.inj hreport
  rw [hcan] at hyes hno
  unfold ReportsFanout
  cases hp : decide (r.pool.ctx = true) with
  | false =>
    have hp' := of_decide_eq_false hp
    refine iff_of_false (fun h0 => ?_) fun h0 => hp' h0.1
    have h1 := h0.1.reported
    have h2 : s'.reported .exact r.soft = 0 := by
      show (releaseUpdating o _).reported .exact r.soft = 0
      rw [hrep, hno hp', h.reported, hzero]
    rw [h2, hpurged] at h1
    have hmem : o.name ∈ (o.name :: fan).dedup := List.mem_dedup.mpr List.mem_cons_self
    exact absurd (List.eq_nil_of_length_eq_zero h1.symm) (List.ne_nil_of_mem hmem)
  | true =>
    have hp' := of_decide_eq_true hp
    obtain ⟨h1, h2, h3⟩ := hyes hp'
    have hreported : s'.reported .exact r.soft = fan.length + 1 := by
      show (releaseUpdating o _).reported .exact r.soft = _
      rw [hrep, h1, h.reported, hzero, Nat.zero_add]
    cases hmem : decide (o.name ∈ fan) with
    | true =>
      -- the opened file is listed again, and counted twice
      have hin := of_decide_eq_true hmem
      refine iff_of_false (fun h0 => ?_) fun h0 => h0.2 hin
      have hlen := h0.1.reported
      rw [hreported, hpurged, List.dedup_cons_of_mem hin, hn.dedup] at hlen
      exact absurd hlen (Nat.succ_ne_self _)
    | false =>
      have hout := of_decide_eq_false hmem
      have hlen : t.purged.length = fan.length + 1 := by
        rw [hpurged, List.dedup_cons_of_notMem hout, hn.dedup, List.length_cons]
      refine iff_of_true ⟨⟨by rw [hreported, hlen], fun m hsm => ?_⟩, ?_⟩ ⟨hp', hout⟩
      · have hm2 : s2.metrics = some { m with purges := Pilot.addTo m.purges .exact r.soft 1 } := by
          rw [h.metrics, hsm]
          rfl
        obtain ⟨m', hm', hcount, -⟩ := h3 _ hm2
        refine ⟨m', ?_, by rw [hcount, hlen]⟩
        show (releaseUpdating o _).metrics = _
        rw [hm, hm']
      · have hpath' : s'.reportedPath = if 0 < fan.length then .exactKeyFanout else .unset := by
          show (releaseUpdating o _).reportedPath = _
          rw [hpath, h2, h.path, hunset]
        rw [hpath', hpurged, List.dedup_cons_of_notMem hout, hn.dedup]
        cases hfan : fan with
        | nil =>
          refine iff_of_false (nomatch ·) ?_
          rintro ⟨p, hp, hne⟩
          rcases List.mem_cons.mp hp with h0 | h0
          · exact hne o rfl h0
          · change p ∈ fan at h0
            rw [hfan] at h0
            exact absurd h0 List.not_mem_nil
        | cons p fan' =>
          have hin : p ∈ fan := by
            rw [hfan]
            exact List.mem_cons_self
          refine iff_of_true rfl ⟨p, List.mem_cons_of_mem _ hin, fun o' ho heq => ?_⟩
          obtain rfl := CacheOpen.opened.inj ho
          exact hout (heq ▸ hin)

theorem purge_isSome (files : Files L) (h : (files o.name).isSome = true) :
    (files.purge true o.name o.name).isSome = true := by
  unfold Files.purge
  rw [Function.update_self, if_pos rfl, Option.isSome_map]
  exact h

/-- An exact purge that is answered 200 reports and counts every file that it purged
once, and the fanout if it purged another file than its own, exactly when its
context can be made and, if it is soft, the index does not list its own file for the
fanout. -/
theorem exact_count_iff (N : Nginx) (L : HeaderLayout) (access : IndexAccess) (opened : CacheOpen)
    (r : PurgeRequest) (s : Pilot) (files : Files L) (hindex : IndexOk N s.shm)
    (hdisk : s.cache.disk = files.disk) (hctx : s.ctx = none) (hexact : isPartial r.keys = false)
    (hworks : r.FilesWork) (hopened : ∀ o, opened = .opened o → (files o.name).isSome = true) :
    let result := handler N L access opened false false r s
    let t := exactTrail N L access opened r s
    let rs := shownRecords access s.shm
    (result.1 = .ok → ReportsPurged .exact r.soft t s result.2 ∧ ReportsFanout opened t result.2) ↔
      (r.pool.response = true → ∀ o, Reaches opened r.soft s files o →
        r.pool.ctx = true ∧ (r.soft = true → FanoutRuns r true o rs →
          o.name ∉ keyedPaths rs (cacheKey r.keys))) := by
  intro result t rs
  have hresult : result = handler N L access opened false false r s := rfl
  rw [handler_exact hexact] at hresult
  -- a purge without a file to start from has nothing to report
  have hmissed : ∀ cache, exactPurgeOf N L access opened r s =
        (.declined, Pilot.setDeclineReason r.pool .notFound { s with cache := cache }) →
      t = .empty → (result.1 = .ok →
        ReportsPurged .exact r.soft t s result.2 ∧ ReportsFanout opened t result.2) := by
    intro cache hrc ht hok
    rw [hrc] at hresult
    simp only at hresult
    split at hresult
    · rw [hresult, ht]
      exact missed_reports hctx cache opened
    · rw [hresult] at hok
      exact nomatch hok
  cases opened with
  | again =>
    have hrc : exactPurgeOf N L access .again r s = (.again, s) := ite_self _
    rw [hrc] at hresult
    rw [hresult]
    exact iff_of_true (fun h => nomatch h) fun _ o ho => nomatch ho.1
  | error =>
    have hrc : exactPurgeOf N L access .error r s = (.error, s) := ite_self _
    rw [hrc] at hresult
    rw [hresult]
    exact iff_of_true (fun h => nomatch h) fun _ o ho => nomatch ho.1
  | declined =>
    have hrc : exactPurgeOf N L access .declined r s =
        (.declined, s.setDeclineReason r.pool .notFound) := ite_self _
    exact iff_of_true (hmissed s.cache hrc rfl) fun _ o ho => nomatch ho.1
  | opened o =>
    have hon := hopened o rfl
    cases hpresent : (s.cache.node o.node).present with
    | false =>
      have hmiss : ¬ ((s.cache.node o.node).present = true ∧
          (r.soft = true → (files o.name).isSome = true)) := fun h => by
        rw [hpresent] at h
        exact nomatch h.1
      obtain ⟨cache, hrc, -⟩ := exactPurgeOf_missed N access hdisk hworks hmiss
      have ht : t = .empty := by
        show exactTrail N L access (.opened o) r s = _
        unfold exactTrail
        simp only [hpresent, Bool.not_false, if_true]
      refine iff_of_true (hmissed cache hrc ht) fun _ o' ho => ?_
      obtain rfl := CacheOpen.opened.inj ho.1
      exact absurd ho.2.1 (by rw [hpresent]; decide)
    | true =>
      have hreach : Reaches (.opened o) r.soft s files o := ⟨rfl, hpresent, fun _ => hon⟩
      obtain ⟨s1, s2, hreached⟩ := exactPurgeOf_trail N access hdisk hworks hreach hon
      have hindex1 : IndexOk N s1.shm := by
        rw [hreached.shm]
        exact hindex
      obtain ⟨hunbroken, -, -⟩ :=
        fanoutTrail_works access hindex1 hreached.disk hworks r.soft o
      have hrc := hreached.answer hunbroken
      rw [hrc] at hresult
      have hn := fanoutTrail_nodup access hindex1 hreached.disk hworks r.soft o
      -- the opened file is purged again when a soft fanout lists it
      have hown := own_fanned_iff access hindex1 hreached.disk hworks r.soft o
        fun hs => hs ▸ purge_isSome files hon
      rw [hreached.shm] at hown
      have hiff := reached_reports_iff hctx hreached hn
      rw [hresult]
      simp only [sendResponse_ok]
      have hlisted := (not_congr hown).trans (not_and.trans (forall_congr' fun _ => not_and))
      refine forall_congr' fun _ => (hiff.trans (and_congr_right fun _ => hlisted)).trans ?_
      constructor
      · rintro h o' ho
        obtain rfl := CacheOpen.opened.inj ho.1
        exact h
      · exact fun h => h o hreach

/-- The file `a` of the two variants, as nginx opens it. -/
def sampleOpened : CacheOpen := .opened ⟨[97], 0, false, 0⟩

theorem sampleOpened_found (o : OpenedCache) (h : sampleOpened = .opened o) :
    (variantFiles o.name).isSome = true := by
  obtain rfl := CacheOpen.opened.inj h
  rfl

theorem exact_count_iff_sample :
    let result := handler .reference .reference sampleAccess sampleOpened false false
      (samplePurge true) variantState
    let t := exactTrail .reference .reference sampleAccess sampleOpened (samplePurge true) variantState
    let rs := shownRecords sampleAccess variantState.shm
    (result.1 = .ok →
        ReportsPurged .exact true t variantState result.2 ∧ ReportsFanout sampleOpened t result.2) ↔
      (true = true → ∀ o, Reaches sampleOpened true variantState variantFiles o →
        true = true ∧ (true = true → FanoutRuns (samplePurge true) true o rs →
          o.name ∉ keyedPaths rs (cacheKey [[107]]))) :=
  exact_count_iff .reference .reference sampleAccess sampleOpened (samplePurge true) variantState
    variantFiles (runStore_indexOk .reference (by decide)) rfl rfl rfl (samplePurge_works true)
    sampleOpened_found

/-- Both variants are expired, and three are reported: the fanout finds the file that
the purge has opened among the files of its key. -/
theorem soft_exact_counts_twice :
    IndexOk .reference variantState.shm ∧ variantState.cache.disk = variantFiles.disk ∧
      (samplePurge true).FilesWork ∧
      let result := handler .reference .reference sampleAccess sampleOpened false false
        (samplePurge true) variantState
      let t := exactTrail .reference .reference sampleAccess sampleOpened (samplePurge true)
        variantState
      result.1 = .ok ∧ t.purged = [[97], [98]] ∧ result.2.reported .exact true = 3 ∧
      ¬ (result.1 = .ok →
        ReportsPurged .exact true t variantState result.2 ∧ ReportsFanout sampleOpened t result.2) := by
  refine ⟨runStore_indexOk .reference (by decide), rfl, samplePurge_works true, ?_⟩
  intro result t
  have hok : result.1 = .ok := by decide +kernel
  have hpurged : t.purged = [[97], [98]] := by decide +kernel
  have hreported : result.2.reported .exact true = 3 := by decide +kernel
  refine ⟨hok, hpurged, hreported, fun h => ?_⟩
  have hcount := (h hok).1.reported
  rw [hreported, hpurged] at hcount
  exact absurd hcount (by decide)

/-! ## Purges that are broken off -/

/-- What the purge of the first path returns that is not missing, and the cache then. -/
def firstFound (L : HeaderLayout) (calls : Nat → FileCalls) (soft : Bool) :
    Nat → List Bytes → FileCache → NgxRc × FileCache
  | _, [], c => (.declined, c)
  | k, path :: paths, c =>
    match byPath L (calls k) soft path c with
    | (.declined, c) => firstFound L calls soft (k + 1) paths c
    | r => r

/-- Whether no file that a walk selects can be purged. -/
def walksInVain (L : HeaderLayout) (calls : Nat → FileCalls) (soft : Bool)
    (selects : FileCalls → Bytes → Disk → Bool) : Nat → List Bytes → FileCache → Bool
  | _, [], _ => true
  | k, path :: listing, c =>
    if selects (calls k) path c.disk then
      let r := byPath L (calls k) soft path c
      r.1 != .ok && walksInVain L calls soft selects (k + 1) listing r.2
    else walksInVain L calls soft selects (k + 1) listing c

/-- The request finds no file that it can purge before the one that it fails on. An
exact purge that has opened its file is to be a soft one besides. -/
def PurgeCall.FailsFirst (N : Nginx) (L : HeaderLayout) (access : IndexAccess) (call : PurgeCall)
    (s : Pilot) : Prop :=
  let r := call.request
  match call.kind with
  | .tag =>
    ∀ zoneName paths, access.zone = some zoneName →
      collectPathsByTags N r.pool.collect s.shm zoneName (keepTags [] call.tokens) = some paths →
      (firstFound L r.calls r.soft 0 paths s.cache).1 ≠ .ok
  | .all =>
    walksInVain L call.walk.calls call.purge.soft (fun _ _ _ => true) 0 call.walk.listing s.cache = true
  | .wildcard =>
    ∀ pre, keyPrefix r.pool r.keys = some pre →
      match firstFound L r.calls r.soft 0 (wildcardPaths access r pre s) s.cache with
      | (.ok, _) => False
      | (.declined, c) =>
        walksInVain L call.walk.calls r.soft (fun calls => partialMatch L calls (keyPartial r.keys)) 0
          call.walk.listing c = true
      | _ => True
  | .exact =>
    ∀ o, call.opened = .opened o → r.soft = true ∧ (softHeader L r.resolved o.name s.cache).1 ≠ .ok

/-- What a loop makes of the first file that it finds. -/
structure LoopFirst (rc : NgxRc) (c : FileCache) (t : Trail) (s' : Pilot) : Prop where
  none : purgedPaths t.tried = [] ↔ rc ≠ .ok
  broken : purgedPaths t.tried = [] → (t.broken = true ↔ rc ≠ .declined)
  cache : rc = .declined → s'.cache = c

theorem loopTrail_first {calls : Nat → FileCalls} {one : Nat → Bytes → Pilot → NgxRc × Pilot}
    (hone : ∀ k path s,
      ((one k path s).1, (one k path s).2.cache) = byPath L (calls k) soft path s.cache)
    (k : Nat) (paths : List Bytes) (count : Nat) (s : Pilot) :
    LoopFirst (firstFound L calls soft k paths s.cache).1 (firstFound L calls soft k paths s.cache).2
      (loopTrail one k paths s) (purgePaths one k paths count s).2.2 := by
  induction paths generalizing k count s with
  | nil => exact ⟨iff_of_true rfl (by rintro ⟨⟩), fun _ => iff_of_false (by rintro ⟨⟩) (· rfl), fun _ => rfl⟩
  | cons path paths ih =>
    have hpath := hone k path s
    unfold firstFound loopTrail purgePaths
    cases hr : one k path s with | mk rc s1 =>
    rw [hr] at hpath
    rw [← hpath]
    cases rc with
    | ok =>
      refine ⟨iff_of_false (fun h => ?_) (fun h => h rfl), fun h => ?_, by rintro ⟨⟩⟩
      · cases (purgedPaths_cons ⟨path, .ok⟩ _).symm.trans h
      · cases (purgedPaths_cons ⟨path, .ok⟩ _).symm.trans h
    | declined =>
      obtain ⟨hnone, hbroken, hcache⟩ := ih (k + 1) count s1
      have hskip : purgedPaths ((loopTrail one (k + 1) paths s1).cons ⟨path, .declined⟩).tried =
          purgedPaths (loopTrail one (k + 1) paths s1).tried := purgedPaths_cons ⟨path, .declined⟩ _
      exact ⟨by rw [hskip]; exact hnone, by rw [hskip]; exact hbroken, hcache⟩
    | error =>
      exact ⟨iff_of_true rfl (by rintro ⟨⟩), fun _ => iff_of_true rfl (by rintro ⟨⟩), by rintro ⟨⟩⟩
    | again =>
      exact ⟨iff_of_true rfl (by rintro ⟨⟩), fun _ => iff_of_true rfl (by rintro ⟨⟩), by rintro ⟨⟩⟩
    | done =>
      exact ⟨iff_of_true rfl (by rintro ⟨⟩), fun _ => iff_of_true rfl (by rintro ⟨⟩), by rintro ⟨⟩⟩

theorem walkTried_none (calls : Nat → FileCalls) (soft : Bool)
    (selects : FileCalls → Bytes → Disk → Bool) (k : Nat) (listing : List Bytes) (c : FileCache) :
    purgedPaths (walkTried L calls soft selects k listing c) = [] ↔
      walksInVain L calls soft selects k listing c = true := by
  induction listing generalizing k c with
  | nil => exact iff_of_true rfl rfl
  | cons path listing ih =>
    unfold walkTried walksInVain
    cases selects (calls k) path c.disk with
    | false => exact ih (k + 1) c
    | true =>
      simp only [if_true, Bool.and_eq_true, bne_iff_ne]
      rw [purgedPaths_cons, ← ih]
      cases hd : decide ((byPath L (calls k) soft path c).1 = .ok) with
      | true =>
        rw [if_pos (of_decide_eq_true hd)]
        exact iff_of_false (by rintro ⟨⟩) fun h => h.1 (of_decide_eq_true hd)
      | false =>
        rw [if_neg (of_decide_eq_false hd)]
        exact (and_iff_right (of_decide_eq_false hd)).symm

theorem purged_eq_nil {t : Trail} : t.purged = [] ↔ purgedPaths t.tried = [] :=
  List.dedup_eq_nil _

/-- A tag purge that is broken off has been in vain if its first file fails. -/
theorem tagTrail_none {tags : List Bytes} (h : (tagTrail N L access r tags s).broken = true) :
    (tagTrail N L access r tags s).purged = [] ↔ ∀ zoneName paths, access.zone = some zoneName →
      collectPathsByTags N r.pool.collect s.shm zoneName tags = some paths →
      (firstFound L r.calls r.soft 0 paths s.cache).1 ≠ .ok := by
  rw [purged_eq_nil]
  unfold tagTrail at h ⊢
  split at h
  · exact nomatch h
  · next hconf =>
    rw [if_neg hconf]
    cases hzone : access.zone with
    | none =>
      rw [hzone] at h
      exact nomatch h
    | some zoneName =>
      simp only [hzone] at h ⊢
      split at h
      · exact nomatch h
      · next hreader =>
        rw [if_neg hreader]
        split at h
        · exact nomatch h
        · next hready =>
          rw [if_neg hready]
          cases hc : collectPathsByTags N r.pool.collect s.shm zoneName tags with
          | none =>
            rw [hc] at h
            exact nomatch h
          | some paths =>
            have hfirst := loopTrail_first (L := L) (fun k path s =>
              purgeTagged_byPath N L (r.calls k) r.now zoneName r.soft path s) 0 paths 0 s
            refine hfirst.none.trans ⟨fun hne z p hz hp => ?_, fun hall => hall zoneName paths rfl hc⟩
            cases hz
            rw [hc] at hp
            cases hp
            exact hne

/-- The index part of a wildcard purge is a loop over the paths of the index. -/
theorem indexTrail_first (N : Nginx) (L : HeaderLayout) (access : IndexAccess) (r : PurgeRequest)
    (pre : Bytes) (s : Pilot) :
    LoopFirst (firstFound L r.calls r.soft 0 (wildcardPaths access r pre s) s.cache).1
      (firstFound L r.calls r.soft 0 (wildcardPaths access r pre s) s.cache).2
      (indexTrail N L access r pre s) (partialFromIndex N L access r pre s).2.2 := by
  obtain ⟨hz, hcache, hshm⟩ := keyIndexReady_eq access r.pool s
  unfold indexTrail partialFromIndex wildcardPaths
  generalize keyIndexReady access r.pool s = ready at hz hcache hshm
  obtain ⟨z, s1⟩ := ready
  simp only at hz hcache hshm
  rw [← hz, ← hcache]
  have hnone : LoopFirst .declined s1.cache .empty s1 :=
    ⟨iff_of_true rfl (nomatch ·), fun _ => iff_of_false (nomatch ·) (· rfl), fun _ => rfl⟩
  cases z with
  | none => exact hnone
  | some zoneName =>
    simp only [hshm]
    cases collectPathsByKeyPrefix r.pool.collect s.shm zoneName pre with
    | none => exact hnone
    | some paths =>
      exact loopTrail_first (fun k path s =>
        byIndexedPath_byPath N L (r.calls k) r.now zoneName r.soft path s) 0 paths 0 s1

/-- A wildcard purge that is broken off has been in vain if the first file that the
index offers fails, or none is there and the walk is in vain. -/
theorem wildcardTrail_none {w : Walk} {threads : Option Bool} {terminated : Bool}
    (h : (wildcardTrail N L access w threads terminated r s).broken = true) :
    (wildcardTrail N L access w threads terminated r s).purged = [] ↔
      ∀ pre, keyPrefix r.pool r.keys = some pre →
        match firstFound L r.calls r.soft 0 (wildcardPaths access r pre s) s.cache with
        | (.ok, _) => False
        | (.declined, c) =>
          walksInVain L w.calls r.soft (fun calls => partialMatch L calls (keyPartial r.keys)) 0
            w.listing c = true
        | _ => True := by
  rw [purged_eq_nil]
  unfold wildcardTrail at h ⊢
  cases hpre : keyPrefix r.pool r.keys with
  | none =>
    rw [hpre] at h
    exact nomatch h
  | some pre =>
    obtain ⟨hrc, hcount, -⟩ := partialFromIndex_trail N L access r pre s
    have hfirst := indexTrail_first N L access r pre s
    rw [hpre] at h
    simp only [Option.some.injEq, forall_eq'] at h ⊢
    generalize partialFromIndex N L access r pre s = result at h hrc hcount hfirst ⊢
    generalize indexTrail N L access r pre s = index at h hrc hcount hfirst ⊢
    generalize firstFound L r.calls r.soft 0 (wildcardPaths access r pre s) s.cache = first at hfirst ⊢
    obtain ⟨rc, purged, s1⟩ := result
    obtain ⟨frc, c⟩ := first
    obtain ⟨hnone, hbroken, hcache⟩ := hfirst
    simp only at hrc hcount hnone hbroken hcache
    -- where the index breaks the purge off, its first file tells
    have hindex : index.broken = true → (purgedPaths index.tried = [] ↔
        match (frc, c) with
        | (.ok, _) => False
        | (.declined, c) =>
          walksInVain L w.calls r.soft (fun calls => partialMatch L calls (keyPartial r.keys)) 0
            w.listing c = true
        | _ => True) := by
      intro hb
      cases frc with
      | ok => exact iff_of_false (fun h0 => hnone.mp h0 rfl) id
      | declined =>
        have h0 := hnone.mpr (nomatch ·)
        exact absurd rfl ((hbroken h0).mp hb)
      | error => exact iff_of_true (hnone.mpr (nomatch ·)) trivial
      | again => exact iff_of_true (hnone.mpr (nomatch ·)) trivial
      | done => exact iff_of_true (hnone.mpr (nomatch ·)) trivial
    cases hb : index.broken with
    | true =>
      rw [Trail.rc, if_pos hb] at hrc
      cases hrc
      exact hindex hb
    | false =>
      rw [Trail.rc, hb, if_neg Bool.false_ne_true] at hrc
      cases hrc
      simp only at h ⊢
      have hunbroken : index.broken ≠ true := by
        rw [hb]
        decide
      split at h
      · exact absurd h hunbroken
      · next hpurged =>
        rw [if_neg hpurged]
        split at h
        · exact absurd h hunbroken
        · next hmem =>
          rw [if_neg hmem]
          split at h
          · exact absurd h hunbroken
          · next hthreads =>
            rw [if_neg hthreads]
            have hempty : purgedPaths index.tried = [] :=
              List.eq_nil_of_length_eq_zero (by omega)
            have hdeclined : frc = .declined := by
              by_contra hne
              exact hunbroken ((hbroken hempty).mpr hne)
            subst hdeclined
            simp only
            rw [purgedPaths_append, hempty, List.nil_append, walkTried_none, hcache rfl]

/-- An exact purge that is broken off has been in vain if the file that it opened
could not be expired, or it has opened none. -/
theorem exactTrail_none (h : (exactTrail N L access opened r s).broken = true) :
    r.soft = true ∨ (∀ o, opened ≠ .opened o) →
    ((exactTrail N L access opened r s).purged = [] ↔
      ∀ o, opened = .opened o → (softHeader L r.resolved o.name s.cache).1 ≠ .ok) := by
  intro hkind
  rw [purged_eq_nil]
  unfold exactTrail at h ⊢
  cases opened with
  | declined => exact nomatch h
  | again => exact nomatch h
  | error => exact iff_of_true rfl fun o ho => nomatch ho
  | opened o =>
    have hs : r.soft = true := hkind.resolve_right fun hno => hno o rfl
    simp only [CacheOpen.opened.injEq, forall_eq'] at h ⊢
    cases hpresent : (s.cache.node o.node).present with
    | false =>
      rw [hpresent] at h
      exact nomatch h
    | true =>
      simp only [hpresent, hs, Bool.not_true, Bool.false_eq_true, if_false, if_true] at h ⊢
      cases hh : softHeader L r.resolved o.name s.cache with | mk rc cache =>
      cases rc with
      | ok =>
        refine iff_of_false (fun h0 => ?_) (fun hne => hne rfl)
        exact nomatch (purgedPaths_cons ⟨o.name, .ok⟩ _).symm.trans h0
      | declined => exact iff_of_true rfl (nomatch ·)
      | error => exact iff_of_true rfl (nomatch ·)
      | again => exact iff_of_true rfl (nomatch ·)
      | done => exact iff_of_true rfl (nomatch ·)

/-! ## The counters of a purge that is broken off -/

/-- What has been purged is counted, and the request is not. -/
def AccountsFor (type : PurgeStats) (soft : Bool) (t : Trail) (m m' : PurgeMetrics) : Prop :=
  m'.purged type soft = m.purged type soft + t.purged.length ∧ m'.purges type soft = m.purges type soft

/-- Whether the request is counted before its files are purged. -/
def PurgeCall.countsFirst (call : PurgeCall) : Bool :=
  call.kind == .exact && call.opened.countsFirst call.request.soft

/-- A purge that is broken off is not answered 200; of its counters, that of the
requests alone may have grown. -/
theorem run_broken (h : (call.trail N L access s).broken = true) :
    (call.run N L access s).1 ≠ some .ok ∧
      (call.run N L access s).2.metrics =
        if call.countsFirst then
          s.metrics.map fun m => { m with purges := Pilot.addTo m.purges .exact false 1 }
        else s.metrics := by
  unfold PurgeCall.trail at h
  unfold PurgeCall.run PurgeCall.countsFirst
  cases hkind : call.kind with
  | tag =>
    rw [hkind] at h
    obtain ⟨hrc, hm⟩ := indexPurge_broken h
    unfold dispatchTags
    generalize indexPurge N L access call.request (keepTags [] call.tokens) s = result at hrc hm
    obtain ⟨rc, s'⟩ := result
    obtain rfl : rc = .error := hrc
    exact ⟨(nomatch ·), hm⟩
  | all =>
    rw [hkind] at h
    obtain ⟨hrc, hm⟩ := purgeAll_broken h
    generalize purgeAll L call s = result at hrc hm
    obtain ⟨rc, s'⟩ := result
    obtain rfl : rc = .error := hrc
    exact ⟨(nomatch ·), hm⟩
  | wildcard =>
    rw [hkind] at h
    exact wildcardRequest_broken h
  | exact =>
    rw [hkind] at h
    have hexact : isPartial call.request.keys = false := call.kind_asterisk.2 hkind
    obtain ⟨hrc, hm⟩ := exactPurgeOf_broken h
    simp only [handler_exact hexact]
    generalize exactPurgeOf N L access call.opened call.request s = result at hrc hm
    obtain ⟨rc, s'⟩ := result
    obtain rfl : rc = .error := hrc
    exact ⟨(nomatch ·), hm⟩

theorem countsFirst_mode (h : call.countsFirst = true) : call.kind = .exact ∧ call.mode = false := by
  unfold PurgeCall.countsFirst CacheOpen.countsFirst at h
  obtain ⟨hkind, hopened⟩ := Bool.and_eq_true_iff.mp h
  have hexact : call.kind = .exact := by simpa using hkind
  refine ⟨hexact, ?_⟩
  unfold PurgeCall.mode
  rw [hexact, if_neg (nomatch ·)]
  cases ho : call.opened with
  | opened o =>
    rw [ho] at hopened
    simpa using hopened
  | declined =>
    rw [ho] at hopened
    exact nomatch hopened
  | again =>
    rw [ho] at hopened
    exact nomatch hopened
  | error =>
    rw [ho] at hopened
    exact nomatch hopened

/-- In other words, it has purged nothing and counted nothing. -/
theorem failsFirst_iff (hbroken : (call.trail N L access s).broken = true) :
    call.FailsFirst N L access s ↔
      call.countsFirst = false ∧ (call.trail N L access s).purged = [] := by
  unfold PurgeCall.trail at hbroken ⊢
  unfold PurgeCall.FailsFirst PurgeCall.countsFirst
  cases hkind : call.kind with
  | tag =>
    rw [hkind] at hbroken
    exact (tagTrail_none hbroken).symm.trans (and_iff_right rfl).symm
  | all =>
    refine Iff.trans ?_ (and_iff_right rfl).symm
    exact (walkTried_none call.walk.calls call.purge.soft (fun _ _ _ => true) 0 call.walk.listing
      s.cache).symm.trans (purged_eq_nil (t := allTrail L call s)).symm
  | wildcard =>
    rw [hkind] at hbroken
    exact (wildcardTrail_none hbroken).symm.trans (and_iff_right rfl).symm
  | exact =>
    rw [hkind] at hbroken
    have hnone := exactTrail_none hbroken
    simp only [beq_self_eq_true, Bool.true_and] at hbroken ⊢
    unfold CacheOpen.countsFirst
    cases ho : call.opened with
    | opened o =>
      rw [ho] at hnone
      cases hs : call.request.soft with
      | true =>
        rw [hnone (Or.inl hs)]
        exact ⟨fun h => ⟨rfl, fun o h0 => (h o h0).2⟩, fun h o h0 => ⟨rfl, h.2 o h0⟩⟩
      | false => exact iff_of_false (fun h => nomatch (h o rfl).1) fun h => nomatch h.1
    | declined =>
      rw [ho] at hnone
      refine iff_of_true (fun o h0 => nomatch h0) ⟨rfl, ?_⟩
      exact (hnone (Or.inr fun o h0 => nomatch h0)).mpr fun o h0 => nomatch h0
    | again =>
      rw [ho] at hnone
      refine iff_of_true (fun o h0 => nomatch h0) ⟨rfl, ?_⟩
      exact (hnone (Or.inr fun o h0 => nomatch h0)).mpr fun o h0 => nomatch h0
    | error =>
      rw [ho] at hnone
      refine iff_of_true (fun o h0 => nomatch h0) ⟨rfl, ?_⟩
      exact (hnone (Or.inr fun o h0 => nomatch h0)).mpr fun o h0 => nomatch h0

/-- A purge that fails, or whose client goes, has counted what it purged exactly when
it had purged nothing, and when it had not counted its request. -/
theorem failed_purge_accounted_iff (N : Nginx) (L : HeaderLayout) (access : IndexAccess)
    (call : PurgeCall) (s : Pilot) {m : PurgeMetrics} (hm : s.metrics = some m)
    (hbroken : (call.trail N L access s).broken = true) :
    let result := call.run N L access s
    result.1 ≠ some .ok ∧
      ((∃ m', result.2.metrics = some m' ∧
          AccountsFor call.kind call.mode (call.trail N L access s) m m') ↔
        call.FailsFirst N L access s) := by
  obtain ⟨hanswer, hmetrics⟩ := run_broken hbroken
  refine ⟨hanswer, ?_⟩
  rw [hm] at hmetrics
  rw [failsFirst_iff hbroken]
  cases hc : call.countsFirst with
  | true =>
    rw [hc, if_pos rfl] at hmetrics
    refine iff_of_false ?_ fun h => nomatch h.1
    rintro ⟨m', hm', hcount⟩
    obtain rfl := Option.some.inj (hmetrics.symm.trans hm')
    obtain ⟨hkind, hsoft⟩ := countsFirst_mode hc
    have hpurges := hcount.2
    rw [hkind, hsoft] at hpurges
    have hone : Pilot.addTo m.purges .exact false 1 .exact false = m.purges .exact false + 1 :=
      if_pos ⟨rfl, rfl⟩
    exact absurd (hone.symm.trans hpurges) (Nat.succ_ne_self _)
  | false =>
    rw [hc, if_neg Bool.false_ne_true] at hmetrics
    constructor
    · rintro ⟨m', hm', hcount⟩
      obtain rfl := Option.some.inj (hmetrics.symm.trans hm')
      refine ⟨rfl, List.eq_nil_of_length_eq_zero ?_⟩
      have hpurged := hcount.1
      omega
    · rintro ⟨-, hnil⟩
      refine ⟨m, hmetrics, ?_, rfl⟩
      rw [hnil]
      rfl

/-- A wildcard purge that removes the first file of its prefix and fails on the
second. -/
def sampleBroken : PurgeCall :=
  { sampleCall true with
    headers := []
    keys := [[107, 42]]
    calls := fun k => if k = 0 then .works else { FileCalls.works with info := false } }

/-- The two variants, and a metrics zone that has counted nothing. -/
def countingState : Pilot :=
  { variantState with metrics := some ⟨fun _ _ => 0, fun _ _ => 0, 0, 0⟩ }

theorem failed_purge_accounted_iff_sample :
    let result := sampleBroken.run .reference .reference sampleAccess countingState
    result.1 ≠ some .ok ∧
      ((∃ m', result.2.metrics = some m' ∧
          AccountsFor sampleBroken.kind sampleBroken.mode
            (sampleBroken.trail .reference .reference sampleAccess countingState)
            ⟨fun _ _ => 0, fun _ _ => 0, 0, 0⟩ m') ↔
        sampleBroken.FailsFirst .reference .reference sampleAccess countingState) :=
  failed_purge_accounted_iff .reference .reference sampleAccess sampleBroken countingState rfl
    (by decide +kernel)

/-- One file is gone, and no counter says so. -/
theorem broken_purge_loses_count :
    let result := sampleBroken.run .reference .reference sampleAccess countingState
    let t := sampleBroken.trail .reference .reference sampleAccess countingState
    result.1 = some .internalServerError ∧ t.broken = true ∧ t.purged = [[97]] ∧
      (result.2.cache.disk [97]).isNone = true ∧
      ¬ ∃ m', result.2.metrics = some m' ∧ AccountsFor sampleBroken.kind sampleBroken.mode t
        ⟨fun _ _ => 0, fun _ _ => 0, 0, 0⟩ m' := by
  intro result t
  have hbroken : t.broken = true := by decide +kernel
  have hpurged : t.purged = [[97]] := by decide +kernel
  refine ⟨by decide +kernel, hbroken, hpurged, by decide +kernel, ?_⟩
  rintro ⟨m', hm', hcount⟩
  have hmetrics : result.2.metrics = countingState.metrics := (run_broken hbroken).2
  obtain rfl := Option.some.inj (hmetrics.symm.trans hm')
  have hone := hcount.1
  rw [hpurged] at hone
  exact absurd hone (by decide)

end CachePilot
