import CachePilot.Protocol.Index

/-!
# Tag purges beside storing requests

A tag purge takes the paths that the index has under its tags and purges them one
by one. A file that is committed before the purge starts is only found there once
its request is logged, which may be later.

Results:
* `tag_purge_covers`: what the index has under a tag when the purge collects its
  paths is deleted or expired when it is answered;
* `tag_purge_misses_unlogged`: a purge that is answered 200 before the request of a
  file is logged, and leaves the file.
-/

namespace CachePilot
open NgxString Interleave

variable {L : HeaderLayout} {cfg : ZoneConf} {s s' : Shared} {proc proc' : Proc} {p path : Bytes}

/-- The file on disk has nothing valid in it any more. -/
def Shared.Expired (L : HeaderLayout) (s : Shared) (p : Bytes) : Prop :=
  ∃ f : CacheFile L, s.cache.disk p = some f.bytes ∧ f.Expired

/-- A purge by tags had the path under one of them when it collected its paths. -/
def Job.Selects (job : Job) (p : Bytes) : Prop :=
  ∃ tags, job.query = .tags tags ∧ ∃ t ∈ tags, ∃ T, job.seen p = some T ∧ t ∈ T

/-- The files that a purge has to purge are expired or still to do. -/
def Covered (L : HeaderLayout) (s : Shared) (job : Job) (todo : List Bytes) : Prop :=
  ∀ p v, s.stored p = some v → v.id < job.start → job.Selects p →
    p ∈ todo ∨ job.soft = true ∧ s.Expired L p

/-! ## One turn -/

/-- What is still stored behind work on a file was stored, and stays expired. -/
theorem withCache_kept {files : Files L} (hd : s.cache.disk = files.disk) {cache : FileCache}
    {g : Option (CacheFile L)} (hd' : cache.disk = Files.disk (Function.update files path g))
    (hw : Worked (files path) g) {v : Version} (hv : (s.withCache path cache).stored p = some v) :
    s.stored p = some v ∧ (s.Expired L p → (s.withCache path cache).Expired L p) := by
  cases hp : decide (p = path) with
  | true =>
    obtain rfl := of_decide_eq_true hp
    have hstored : (s.withCache p cache).stored p =
        if (cache.disk p).isSome then s.stored p else none := Function.update_self p _ s.stored
    have hdisk : cache.disk p = g.map CacheFile.bytes := by
      rw [hd', Files.disk, Function.update_self]
    rw [hstored, hdisk, Option.isSome_map] at hv
    cases hf : g with
    | none =>
      rw [hf] at hv
      cases hv
    | some f =>
      rw [hf] at hv hw hdisk
      refine ⟨hv, ?_⟩
      rintro ⟨h0, hg, he⟩
      rw [hd] at hg
      have hfile := Files.disk_eq_some.mp hg
      rw [hfile] at hw
      cases hw with
      | kept => exact ⟨f, hdisk, he⟩
      | expired => exact ⟨h0.expire, hdisk, h0.expired_expire⟩
  | false =>
    have hne := of_decide_eq_false hp
    have hstored : (s.withCache path cache).stored p = s.stored p :=
      Function.update_of_ne hne _ s.stored
    refine ⟨hstored ▸ hv, ?_⟩
    rintro ⟨h0, hg, he⟩
    refine ⟨h0, ?_, he⟩
    show cache.disk p = some h0.bytes
    rw [hd', Files.disk, Function.update_of_ne hne, ← hg, hd]
    rfl

theorem removed_kept (h : s.Ok L cfg) {cache : FileCache}
    (hd : cache.disk = s.cache.disk ∨ cache.disk = Function.update s.cache.disk path none)
    {v : Version} (hv : (s.withCache path cache).stored p = some v) :
    s.stored p = some v ∧ (s.Expired L p → (s.withCache path cache).Expired L p) := by
  obtain ⟨files, hf, -⟩ := h.files
  rcases hd with hd | hd
  · refine withCache_kept hf (g := files path) ?_ .kept hv
    rw [Function.update_eq_self, hd, hf]
  · refine withCache_kept hf (g := none) ?_ .gone hv
    rw [hd, hf, Files.disk_update]
    rfl

theorem Called.kept {tags : Option (List Bytes)} (hc : Called cfg s path tags s') {v : Version}
    (hv : s'.stored p = some v) : s.stored p = some v ∧ (s.Expired L p → s'.Expired L p) := by
  rw [hc.stored] at hv
  unfold Shared.Expired
  rw [hc.cache]
  exact ⟨hv, id⟩

/-- A version that is stored behind a turn, other than one that the turn commits,
was stored before, and is expired if it was. -/
theorem Turn.kept (h : s.Ok L cfg) (ht : Turn L cfg s proc proc' s') {v : Version}
    (hv : s'.stored p = some v) (hid : v.id < s.committed) :
    s.stored p = some v ∧ (s.Expired L p → s'.Expired L p) := by
  obtain ⟨files, hf, -⟩ := h.files
  cases ht with
  | capture => exact ⟨hv, id⟩
  | @commit path key tags file nodes =>
    change Function.update s.stored path.1 _ p = some v at hv
    cases hp : decide (p = path.1) with
    | true =>
      rw [of_decide_eq_true hp, Function.update_self] at hv
      rw [← Option.some.inj hv] at hid
      exact absurd hid (Nat.lt_irrefl _)
    | false =>
      have hne := of_decide_eq_false hp
      rw [Function.update_of_ne hne] at hv
      refine ⟨hv, ?_⟩
      rintro ⟨f, hd, he⟩
      refine ⟨f, ?_, he⟩
      show Function.update s.cache.disk path.1 _ p = some f.bytes
      rw [Function.update_of_ne hne, hd]
  | skip => exact ⟨hv, id⟩
  | serve => exact ⟨hv, id⟩
  | @log path key tags alloc now =>
    obtain ⟨_, hc⟩ := upsert_called h.index path alloc now key now 0 tags
    exact hc.kept hv
  | removed hd => exact removed_kept h hd hv
  | declined => exact ⟨hv, id⟩
  | started => exact ⟨hv, id⟩
  | opened hd => exact removed_kept h hd hv
  | collected => exact ⟨hv, id⟩
  | collectFailed => exact ⟨hv, id⟩
  | @purged job path todo _ calls =>
    obtain ⟨_, hd, hw, -⟩ := byPath_worked hf calls job.soft path
    exact withCache_kept hf hd hw hv
  | @purgeFailed job path todo calls =>
    obtain ⟨_, hd, hw, -⟩ := byPath_worked hf calls job.soft path
    exact withCache_kept hf hd hw hv
  | dropped now => exact (delete_called h.index now _).kept hv
  | answered => exact ⟨hv, id⟩
  | scan => exact ⟨hv, id⟩
  | parsed => exact ⟨hv, id⟩
  | scanFailed => exact ⟨hv, id⟩
  | forgotten now => exact (delete_called h.index now _).kept hv
  | @indexed path r todo _ alloc now =>
    obtain ⟨_, hc⟩ := upsert_called h.index path alloc now r.key r.mtime r.size r.tags
    exact hc.kept hv
  | marked => exact ⟨hv, id⟩

theorem Turn.committed_le (h : s.Ok L cfg) (ht : Turn L cfg s proc proc' s') :
    s.committed ≤ s'.committed := by
  cases ht with
  | commit => exact Nat.le_succ _
  | @log path key tags alloc now =>
    obtain ⟨_, hc⟩ := upsert_called h.index path alloc now key now 0 tags
    exact Nat.le_of_eq hc.committed.symm
  | @indexed path r todo _ alloc now =>
    obtain ⟨_, hc⟩ := upsert_called h.index path alloc now r.key r.mtime r.size r.tags
    exact Nat.le_of_eq hc.committed.symm
  | _ => exact Nat.le_refl _

/-- The purge of a process started now, or is the one that it worked on. -/
theorem Turn.job (ht : Turn L cfg s proc proc' s') {job' : Job} (hj : proc'.job = some job') :
    job'.start = s.committed ∨ ∃ job, proc.job = some job ∧ job'.start = job.start := by
  cases ht with
  | started =>
    rw [← Option.some.inj hj]
    exact Or.inl rfl
  | opened =>
    rw [← Option.some.inj hj]
    exact Or.inl rfl
  | collected =>
    rw [← Option.some.inj hj]
    exact Or.inr ⟨_, rfl, rfl⟩
  | purged _ _ hproc =>
    rcases hproc with rfl | rfl
    · exact Or.inr ⟨_, rfl, congrArg Job.start (Option.some.inj hj).symm⟩
    · exact Or.inr ⟨_, rfl, congrArg Job.start (Option.some.inj hj).symm⟩
  | dropped => exact Or.inr ⟨_, rfl, congrArg Job.start (Option.some.inj hj).symm⟩
  | answered => exact Or.inr ⟨_, rfl, congrArg Job.start (Option.some.inj hj).symm⟩
  | indexed _ _ hproc =>
    rcases hproc with rfl | rfl
    · exact nomatch hj
    · exact nomatch hj
  | marked _ _ hproc =>
    rcases hproc with rfl | rfl
    · exact nomatch hj
    · exact nomatch hj
  | _ => exact nomatch hj

/-- What a purge has left to do behind a turn of its own: the paths that it has
just collected, or what it had left but for the one that it has purged. -/
theorem Turn.pending (h : s.Ok L cfg) (ht : Turn L cfg s proc proc' s') {job : Job}
    {todo' : List Bytes} (hp : proc'.pending = some (job, todo')) :
    (job.seen = s.entryTags cfg ∧ s' = s ∧
      ∃ pool, job.query.collect cfg pool s.shm = some todo') ∨
    ∃ todo, proc.pending = some (job, todo) ∧ ∀ p ∈ todo, p ∈ todo' ∨
      ∀ v, s'.stored p = some v → job.soft = true ∧ s'.Expired L p := by
  obtain ⟨files, hf, -⟩ := h.files
  cases ht with
  | @collected job0 paths pool hc =>
    obtain ⟨rfl, rfl⟩ := Prod.mk.inj (Option.some.inj hp)
    exact Or.inl ⟨rfl, rfl, pool, hc⟩
  | @purged job0 path todo _ calls hrc hproc =>
    have hj : job0 = job ∧ todo = todo' := by
      rcases hproc with rfl | rfl
      · exact Prod.mk.inj (Option.some.inj hp)
      · exact Prod.mk.inj (Option.some.inj hp)
    obtain ⟨rfl, rfl⟩ := hj
    refine Or.inr ⟨path :: todo, rfl, fun p hmem => ?_⟩
    rcases List.mem_cons.mp hmem with rfl | hmem
    · obtain ⟨f', hd, hw, hanswer⟩ := byPath_worked hf calls job0.soft p
      refine Or.inr fun v hv => ?_
      -- the file is stored behind the purge, so it is on disk, expired
      generalize (byPath L calls job0.soft p s.cache).2 = cache at hd hv ⊢
      have hstored : (s.withCache p cache).stored p =
          if (cache.disk p).isSome then s.stored p else none := Function.update_self p _ s.stored
      have hdisk : cache.disk p = f'.map CacheFile.bytes := by
        rw [hd, Files.disk, Function.update_self]
      rw [hstored, hdisk, Option.isSome_map] at hv
      cases hf' : f' with
      | none =>
        rw [hf'] at hv
        cases hv
      | some f =>
        rw [hf'] at hdisk
        obtain ⟨hsoft, hexp⟩ := hanswer hrc f hf'
        exact ⟨hsoft, f, hdisk, hexp⟩
    · exact Or.inl hmem
  | @dropped job0 path todo now =>
    refine Or.inr ⟨todo', ?_, fun p hmem => Or.inl hmem⟩
    cases todo with
    | none => cases hp
    | some todo => exact hp
  | answered =>
    obtain ⟨rfl, rfl⟩ := Prod.mk.inj (Option.some.inj hp)
    exact Or.inr ⟨[], rfl, fun p hmem => absurd hmem List.not_mem_nil⟩
  | indexed _ _ hproc =>
    rcases hproc with rfl | rfl
    · cases hp
    · cases hp
  | marked _ _ hproc =>
    rcases hproc with rfl | rfl
    · cases hp
    · cases hp
  | _ => cases hp

/-! ## A whole run -/

/-- What the index has under the tags of a query is collected. -/
theorem collect_covered (h : s.Ok L cfg) {job : Job} (hseen : job.seen = s.entryTags cfg)
    {pool : PoolSite → Bool} {paths : List Bytes}
    (hc : job.query.collect cfg pool s.shm = some paths) : Covered L s job paths := by
  rintro p v - - ⟨tags, hq, t, ht, T, hT, htT⟩
  rw [hseen] at hT
  obtain ⟨⟨key, T'⟩, hmap, rfl⟩ := Option.map_eq_some_iff.mp hT
  rw [hq] at hc
  exact Or.inl ((h.index.mem_collectTags hc).mpr
    ⟨t, ht, _, (toMap_eq_some h.index.ok).mp hmap, htT, rfl⟩)

/-- The invariant of the purges. -/
structure PurgesOk (L : HeaderLayout) (cfg : ZoneConf) (w : Workers) : Prop where
  ok : w.shared.Ok L cfg
  started : ∀ pid job, (w.procs pid).job = some job → job.start ≤ w.shared.committed
  covered : ∀ pid job todo, (w.procs pid).pending = some (job, todo) → Covered L w.shared job todo

theorem Proc.job_of_pending {job : Job} {todo : List Bytes} (h : proc.pending = some (job, todo)) :
    proc.job = some job := by
  cases proc with
  | purging job' todo' =>
    cases todo' with
    | none => exact nomatch h
    | some _ => exact congrArg some (Prod.mk.inj (Option.some.inj h)).1
  | dropping job' path todo' =>
    cases todo' with
    | none => exact nomatch h
    | some _ => exact congrArg some (Prod.mk.inj (Option.some.inj h)).1
  | answered job' => exact congrArg some (Prod.mk.inj (Option.some.inj h)).1
  | _ => exact nomatch h

theorem PurgesOk.step {w : Workers} {pid : Nat} (h : PurgesOk L cfg w)
    (ht : Turn L cfg w.shared (w.procs pid) proc s) :
    PurgesOk L cfg ⟨s, Function.update w.procs pid proc⟩ := by
  have hle := ht.committed_le h.ok
  -- the work that a purge has left stays covered: nothing that it must purge comes back
  have hkeep : ∀ {job : Job} {todo todo' : List Bytes}, job.start ≤ w.shared.committed →
      Covered L w.shared job todo →
      (∀ p ∈ todo, p ∈ todo' ∨ ∀ v, s.stored p = some v → job.soft = true ∧ s.Expired L p) →
      Covered L s job todo' := by
    intro job todo todo' hstart hcov htodo p v hv hid hsel
    obtain ⟨hv0, hexp⟩ := ht.kept h.ok hv (Nat.lt_of_lt_of_le hid hstart)
    rcases hcov p v hv0 hid hsel with hmem | ⟨hsoft, he⟩
    · exact (htodo p hmem).imp_right fun hdone => hdone v hv
    · exact Or.inr ⟨hsoft, hexp he⟩
  refine ⟨h.ok.turn ht, fun pid' job hj => ?_, fun pid' job todo' hp => ?_⟩
  · cases hpid : decide (pid' = pid) with
    | true =>
      obtain rfl := of_decide_eq_true hpid
      simp only [Function.update_self] at hj
      rcases ht.job hj with hnew | ⟨job0, hj0, hsame⟩
      · rw [hnew]
        exact hle
      · rw [hsame]
        exact Nat.le_trans (h.started pid' job0 hj0) hle
    | false =>
      simp only [Function.update_of_ne (of_decide_eq_false hpid)] at hj
      exact Nat.le_trans (h.started pid' job hj) hle
  · cases hpid : decide (pid' = pid) with
    | true =>
      obtain rfl := of_decide_eq_true hpid
      simp only [Function.update_self] at hp
      rcases ht.pending h.ok hp with ⟨hseen, rfl, pool, hc⟩ | ⟨todo, hp0, htodo⟩
      · exact collect_covered h.ok hseen hc
      · exact hkeep (h.started pid' job (Proc.job_of_pending hp0)) (h.covered pid' job todo hp0) htodo
    | false =>
      simp only [Function.update_of_ne (of_decide_eq_false hpid)] at hp
      exact hkeep (h.started pid' job (Proc.job_of_pending hp)) (h.covered pid' job todo' hp)
        fun p hmem => Or.inl hmem

/-- When a tag purge is answered 200, a file that was committed before it started
and that the index had under one of its tags when it collected its paths is off
the disk or, if the purge is soft, expired. -/
theorem tag_purge_covers {w0 w : Workers} {as : Schedule L} (hok : w0.shared.Ok L cfg)
    (hidle : ∀ pid, w0.procs pid = .idle) (hr : run (turn cfg) w0 as = some w) {pid : Nat}
    {job : Job} (hanswered : w.procs pid = .answered job) {tags T : List Bytes} {t : Bytes}
    (hquery : job.query = .tags tags) (ht : t ∈ tags) {p : Bytes} {v : Version}
    (hv : w.shared.stored p = some v) (hbefore : v.id < job.start) (hseen : job.seen p = some T)
    (htT : t ∈ T) : job.soft = true ∧ w.shared.Expired L p := by
  have h0 : PurgesOk L cfg w0 :=
    { ok := hok
      started := fun pid job hj => by
        rw [hidle pid] at hj
        exact nomatch hj
      covered := fun pid job todo hp => by
        rw [hidle pid] at hp
        exact nomatch hp }
  have hinv : PurgesOk L cfg w :=
    run_invariant (I := PurgesOk L cfg) (fun w pid act proc s h ht => h.step (turn_cases ht)) h0 hr
  have hpending : (w.procs pid).pending = some (job, []) := by
    rw [hanswered]
    rfl
  rcases hinv.covered pid job [] hpending p v hv hbefore ⟨tags, hquery, t, ht, T, hseen, htT⟩ with
    hmem | hdone
  · exact absurd hmem List.not_mem_nil
  · exact hdone

/-! ## A purge alone -/

/-- One turn of the loop of `index_purge` is `by_path`, and a delete where the
query drops the entry. -/
theorem purgeTagged_eq (N : Nginx) (L : HeaderLayout) (calls : FileCalls) (now : Int)
    (zoneName : Bytes) (soft : Bool) (path : Bytes) (tags : List Bytes) (s : Pilot) :
    purgeTagged N L calls now zoneName soft path s =
      let r := byPath L calls soft path s.cache
      (r.1, if (Query.tags tags).drops soft r.1 then
          deleteIndexPath N now zoneName path { s with cache := r.2 }
        else { s with cache := r.2 }) := by
  unfold purgeTagged purgeByPath Query.drops
  generalize byPath L calls soft path s.cache = r
  obtain ⟨rc, cache⟩ := r
  cases soft with
  | false => cases rc <;> rfl
  | true => cases rc <;> rfl

/-- The turns of the loop, with nobody in between, are the loop of `index_purge`. -/
theorem purge_loop_turns {procs : Nat → Proc} {pid : Nat} {job : Job} {tags paths : List Bytes}
    (hproc : procs pid = .purging job (some paths)) (hquery : job.query = .tags tags)
    {calls : Nat → FileCalls} {now : Int} {k count purged : Nat} {pilot pilot' : Pilot}
    (hcache : pilot.cache = s.cache) (hshm : pilot.shm = s.shm)
    (hloop : purgePaths (fun k => purgeTagged cfg.N L (calls k) now cfg.zoneName job.soft) k paths
      count pilot = (.ok, purged, pilot')) :
    ∃ (as : Schedule L) (s' : Shared), run (turn cfg) ⟨s, procs⟩ as =
        some ⟨s', Function.update procs pid (.purging job (some []))⟩ ∧
      s'.cache = pilot'.cache ∧ s'.shm = pilot'.shm := by
  induction paths generalizing s procs k count pilot with
  | nil =>
    obtain ⟨-, hrest⟩ := Prod.mk.inj hloop
    obtain ⟨-, rfl⟩ := Prod.mk.inj hrest
    refine ⟨[], s, ?_, hcache.symm, hshm.symm⟩
    rw [← hproc, Function.update_eq_self]
    rfl
  | cons path paths ih =>
    -- the turn that purges the file
    have hpurge : turn (L := L) cfg (procs pid) (.purge (calls k)) s =
        (let r := byPath L (calls k) job.soft path s.cache
        let s := s.withCache path r.2
        if r.1 ≠ .ok ∧ r.1 ≠ .declined then some (.failed, s)
        else if (Query.tags tags).drops job.soft r.1 then some (.dropping job path (some paths), s)
        else some (.purging job (some paths), s)) := by
      rw [hproc, ← hquery]
      rfl
    have hone := purgeTagged_eq cfg.N L (calls k) now cfg.zoneName job.soft path tags pilot
    unfold purgePaths at hloop
    rw [hone, hcache] at hloop
    simp only at hpurge hloop
    cases hr : byPath L (calls k) job.soft path s.cache with | mk rc cache =>
    rw [hr] at hpurge hloop
    simp only at hpurge hloop
    -- the loop goes on behind the turn, or behind another one that drops the entry
    have hnext : ∀ count, purgePaths
          (fun k => purgeTagged cfg.N L (calls k) now cfg.zoneName job.soft) (k + 1) paths count
          (if (Query.tags tags).drops job.soft rc then
              deleteIndexPath cfg.N now cfg.zoneName path { pilot with cache := cache }
            else { pilot with cache := cache }) = (.ok, purged, pilot') →
        ¬ (rc ≠ .ok ∧ rc ≠ .declined) →
        ∃ (as : Schedule L) (s' : Shared), run (turn cfg) ⟨s, procs⟩ as =
            some ⟨s', Function.update procs pid (.purging job (some []))⟩ ∧
          s'.cache = pilot'.cache ∧ s'.shm = pilot'.shm := by
      intro count hrest hrc
      rw [if_neg hrc] at hpurge
      cases hdrops : (Query.tags tags).drops job.soft rc with
      | false =>
        rw [hdrops, if_neg Bool.false_ne_true] at hpurge hrest
        obtain ⟨as, s', hrun, hc', hs'⟩ := @ih (s.withCache path cache)
          (Function.update procs pid (.purging job (some paths))) (Function.update_self pid _ procs)
          (k + 1) count { pilot with cache := cache } rfl hshm hrest
        refine ⟨(pid, .purge (calls k)) :: as, s', ?_, hc', hs'⟩
        rw [run_turn hpurge, hrun, Function.update_idem]
      | true =>
        rw [hdrops, if_pos rfl] at hpurge hrest
        obtain ⟨as, s', hrun, hc', hs'⟩ := @ih ((s.withCache path cache).delete cfg now path)
          (Function.update (Function.update procs pid (.dropping job path (some paths))) pid
            (.purging job (some paths))) (Function.update_self pid _ _) (k + 1) count
          (deleteIndexPath cfg.N now cfg.zoneName path { pilot with cache := cache }) rfl
          (congrArg (fun shm => (deleteFile cfg.N now cfg.zoneName path shm).2) hshm) hrest
        have hdrop : turn (L := L) cfg
            (Function.update procs pid (.dropping job path (some paths)) pid) (.drop now)
            (s.withCache path cache) =
              some (.purging job (some paths), (s.withCache path cache).delete cfg now path) := by
          rw [Function.update_self]
          rfl
        refine ⟨(pid, .purge (calls k)) :: (pid, .drop now) :: as, s', ?_, hc', hs'⟩
        rw [run_turn hpurge, run_turn hdrop, hrun, Function.update_idem, Function.update_idem]
    cases rc with
    | ok => exact hnext (count + 1) hloop (by decide)
    | declined => exact hnext count hloop (by decide)
    | error => exact nomatch (Prod.mk.inj hloop).1
    | again => exact nomatch (Prod.mk.inj hloop).1
    | done => exact nomatch (Prod.mk.inj hloop).1

/-- A tag purge that is answered 200 is a run of its worker alone: it leaves the
same cache and the same index. -/
theorem tag_purge_turns {access : IndexAccess} {r : PurgeRequest} {tags : List Bytes}
    {pilot : Pilot} {w : Workers} {pid : Nat} (hidle : w.procs pid = .idle)
    (hzone : access.zone = some cfg.zoneName) (hcache : pilot.cache = w.shared.cache)
    (hshm : pilot.shm = w.shared.shm)
    (hok : (dispatchTags cfg.N L access r tags pilot).1 = .ok) :
    ∃ (as : Schedule L) (w' : Workers) (job : Job), run (turn cfg) w as = some w' ∧
      w'.procs pid = .answered job ∧ job.query = .tags tags ∧
      w'.shared.cache = (dispatchTags cfg.N L access r tags pilot).2.cache ∧
      w'.shared.shm = (dispatchTags cfg.N L access r tags pilot).2.shm := by
  obtain ⟨hopen, hne⟩ := dispatchTags_ok hok
  obtain ⟨hconf, hreader, zoneName, hzone', hready⟩ := refusal_eq_none hopen
  obtain rfl := Option.some.inj (hzone'.symm.trans hzone)
  obtain ⟨hc, hs⟩ := dispatchTags_state (N := cfg.N) (L := L) access r pilot tags
  rw [hc, hs]
  unfold indexPurge at hne ⊢
  simp only [hconf, hzone, hreader, hready, Bool.not_true, Bool.false_eq_true, if_false] at hne ⊢
  cases hc : collectPathsByTags cfg.N r.pool.collect pilot.shm cfg.zoneName tags with
  | none =>
    rw [hc] at hne
    exact absurd rfl hne
  | some paths =>
    rw [hc] at hne
    simp only at hne ⊢
    cases hp : purgePaths (fun k => purgeTagged cfg.N L (r.calls k) r.now cfg.zoneName r.soft) 0
      paths 0 pilot with | mk rc res =>
    obtain ⟨purged, pilot'⟩ := res
    rw [hp] at hne
    have hrc : rc = .ok := by
      have hres := purgePaths_rc (fun k => purgeTagged cfg.N L (r.calls k) r.now cfg.zoneName r.soft)
        0 paths 0 pilot
      rw [hp] at hres
      refine hres.resolve_right fun h => ?_
      simp only at h
      rw [h] at hne
      exact absurd rfl hne
    subst hrc
    -- the turns before the loop: the start, and the collection of the paths
    have hstart : turn (L := L) cfg (w.procs pid) (.tagPurge r.now r.soft tags) w.shared =
        some (.purging (.new w.shared (.tags tags) r.soft) none, w.shared) := by
      rw [hidle]
      show (if (getZoneState r.now w.shared.shm cfg.zoneName).bootstrapComplete then
        some (Proc.purging (.new w.shared (.tags tags) r.soft) none, w.shared) else _) = _
      rw [← hshm, hready, if_pos rfl]
    let procs1 := Function.update w.procs pid
      (.purging (.new w.shared (.tags tags) r.soft) none)
    let job : Job := ⟨.tags tags, r.soft, w.shared.committed, w.shared.entryTags cfg⟩
    have hcollect : turn (L := L) cfg (procs1 pid) (.collect r.pool.collect) w.shared =
        some (.purging job (some paths), w.shared) := by
      have hproc : procs1 pid = .purging (.new w.shared (.tags tags) r.soft) none :=
        Function.update_self pid _ w.procs
      rw [hshm] at hc
      rw [hproc]
      simp only [turn, Query.collect, Job.new, hc]
      rfl
    obtain ⟨as, s', hrun, hc', hs'⟩ := purge_loop_turns
      (Function.update_self pid (Proc.purging job (some paths)) procs1) rfl hcache hshm hp
    let procs2 := Function.update (Function.update procs1 pid (.purging job (some paths))) pid
      (.purging job (some []))
    have hanswer : turn (L := L) cfg (procs2 pid) .answer s' = some (.answered job, s') := by
      have hproc : procs2 pid = .purging job (some []) := Function.update_self pid _ _
      rw [hproc]
      rfl
    refine ⟨(pid, .tagPurge r.now r.soft tags) :: (pid, .collect r.pool.collect) ::
      (as ++ [(pid, .answer)]), ⟨s', Function.update procs2 pid (.answered job)⟩, job, ?_,
      Function.update_self pid _ _, rfl, ?_, ?_⟩
    · rw [run_turn hstart]
      refine (run_turn hcollect).trans (run_append.mpr ⟨_, hrun, ?_⟩)
      exact run_turn hanswer
    · simp only
      split
      · simpa using hc'
      · simpa using hc'
    · simp only
      split
      · simpa using hs'
      · simpa using hs'

/-! ## Sample runs -/

/-- The workers of an empty cache whose zone is marked complete. -/
def readyWorkers : Workers where
  shared := { emptyWorkers.shared with
    shm := (setZoneState true 1 sampleConf.zoneName ⟨true, 1, 1⟩ .init).2 }
  procs := emptyWorkers.procs

theorem readyWorkers_ok : readyWorkers.shared.Ok .reference sampleConf where
  files := emptyWorkers_start.ok.files
  index := emptyWorkers_start.ok.index.setZoneState
  last := fun _ _ h => nomatch h

/-- Whether a worker has answered a purge by the tag `t` that started behind one
commit. -/
def answeredPurge (soft : Bool) : Proc → Option Job
  | .answered job =>
    match job.query with
    | .tags tags => if tags = [[116]] ∧ job.start = 1 ∧ job.soft = soft then some job else none
    | _ => none
  | _ => none

theorem answeredPurge_some {soft : Bool} {job : Job} (h : answeredPurge soft proc = some job) :
    proc = .answered job ∧ job.query = .tags [[116]] ∧ job.start = 1 ∧ job.soft = soft := by
  unfold answeredPurge at h
  split at h
  · split at h
    · next hq =>
      split at h
      · next hc =>
        obtain rfl := Option.some.inj h
        obtain ⟨rfl, hstart, hsoft⟩ := hc
        exact ⟨rfl, hq, hstart, hsoft⟩
      · exact nomatch h
    · exact nomatch h
  · exact nomatch h

/-- A soft purge behind a request that stored a file and was logged. -/
def purgeLogged : Schedule .reference :=
  storeAndLog 116 ++ [(1, .tagPurge 2 true [[116]]), (1, .collect fun _ => true),
    (1, .purge .works), (1, .answer)]

theorem tag_purge_covers_sample :
    ∃ w job, run (turn sampleConf) readyWorkers purgeLogged = some w ∧
      w.procs 1 = .answered job ∧ w.shared.stored [97] = some ⟨0, [[116]]⟩ ∧
      job.soft = true ∧ w.shared.Expired .reference [97] := by
  have hrun : (run (turn sampleConf) readyWorkers purgeLogged).any (fun w =>
      w.shared.stored [97] == some ⟨0, [[116]]⟩ &&
        (answeredPurge true (w.procs 1)).any fun job => job.seen [97] == some [[116]]) = true := by
    decide +kernel
  obtain ⟨w, hr, hw⟩ := (Option.any_eq_true _ _).mp hrun
  obtain ⟨hstored, hany⟩ := Bool.and_eq_true_iff.mp hw
  obtain ⟨job, hjob, hseen⟩ := (Option.any_eq_true _ _).mp hany
  obtain ⟨hanswered, hquery, hstart, -⟩ := answeredPurge_some hjob
  refine ⟨w, job, hr, hanswered, beq_iff_eq.mp hstored, ?_⟩
  exact tag_purge_covers readyWorkers_ok (fun _ => rfl) hr hanswered hquery
    (List.mem_singleton_self _) (beq_iff_eq.mp hstored) (by rw [hstart]; exact Nat.zero_lt_one)
    (beq_iff_eq.mp hseen) (List.mem_singleton_self _)

/-- A hard purge starts and is answered between the commit of a file and its log
handler. -/
def purgeUnlogged : Schedule .reference :=
  [(0, .capture sampleName [107] [[116]]), (0, .commit (sampleFile [116]) emptyCache),
   (1, .tagPurge 2 false [[116]]), (1, .collect fun _ => true), (1, .answer),
   (0, .log (fun _ => true) 3)]

theorem tag_purge_misses_unlogged :
    (getZoneState 1 readyWorkers.shared.shm sampleConf.zoneName).bootstrapComplete = true ∧
    ∃ w job, run (turn sampleConf) readyWorkers purgeUnlogged = some w ∧
      w.procs 1 = .answered job ∧ job.query = .tags [[116]] ∧ job.start = 1 ∧ job.soft = false ∧
      w.shared.stored [97] = some ⟨0, [[116]]⟩ ∧
      w.shared.cache.disk [97] = some (sampleFile [116]).bytes := by
  have hrun : (run (turn sampleConf) readyWorkers purgeUnlogged).any (fun w =>
      (w.shared.stored [97] == some ⟨0, [[116]]⟩ &&
        w.shared.cache.disk [97] == some (sampleFile [116]).bytes) &&
        (answeredPurge false (w.procs 1)).isSome) = true := by decide +kernel
  obtain ⟨w, hr, hw⟩ := (Option.any_eq_true _ _).mp hrun
  obtain ⟨hdisk, hsome⟩ := Bool.and_eq_true_iff.mp hw
  obtain ⟨hstored, hdisk⟩ := Bool.and_eq_true_iff.mp hdisk
  obtain ⟨job, hjob⟩ := Option.isSome_iff_exists.mp hsome
  obtain ⟨hanswered, hquery, hstart, hsoft⟩ := answeredPurge_some hjob
  exact ⟨by decide +kernel, w, job, hr, hanswered, hquery, hstart, hsoft, beq_iff_eq.mp hstored,
    beq_iff_eq.mp hdisk⟩

end CachePilot
