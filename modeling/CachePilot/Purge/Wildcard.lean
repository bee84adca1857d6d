import CachePilot.Purge.Exact
import CachePilot.Purge.Match

/-!
# Wildcard purges

`ngx_http_cache_pilot_partial`: a purge of every file whose key begins with the
part of the request key before its asterisk. It asks the index first. When the
index gives a file that is purged, the purge ends there; otherwise it walks the
cache directory, in a thread if there is a pool. What the walk meets is an
argument.

Results:
* `wildcard_purge_complete_iff`: when a purge is answered 200 and leaves no file of
  its prefix;
* `wildcard_purge_misses_unindexed`: one that leaves a file behind an incomplete
  index.
-/

namespace CachePilot
open NgxString

/-! ## The walk -/

/-- What a walk of the cache directory meets: the regular files in the order in
which they are read, whether the cache directory itself can be read to its end, and
the system calls on each file. A directory below it that cannot be read is passed
over, which only shortens the listing. -/
structure Walk where
  listing : List Bytes
  readable : Bool
  calls : Nat → FileCalls

/-- `ngx_walk_tree`, from file number `k`. Of a file handler it looks for `NGX_ABORT`
alone, which none of these returns: a failure does not end the walk. -/
def walkTree (readable : Bool) (fileHandler : Nat → Bytes → Nat → FileCache → NgxRc × Nat × FileCache) :
    Nat → List Bytes → Nat → FileCache → NgxRc × Nat × FileCache
  | _, [], purged, c => (if readable then .ok else .error, purged, c)
  | k, path :: listing, purged, c =>
    let r := fileHandler k path purged c
    walkTree readable fileHandler (k + 1) listing r.2.1 r.2.2

/-- `ngx_http_cache_pilot_file_cache_delete_partial_file`; a failure is not passed
on. -/
def deletePartialFile (L : HeaderLayout) (calls : FileCalls) (keyPartial path : Bytes) (purged : Nat)
    (c : FileCache) : NgxRc × Nat × FileCache :=
  if !partialMatch L calls keyPartial path c.disk then (.ok, purged, c)
  else
    match byPath L calls false path c with
    | (.ok, c) => (.ok, purged + 1, c)
    | (_, c) => (.ok, purged, c)

/-- `ngx_http_cache_pilot_file_cache_soft_partial_file`. -/
def softPartialFile (L : HeaderLayout) (calls : FileCalls) (keyPartial path : Bytes) (purged : Nat)
    (c : FileCache) : NgxRc × Nat × FileCache :=
  if !partialMatch L calls keyPartial path c.disk then (.ok, purged, c)
  else
    match softPath L calls path c with
    | (.ok, c) => (.ok, purged + 1, c)
    | (rc, c) => (rc, purged, c)

/-- The walk of a wildcard purge. -/
def walkPartial (L : HeaderLayout) (w : Walk) (soft : Bool) (keyPartial : Bytes) (c : FileCache) :
    NgxRc × Nat × FileCache :=
  walkTree w.readable
    (fun k => if soft then softPartialFile L (w.calls k) keyPartial
      else deletePartialFile L (w.calls k) keyPartial) 0 w.listing 0 c

/-! ## The request -/

/-- The part of the key before the asterisk, as `partial` joins it from the parts
of the key; `none` where it gives up. -/
def keyPrefix (pool : PurgePool) (keys : List Bytes) : Option Bytes :=
  match keys with
  | [] => none
  | key :: rest =>
    if key.length = 0 then none
    else
      let first := if key.getLast? = some 42 then key.dropLast else key
      let keyPrefix := first ++ rest.flatten
      if keyPrefix.length = 0 then none
      else if pool.keyPrefix then some keyPrefix else none

/-- The index part of a wildcard purge. -/
def partialFromIndex (N : Nginx) (L : HeaderLayout) (access : IndexAccess) (r : PurgeRequest)
    (pre : Bytes) (s : Pilot) : NgxRc × Nat × Pilot :=
  match keyIndexReady access r.pool s with
  | (none, s) => (.ok, 0, s)
  | (some zoneName, s) =>
    match collectPathsByKeyPrefix r.pool.collect s.shm zoneName pre with
    | none => (.ok, 0, s)
    | some paths =>
      purgePaths (fun k => byIndexedPath N L (r.calls k) r.now zoneName r.soft) 0 paths 0 s

/-- Count a wildcard purge of `purged` files. -/
def recordWildcardPurge (r : PurgeRequest) (purged : Nat) (s : Pilot) : Pilot :=
  (s.recordPurge r.pool .wildcard r.soft purged).recordPurgeRequest .wildcard r.soft

/-- The first key part without its last character, which the walk compares. -/
def keyPartial (keys : List Bytes) : Bytes := (keys.headD []).dropLast

/-- `ngx_http_cache_pilot_partial`. `threads` is whether the location has a thread
pool, and then whether it takes the task; `done` is returned when the walk was
left to it. -/
def partialPurge (N : Nginx) (L : HeaderLayout) (access : IndexAccess) (w : Walk)
    (threads : Option Bool) (r : PurgeRequest) (s : Pilot) : NgxRc × Pilot :=
  match keyPrefix r.pool r.keys with
  | none => (.error, s)
  | some pre =>
    match partialFromIndex N L access r pre s with
    | (.error, _, s) => (.error, s)
    | (_, purged, s) =>
      if 0 < purged then
        let s := (s.setResponsePath r.pool .wildcardIndex).recordPurge r.pool .wildcard r.soft purged
        (.ok, s.recordKeyIndexWildcardHit.recordPurgeRequest .wildcard r.soft)
      else if !r.pool.walk || (0 < (keyPartial r.keys).length && !r.pool.keyInFile) then (.error, s)
      else
        match threads with
        | some posted =>
          if posted then (.done, s.setResponsePath r.pool .filesystemFallback) else (.error, s)
        | none =>
          let s := s.setResponsePath r.pool .filesystemFallback
          match walkPartial L w r.soft (keyPartial r.keys) s.cache with
          | (.ok, purged, cache) => (.ok, recordWildcardPurge r purged { s with cache := cache })
          | (_, _, cache) => (.error, { s with cache := cache })

/-- `ngx_http_cache_pilot_partial_completion`; a request that is gone by then is
not answered. -/
def partialCompletion (r : PurgeRequest) (terminated : Bool) (rc : NgxRc) (purged : Nat) (s : Pilot) :
    Option Answer × Pilot :=
  if terminated then (none, s)
  else if rc = .ok then (some (sendResponse r.pool), recordWildcardPurge r purged s)
  else (some .internalServerError, s)

/-- A wildcard purge from `protocol_handler` to its answer, with the walk in the
thread and its completion where there is one. -/
def wildcardRequest (N : Nginx) (L : HeaderLayout) (access : IndexAccess) (w : Walk)
    (threads : Option Bool) (terminated : Bool) (r : PurgeRequest) (s : Pilot) :
    Option Answer × Pilot :=
  match partialPurge N L access w threads r s with
  | (.done, s) =>
    let walked := walkPartial L w r.soft (keyPartial r.keys) s.cache
    partialCompletion r terminated walked.1 walked.2.1 { s with cache := walked.2.2 }
  | (.ok, s) =>
    let answer := handler N L access .declined false false r s
    (some answer.1, answer.2)
  | (_, s) => (some .internalServerError, s)

/-! ## What the walk leaves -/

variable {N : Nginx} {L : HeaderLayout} {access : IndexAccess} {r : PurgeRequest} {s : Pilot}
  {files files' files'' : Files L} {c : FileCache} {soft : Bool} {pre : Bytes}

/-- The listed files of the prefix are purged, and a file that is left is the one
that was there. -/
structure Walked (soft : Bool) (pre : Bytes) (listing : List Bytes) (files files' : Files L) :
    Prop where
  own : ∀ p ∈ listing, ∀ f, files' p = some f → pre <+: f.key → soft = true ∧ f.Expired
  kept : ∀ p f', files' p = some f' →
    ∃ f, files p = some f ∧ f'.key = f.key ∧ (f.Expired → f'.Expired)

theorem Walked.nil (soft : Bool) (pre : Bytes) (files : Files L) : Walked soft pre [] files files where
  own _ hp := absurd hp List.not_mem_nil
  kept _ f' h := ⟨f', h, rfl, id⟩

theorem Walked.cons {path : Bytes} {listing : List Bytes} (h : Walked soft pre [path] files files')
    (h' : Walked soft pre listing files' files'') : Walked soft pre (path :: listing) files files'' where
  own p hp f hf hpre := by
    rcases List.mem_cons.mp hp with rfl | hp
    · obtain ⟨g, hg, hk, he⟩ := h'.kept p f hf
      obtain ⟨hs, hexp⟩ := h.own p (List.mem_singleton_self p) g hg (hk ▸ hpre)
      exact ⟨hs, he hexp⟩
    · exact h'.own p hp f hf hpre
  kept p f'' hf := by
    obtain ⟨f', hf', hk', he'⟩ := h'.kept p f'' hf
    obtain ⟨f, hf, hk, he⟩ := h.kept p f' hf'
    exact ⟨f, hf, hk'.trans hk, fun h0 => he' (he h0)⟩

theorem Walked.purge (soft : Bool) (pre path : Bytes) (files : Files L) :
    Walked soft pre [path] files (files.purge soft path) where
  own p hp f hf _ := (Purges.single soft path files).own p hp f hf
  kept := (Purges.single soft path files).kept

/-- A file that is not selected does not have the prefix. -/
theorem Walked.skip {path : Bytes}
    (h : partialMatch L .works pre path files.disk = false) : Walked soft pre [path] files files where
  own p hp f hf hpre := by
    rw [List.mem_singleton.mp hp] at hf
    rw [(partialMatch_iff hf).mpr (bytesMatch_of_isPrefix hpre)] at h
    exact nomatch h
  kept _ f' hf := ⟨f', hf, rfl, id⟩

/-- A selected file is on disk. -/
theorem isSome_of_partialMatch {path : Bytes} (hpre : pre ≠ [])
    (h : partialMatch L .works pre path files.disk = true) : (files path).isSome = true := by
  cases hf : files path with
  | some f => rfl
  | none =>
    have hne : ¬ pre.length = 0 := fun h0 => hpre (List.eq_nil_of_length_eq_zero h0)
    unfold partialMatch at h
    rw [if_neg hne, Files.disk_eq_none.mpr hf] at h
    exact nomatch h

theorem partialFile_spec (hd : c.disk = files.disk) (hpre : pre ≠ []) (soft : Bool) (path : Bytes)
    (purged : Nat) :
    ∃ purged' c' files',
      (if soft then softPartialFile L .works pre else deletePartialFile L .works pre) path purged c =
        (.ok, purged', c') ∧ c'.disk = files'.disk ∧ Walked soft pre [path] files files' := by
  cases hm : partialMatch L .works pre path files.disk with
  | false =>
    refine ⟨purged, c, files, ?_, hd, .skip hm⟩
    cases soft with
    | true => simp [softPartialFile, hd, hm]
    | false => simp [deletePartialFile, hd, hm]
  | true =>
    have hsome := isSome_of_partialMatch hpre hm
    cases soft with
    | true =>
      have hspec := softPath_spec (L := L) hd .works path
      cases hr : softPath L .works path c with | mk rc c1 =>
      rw [hr] at hspec
      cases hspec with
      | purged _ hd1 =>
        refine ⟨purged + 1, c1, _, ?_, hd1, .purge true pre path files⟩
        simp [softPartialFile, hd, hm, hr]
      | missing hnone _ =>
        rw [hnone] at hsome
        exact nomatch hsome
      | vanished hw _ _ => exact absurd rfl hw
      | failed hw _ => exact absurd rfl hw
    | false =>
      have hspec := byPath_spec (L := L) hd .works false path
      cases hr : byPath L .works false path c with | mk rc c1 =>
      rw [hr] at hspec
      cases hspec with
      | purged _ hd1 =>
        refine ⟨purged + 1, c1, _, ?_, hd1, .purge false pre path files⟩
        simp [deletePartialFile, hd, hm, hr]
      | missing hnone _ =>
        rw [hnone] at hsome
        exact nomatch hsome
      | vanished hw _ _ => exact absurd rfl hw
      | failed hw _ => exact absurd rfl hw

/-- The walk reaches every file on disk, and nothing fails on the way. -/
structure Walk.Works (w : Walk) (files : Files L) : Prop where
  listing : ∀ p, (files p).isSome = true → p ∈ w.listing
  readable : w.readable = true
  calls : ∀ k, w.calls k = .works

theorem walkPartial_spec (hd : c.disk = files.disk) (hpre : pre ≠ []) {w : Walk}
    (hw : w.Works files) (soft : Bool) :
    ∃ purged' c' files', walkPartial L w soft pre c = (.ok, purged', c') ∧ c'.disk = files'.disk ∧
      Walked soft pre w.listing files files' := by
  unfold walkPartial
  rw [hw.readable]
  have hcalls := hw.calls
  clear hw
  -- from any file of the listing on, over what the walk has left so far
  have hwalk : ∀ (listing : List Bytes) (k purged : Nat) (c : FileCache) (files : Files L),
      c.disk = files.disk →
      ∃ purged' c' files', walkTree true
          (fun k => if soft then softPartialFile L (w.calls k) pre
            else deletePartialFile L (w.calls k) pre) k listing purged c = (.ok, purged', c') ∧
        c'.disk = files'.disk ∧ Walked soft pre listing files files' := by
    intro listing
    induction listing with
    | nil =>
      intro k purged c files hd
      exact ⟨purged, c, files, rfl, hd, .nil soft pre files⟩
    | cons path listing ih =>
      intro k purged c files hd
      obtain ⟨purged1, c1, files1, h1, hd1, hw1⟩ := partialFile_spec hd hpre soft path purged
      obtain ⟨purged2, c2, files2, h2, hd2, hw2⟩ := ih (k + 1) purged1 c1 files1 hd1
      refine ⟨purged2, c2, files2, ?_, hd2, hw1.cons hw2⟩
      unfold walkTree
      simp only [hcalls]
      rw [h1]
      simpa only [hcalls] using h2
  exact hwalk w.listing 0 0 c files hd

/-! ## What the index leaves -/

/-- The files that the index offers for the prefix. -/
def Offered (files : Files L) (rs : List Record) (pre : Bytes) : Prop :=
  ∃ rec ∈ rs, keyHasPrefix rec.key pre = true ∧ (files rec.path).isSome = true

theorem mem_prefixedPaths {rs : List Record} {p : Bytes} :
    p ∈ prefixedPaths rs pre ↔ ∃ rec ∈ rs, keyHasPrefix rec.key pre = true ∧ rec.path = p := by
  unfold prefixedPaths
  rw [List.mem_map]
  constructor
  · rintro ⟨rec, hrec, hp⟩
    exact ⟨rec, (List.mem_filter.mp hrec).1, (List.mem_filter.mp hrec).2, hp⟩
  · rintro ⟨rec, hrec, hk, hp⟩
    exact ⟨rec, List.mem_filter.mpr ⟨hrec, hk⟩, hp⟩

/-- The records that the index shows to a purge; none when it is not ready. -/
def shownRecords (access : IndexAccess) (shm : Shm) : List Record :=
  match access.ready with
  | none => []
  | some zoneName => recordsOf shm zoneName

variable (access) in
theorem partialFromIndex_spec (hindex : IndexOk N s.shm) (hd : s.cache.disk = files.disk)
    (hworks : r.FilesWork) (hpool : r.pool.collect = fun _ => true) (pre : Bytes) :
    ∃ purged s' files', partialFromIndex N L access r pre s = (.ok, purged, s') ∧
      s'.cache.disk = files'.disk ∧
      Purges r.soft (prefixedPaths (shownRecords access s.shm) pre) files files' ∧
      (0 < purged ↔ Offered files (shownRecords access s.shm) pre) := by
  obtain ⟨hz, hcache, hshm⟩ := keyIndexReady_eq access r.pool s
  unfold partialFromIndex shownRecords
  generalize keyIndexReady access r.pool s = ready at hz hcache hshm
  obtain ⟨z, s1⟩ := ready
  simp only at hz hcache hshm
  rw [hz]
  cases access.ready with
  | none =>
    refine ⟨0, s1, files, rfl, by rw [hcache, hd], .nil r.soft files, ?_⟩
    simp [Offered]
  | some zoneName =>
    simp only [hpool, hshm, hindex.collectPrefix_success]
    have hd1 : s1.cache.disk = files.disk := by rw [hcache, hd]
    have hres : PurgePathsResult r.calls r.soft (prefixedPaths (recordsOf s.shm zoneName) pre) files 0
        (purgePaths (fun k => byIndexedPath N L (r.calls k) r.now zoneName r.soft) 0
          (prefixedPaths (recordsOf s.shm zoneName) pre) 0 s1) :=
      purgePaths_spec
        (fun k path s files hd => byIndexedPath_spec hd N (r.calls k) r.now zoneName path) hd1 0 _ 0
    generalize purgePaths (fun k => byIndexedPath N L (r.calls k) r.now zoneName r.soft) 0
      (prefixedPaths (recordsOf s.shm zoneName) pre) 0 s1 = res at hres
    cases hres with
    | purged hd' hpur _ hcount =>
      refine ⟨_, _, _, rfl, hd', hpur, (hcount hworks.calls).trans ?_⟩
      unfold Offered
      constructor
      · rintro ⟨p, hp, hsome⟩
        obtain ⟨rec, hrec, hk, rfl⟩ := mem_prefixedPaths.mp hp
        exact ⟨rec, hrec, hk, hsome⟩
      · rintro ⟨rec, hrec, hk, hsome⟩
        exact ⟨rec.path, mem_prefixedPaths.mpr ⟨rec, hrec, hk, rfl⟩, hsome⟩
    | failed hf => exact absurd (hworks.calls _) hf.choose_spec

/-! ## The answer -/

/-- Whether every file whose key begins with the prefix is purged. -/
def PrefixPurged (soft : Bool) (pre : Bytes) (disk : Disk) (L : HeaderLayout) : Prop :=
  ∀ p (f : CacheFile L), disk p = some f.bytes → pre <+: f.key → soft = true ∧ f.Expired

theorem prefixPurged_disk : PrefixPurged soft pre files.disk L ↔
    ∀ p f, files p = some f → pre <+: f.key → soft = true ∧ f.Expired := by
  unfold PrefixPurged
  constructor
  · intro h p f hf
    exact h p f (Files.disk_eq_some.mpr hf)
  · intro h p f hf
    exact h p f (Files.disk_eq_some.mp hf)

/-- The index may stand in for the walk: it offers no file of the prefix that is on
disk, so that the walk runs, or it knows every one that is left to purge. -/
def IndexSuffices (soft : Bool) (files : Files L) (rs : List Record) (pre : Bytes) : Prop :=
  ¬ Offered files rs pre ∨
    ∀ p f, files p = some f → pre <+: f.key →
      (soft = true ∧ f.Expired) ∨ ∃ rec ∈ rs, rec.path = p

theorem keyPrefix_asterisk (pre : Bytes) :
    keyPrefix .full [pre ++ [42]] = if pre = [] then none else some pre := by
  have hlast : (pre ++ [42]).getLast? = some 42 := List.getLast?_concat
  have hdrop : (pre ++ [42]).dropLast = pre := List.dropLast_concat
  have hne : ¬ (pre ++ [(42 : UInt8)]).length = 0 := by simp
  unfold keyPrefix
  simp only [hlast, hdrop, if_neg hne, if_true, List.flatten_nil, List.append_nil, PurgePool.full]
  cases pre with
  | nil => rfl
  | cons b pre => rfl

theorem isPartial_asterisk (pre : Bytes) : isPartial [pre ++ [42]] = true := by
  have hlast : (pre ++ [(42 : UInt8)]).getLast? = some 42 := List.getLast?_concat
  simp [isPartial]

/-- Behind a purge by prefix the handler only sends the answer. -/
theorem handler_asterisk (h : isPartial r.keys = true) (opened : CacheOpen) (purgeAll : Bool) :
    handler N L access opened false purgeAll r s = (sendResponse r.pool, s) := by
  unfold handler
  simp only [h, Bool.not_true, Bool.and_false, Bool.false_eq_true, if_false]

/-- The outcome that the index brought about, when it offered a file. -/
theorem Purges.prefixPurged_iff {rs : List Record}
    (h : Purges soft (prefixedPaths rs pre) files files') (hsound : Sound files rs) :
    (∀ p f, files' p = some f → pre <+: f.key → soft = true ∧ f.Expired) ↔
      ∀ p f, files p = some f → pre <+: f.key →
        (soft = true ∧ f.Expired) ∨ ∃ rec ∈ rs, rec.path = p := by
  constructor
  · intro hall p f hf hpre
    by_cases hin : ∃ rec ∈ rs, rec.path = p
    · exact Or.inr hin
    · have hnot : p ∉ prefixedPaths rs pre := fun hp => by
        obtain ⟨rec, hrec, -, hpath⟩ := mem_prefixedPaths.mp hp
        exact hin ⟨rec, hrec, hpath⟩
      exact Or.inl (hall p f ((h.other p hnot).trans hf) hpre)
  · intro hall p f' hf' hpre
    obtain ⟨f, hf, hk, he⟩ := h.kept p f' hf'
    rw [hk] at hpre
    rcases hall p f hf hpre with ⟨hs, hexp⟩ | ⟨rec, hrec, rfl⟩
    · exact ⟨hs, he hexp⟩
    · -- the entry has the key of the file, and so it was offered
      have hkey := hsound rec hrec f hf
      have hoffer : rec.path ∈ prefixedPaths rs pre :=
        mem_prefixedPaths.mpr ⟨rec, hrec, keyHasPrefix_of_isPrefix (hkey ▸ hpre), rfl⟩
      exact h.own rec.path hoffer f' hf'

/-- Where the index offers nothing, its loop changes nothing. -/
theorem Purges.eq_of_not_offered {rs : List Record}
    (h : Purges soft (prefixedPaths rs pre) files files') (hno : ¬ Offered files rs pre) :
    files' = files := by
  funext p
  by_cases hp : p ∈ prefixedPaths rs pre
  · obtain ⟨rec, hrec, hk, rfl⟩ := mem_prefixedPaths.mp hp
    have hnone : files rec.path = none := by
      cases hf : files rec.path with
      | none => rfl
      | some f => exact absurd ⟨rec, hrec, hk, by rw [hf]; rfl⟩ hno
    cases hf' : files' rec.path with
    | none => exact hnone.symm
    | some f' =>
      obtain ⟨f, hf, -⟩ := h.kept rec.path f' hf'
      rw [hnone] at hf
      exact nomatch hf
  · exact h.other p hp

@[simp] theorem recordWildcardPurge_cache (r : PurgeRequest) (purged : Nat) (s : Pilot) :
    (recordWildcardPurge r purged s).cache = s.cache := by
  unfold recordWildcardPurge
  rw [Pilot.recordPurgeRequest_cache, Pilot.recordPurge_cache]

/-- When the index gives no file, the walk is run, in the thread or without one. -/
theorem wildcardRequest_walked {w : Walk} {threads : Option Bool} {s1 : Pilot}
    (hpart : isPartial r.keys = true) (hstem : keyPrefix r.pool r.keys = some pre)
    (hpool : r.pool = .full) (hthreads : threads ≠ some false)
    (hfrom : partialFromIndex N L access r pre s = (.ok, 0, s1))
    (hok : (walkPartial L w r.soft (keyPartial r.keys) s1.cache).1 = .ok) :
    wildcardRequest N L access w threads false r s =
      (some .ok, recordWildcardPurge r (walkPartial L w r.soft (keyPartial r.keys) s1.cache).2.1
        { s1.setResponsePath r.pool .filesystemFallback with
          cache := (walkPartial L w r.soft (keyPartial r.keys) s1.cache).2.2 }) := by
  have hcache : (s1.setResponsePath r.pool .filesystemFallback).cache = s1.cache :=
    Pilot.setResponsePath_cache r.pool .filesystemFallback s1
  have hanswer : sendResponse r.pool = .ok := by
    rw [hpool]
    rfl
  have halloc : (!r.pool.walk || (decide (0 < (keyPartial r.keys).length) && !r.pool.keyInFile)) =
      false := by
    rw [hpool]
    exact Bool.and_false _
  have hzero : ¬ 0 < 0 := Nat.lt_irrefl 0
  unfold wildcardRequest partialPurge
  simp only [hstem, hfrom, halloc, if_neg hzero, Bool.false_eq_true, if_false]
  cases threads with
  | none =>
    simp only [hcache]
    generalize walkPartial L w r.soft (keyPartial r.keys) s1.cache = walked at hok
    obtain ⟨rc, purged, cache⟩ := walked
    obtain rfl : rc = .ok := hok
    simp only [handler_asterisk hpart, hanswer]
  | some posted =>
    cases posted with
    | false => exact absurd rfl hthreads
    | true =>
      simp only [if_true, hcache, partialCompletion, Bool.false_eq_true, if_false, hanswer]
      rw [if_pos hok]

/-- Such a purge is answered 200, when nothing fails. -/
theorem wildcardRequest_walk {w : Walk} {threads : Option Bool} {s1 : Pilot} {files1 : Files L}
    (hkeys : r.keys = [pre ++ [42]]) (hpre : pre ≠ []) (hpool : r.pool = .full)
    (hthreads : threads ≠ some false)
    (hfrom : partialFromIndex N L access r pre s = (.ok, 0, s1))
    (hd : s1.cache.disk = files1.disk) (hwalk : w.Works files1) :
    ∃ s' files', wildcardRequest N L access w threads false r s = (some .ok, s') ∧
      s'.cache.disk = files'.disk ∧ Walked r.soft pre w.listing files1 files' := by
  have hstem : keyPrefix r.pool r.keys = some pre := by
    rw [hkeys, hpool, keyPrefix_asterisk, if_neg hpre]
  have hpart : isPartial r.keys = true := by
    rw [hkeys]
    exact isPartial_asterisk pre
  have hstarred : keyPartial r.keys = pre := by
    rw [hkeys]
    exact List.dropLast_concat
  obtain ⟨purged, c', files', hw, hd', hwalked⟩ := walkPartial_spec hd hpre hwalk r.soft
  have hresult := wildcardRequest_walked (w := w) hpart hstem hpool hthreads hfrom (by rw [hstarred, hw])
  rw [hstarred, hw] at hresult
  exact ⟨_, files', hresult, by rw [recordWildcardPurge_cache, hd'], hwalked⟩

/-- When the index gives files that are purged, the purge ends there. -/
theorem wildcardRequest_index (w : Walk) (threads : Option Bool) {s1 : Pilot} {purged : Nat}
    (hpart : isPartial r.keys = true) (hstem : keyPrefix r.pool r.keys = some pre)
    (hpool : r.pool = .full) (hfrom : partialFromIndex N L access r pre s = (.ok, purged, s1))
    (hpos : 0 < purged) :
    ∃ s', wildcardRequest N L access w threads false r s = (some .ok, s') ∧
      s'.cache = s1.cache := by
  unfold wildcardRequest partialPurge
  simp only [hstem, hfrom, if_pos hpos]
  rw [handler_asterisk hpart]
  refine ⟨_, by rw [hpool]; rfl, ?_⟩
  rw [Pilot.recordPurgeRequest_cache, Pilot.recordKeyIndexWildcardHit_cache, Pilot.recordPurge_cache,
    Pilot.setResponsePath_cache]

/-- A wildcard purge for which nothing fails is answered 200 and leaves no file of
its prefix exactly when the prefix is not empty and the index may stand in for the
walk. -/
theorem wildcard_purge_complete_iff (N : Nginx) (L : HeaderLayout) (access : IndexAccess) (w : Walk)
    (threads : Option Bool) (r : PurgeRequest) (s : Pilot) (files : Files L) (pre : Bytes)
    (hindex : IndexOk N s.shm) (hdisk : s.cache.disk = files.disk)
    (hsound : Sound files (shownRecords access s.shm)) (hkeys : r.keys = [pre ++ [42]])
    (hpool : r.pool = .full) (hworks : r.FilesWork) (hwalk : w.Works files)
    (hthreads : threads ≠ some false) :
    let result := wildcardRequest N L access w threads false r s
    (result.1 = some .ok ∧ PrefixPurged r.soft pre result.2.cache.disk L) ↔
      pre ≠ [] ∧ IndexSuffices r.soft files (shownRecords access s.shm) pre := by
  intro result
  by_cases hpre : pre = []
  · -- an asterisk alone is refused
    have hnone : keyPrefix r.pool r.keys = none := by
      rw [hkeys, hpool, keyPrefix_asterisk, if_pos hpre]
    have hresult : result = (some .internalServerError, s) := by
      show wildcardRequest N L access w threads false r s = _
      unfold wildcardRequest partialPurge
      simp only [hnone]
    rw [hresult]
    constructor
    · exact fun h => nomatch h.1
    · exact fun h => absurd hpre h.1
  have hcollect : r.pool.collect = fun _ => true := by
    rw [hpool]
    rfl
  obtain ⟨purged, s1, files1, hfrom, hd1, hpur, hcount⟩ :=
    partialFromIndex_spec access hindex hdisk hworks hcollect pre
  cases purged with
  | succ n =>
    have hstem : keyPrefix r.pool r.keys = some pre := by
      rw [hkeys, hpool, keyPrefix_asterisk, if_neg hpre]
    obtain ⟨s', hresult, hcache⟩ := wildcardRequest_index w threads
      (by rw [hkeys]; exact isPartial_asterisk pre) hstem hpool hfrom (Nat.succ_pos n)
    have hr : result = (some .ok, s') := hresult
    have hoffered := hcount.mp (Nat.succ_pos n)
    rw [hr]
    simp only [hcache, hd1, prefixPurged_disk, true_and]
    rw [hpur.prefixPurged_iff hsound]
    unfold IndexSuffices
    constructor
    · exact fun h => ⟨hpre, Or.inr h⟩
    · exact fun h => h.2.resolve_left (not_not.mpr hoffered)
  | zero =>
    have hno : ¬ Offered files (shownRecords access s.shm) pre :=
      fun h => absurd (hcount.mpr h) (Nat.lt_irrefl 0)
    have hsame : files1 = files := hpur.eq_of_not_offered hno
    rw [hsame] at hd1
    obtain ⟨s', files', hresult, hd', hwalked⟩ :=
      wildcardRequest_walk hkeys hpre hpool hthreads hfrom hd1 hwalk
    have hr : result = (some .ok, s') := hresult
    rw [hr]
    simp only [hd', prefixPurged_disk, true_and]
    constructor
    · exact fun _ => ⟨hpre, Or.inl hno⟩
    · rintro - p f' hf' hk
      obtain ⟨f, hf, -⟩ := hwalked.kept p f' hf'
      exact hwalked.own p (hwalk.listing p (by rw [hf]; rfl)) f' hf' hk

/-- A cache with the two files of the key `k` of which the index knows one. -/
def partialState : Pilot := { variantState with shm := runStore .reference (variantCalls.take 1) }

def sampleWildcard (soft : Bool) : PurgeRequest := { samplePurge soft with keys := [[107, 42]] }

theorem sampleWildcard_works (soft : Bool) : (sampleWildcard soft).FilesWork := ⟨rfl, fun _ => rfl⟩

def sampleWalk : Walk := ⟨[[98], [97]], true, fun _ => .works⟩

theorem sampleWalk_works : sampleWalk.Works variantFiles where
  listing p hp := by
    unfold variantFiles at hp
    split at hp
    · next h => rw [h]; decide
    · split at hp
      · next h => rw [h]; decide
      · exact nomatch hp
  readable := rfl
  calls _ := rfl

theorem partialState_sound : Sound variantFiles (shownRecords sampleAccess partialState.shm) := by
  have hrecords : shownRecords sampleAccess partialState.shm = [⟨[97], [107], []⟩] := by
    decide +kernel
  rw [hrecords]
  intro rec hrec f hf
  rw [List.mem_singleton.mp hrec] at hf ⊢
  exact (variantFiles_key hf).symm

theorem wildcard_purge_complete_iff_sample :
    let result := wildcardRequest .reference .reference sampleAccess sampleWalk (some true) false
      (sampleWildcard true) partialState
    (result.1 = some .ok ∧ PrefixPurged true [107] result.2.cache.disk .reference) ↔
      ([107] : Bytes) ≠ [] ∧
        IndexSuffices true variantFiles (shownRecords sampleAccess partialState.shm) [107] :=
  wildcard_purge_complete_iff .reference .reference sampleAccess sampleWalk (some true)
    (sampleWildcard true) partialState variantFiles [107] (runStore_indexOk .reference (by decide)) rfl
    partialState_sound rfl rfl (sampleWildcard_works true) sampleWalk_works (by decide)

/-- One of two files of the prefix is not indexed yet. The other one is purged
through the index, and that is all: the purge is answered 200. An asterisk alone is
answered 500. -/
theorem wildcard_purge_misses_unindexed :
    IndexOk .reference partialState.shm ∧ partialState.cache.disk = variantFiles.disk ∧
      Sound variantFiles (shownRecords sampleAccess partialState.shm) ∧
      (sampleWildcard false).FilesWork ∧ sampleWalk.Works variantFiles ∧
      (let result := wildcardRequest .reference .reference sampleAccess sampleWalk none false
        (sampleWildcard false) partialState
      ¬ (result.1 = some .ok ∧ PrefixPurged false [107] result.2.cache.disk .reference)) ∧
      (wildcardRequest .reference .reference sampleAccess sampleWalk none false
        { sampleWildcard false with keys := [[42]] } partialState).1 = some .internalServerError := by
  refine ⟨runStore_indexOk .reference (by decide), rfl, partialState_sound,
    sampleWildcard_works false, sampleWalk_works, ?_, by decide +kernel⟩
  intro result h
  have hleft : result.2.cache.disk [98] = some (sampleFile [98]).bytes := by decide +kernel
  exact absurd (h.2 [98] (sampleFile [98]) hleft (List.prefix_refl _)).1 (by decide)

end CachePilot
