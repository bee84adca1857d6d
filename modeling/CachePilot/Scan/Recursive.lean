import CachePilot.Scan.ParseFile
import CachePilot.Store.Refine

/-!
# The bootstrap scan

`ngx_http_cache_index_scan_recursive` and `ngx_http_cache_index_bootstrap_zone` of
`ngx_cache_pilot_index_runtime.c`. The directory tree is an argument, with what
`readdir` says of each entry and what the calls on it come to. A subtree that cannot
be opened and a file that cannot be parsed are passed over.

Results:
* `scan_visits`: a scan that ends well sets the entry of each file that it visits to
  what it has parsed, and leaves the others;
* `bootstrap_complete_iff`: when a bootstrap that returns `NGX_OK` leaves an entry of
  each cache file;
* `bootstrap_skips_subtree`: one that passes over a directory.
-/

namespace CachePilot
open NgxString

/-! ## The tree -/

/-- `d_type`. -/
inductive EntryType
  | dir
  | reg
  | unknown
  | other
deriving DecidableEq, Repr

/-- What the calls on a directory entry come to: the memory for its path,
`ngx_file_info`, the bytes that opening and reading it gives, and the pool of
`process_file`. -/
structure EntryCalls where
  join : Bool
  info : Option FileInfo
  read : Option Bytes
  createPool : Bool
  pool : ParsePool

mutual
/-- What an entry is on disk, whatever `d_type` says: a regular file, a directory
with the outcome of `opendir`, or something else. -/
inductive FsNode
  | file
  | dir (opens : Bool) (entries : Entries)
  | special

/-- The entries of a directory in the order of `readdir`. -/
inductive Entries
  | nil
  | cons (name : Bytes) (type : EntryType) (calls : EntryCalls) (node : FsNode) (rest : Entries)
end

/-- `.` and `..`. -/
def isDots (name : Bytes) : Bool := name == [46] || name == [46, 46]

/-- `ngx_http_cache_index_join_path`. -/
def joinPath (base name : Bytes) : Bytes := base ++ 47 :: name

/-- A directory can be opened like a file, and cannot be read. -/
def FsNode.read (node : FsNode) (calls : EntryCalls) : Option Bytes :=
  match node with
  | .dir _ _ => none
  | _ => calls.read

/-! ## The scan -/

/-- The test of `min_mtime`: whether a file is passed over as too old. -/
def tooOld (minMtime : Int) (info : Option FileInfo) : Bool :=
  decide (0 < minMtime) &&
    match info with
    | none => true
    | some fi => decide (fi.mtime ≤ minMtime)

section Scan

variable (N : Nginx) (alloc : AllocSite → Bool) (now : Int) (zoneName : Bytes) (headers : List Bytes)
  (minMtime : Int)

mutual
/-- `ngx_http_cache_index_scan_recursive`, on what is found under the path. -/
def scanRecursive : FsNode → Bytes → Shm → NgxRc × Shm
  | .dir true entries, path, s => scanEntries entries path s
  | .dir false _, _, s => (.declined, s)
  | .file, _, s => (.declined, s)
  | .special, _, s => (.declined, s)

/-- The loop over the entries of a directory. -/
def scanEntries : Entries → Bytes → Shm → NgxRc × Shm
  | .nil, _, s => (.ok, s)
  | .cons name type calls node rest, path, s =>
    if isDots name then scanEntries rest path s
    else if !calls.join then (.error, s)
    else if type = .dir then
      match scanRecursive node (joinPath path name) s with
      | (.error, s) => (.error, s)
      | (_, s) => scanEntries rest path s
    else if type ≠ .reg ∧ type ≠ .unknown then scanEntries rest path s
    else if tooOld minMtime calls.info then scanEntries rest path s
    else
      match processFile N alloc now calls.createPool calls.pool zoneName (joinPath path name)
        calls.info (node.read calls) headers s with
      | (.error, s) => (.error, s)
      | (_, s) => scanEntries rest path s
end

/-- `ngx_http_cache_index_scan_zone` of a registered zone, whose cache path is
`path`. -/
def scanZone (root : FsNode) (path : Bytes) (s : Shm) : NgxRc × Shm :=
  match scanRecursive N alloc now zoneName headers 0 root path s with
  | (.ok, s) => (.ok, s)
  | (_, s) => (.error, s)

/-- `ngx_http_cache_index_bootstrap_zone`. -/
def bootstrapZone (root : FsNode) (path : Bytes) (s : Shm) : NgxRc × Shm :=
  match scanZone N alloc now zoneName headers root path s with
  | (.ok, s) =>
    match setZoneState (alloc .zone) now zoneName ⟨true, now, now⟩ s with
    | (.ok, s) => (.ok, s)
    | (_, s) => (.error, s)
  | (_, s) => (.error, s)

end Scan

/-! ## Files and visits -/

mutual
/-- The regular files at a path and below. -/
def FsNode.files : FsNode → Bytes → List Bytes
  | .file, path => [path]
  | .dir _ entries, path => entries.files path
  | .special, _ => []

def Entries.files : Entries → Bytes → List Bytes
  | .nil, _ => []
  | .cons name _ _ node rest, path =>
    (if isDots name then [] else node.files (joinPath path name)) ++ rest.files path
end

/-- The entry that `process_file` makes of a file. -/
def parsedEntry (pool : ParsePool) (path : Bytes) (info : Option FileInfo) (read : Option Bytes)
    (headers : List Bytes) : Option (Bytes × List Bytes) :=
  match parseFile pool path info read (if headers = [] then none else some headers) with
  | .error _ => none
  | .ok p => some (p.key, if headers = [] then [] else p.tags)

/-- The files that a scan gets to, each with the entry that it makes of it. -/
abbrev Visits := List (Bytes × Option (Bytes × List Bytes))

mutual
def FsNode.visits (headers : List Bytes) (minMtime : Int) : FsNode → Bytes → Visits
  | .dir true entries, path => entries.visits headers minMtime path
  | .dir false _, _ => []
  | .file, _ => []
  | .special, _ => []

def Entries.visits (headers : List Bytes) (minMtime : Int) : Entries → Bytes → Visits
  | .nil, _ => []
  | .cons name type calls node rest, path =>
    (if isDots name then []
      else if type = .dir then node.visits headers minMtime (joinPath path name)
      else if type ≠ .reg ∧ type ≠ .unknown then []
      else if tooOld minMtime calls.info then []
      else [(joinPath path name,
        parsedEntry calls.pool (joinPath path name) calls.info (node.read calls) headers)]) ++
      rest.visits headers minMtime path
end

/-- The entry that the last visit of a path made. -/
def lastVisit (visits : Visits) (p : Bytes) : Option (Option (Bytes × List Bytes)) :=
  (visits.reverse.find? fun v => v.1 = p).map Prod.snd

/-- The visits, one after the other. -/
def IndexMap.setAll (zoneName : Bytes) (M : IndexMap) (visits : Visits) : IndexMap :=
  visits.foldl (fun M v => M.set zoneName v.1 v.2) M

/-! ## What a scan leaves -/

variable {N : Nginx} {now : Int} {zoneName path : Bytes} {headers : List Bytes} {minMtime : Int}
  {s : Shm}

theorem IndexMap.setAll_append (zoneName : Bytes) (M : IndexMap) (xs ys : Visits) :
    M.setAll zoneName (xs ++ ys) = (M.setAll zoneName xs).setAll zoneName ys :=
  List.foldl_append

/-- A path that is visited has the entry that its last visit made. -/
theorem IndexMap.setAll_apply (zoneName : Bytes) (M : IndexMap) (visits : Visits) (p : Bytes) :
    M.setAll zoneName visits zoneName p = (lastVisit visits p).getD (M zoneName p) := by
  induction visits using List.reverseRecOn with
  | nil => rfl
  | append_singleton visits v ih =>
    rw [setAll_append]
    show (M.setAll zoneName visits).set zoneName v.1 v.2 zoneName p = _
    unfold set lastVisit
    rw [List.reverse_append, List.reverse_singleton, List.singleton_append, List.find?_cons]
    cases hp : decide (p = v.1) with
    | true =>
      have hv : decide (v.1 = p) = true := decide_eq_true (of_decide_eq_true hp).symm
      rw [if_pos ⟨sameZoneName_refl zoneName, of_decide_eq_true hp⟩, hv]
      rfl
    | false =>
      have hne : p ≠ v.1 := of_decide_eq_false hp
      have hv : decide (v.1 = p) = false := decide_eq_false (Ne.symm hne)
      rw [if_neg fun h => hne h.2, hv]
      exact ih

/-- What one file is turned into, with memory for a pool and for the index. -/
theorem processFile_entry (h : ShmOk N s) (now : Int) (zoneName path : Bytes) (headers : List Bytes)
    (pool : ParsePool) (info : Option FileInfo) (read : Option Bytes) :
    let r := processFile N (fun _ => true) now true pool zoneName path info read headers s
    r.1 = .ok ∧ ShmOk N r.2 ∧
      toMap r.2 = (toMap s).set zoneName path (parsedEntry pool path info read headers) := by
  intro r
  have hdelete : r = deleteFile N now zoneName path s →
      r.1 = .ok ∧ ShmOk N r.2 ∧ toMap r.2 = (toMap s).set zoneName path none := by
    intro hr
    rw [hr]
    obtain ⟨hrc, hset⟩ := deleteFile_toMap h now zoneName path
    exact ⟨hrc, (deleteFile_spec h now zoneName path).2.1.ok, hset⟩
  have hupsert : ∀ key mtime size tags,
      r = upsertFileMeta N (fun _ => true) now zoneName path key mtime size tags s →
      r.1 = .ok ∧ ShmOk N r.2 ∧ toMap r.2 = (toMap s).set zoneName path (some (key, tags)) := by
    intro key mtime size tags hr
    have hrc := upsertFileMeta_success N now zoneName path key mtime size tags s
    obtain ⟨-, hset⟩ := upsertFileMeta_toMap h (fun _ => true) now zoneName path key mtime size tags
    rw [hrc, if_pos rfl] at hset
    rw [hr]
    exact ⟨hrc, (upsertFileMeta_spec h (fun _ => true) now zoneName path key mtime size tags).2.1.ok,
      hset⟩
  have hr : r = processFile N (fun _ => true) now true pool zoneName path info read headers s := rfl
  unfold processFile at hr
  unfold parsedEntry
  simp only [Bool.not_true, Bool.false_eq_true, if_false] at hr
  split at hr
  · next hno =>
    rw [if_pos hno]
    cases hp : parseFile pool path info read none with
    | error rc =>
      rw [hp] at hr
      exact hdelete hr
    | ok parsed =>
      rw [hp] at hr
      simp only [if_pos hno]
      exact hupsert _ _ _ _ hr
  · next hsome =>
    rw [if_neg hsome]
    cases hp : parseFile pool path info read (some headers) with
    | error rc =>
      rw [hp] at hr
      exact hdelete hr
    | ok parsed =>
      rw [hp] at hr
      simp only [if_neg hsome]
      exact hupsert _ _ _ _ hr

/-- What a scan does to the index. -/
def Scans (N : Nginx) (zoneName : Bytes) (visits : Visits) (s s' : Shm) : Prop :=
  ShmOk N s' ∧ toMap s' = (toMap s).setAll zoneName visits

theorem Scans.trans {xs ys : Visits} {s' s'' : Shm} (h : Scans N zoneName xs s s')
    (h' : Scans N zoneName ys s' s'') : Scans N zoneName (xs ++ ys) s s'' :=
  ⟨h'.1, by rw [h'.2, h.2, IndexMap.setAll_append]⟩

mutual
theorem scanRecursive_visits (node : FsNode) (path : Bytes) (s : Shm) (h : ShmOk N s)
    (hrc : (scanRecursive N (fun _ => true) now zoneName headers minMtime node path s).1 ≠ .error) :
    Scans N zoneName (node.visits headers minMtime path) s
      (scanRecursive N (fun _ => true) now zoneName headers minMtime node path s).2 := by
  cases node with
  | file => exact ⟨h, rfl⟩
  | special => exact ⟨h, rfl⟩
  | dir opens entries =>
    cases opens with
    | false => exact ⟨h, rfl⟩
    | true => exact scanEntries_visits entries path s h hrc

theorem scanEntries_visits (entries : Entries) (path : Bytes) (s : Shm) (h : ShmOk N s)
    (hrc : (scanEntries N (fun _ => true) now zoneName headers minMtime entries path s).1 ≠ .error) :
    Scans N zoneName (entries.visits headers minMtime path) s
      (scanEntries N (fun _ => true) now zoneName headers minMtime entries path s).2 := by
  cases entries with
  | nil => exact ⟨h, rfl⟩
  | cons name type calls node rest =>
    unfold scanEntries at hrc ⊢
    unfold Entries.visits
    split at hrc
    · next hdots =>
      rw [if_pos hdots, if_pos hdots]
      exact scanEntries_visits rest path s h hrc
    · next hdots =>
      rw [if_neg hdots, if_neg hdots]
      split at hrc
      · exact absurd rfl hrc
      · next hjoin =>
        rw [if_neg hjoin]
        split at hrc
        · next hdir =>
          rw [if_pos hdir, if_pos hdir]
          have hnode := scanRecursive_visits node (joinPath path name) s h
          cases hr : scanRecursive N (fun _ => true) now zoneName headers minMtime node
            (joinPath path name) s with | mk rc s1 =>
          rw [hr] at hnode hrc
          have hne : rc ≠ .error := by
            rintro rfl
            exact hrc rfl
          have hscans := hnode hne
          cases rc with
          | error => exact absurd rfl hne
          | _ => exact hscans.trans (scanEntries_visits rest path s1 hscans.1 hrc)
        · next hdir =>
          rw [if_neg hdir, if_neg hdir]
          split at hrc
          · next htype =>
            rw [if_pos htype, if_pos htype]
            exact scanEntries_visits rest path s h hrc
          · next htype =>
            rw [if_neg htype, if_neg htype]
            split at hrc
            · next hold =>
              rw [if_pos hold, if_pos hold]
              exact scanEntries_visits rest path s h hrc
            · next hold =>
              rw [if_neg hold, if_neg hold]
              cases hpool : calls.createPool with
              | false =>
                rw [hpool] at hrc
                exact absurd rfl hrc
              | true =>
                have hentry := processFile_entry h now zoneName (joinPath path name) headers
                  calls.pool calls.info (node.read calls)
                rw [hpool] at hrc
                generalize processFile N (fun _ => true) now true calls.pool zoneName
                  (joinPath path name) calls.info (node.read calls) headers s = result at hentry hrc
                obtain ⟨rc, s1⟩ := result
                obtain ⟨hok, hs1, hset⟩ := hentry
                obtain rfl : rc = .ok := hok
                have hone : Scans N zoneName [(joinPath path name,
                    parsedEntry calls.pool (joinPath path name) calls.info (node.read calls)
                      headers)] s s1 := ⟨hs1, hset⟩
                exact hone.trans (scanEntries_visits rest path s1 hs1 hrc)
end

/-- A call that leaves the records of its zone leaves the map. -/
theorem Changes.toMap_eq {s' : Shm} (hc : Changes N s s' zoneName (recordsOf s zoneName)) :
    toMap s' = toMap s := by
  funext z p
  unfold toMap
  cases hz : sameZoneName zoneName z with
  | true => rw [hc.own z hz, recordsOf_congr s hz]
  | false => rw [hc.other z (by rw [hz]; decide)]

/-- A bootstrap that returns `NGX_OK` has visited what its scan gets to. -/
theorem bootstrapZone_visits (h : ShmOk N s) (now : Int) (zoneName : Bytes) (headers : List Bytes)
    (root : FsNode) (path : Bytes)
    (hok : (bootstrapZone N (fun _ => true) now zoneName headers root path s).1 = .ok) :
    Scans N zoneName (root.visits headers 0 path) s
      (bootstrapZone N (fun _ => true) now zoneName headers root path s).2 := by
  have hscan : (scanRecursive N (fun _ => true) now zoneName headers 0 root path s).1 ≠ .error →
      Scans N zoneName (root.visits headers 0 path) s
        (scanRecursive N (fun _ => true) now zoneName headers 0 root path s).2 :=
    scanRecursive_visits root path s h
  unfold bootstrapZone scanZone at hok ⊢
  cases hr : scanRecursive N (fun _ => true) now zoneName headers 0 root path s with | mk rc s1 =>
  rw [hr] at hscan hok
  cases rc with
  | ok =>
    obtain ⟨hs1, hmap⟩ := hscan (nomatch ·)
    have hstate := (setZoneState_spec hs1 true now zoneName ⟨true, now, now⟩).1
    simp only at hok ⊢
    generalize setZoneState true now zoneName ⟨true, now, now⟩ s1 = result at hstate hok
    obtain ⟨rc, s2⟩ := result
    have hscans : Scans N zoneName (root.visits headers 0 path) s s2 :=
      ⟨hstate.ok, hstate.toMap_eq.trans hmap⟩
    cases rc with
    | _ => exact hscans
  | error => exact nomatch hok
  | declined => exact nomatch hok
  | again => exact nomatch hok
  | done => exact nomatch hok

/-! ## Complete bootstraps -/

/-- A bootstrap that returns `NGX_OK` leaves an entry of each cache file that it
visited and could parse, and of each that it did not visit and that had one before. -/
theorem bootstrap_complete_iff (N : Nginx) (now : Int) (zoneName : Bytes) (headers : List Bytes)
    (root : FsNode) (path : Bytes) (s : Shm) (h : ShmOk N s) :
    let result := bootstrapZone N (fun _ => true) now zoneName headers root path s
    (result.1 = .ok → ∀ p ∈ root.files path, pathKnown p = true →
        (toMap result.2 zoneName p).isSome = true) ↔
      (result.1 = .ok → ∀ p ∈ root.files path, pathKnown p = true →
        match lastVisit (root.visits headers 0 path) p with
        | some entry => entry.isSome = true
        | none => (toMap s zoneName p).isSome = true) := by
  intro result
  refine forall_congr' fun hok => forall_congr' fun p => forall_congr' fun _ => forall_congr' fun _ => ?_
  obtain ⟨-, hmap⟩ := bootstrapZone_visits h now zoneName headers root path hok
  change toMap result.2 = _ at hmap
  rw [hmap, IndexMap.setAll_apply]
  cases lastVisit (root.visits headers 0 path) p with
  | none => exact Iff.rfl
  | some entry => exact Iff.rfl

/-- Calls on a cache file for which nothing fails. -/
def readableCalls : EntryCalls :=
  ⟨true, some ⟨1, 8⟩, some [75, 69, 89, 58, 32, 107, 10, 10], true, .full⟩

/-- A cache directory `c` whose directory `d`, with one cache file, cannot be opened. -/
def sampleTree : FsNode :=
  .dir true (.cons [100] .dir readableCalls
    (.dir false (.cons (List.replicate 32 97) .reg readableCalls .file .nil)) .nil)

theorem bootstrap_complete_iff_sample :
    let result := bootstrapZone .reference (fun _ => true) 1 [122] [] sampleTree [99] .init
    (result.1 = .ok → ∀ p ∈ sampleTree.files [99], pathKnown p = true →
        (toMap result.2 [122] p).isSome = true) ↔
      (result.1 = .ok → ∀ p ∈ sampleTree.files [99], pathKnown p = true →
        match lastVisit (sampleTree.visits [] 0 [99]) p with
        | some entry => entry.isSome = true
        | none => (toMap .init [122] p).isSome = true) :=
  bootstrap_complete_iff .reference 1 [122] [] sampleTree [99] .init .init

/-- The directory is passed over: the zone is ready, and the file has no entry. -/
theorem bootstrap_skips_subtree :
    let result := bootstrapZone .reference (fun _ => true) 1 [122] [] sampleTree [99] .init
    result.1 = .ok ∧ (getZoneState 1 result.2 [122]).bootstrapComplete = true ∧
      ¬ (result.1 = .ok → ∀ p ∈ sampleTree.files [99], pathKnown p = true →
        (toMap result.2 [122] p).isSome = true) := by
  intro result
  have hok : result.1 = .ok := by decide +kernel
  have hfile : [99, 47, 100, 47] ++ List.replicate 32 97 ∈ sampleTree.files [99] := by decide +kernel
  have hnone : (toMap result.2 [122] ([99, 47, 100, 47] ++ List.replicate 32 97)).isSome = false := by
    decide +kernel
  refine ⟨hok, by decide +kernel, fun h => ?_⟩
  have hsome := h hok _ hfile (by decide +kernel)
  rw [hnone] at hsome
  exact nomatch hsome

end CachePilot
