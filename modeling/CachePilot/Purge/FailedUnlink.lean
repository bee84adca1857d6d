import CachePilot.Purge.Dispatch
import CachePilot.Purge.Node

/-!
# Hard purges whose unlink fails

A hard purge deletes a file through `delete_cache_file`, or, when nginx has opened it
for the request, through `delete_opened_file`. Both mark the shared node before they
unlink the file. `delete_cache_file` reports what the unlink returned;
`delete_opened_file` logs it, and the request counts the file in any case.

Results:
* `hard_delete_honest_iff`: when the node, the size, the index and the count agree with
  what became of the file;
* `failed_unlink_counts_purge`: an exact purge whose unlink fails.
-/

namespace CachePilot
open NgxString SearchTree

/-! ## The ways to a file -/

/-- The places from which a hard purge deletes one file: the walks of a purge of all
files and of a wildcard purge, the loops over indexed paths and over tagged ones, and
the exact purge of the file that nginx opened. -/
inductive HardRoute
  | all (calls : FileCalls) (path : Bytes)
  | wildcard (calls : FileCalls) (keyPartial path : Bytes)
  | indexed (calls : FileCalls) (now : Int) (zoneName path : Bytes)
  | tagged (calls : FileCalls) (now : Int) (zoneName path : Bytes)
  | opened (access : IndexAccess) (r : PurgeRequest) (o : OpenedCache)

namespace HardRoute

def path : HardRoute → Bytes
  | all _ path => path
  | wildcard _ _ path => path
  | indexed _ _ _ path => path
  | tagged _ _ _ path => path
  | opened _ _ o => o.name

def calls : HardRoute → FileCalls
  | all calls _ => calls
  | wildcard calls _ _ => calls
  | indexed calls _ _ _ => calls
  | tagged calls _ _ _ => calls
  | opened _ r _ => r.resolved

end HardRoute

/-- What an exact purge does about the file that it opened, up to the query of its
fanout: the files that it counts, the list of the fanout, and the state. -/
def deleteOpened (N : Nginx) (access : IndexAccess) (r : PurgeRequest) (o : OpenedCache) (s : Pilot) :
    Nat × Option (Bytes × List Bytes) × Pilot :=
  match deleteOpenedFile r.resolved o s.cache with
  | (.declined, cache) => (0, none, { s with cache := cache })
  | (_, cache) =>
    (1, fanoutList N access r false o (Pilot.recordPurgeRequest .exact false { s with cache := cache }))

/-- The deletion of one file by a hard purge: how many files it counts, and the
state. -/
def hardDelete (N : Nginx) (L : HeaderLayout) (route : HardRoute) (s : Pilot) : Nat × Pilot :=
  match route with
  | .all calls path =>
    let r := fileCacheDeleteFile L calls path 0 s.cache
    (r.2.1, { s with cache := r.2.2 })
  | .wildcard calls keyPartial path =>
    let r := deletePartialFile L calls keyPartial path 0 s.cache
    (r.2.1, { s with cache := r.2.2 })
  | .indexed calls now zoneName path =>
    (purgePaths (fun _ => byIndexedPath N L calls now zoneName false) 0 [path] 0 s).2
  | .tagged calls now zoneName path =>
    (purgePaths (fun _ => purgeTagged N L calls now zoneName false) 0 [path] 0 s).2
  | .opened access r o =>
    let d := deleteOpened N access r o s
    (d.1, d.2.2)

/-! ## Honest deletions -/

/-- The unlink of a file succeeds. It fails with `ENOENT` when the file is gone by then,
and with another error when the system refuses it. -/
def Unlinks (calls : FileCalls) (path : Bytes) (c : FileCache) : Prop :=
  c.disk path ≠ none ∧ calls.deletes = true ∧ calls.vanishes = false

/-- What is left of a file agrees with what is said about it: a node is marked, and the
size reduced, only if the file is gone; while it is there, its node, the size and the
index entry stay; and it is counted only if this unlink removed it. -/
structure Honest (calls : FileCalls) (path : Bytes) (s : Pilot) (purged : Nat) (s' : Pilot) : Prop where
  marked : ∀ a, (s.cache.node a).present = true → (s'.cache.node a).present = false →
    s'.cache.disk path = none
  subtracted : s'.cache.size ≠ s.cache.size → s'.cache.disk path = none
  kept : s'.cache.disk path ≠ none → s'.cache.node = s.cache.node ∧ s'.cache.size = s.cache.size ∧
    ∀ z (rec : Record), rec.path = path → (rec ∈ recordsOf s'.shm z ↔ rec ∈ recordsOf s.shm z)
  counted : 0 < purged → Unlinks calls path s.cache

/-- `delete_cache_file` finds a file whose node is there, marks the node, and cannot
unlink the file. -/
def MarksInVain (calls : FileCalls) (path : Bytes) (c : FileCache) : Prop :=
  calls.info = true ∧ c.disk path ≠ none ∧ calls.deletes = false ∧
    ∃ a, c.pathNode path = some a ∧ (c.node a).present = true

/-- The deletions that go wrong. -/
def HardRoute.InVain (L : HeaderLayout) (s : Pilot) : HardRoute → Prop
  | .all calls path => MarksInVain calls path s.cache
  | .wildcard calls keyPartial path =>
    partialMatch L calls keyPartial path s.cache.disk = true ∧ MarksInVain calls path s.cache
  | .indexed calls _ _ path => MarksInVain calls path s.cache
  | .tagged calls _ _ path => MarksInVain calls path s.cache
  | .opened _ r o =>
    (s.cache.node o.node).present = true ∧ ¬ Unlinks r.resolved o.name s.cache

/-! ## `delete_cache_file` -/

variable {N : Nginx} {L : HeaderLayout} {calls : FileCalls} {path : Bytes} {c : FileCache}
  {s s' : Pilot} {purged : Nat}

/-- Where nothing has changed, nothing is claimed. -/
theorem Honest.unchanged (hcache : s'.cache = s.cache) (hshm : s'.shm = s.shm)
    (hcount : ¬ 0 < purged) : Honest calls path s purged s' where
  marked a hp hn := by
    rw [hcache, hp] at hn
    exact nomatch hn
  subtracted h := absurd (congrArg FileCache.size hcache) h
  kept _ := by
    rw [hcache, hshm]
    exact ⟨rfl, rfl, fun _ _ _ => Iff.rfl⟩
  counted h := absurd h hcount

/-- Of a file that is gone, only the count can be wrong. -/
theorem Honest.of_gone (hgone : s'.cache.disk path = none)
    (hcount : 0 < purged → Unlinks calls path s.cache) : Honest calls path s purged s' where
  marked _ _ _ := hgone
  subtracted _ := hgone
  kept h := absurd hgone h
  counted := hcount

/-- A node that is not there is not marked. -/
theorem markPath_eq_self (h : ∀ a, c.pathNode path = some a → (c.node a).present ≠ true) :
    markPath path c = c := by
  unfold markPath
  cases hnode : c.pathNode path with
  | none => rfl
  | some a => exact if_neg (h a hnode)

/-- Behind `delete_cache_file`, whose failure keeps the index and the count as they
are, everything agrees unless a node was marked in vain. -/
theorem honest_deleteCacheFile (hcache : s'.cache = (deleteCacheFile calls path s.cache).2)
    (hshm : (deleteCacheFile calls path s.cache).1 = .error → s'.shm = s.shm)
    (hcount : 0 < purged → (deleteCacheFile calls path s.cache).1 = .ok) :
    Honest calls path s purged s' ↔ ¬ MarksInVain calls path s.cache := by
  rw [deleteCacheFile_eq] at hcache hshm hcount
  constructor
  · rintro hhonest ⟨hinfo, hdisk, hdeletes, a, hnode, hpresent⟩
    rw [if_neg (by simp [hinfo]), if_neg hdisk, if_pos hdeletes] at hcache
    have hmark : s'.cache = markNodeDeleted s.cache a := by
      rw [hcache]
      unfold markPath
      simp only [hnode, hpresent, if_true]
    have hkept := (hhonest.kept (by rw [hmark]; exact hdisk)).1
    have hgone : (s'.cache.node a).present = false := by
      rw [hmark]
      unfold markNodeDeleted FileCache.setNode
      simp only [Function.update_self]
    rw [hkept, hpresent] at hgone
    exact nomatch hgone
  · intro hvain
    cases hinfo : calls.info with
    | false =>
      rw [if_pos hinfo] at hcache hshm hcount
      exact .unchanged hcache (hshm rfl) fun h => nomatch hcount h
    | true =>
      rw [if_neg (by simp [hinfo])] at hcache hshm hcount
      by_cases hdisk : s.cache.disk path = none
      · rw [if_pos hdisk] at hcache hcount
        exact .of_gone (by rw [hcache]; exact hdisk) fun h => nomatch hcount h
      · rw [if_neg hdisk] at hcache hshm hcount
        cases hdeletes : calls.deletes with
        | false =>
          rw [if_pos hdeletes] at hcache hshm hcount
          have hsame : markPath path s.cache = s.cache :=
            markPath_eq_self fun a hnode hp => hvain ⟨hinfo, hdisk, hdeletes, a, hnode, hp⟩
          rw [hsame] at hcache
          exact .unchanged hcache (hshm rfl) fun h => nomatch hcount h
        | true =>
          rw [if_neg (by simp [hdeletes])] at hcache hcount
          refine .of_gone ?_ fun h => ⟨hdisk, hdeletes, ?_⟩
          · rw [hcache]
            exact Function.update_self _ _ _
          · have hok := hcount h
            cases hv : calls.vanishes with
            | false => rfl
            | true =>
              rw [hv] at hok
              exact nomatch hok

/-! ## The callers -/

/-- A loop over one path counts it if it was purged. -/
theorem purgePaths_single (one : Nat → Bytes → Pilot → NgxRc × Pilot) (path : Bytes) (s : Pilot) :
    (purgePaths one 0 [path] 0 s).2 =
      (if (one 0 path s).1 = .ok then 1 else 0, (one 0 path s).2) := by
  unfold purgePaths
  cases one 0 path s with | mk rc s' =>
  cases rc <;> rfl

/-- The walks do not touch the index, and count what was deleted. -/
theorem fileCacheDeleteFile_eq (L : HeaderLayout) (calls : FileCalls) (path : Bytes) (c : FileCache) :
    (fileCacheDeleteFile L calls path 0 c).2 =
      (if (deleteCacheFile calls path c).1 = .ok then 1 else 0, (deleteCacheFile calls path c).2) := by
  have hby : byPath L calls false path c = deleteCacheFile calls path c := rfl
  unfold fileCacheDeleteFile
  rw [hby]
  cases deleteCacheFile calls path c with | mk rc c' =>
  cases rc <;> rfl

theorem deletePartialFile_eq {keyPartial : Bytes}
    (h : partialMatch L calls keyPartial path c.disk = true) :
    (deletePartialFile L calls keyPartial path 0 c).2 =
      (if (deleteCacheFile calls path c).1 = .ok then 1 else 0, (deleteCacheFile calls path c).2) := by
  have hby : byPath L calls false path c = deleteCacheFile calls path c := rfl
  unfold deletePartialFile
  rw [h, Bool.not_true, if_neg Bool.false_ne_true, hby]
  cases deleteCacheFile calls path c with | mk rc c' =>
  cases rc <;> rfl

/-- The loops over indexed and over tagged paths keep the entry of a file when its
deletion failed. -/
theorem byIndexedPath_error (now : Int) (zoneName : Bytes)
    (h : (deleteCacheFile calls path s.cache).1 = .error) :
    (byIndexedPath N L calls now zoneName false path s).2.shm = s.shm := by
  have hby : (purgeByPath L calls false path s).1 = .error := h
  unfold byIndexedPath
  simp only [hby]
  rfl

theorem purgeTagged_hard (N : Nginx) (L : HeaderLayout) (calls : FileCalls) (now : Int)
    (zoneName path : Bytes) (s : Pilot) :
    purgeTagged N L calls now zoneName false path s =
      byIndexedPath N L calls now zoneName false path s := by
  unfold purgeTagged byIndexedPath
  cases purgeByPath L calls false path s with | mk rc s' =>
  cases rc <;> rfl

/-- The exact purge goes on from the deletion of its file, which it counts in any
case. -/
theorem exactPurge_deleteOpened (N : Nginx) (L : HeaderLayout) (access : IndexAccess) (r : PurgeRequest)
    (o : OpenedCache) (s : Pilot) :
    exactPurge N L access (.opened o) r s =
      match deleteOpened N access r o s with
      | (0, _, s) => (.declined, s.setDeclineReason r.pool .notFound)
      | (_, list, s) =>
        let fanout :=
          match list with
          | none => (NgxRc.ok, 0, s)
          | some list => purgePaths (fanoutTurn N L r false list.1) 0 list.2 0 s
        match fanout with
        | (.error, _, s) => (.error, releaseUpdating o s)
        | (_, fanned, s) => (.ok, releaseUpdating o (recordExactPurge r.pool false fanned s)) := by
  unfold exactPurge deleteOpened
  simp only [exactFanout_eq]
  cases hp : (s.cache.node o.node).present with
  | false =>
    rw [deleteOpenedFile_gone hp]
    rfl
  | true =>
    obtain ⟨cache, hopened, -⟩ := deleteOpenedFile_present hp r.resolved
    rw [hopened]
    simp only
    cases fanoutList N access r false o (Pilot.recordPurgeRequest .exact false { s with cache := cache })
      with | mk list s' =>
    cases list <;> rfl

theorem deleteOpened_gone {access : IndexAccess} {r : PurgeRequest} {o : OpenedCache}
    (h : (s.cache.node o.node).present = false) : deleteOpened N access r o s = (0, none, s) := by
  unfold deleteOpened
  rw [deleteOpenedFile_gone h]

/-- A file whose node is there is counted, whatever its unlink returns. -/
theorem deleteOpened_present (N : Nginx) (access : IndexAccess) (r : PurgeRequest) {o : OpenedCache}
    (h : (s.cache.node o.node).present = true) :
    (deleteOpened N access r o s).1 = 1 ∧
      (deleteOpened N access r o s).2.2.cache =
        if r.resolved.deletes then (markNodeDeleted s.cache o.node).setFile o.name none
        else markNodeDeleted s.cache o.node := by
  have hopened : deleteOpenedFile r.resolved o s.cache =
      (.ok, if r.resolved.deletes then (markNodeDeleted s.cache o.node).setFile o.name none
        else markNodeDeleted s.cache o.node) := by
    unfold deleteOpenedFile
    rw [h]
    cases r.resolved.deletes <;> rfl
  unfold deleteOpened
  rw [hopened]
  refine ⟨rfl, ?_⟩
  simp only [fanoutList_cache, Pilot.recordPurgeRequest_cache]

/-- What a loop counts is purged. -/
theorem ok_of_counted {rc : NgxRc} (h : 0 < (if rc = .ok then 1 else 0)) : rc = .ok := by
  split at h
  · assumption
  · exact absurd h (Nat.lt_irrefl 0)

/-- A loop whose turns are those of `by_indexed_path`. -/
theorem honest_purgePaths {one : Bytes → Pilot → NgxRc × Pilot} (now : Int) (zoneName : Bytes)
    (hone : one path s = byIndexedPath N L calls now zoneName false path s) :
    Honest calls path s (purgePaths (fun _ => one) 0 [path] 0 s).2.1
        (purgePaths (fun _ => one) 0 [path] 0 s).2.2 ↔
      ¬ MarksInVain calls path s.cache := by
  obtain ⟨hrc, hcache⟩ := Prod.mk.inj (byIndexedPath_byPath N L calls now zoneName false path s)
  rw [purgePaths_single, hone]
  refine honest_deleteCacheFile hcache (byIndexedPath_error now zoneName) fun h => ?_
  exact hrc.symm.trans (ok_of_counted h)

/-- The deletion of a file by a hard purge, from wherever it comes, agrees with what is
said about it exactly when no node is marked in vain, and the unlink of an opened file
that is still cached succeeds. -/
theorem hard_delete_honest_iff (N : Nginx) (L : HeaderLayout) (route : HardRoute) (s : Pilot) :
    Honest route.calls route.path s (hardDelete N L route s).1 (hardDelete N L route s).2 ↔
      ¬ route.InVain L s := by
  cases route with
  | all calls path =>
    have heq := fileCacheDeleteFile_eq L calls path s.cache
    refine honest_deleteCacheFile ?_ (fun _ => rfl) fun h => ?_
    · exact congrArg Prod.snd heq
    · exact ok_of_counted (lt_of_lt_of_eq h (congrArg Prod.fst heq))
  | wildcard calls keyPartial path =>
    cases hm : partialMatch L calls keyPartial path s.cache.disk with
    | false =>
      have hskip : hardDelete N L (.wildcard calls keyPartial path) s = (0, s) := by
        simp [hardDelete, deletePartialFile, hm]
      rw [hskip]
      exact iff_of_true (.unchanged rfl rfl (Nat.lt_irrefl 0)) fun h => by cases hm.symm.trans h.1
    | true =>
      have heq := deletePartialFile_eq hm
      have hvain : HardRoute.InVain L s (.wildcard calls keyPartial path) ↔
          MarksInVain calls path s.cache := ⟨fun h => h.2, fun h => ⟨hm, h⟩⟩
      rw [hvain]
      refine honest_deleteCacheFile ?_ (fun _ => rfl) fun h => ?_
      · exact congrArg Prod.snd heq
      · exact ok_of_counted (lt_of_lt_of_eq h (congrArg Prod.fst heq))
  | indexed calls now zoneName path => exact honest_purgePaths now zoneName rfl
  | tagged calls now zoneName path =>
    exact honest_purgePaths now zoneName (purgeTagged_hard N L calls now zoneName path s)
  | opened access r o =>
    cases hp : (s.cache.node o.node).present with
    | false =>
      have hskip : hardDelete N L (.opened access r o) s = (0, s) := by
        simp [hardDelete, deleteOpened_gone hp]
      rw [hskip]
      exact iff_of_true (.unchanged rfl rfl (Nat.lt_irrefl 0)) fun h => by cases hp.symm.trans h.1
    | true =>
      obtain ⟨hcount, hcache⟩ := deleteOpened_present N access r hp
      have hpurged : (hardDelete N L (.opened access r o) s).1 = 1 := hcount
      constructor
      · rintro hhonest ⟨-, hno⟩
        exact hno (hhonest.counted (by rw [hpurged]; exact Nat.one_pos))
      · intro hvain
        have hunlinks : Unlinks r.resolved o.name s.cache := by
          by_contra h
          exact hvain ⟨hp, h⟩
        refine .of_gone ?_ fun _ => hunlinks
        show (deleteOpened N access r o s).2.2.cache.disk o.name = none
        rw [hcache, if_pos hunlinks.2.1]
        exact Function.update_self _ _ _

/-- The system refuses to unlink the file that nginx opened: its node is marked and it
is counted as purged, and the file is there. -/
theorem failed_unlink_counts_purge :
    let r : PurgeRequest :=
      { samplePurge false with resolved := ⟨true, true, true, true, false, false⟩ }
    let route : HardRoute := .opened sampleAccess r ⟨[97], 0, false, 0⟩
    let result := hardDelete .reference .reference route variantState
    (variantState.cache.node 0).present = true ∧ (result.2.cache.node 0).present = false ∧
      result.2.cache.disk [97] = some (sampleFile [97]).bytes ∧ result.1 = 1 ∧
      ¬ Honest route.calls route.path variantState result.1 result.2 := by
  intro r route result
  have hpresent : (variantState.cache.node 0).present = true := rfl
  obtain ⟨hcount, hcache⟩ :=
    deleteOpened_present .reference sampleAccess r (o := ⟨[97], 0, false, 0⟩) hpresent
  have hmark : result.2.cache = markNodeDeleted variantState.cache 0 := hcache
  refine ⟨hpresent, by rw [hmark]; rfl, by rw [hmark]; rfl, hcount, fun h => ?_⟩
  exact nomatch (h.counted (lt_of_lt_of_eq Nat.one_pos hcount.symm)).2.1

end CachePilot
