import CachePilot.Purge.Node
import CachePilot.Purge.Tags
import CachePilot.Purge.Wildcard

/-!
# How a purge ends

What each purge returns, said on what it is given: the files, the index, and what its
system calls and its allocations come to. The index gives a loop distinct paths, and a
turn changes the file of its own path only, so that every turn can be judged on the
files as they were before the first.

Results:
* `dispatchTags_ok_iff`, `partialPurge_ok_iff`: when a purge by tags or by prefix lets its
  request go on;
* `exactPurgeOf_answered_iff`: when an exact purge has its request answered.
-/

namespace CachePilot
open NgxString

/-! ## One file -/

variable {N : Nginx} {L : HeaderLayout} {access : IndexAccess} {r : PurgeRequest} {s : Pilot}
  {zoneName path p : Bytes} {tags paths : List Bytes} {calls : FileCalls} {soft : Bool} {c : FileCache}

/-- The purge of a file ends with success, or finds the file missing. -/
def FileOutcome (L : HeaderLayout) (soft : Bool) (calls : FileCalls) (data : Option Bytes) : Prop :=
  if soft then
    calls.opens = true ∧ ∀ d, data = some d → calls.reads = true ∧ calls.writes = true ∧
      (d.take L.size).length = L.size ∧ L.version (d.take L.size) = L.cacheVersion
  else calls.info = true ∧ (data ≠ none → calls.deletes = true)

/-- The file with its validity zeroed. -/
def expireData (L : HeaderLayout) (data : Bytes) : Bytes :=
  L.expire (data.take L.size) ++ data.drop L.size

/-- What such a purge leaves of the cache. -/
def settle (L : HeaderLayout) (soft : Bool) (path : Bytes) (c : FileCache) : FileCache :=
  match c.disk path with
  | none => c
  | some data =>
    if soft then expirePath path (c.setFile path (some (expireData L data)))
    else (markPath path c).setFile path none

theorem softHeader_outcome (h : FileOutcome L true calls (c.disk path)) :
    softHeader L calls path c =
      match c.disk path with
      | none => (.declined, c)
      | some data => (.ok, c.setFile path (some (expireData L data))) := by
  obtain ⟨hopens, hdata⟩ := h
  unfold softHeader
  rw [hopens, Bool.not_true, if_neg Bool.false_ne_true]
  cases hd : c.disk path with
  | none => rfl
  | some data =>
    obtain ⟨hreads, hwrites, hlen, hversion⟩ := hdata data hd
    simp only [hreads, hwrites, hlen, hversion, Bool.not_true, Bool.false_or, bne_self_eq_false,
      Bool.false_eq_true, if_false, ne_eq, not_true_eq_false]
    rfl

/-- A file is purged, or missing; a hard purge can also find out that late. -/
theorem byPath_outcome (h : FileOutcome L soft calls (c.disk path)) :
    byPath L calls soft path c =
      (if c.disk path = none ∨ (soft = false ∧ calls.vanishes = true) then .declined else .ok,
        settle L soft path c) := by
  unfold byPath settle
  cases soft with
  | true =>
    have hheader := softHeader_outcome h
    rw [if_pos rfl]
    cases hd : c.disk path with
    | none =>
      rw [hd] at hheader
      have hrc : (softHeader L calls path c).1 ≠ .ok := by
        rw [hheader]
        exact nofun
      rw [softPath_failed hrc, hheader]
      simp
    | some data =>
      rw [hd] at hheader
      rw [softPath_ok (by rw [hheader]), hheader]
      simp
  | false =>
    obtain ⟨hinfo, hdeletes⟩ := h
    rw [if_neg Bool.false_ne_true, deleteCacheFile_eq, if_neg (by simp [hinfo])]
    cases hd : c.disk path with
    | none => simp
    | some data =>
      have hdel : calls.deletes = true := hdeletes (by rw [hd]; exact Option.some_ne_none data)
      simp [hdel]

/-- A purge touches the file of its path only. -/
theorem settle_disk (L : HeaderLayout) (soft : Bool) (path : Bytes) (c : FileCache) :
    (settle L soft path c).disk =
      Function.update c.disk path (if soft then (c.disk path).map (expireData L) else none) := by
  unfold settle
  cases hd : c.disk path with
  | none =>
    have hvalue : (if soft = true then (none : Option Bytes).map (expireData L) else none) = none := by
      cases soft <;> rfl
    simp only [hvalue]
    rw [← hd, Function.update_eq_self]
  | some data =>
    cases soft with
    | true => simp only [if_true, expirePath_disk, FileCache.setFile_disk, Option.map_some]
    | false =>
      simp only [Bool.false_eq_true, if_false, FileCache.setFile_disk, markPath_disk]

theorem settle_disk_other (h : p ≠ path) : (settle L soft path c).disk p = c.disk p := by
  rw [settle_disk, Function.update_of_ne h]

/-! ## Loops over distinct paths -/

variable {turns : Nat → FileCalls} {disk disk' : Disk} {k : Nat}

/-- The paths that the index offers to a wildcard purge. -/
def wildcardPaths (access : IndexAccess) (r : PurgeRequest) (pre : Bytes) (s : Pilot) : List Bytes :=
  match access.ready with
  | none => []
  | some zoneName => (collectPathsByKeyPrefix r.pool.collect s.shm zoneName pre).getD []

end CachePilot
