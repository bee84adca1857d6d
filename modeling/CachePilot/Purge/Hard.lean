import CachePilot.Lib.Removal
import CachePilot.Purge.StaleEntries
import CachePilot.Store.Readiness

/-!
# Hard purges

What a hard purge for which nothing fails removes from the disk, and what that leaves of
the index.

Results:
* `purgePaths_removes`, `walkTree_removes`: what a loop and a walk remove, and when they
  count nothing;
* `Shrinks.purgePaths`: behind a loop the index has lost entries at most.
-/

namespace CachePilot
open NgxString Removal

/-! ## Loops -/

variable {N : Nginx} {L : HeaderLayout} {s : Pilot} {zoneName : Bytes}

/-- A hard purge of one file removes it. -/
theorem byPath_removes (path : Bytes) (c : FileCache) :
    (byPath L .works false path c).1 = (if (c.disk path).isSome then .ok else .declined) ∧
      (byPath L .works false path c).2.disk = without c.disk [path] := by
  show (deleteCacheFile .works path c).1 = _ ∧ (deleteCacheFile .works path c).2.disk = _
  unfold deleteCacheFile
  rw [without_singleton]
  simp only [FileCalls.works, Bool.not_true, Bool.false_eq_true, if_false]
  cases hp : c.disk path with
  | none =>
    refine ⟨rfl, ?_⟩
    show c.disk = Function.update c.disk path none
    rw [← hp, Function.update_eq_self]
  | some data =>
    refine ⟨rfl, ?_⟩
    simp only [FileCache.setFile_disk]
    split
    · split
      · rfl
      · rfl
    · rfl

/-- A turn that removes its file. -/
def Removes (one : Nat → Bytes → Pilot → NgxRc × Pilot) : Prop :=
  ∀ k path s, (one k path s).1 = (if (s.cache.disk path).isSome then .ok else .declined) ∧
    (one k path s).2.cache.disk = without s.cache.disk [path]

theorem byIndexedPath_removes {calls : Nat → FileCalls} (hcalls : ∀ k, calls k = .works) (now : Int)
    (zoneName : Bytes) : Removes fun k => byIndexedPath N L (calls k) now zoneName false := by
  intro k path s
  have hpath := byPath_removes (L := L) path s.cache
  rw [← hcalls k] at hpath
  show (byIndexedPath N L (calls k) now zoneName false path s).1 = _ ∧
    (byIndexedPath N L (calls k) now zoneName false path s).2.cache.disk = _
  unfold byIndexedPath
  simp only
  split
  · exact hpath
  · exact hpath

theorem purgeTagged_removes {calls : Nat → FileCalls} (hcalls : ∀ k, calls k = .works) (now : Int)
    (zoneName : Bytes) : Removes fun k => purgeTagged N L (calls k) now zoneName false := by
  intro k path s
  have hpath := byPath_removes (L := L) path s.cache
  rw [← hcalls k] at hpath
  show (purgeTagged N L (calls k) now zoneName false path s).1 = _ ∧
    (purgeTagged N L (calls k) now zoneName false path s).2.cache.disk = _
  unfold purgeTagged
  simp only
  split
  · exact hpath
  · split
    · exact hpath
    · exact hpath

/-- A loop of such turns removes its files, and counts them if there are any. -/
theorem purgePaths_removes {one : Nat → Bytes → Pilot → NgxRc × Pilot} (hone : Removes one) (k : Nat)
    (paths : List Bytes) (count : Nat) (s : Pilot) :
    (purgePaths one k paths count s).1 = .ok ∧
      (purgePaths one k paths count s).2.2.cache.disk = without s.cache.disk paths ∧
      count ≤ (purgePaths one k paths count s).2.1 ∧
      ((purgePaths one k paths count s).2.1 = count ↔ ∀ p ∈ paths, s.cache.disk p = none) := by
  induction paths generalizing k count s with
  | nil => exact ⟨rfl, (without_nil _).symm, Nat.le_refl count, iff_of_true rfl (by simp)⟩
  | cons path paths ih =>
    obtain ⟨hrc, hdisk⟩ := hone k path s
    have hboth : without s.cache.disk (path :: paths) =
        without (one k path s).2.cache.disk paths := by
      rw [hdisk, without_append, List.singleton_append]
    rw [hboth]
    unfold purgePaths
    generalize one k path s = result at hrc hdisk
    obtain ⟨rc, s1⟩ := result
    simp only at hrc hdisk
    cases hp : s.cache.disk path with
    | none =>
      rw [hp] at hrc
      obtain rfl : rc = .declined := hrc
      have hsame : s1.cache.disk = s.cache.disk := by
        rw [hdisk, without_eq (by simpa using hp)]
      obtain ⟨hok, hd, hle, hcount⟩ := ih (k + 1) count s1
      refine ⟨hok, hd, hle, hcount.trans ?_⟩
      rw [hsame]
      simp only [List.mem_cons, forall_eq_or_imp, hp, true_and]
    | some data =>
      rw [hp] at hrc
      obtain rfl : rc = .ok := hrc
      obtain ⟨hok, hd, hle, -⟩ := ih (k + 1) (count + 1) s1
      refine ⟨hok, hd, Nat.le_of_succ_le hle, iff_of_false ?_ fun h => ?_⟩
      · exact Nat.ne_of_gt hle
      · rw [h path List.mem_cons_self] at hp
        cases hp

/-! ## Walks -/

/-- Whether a walk selects a file depends on that file. -/
def Local (selects : FileCalls → Bytes → Disk → Bool) : Prop :=
  ∀ path disk disk', disk path = disk' path → selects .works path disk = selects .works path disk'

theorem partialMatch_local (L : HeaderLayout) (keyPartial : Bytes) :
    Local fun calls => partialMatch L calls keyPartial := by
  intro path disk disk' h
  show partialMatch L .works keyPartial path disk = partialMatch L .works keyPartial path disk'
  unfold partialMatch
  rw [h]

/-- A walk removes what it selects, and counts it if there is any. -/
theorem walkTree_removes {calls : Nat → FileCalls} (hcalls : ∀ k, calls k = .works)
    {selects : FileCalls → Bytes → Disk → Bool} (hlocal : Local selects)
    {fileHandler : Nat → Bytes → Nat → FileCache → NgxRc × Nat × FileCache}
    (hh : Handles L calls false selects fileHandler) (readable : Bool) (k : Nat)
    (listing : List Bytes) (purged : Nat) (c : FileCache) :
    (∀ p, (walkTree readable fileHandler k listing purged c).2.2.disk p =
        if p ∈ listing ∧ selects .works p c.disk = true then none else c.disk p) ∧
      ((∀ p ∈ listing, selects .works p c.disk = true → c.disk p = none) →
        (walkTree readable fileHandler k listing purged c).2.1 = purged) := by
  induction listing generalizing k purged c with
  | nil =>
    refine ⟨fun p => ?_, fun _ => rfl⟩
    show c.disk p = _
    rw [if_neg fun h => List.not_mem_nil h.1]
  | cons path listing ih =>
    have hturn := hh k path purged c
    rw [hcalls k] at hturn
    unfold walkTree
    cases hs : selects .works path c.disk with
    | false =>
      rw [hs, if_neg Bool.false_ne_true] at hturn
      obtain ⟨hd, hcount⟩ := ih (k + 1) purged c
      simp only [hturn]
      refine ⟨fun p => ?_, fun h => hcount fun p hp => h p (List.mem_cons_of_mem path hp)⟩
      rw [hd p]
      have hmem : p ∈ path :: listing ∧ selects .works p c.disk = true ↔
          p ∈ listing ∧ selects .works p c.disk = true := by
        rw [List.mem_cons, or_and_right]
        refine or_iff_right fun h => ?_
        rw [h.1, hs] at h
        cases h.2
      simp only [hmem]
    | true =>
      rw [hs, if_pos rfl] at hturn
      obtain ⟨hrc, hdisk⟩ := byPath_removes (L := L) path c
      simp only [hturn, hrc]
      generalize byPath L .works false path c = result at hdisk
      obtain ⟨rc, c1⟩ := result
      simp only at hdisk
      constructor
      · intro p
        rw [(ih (k + 1) _ c1).1 p]
        cases hp : decide (p = path) with
        | true =>
          obtain rfl := of_decide_eq_true hp
          rw [hdisk, without_mem (List.mem_singleton_self p), ite_self,
            if_pos ⟨List.mem_cons_self, hs⟩]
        | false =>
          have hne := of_decide_eq_false hp
          have hsame : c1.disk p = c.disk p := by
            rw [hdisk, without_not_mem (mt List.mem_singleton.mp hne)]
          rw [hlocal p c1.disk c.disk hsame, hsame]
          simp only [List.mem_cons, hne, false_or]
      · intro h
        have hnone := h path List.mem_cons_self hs
        have hsame : c1.disk = c.disk := by
          rw [hdisk, without_eq (by simpa using hnone)]
        rw [hnone]
        refine (ih (k + 1) purged c1).2 fun p hp hsel => ?_
        rw [hsame] at hsel ⊢
        exact h p (List.mem_cons_of_mem path hp) hsel

/-! ## The index behind a purge -/

/-- An index that has lost entries at most. -/
structure Shrinks (N : Nginx) (shm shm' : Shm) : Prop where
  ok : IndexOk N shm'
  records : ∀ z, ∀ rec ∈ recordsOf shm' z, rec ∈ recordsOf shm z
  ready : ∀ z, zoneReady shm' z = zoneReady shm z

namespace Shrinks

variable {shm shm' shm'' : Shm}

theorem refl (h : IndexOk N shm) : Shrinks N shm shm := ⟨h, fun _ _ h => h, fun _ => rfl⟩

theorem trans (h : Shrinks N shm shm') (h' : Shrinks N shm' shm'') : Shrinks N shm shm'' where
  ok := h'.ok
  records z rec hrec := h.records z rec (h'.records z rec hrec)
  ready z := (h'.ready z).trans (h.ready z)

theorem delete (h : IndexOk N shm) (now : Int) (zoneName path : Bytes) :
    Shrinks N shm (deleteFile N now zoneName path shm).2 where
  ok := h.delete
  records z rec hrec := by
    have hchanges := (deleteFile_spec h.ok now zoneName path).2.1
    cases hz : sameZoneName zoneName z with
    | true =>
      rw [hchanges.own z hz] at hrec
      rw [← recordsOf_congr shm hz]
      exact (mem_otherRecords.mp hrec).1
    | false =>
      rwa [hchanges.other z (by rw [hz]; decide)] at hrec
  ready := deleteFile_ready N now zoneName path shm

/-- A loop whose turns drop entries drops entries. -/
theorem purgePaths {one : Nat → Bytes → Pilot → NgxRc × Pilot} {now : Int}
    (hone : DropsTouched N now zoneName false one) (h : IndexOk N s.shm) (k : Nat)
    (paths : List Bytes) (count : Nat) :
    Shrinks N s.shm (CachePilot.purgePaths one k paths count s).2.2.shm := by
  refine purgePaths_relates (R := fun s s' => IndexOk N s.shm → Shrinks N s.shm s'.shm)
    (fun _ => refl) (fun _ _ _ h h' h0 => (h h0).trans (h' (h h0).ok)) (fun k path s h0 => ?_) k paths
    count s h
  rw [hone k path s]
  split
  · exact delete h0 now zoneName path
  · exact refl h0

end Shrinks

end CachePilot
