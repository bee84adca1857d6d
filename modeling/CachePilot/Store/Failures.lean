import CachePilot.Store.ZoneTimes

/-!
# Failed allocations

`alloc_locked` counts each allocation that the slab pool refuses. A call of the store
gives up at the first of them, and undoes what it has linked by then without a further
allocation.

Results:
* `allocFailures_run`: over any calls, the counter rises by the number of those that
  return `NGX_ERROR`.
-/

namespace CachePilot
open NgxString

/-! ## Calls that allocate nothing -/

section Unlink

variable (N : Nginx)

@[simp] theorem dequeue_allocFailures (kind : EntryKind) (e item : Addr) (s : Shm) :
    (dequeue kind e item s).allocFailures = s.allocFailures := rfl

@[simp] theorem freeEmptyEntryLocked_allocFailures (kind : EntryKind) (za e : Addr) (s : Shm) :
    (freeEmptyEntryLocked N kind za e s).allocFailures = s.allocFailures := by
  unfold freeEmptyEntryLocked
  simp only
  split
  · rfl
  · rfl

@[simp] theorem unlinkMember_allocFailures (za fa m : Addr) (s : Shm) :
    (unlinkMember N za fa m s).allocFailures = s.allocFailures := by
  simp [unlinkMember, freeEmptyTagEntryLocked]

@[simp] theorem unlinkKey_allocFailures (za fa : Addr) (s : Shm) :
    (unlinkKey N za fa s).allocFailures = s.allocFailures := by
  unfold unlinkKey
  split
  · rfl
  · simp [freeEmptyKeyEntryLocked]

@[simp] theorem removeFileLocked_allocFailures (za fa : Addr) (s : Shm) :
    (removeFileLocked N za fa s).allocFailures = s.allocFailures := by
  have hmembers : ∀ (ms : List Addr) (s : Shm),
      (ms.foldl (fun s m => unlinkMember N za fa m s) s).allocFailures = s.allocFailures := by
    intro ms
    induction ms with
    | nil => exact fun s => rfl
    | cons m ms ih => exact fun s => (ih _).trans (unlinkMember_allocFailures N za fa m s)
  show (dropFile N za fa _).allocFailures = s.allocFailures
  simp [dropFile, hmembers]

end Unlink

/-! ## Calls that allocate -/

/-- A part of a call succeeds and leaves the counter, or fails and has counted it. -/
def Counts (s : Shm) (r : NgxRc × Shm) : Prop :=
  r.1 = .ok ∧ r.2.allocFailures = s.allocFailures ∨
    r.1 = .error ∧ r.2.allocFailures = s.allocFailures + 1

/-- So does the search for a block or an entry. -/
def CountsBlock (s : Shm) (r : Option Addr × Shm) : Prop :=
  r.2.allocFailures = s.allocFailures + if r.1.isNone then 1 else 0

variable {N : Nginx} {s s' : Shm} {za fa : Addr}

theorem Counts.ok (h : s'.allocFailures = s.allocFailures) : Counts s (.ok, s') := Or.inl ⟨rfl, h⟩

theorem Counts.error (h : s'.allocFailures = s.allocFailures + 1) : Counts s (.error, s') :=
  Or.inr ⟨rfl, h⟩

/-- A part that counts behind one that has left the counter alone. -/
theorem Counts.after {r : NgxRc × Shm} (h : Counts s' r) (hs : s'.allocFailures = s.allocFailures) :
    Counts s r := by
  unfold Counts at h ⊢
  rwa [hs] at h

theorem allocLocked_counts (ok : Bool) (kind : BlockKind) (s : Shm) :
    CountsBlock s (allocLocked ok kind s) := by
  cases ok with
  | true => rfl
  | false => rfl

theorem getEntryLocked_counts (N : Nginx) (ok : Bool) (kind : EntryKind) (za : Addr) (str : Bytes)
    (s : Shm) : CountsBlock s (getEntryLocked N ok kind za str true s) := by
  unfold getEntryLocked
  cases lookupEntry N kind (s.zone za) str with
  | some e => rfl
  | none =>
    cases ok with
    | true => rfl
    | false => rfl

theorem getZoneLocked_counts (ok : Bool) (zoneName : Bytes) (s : Shm) :
    CountsBlock s (getZoneLocked ok zoneName true s) := by
  unfold getZoneLocked
  cases lookupZone s zoneName with
  | some za => rfl
  | none =>
    cases ok with
    | true => rfl
    | false => rfl

theorem linkExactKeyLocked_counts (N : Nginx) (ok : Bool) (za fa : Addr) (s : Shm) :
    Counts s (linkExactKeyLocked N ok za fa s) := by
  unfold linkExactKeyLocked getKeyEntryLocked
  simp only
  split
  · exact Counts.ok rfl
  · have hentry := getEntryLocked_counts N ok .key za (s.file fa).key s
    generalize getEntryLocked N ok .key za (s.file fa).key true s = r at hentry
    obtain ⟨e, s1⟩ := r
    cases e with
    | none => exact Counts.error hentry
    | some e => exact Counts.ok hentry

theorem linkTagsLocked_counts (N : Nginx) (alloc : AllocSite → Bool) (za fa : Addr) (i : Nat)
    (tags : List Bytes) (s : Shm) : Counts s (linkTagsLocked N alloc za fa i tags s) := by
  induction tags generalizing i s with
  | nil => exact Counts.ok rfl
  | cons tag tags ih =>
    have hentry := getEntryLocked_counts N (alloc (.tagEntry i)) .tag za tag s
    unfold linkTagsLocked getTagEntryLocked
    generalize getEntryLocked N (alloc (.tagEntry i)) .tag za tag true s = r at hentry
    obtain ⟨e, s1⟩ := r
    cases e with
    | none => exact Counts.error hentry
    | some e =>
      have hs1 : s1.allocFailures = s.allocFailures := hentry
      have hmember := allocLocked_counts (alloc (.tagMember i)) .tagMember s1
      simp only
      generalize allocLocked (alloc (.tagMember i)) .tagMember s1 = r at hmember
      obtain ⟨m, s2⟩ := r
      cases m with
      | none => exact (Counts.error hmember).after hs1
      | some m =>
        have hs2 : s2.allocFailures = s1.allocFailures := hmember
        exact (ih (i + 1) _).after (hs2.trans hs1)

/-- A failed upsert removes the file block it has linked, which allocates nothing. -/
theorem upsertInZone_counts (N : Nginx) (alloc : AllocSite → Bool) (now : Int) (za : Addr)
    (path key : Bytes) (mtime size : Int) (tags : List Bytes) (s : Shm) :
    Counts s (upsertInZone N alloc now za path key mtime size tags s) := by
  have hclear : (clearPath N za path s).allocFailures = s.allocFailures := by
    unfold clearPath
    split
    · exact removeFileLocked_allocFailures N za _ s
    · rfl
  have hundo : ∀ (fa : Addr) {r : NgxRc × Shm}, Counts s r → r.1 ≠ .ok →
      Counts s (.error, removeFileLocked N za fa r.2) := by
    intro fa r hr hne
    rcases hr with ⟨hok, -⟩ | ⟨-, hcount⟩
    · exact absurd hok hne
    · exact Counts.error ((removeFileLocked_allocFailures N za fa r.2).trans hcount)
  rw [upsertInZone_eq]
  generalize clearPath N za path s = s1 at hclear
  have hkey : Counts s (linkExactKeyLocked N (alloc .keyEntry) za s1.next
      (withFile N za path key mtime size tags s1)) :=
    (linkExactKeyLocked_counts N _ za s1.next _).after hclear
  simp only
  generalize linkExactKeyLocked N (alloc .keyEntry) za s1.next
    (withFile N za path key mtime size tags s1) = r3 at hkey
  split
  · split
    · next hok =>
      have hs3 : r3.2.allocFailures = s.allocFailures := by
        rcases hkey with ⟨-, hcount⟩ | ⟨herr, -⟩
        · exact hcount
        · exact nomatch hok.symm.trans herr
      have htags := (linkTagsLocked_counts N alloc za s1.next 0 tags r3.2).after hs3
      split
      · next hlinked =>
        rcases htags with ⟨-, hcount⟩ | ⟨herr, -⟩
        · exact Counts.ok hcount
        · exact nomatch hlinked.symm.trans herr
      · next hne => exact hundo _ htags hne
    · next hne => exact hundo _ hkey hne
  · exact (Counts.error rfl).after hclear

theorem upsertFileMeta_counts (N : Nginx) (alloc : AllocSite → Bool) (now : Int)
    (zoneName path key : Bytes) (mtime size : Int) (tags : List Bytes) (s : Shm) :
    Counts s (upsertFileMeta N alloc now zoneName path key mtime size tags s) := by
  have hzone := getZoneLocked_counts (alloc .zone) zoneName s
  unfold upsertFileMeta
  generalize getZoneLocked (alloc .zone) zoneName true s = r at hzone
  obtain ⟨za, s1⟩ := r
  cases za with
  | none => exact Counts.error hzone
  | some za => exact (upsertInZone_counts N alloc now za path key mtime size tags s1).after hzone

theorem deleteFile_counts (N : Nginx) (now : Int) (zoneName path : Bytes) (s : Shm) :
    Counts s (deleteFile N now zoneName path s) := by
  unfold deleteFile
  split
  · exact Counts.ok rfl
  · split
    · exact Counts.ok rfl
    · exact Counts.ok (removeFileLocked_allocFailures N _ _ s)

theorem setZoneState_counts (ok : Bool) (now : Int) (zoneName : Bytes) (state : ZoneState) (s : Shm) :
    Counts s (setZoneState ok now zoneName state s) := by
  have hzone := getZoneLocked_counts ok zoneName s
  unfold setZoneState
  simp only
  generalize getZoneLocked ok zoneName true s = r at hzone
  obtain ⟨za, s1⟩ := r
  cases za with
  | none => exact Counts.error hzone
  | some za => exact Counts.ok hzone

/-! ## Runs -/

theorem ZoneOp.run_counts (N : Nginx) (op : ZoneOp) (s : Shm) : Counts s (op.run N s) := by
  cases op with
  | store op =>
    cases op with
    | upsert alloc now zoneName path key mtime size tags =>
      exact upsertFileMeta_counts N alloc now zoneName path key mtime size tags s
    | delete now zoneName path => exact deleteFile_counts N now zoneName path s
  | bootstrap ok now zoneName => exact setZoneState_counts ok now zoneName ⟨true, now, now⟩ s

/-- The return codes of a sequence of calls. -/
def zoneAnswers (N : Nginx) : List ZoneOp → Shm → List NgxRc
  | [], _ => []
  | op :: ops, s => (op.run N s).1 :: zoneAnswers N ops (op.run N s).2

/-- `ngx_http_cache_index_store_shm_get_stats`: `stats->alloc_failures`. -/
def getStats (s : Shm) : Nat := s.allocFailures

/-- The failures that `get_stats` reports are the calls that have returned
`NGX_ERROR`, whatever the calls are and in whatever state they find the index. -/
theorem allocFailures_run (N : Nginx) (ops : List ZoneOp) (s : Shm) :
    getStats (runZones N ops s) = getStats s + (zoneAnswers N ops s).count .error ∧
      ∀ rc ∈ zoneAnswers N ops s, rc = .ok ∨ rc = .error := by
  induction ops generalizing s with
  | nil => exact ⟨rfl, fun _ h => nomatch h⟩
  | cons op ops ih =>
    have hop := op.run_counts N s
    obtain ⟨hrun, hanswers⟩ := ih (op.run N s).2
    change getStats (runZones N ops (op.run N s).2) = _ ∧ _
    unfold zoneAnswers
    unfold getStats at hrun ⊢
    rcases hop with ⟨hrc, hcount⟩ | ⟨hrc, hcount⟩
    · refine ⟨?_, ?_⟩
      · rw [hrun, hcount, hrc, List.count_cons_of_ne (by decide)]
      · rintro rc (_ | ⟨_, h⟩)
        · exact Or.inl hrc
        · exact hanswers rc h
    · refine ⟨?_, ?_⟩
      · rw [hrun, hcount, hrc, List.count_cons_self, Nat.add_assoc, Nat.add_comm 1]
      · rintro rc (_ | ⟨_, h⟩)
        · exact Or.inr hrc
        · exact hanswers rc h

end CachePilot
