import CachePilot.Store.PathIndex

/-!
# What the links of a file leave alone

The functions that link a file to its key and its tags, and unlink it, change entry and
member blocks and the trees over the entries. They do not touch the rest of a zone, nor
what the path tree reads of a file.
-/

namespace CachePilot
open NgxString

variable {s s' s'' : Shm}

/-- The zones are the same ones, and of each only the key and tag trees change; every
file block keeps its path and the key of its node. -/
structure KeepsPaths (s s' : Shm) : Prop where
  zones : s'.zones = s.zones
  zone : ∀ a, ∃ index, s'.zone a = { s.zone a with index := index }
  pathKey : ∀ fa, (s'.file fa).pathKey = (s.file fa).pathKey
  path : ∀ fa, (s'.file fa).path = (s.file fa).path
  next : s.next ≤ s'.next

namespace KeepsPaths

theorem of_eq (hzones : s'.zones = s.zones) (hzone : s'.zone = s.zone) (hfile : s'.file = s.file)
    (hnext : s.next ≤ s'.next) : KeepsPaths s s' where
  zones := hzones
  zone a := ⟨(s.zone a).index, by rw [hzone]⟩
  pathKey _ := by rw [hfile]
  path _ := by rw [hfile]
  next := hnext

theorem refl (s : Shm) : KeepsPaths s s := of_eq rfl rfl rfl (Nat.le_refl _)

theorem trans (h : KeepsPaths s s') (h' : KeepsPaths s' s'') : KeepsPaths s s'' where
  zones := h'.zones.trans h.zones
  zone a := by
    obtain ⟨index, hzone⟩ := h.zone a
    obtain ⟨index', hzone'⟩ := h'.zone a
    exact ⟨index', by rw [hzone', hzone]⟩
  pathKey fa := (h'.pathKey fa).trans (h.pathKey fa)
  path fa := (h'.path fa).trans (h.path fa)
  next := h.next.trans h'.next

/-- A tree of entries is changed. -/
theorem of_index {za : Addr} {index : EntryKind → BinaryTree RbNode} (hzones : s'.zones = s.zones)
    (hzone : s'.zone = Function.update s.zone za { s.zone za with index := index })
    (hfile : s'.file = s.file) (hnext : s.next ≤ s'.next) : KeepsPaths s s' where
  zones := hzones
  zone a := by
    rw [hzone]
    rcases eq_or_ne a za with rfl | ha
    · exact ⟨index, Function.update_self _ _ _⟩
    · exact ⟨(s.zone a).index, Function.update_of_ne ha _ _⟩
  pathKey _ := by rw [hfile]
  path _ := by rw [hfile]
  next := hnext

/-- A file block is changed in what it links to. -/
theorem of_file {fa : Addr} {f : ShmFile} (hzones : s'.zones = s.zones) (hzone : s'.zone = s.zone)
    (hfile : s'.file = Function.update s.file fa f) (hkey : f.pathKey = (s.file fa).pathKey)
    (hpath : f.path = (s.file fa).path) (hnext : s.next ≤ s'.next) : KeepsPaths s s' where
  zones := hzones
  zone a := ⟨(s.zone a).index, by rw [hzone]⟩
  pathKey fb := by
    rw [hfile]
    rcases eq_or_ne fb fa with rfl | hfb
    · rw [Function.update_self, hkey]
    · rw [Function.update_of_ne hfb]
  path fb := by
    rw [hfile]
    rcases eq_or_ne fb fa with rfl | hfb
    · rw [Function.update_self, hpath]
    · rw [Function.update_of_ne hfb]
  next := hnext

theorem pathNode (h : KeepsPaths s s') (fa : Addr) :
    CachePilot.pathNode s'.file fa = CachePilot.pathNode s.file fa := by
  unfold CachePilot.pathNode
  rw [h.pathKey, h.path]

theorem pathIndex (h : KeepsPaths s s') (za : Addr) :
    (s'.zone za).pathIndex = (s.zone za).pathIndex := by
  obtain ⟨index, hzone⟩ := h.zone za
  rw [hzone]

/-! ## Operations -/

theorem allocLocked (ok : Bool) (kind : BlockKind) (s : Shm) :
    KeepsPaths s (CachePilot.allocLocked ok kind s).2 := by
  cases ok with
  | true => exact of_eq rfl rfl rfl (Nat.le_succ _)
  | false => exact of_eq rfl rfl rfl (Nat.le_refl _)

theorem addEntry (N : Nginx) (kind : EntryKind) (za e : Addr) (str : Bytes) (s : Shm) :
    KeepsPaths s (CachePilot.addEntry N kind za e str s) := of_index rfl rfl rfl (Nat.le_refl _)

theorem getEntryLocked (N : Nginx) (ok : Bool) (kind : EntryKind) (za : Addr) (str : Bytes) (s : Shm) :
    KeepsPaths s (CachePilot.getEntryLocked N ok kind za str true s).2 := by
  unfold CachePilot.getEntryLocked
  cases lookupEntry N kind (s.zone za) str with
  | some e => exact refl s
  | none =>
    have halloc := allocLocked ok (.entry kind) s
    simp only [if_true]
    generalize CachePilot.allocLocked ok (.entry kind) s = result at halloc
    obtain ⟨e, s1⟩ := result
    cases e with
    | none => exact halloc
    | some e => exact halloc.trans (addEntry N kind za e str s1)

theorem freeEmptyEntryLocked (N : Nginx) (kind : EntryKind) (za e : Addr) (s : Shm) :
    KeepsPaths s (CachePilot.freeEmptyEntryLocked N kind za e s) := by
  unfold CachePilot.freeEmptyEntryLocked
  simp only
  split
  · exact refl s
  · exact of_index rfl rfl rfl (Nat.le_refl _)

theorem unlinkMember (N : Nginx) (za fa m : Addr) (s : Shm) :
    KeepsPaths s (CachePilot.unlinkMember N za fa m s) := by
  unfold CachePilot.unlinkMember
  have hfiles : KeepsPaths s ((dequeue .tag (s.member m).tagEntry m s).setFile fa
      { (dequeue .tag (s.member m).tagEntry m s).file fa with
        tagMembers := ((dequeue .tag (s.member m).tagEntry m s).file fa).tagMembers.erase m }) :=
    of_file rfl rfl rfl rfl rfl (Nat.le_refl _)
  exact (hfiles.trans (freeEmptyEntryLocked N .tag za _ _)).trans
    (of_eq rfl rfl rfl (Nat.le_refl _))

theorem unlinkKey (N : Nginx) (za fa : Addr) (s : Shm) :
    KeepsPaths s (CachePilot.unlinkKey N za fa s) := by
  unfold CachePilot.unlinkKey
  cases (s.file fa).keyEntry with
  | none => exact refl s
  | some e =>
    have hqueue : KeepsPaths s (dequeue .key e fa s) := of_eq rfl rfl rfl (Nat.le_refl _)
    exact (hqueue.trans (freeEmptyEntryLocked N .key za e _)).trans
      (of_file rfl rfl rfl rfl rfl (Nat.le_refl _))

/-- The key and all tags of a file are unlinked. -/
theorem unlinkAll (N : Nginx) (za fa : Addr) (s : Shm) :
    KeepsPaths s (((CachePilot.unlinkKey N za fa s).file fa).tagMembers.foldl
      (fun s m => CachePilot.unlinkMember N za fa m s) (CachePilot.unlinkKey N za fa s)) := by
  have hmembers : ∀ (members : List Addr) (s : Shm),
      KeepsPaths s (members.foldl (fun s m => CachePilot.unlinkMember N za fa m s) s) := by
    intro members
    induction members with
    | nil => exact refl
    | cons m members ih => exact fun s => (unlinkMember N za fa m s).trans (ih _)
  exact (unlinkKey N za fa s).trans (hmembers _ _)

/-- `remove_file_locked` drops the file from a state that differs in links only. -/
theorem removeFileLocked (N : Nginx) (za fa : Addr) (s : Shm) :
    ∃ s1, KeepsPaths s s1 ∧ CachePilot.removeFileLocked N za fa s = dropFile N za fa s1 :=
  ⟨_, unlinkAll N za fa s, rfl⟩

theorem linkExactKeyLocked (N : Nginx) (ok : Bool) (za fa : Addr) (s : Shm) :
    KeepsPaths s (CachePilot.linkExactKeyLocked N ok za fa s).2 := by
  unfold CachePilot.linkExactKeyLocked getKeyEntryLocked
  simp only
  split
  · exact refl s
  · have hentry := getEntryLocked N ok .key za (s.file fa).key s
    generalize CachePilot.getEntryLocked N ok .key za (s.file fa).key true s = result at hentry
    obtain ⟨e, s1⟩ := result
    cases e with
    | none => exact hentry
    | some e => exact hentry.trans (of_file rfl rfl rfl rfl rfl (Nat.le_refl _))

theorem linkTagsLocked (N : Nginx) (alloc : AllocSite → Bool) (za fa : Addr) (i : Nat)
    (tags : List Bytes) (s : Shm) : KeepsPaths s (CachePilot.linkTagsLocked N alloc za fa i tags s).2 := by
  induction tags generalizing i s with
  | nil => exact refl s
  | cons tag tags ih =>
    unfold CachePilot.linkTagsLocked getTagEntryLocked
    have hentry := getEntryLocked N (alloc (.tagEntry i)) .tag za tag s
    generalize CachePilot.getEntryLocked N (alloc (.tagEntry i)) .tag za tag true s = result at hentry
    obtain ⟨e, s1⟩ := result
    cases e with
    | none => exact hentry
    | some e =>
      have hmember := allocLocked (alloc (.tagMember i)) .tagMember s1
      simp only
      generalize CachePilot.allocLocked (alloc (.tagMember i)) .tagMember s1 = result at hmember
      obtain ⟨m, s2⟩ := result
      cases m with
      | none => exact hentry.trans hmember
      | some m =>
        have hlink : KeepsPaths s2 (linkMember e fa m s2) := of_file rfl rfl rfl rfl rfl (Nat.le_refl _)
        exact ((hentry.trans hmember).trans hlink).trans (ih (i + 1) _)

end KeepsPaths

end CachePilot
