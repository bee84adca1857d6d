import CachePilot.Store.Link

/-!
# Unlinking steps

The steps that take a file of a zone apart: its key link, its tag links, an entry
whose queue ran empty, the file block itself. `removeFileLocked` is a run of
them, so it keeps the invariant of the zone, and it leaves no entry empty that
was not empty before.
-/

namespace CachePilot
open NgxString SearchTree

variable {N : Nginx} {s : Shm} {za fa : Addr}

/-! ## An entry with an empty queue -/

section FreeEmpty

variable {kind : EntryKind} {e : Addr}

theorem freeEmpty_of_ne (hq : (s.entry kind e).files ≠ []) :
    freeEmptyEntryLocked N kind za e s = s := by
  unfold freeEmptyEntryLocked
  rw [if_pos hq]

/-- The state with the entry `e` taken out of its tree and freed. -/
def withoutEntry (N : Nginx) (kind : EntryKind) (za e : Addr) (s : Shm) : Shm :=
  (s.setZone za
    { s.zone za with
      index :=
        Function.update (s.zone za).index kind
          (N.rbtreeDelete ⟨(s.entry kind e).nodeKey, (s.entry kind e).str, e⟩
            ((s.zone za).index kind)) }).freeBlock (.entry kind) e

theorem freeEmpty_of_eq (hq : (s.entry kind e).files = []) :
    freeEmptyEntryLocked N kind za e s = withoutEntry N kind za e s := by
  unfold freeEmptyEntryLocked withoutEntry
  rw [if_neg (not_not.mpr hq)]

@[simp] theorem withoutEntry_zone : (withoutEntry N kind za e s).zone za =
    { s.zone za with
      index :=
        Function.update (s.zone za).index kind
          (N.rbtreeDelete ⟨(s.entry kind e).nodeKey, (s.entry kind e).str, e⟩
            ((s.zone za).index kind)) } := by
  simp [withoutEntry]

@[simp] theorem withoutEntry_file : (withoutEntry N kind za e s).file = s.file := rfl

@[simp] theorem withoutEntry_member : (withoutEntry N kind za e s).member = s.member := rfl

@[simp] theorem withoutEntry_entry : (withoutEntry N kind za e s).entry = s.entry := rfl

@[simp] theorem withoutEntry_members : (withoutEntry N kind za e s).members za = s.members za := by
  simp [Shm.members]

@[simp] theorem withoutEntry_links (k : EntryKind) :
    (withoutEntry N kind za e s).links za k = s.links za k := by
  cases k <;> simp [Shm.links]

/-- The node of an entry in its tree is the one its block describes. -/
theorem ZoneInv.entry_node (h : ZoneInv N s za) (he : e ∈ s.entryAddrs za kind) :
    (⟨(s.entry kind e).nodeKey, (s.entry kind e).str, e⟩ : RbNode) ∈
      inorder ((s.zone za).index kind) := by
  obtain ⟨n, hn, rfl⟩ := List.mem_map.mp he
  rw [(h.index kind).block n hn]
  exact hn

theorem withoutEntry_entryAddrs (h : ZoneInv N s za) (he : e ∈ s.entryAddrs za kind) {k : EntryKind}
    {a : Addr} :
    a ∈ (withoutEntry N kind za e s).entryAddrs za k ↔
      a ∈ s.entryAddrs za k ∧ ¬ (k = kind ∧ a = e) := by
  have hn := h.entry_node he
  simp only [Shm.entryAddrs, withoutEntry_zone]
  by_cases hk : k = kind
  · subst hk
    rw [Function.update_self]
    simp only [List.mem_map, N.mem_rbtreeDelete (h.index k).sorted, true_and]
    constructor
    · rintro ⟨n, ⟨hne, hm⟩, rfl⟩
      exact ⟨⟨n, hm, rfl⟩, fun ha => hne ((h.index k).node_unique hm hn ha)⟩
    · rintro ⟨⟨n, hm, rfl⟩, hne⟩
      exact ⟨n, ⟨fun h0 => hne (by rw [h0]), hm⟩, rfl⟩
  · rw [Function.update_of_ne hk]
    simp [hk]

theorem withoutEntry_owns (h : ZoneInv N s za) (he : e ∈ s.entryAddrs za kind) (b : Block) :
    (withoutEntry N kind za e s).Owns za b ↔ s.Owns za b ∧ ¬ b = ⟨.entry kind, e⟩ := by
  obtain ⟨k, a⟩ := b
  cases k with
  | zone => simp [Shm.Owns]
  | file => simp [Shm.Owns]
  | tagMember => simp [Shm.Owns]
  | entry k => simp [Shm.Owns, withoutEntry_entryAddrs h he]

variable (fa) in
theorem withoutEntry_spec (h : ZoneInv N s za) (he : e ∈ s.entryAddrs za kind)
    (hq : (s.entry kind e).files = []) : Tidy N s (withoutEntry N kind za e s) za fa := by
  have hlive : ∀ b, (withoutEntry N kind za e s).Live b ↔ s.Live b ∧ ¬ b = ⟨.entry kind, e⟩ :=
    s.live_freeBlock (.entry kind) e
  have howns := withoutEntry_owns (N := N) h he
  have hown : s.Owns za ⟨.entry kind, e⟩ := he
  have hpool : (withoutEntry N kind za e s).Pool :=
    (h.pool.freeBlock (h.ownedLive _ hown)).of_eq rfl rfl rfl
  refine ⟨⟨⟨?_, fun k => ?_, ?_, ?_, ?_, hpool, fun b hb => ?_⟩,
    ⟨Nat.le_refl _, rfl, ?_, fun zb hne => ?_, fun b hb => ?_, fun _ _ _ => rfl,
      fun _ _ _ _ => rfl, fun _ _ _ => rfl,
      live_shrink h hlive howns fun b hb => hb ▸ hown⟩,
    Nat.le_refl _, fun _ _ _ => rfl, fun _ _ => rfl, fun _ _ => rfl, fun _ _ _ => rfl⟩,
    fun k ht a ha => ?_⟩
  · simpa using h.path
  · rw [withoutEntry_links, withoutEntry_zone, withoutEntry_entry]
    by_cases hk : k = kind
    · subst hk
      simpa using (h.index k).free (h.entry_node he) hq
    · simpa [Function.update_of_ne hk] using h.index k
  · simpa using h.membersNodup
  · simpa using h.memberFile
  · simpa using h.keyStr
  · exact (hlive b).mpr (((howns b).mp hb).imp_left (h.ownedLive b))
  · simp
  · simp [withoutEntry, hne]
  · exact Or.inl ((howns b).mp hb).1
  · rw [withoutEntry_links]
    exact ht a ((withoutEntry_entryAddrs h he).mp ha).1

/-- `free_empty_key_entry_locked` and `free_empty_tag_entry_locked`. -/
theorem freeEmpty_spec (h : ZoneInv N s za) (he : e ∈ s.entryAddrs za kind) :
    Keeps N s (freeEmptyEntryLocked N kind za e s) za fa := by
  by_cases hq : (s.entry kind e).files = []
  · rw [freeEmpty_of_eq hq]
    exact (withoutEntry_spec fa h he hq).toKeeps
  · rw [freeEmpty_of_ne hq]
    exact Keeps.refl h

theorem freeEmpty_file : (freeEmptyEntryLocked N kind za e s).file = s.file := by
  by_cases hq : (s.entry kind e).files = []
  · rw [freeEmpty_of_eq hq, withoutEntry_file]
  · rw [freeEmpty_of_ne hq]

theorem freeEmpty_files : ((freeEmptyEntryLocked N kind za e s).zone za).files =
    (s.zone za).files := by
  by_cases hq : (s.entry kind e).files = []
  · rw [freeEmpty_of_eq hq, withoutEntry_zone]
  · rw [freeEmpty_of_ne hq]

theorem freeEmpty_links (k : EntryKind) :
    (freeEmptyEntryLocked N kind za e s).links za k = s.links za k := by
  by_cases hq : (s.entry kind e).files = []
  · rw [freeEmpty_of_eq hq, withoutEntry_links]
  · rw [freeEmpty_of_ne hq]

/-- If only the queue of `e` can be empty, then after `free_empty` none is. -/
theorem freeEmpty_tight (h : ZoneInv N s za) (he : e ∈ s.entryAddrs za kind)
    (ht : ∀ a ∈ s.entryAddrs za kind, a ≠ e → ∃ x, (x, a) ∈ s.links za kind) :
    Tight (freeEmptyEntryLocked N kind za e s) za kind := by
  intro a ha
  rw [freeEmpty_links]
  by_cases hq : (s.entry kind e).files = []
  · rw [freeEmpty_of_eq hq, withoutEntry_entryAddrs h he] at ha
    exact ht a ha.1 fun h0 => ha.2 ⟨rfl, h0⟩
  · rw [freeEmpty_of_ne hq] at ha
    by_cases hae : a = e
    · subst hae
      obtain ⟨x, hx⟩ := List.exists_mem_of_ne_nil _ hq
      have hb := (h.index kind).block _ (h.entry_node he)
      simp only at hb
      rw [hb] at hx
      exact ⟨x, mem_queueOf.mp hx⟩
    · exact ht a ha hae

/-- The other index tree is not touched. -/
theorem freeEmpty_tight_other {k : EntryKind} (h : ZoneInv N s za) (he : e ∈ s.entryAddrs za kind)
    (ht : Tight s za k) : Tight (freeEmptyEntryLocked N kind za e s) za k := by
  by_cases hq : (s.entry kind e).files = []
  · rw [freeEmpty_of_eq hq]
    exact (withoutEntry_spec 0 h he hq).tight k ht
  · rw [freeEmpty_of_ne hq]
    exact ht

end FreeEmpty

/-! ## The key link -/

section DetachKey

variable {e : Addr}

/-- The state with the file `fa` taken out of the queue of its key entry `e`. -/
def detachKey (e fa : Addr) (s : Shm) : Shm :=
  (dequeue .key e fa s).setFile fa { s.file fa with keyEntry := none }

@[simp] theorem detachKey_zone : (detachKey e fa s).zone = s.zone := rfl

@[simp] theorem detachKey_file : (detachKey e fa s).file =
    Function.update s.file fa { s.file fa with keyEntry := none } := rfl

@[simp] theorem detachKey_member : (detachKey e fa s).member = s.member := rfl

@[simp] theorem detachKey_entry : (detachKey e fa s).entry =
    Function.update s.entry .key (Function.update (s.entry .key) e
      { s.entry .key e with files := (s.entry .key e).files.erase fa }) := rfl

/-- Only the key entry of the file changes. -/
theorem detachKey_file_other (fb : Addr) :
    ((detachKey e fa s).file fb).pathKey = (s.file fb).pathKey ∧
    ((detachKey e fa s).file fb).record = (s.file fb).record ∧
    ((detachKey e fa s).file fb).tagMembers = (s.file fb).tagMembers := by
  rw [detachKey_file]
  by_cases hb : fb = fa
  · subst hb
    simp [ShmFile.record]
  · simp [Function.update_of_ne hb]

theorem detachKey_str (k : EntryKind) (a : Addr) :
    ((detachKey e fa s).entry k a).str = (s.entry k a).str := by
  rw [detachKey_entry]
  cases k with
  | key =>
    rw [Function.update_self]
    by_cases ha : a = e
    · subst ha
      rw [Function.update_self]
    · rw [Function.update_of_ne ha]
  | tag => rw [Function.update_of_ne (by decide)]

theorem detachKey_members : (detachKey e fa s).members za = s.members za :=
  membersOf_congr fun fb _ => (detachKey_file_other fb).2.2

theorem detachKey_owns (b : Block) : (detachKey e fa s).Owns za b ↔ s.Owns za b := by
  obtain ⟨k, a⟩ := b
  cases k <;> simp [Shm.Owns, Shm.entryAddrs, detachKey_members]

theorem detachKey_links_key : (detachKey e fa s).links za .key = unlinked (s.links za .key) fa := by
  simp only [Shm.links, detachKey_zone, detachKey_file]
  exact keyLinksOf_unlink

theorem detachKey_links_tag : (detachKey e fa s).links za .tag = s.links za .tag := by
  simp only [Shm.links, detachKey_members, detachKey_member]

theorem detachKey_spec (h : ZoneInv N s za) (hfa : fa ∈ (s.zone za).files)
    (he : (s.file fa).keyEntry = some e) : Keeps N s (detachKey e fa s) za fa := by
  have hlink : (fa, e) ∈ s.links za .key := mem_keyLinksOf.mpr ⟨hfa, he⟩
  have hmem : e ∈ s.entryAddrs za .key := (h.index .key).linked (fa, e) hlink
  have hfile : ∀ a, a ≠ fa → (detachKey e fa s).file a = s.file a := fun a hne => by
    rw [detachKey_file]
    exact Function.update_of_ne hne _ _
  have hpath : ∀ fb, ((detachKey e fa s).file fb).path = (s.file fb).path := fun fb =>
    congrArg Record.path (detachKey_file_other fb).2.1
  have hkey : ∀ fb, ((detachKey e fa s).file fb).key = (s.file fb).key := fun fb =>
    congrArg Record.key (detachKey_file_other fb).2.1
  refine ⟨⟨?_, fun k => ?_, ?_, ?_, ?_, h.pool.of_eq rfl rfl rfl, fun b hb => ?_⟩,
    ⟨Nat.le_refl _, rfl, rfl, fun _ _ => rfl, fun b hb => ?_,
      fun a _ ho => hfile a fun ha => ho (ha ▸ hfa), fun k a _ ho => ?_, fun _ _ _ => rfl,
      fun b => ?_⟩,
    Nat.le_refl _, fun a _ hne => hfile a hne, fun a _ => (detachKey_file_other a).2.1,
    fun _ _ => rfl, fun k a _ => detachKey_str k a⟩
  · exact h.path.congr fun fb _ => ⟨(detachKey_file_other fb).1, hpath fb⟩
  · cases k with
    | key =>
      rw [detachKey_links_key, detachKey_entry, Function.update_self]
      exact (h.index .key).unlink (h.links_nodup .key) hlink
    | tag =>
      rw [detachKey_links_tag, detachKey_entry, Function.update_of_ne (by decide)]
      exact h.index .tag
  · rw [detachKey_members]
    exact h.membersNodup
  · intro fb hfb m hm
    rw [(detachKey_file_other fb).2.2] at hm
    exact h.memberFile fb hfb m hm
  · intro fb hfb e' he'
    rw [detachKey_str, hkey]
    by_cases hb : fb = fa
    · subst hb
      rw [detachKey_file, Function.update_self] at he'
      exact nomatch he'
    · rw [hfile fb hb] at he'
      exact h.keyStr fb hfb e' he'
  · exact h.ownedLive b ((detachKey_owns b).mp hb)
  · exact Or.inl ((detachKey_owns b).mp hb)
  · rw [detachKey_entry]
    cases k with
    | key => rw [Function.update_self, Function.update_of_ne fun ha : a = e => ho (ha ▸ hmem)]
    | tag => rw [Function.update_of_ne (by decide)]
  · rw [detachKey_owns]
    exact (Within.refl N h).live b

theorem unlinkKey_none (he : (s.file fa).keyEntry = none) : unlinkKey N za fa s = s := by
  unfold unlinkKey
  rw [he]

/-- The entry can be released after the file forgot it. -/
theorem unlinkKey_eq (he : (s.file fa).keyEntry = some e) :
    unlinkKey N za fa s = freeEmptyEntryLocked N .key za e (detachKey e fa s) := by
  unfold unlinkKey freeEmptyKeyEntryLocked
  rw [he]
  simp only
  by_cases hq : ((dequeue .key e fa s).entry .key e).files = []
  · rw [freeEmpty_of_eq hq, freeEmpty_of_eq (s := detachKey e fa s) hq]
    rfl
  · rw [freeEmpty_of_ne hq, freeEmpty_of_ne (s := detachKey e fa s) hq]
    rfl

theorem unlinkKey_spec (h : ZoneInv N s za) (hfa : fa ∈ (s.zone za).files) :
    Tidy N s (unlinkKey N za fa s) za fa := by
  cases he : (s.file fa).keyEntry with
  | none =>
    rw [unlinkKey_none he]
    exact Tidy.refl h
  | some e =>
    rw [unlinkKey_eq he]
    have hd := detachKey_spec h hfa he
    have hmem : e ∈ (detachKey e fa s).entryAddrs za .key :=
      (h.index .key).linked (fa, e) (mem_keyLinksOf.mpr ⟨hfa, he⟩)
    refine ⟨hd.trans h.pool (freeEmpty_spec hd.inv hmem), fun k ht => ?_⟩
    cases k with
    | key =>
      -- another entry still has what it had: the file was linked to `e` only
      refine freeEmpty_tight hd.inv hmem fun a ha hne => ?_
      obtain ⟨x, hx⟩ := ht a ha
      refine ⟨x, ?_⟩
      rw [detachKey_links_key, mem_unlinked]
      refine ⟨hx, fun h0 : x = fa => hne ?_⟩
      rw [h0] at hx
      have hxe := (mem_keyLinksOf.mp hx).2
      simp only at hxe
      rw [he] at hxe
      exact (Option.some.inj hxe).symm
    | tag =>
      refine freeEmpty_tight_other hd.inv hmem fun a ha => ?_
      rw [detachKey_links_tag]
      exact ht a ha

variable (N s za fa) in
/-- Afterwards the file has no key link; its place in the zone stays. -/
theorem unlinkKey_file : ((unlinkKey N za fa s).file fa) = { s.file fa with keyEntry := none } ∧
    ((unlinkKey N za fa s).zone za).files = (s.zone za).files := by
  cases he : (s.file fa).keyEntry with
  | none =>
    rw [unlinkKey_none he]
    refine ⟨?_, rfl⟩
    generalize s.file fa = f at he
    cases f with
    | mk =>
      simp only at he
      subst he
      rfl
  | some e =>
    rw [unlinkKey_eq he, freeEmpty_file, freeEmpty_files, detachKey_file, Function.update_self]
    exact ⟨rfl, rfl⟩

end DetachKey

/-! ## A tag link -/

section DetachMember

variable {m : Addr}

/-- The state with the member `m` taken out of both its queues and freed. -/
def detachMember (fa m : Addr) (s : Shm) : Shm :=
  ((dequeue .tag (s.member m).tagEntry m s).setFile fa
    { s.file fa with tagMembers := (s.file fa).tagMembers.erase m }).freeBlock .tagMember m

@[simp] theorem detachMember_zone : (detachMember fa m s).zone = s.zone := rfl

@[simp] theorem detachMember_file : (detachMember fa m s).file =
    Function.update s.file fa
      { s.file fa with tagMembers := (s.file fa).tagMembers.erase m } := rfl

@[simp] theorem detachMember_member : (detachMember fa m s).member = s.member := rfl

@[simp] theorem detachMember_entry : (detachMember fa m s).entry =
    Function.update s.entry .tag (Function.update (s.entry .tag) (s.member m).tagEntry
      { s.entry .tag (s.member m).tagEntry with
        files := (s.entry .tag (s.member m).tagEntry).files.erase m }) := rfl

/-- Only the member queue of the file changes. -/
theorem detachMember_file_other (fb : Addr) :
    ((detachMember fa m s).file fb).pathKey = (s.file fb).pathKey ∧
    ((detachMember fa m s).file fb).record = (s.file fb).record ∧
    ((detachMember fa m s).file fb).keyEntry = (s.file fb).keyEntry := by
  rw [detachMember_file]
  by_cases hb : fb = fa
  · subst hb
    simp [ShmFile.record]
  · simp [Function.update_of_ne hb]

theorem detachMember_str (k : EntryKind) (a : Addr) :
    ((detachMember fa m s).entry k a).str = (s.entry k a).str := by
  rw [detachMember_entry]
  cases k with
  | key => rw [Function.update_of_ne (by decide)]
  | tag =>
    rw [Function.update_self]
    by_cases ha : a = (s.member m).tagEntry
    · subst ha
      rw [Function.update_self]
    · rw [Function.update_of_ne ha]

theorem detachMember_members (h : ZoneInv N s za) (hfa : fa ∈ (s.zone za).files)
    (hm : m ∈ (s.file fa).tagMembers) :
    (detachMember fa m s).members za = (s.members za).erase m := by
  simp only [Shm.members, detachMember_zone, detachMember_file]
  exact membersOf_unlink h.files_nodup h.membersNodup hfa hm

theorem detachMember_owns (h : ZoneInv N s za) (hfa : fa ∈ (s.zone za).files)
    (hm : m ∈ (s.file fa).tagMembers) (b : Block) :
    (detachMember fa m s).Owns za b ↔ s.Owns za b ∧ ¬ b = ⟨.tagMember, m⟩ := by
  obtain ⟨k, a⟩ := b
  cases k with
  | zone => simp [Shm.Owns]
  | file => simp [Shm.Owns]
  | entry k => simp [Shm.Owns, Shm.entryAddrs]
  | tagMember =>
    simp only [Shm.Owns, detachMember_members h hfa hm, h.membersNodup.mem_erase_iff,
      Block.mk.injEq, true_and]
    exact and_comm

theorem detachMember_links_key : (detachMember fa m s).links za .key = s.links za .key :=
  keyLinksOf_congr fun fb _ => (detachMember_file_other fb).2.2

theorem detachMember_links_tag (h : ZoneInv N s za) (hfa : fa ∈ (s.zone za).files)
    (hm : m ∈ (s.file fa).tagMembers) :
    (detachMember fa m s).links za .tag = unlinked (s.links za .tag) m := by
  simp only [Shm.links, detachMember_members h hfa hm, detachMember_member]
  exact tagLinksOf_unlink h.membersNodup m

theorem detachMember_spec (h : ZoneInv N s za) (hfa : fa ∈ (s.zone za).files)
    (hm : m ∈ (s.file fa).tagMembers) : Keeps N s (detachMember fa m s) za fa := by
  have hin : m ∈ s.members za := mem_membersOf.mpr ⟨fa, hfa, hm⟩
  have hlink : (m, (s.member m).tagEntry) ∈ s.links za .tag := List.mem_map.mpr ⟨m, hin, rfl⟩
  have hmem : (s.member m).tagEntry ∈ s.entryAddrs za .tag := (h.index .tag).linked _ hlink
  have hown : s.Owns za ⟨.tagMember, m⟩ := hin
  have howns := detachMember_owns h hfa hm
  have hlive : ∀ b, (detachMember fa m s).Live b ↔ s.Live b ∧ ¬ b = ⟨.tagMember, m⟩ :=
    s.live_freeBlock .tagMember m
  have hpool : (detachMember fa m s).Pool :=
    (h.pool.freeBlock (h.ownedLive _ hown)).of_eq rfl rfl rfl
  have hfile : ∀ a, a ≠ fa → (detachMember fa m s).file a = s.file a := fun a hne => by
    rw [detachMember_file]
    exact Function.update_of_ne hne _ _
  have hpath : ∀ fb, ((detachMember fa m s).file fb).path = (s.file fb).path := fun fb =>
    congrArg Record.path (detachMember_file_other fb).2.1
  have hkey : ∀ fb, ((detachMember fa m s).file fb).key = (s.file fb).key := fun fb =>
    congrArg Record.key (detachMember_file_other fb).2.1
  refine ⟨⟨?_, fun k => ?_, ?_, ?_, ?_, hpool, fun b hb => ?_⟩,
    ⟨Nat.le_refl _, rfl, rfl, fun _ _ => rfl, fun b hb => ?_,
      fun a _ ho => hfile a fun ha => ho (ha ▸ hfa), fun k a _ ho => ?_, fun _ _ _ => rfl,
      live_shrink h hlive howns fun b hb => hb ▸ hown⟩,
    Nat.le_refl _, fun a _ hne => hfile a hne, fun a _ => (detachMember_file_other a).2.1,
    fun _ _ => rfl, fun k a _ => detachMember_str k a⟩
  · exact h.path.congr fun fb _ => ⟨(detachMember_file_other fb).1, hpath fb⟩
  · cases k with
    | key =>
      rw [detachMember_links_key, detachMember_entry, Function.update_of_ne (by decide)]
      exact h.index .key
    | tag =>
      rw [detachMember_links_tag h hfa hm, detachMember_entry, Function.update_self]
      exact (h.index .tag).unlink (h.links_nodup .tag) hlink
  · rw [detachMember_members h hfa hm]
    exact h.membersNodup.erase m
  · intro fb hfb m' hm'
    refine h.memberFile fb hfb m' ?_
    by_cases hb : fb = fa
    · subst hb
      rw [detachMember_file, Function.update_self] at hm'
      exact List.mem_of_mem_erase hm'
    · rw [hfile fb hb] at hm'
      exact hm'
  · intro fb hfb e' he'
    rw [(detachMember_file_other fb).2.2] at he'
    rw [detachMember_str, hkey]
    exact h.keyStr fb hfb e' he'
  · exact (hlive b).mpr (((howns b).mp hb).imp_left (h.ownedLive b))
  · exact Or.inl ((howns b).mp hb).1
  · rw [detachMember_entry]
    cases k with
    | key => rw [Function.update_of_ne (by decide)]
    | tag =>
      rw [Function.update_self,
        Function.update_of_ne fun ha : a = (s.member m).tagEntry => ho (ha ▸ hmem)]

/-- The member can be freed before its entry. -/
theorem unlinkMember_eq : unlinkMember N za fa m s =
    freeEmptyEntryLocked N .tag za (s.member m).tagEntry (detachMember fa m s) := by
  have hfree : ∀ (t : Shm) (e : Addr),
      freeEmptyEntryLocked N .tag za e (t.freeBlock .tagMember m) =
        (freeEmptyEntryLocked N .tag za e t).freeBlock .tagMember m := by
    intro t e
    by_cases hq : (t.entry .tag e).files = []
    · rw [freeEmpty_of_eq hq, freeEmpty_of_eq (s := t.freeBlock .tagMember m) hq]
      unfold withoutEntry Shm.freeBlock
      simp only [Shm.setZone_freed]
      rw [Multiset.cons_swap]
      rfl
    · rw [freeEmpty_of_ne hq, freeEmpty_of_ne (s := t.freeBlock .tagMember m) hq]
  unfold detachMember
  rw [hfree]
  rfl

theorem unlinkMember_spec (h : ZoneInv N s za) (hfa : fa ∈ (s.zone za).files)
    (hm : m ∈ (s.file fa).tagMembers) : Tidy N s (unlinkMember N za fa m s) za fa := by
  have hin : m ∈ s.members za := mem_membersOf.mpr ⟨fa, hfa, hm⟩
  have hlink : (m, (s.member m).tagEntry) ∈ s.links za .tag := List.mem_map.mpr ⟨m, hin, rfl⟩
  have hmem : (s.member m).tagEntry ∈ (detachMember fa m s).entryAddrs za .tag :=
    (h.index .tag).linked _ hlink
  have hd := detachMember_spec h hfa hm
  rw [unlinkMember_eq]
  refine ⟨hd.trans h.pool (freeEmpty_spec hd.inv hmem), fun k ht => ?_⟩
  cases k with
  | tag =>
    refine freeEmpty_tight hd.inv hmem fun a ha hne => ?_
    obtain ⟨x, hx⟩ := ht a ha
    refine ⟨x, ?_⟩
    rw [detachMember_links_tag h hfa hm, mem_unlinked]
    refine ⟨hx, fun h0 : x = m => hne ?_⟩
    obtain ⟨m', -, hm'⟩ := List.mem_map.mp hx
    obtain ⟨rfl, rfl⟩ := Prod.mk.inj hm'
    rw [h0]
  | key =>
    refine freeEmpty_tight_other hd.inv hmem fun a ha => ?_
    rw [detachMember_links_key]
    exact ht a ha

variable (N s za fa m) in
theorem unlinkMember_file : (unlinkMember N za fa m s).file fa =
      { s.file fa with tagMembers := (s.file fa).tagMembers.erase m } ∧
    ((unlinkMember N za fa m s).zone za).files = (s.zone za).files := by
  rw [unlinkMember_eq, freeEmpty_file, freeEmpty_files, detachMember_file, Function.update_self]
  exact ⟨rfl, rfl⟩

end DetachMember

/-! ## The file -/

section DropFile

@[simp] theorem dropFile_file : (dropFile N za fa s).file = s.file := rfl

@[simp] theorem dropFile_member : (dropFile N za fa s).member = s.member := rfl

theorem dropFile_zone : (dropFile N za fa s).zone za =
    { s.zone za with
      pathIndex := N.rbtreeDelete (pathNode s.file fa) (s.zone za).pathIndex
      files := (s.zone za).files.erase fa } := by
  simp [dropFile, pathNode]

theorem dropFile_members (hm : (s.file fa).tagMembers = []) :
    (dropFile N za fa s).members za = s.members za := by
  simp only [Shm.members, dropFile_zone, dropFile_file]
  exact membersOf_erase hm

theorem dropFile_links (hk : (s.file fa).keyEntry = none) (hm : (s.file fa).tagMembers = [])
    (k : EntryKind) : (dropFile N za fa s).links za k = s.links za k := by
  cases k with
  | key =>
    simp only [Shm.links, dropFile_zone, dropFile_file]
    exact keyLinksOf_erase hk
  | tag => simp only [Shm.links, dropFile_members hm, dropFile_member]

theorem dropFile_owns (h : ZoneInv N s za) (hm : (s.file fa).tagMembers = []) (b : Block) :
    (dropFile N za fa s).Owns za b ↔ s.Owns za b ∧ ¬ b = ⟨.file, fa⟩ := by
  obtain ⟨k, a⟩ := b
  cases k with
  | zone => simp [Shm.Owns]
  | file =>
    simp only [Shm.Owns, dropFile_zone, h.files_nodup.mem_erase_iff, Block.mk.injEq, true_and]
    exact and_comm
  | tagMember => simp [Shm.Owns, dropFile_members hm]
  | entry k => simp [Shm.Owns, Shm.entryAddrs, dropFile_zone]

theorem dropFile_spec (h : ZoneInv N s za) (hfa : fa ∈ (s.zone za).files)
    (hk : (s.file fa).keyEntry = none) (hm : (s.file fa).tagMembers = []) :
    Tidy N s (dropFile N za fa s) za fa := by
  have hown : s.Owns za ⟨.file, fa⟩ := hfa
  have howns := dropFile_owns (N := N) h hm
  have hlive : ∀ b, (dropFile N za fa s).Live b ↔ s.Live b ∧ ¬ b = ⟨.file, fa⟩ :=
    s.live_freeBlock .file fa
  have hpool : (dropFile N za fa s).Pool :=
    (h.pool.freeBlock (h.ownedLive _ hown)).of_eq rfl rfl rfl
  have hsub : ∀ fb ∈ ((dropFile N za fa s).zone za).files, fb ∈ (s.zone za).files := fun fb hfb => by
    rw [dropFile_zone] at hfb
    exact List.mem_of_mem_erase hfb
  refine ⟨⟨⟨?_, fun k => ?_, ?_, fun fb hfb => h.memberFile fb (hsub fb hfb),
      fun fb hfb => h.keyStr fb (hsub fb hfb), hpool, fun b hb => ?_⟩,
    ⟨Nat.le_refl _, rfl, ?_, fun zb hne => ?_, fun b hb => ?_, fun _ _ _ => rfl,
      fun _ _ _ _ => rfl, fun _ _ _ => rfl,
      live_shrink h hlive howns fun b hb => hb ▸ hown⟩,
    Nat.le_refl _, fun _ _ _ => rfl, fun _ _ => rfl, fun _ _ => rfl, fun _ _ _ => rfl⟩,
    fun k ht a ha => ?_⟩
  · rw [dropFile_zone]
    exact h.path.drop hfa
  · rw [dropFile_links hk hm, dropFile_zone]
    exact h.index k
  · rw [dropFile_members hm]
    exact h.membersNodup
  · exact (hlive b).mpr (((howns b).mp hb).imp_left (h.ownedLive b))
  · rw [dropFile_zone]
  · simp [dropFile, hne]
  · exact Or.inl ((howns b).mp hb).1
  · rw [dropFile_links hk hm]
    refine ht a ?_
    rw [Shm.entryAddrs, dropFile_zone] at ha
    exact ha

end DropFile

/-! ## Removing a file -/

section Remove

/-- The member loop of `remove_file_locked` over the members `ms` of the file. -/
theorem unlinkMembers_spec (ms : List Addr) (h : ZoneInv N s za) (hfa : fa ∈ (s.zone za).files)
    (hms : (s.file fa).tagMembers = ms) :
    let s' := ms.foldl (fun s m => unlinkMember N za fa m s) s
    Tidy N s s' za fa ∧ (s'.file fa).keyEntry = (s.file fa).keyEntry ∧
      (s'.file fa).tagMembers = [] ∧ (s'.zone za).files = (s.zone za).files := by
  induction ms generalizing s with
  | nil => exact ⟨Tidy.refl h, rfl, hms, rfl⟩
  | cons m ms ih =>
    have hm : m ∈ (s.file fa).tagMembers := by rw [hms]; exact List.mem_cons_self
    have hs := unlinkMember_spec h hfa hm
    obtain ⟨hfile, hfiles⟩ := unlinkMember_file N s za fa m
    have hrest : ((unlinkMember N za fa m s).file fa).tagMembers = ms := by
      rw [hfile, hms]
      exact List.erase_cons_head m ms
    obtain ⟨h1, h2, h3, h4⟩ := ih hs.inv (by rw [hfiles]; exact hfa) hrest
    refine ⟨hs.trans h.pool h1, h2.trans ?_, h3, h4.trans hfiles⟩
    rw [hfile]

/-- `remove_file_locked` takes the file out of its zone, with all its links and
with the entries that only it kept. -/
theorem removeFileLocked_spec (h : ZoneInv N s za) (hfa : fa ∈ (s.zone za).files) :
    Tidy N s (removeFileLocked N za fa s) za fa ∧
      ((removeFileLocked N za fa s).zone za).files = (s.zone za).files.erase fa := by
  have hu := unlinkKey_spec h hfa
  obtain ⟨hfile, hfiles⟩ := unlinkKey_file N s za fa
  have hfa' : fa ∈ ((unlinkKey N za fa s).zone za).files := by rw [hfiles]; exact hfa
  obtain ⟨hms, hkey, hmembers, hsame⟩ := unlinkMembers_spec _ hu.inv hfa' rfl
  have hnone : ((unlinkKey N za fa s).file fa).keyEntry = none := by rw [hfile]
  have hd := dropFile_spec hms.inv (by rw [hsame]; exact hfa') (hkey.trans hnone) hmembers
  refine ⟨(hu.trans h.pool hms).trans h.pool hd, ?_⟩
  unfold removeFileLocked
  rw [dropFile_zone]
  simp only
  rw [hsame, hfiles]

end Remove

end CachePilot
