import CachePilot.Store.Zone

/-!
# Linking steps

The steps that build up a file in a zone: a fresh entry, the file block itself,
its key link and its tag links. Each keeps the invariant of the zone and stays
within it. A link is made at the tail of a queue, so a file is linked while it
is the last of its zone.
-/

namespace CachePilot
open NgxString SearchTree

variable {N : Nginx} {s s' : Shm} {za : Addr}

/-- A step that takes a fresh block for the zone. -/
theorem live_grow (h : ZoneInv N s za) {b0 : Block}
    (hlive : ∀ b, s'.Live b ↔ s.Live b ∨ b = b0)
    (howns : ∀ b, s'.Owns za b ↔ s.Owns za b ∨ b = b0) (b : Block) :
    s'.Live b ↔ (s.Live b ∧ ¬ s.Owns za b) ∨ s'.Owns za b := by
  have hol := h.ownedLive b
  rw [hlive, howns]
  tauto

/-- A step that gives blocks of the zone back. -/
theorem live_shrink (h : ZoneInv N s za) {gone : Block → Prop}
    (hlive : ∀ b, s'.Live b ↔ s.Live b ∧ ¬ gone b)
    (howns : ∀ b, s'.Owns za b ↔ s.Owns za b ∧ ¬ gone b)
    (hgone : ∀ b, gone b → s.Owns za b) (b : Block) :
    s'.Live b ↔ (s.Live b ∧ ¬ s.Owns za b) ∨ s'.Owns za b := by
  have hol := h.ownedLive b
  have hg := hgone b
  rw [hlive, howns]
  tauto

theorem Shm.Pool.of_eq (h : s.Pool) (hn : s'.next = s.next) (ha : s'.allocated = s.allocated)
    (hf : s'.freed = s.freed) : s'.Pool where
  fresh := by rw [hn, ha]; exact h.fresh
  freedAllocated := by rw [ha, hf]; exact h.freedAllocated
  freedNodup := by rw [hf]; exact h.freedNodup

/-- The last file of a zone is queued once. -/
theorem ZoneInv.last_not_mem (h : ZoneInv N s za) {pre : List Addr} {fa : Addr}
    (hf : (s.zone za).files = pre ++ [fa]) : fa ∉ pre := by
  have hn := h.files_nodup
  rw [hf, List.nodup_append] at hn
  exact fun hm => hn.2.2 fa hm fa (List.mem_singleton.mpr rfl) rfl

/-! ## A new entry -/

section AddEntry

/-- The state with a fresh entry linked into its tree. -/
def withEntry (N : Nginx) (kind : EntryKind) (za : Addr) (str : Bytes) (s : Shm) : Shm :=
  addEntry N kind za s.next str (s.takeBlock (.entry kind))

variable {kind : EntryKind} {str : Bytes}

@[simp] theorem withEntry_zone : (withEntry N kind za str s).zone za =
    { s.zone za with
      index := Function.update (s.zone za).index kind
        (N.rbtreeInsert ⟨N.crc32Short str, str, s.next⟩ ((s.zone za).index kind)) } := by
  simp [withEntry, addEntry]

@[simp] theorem withEntry_file : (withEntry N kind za str s).file = s.file := rfl

@[simp] theorem withEntry_member : (withEntry N kind za str s).member = s.member := rfl

@[simp] theorem withEntry_entry : (withEntry N kind za str s).entry =
    Function.update s.entry kind
      (Function.update (s.entry kind) s.next ⟨N.crc32Short str, str, []⟩) := rfl

@[simp] theorem withEntry_members : (withEntry N kind za str s).members za = s.members za := by
  simp [Shm.members]

@[simp] theorem withEntry_links (k : EntryKind) :
    (withEntry N kind za str s).links za k = s.links za k := by
  cases k <;> simp [Shm.links]

theorem withEntry_owns {b : Block} :
    (withEntry N kind za str s).Owns za b ↔ s.Owns za b ∨ b = ⟨.entry kind, s.next⟩ := by
  obtain ⟨k, a⟩ := b
  cases k with
  | zone => simp [Shm.Owns]
  | file => simp [Shm.Owns]
  | tagMember => simp [Shm.Owns]
  | entry k =>
    simp only [Shm.Owns, Shm.entryAddrs, withEntry_zone, Block.mk.injEq, BlockKind.entry.injEq]
    by_cases hk : k = kind
    · subst hk
      rw [Function.update_self, ((N.inorder_rbtreeInsert_perm _ _).map RbNode.addr).mem_iff]
      simp [or_comm]
    · rw [Function.update_of_ne hk]
      simp [hk]

theorem withEntry_spec (h : ZoneInv N s za)
    (hs : ∀ n ∈ inorder ((s.zone za).index kind), n.str ≠ str) (fa : Addr) :
    Keeps N s (withEntry N kind za str s) za fa := by
  have hfresh : s.next ∉ s.entryAddrs za kind := fun he =>
    Nat.lt_irrefl _ (h.owns_lt (b := ⟨.entry kind, s.next⟩) he)
  have hlive : ∀ b, (withEntry N kind za str s).Live b ↔ s.Live b ∨ b = ⟨.entry kind, s.next⟩ :=
    h.pool.live_takeBlock (.entry kind)
  have hpool : (withEntry N kind za str s).Pool :=
    (h.pool.takeBlock (.entry kind)).of_eq rfl rfl rfl
  have howns : ∀ b, (withEntry N kind za str s).Owns za b ↔
      s.Owns za b ∨ b = ⟨.entry kind, s.next⟩ := fun _ => withEntry_owns
  have hentry : ∀ k a, a < s.next →
      (withEntry N kind za str s).entry k a = s.entry k a := by
    intro k a ha
    rw [withEntry_entry]
    by_cases hk : k = kind
    · subst hk
      rw [Function.update_self, Function.update_of_ne (Nat.ne_of_lt ha)]
    · rw [Function.update_of_ne hk]
  refine ⟨⟨?_, fun k => ?_, ?_, ?_, ?_, hpool, fun b hb => ?_⟩,
    ⟨Nat.le_succ _, rfl, ?_, fun zb hne => ?_, fun b hb => ?_, fun _ _ _ => rfl,
      fun k a ha _ => hentry k a ha, fun _ _ _ => rfl, live_grow h hlive howns⟩,
    Nat.le_succ _, fun _ _ _ => rfl, fun _ _ => rfl, fun _ _ => rfl,
    fun k a ha => by rw [hentry k a ha]⟩
  · simpa using h.path
  · rw [withEntry_links, withEntry_zone, withEntry_entry]
    by_cases hk : k = kind
    · subst hk
      simpa using (h.index k).add hs hfresh
    · simpa [Function.update_of_ne hk] using h.index k
  · simpa using h.membersNodup
  · simpa using h.memberFile
  · rw [withEntry_zone, withEntry_file, withEntry_entry]
    intro fa hfa e he
    have hlink : e ∈ s.entryAddrs za .key :=
      (h.index .key).linked (fa, e) (mem_keyLinksOf.mpr ⟨hfa, he⟩)
    rw [← h.keyStr fa hfa e he]
    by_cases hk : EntryKind.key = kind
    · subst hk
      rw [Function.update_self, Function.update_of_ne fun h0 : e = s.next => hfresh (h0 ▸ hlink)]
    · rw [Function.update_of_ne hk]
  · exact (hlive b).mpr (((howns b).mp hb).imp_left (h.ownedLive b))
  · simp
  · simp [withEntry, addEntry, hne]
  · exact ((howns b).mp hb).imp_right fun he => by rw [he]

theorem withEntry_entryAddrs {k : EntryKind} {a : Addr} :
    a ∈ (withEntry N kind za str s).entryAddrs za k ↔
      a ∈ s.entryAddrs za k ∨ k = kind ∧ a = s.next := by
  have ho : (withEntry N kind za str s).Owns za ⟨.entry k, a⟩ ↔ _ := withEntry_owns
  simpa [Shm.Owns] using ho

/-- Apart from the new entry no queue is empty that was not empty before. -/
theorem withEntry_tight {k : EntryKind} (ht : Tight s za k) {a : Addr}
    (ha : a ∈ (withEntry N kind za str s).entryAddrs za k) (hne : ¬ (k = kind ∧ a = s.next)) :
    ∃ x, (x, a) ∈ (withEntry N kind za str s).links za k := by
  rw [withEntry_links]
  exact ht a ((withEntry_entryAddrs.mp ha).resolve_right hne)

end AddEntry

/-! ## A new file -/

section AddFile

/-- The state with a fresh file block in the path tree and the queue. -/
def withFile (N : Nginx) (za : Addr) (path key : Bytes) (mtime size : Int) (tags : List Bytes)
    (s : Shm) : Shm :=
  addFile N za s.next path key mtime size tags (s.takeBlock .file)

/-- The fresh file block: nothing is linked yet. -/
def newFile (N : Nginx) (path key : Bytes) (mtime size : Int) (tags : List Bytes) : ShmFile where
  pathKey := N.pathHash path
  keyEntry := none
  tagMembers := []
  mtime := mtime
  size := size
  tagCount := tags.length
  path := path
  key := key
  tags := tags

variable {path key : Bytes} {mtime size : Int} {tags : List Bytes}

@[simp] theorem withFile_zone : (withFile N za path key mtime size tags s).zone za =
    { s.zone za with
      pathIndex := N.rbtreeInsert ⟨N.pathHash path, path, s.next⟩ (s.zone za).pathIndex
      files := (s.zone za).files ++ [s.next] } := by
  simp [withFile, addFile]

@[simp] theorem withFile_file : (withFile N za path key mtime size tags s).file =
    Function.update s.file s.next (newFile N path key mtime size tags) := rfl

@[simp] theorem withFile_entry : (withFile N za path key mtime size tags s).entry = s.entry := rfl

@[simp] theorem withFile_member :
    (withFile N za path key mtime size tags s).member = s.member := rfl

theorem withFile_file_of_mem (h : ZoneInv N s za) {fa : Addr} (hfa : fa ∈ (s.zone za).files) :
    (withFile N za path key mtime size tags s).file fa = s.file fa := by
  rw [withFile_file]
  exact Function.update_of_ne (Nat.ne_of_lt (h.owns_lt (b := ⟨.file, fa⟩) hfa)) _ _

theorem withFile_members (h : ZoneInv N s za) :
    (withFile N za path key mtime size tags s).members za = s.members za := by
  have hold : membersOf (withFile N za path key mtime size tags s).file (s.zone za).files =
      membersOf s.file (s.zone za).files :=
    membersOf_congr fun fa hfa => by rw [withFile_file_of_mem h hfa]
  unfold membersOf at hold
  simp only [Shm.members, membersOf, withFile_zone, List.flatMap_append, hold]
  simp [newFile]

theorem withFile_links (h : ZoneInv N s za) (k : EntryKind) :
    (withFile N za path key mtime size tags s).links za k = s.links za k := by
  cases k with
  | tag => simp [Shm.links, withFile_members h]
  | key =>
    have hold : keyLinksOf (withFile N za path key mtime size tags s).file (s.zone za).files =
        keyLinksOf s.file (s.zone za).files :=
      keyLinksOf_congr fun fa hfa => by rw [withFile_file_of_mem h hfa]
    unfold keyLinksOf at hold
    simp only [Shm.links, keyLinksOf, withFile_zone, List.filterMap_append, hold]
    simp [newFile]

theorem withFile_owns (h : ZoneInv N s za) (b : Block) :
    (withFile N za path key mtime size tags s).Owns za b ↔
      s.Owns za b ∨ b = ⟨.file, s.next⟩ := by
  obtain ⟨k, a⟩ := b
  cases k with
  | zone => simp [Shm.Owns]
  | file => simp [Shm.Owns]
  | tagMember => simp [Shm.Owns, withFile_members h]
  | entry k => simp [Shm.Owns, Shm.entryAddrs]

theorem withFile_spec (h : ZoneInv N s za)
    (hp : ∀ fa ∈ (s.zone za).files, (s.file fa).path ≠ path) :
    Keeps N s (withFile N za path key mtime size tags s) za s.next := by
  have hfresh : s.next ∉ (s.zone za).files := fun he =>
    Nat.lt_irrefl _ (h.owns_lt (b := ⟨.file, s.next⟩) he)
  have hlive : ∀ b, (withFile N za path key mtime size tags s).Live b ↔
      s.Live b ∨ b = ⟨.file, s.next⟩ := h.pool.live_takeBlock .file
  have howns : ∀ b, (withFile N za path key mtime size tags s).Owns za b ↔
      s.Owns za b ∨ b = ⟨.file, s.next⟩ := withFile_owns h
  have hpool : (withFile N za path key mtime size tags s).Pool :=
    (h.pool.takeBlock .file).of_eq rfl rfl rfl
  have hfile : ∀ a < s.next, (withFile N za path key mtime size tags s).file a = s.file a :=
    fun a ha => by
      rw [withFile_file]
      exact Function.update_of_ne (Nat.ne_of_lt ha) _ _
  refine ⟨⟨?_, fun k => ?_, ?_, ?_, ?_, hpool, fun b hb => ?_⟩,
    ⟨Nat.le_succ _, rfl, ?_, fun zb hne => ?_, fun b hb => ?_, fun a ha _ => hfile a ha,
      fun _ _ _ _ => rfl, fun _ _ _ => rfl, live_grow h hlive howns⟩,
    Nat.le_succ _, fun a ha _ => hfile a ha, fun a ha => by rw [hfile a ha], fun _ _ => rfl,
    fun _ _ _ => rfl⟩
  · rw [withFile_zone, withFile_file]
    exact h.path.add (f := newFile N path key mtime size tags) hfresh hp rfl
  · rw [withFile_links h, withFile_zone, withFile_entry]
    exact h.index k
  · rw [withFile_members h]
    exact h.membersNodup
  · rw [withFile_zone]
    intro fa hfa m hm
    rcases List.mem_append.mp hfa with hfa | hfa
    · rw [withFile_file_of_mem h hfa] at hm
      exact h.memberFile fa hfa m hm
    · rw [List.mem_singleton.mp hfa, withFile_file, Function.update_self] at hm
      exact absurd hm List.not_mem_nil
  · rw [withFile_zone]
    intro fa hfa e he
    rcases List.mem_append.mp hfa with hfa | hfa
    · rw [withFile_file_of_mem h hfa] at he ⊢
      exact h.keyStr fa hfa e he
    · rw [List.mem_singleton.mp hfa, withFile_file, Function.update_self] at he
      exact nomatch he
  · exact (hlive b).mpr (((howns b).mp hb).imp_left (h.ownedLive b))
  · simp
  · simp [withFile, addFile, hne]
  · exact ((howns b).mp hb).imp_right fun he => by rw [he]

theorem withFile_tight (h : ZoneInv N s za) {k : EntryKind} (ht : Tight s za k) :
    Tight (withFile N za path key mtime size tags s) za k := by
  intro e he
  rw [withFile_links h]
  rw [Shm.entryAddrs, withFile_zone] at he
  exact ht e he

end AddFile

/-! ## The key link -/

section LinkKey

/-- The state with the file `fa` linked to the key entry `e`. -/
def withKey (e fa : Addr) (s : Shm) : Shm :=
  enqueue .key e fa (s.setFile fa { s.file fa with keyEntry := some e })

variable {e fa : Addr} {pre : List Addr}

@[simp] theorem withKey_zone : (withKey e fa s).zone = s.zone := rfl

@[simp] theorem withKey_file : (withKey e fa s).file =
    Function.update s.file fa { s.file fa with keyEntry := some e } := rfl

@[simp] theorem withKey_member : (withKey e fa s).member = s.member := rfl

@[simp] theorem withKey_entry : (withKey e fa s).entry =
    Function.update s.entry .key (Function.update (s.entry .key) e
      { s.entry .key e with files := (s.entry .key e).files ++ [fa] }) := rfl

/-- The key link leaves the hash, the strings and the members of every file. -/
theorem withKey_file_other (fb : Addr) :
    ((withKey e fa s).file fb).pathKey = (s.file fb).pathKey ∧
    ((withKey e fa s).file fb).path = (s.file fb).path ∧
    ((withKey e fa s).file fb).key = (s.file fb).key ∧
    ((withKey e fa s).file fb).tags = (s.file fb).tags ∧
    ((withKey e fa s).file fb).tagMembers = (s.file fb).tagMembers := by
  rw [withKey_file]
  by_cases hb : fb = fa
  · subst hb
    simp
  · simp [Function.update_of_ne hb]

theorem withKey_record (fb : Addr) : ((withKey e fa s).file fb).record = (s.file fb).record := by
  simp only [ShmFile.record, (withKey_file_other fb).2.1, (withKey_file_other fb).2.2.1,
    (withKey_file_other fb).2.2.2.1]

/-- An entry keeps its string when a file is linked to it. -/
theorem withKey_str (k : EntryKind) (a : Addr) :
    ((withKey e fa s).entry k a).str = (s.entry k a).str := by
  rw [withKey_entry]
  cases k with
  | key =>
    rw [Function.update_self]
    by_cases ha : a = e
    · subst ha
      rw [Function.update_self]
    · rw [Function.update_of_ne ha]
  | tag => rw [Function.update_of_ne (by decide)]

theorem withKey_members : (withKey e fa s).members za = s.members za :=
  membersOf_congr fun fb _ => (withKey_file_other fb).2.2.2.2

theorem withKey_owns (b : Block) : (withKey e fa s).Owns za b ↔ s.Owns za b := by
  obtain ⟨k, a⟩ := b
  cases k <;> simp [Shm.Owns, Shm.entryAddrs, withKey_members]

theorem withKey_links_key (hf : (s.zone za).files = pre ++ [fa]) (hfa : fa ∉ pre)
    (hk : (s.file fa).keyEntry = none) :
    (withKey e fa s).links za .key = s.links za .key ++ [(fa, e)] := by
  simp only [Shm.links, withKey_zone, withKey_file, hf]
  exact keyLinksOf_link hfa hk

theorem withKey_links_tag : (withKey e fa s).links za .tag = s.links za .tag := by
  simp only [Shm.links, withKey_members, withKey_member]

theorem withKey_spec (h : ZoneInv N s za) (hf : (s.zone za).files = pre ++ [fa])
    (hk : (s.file fa).keyEntry = none) (he : e ∈ s.entryAddrs za .key)
    (hstr : (s.entry .key e).str = (s.file fa).key) : Keeps N s (withKey e fa s) za fa := by
  have hfa := h.last_not_mem hf
  have hmem : fa ∈ (s.zone za).files := by rw [hf]; simp
  have hfile : ∀ a, a ≠ fa → (withKey e fa s).file a = s.file a := fun a hne => by
    rw [withKey_file]
    exact Function.update_of_ne hne _ _
  refine ⟨⟨?_, fun k => ?_, ?_, ?_, ?_, h.pool.of_eq rfl rfl rfl, fun b hb => ?_⟩,
    ⟨Nat.le_refl _, rfl, rfl, fun _ _ => rfl, fun b hb => ?_,
      fun a _ ho => hfile a fun ha => ho (ha ▸ hmem), fun k a _ ho => ?_, fun _ _ _ => rfl,
      fun b => ?_⟩,
    Nat.le_refl _, fun a _ hne => hfile a hne, fun a _ => withKey_record a, fun _ _ => rfl,
    fun k a _ => withKey_str k a⟩
  · exact h.path.congr fun fb _ => ⟨(withKey_file_other fb).1, (withKey_file_other fb).2.1⟩
  · cases k with
    | key =>
      rw [withKey_links_key hf hfa hk, withKey_entry, Function.update_self]
      exact (h.index .key).link he
    | tag =>
      rw [withKey_links_tag, withKey_entry, Function.update_of_ne (by decide)]
      exact h.index .tag
  · rw [withKey_members]
    exact h.membersNodup
  · intro fb hfb m hm
    rw [(withKey_file_other fb).2.2.2.2] at hm
    exact h.memberFile fb hfb m hm
  · intro fb hfb e' he'
    rw [withKey_str, (withKey_file_other fb).2.2.1]
    by_cases hb : fb = fa
    · subst hb
      rw [withKey_file, Function.update_self] at he'
      rw [← Option.some.inj he', hstr]
    · rw [withKey_file, Function.update_of_ne hb] at he'
      exact h.keyStr fb hfb e' he'
  · exact h.ownedLive b ((withKey_owns b).mp hb)
  · exact Or.inl ((withKey_owns b).mp hb)
  · rw [withKey_entry]
    cases k with
    | key =>
      rw [Function.update_self, Function.update_of_ne fun ha : a = e => ho (ha ▸ he)]
    | tag => rw [Function.update_of_ne (by decide)]
  · rw [withKey_owns]
    exact (Within.refl N h).live b

/-- The key link fills the queue of its entry. -/
theorem withKey_tight (h : ZoneInv N s za) (hf : (s.zone za).files = pre ++ [fa])
    (hk : (s.file fa).keyEntry = none)
    (ht : ∀ a ∈ s.entryAddrs za .key, a ≠ e → ∃ x, (x, a) ∈ s.links za .key) :
    Tight (withKey e fa s) za .key := by
  intro a ha
  rw [withKey_links_key hf (h.last_not_mem hf) hk]
  by_cases hae : a = e
  · subst hae
    exact ⟨fa, by simp⟩
  · obtain ⟨x, hx⟩ := ht a ha hae
    exact ⟨x, List.mem_append_left _ hx⟩

theorem withKey_tight_tag (ht : Tight s za .tag) : Tight (withKey e fa s) za .tag := by
  intro a ha
  rw [withKey_links_tag]
  exact ht a ha

end LinkKey

/-! ## A tag link -/

section LinkMember

/-- The state with a fresh member block between the file `fa` and the tag entry
`e`. -/
def withMember (e fa : Addr) (s : Shm) : Shm := linkMember e fa s.next (s.takeBlock .tagMember)

variable {e fa : Addr} {pre : List Addr}

@[simp] theorem withMember_zone : (withMember e fa s).zone = s.zone := rfl

@[simp] theorem withMember_file : (withMember e fa s).file =
    Function.update s.file fa
      { s.file fa with tagMembers := (s.file fa).tagMembers ++ [s.next] } := rfl

@[simp] theorem withMember_member : (withMember e fa s).member =
    Function.update s.member s.next ⟨e, fa⟩ := rfl

@[simp] theorem withMember_entry : (withMember e fa s).entry =
    Function.update s.entry .tag (Function.update (s.entry .tag) e
      { s.entry .tag e with files := (s.entry .tag e).files ++ [s.next] }) := rfl

/-- A tag link leaves the hash, the strings and the key entry of every file. -/
theorem withMember_file_other (fb : Addr) :
    ((withMember e fa s).file fb).pathKey = (s.file fb).pathKey ∧
    ((withMember e fa s).file fb).path = (s.file fb).path ∧
    ((withMember e fa s).file fb).key = (s.file fb).key ∧
    ((withMember e fa s).file fb).tags = (s.file fb).tags ∧
    ((withMember e fa s).file fb).keyEntry = (s.file fb).keyEntry := by
  rw [withMember_file]
  by_cases hb : fb = fa
  · subst hb
    simp
  · simp [Function.update_of_ne hb]

theorem withMember_record (fb : Addr) :
    ((withMember e fa s).file fb).record = (s.file fb).record := by
  simp only [ShmFile.record, (withMember_file_other fb).2.1, (withMember_file_other fb).2.2.1,
    (withMember_file_other fb).2.2.2.1]

/-- An entry keeps its string when a member is linked to it. -/
theorem withMember_str (k : EntryKind) (a : Addr) :
    ((withMember e fa s).entry k a).str = (s.entry k a).str := by
  rw [withMember_entry]
  cases k with
  | key => rw [Function.update_of_ne (by decide)]
  | tag =>
    rw [Function.update_self]
    by_cases ha : a = e
    · subst ha
      rw [Function.update_self]
    · rw [Function.update_of_ne ha]

theorem withMember_members (hf : (s.zone za).files = pre ++ [fa]) (hfa : fa ∉ pre) :
    (withMember e fa s).members za = s.members za ++ [s.next] := by
  simp only [Shm.members, withMember_zone, withMember_file, hf]
  exact membersOf_link hfa

theorem withMember_owns (hf : (s.zone za).files = pre ++ [fa]) (hfa : fa ∉ pre) (b : Block) :
    (withMember e fa s).Owns za b ↔ s.Owns za b ∨ b = ⟨.tagMember, s.next⟩ := by
  obtain ⟨k, a⟩ := b
  cases k with
  | zone => simp [Shm.Owns]
  | file => simp [Shm.Owns]
  | tagMember => simp [Shm.Owns, withMember_members hf hfa]
  | entry k => simp [Shm.Owns, Shm.entryAddrs]

theorem withMember_links_key : (withMember e fa s).links za .key = s.links za .key :=
  keyLinksOf_congr fun fb _ => (withMember_file_other fb).2.2.2.2

theorem withMember_links_tag (h : ZoneInv N s za) (hf : (s.zone za).files = pre ++ [fa]) :
    (withMember e fa s).links za .tag = s.links za .tag ++ [(s.next, e)] := by
  have hkept : tagLinksOf (withMember e fa s).member (s.members za) = s.links za .tag :=
    List.map_congr_left fun m hm => by
      have hlt : m < s.next := h.owns_lt (b := ⟨.tagMember, m⟩) hm
      rw [withMember_member, Function.update_of_ne (Nat.ne_of_lt hlt)]
  rw [← hkept]
  simp [Shm.links, withMember_members hf (h.last_not_mem hf), tagLinksOf]

theorem withMember_spec (h : ZoneInv N s za) (hf : (s.zone za).files = pre ++ [fa])
    (he : e ∈ s.entryAddrs za .tag) : Keeps N s (withMember e fa s) za fa := by
  have hfa := h.last_not_mem hf
  have hmem : fa ∈ (s.zone za).files := by rw [hf]; simp
  have hold : ∀ m ∈ s.members za, m ≠ s.next := fun m hm =>
    Nat.ne_of_lt (h.owns_lt (b := ⟨.tagMember, m⟩) hm)
  have hmembers := withMember_members (e := e) hf hfa
  have hlive : ∀ b, (withMember e fa s).Live b ↔ s.Live b ∨ b = ⟨.tagMember, s.next⟩ :=
    h.pool.live_takeBlock .tagMember
  have howns := withMember_owns (e := e) hf hfa
  have hpool : (withMember e fa s).Pool := (h.pool.takeBlock .tagMember).of_eq rfl rfl rfl
  have hfile : ∀ a, a ≠ fa → (withMember e fa s).file a = s.file a := fun a hne => by
    rw [withMember_file]
    exact Function.update_of_ne hne _ _
  have hmember : ∀ a < s.next, (withMember e fa s).member a = s.member a := fun a ha => by
    rw [withMember_member]
    exact Function.update_of_ne (Nat.ne_of_lt ha) _ _
  refine ⟨⟨?_, fun k => ?_, ?_, ?_, ?_, hpool, fun b hb => ?_⟩,
    ⟨Nat.le_succ _, rfl, rfl, fun _ _ => rfl, fun b hb => ?_,
      fun a _ ho => hfile a fun ha => ho (ha ▸ hmem), fun k a _ ho => ?_,
      fun a ha _ => hmember a ha, live_grow h hlive howns⟩,
    Nat.le_succ _, fun a _ hne => hfile a hne, fun a _ => withMember_record a,
    fun a ha => hmember a ha, fun k a _ => withMember_str k a⟩
  · exact h.path.congr fun fb _ => ⟨(withMember_file_other fb).1, (withMember_file_other fb).2.1⟩
  · cases k with
    | key =>
      rw [withMember_links_key, withMember_entry, Function.update_of_ne (by decide)]
      exact h.index .key
    | tag =>
      rw [withMember_links_tag h hf, withMember_entry, Function.update_self]
      exact (h.index .tag).link he
  · rw [hmembers]
    refine List.Nodup.append h.membersNodup (List.nodup_singleton _) ?_
    rw [List.disjoint_singleton]
    exact fun hm => hold _ hm rfl
  · intro fb hfb m hm
    have hcase : m = s.next ∧ fb = fa ∨ m ∈ (s.file fb).tagMembers := by
      by_cases hb : fb = fa
      · subst hb
        rw [withMember_file, Function.update_self] at hm
        rcases List.mem_append.mp hm with hm | hm
        · exact Or.inr hm
        · exact Or.inl ⟨List.mem_singleton.mp hm, rfl⟩
      · rw [withMember_file, Function.update_of_ne hb] at hm
        exact Or.inr hm
    rcases hcase with ⟨rfl, rfl⟩ | hm
    · simp
    · have hm' : m ∈ s.members za := mem_membersOf.mpr ⟨fb, hfb, hm⟩
      rw [withMember_member, Function.update_of_ne (hold m hm')]
      exact h.memberFile fb hfb m hm
  · intro fb hfb e' he'
    rw [(withMember_file_other fb).2.2.2.2] at he'
    rw [(withMember_file_other fb).2.2.1, withMember_entry, Function.update_of_ne (by decide)]
    exact h.keyStr fb hfb e' he'
  · exact (hlive b).mpr (((howns b).mp hb).imp_left (h.ownedLive b))
  · exact ((howns b).mp hb).imp_right fun he => by rw [he]
  · rw [withMember_entry]
    cases k with
    | key => rw [Function.update_of_ne (by decide)]
    | tag =>
      rw [Function.update_self, Function.update_of_ne fun ha : a = e => ho (ha ▸ he)]

/-- The tag link fills the queue of its entry. -/
theorem withMember_tight (h : ZoneInv N s za) (hf : (s.zone za).files = pre ++ [fa])
    (ht : ∀ a ∈ s.entryAddrs za .tag, a ≠ e → ∃ x, (x, a) ∈ s.links za .tag) :
    Tight (withMember e fa s) za .tag := by
  intro a ha
  rw [withMember_links_tag h hf]
  by_cases hae : a = e
  · subst hae
    exact ⟨s.next, by simp⟩
  · obtain ⟨x, hx⟩ := ht a ha hae
    exact ⟨x, List.mem_append_left _ hx⟩

theorem withMember_tight_key (ht : Tight s za .key) : Tight (withMember e fa s) za .key := by
  intro a ha
  rw [withMember_links_key]
  exact ht a ha

end LinkMember

end CachePilot
