import CachePilot.Store.PathIndex

/-!
# The invariant of a zone

`ZoneInv` ties the three indexes of one zone together: the path tree and the
file queue list the same blocks, and the queues of the key entries and of the
tag entries are exactly the links that the file blocks and the member blocks
record. `Within` says what work inside one zone may change, so that every other
zone keeps its invariant.
-/

namespace CachePilot
open NgxString SearchTree

/-! ## The links that the blocks record -/

/-- The key links of queued files. -/
def keyLinksOf (file : Addr → ShmFile) (files : List Addr) : Links :=
  files.filterMap fun fa => (file fa).keyEntry.map fun e => (fa, e)

/-- The member blocks of queued files. -/
def membersOf (file : Addr → ShmFile) (files : List Addr) : List Addr :=
  files.flatMap fun fa => (file fa).tagMembers

/-- The tag links of member blocks. -/
def tagLinksOf (member : Addr → ShmTagMember) (members : List Addr) : Links :=
  members.map fun m => (m, (member m).tagEntry)

section Links

variable {file file' : Addr → ShmFile} {files : List Addr} {fa : Addr}

theorem mem_keyLinksOf {l : Addr × Addr} :
    l ∈ keyLinksOf file files ↔ l.1 ∈ files ∧ (file l.1).keyEntry = some l.2 := by
  obtain ⟨x, e⟩ := l
  unfold keyLinksOf
  rw [List.mem_filterMap]
  constructor
  · rintro ⟨fb, hfb, he⟩
    obtain ⟨e', hk, he'⟩ := Option.map_eq_some_iff.mp he
    obtain ⟨rfl, rfl⟩ := Prod.mk.inj he'
    exact ⟨hfb, hk⟩
  · rintro ⟨hx, hk⟩
    exact ⟨x, hx, by rw [hk]; rfl⟩

theorem mem_membersOf {m : Addr} :
    m ∈ membersOf file files ↔ ∃ fa ∈ files, m ∈ (file fa).tagMembers :=
  List.mem_flatMap

theorem keyLinksOf_congr (h : ∀ fb ∈ files, (file' fb).keyEntry = (file fb).keyEntry) :
    keyLinksOf file' files = keyLinksOf file files := by
  unfold keyLinksOf
  exact List.filterMap_congr fun fb hfb => by rw [h fb hfb]

theorem membersOf_congr (h : ∀ fb ∈ files, (file' fb).tagMembers = (file fb).tagMembers) :
    membersOf file' files = membersOf file files := by
  unfold membersOf
  exact List.flatMap_congr fun fb hfb => h fb hfb

theorem keyLinksOf_fst_sublist : ((keyLinksOf file files).map Prod.fst).Sublist files := by
  unfold keyLinksOf
  induction files with
  | nil => simp
  | cons fb files ih =>
    cases hk : (file fb).keyEntry with
    | none => simpa [List.filterMap_cons, hk] using ih.cons fb
    | some e => simpa [List.filterMap_cons, hk] using ih.cons_cons fb

theorem tagLinksOf_fst (member : Addr → ShmTagMember) (members : List Addr) :
    (tagLinksOf member members).map Prod.fst = members := by
  simp [tagLinksOf, Function.comp_def]

/-- Linking the key of the last file appends one link. -/
theorem keyLinksOf_link {pre : List Addr} {e : Addr} (hfa : fa ∉ pre)
    (hk : (file fa).keyEntry = none) :
    keyLinksOf (Function.update file fa { file fa with keyEntry := some e }) (pre ++ [fa]) =
      keyLinksOf file (pre ++ [fa]) ++ [(fa, e)] := by
  have hpre : keyLinksOf (Function.update file fa { file fa with keyEntry := some e }) pre =
      keyLinksOf file pre :=
    keyLinksOf_congr fun fb hfb => by
      rw [Function.update_of_ne (fun he : fb = fa => hfa (he ▸ hfb))]
  have happ : ∀ g : Addr → ShmFile,
      keyLinksOf g (pre ++ [fa]) = keyLinksOf g pre ++ keyLinksOf g [fa] := fun g => by
    unfold keyLinksOf
    rw [List.filterMap_append]
  rw [happ, happ, hpre]
  simp [keyLinksOf, hk]

/-- Clearing the key entry of a file takes its link away. -/
theorem keyLinksOf_unlink :
    keyLinksOf (Function.update file fa { file fa with keyEntry := none }) files =
      unlinked (keyLinksOf file files) fa := by
  unfold keyLinksOf unlinked
  rw [List.filter_filterMap]
  refine List.filterMap_congr fun fb _ => ?_
  by_cases he : fb = fa
  · subst he
    cases (file fb).keyEntry <;> simp [Option.filter_some]
  · rw [Function.update_of_ne he]
    cases (file fb).keyEntry <;> simp [Option.filter_some, he]

/-- A new member of the last file is the last member. -/
theorem membersOf_link {pre : List Addr} {m : Addr} (hfa : fa ∉ pre) :
    membersOf (Function.update file fa
        { file fa with tagMembers := (file fa).tagMembers ++ [m] }) (pre ++ [fa]) =
      membersOf file (pre ++ [fa]) ++ [m] := by
  have hpre : membersOf (Function.update file fa
      { file fa with tagMembers := (file fa).tagMembers ++ [m] }) pre = membersOf file pre :=
    membersOf_congr fun fb hfb => by
      rw [Function.update_of_ne (fun he : fb = fa => hfa (he ▸ hfb))]
  have happ : ∀ g : Addr → ShmFile,
      membersOf g (pre ++ [fa]) = membersOf g pre ++ (g fa).tagMembers := fun g => by
    simp [membersOf]
  rw [happ, happ, hpre, Function.update_self, List.append_assoc]

/-- Unlinking a member from its file takes it out of the members. -/
theorem membersOf_unlink {m : Addr} (hn : files.Nodup) (hm : (membersOf file files).Nodup)
    (hfa : fa ∈ files) (hmem : m ∈ (file fa).tagMembers) :
    membersOf (Function.update file fa
        { file fa with tagMembers := (file fa).tagMembers.erase m }) files =
      (membersOf file files).erase m := by
  induction files with
  | nil => exact absurd hfa List.not_mem_nil
  | cons fb files ih =>
    obtain ⟨hfb, hn'⟩ := List.nodup_cons.mp hn
    have hcons : ∀ g : Addr → ShmFile,
        membersOf g (fb :: files) = (g fb).tagMembers ++ membersOf g files := fun g => rfl
    rw [hcons] at hm
    rw [hcons, hcons]
    rcases List.mem_cons.mp hfa with rfl | hfa
    · have hrest : membersOf (Function.update file fa
          { file fa with tagMembers := (file fa).tagMembers.erase m }) files =
          membersOf file files :=
        membersOf_congr fun fc hfc => by
          rw [Function.update_of_ne (fun he : fc = fa => hfb (he ▸ hfc))]
      rw [hrest, Function.update_self, List.erase_append_left _ hmem]
    · have hne : fb ≠ fa := fun he => hfb (he ▸ hfa)
      have hnot : m ∉ (file fb).tagMembers := fun hmb =>
        (List.disjoint_of_nodup_append hm) hmb (mem_membersOf.mpr ⟨fa, hfa, hmem⟩)
      rw [Function.update_of_ne hne, ih hn' hm.of_append_right hfa,
        List.erase_append_right _ hnot]

/-- A file without links can leave the queue. -/
theorem keyLinksOf_erase (hk : (file fa).keyEntry = none) :
    keyLinksOf file (files.erase fa) = keyLinksOf file files := by
  induction files with
  | nil => rfl
  | cons fb files ih =>
    by_cases he : fb = fa
    · subst he
      rw [List.erase_cons_head]
      simp [keyLinksOf, hk]
    · rw [List.erase_cons_tail (by simpa using he)]
      unfold keyLinksOf at ih ⊢
      rw [List.filterMap_cons, List.filterMap_cons, ih]

theorem membersOf_erase (hm : (file fa).tagMembers = []) :
    membersOf file (files.erase fa) = membersOf file files := by
  induction files with
  | nil => rfl
  | cons fb files ih =>
    by_cases he : fb = fa
    · subst he
      rw [List.erase_cons_head]
      simp [membersOf, hm]
    · rw [List.erase_cons_tail (by simpa using he)]
      unfold membersOf at ih ⊢
      rw [List.flatMap_cons, List.flatMap_cons, ih]

theorem tagLinksOf_unlink {member : Addr → ShmTagMember} {members : List Addr}
    (hn : members.Nodup) (m : Addr) :
    tagLinksOf member (members.erase m) = unlinked (tagLinksOf member members) m := by
  unfold tagLinksOf unlinked
  rw [hn.erase_eq_filter, List.filter_map]
  congr 1
  exact List.filter_congr fun x _ => by by_cases hx : x = m <;> simp [hx]

end Links

/-! ## Ownership -/

namespace Shm

/-- The member blocks of a zone. -/
def members (s : Shm) (za : Addr) : List Addr := membersOf s.file (s.zone za).files

/-- The links of a zone in one of its two indexes. -/
def links (s : Shm) (za : Addr) : EntryKind → Links
  | .key => keyLinksOf s.file (s.zone za).files
  | .tag => tagLinksOf s.member (s.members za)

/-- The entry blocks in an index tree of a zone. -/
def entryAddrs (s : Shm) (za : Addr) (kind : EntryKind) : List Addr :=
  (inorder ((s.zone za).index kind)).map RbNode.addr

/-- The blocks that a zone struct leads to. -/
def Owns (s : Shm) (za : Addr) : Block → Prop
  | ⟨.zone, _⟩ => False
  | ⟨.file, a⟩ => a ∈ (s.zone za).files
  | ⟨.entry kind, a⟩ => a ∈ s.entryAddrs za kind
  | ⟨.tagMember, a⟩ => a ∈ s.members za

/-- The pool never hands out or takes back a block twice. -/
structure Pool (s : Shm) : Prop where
  fresh : ∀ b ∈ s.allocated, b.addr < s.next
  freedAllocated : ∀ b ∈ s.freed, b ∈ s.allocated
  freedNodup : s.freed.Nodup

theorem Pool.live_lt {s : Shm} (h : s.Pool) {b : Block} (hb : s.Live b) : b.addr < s.next :=
  h.fresh b hb.1

theorem Pool.takeBlock {s : Shm} (h : s.Pool) (kind : BlockKind) : (s.takeBlock kind).Pool where
  fresh b hb := by
    rcases Multiset.mem_cons.mp hb with rfl | hb
    · exact Nat.lt_succ_self _
    · exact Nat.lt_succ_of_lt (h.fresh b hb)
  freedAllocated b hb := Multiset.mem_cons_of_mem (h.freedAllocated b hb)
  freedNodup := h.freedNodup

theorem Pool.live_takeBlock {s : Shm} (h : s.Pool) (kind : BlockKind) (b : Block) :
    (s.takeBlock kind).Live b ↔ s.Live b ∨ b = ⟨kind, s.next⟩ := by
  unfold Live
  rw [takeBlock_allocated, takeBlock_freed, Multiset.mem_cons]
  constructor
  · rintro ⟨rfl | hb, hf⟩
    · exact Or.inr rfl
    · exact Or.inl ⟨hb, hf⟩
  · rintro (⟨hb, hf⟩ | rfl)
    · exact ⟨Or.inr hb, hf⟩
    · exact ⟨Or.inl rfl, fun hf => absurd (h.fresh _ (h.freedAllocated _ hf)) (Nat.lt_irrefl _)⟩

theorem Pool.freeBlock {s : Shm} (h : s.Pool) {kind : BlockKind} {a : Addr}
    (hb : s.Live ⟨kind, a⟩) : (s.freeBlock kind a).Pool where
  fresh := h.fresh
  freedAllocated b hf := by
    rcases Multiset.mem_cons.mp hf with rfl | hf
    · exact hb.1
    · exact h.freedAllocated b hf
  freedNodup := Multiset.nodup_cons.mpr ⟨hb.2, h.freedNodup⟩

theorem live_freeBlock (s : Shm) (kind : BlockKind) (a : Addr) (b : Block) :
    (s.freeBlock kind a).Live b ↔ s.Live b ∧ b ≠ ⟨kind, a⟩ := by
  unfold Live
  rw [freeBlock_allocated, freeBlock_freed, Multiset.mem_cons, not_or]
  constructor
  · rintro ⟨hb, hne, hf⟩
    exact ⟨⟨hb, hf⟩, hne⟩
  · rintro ⟨⟨hb, hf⟩, hne⟩
    exact ⟨hb, hne, hf⟩

end Shm

/-- The invariant of the zone at `za`. It holds between any two of the linking
and unlinking steps of an operation, so it allows a file whose links are not all
made yet and an entry with an empty queue. -/
structure ZoneInv (N : Nginx) (s : Shm) (za : Addr) : Prop where
  path : PathInv N (s.zone za).pathIndex (s.zone za).files s.file
  index : ∀ kind, IndexInv N ((s.zone za).index kind) (s.entry kind) (s.links za kind)
  membersNodup : (s.members za).Nodup
  memberFile : ∀ fa ∈ (s.zone za).files, ∀ m ∈ (s.file fa).tagMembers, (s.member m).file = fa
  keyStr : ∀ fa ∈ (s.zone za).files, ∀ e, (s.file fa).keyEntry = some e →
    (s.entry .key e).str = (s.file fa).key
  pool : s.Pool
  ownedLive : ∀ b, s.Owns za b → s.Live b

/-- `s'` comes from `s` by work inside the zone at `za`: the zone keeps its
blocks apart from fresh ones, blocks that it does not own are untouched, and the
pool changed by exactly the change of what the zone owns. -/
structure Within (s s' : Shm) (za : Addr) : Prop where
  next : s.next ≤ s'.next
  zones : s'.zones = s.zones
  name : (s'.zone za).name = (s.zone za).name
  zone : ∀ zb ≠ za, s'.zone zb = s.zone zb
  owns : ∀ b, s'.Owns za b → s.Owns za b ∨ s.next ≤ b.addr
  file : ∀ a < s.next, ¬ s.Owns za ⟨.file, a⟩ → s'.file a = s.file a
  entry : ∀ kind a, a < s.next → ¬ s.Owns za ⟨.entry kind, a⟩ → s'.entry kind a = s.entry kind a
  member : ∀ a < s.next, ¬ s.Owns za ⟨.tagMember, a⟩ → s'.member a = s.member a
  live : ∀ b, s'.Live b ↔ (s.Live b ∧ ¬ s.Owns za b) ∨ s'.Owns za b

theorem ZoneInv.files_nodup {N : Nginx} {s : Shm} {za : Addr} (h : ZoneInv N s za) :
    (s.zone za).files.Nodup := h.path.files_nodup

theorem ZoneInv.owns_lt {N : Nginx} {s : Shm} {za : Addr} (h : ZoneInv N s za) {b : Block}
    (hb : s.Owns za b) : b.addr < s.next := h.pool.live_lt (h.ownedLive b hb)

theorem ZoneInv.links_nodup {N : Nginx} {s : Shm} {za : Addr} (h : ZoneInv N s za)
    (kind : EntryKind) : ((s.links za kind).map Prod.fst).Nodup := by
  cases kind with
  | key => exact List.Nodup.sublist keyLinksOf_fst_sublist h.files_nodup
  | tag =>
    have he : (s.links za .tag).map Prod.fst = s.members za := tagLinksOf_fst _ _
    rw [he]
    exact h.membersNodup

theorem Within.refl (N : Nginx) {s : Shm} {za : Addr} (h : ZoneInv N s za) : Within s s za where
  next := Nat.le_refl _
  zones := rfl
  name := rfl
  zone _ _ := rfl
  owns _ hb := Or.inl hb
  file _ _ _ := rfl
  entry _ _ _ _ := rfl
  member _ _ _ := rfl
  live b := by
    constructor
    · intro hb
      by_cases ho : s.Owns za b
      · exact Or.inr ho
      · exact Or.inl ⟨hb, ho⟩
    · rintro (⟨hb, _⟩ | ho)
      · exact hb
      · exact h.ownedLive b ho

theorem Within.trans {s s' s'' : Shm} {za : Addr} (hs : s.Pool) (h : Within s s' za)
    (h' : Within s' s'' za) : Within s s'' za where
  next := h.next.trans h'.next
  zones := h'.zones.trans h.zones
  name := h'.name.trans h.name
  zone zb hne := (h'.zone zb hne).trans (h.zone zb hne)
  owns b hb := by
    rcases h'.owns b hb with ho | hn
    · exact h.owns b ho
    · exact Or.inr (h.next.trans hn)
  file a ha ho := by
    have ho' : ¬ s'.Owns za ⟨.file, a⟩ := fun h0 =>
      (h.owns _ h0).elim ho fun hn => absurd ha (Nat.not_lt.mpr hn)
    rw [h'.file a (Nat.lt_of_lt_of_le ha h.next) ho', h.file a ha ho]
  entry kind a ha ho := by
    have ho' : ¬ s'.Owns za ⟨.entry kind, a⟩ := fun h0 =>
      (h.owns _ h0).elim ho fun hn => absurd ha (Nat.not_lt.mpr hn)
    rw [h'.entry kind a (Nat.lt_of_lt_of_le ha h.next) ho', h.entry kind a ha ho]
  member a ha ho := by
    have ho' : ¬ s'.Owns za ⟨.tagMember, a⟩ := fun h0 =>
      (h.owns _ h0).elim ho fun hn => absurd ha (Nat.not_lt.mpr hn)
    rw [h'.member a (Nat.lt_of_lt_of_le ha h.next) ho', h.member a ha ho]
  live b := by
    rw [h'.live b, h.live b]
    constructor
    · rintro (⟨⟨hb, ho⟩ | ho, hn⟩ | ho)
      · exact Or.inl ⟨hb, ho⟩
      · exact absurd ho hn
      · exact Or.inr ho
    · rintro (⟨hb, ho⟩ | ho)
      · refine Or.inl ⟨Or.inl ⟨hb, ho⟩, fun h0 => ?_⟩
        exact (h.owns b h0).elim ho fun hn => absurd (hs.live_lt hb) (Nat.not_lt.mpr hn)
      · exact Or.inr ho

/-! ## Work on one file -/

/-- What a file block says about its file: the strings copied into `data`. -/
structure Record where
  path : Bytes
  key : Bytes
  tags : List Bytes
deriving DecidableEq, Repr

def ShmFile.record (f : ShmFile) : Record := ⟨f.path, f.key, f.tags⟩

/-- `s'` comes from `s` by work on the file `fa`: every other file block and
every member block stays as it is, and no string changes. -/
structure Touches (s s' : Shm) (fa : Addr) : Prop where
  next : s.next ≤ s'.next
  file : ∀ a < s.next, a ≠ fa → s'.file a = s.file a
  record : ∀ a < s.next, (s'.file a).record = (s.file a).record
  member : ∀ a < s.next, s'.member a = s.member a
  str : ∀ kind a, a < s.next → (s'.entry kind a).str = (s.entry kind a).str

theorem Touches.refl (s : Shm) (fa : Addr) : Touches s s fa where
  next := Nat.le_refl _
  file _ _ _ := rfl
  record _ _ := rfl
  member _ _ := rfl
  str _ _ _ := rfl

theorem Touches.trans {s s' s'' : Shm} {fa : Addr} (h : Touches s s' fa) (h' : Touches s' s'' fa) :
    Touches s s'' fa where
  next := h.next.trans h'.next
  file a ha hne := (h'.file a (Nat.lt_of_lt_of_le ha h.next) hne).trans (h.file a ha hne)
  record a ha := (h'.record a (Nat.lt_of_lt_of_le ha h.next)).trans (h.record a ha)
  member a ha := (h'.member a (Nat.lt_of_lt_of_le ha h.next)).trans (h.member a ha)
  str kind a ha := (h'.str kind a (Nat.lt_of_lt_of_le ha h.next)).trans (h.str kind a ha)

/-- Work on the file `fa` inside the zone at `za` that keeps its invariant. -/
structure Keeps (N : Nginx) (s s' : Shm) (za fa : Addr) : Prop where
  inv : ZoneInv N s' za
  within : Within s s' za
  touches : Touches s s' fa

theorem Keeps.refl {N : Nginx} {s : Shm} {za fa : Addr} (h : ZoneInv N s za) :
    Keeps N s s za fa := ⟨h, Within.refl N h, Touches.refl s fa⟩

theorem Keeps.trans {N : Nginx} {s s' s'' : Shm} {za fa : Addr} (hs : s.Pool)
    (h : Keeps N s s' za fa) (h' : Keeps N s' s'' za fa) : Keeps N s s'' za fa :=
  ⟨h'.inv, h.within.trans hs h'.within, h.touches.trans h'.touches⟩

/-- Every entry in an index tree of the zone has something queued. -/
def Tight (s : Shm) (za : Addr) (kind : EntryKind) : Prop :=
  ∀ e ∈ s.entryAddrs za kind, ∃ x, (x, e) ∈ s.links za kind

/-- Work on the file `fa` that leaves no entry empty that was not empty before. -/
structure Tidy (N : Nginx) (s s' : Shm) (za fa : Addr) : Prop extends Keeps N s s' za fa where
  tight : ∀ kind, Tight s za kind → Tight s' za kind

theorem Tidy.refl {N : Nginx} {s : Shm} {za fa : Addr} (h : ZoneInv N s za) :
    Tidy N s s za fa := ⟨Keeps.refl h, fun _ ht => ht⟩

theorem Tidy.trans {N : Nginx} {s s' s'' : Shm} {za fa : Addr} (hs : s.Pool)
    (h : Tidy N s s' za fa) (h' : Tidy N s' s'' za fa) : Tidy N s s'' za fa :=
  ⟨h.toKeeps.trans hs h'.toKeeps, fun kind ht => h'.tight kind (h.tight kind ht)⟩

end CachePilot
