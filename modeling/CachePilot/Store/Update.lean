import CachePilot.Store.Unlink

/-!
# Updates of one zone

What an upsert and a delete do to the zone they work on, said with the records
of its files: the queue of file blocks read as a list of path, key and tags.
Between two calls every file of the zone is linked (`ZoneOk`); inside a call the
last file of the queue is under construction.
-/

namespace CachePilot
open NgxString SearchTree

variable {N : Nginx} {s s' s1 : Shm} {za fa : Addr}

/-! ## Linked files -/

/-- The tags that the member queue of a file leads to. -/
def tagStrs (s : Shm) (fa : Addr) : List Bytes :=
  (s.file fa).tagMembers.map fun m => (s.entry .tag (s.member m).tagEntry).str

/-- The file is queued under its key, unless that is empty, and under its tags. -/
structure Linked (s : Shm) (fa : Addr) : Prop where
  key : (s.file fa).keyEntry = none ↔ (s.file fa).key = []
  tags : tagStrs s fa = (s.file fa).tags

theorem ZoneInv.members_lt (h : ZoneInv N s za) (hfa : fa ∈ (s.zone za).files) {m : Addr}
    (hm : m ∈ (s.file fa).tagMembers) : m < s.next ∧ (s.member m).tagEntry < s.next := by
  have hin : m ∈ s.members za := mem_membersOf.mpr ⟨fa, hfa, hm⟩
  have he : (s.member m).tagEntry ∈ s.entryAddrs za .tag :=
    (h.index .tag).linked (m, _) (List.mem_map.mpr ⟨m, hin, rfl⟩)
  exact ⟨h.owns_lt (b := ⟨.tagMember, m⟩) hin, h.owns_lt (b := ⟨.entry .tag, _⟩) he⟩

/-- A member queue leads to the same tags as long as nobody works on it. -/
theorem ZoneInv.tagStr_eq (h : ZoneInv N s za) {fb : Addr} (ht : Touches s s' fb)
    (hfa : fa ∈ (s.zone za).files) {m : Addr} (hm : m ∈ (s.file fa).tagMembers) :
    (s'.entry .tag (s'.member m).tagEntry).str = (s.entry .tag (s.member m).tagEntry).str := by
  obtain ⟨hm1, hm2⟩ := h.members_lt hfa hm
  rw [ht.member m hm1, ht.str .tag _ hm2]

/-- Work on one file leaves the other files linked. -/
theorem Linked.of_touches (h : ZoneInv N s za) {fb : Addr} (ht : Touches s s' fb)
    (hfa : fa ∈ (s.zone za).files) (hne : fa ≠ fb) (hl : Linked s fa) : Linked s' fa := by
  have hfile : s'.file fa = s.file fa :=
    ht.file fa (h.owns_lt (b := ⟨.file, fa⟩) hfa) hne
  refine ⟨by rw [hfile]; exact hl.key, ?_⟩
  rw [hfile, ← hl.tags]
  unfold tagStrs
  rw [hfile]
  exact List.map_congr_left fun m hm => h.tagStr_eq ht hfa hm

/-- The invariant of a zone between two calls. -/
structure ZoneOk (N : Nginx) (s : Shm) (za : Addr) : Prop extends ZoneInv N s za where
  linked : ∀ fa ∈ (s.zone za).files, Linked s fa

/-- What the files of the zone say, in the order of the file queue. -/
def records (s : Shm) (za : Addr) : List Record :=
  (s.zone za).files.map fun fa => (s.file fa).record

/-- The records of all other paths. -/
def otherRecords (rs : List Record) (path : Bytes) : List Record :=
  rs.filter fun r => r.path ≠ path

theorem records_of_touches (h : ZoneInv N s za) {fb : Addr} (ht : Touches s s' fb) {l : List Addr}
    (hl : ∀ fa ∈ l, fa ∈ (s.zone za).files) :
    l.map (fun fa => (s'.file fa).record) = l.map fun fa => (s.file fa).record :=
  List.map_congr_left fun fa hfa => ht.record fa (h.owns_lt (b := ⟨.file, fa⟩) (hl fa hfa))

/-! ## Removal -/

/-- `remove_file_locked` drops the record of the file and nothing else. -/
theorem removeFileLocked_ok (h : ZoneInv N s za) (hfa : fa ∈ (s.zone za).files)
    (hl : ∀ fb ∈ (s.zone za).files, fb ≠ fa → Linked s fb) :
    ZoneOk N (removeFileLocked N za fa s) za ∧
      records (removeFileLocked N za fa s) za = otherRecords (records s za) (s.file fa).path := by
  obtain ⟨hr, hfiles⟩ := removeFileLocked_spec h hfa
  refine ⟨⟨hr.inv, fun fb hfb => ?_⟩, ?_⟩
  · rw [hfiles, h.files_nodup.mem_erase_iff] at hfb
    exact (hl fb hfb.2 hfb.1).of_touches h hr.touches hfb.2 hfb.1
  · unfold records otherRecords
    rw [hfiles, h.files_nodup.erase_eq_filter, List.filter_map,
      records_of_touches h hr.touches fun fb hfb => (List.mem_filter.mp hfb).1]
    refine congrArg _ (List.filter_congr fun fb hfb => ?_)
    by_cases hb : fb = fa
    · simp [hb, ShmFile.record]
    · have hp : (s.file fb).path ≠ (s.file fa).path := fun hp => hb (h.path.file_unique hfb hfa hp)
      simp [hb, hp, ShmFile.record]

/-! ## Key and tag entries -/

/-- The zone has an entry for the string. -/
def HasEntry (s : Shm) (za : Addr) (kind : EntryKind) (str : Bytes) : Prop :=
  ∃ n ∈ inorder ((s.zone za).index kind), n.str = str

theorem ZoneInv.hasEntry_iff (h : ZoneInv N s za) {kind : EntryKind} {str : Bytes} :
    HasEntry s za kind str ↔ ∃ e ∈ s.entryAddrs za kind, (s.entry kind e).str = str := by
  unfold HasEntry Shm.entryAddrs
  constructor
  · rintro ⟨n, hn, hs⟩
    exact ⟨n.addr, List.mem_map_of_mem hn, by rw [(h.index kind).block n hn]; exact hs⟩
  · rintro ⟨e, he, hs⟩
    obtain ⟨n, hn, rfl⟩ := List.mem_map.mp he
    refine ⟨n, hn, ?_⟩
    rw [(h.index kind).block n hn] at hs
    exact hs

variable (fa) in
theorem countFailure_spec (h : ZoneInv N s za) : Tidy N s s.countFailure za fa where
  inv :=
    { path := h.path
      index := h.index
      membersNodup := h.membersNodup
      memberFile := h.memberFile
      keyStr := h.keyStr
      pool := h.pool.of_eq rfl rfl rfl
      ownedLive := h.ownedLive }
  within :=
    { next := Nat.le_refl _
      zones := rfl
      name := rfl
      zone := fun _ _ => rfl
      owns := fun _ hb => Or.inl hb
      file := fun _ _ _ => rfl
      entry := fun _ _ _ _ => rfl
      member := fun _ _ _ => rfl
      live := (Within.refl N h).live }
  touches :=
    { next := Nat.le_refl _
      file := fun _ _ _ => rfl
      record := fun _ _ => rfl
      member := fun _ _ => rfl
      str := fun _ _ _ => rfl }
  tight _ ht := ht

/-- A get-or-create finds the entry of the string, makes it, or runs out of
memory. -/
theorem getEntryLocked_cases (h : ZoneInv N s za) (ok : Bool) (kind : EntryKind) (str : Bytes) :
    (∃ e ∈ s.entryAddrs za kind, (s.entry kind e).str = str ∧
      getEntryLocked N ok kind za str true s = (some e, s)) ∨
    ¬ HasEntry s za kind str ∧ ok = true ∧
      getEntryLocked N ok kind za str true s = (some s.next, withEntry N kind za str s) ∨
    ¬ HasEntry s za kind str ∧ ok = false ∧
      getEntryLocked N ok kind za str true s = (none, s.countFailure) := by
  unfold getEntryLocked lookupEntry
  cases hl : lookupGeneric (N.crc32Short str) str ((s.zone za).index kind) with
  | some n =>
    obtain ⟨hn, hs⟩ := (h.index kind).lookup_some.mp hl
    refine Or.inl ⟨n.addr, List.mem_map_of_mem hn, ?_, rfl⟩
    rw [(h.index kind).block n hn]
    exact hs
  | none =>
    have hnone : ¬ HasEntry s za kind str := by
      rintro ⟨n, hn, hs⟩
      exact (h.index kind).lookup_none.mp hl n hn hs
    cases ok with
    | true => exact Or.inr (Or.inl ⟨hnone, rfl, rfl⟩)
    | false => exact Or.inr (Or.inr ⟨hnone, rfl, rfl⟩)

theorem not_hasEntry {kind : EntryKind} {str : Bytes} (hn : ¬ HasEntry s za kind str) :
    ∀ n ∈ inorder ((s.zone za).index kind), n.str ≠ str := fun n hm hs => hn ⟨n, hm, hs⟩

/-! ## The key link -/

variable {pre : List Addr}

/-- `link_exact_key_locked` on the last file of the zone. -/
theorem linkExactKeyLocked_spec (h : ZoneInv N s za) (hf : (s.zone za).files = pre ++ [fa])
    (hk : (s.file fa).keyEntry = none) (ok : Bool) :
    let r := linkExactKeyLocked N ok za fa s
    Tidy N s r.2 za fa ∧ (r.2.zone za).files = (s.zone za).files ∧
      (r.2.file fa).tagMembers = (s.file fa).tagMembers ∧
      (r.1 = .ok ∧ ((r.2.file fa).keyEntry = none ↔ (s.file fa).key = []) ∧
          (∀ t, HasEntry r.2 za .tag t ↔ HasEntry s za .tag t) ∧
          ((s.file fa).key = [] ∨ HasEntry s za .key (s.file fa).key ∨ ok = true) ∨
        r.1 = .error) := by
  unfold linkExactKeyLocked getKeyEntryLocked
  simp only
  by_cases hempty : (s.file fa).key.length = 0
  · rw [if_pos hempty]
    have hnil := List.eq_nil_of_length_eq_zero hempty
    refine ⟨Tidy.refl h, rfl, rfl, Or.inl ⟨rfl, ?_, fun _ => Iff.rfl, Or.inl hnil⟩⟩
    rw [hk]
    exact iff_of_true rfl hnil
  · rw [if_neg hempty]
    have hne : (s.file fa).key ≠ [] := fun h0 => hempty (by rw [h0]; rfl)
    rcases getEntryLocked_cases h ok .key (s.file fa).key with
      ⟨e, he, hs, hg⟩ | ⟨hn, hok, hg⟩ | ⟨hn, hok, hg⟩
    · rw [hg]
      have hw := withKey_spec h hf hk he hs
      refine ⟨⟨hw, fun k ht => ?_⟩, rfl, (withKey_file_other fa).2.2.2.2,
        Or.inl ⟨rfl, iff_of_false ?_ hne, fun _ => Iff.rfl,
          Or.inr (Or.inl (h.hasEntry_iff.mpr ⟨e, he, hs⟩))⟩⟩
      · cases k with
        | key => exact withKey_tight h hf hk fun a ha _ => ht a ha
        | tag => exact withKey_tight_tag ht
      · simp [enqueue]
    · rw [hg]
      have hw := withEntry_spec h (not_hasEntry hn) fa
      have hmem : s.next ∈ (withEntry N .key za (s.file fa).key s).entryAddrs za .key :=
        withEntry_entryAddrs.mpr (Or.inr ⟨rfl, rfl⟩)
      have hf' : ((withEntry N .key za (s.file fa).key s).zone za).files = pre ++ [fa] := by
        rw [withEntry_zone]
        exact hf
      have hw' := withKey_spec (e := s.next) hw.inv hf' hk hmem (by simp)
      refine ⟨⟨hw.trans h.pool hw', fun k ht => ?_⟩, ?_, (withKey_file_other fa).2.2.2.2,
        Or.inl ⟨rfl, iff_of_false ?_ hne, fun t => ?_, Or.inr (Or.inr hok)⟩⟩
      · cases k with
        | key =>
          exact withKey_tight hw.inv hf' hk fun a ha hae =>
            withEntry_tight ht ha fun h0 => hae h0.2
        | tag =>
          exact withKey_tight_tag fun a ha => withEntry_tight ht ha fun h0 => nomatch h0.1
      · exact hf'.trans hf.symm
      · simp [enqueue]
      · show HasEntry (withKey s.next fa (withEntry N .key za (s.file fa).key s)) za .tag t ↔ _
        simp [HasEntry]
    · rw [hg]
      exact ⟨countFailure_spec fa h, rfl, rfl, Or.inr rfl⟩

/-! ## The tag links -/

/-- No turn of the tag loop from number `i` on makes the entry of a tag and then
fails to allocate the member that would keep it; `carried` tells the tags that
have an entry. A turn is reached when the turns before it succeed, and its member
is allocated when it finds or makes its entry. -/
def NoOrphan (alloc : AllocSite → Bool) : (Bytes → Prop) → Nat → List Bytes → Prop
  | _, _, [] => True
  | carried, i, tag :: tags =>
    carried tag ∨ alloc (.tagEntry i) = true →
      if alloc (.tagMember i) then NoOrphan alloc (fun t => t = tag ∨ carried t) (i + 1) tags
      else carried tag

theorem tagStrs_withMember (h : ZoneInv N s za) (hf : (s.zone za).files = pre ++ [fa]) {e : Addr}
    (he : e ∈ s.entryAddrs za .tag) :
    tagStrs (withMember e fa s) fa = tagStrs s fa ++ [(s.entry .tag e).str] := by
  have hw := withMember_spec h hf he
  have hfa : fa ∈ (s.zone za).files := by rw [hf]; simp
  unfold tagStrs
  rw [withMember_file, Function.update_self, List.map_append, List.map_singleton,
    List.map_congr_left fun m hm => h.tagStr_eq hw.touches hfa hm, withMember_member,
    Function.update_self, withMember_str]

theorem tagStrs_withEntry (h : ZoneInv N s za) (hfa : fa ∈ (s.zone za).files) {str : Bytes}
    (hn : ¬ HasEntry s za .tag str) :
    tagStrs (withEntry N .tag za str s) fa = tagStrs s fa :=
  List.map_congr_left fun _ hm =>
    h.tagStr_eq (withEntry_spec h (not_hasEntry hn) fa).touches hfa hm

theorem hasEntry_withEntry {kind : EntryKind} {str t : Bytes} :
    HasEntry (withEntry N kind za str s) za kind t ↔ t = str ∨ HasEntry s za kind t := by
  unfold HasEntry
  rw [withEntry_zone]
  simp only [Function.update_self, N.mem_rbtreeInsert]
  constructor
  · rintro ⟨n, rfl | hn, hs⟩
    · exact Or.inl hs.symm
    · exact Or.inr ⟨n, hn, hs⟩
  · rintro (rfl | ⟨n, hn, hs⟩)
    · exact ⟨_, Or.inl rfl, rfl⟩
    · exact ⟨n, Or.inr hn, hs⟩

/-- What the tag loop leaves behind when it is started on the last file of the
zone with the tags `tags` still to link. -/
structure TagLoop (N : Nginx) (alloc : AllocSite → Bool) (za fa : Addr) (i : Nat) (tags : List Bytes)
    (s : Shm) (r : NgxRc × Shm) : Prop where
  keeps : Keeps N s r.2 za fa
  files : (r.2.zone za).files = (s.zone za).files
  keyEntry : (r.2.file fa).keyEntry = (s.file fa).keyEntry
  result : r.1 = .ok ∧ tagStrs r.2 fa = tagStrs s fa ++ tags ∨ r.1 = .error
  tightKey : Tight s za .key → Tight r.2 za .key
  tightTag : Tight s za .tag → NoOrphan alloc (HasEntry s za .tag) i tags → Tight r.2 za .tag

/-- One turn: the member for the found or made entry `e`, then the rest of the
loop. -/
theorem TagLoop.turn {alloc : AllocSite → Bool} {i : Nat} {tag : Bytes} {tags : List Bytes}
    {e : Addr} {s1 : Shm} {r : NgxRc × Shm} (h : ZoneInv N s za)
    (hf : (s.zone za).files = pre ++ [fa]) (h1 : Keeps N s s1 za fa)
    (hfiles : (s1.zone za).files = (s.zone za).files) (hfile : s1.file = s.file)
    (he : e ∈ s1.entryAddrs za .tag) (hs : (s1.entry .tag e).str = tag)
    (hstrs : tagStrs s1 fa = tagStrs s fa)
    (hentry : ∀ t, HasEntry s1 za .tag t ↔ t = tag ∨ HasEntry s za .tag t)
    (hkey : Tight s za .key → Tight s1 za .key)
    (htag : Tight s za .tag → ∀ a ∈ s1.entryAddrs za .tag, a ≠ e → ∃ x, (x, a) ∈ s1.links za .tag)
    (hreach : HasEntry s za .tag tag ∨ alloc (.tagEntry i) = true)
    (hmember : alloc (.tagMember i) = true)
    (hr : TagLoop N alloc za fa (i + 1) tags (withMember e fa s1) r) :
    TagLoop N alloc za fa i (tag :: tags) s r := by
  have hf1 : (s1.zone za).files = pre ++ [fa] := hfiles.trans hf
  have hw := withMember_spec h1.inv hf1 he
  have hresult : r.1 = .ok ∧ tagStrs r.2 fa = tagStrs s fa ++ tag :: tags ∨ r.1 = .error := by
    refine hr.result.imp_left fun hok => ⟨hok.1, ?_⟩
    rw [hok.2, tagStrs_withMember h1.inv hf1 he, hs, hstrs, List.append_assoc]
    rfl
  refine ⟨(h1.trans h.pool hw).trans h.pool hr.keeps, hr.files.trans hfiles, hr.keyEntry.trans ?_,
    hresult, fun ht => hr.tightKey (withMember_tight_key (hkey ht)), fun ht hno => ?_⟩
  · rw [(withMember_file_other fa).2.2.2.2, hfile]
  · refine hr.tightTag (withMember_tight h1.inv hf1 (htag ht)) ?_
    have hno' := hno hreach
    rw [if_pos hmember] at hno'
    have hsame : HasEntry (withMember e fa s1) za .tag =
        fun t => t = tag ∨ HasEntry s za .tag t := funext fun t => propext (hentry t)
    rw [hsame]
    exact hno'

/-- `link_tags_locked` on the last file of the zone. -/
theorem linkTagsLocked_spec (alloc : AllocSite → Bool) (tags : List Bytes) (i : Nat)
    (h : ZoneInv N s za) (hf : (s.zone za).files = pre ++ [fa]) :
    TagLoop N alloc za fa i tags s (linkTagsLocked N alloc za fa i tags s) := by
  induction tags generalizing i s with
  | nil =>
    exact ⟨Keeps.refl h, rfl, rfl, Or.inl ⟨rfl, (List.append_nil _).symm⟩, id, fun ht _ => ht⟩
  | cons tag tags ih =>
    have hfa : fa ∈ (s.zone za).files := by rw [hf]; simp
    unfold linkTagsLocked getTagEntryLocked
    rcases getEntryLocked_cases h (alloc (.tagEntry i)) .tag tag with
      ⟨e, he, hs, hg⟩ | ⟨hn, hok, hg⟩ | ⟨hn, hok, hg⟩
    · rw [hg]
      have hhas : HasEntry s za .tag tag := h.hasEntry_iff.mpr ⟨e, he, hs⟩
      cases hm : alloc (.tagMember i) with
      | true =>
        refine TagLoop.turn h hf (Keeps.refl h) rfl rfl he hs rfl (fun t => ?_) id
          (fun ht a ha _ => ht a ha) (Or.inl hhas) hm
          (ih (i + 1) (withMember_spec h hf he).inv hf)
        exact ⟨Or.inr, fun h0 => h0.elim (fun he => he ▸ hhas) id⟩
      | false =>
        have hc := countFailure_spec fa h
        exact ⟨hc.toKeeps, rfl, rfl, Or.inr rfl, hc.tight .key, fun ht _ => hc.tight .tag ht⟩
    · rw [hg]
      have hw := withEntry_spec h (not_hasEntry hn) fa
      have hfiles : ((withEntry N .tag za tag s).zone za).files = (s.zone za).files := by
        rw [withEntry_zone]
      have he : s.next ∈ (withEntry N .tag za tag s).entryAddrs za .tag :=
        withEntry_entryAddrs.mpr (Or.inr ⟨rfl, rfl⟩)
      have hkey : Tight s za .key → Tight (withEntry N .tag za tag s) za .key := fun ht a ha =>
        withEntry_tight ht ha fun h0 => nomatch h0.1
      cases hm : alloc (.tagMember i) with
      | true =>
        exact TagLoop.turn h hf hw hfiles rfl he (by simp) (tagStrs_withEntry h hfa hn)
          (fun t => hasEntry_withEntry) hkey
          (fun ht a ha hae => withEntry_tight ht ha fun h0 => hae h0.2) (Or.inr hok) hm
          (ih (i + 1) (withMember_spec hw.inv (hfiles.trans hf) he).inv (hfiles.trans hf))
      | false =>
        have hc := countFailure_spec fa hw.inv
        refine ⟨hw.trans h.pool hc.toKeeps, hfiles, rfl, Or.inr rfl,
          fun ht => hc.tight .key (hkey ht), fun _ hno => ?_⟩
        -- the new entry would stay without a member
        have hcarried := hno (Or.inr hok)
        rw [hm] at hcarried
        exact absurd hcarried hn
    · rw [hg]
      have hc := countFailure_spec fa h
      exact ⟨hc.toKeeps, rfl, rfl, Or.inr rfl, hc.tight .key, fun ht _ => hc.tight .tag ht⟩

/-! ## The upsert -/

variable (fa) in
/-- Other times or another state of completeness do not change a zone. -/
theorem setZone_spec (h : ZoneInv N s za) {z : ShmZone} (hname : z.name = (s.zone za).name)
    (hfiles : z.files = (s.zone za).files) (hpath : z.pathIndex = (s.zone za).pathIndex)
    (hindex : z.index = (s.zone za).index) : Tidy N s (s.setZone za z) za fa := by
  have hz : (s.setZone za z).zone za = z := by simp
  have hmembers : (s.setZone za z).members za = s.members za := by
    simp only [Shm.members, hz, hfiles]
    rfl
  have hlinks : ∀ k, (s.setZone za z).links za k = s.links za k := by
    intro k
    cases k with
    | key =>
      simp only [Shm.links, hz, hfiles]
      rfl
    | tag =>
      simp only [Shm.links, hmembers]
      rfl
  have howns : ∀ b, (s.setZone za z).Owns za b ↔ s.Owns za b := by
    rintro ⟨k, a⟩
    cases k <;> simp [Shm.Owns, Shm.entryAddrs, hmembers, hfiles, hindex]
  refine ⟨⟨⟨?_, fun k => ?_, ?_, ?_, ?_, h.pool.of_eq rfl rfl rfl, fun b hb => ?_⟩,
    ⟨Nat.le_refl _, rfl, ?_, fun zb hne => ?_, fun b hb => ?_, fun _ _ _ => rfl,
      fun _ _ _ _ => rfl, fun _ _ _ => rfl, fun b => ?_⟩,
    Nat.le_refl _, fun _ _ _ => rfl, fun _ _ => rfl, fun _ _ => rfl, fun _ _ _ => rfl⟩,
    fun k ht e he => ?_⟩
  · rw [hz, hpath, hfiles]
    exact h.path
  · rw [hlinks, hz, hindex]
    exact h.index k
  · rw [hmembers]
    exact h.membersNodup
  · rw [hz, hfiles]
    exact h.memberFile
  · rw [hz, hfiles]
    exact h.keyStr
  · exact h.ownedLive b ((howns b).mp hb)
  · rw [hz, hname]
  · simp [hne]
  · exact Or.inl ((howns b).mp hb)
  · rw [howns]
    exact (Within.refl N h).live b
  · rw [hlinks]
    rw [Shm.entryAddrs, hz, hindex] at he
    exact ht e he

variable (fa) in
theorem touchZoneLocked_spec (h : ZoneInv N s za) (now : Int) :
    Tidy N s (touchZoneLocked now za s) za fa :=
  setZone_spec fa h rfl rfl rfl rfl

/-- `s'` comes from `s` by an update of the zone at `za` that leaves it with the
records `rs`. -/
structure Updates (N : Nginx) (s s' : Shm) (za : Addr) (rs : List Record) : Prop where
  ok : ZoneOk N s' za
  within : Within s s' za
  records : records s' za = rs

/-- Nor do they change what an update left in it. -/
theorem Updates.setZone {rs : List Record} (hs : s.Pool) (hu : Updates N s s' za rs) {z : ShmZone}
    (hname : z.name = (s'.zone za).name) (hfiles : z.files = (s'.zone za).files)
    (hpath : z.pathIndex = (s'.zone za).pathIndex) (hindex : z.index = (s'.zone za).index) :
    Updates N s (s'.setZone za z) za rs := by
  have ht := setZone_spec 0 hu.ok.toZoneInv hname hfiles hpath hindex
  have hz : ((s'.setZone za z).zone za).files = (s'.zone za).files := by simp [hfiles]
  refine ⟨⟨ht.inv, fun fa hfa => ?_⟩, hu.within.trans hs ht.within, ?_⟩
  · rw [hz] at hfa
    exact ⟨(hu.ok.linked fa hfa).key, (hu.ok.linked fa hfa).tags⟩
  · rw [← hu.records]
    unfold CachePilot.records
    rw [hz]
    rfl

/-- Touching the zone after an update does not change what it says. -/
theorem Updates.touch {rs : List Record} (hs : s.Pool) (hu : Updates N s s' za rs) (now : Int) :
    Updates N s (touchZoneLocked now za s') za rs := hu.setZone hs rfl rfl rfl rfl

/-- A removal is an update. -/
theorem removeFileLocked_updates (h : ZoneOk N s za) (hfa : fa ∈ (s.zone za).files) :
    Updates N s (removeFileLocked N za fa s) za (otherRecords (records s za) (s.file fa).path) :=
  have hr := removeFileLocked_ok h.toZoneInv hfa fun fb hfb _ => h.linked fb hfb
  ⟨hr.1, (removeFileLocked_spec h.toZoneInv hfa).1.within, hr.2⟩

theorem otherRecords_eq_self {rs : List Record} {path : Bytes} (h : ∀ r ∈ rs, r.path ≠ path) :
    otherRecords rs path = rs :=
  List.filter_eq_self.mpr fun r hr => by simp [h r hr]

theorem mem_otherRecords {rs : List Record} {path : Bytes} {r : Record} :
    r ∈ otherRecords rs path ↔ r ∈ rs ∧ r.path ≠ path := by
  simp [otherRecords]

/-- The first step of an upsert: the file of the path leaves the zone, if there
is one. -/
def clearPath (N : Nginx) (za : Addr) (path : Bytes) (s : Shm) : Shm :=
  match lookupFile N (s.zone za) path with
  | some fa => removeFileLocked N za fa s
  | none => s

theorem clearPath_spec (h : ZoneOk N s za) (path : Bytes) :
    Updates N s (clearPath N za path s) za (otherRecords (records s za) path) ∧
      ∀ k, Tight s za k → Tight (clearPath N za path s) za k := by
  unfold clearPath
  cases hl : lookupFile N (s.zone za) path with
  | some fa =>
    obtain ⟨hfa, hp⟩ := h.path.lookupFile_some.mp hl
    subst hp
    exact ⟨removeFileLocked_updates h hfa, (removeFileLocked_spec h.toZoneInv hfa).1.tight⟩
  | none =>
    refine ⟨⟨h, Within.refl N h.toZoneInv, (otherRecords_eq_self fun r hr => ?_).symm⟩,
      fun _ ht => ht⟩
    obtain ⟨fa, hfa, rfl⟩ := List.mem_map.mp hr
    exact h.path.lookupFile_none.mp hl fa hfa

/-- A zone with a file under construction: `s1` is the state before it, and the
file block `s1.next` is the last one. -/
structure Building (N : Nginx) (s1 s : Shm) (za : Addr) (r : Record) : Prop where
  keeps : Keeps N s1 s za s1.next
  files : (s.zone za).files = (s1.zone za).files ++ [s1.next]
  record : (s.file s1.next).record = r

namespace Building

variable {r : Record}

theorem records_eq (h1 : ZoneInv N s1 za) (hb : Building N s1 s za r) :
    records s za = records s1 za ++ [r] := by
  unfold records
  rw [hb.files, List.map_append, List.map_singleton, hb.record,
    records_of_touches h1 hb.keeps.touches fun _ hfa => hfa]

theorem others_linked (h1 : ZoneOk N s1 za) (hb : Building N s1 s za r) :
    ∀ fb ∈ (s.zone za).files, fb ≠ s1.next → Linked s fb := by
  intro fb hfb hne
  rw [hb.files] at hfb
  have hfb' : fb ∈ (s1.zone za).files :=
    (List.mem_append.mp hfb).resolve_right fun h0 => hne (List.mem_singleton.mp h0)
  exact (h1.linked fb hfb').of_touches h1.toZoneInv hb.keeps.touches hfb' hne

/-- The step goes on with the same file. -/
theorem step (h1 : ZoneInv N s1 za) (hb : Building N s1 s za r) (hk : Keeps N s s' za s1.next)
    (hfiles : (s'.zone za).files = (s.zone za).files) : Building N s1 s' za r := by
  have hlt : s1.next < s.next := by
    have hmem : s1.next ∈ (s.zone za).files := by rw [hb.files]; simp
    exact hb.keeps.inv.owns_lt (b := ⟨.file, s1.next⟩) hmem
  exact ⟨hb.keeps.trans h1.pool hk, hfiles.trans hb.files, (hk.touches.record _ hlt).trans hb.record⟩

/-- The error path: the unfinished file leaves the zone again. -/
theorem abort (h1 : ZoneOk N s1 za) (hb : Building N s1 s za r) :
    Updates N s1 (removeFileLocked N za s1.next s) za (otherRecords (records s1 za) r.path) ∧
      ∀ k, Tight s za k → Tight (removeFileLocked N za s1.next s) za k := by
  have hmem : s1.next ∈ (s.zone za).files := by rw [hb.files]; simp
  have hrm := removeFileLocked_ok hb.keeps.inv hmem (hb.others_linked h1)
  have hspec := (removeFileLocked_spec hb.keeps.inv hmem).1
  refine ⟨⟨hrm.1, hb.keeps.within.trans h1.pool hspec.within, ?_⟩, hspec.tight⟩
  have hpath : (s.file s1.next).path = r.path := congrArg Record.path hb.record
  rw [hrm.2, hb.records_eq h1.toZoneInv, hpath]
  unfold otherRecords
  rw [List.filter_append]
  simp

/-- All links are made: the file joins the zone. -/
theorem finish (h1 : ZoneOk N s1 za) (hb : Building N s1 s za r) (hl : Linked s s1.next) :
    Updates N s1 s za (records s1 za ++ [r]) := by
  refine ⟨⟨hb.keeps.inv, fun fb hfb => ?_⟩, hb.keeps.within, hb.records_eq h1.toZoneInv⟩
  by_cases hne : fb = s1.next
  · rw [hne]
    exact hl
  · exact hb.others_linked h1 fb hfb hne

end Building

/-- Whether a call with these allocations leaves the entry of a tag without a
member: the tag loop is reached and one of its turns does. `carried` tells the
tags, and `keyed` whether it is so for the key, that other files of the zone
have. -/
def UpsertTidy (alloc : AllocSite → Bool) (key : Bytes) (tags : List Bytes) (rest : List Record) :
    Prop :=
  alloc .file = true → (key = [] ∨ (∃ r ∈ rest, r.key = key) ∨ alloc .keyEntry = true) →
    NoOrphan alloc (fun t => ∃ r ∈ rest, t ∈ r.tags) 0 tags

/-- An entry for a key with nothing queued aside, the key entries of a zone are
those of the non-empty keys of its files. -/
theorem ZoneOk.hasEntry_key (h : ZoneOk N s za) (ht : Tight s za .key) (k : Bytes) :
    HasEntry s za .key k ↔ k ≠ [] ∧ ∃ r ∈ records s za, r.key = k := by
  rw [h.hasEntry_iff]
  constructor
  · rintro ⟨e, he, rfl⟩
    obtain ⟨fa, hfa⟩ := ht e he
    obtain ⟨hmem, hk⟩ := mem_keyLinksOf.mp hfa
    rw [h.keyStr fa hmem e hk]
    refine ⟨fun h0 => ?_, _, List.mem_map_of_mem hmem, rfl⟩
    have hnone := (h.linked fa hmem).key.mpr h0
    simp only at hk
    rw [hnone] at hk
    exact nomatch hk
  · rintro ⟨hne, r, hr, rfl⟩
    obtain ⟨fa, hfa, rfl⟩ := List.mem_map.mp hr
    cases hk : (s.file fa).keyEntry with
    | none => exact absurd ((h.linked fa hfa).key.mp hk) hne
    | some e =>
      exact ⟨e, (h.index .key).linked (fa, e) (mem_keyLinksOf.mpr ⟨hfa, hk⟩), h.keyStr fa hfa e hk⟩

/-- Likewise the tag entries. -/
theorem ZoneOk.hasEntry_tag (h : ZoneOk N s za) (ht : Tight s za .tag) (t : Bytes) :
    HasEntry s za .tag t ↔ ∃ r ∈ records s za, t ∈ r.tags := by
  rw [h.hasEntry_iff]
  constructor
  · rintro ⟨e, he, rfl⟩
    obtain ⟨m, hm⟩ := ht e he
    obtain ⟨m', hm', heq⟩ := List.mem_map.mp hm
    obtain ⟨rfl, rfl⟩ := Prod.mk.inj heq
    obtain ⟨fa, hfa, hmem⟩ := mem_membersOf.mp hm'
    refine ⟨_, List.mem_map_of_mem hfa, ?_⟩
    show _ ∈ (s.file fa).tags
    rw [← (h.linked fa hfa).tags]
    exact List.mem_map.mpr ⟨m', hmem, rfl⟩
  · rintro ⟨r, hr, hmem⟩
    obtain ⟨fa, hfa, rfl⟩ := List.mem_map.mp hr
    have hmem' : t ∈ (s.file fa).tags := hmem
    rw [← (h.linked fa hfa).tags] at hmem'
    obtain ⟨m, hm, rfl⟩ := List.mem_map.mp hmem'
    exact ⟨_, (h.index .tag).linked (m, _)
      (List.mem_map.mpr ⟨m, mem_membersOf.mpr ⟨fa, hfa, hm⟩, rfl⟩), rfl⟩

variable {alloc : AllocSite → Bool} {now mtime size : Int} {path key : Bytes} {tags : List Bytes}

theorem Building.start (h1 : ZoneOk N s1 za) (hp : ∀ r ∈ records s1 za, r.path ≠ path) :
    Building N s1 (withFile N za path key mtime size tags s1) za ⟨path, key, tags⟩ := by
  refine ⟨withFile_spec h1.toZoneInv fun fa hfa => hp _ (List.mem_map_of_mem hfa), ?_, ?_⟩
  · rw [withFile_zone]
  · rw [withFile_file, Function.update_self]
    rfl

theorem hasEntry_withFile {kind : EntryKind} {t : Bytes} :
    HasEntry (withFile N za path key mtime size tags s) za kind t ↔ HasEntry s za kind t := by
  unfold HasEntry
  rw [withFile_zone]

theorem Updates.trans {s'' : Shm} {rs rs' : List Record} (hs : s.Pool) (h : Updates N s s' za rs)
    (h' : Updates N s' s'' za rs') : Updates N s s'' za rs' :=
  ⟨h'.ok, h.within.trans hs h'.within, h'.records⟩

/-- The part of an upsert behind the removal of the old file: the path is new. -/
theorem upsert_new (h1 : ZoneOk N s1 za) (alloc : AllocSite → Bool) (key : Bytes) (mtime size : Int)
    (tags : List Bytes) (hp : ∀ r ∈ records s1 za, r.path ≠ path) :
    let s2 := withFile N za path key mtime size tags s1
    let r3 := linkExactKeyLocked N (alloc .keyEntry) za s1.next s2
    let r4 := linkTagsLocked N alloc za s1.next 0 tags r3.2
    Building N s1 r3.2 za ⟨path, key, tags⟩ ∧ (∀ k, Tight s1 za k → Tight r3.2 za k) ∧
    (r3.1 = .error ∨ r3.1 = .ok ∧ Building N s1 r4.2 za ⟨path, key, tags⟩ ∧
      (r4.1 = .error ∨ r4.1 = .ok ∧ Linked r4.2 s1.next) ∧
      (Tight s1 za .key → Tight r4.2 za .key) ∧
      (Tight s1 za .key → Tight s1 za .tag → alloc .file = true →
        UpsertTidy alloc key tags (records s1 za) → Tight r4.2 za .tag)) := by
  intro s2 r3 r4
  have hb2 : Building N s1 s2 za ⟨path, key, tags⟩ := Building.start h1 hp
  have hfile : s2.file s1.next = newFile N path key mtime size tags := by
    rw [withFile_file, Function.update_self]
  obtain ⟨htidy, hfiles3, hmem3, hcase⟩ := linkExactKeyLocked_spec hb2.keeps.inv hb2.files
    (by rw [hfile]; rfl) (alloc .keyEntry)
  have hb3 : Building N s1 r3.2 za ⟨path, key, tags⟩ :=
    hb2.step h1.toZoneInv htidy.toKeeps hfiles3
  have ht3 : ∀ k, Tight s1 za k → Tight r3.2 za k := fun k ht =>
    htidy.tight k (withFile_tight h1.toZoneInv ht)
  have hkey : (s2.file s1.next).key = key := by rw [hfile]; rfl
  refine ⟨hb3, ht3, ?_⟩
  rcases hcase with ⟨hok, hentry, htags, hreach⟩ | herr
  · have hloop : TagLoop N alloc za s1.next 0 tags r3.2 r4 :=
      linkTagsLocked_spec alloc tags 0 hb3.keeps.inv hb3.files
    have hb4 : Building N s1 r4.2 za ⟨path, key, tags⟩ :=
      hb3.step h1.toZoneInv hloop.keeps hloop.files
    refine Or.inr ⟨hok, hb4, ?_, fun ht => hloop.tightKey (ht3 .key ht), fun htk htt hf hno => ?_⟩
    · refine hloop.result.symm.imp_right fun hres => ⟨hres.1, ?_, ?_⟩
      · have hkey4 : (r4.2.file s1.next).key = key := congrArg Record.key hb4.record
        rw [hloop.keyEntry, hkey4, ← hkey]
        exact hentry
      · have htags4 : (r4.2.file s1.next).tags = tags := congrArg Record.tags hb4.record
        have hnil : tagStrs r3.2 s1.next = [] := by
          unfold tagStrs
          rw [hmem3, hfile]
          rfl
        rw [hres.2, hnil, htags4, List.nil_append]
    · refine hloop.tightTag (ht3 .tag htt) ?_
      have hcarried : HasEntry r3.2 za .tag = fun t => ∃ r ∈ records s1 za, t ∈ r.tags :=
        funext fun t => propext <|
          ((htags t).trans hasEntry_withFile).trans (h1.hasEntry_tag htt t)
      rw [hcarried]
      refine hno hf ?_
      rw [hkey] at hreach
      refine hreach.imp_right fun h0 => h0.imp_left fun hk => ?_
      exact ((h1.hasEntry_key htk key).mp (hasEntry_withFile.mp hk)).2
  · exact Or.inl herr

/-- The exits of `upsert_file_meta` behind the zone lookup. -/
theorem upsertInZone_eq :
    upsertInZone N alloc now za path key mtime size tags s =
      let s1 := clearPath N za path s
      let r3 := linkExactKeyLocked N (alloc .keyEntry) za s1.next
        (withFile N za path key mtime size tags s1)
      let r4 := linkTagsLocked N alloc za s1.next 0 tags r3.2
      if alloc .file then
        if r3.1 = .ok then
          if r4.1 = .ok then (.ok, touchZoneLocked now za r4.2)
          else (.error, removeFileLocked N za s1.next r4.2)
        else (.error, removeFileLocked N za s1.next r3.2)
      else (.error, s1.countFailure) := by
  generalize hs1 : clearPath N za path s = s1
  unfold clearPath at hs1
  unfold upsertInZone
  cases hl : lookupFile N (s.zone za) path with
  | _ =>
    rw [hl] at hs1
    simp only at hs1 ⊢
    rw [hs1]
    have hfile : addFile N za s1.next path key mtime size tags (s1.takeBlock .file) =
        withFile N za path key mtime size tags s1 := rfl
    cases alloc .file with
    | false => rfl
    | true =>
      simp only [allocLocked, if_true, hfile]
      generalize linkExactKeyLocked N (alloc .keyEntry) za s1.next
        (withFile N za path key mtime size tags s1) = r3
      obtain ⟨rc3, s3⟩ := r3
      cases rc3 with
      | ok =>
        simp only [if_true]
        generalize linkTagsLocked N alloc za s1.next 0 tags s3 = r4
        obtain ⟨rc4, s4⟩ := r4
        cases rc4 with
        | _ => rfl
      | _ => rfl

/-- An upsert replaces the record of its path, or drops it. -/
theorem upsertInZone_spec (h : ZoneOk N s za) (alloc : AllocSite → Bool) (now : Int)
    (path key : Bytes) (mtime size : Int) (tags : List Bytes) :
    let r := upsertInZone N alloc now za path key mtime size tags s
    let rest := otherRecords (records s za) path
    (r.1 = .ok ∧ Updates N s r.2 za (rest ++ [⟨path, key, tags⟩]) ∨
      r.1 = .error ∧ Updates N s r.2 za rest) ∧
    (Tight s za .key → Tight r.2 za .key) ∧
    (Tight s za .key → Tight s za .tag → UpsertTidy alloc key tags rest → Tight r.2 za .tag) := by
  obtain ⟨hu1, ht1⟩ := clearPath_spec h path
  have hp : ∀ r ∈ otherRecords (records s za) path, r.path ≠ path := fun r hr =>
    (mem_otherRecords.mp hr).2
  rw [upsertInZone_eq]
  generalize clearPath N za path s = s1 at hu1 ht1
  generalize otherRecords (records s za) path = rest at hu1 hp
  obtain ⟨hok, hwithin, rfl⟩ := hu1
  have hu1 : Updates N s s1 za (records s1 za) := ⟨hok, hwithin, rfl⟩
  have hp' : otherRecords (records s1 za) path = records s1 za := otherRecords_eq_self hp
  simp only
  cases hf : alloc .file with
  | false =>
    have hc := countFailure_spec 0 hok.toZoneInv
    have hu : Updates N s1 s1.countFailure za (records s1 za) :=
      ⟨⟨hc.inv, fun fa hfa => ⟨(hok.linked fa hfa).key, (hok.linked fa hfa).tags⟩⟩,
        hc.within, rfl⟩
    exact ⟨Or.inr ⟨rfl, hu1.trans h.pool hu⟩, fun ht => hc.tight .key (ht1 .key ht),
      fun _ ht _ => hc.tight .tag (ht1 .tag ht)⟩
  | true =>
    obtain ⟨hb3, ht3, hcase⟩ := upsert_new hok alloc key mtime size tags hp
    simp only [if_true]
    generalize linkExactKeyLocked N (alloc .keyEntry) za s1.next
      (withFile N za path key mtime size tags s1) = r3 at hb3 ht3 hcase
    generalize linkTagsLocked N alloc za s1.next 0 tags r3.2 = r4 at hcase
    rcases hcase with herr | ⟨hok3, hb4, hres, htk4, htt4⟩
    · obtain ⟨hu, ht⟩ := hb3.abort hok
      rw [herr, if_neg (by decide)]
      rw [hp'] at hu
      exact ⟨Or.inr ⟨rfl, hu1.trans h.pool hu⟩, fun h0 => ht .key (ht3 .key (ht1 .key h0)),
        fun _ h0 _ => ht .tag (ht3 .tag (ht1 .tag h0))⟩
    · rw [if_pos hok3]
      rcases hres with herr | ⟨hok4, hl⟩
      · obtain ⟨hu, ht⟩ := hb4.abort hok
        rw [herr, if_neg (by decide)]
        rw [hp'] at hu
        exact ⟨Or.inr ⟨rfl, hu1.trans h.pool hu⟩, fun h0 => ht .key (htk4 (ht1 .key h0)),
          fun h0 h0' hno => ht .tag (htt4 (ht1 .key h0) (ht1 .tag h0') hf hno)⟩
      · have hu := (hb4.finish hok hl).touch hok.pool now
        have ht := touchZoneLocked_spec 0 hb4.keeps.inv now
        rw [if_pos hok4]
        exact ⟨Or.inl ⟨rfl, hu1.trans h.pool hu⟩, fun h0 => ht.tight .key (htk4 (ht1 .key h0)),
          fun h0 h0' hno => ht.tight .tag (htt4 (ht1 .key h0) (ht1 .tag h0') hf hno)⟩

end CachePilot
