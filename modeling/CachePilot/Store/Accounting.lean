import CachePilot.Store.Answers

/-!
# The blocks of the index zone

Which blocks are live after a run: the zone structs and what the files of the
zones need, as long as no call leaves the entry of a tag without a member.
`link_tags_locked` does that when it makes the entry of a tag and then cannot
allocate the member: its error path removes the file, and the new entry, which
nothing is linked to, stays.

Results:
* `index_store_accounts_blocks`: the live blocks after a run without such a call;
* `tag_entry_outlives_files`: a run of one such call.
-/

namespace CachePilot
open NgxString SearchTree

variable {N : Nginx} {s : Shm} {za : Addr}

/-! ## The account -/

/-- The strings of the entries of a zone. -/
def entryStrs (s : Shm) (za : Addr) (kind : EntryKind) : List Bytes :=
  (s.entryAddrs za kind).map fun e => (s.entry kind e).str

/-- The live blocks are the zone structs and, for each zone, one block for each
file, one entry for each non-empty key and for each tag that a file has, and one
member for each tag of each file; nothing was freed twice. -/
structure Accounted (s : Shm) : Prop where
  freedOnce : s.freed.Nodup
  freedAllocated : ∀ b ∈ s.freed, b ∈ s.allocated
  live : ∀ b, s.Live b ↔ (b.kind = .zone ∧ b.addr ∈ s.zones) ∨ ∃ za ∈ s.zones, s.Owns za b
  files : ∀ za ∈ s.zones, ((s.zone za).files.map fun fa => (s.file fa).path).Nodup
  keyEntries : ∀ za ∈ s.zones, (entryStrs s za .key).Nodup ∧
    ∀ k, k ∈ entryStrs s za .key ↔ k ≠ [] ∧ ∃ fa ∈ (s.zone za).files, (s.file fa).key = k
  tagEntries : ∀ za ∈ s.zones, (entryStrs s za .tag).Nodup ∧
    ∀ t, t ∈ entryStrs s za .tag ↔ ∃ fa ∈ (s.zone za).files, t ∈ (s.file fa).tags
  members : ∀ za ∈ s.zones, (s.members za).Nodup ∧
    (s.members za).map (fun m => ((s.member m).file, (s.entry .tag (s.member m).tagEntry).str)) =
      (s.zone za).files.flatMap fun fa => (s.file fa).tags.map fun t => (fa, t)
  empty : (∀ za ∈ s.zones, (s.zone za).files = []) →
    ∀ b, s.Live b ↔ b.kind = .zone ∧ b.addr ∈ s.zones

/-- Two entries of a zone have different strings. -/
theorem ZoneOk.entryStrs_nodup (h : ZoneOk N s za) (kind : EntryKind) :
    (entryStrs s za kind).Nodup := by
  unfold entryStrs Shm.entryAddrs
  rw [List.map_map]
  have hstr : ∀ n ∈ inorder ((s.zone za).index kind),
      ((fun e => (s.entry kind e).str) ∘ RbNode.addr) n = n.str := fun n hn => by
    rw [Function.comp_apply, (h.index kind).block n hn]
  rw [List.map_congr_left hstr]
  refine (List.nodup_map_iff_inj_on (sorted_nodup (h.index kind).sorted)).mpr ?_
  exact fun n hn m hm hs => (h.index kind).node_of_str hn hm hs

theorem ZoneOk.mem_entryStrs (h : ZoneOk N s za) (kind : EntryKind) (str : Bytes) :
    str ∈ entryStrs s za kind ↔ HasEntry s za kind str := by
  rw [h.hasEntry_iff]
  exact List.mem_map

theorem exists_record {P : Record → Prop} :
    (∃ r ∈ records s za, P r) ↔ ∃ fa ∈ (s.zone za).files, P (s.file fa).record := by
  unfold records
  simp

theorem ZoneOk.members_eq (h : ZoneOk N s za) :
    (s.members za).map (fun m => ((s.member m).file, (s.entry .tag (s.member m).tagEntry).str)) =
      (s.zone za).files.flatMap fun fa => (s.file fa).tags.map fun t => (fa, t) := by
  unfold Shm.members membersOf
  rw [List.map_flatMap]
  refine List.flatMap_congr fun fa hfa => ?_
  rw [← (h.linked fa hfa).tags]
  unfold tagStrs
  rw [List.map_map]
  refine List.map_congr_left fun m hm => ?_
  rw [h.memberFile fa hfa m hm]
  rfl

theorem ShmOk.accounted (h : ShmOk N s) (htk : AllTight s .key) (htt : AllTight s .tag) :
    Accounted s := by
  have hkey : ∀ za ∈ s.zones, ∀ k, k ∈ entryStrs s za .key ↔
      k ≠ [] ∧ ∃ fa ∈ (s.zone za).files, (s.file fa).key = k := fun za hza k => by
    rw [(h.ok za hza).mem_entryStrs, (h.ok za hza).hasEntry_key (htk za hza), exists_record]
    rfl
  have htag : ∀ za ∈ s.zones, ∀ t, t ∈ entryStrs s za .tag ↔
      ∃ fa ∈ (s.zone za).files, t ∈ (s.file fa).tags := fun za hza t => by
    rw [(h.ok za hza).mem_entryStrs, (h.ok za hza).hasEntry_tag (htt za hza), exists_record]
    rfl
  refine
    { freedOnce := h.pool.freedNodup
      freedAllocated := h.pool.freedAllocated
      live := h.live
      files := fun za hza => (h.ok za hza).path.paths
      keyEntries := fun za hza => ⟨(h.ok za hza).entryStrs_nodup .key, hkey za hza⟩
      tagEntries := fun za hza => ⟨(h.ok za hza).entryStrs_nodup .tag, htag za hza⟩
      members := fun za hza => ⟨(h.ok za hza).membersNodup, (h.ok za hza).members_eq⟩
      empty := fun hnone b => ?_ }
  rw [h.live, or_iff_left]
  rintro ⟨za, hza, ho⟩
  have hf := hnone za hza
  obtain ⟨k, a⟩ := b
  cases k with
  | zone => exact ho
  | file =>
    have ha : a ∈ (s.zone za).files := ho
    rw [hf] at ha
    exact absurd ha List.not_mem_nil
  | tagMember =>
    obtain ⟨fa, hfa, -⟩ := mem_membersOf.mp ho
    rw [hf] at hfa
    exact absurd hfa List.not_mem_nil
  | entry kind =>
    have hstr : (s.entry kind a).str ∈ entryStrs s za kind := List.mem_map_of_mem ho
    cases kind with
    | key =>
      obtain ⟨-, fa, hfa, -⟩ := (hkey za hza _).mp hstr
      rw [hf] at hfa
      exact absurd hfa List.not_mem_nil
    | tag =>
      obtain ⟨fa, hfa, -⟩ := (htag za hza _).mp hstr
      rw [hf] at hfa
      exact absurd hfa List.not_mem_nil

/-! ## Runs -/

/-- The call leaves no entry of a tag without a member: when it reaches the tag
loop, no turn of the loop makes an entry and then fails to allocate the member. -/
def StoreOp.Tidy (s : Shm) : StoreOp → Prop
  | upsert alloc _ zoneName path key _ _ tags => CallTidy alloc zoneName path key tags s
  | delete _ _ _ => True

theorem StoreOp.run_tight (h : ShmOk N s) (htk : AllTight s .key) (htt : AllTight s .tag)
    {op : StoreOp} (hop : op.Tidy s) : AllTight (op.run N s).2 .tag := by
  cases op with
  | upsert alloc now zoneName path key mtime size tags =>
    exact (upsertFileMeta_spec h alloc now zoneName path key mtime size tags).2.2.2 htk htt hop
  | delete now zoneName path => exact (deleteFile_spec h now zoneName path).2.2 .tag htt

/-- After every call of a run in which no call leaves the entry of a tag without a
member, the live blocks are what the zones and their files need. -/
theorem index_store_accounts_blocks (N : Nginx) (ops : List StoreOp)
    (hops : ∀ n (hn : n < ops.length), ops[n].Tidy (runStore N (ops.take n))) :
    ∀ n ≤ ops.length, Accounted (runStore N (ops.take n)) := by
  have htight : ∀ n ≤ ops.length, AllTight (runStore N (ops.take n)) .tag := by
    intro n hn
    induction n with
    | zero => exact fun za hza => absurd hza List.not_mem_nil
    | succ n ih =>
      obtain ⟨hok, htk⟩ := runStore_ok N (ops.take n)
      rw [← List.take_concat_get' ops n hn, runStore_concat]
      exact StoreOp.run_tight hok htk (ih (Nat.le_of_lt hn)) (hops n hn)
  intro n hn
  obtain ⟨hok, htk⟩ := runStore_ok N (ops.take n)
  exact hok.accounted htk (htight n hn)

/-- As long as members can be allocated no entry is lost. -/
theorem noOrphan_of_members {alloc : AllocSite → Bool} (h : ∀ j, alloc (.tagMember j) = true)
    (carried : Bytes → Prop) (i : Nat) (tags : List Bytes) : NoOrphan alloc carried i tags := by
  induction tags generalizing carried i with
  | nil => exact trivial
  | cons tag tags ih =>
    intro _
    rw [if_pos (h i)]
    exact ih _ _

theorem sampleCalls_tidy : ∀ op ∈ sampleCalls, ∀ s, op.Tidy s := by
  intro op hop s
  unfold sampleCalls at hop
  simp only [List.mem_cons, List.not_mem_nil, or_false] at hop
  rcases hop with rfl | rfl | rfl | rfl
  · exact fun _ _ _ => noOrphan_of_members (fun _ => rfl) _ _ _
  · exact fun _ _ _ => noOrphan_of_members (fun _ => rfl) _ _ _
  · exact fun _ _ _ => noOrphan_of_members (fun _ => rfl) _ _ _
  · exact trivial

theorem index_store_accounts_blocks_sample :
    Accounted (runStore .reference (sampleCalls.take 4)) :=
  index_store_accounts_blocks .reference sampleCalls
    (fun _ hn => sampleCalls_tidy _ (List.getElem_mem hn) _) 4 (by decide)

/-- An upsert with one tag that gets all its blocks but the tag member. -/
def leakyCalls : List StoreOp :=
  [.upsert (fun site => site != .tagMember 0) 1 [122] [97] [107] 1 1 [[116]]]

/-- The tag entry stays live although the zone has no file. -/
theorem tag_entry_outlives_files : ¬ Accounted (runStore .reference leakyCalls) := by
  intro h
  have hfiles : ∀ za ∈ (runStore .reference leakyCalls).zones,
      ((runStore .reference leakyCalls).zone za).files = [] := by decide +kernel
  have hlive : (runStore .reference leakyCalls).Live ⟨.entry .tag, 3⟩ := by
    unfold Shm.Live
    decide +kernel
  exact absurd ((h.empty hfiles _).mp hlive).1 (by decide)

end CachePilot
