import CachePilot.Protocol.System

/-!
# What a turn preserves

The invariant of the shared state: the disk holds cache files, at the paths at
which a version is stored, and the index has for each path what the last call on
it left there. `PathStep` sorts the turns by what they mean for one path; the
results about the index follow from it by a case split.

Results:
* `Shared.Ok.turn`: every turn preserves the invariant;
* `Turn.pathStep`: for a given path every turn is one of four things.
-/

namespace CachePilot
open NgxString Interleave

variable {L : HeaderLayout} {cfg : ZoneConf} {s s' : Shared} {proc proc' : Proc} {p path : Bytes}

/-! ## Index calls -/

/-- `s'` comes from `s` by an index call that leaves `tags` at the path. -/
structure Called (cfg : ZoneConf) (s : Shared) (path : Bytes) (tags : Option (List Bytes))
    (s' : Shared) : Prop where
  cache : s'.cache = s.cache
  committed : s'.committed = s.committed
  stored : s'.stored = s.stored
  last : s'.last = Function.update s.last path (some ⟨tags, s.agrees path tags⟩)
  entry : s'.entryTags cfg = Function.update (s.entryTags cfg) path tags
  index : IndexOk cfg.N s'.shm

theorem entryTags_set {shm : Shm} {v : Option (Bytes × List Bytes)}
    (h : toMap shm = (toMap s.shm).set cfg.zoneName path v) :
    ({ s with shm := shm } : Shared).entryTags cfg =
      Function.update (s.entryTags cfg) path (v.map Prod.snd) := by
  funext p
  unfold Shared.entryTags
  rw [h]
  unfold IndexMap.set
  cases hp : decide (p = path) with
  | true =>
    obtain rfl := of_decide_eq_true hp
    rw [if_pos ⟨sameZoneName_refl cfg.zoneName, rfl⟩, Function.update_self]
  | false =>
    have hne := of_decide_eq_false hp
    rw [if_neg fun h0 => hne h0.2, Function.update_of_ne hne]

theorem upsert_called (h : IndexOk cfg.N s.shm) (path : FileName) (alloc : AllocSite → Bool)
    (now : Int) (key : Bytes) (mtime size : Int) (tags : List Bytes) :
    ∃ left, Called cfg s path left (s.upsert cfg alloc now path key mtime size tags).2 := by
  obtain ⟨-, hset⟩ :=
    upsertFileMeta_toMap h.ok alloc now cfg.zoneName path.1 key mtime size tags
  refine ⟨_, rfl, rfl, rfl, rfl, (entryTags_set hset).trans ?_, h.upsert path.2⟩
  congr 1
  split
  · rfl
  · rfl

theorem delete_called (h : IndexOk cfg.N s.shm) (now : Int) (path : Bytes) :
    Called cfg s path none (s.delete cfg now path) where
  cache := rfl
  committed := rfl
  stored := rfl
  last := rfl
  entry := entryTags_set (deleteFile_toMap h.ok now cfg.zoneName path).2
  index := h.delete

/-! ## Work on one file -/

/-- A file after work on it: gone, as it was, or expired. -/
inductive Worked : Option (CacheFile L) → Option (CacheFile L) → Prop
  | gone {f : Option (CacheFile L)} : Worked f none
  | kept {f : Option (CacheFile L)} : Worked f f
  | expired {f : CacheFile L} : Worked (some f) (some f.expire)

theorem Worked.isSome {f f' : Option (CacheFile L)} (h : Worked f f') (hs : f'.isSome = true) :
    f.isSome = true := by
  cases h with
  | gone => exact nomatch hs
  | kept => exact hs
  | expired => rfl

/-- What `by_path` leaves, and what its answer says about it. -/
theorem byPath_worked {files : Files L} (h : s.cache.disk = files.disk) (calls : FileCalls)
    (soft : Bool) (path : Bytes) :
    let r := byPath L calls soft path s.cache
    ∃ f', r.2.disk = Files.disk (Function.update files path f') ∧ Worked (files path) f' ∧
      (r.1 = .ok ∨ r.1 = .declined → ∀ f, f' = some f → soft = true ∧ f.Expired) := by
  intro r
  have hspec : ByPath calls soft path files r := byPath_spec h calls soft path
  -- a purge of the path
  have hpurge : Worked (files path) (if soft then (files path).map CacheFile.expire else none) ∧
      ∀ f, (if soft then (files path).map CacheFile.expire else none) = some f →
        soft = true ∧ f.Expired := by
    cases soft with
    | false => exact ⟨.gone, fun f hf => nomatch hf⟩
    | true =>
      cases files path with
      | none => exact ⟨.gone, fun f hf => nomatch hf⟩
      | some f0 =>
        refine ⟨.expired, fun f hf => ⟨rfl, ?_⟩⟩
        rw [← Option.some.inj hf]
        exact f0.expired_expire
  have hsame : files.disk = Files.disk (Function.update files path (files path)) := by
    rw [Function.update_eq_self]
  generalize r = r' at hspec
  cases hspec with
  | purged _ hd => exact ⟨_, hd, hpurge.1, fun _ => hpurge.2⟩
  | missing hnone hd =>
    refine ⟨files path, hd.trans hsame, .kept, fun _ f hf => ?_⟩
    rw [hnone] at hf
    exact nomatch hf
  | vanished _ _ hd => exact ⟨_, hd, hpurge.1, fun _ => hpurge.2⟩
  | failed _ hd => exact ⟨files path, hd.trans hsame, .kept, fun hrc => by simp at hrc⟩

/-! ## The invariant -/

/-- The invariant of the shared state. -/
structure Shared.Ok (L : HeaderLayout) (cfg : ZoneConf) (s : Shared) : Prop where
  files : ∃ files : Files L, s.cache.disk = files.disk ∧
    ∀ p, (files p).isSome = (s.stored p).isSome
  index : IndexOk cfg.N s.shm
  last : ∀ p c, s.last p = some c → s.entryTags cfg p = c.tags

theorem Called.ok (h : s.Ok L cfg) {tags : Option (List Bytes)} (hc : Called cfg s path tags s') :
    s'.Ok L cfg where
  files := by
    rw [hc.cache, hc.stored]
    exact h.files
  index := hc.index
  last p c hp := by
    rw [hc.last] at hp
    rw [hc.entry]
    cases hpp : decide (p = path) with
    | true =>
      obtain rfl := of_decide_eq_true hpp
      rw [Function.update_self] at hp ⊢
      rw [← Option.some.inj hp]
    | false =>
      have hne := of_decide_eq_false hpp
      rw [Function.update_of_ne hne] at hp ⊢
      exact h.last p c hp

namespace Shared.Ok

theorem commit (h : s.Ok L cfg) (path : Bytes) (tags : List Bytes) (file : CacheFile L)
    (nodes : FileCache) : (s.commit path tags file nodes).Ok L cfg where
  files := by
    obtain ⟨files, hd, hs⟩ := h.files
    refine ⟨Function.update files path (some file), ?_, fun p => ?_⟩
    · show Function.update s.cache.disk path (some file.bytes) = _
      rw [hd, Files.disk_update]
      rfl
    · show _ = (Function.update s.stored path _ p).isSome
      cases hp : decide (p = path) with
      | true =>
        obtain rfl := of_decide_eq_true hp
        rw [Function.update_self, Function.update_self]
        rfl
      | false =>
        have hne := of_decide_eq_false hp
        rw [Function.update_of_ne hne, Function.update_of_ne hne]
        exact hs p
  index := h.index
  last := h.last

theorem withCache (h : s.Ok L cfg) {files : Files L} (hd : s.cache.disk = files.disk)
    {cache : FileCache} {g : Option (CacheFile L)}
    (hd' : cache.disk = Files.disk (Function.update files path g)) (hw : Worked (files path) g) :
    (s.withCache path cache).Ok L cfg where
  files := by
    obtain ⟨files0, hd0, hs⟩ := h.files
    refine ⟨Function.update files path g, hd', fun p => ?_⟩
    have hsome : ∀ q, (files q).isSome = (s.stored q).isSome := by
      intro q
      rw [← hs q]
      have hq := congrFun (hd.symm.trans hd0) q
      rw [← Option.isSome_map (f := CacheFile.bytes), ← Option.isSome_map (f := CacheFile.bytes)]
      exact congrArg Option.isSome hq
    show _ = (Function.update s.stored path _ p).isSome
    cases hp : decide (p = path) with
    | true =>
      obtain rfl := of_decide_eq_true hp
      rw [Function.update_self, Function.update_self, hd', Files.disk, Function.update_self,
        Option.isSome_map]
      cases hf : g.isSome with
      | false => rfl
      | true => rw [if_pos rfl, ← hsome p, hw.isSome hf]
    | false =>
      have hne := of_decide_eq_false hp
      rw [Function.update_of_ne hne, Function.update_of_ne hne]
      exact hsome p
  index := h.index
  last := h.last

/-- A file is worked on, or the cache keeps its files. -/
theorem removed (h : s.Ok L cfg) {cache : FileCache}
    (hd : cache.disk = s.cache.disk ∨ cache.disk = Function.update s.cache.disk path none) :
    (s.withCache path cache).Ok L cfg := by
  obtain ⟨files, hf, -⟩ := h.files
  rcases hd with hd | hd
  · refine h.withCache hf (g := files path) ?_ .kept
    rw [Function.update_eq_self, hd, hf]
  · refine h.withCache hf (g := none) ?_ .gone
    rw [hd, hf, Files.disk_update]
    rfl

/-- Every turn preserves the invariant. -/
theorem turn (h : s.Ok L cfg) (ht : Turn L cfg s proc proc' s') : s'.Ok L cfg := by
  obtain ⟨files, hf, -⟩ := h.files
  cases ht with
  | capture => exact h
  | commit file nodes => exact h.commit _ _ file nodes
  | skip => exact h
  | serve => exact h
  | @log path key tags alloc now =>
    obtain ⟨_, hc⟩ := upsert_called h.index path alloc now key now 0 tags
    exact hc.ok h
  | removed hd => exact h.removed hd
  | declined => exact h
  | started => exact h
  | opened hd => exact h.removed hd
  | collected => exact h
  | collectFailed => exact h
  | @purged job path todo _ calls =>
    obtain ⟨_, hd, hw, -⟩ := byPath_worked hf calls job.soft path
    exact h.withCache hf hd hw
  | @purgeFailed job path todo calls =>
    obtain ⟨_, hd, hw, -⟩ := byPath_worked hf calls job.soft path
    exact h.withCache hf hd hw
  | dropped now => exact (delete_called h.index now _).ok h
  | answered => exact h
  | scan => exact h
  | parsed => exact h
  | scanFailed => exact h
  | forgotten now => exact (delete_called h.index now _).ok h
  | @indexed path p todo _ alloc now =>
    obtain ⟨_, hc⟩ := upsert_called h.index path alloc now p.key p.mtime p.size p.tags
    exact hc.ok h
  | marked ok now =>
    refine ⟨h.files, h.index.setZoneState, fun p c hp => ?_⟩
    rw [← h.last p c hp]
    obtain ⟨hc, -⟩ := setZoneState_spec h.index.ok ok now cfg.zoneName ⟨true, now, now⟩
    unfold Shared.entryTags toMap
    simp only
    rw [hc.own cfg.zoneName (sameZoneName_refl cfg.zoneName)]

end Shared.Ok

/-! ## One path -/

/-- What a turn is for one path: nothing; the file is gone behind it; the process
has committed a file there and is to log it; or it called the index on the path. -/
inductive PathStep (cfg : ZoneConf) (p : Bytes) (s s' : Shared) (proc proc' : Proc) : Prop
  | quiet : ¬ proc.Logs p → (proc.Visits p → proc'.Visits p) → s'.stored p = s.stored p →
    s'.last p = s.last p → s'.entryTags cfg p = s.entryTags cfg p → PathStep cfg p s s' proc proc'
  | gone : s'.stored p = none → PathStep cfg p s s' proc proc'
  | committed : proc'.Logs p → PathStep cfg p s s' proc proc'
  | called (c : IndexCall) : s'.last p = some c →
    (∀ v, s'.stored p = some v → (s'.entryTags cfg p = some v.tags ↔ c.agreed = true)) →
    PathStep cfg p s s' proc proc'

theorem Called.pathStep {tags : Option (List Bytes)} (hc : Called cfg s path tags s')
    (hlogs : proc.Logs p → path = p) (hvisits : p ≠ path → proc.Visits p → proc'.Visits p) :
    PathStep cfg p s s' proc proc' := by
  cases hp : decide (p = path) with
  | true =>
    obtain rfl := of_decide_eq_true hp
    refine .called ⟨tags, s.agrees p tags⟩ ?_ fun v hv => ?_
    · rw [hc.last, Function.update_self]
    · rw [hc.stored] at hv
      rw [hc.entry, Function.update_self]
      unfold Shared.agrees
      rw [hv]
      exact beq_iff_eq.symm
  | false =>
    have hne := of_decide_eq_false hp
    refine .quiet (fun h => hne (hlogs h).symm) (hvisits hne) ?_ ?_ ?_
    · rw [hc.stored]
    · rw [hc.last, Function.update_of_ne hne]
    · rw [hc.entry, Function.update_of_ne hne]

/-- Work on the files is nothing for the index. -/
theorem withCache_pathStep {cache : FileCache} (hlogs : ¬ proc.Logs p)
    (hvisits : proc.Visits p → proc'.Visits p) :
    PathStep cfg p s (s.withCache path cache) proc proc' := by
  cases hp : decide (p = path) with
  | true =>
    obtain rfl := of_decide_eq_true hp
    have hstored : (s.withCache p cache).stored p =
        if (cache.disk p).isSome then s.stored p else none := Function.update_self p _ s.stored
    cases hd : (cache.disk p).isSome with
    | true =>
      rw [hd, if_pos rfl] at hstored
      exact .quiet hlogs hvisits hstored rfl rfl
    | false =>
      rw [hd, if_neg Bool.false_ne_true] at hstored
      exact .gone hstored
  | false =>
    have hne := of_decide_eq_false hp
    exact .quiet hlogs hvisits (Function.update_of_ne hne _ s.stored) rfl rfl

/-- For a given path every turn is one of the four. -/
theorem Turn.pathStep (h : s.Ok L cfg) (ht : Turn L cfg s proc proc' s') (p : Bytes) :
    PathStep cfg p s s' proc proc' := by
  cases ht with
  | capture => exact .quiet id nofun rfl rfl rfl
  | @commit path key tags file nodes =>
    cases hp : decide (path.1 = p) with
    | true =>
      have hlogs : path.1 = p := of_decide_eq_true hp
      exact .committed hlogs
    | false =>
      have hne : p ≠ path.1 := fun h0 => of_decide_eq_false hp h0.symm
      exact .quiet id nofun (Function.update_of_ne hne _ s.stored) rfl rfl
  | skip => exact .quiet id nofun rfl rfl rfl
  | serve => exact .quiet id nofun rfl rfl rfl
  | @log path key tags alloc now =>
    obtain ⟨_, hc⟩ := upsert_called h.index path alloc now key now 0 tags
    exact hc.pathStep id fun _ => nofun
  | removed => exact withCache_pathStep id nofun
  | declined => exact .quiet id nofun rfl rfl rfl
  | started => exact .quiet id nofun rfl rfl rfl
  | opened => exact withCache_pathStep id nofun
  | collected => exact .quiet id nofun rfl rfl rfl
  | collectFailed => exact .quiet id nofun rfl rfl rfl
  | purged => exact withCache_pathStep id nofun
  | purgeFailed => exact withCache_pathStep id nofun
  | dropped now => exact (delete_called h.index now _).pathStep nofun fun _ => nofun
  | answered => exact .quiet id nofun rfl rfl rfl
  | scan => exact .quiet id nofun rfl rfl rfl
  | parsed =>
    refine .quiet id ?_ rfl rfl rfl
    rintro ⟨q, hq, rfl⟩
    rcases List.mem_cons.mp hq with rfl | hq
    · exact Or.inl rfl
    · exact Or.inr ⟨q, hq, rfl⟩
  | scanFailed => exact .quiet id (fun _ => trivial) rfl rfl rfl
  | @forgotten path rc todo now =>
    refine (delete_called h.index now path.1).pathStep nofun fun hne hv => ?_
    rcases hv with he | hv
    · exact absurd he.symm hne
    · exact hv
  | @indexed path r todo proc' alloc now hproc =>
    obtain ⟨_, hc⟩ := upsert_called h.index path alloc now r.key r.mtime r.size r.tags
    refine hc.pathStep nofun fun hne hv => ?_
    rcases hproc with rfl | rfl
    · exact trivial
    · rcases hv with he | hv
      · exact absurd he.symm hne
      · exact hv
  | marked ok now =>
    refine .quiet id (fun hv => ?_) rfl rfl ?_
    · obtain ⟨q, hq, -⟩ := hv
      exact absurd hq List.not_mem_nil
    · obtain ⟨hc, -⟩ := setZoneState_spec h.index.ok ok now cfg.zoneName ⟨true, now, now⟩
      unfold Shared.entryTags toMap
      simp only
      rw [hc.own cfg.zoneName (sameZoneName_refl cfg.zoneName)]

end CachePilot
