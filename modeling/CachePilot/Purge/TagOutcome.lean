import CachePilot.Purge.Idempotent

/-!
# What a tag purge leaves

A tag purge takes its paths from the index and deletes entries of the index while it
works through them. The modes differ in which entries these are: a hard purge drops
the entry of every file that it comes to, a soft one only those of missing files.

Results:
* `purgeTagged_loop`: what the loop leaves of the cache and of the index, and what it
  counts;
* `tag_purge_outcome`: the same for the request, in terms of its tags.
-/

namespace CachePilot
open NgxString SearchTree

/-! ## One file -/

variable {N : Nginx} {L : HeaderLayout} {access : IndexAccess} {r : PurgeRequest} {s : Pilot}
  {zoneName path p : Bytes} {tags paths : List Bytes} {calls : FileCalls} {soft : Bool}

/-- A turn of the loop keeps the entry of a file that it has expired. -/
theorem purgeTagged_outcome (N : Nginx) (now : Int) (zoneName : Bytes)
    (h : FileOutcome L soft calls (s.cache.disk path)) :
    purgeTagged N L calls now zoneName soft path s =
      (if s.cache.disk path = none ∨ (soft = false ∧ calls.vanishes = true) then .declined else .ok,
        { s with
          cache := settle L soft path s.cache
          shm := if soft = true ∧ s.cache.disk path ≠ none then s.shm
            else (deleteFile N now zoneName path s.shm).2 }) := by
  unfold purgeTagged purgeByPath deleteIndexPath
  rw [byPath_outcome h]
  simp only
  cases soft with
  | true =>
    cases s.cache.disk path with
    | none => rfl
    | some data => rfl
  | false =>
    cases s.cache.disk path with
    | none => rfl
    | some data => cases calls.vanishes <;> rfl

/-! ## The loop -/

/-- How many of the paths, from number `k`, have a file whose purge succeeds. -/
def succeeded (soft : Bool) (calls : Nat → FileCalls) (disk : Disk) (k : Nat) (paths : List Bytes) :
    Nat :=
  (paths.zipIdx k).countP fun x => (disk x.1).isSome && (soft || !(calls x.2).vanishes)

/-- Whether the purge of a file drops its entry. -/
def dropsEntry (soft : Bool) (disk : Disk) (path : Bytes) : Bool := !soft || (disk path).isNone

/-- What the loop leaves: the cache with its paths settled, the index without the
entries that it drops. -/
structure LoopLeaves (N : Nginx) (L : HeaderLayout) (soft : Bool) (zoneName : Bytes) (paths : List Bytes)
    (s s' : Pilot) : Prop where
  cache : s'.cache = paths.foldl (fun c path => settle L soft path c) s.cache
  index : IndexOk N s'.shm
  own : recordsOf s'.shm zoneName = (recordsOf s.shm zoneName).filter fun rec =>
    decide (¬ (rec.path ∈ paths ∧ dropsEntry soft s.cache.disk rec.path = true))
  other : ∀ z, ¬ sameZoneName zoneName z = true → recordsOf s'.shm z = recordsOf s.shm z
  metrics : s'.metrics = s.metrics
  ctx : s'.ctx = s.ctx

/-- One turn. -/
theorem purgeTagged_leaves (hindex : IndexOk N s.shm) (now : Int) (zoneName : Bytes)
    (h : FileOutcome L soft calls (s.cache.disk path)) :
    LoopLeaves N L soft zoneName [path] s (purgeTagged N L calls now zoneName soft path s).2 := by
  rw [purgeTagged_outcome N now zoneName h]
  simp only
  have hall : ∀ q : Record → Bool, (∀ rec ∈ recordsOf s.shm zoneName, q rec = true) →
      recordsOf s.shm zoneName = (recordsOf s.shm zoneName).filter q :=
    fun q hq => (List.filter_eq_self.mpr hq).symm
  by_cases hkeep : soft = true ∧ s.cache.disk path ≠ none
  · obtain ⟨rfl, hdisk⟩ := hkeep
    rw [if_pos ⟨rfl, hdisk⟩]
    refine ⟨rfl, hindex, hall _ fun rec _ => decide_eq_true fun ⟨hp, hdrop⟩ => ?_, fun _ _ => rfl, rfl, rfl⟩
    rw [List.mem_singleton.mp hp] at hdrop
    exact hdisk (Option.isNone_iff_eq_none.mp hdrop)
  · rw [if_neg hkeep]
    obtain ⟨-, hchanges, htight⟩ := deleteFile_spec hindex.ok now zoneName path
    refine ⟨rfl, hindex.delete, ?_, hchanges.other, rfl, rfl⟩
    rw [hchanges.own zoneName (sameZoneName_refl zoneName)]
    have hdrop : dropsEntry soft s.cache.disk path = true := by
      unfold dropsEntry
      cases soft with
      | false => rfl
      | true =>
        have hnone : s.cache.disk path = none := by
          by_contra hne
          exact hkeep ⟨rfl, hne⟩
        rw [hnone]
        rfl
    refine List.filter_congr fun rec _ => decide_eq_decide.mpr ?_
    rw [List.mem_singleton]
    refine not_congr ⟨fun hp => ⟨hp, ?_⟩, fun hp => hp.1⟩
    rw [hp, hdrop]

theorem dropsEntry_settle (h : p ≠ path) (soft' : Bool) (c : FileCache) :
    dropsEntry soft (settle L soft' path c).disk p = dropsEntry soft c.disk p := by
  unfold dropsEntry
  rw [settle_disk_other h]

/-- The first turn and the others drop their entries one after the other. -/
theorem LoopLeaves.cons {s1 s' : Pilot} (hpath : path ∉ paths)
    (hturn : LoopLeaves N L soft zoneName [path] s s1) (h : LoopLeaves N L soft zoneName paths s1 s') :
    LoopLeaves N L soft zoneName (path :: paths) s s' := by
  have hcache : s1.cache = settle L soft path s.cache := hturn.cache
  refine ⟨by rw [h.cache, hcache, List.foldl_cons], h.index, ?_,
    fun z hz => (h.other z hz).trans (hturn.other z hz), h.metrics.trans hturn.metrics,
    h.ctx.trans hturn.ctx⟩
  rw [h.own, hturn.own, List.filter_filter]
  refine List.filter_congr fun rec _ => ?_
  rw [← Bool.decide_and, decide_eq_decide, List.mem_singleton, List.mem_cons]
  have hdrop : rec.path ∈ paths →
      (dropsEntry soft s1.cache.disk rec.path = dropsEntry soft s.cache.disk rec.path) := by
    intro hp
    rw [hcache, dropsEntry_settle (fun h : rec.path = path => hpath (h ▸ hp))]
  constructor
  · rintro ⟨h1, h2⟩ ⟨hp | hp, hd⟩
    · exact h2 ⟨hp, hd⟩
    · exact h1 ⟨hp, by rw [hdrop hp]; exact hd⟩
  · intro h
    refine ⟨fun ⟨hp, hd⟩ => h ⟨Or.inr hp, ?_⟩, fun ⟨hp, hd⟩ => h ⟨Or.inl hp, hd⟩⟩
    rw [← hdrop hp]
    exact hd

theorem succeeded_cons (soft : Bool) (calls : Nat → FileCalls) (disk : Disk) (k : Nat) (path : Bytes)
    (paths : List Bytes) : succeeded soft calls disk k (path :: paths) =
      (if disk path = none ∨ (soft = false ∧ (calls k).vanishes = true) then 0 else 1) +
        succeeded soft calls disk (k + 1) paths := by
  unfold succeeded
  rw [List.zipIdx_cons, List.countP_cons, Nat.add_comm]
  congr 1
  cases disk path with
  | none => rfl
  | some data => cases soft <;> cases (calls k).vanishes <;> rfl

theorem succeeded_congr {calls : Nat → FileCalls} {disk disk' : Disk}
    (h : ∀ q ∈ paths, disk' q = disk q) (k : Nat) :
    succeeded soft calls disk' k paths = succeeded soft calls disk k paths := by
  unfold succeeded
  refine List.countP_congr fun x hx => ?_
  have hmem : x.1 ∈ (paths.zipIdx k).map Prod.fst := List.mem_map_of_mem hx
  rw [List.zipIdx_map_fst] at hmem
  rw [h x.1 hmem]

/-- The loop over distinct paths, from what its turns leave. -/
theorem purgeTagged_loop (calls : Nat → FileCalls) (hindex : IndexOk N s.shm) (hn : paths.Nodup) (k : Nat)
    (hout : ∀ i p, paths[i]? = some p → FileOutcome L soft (calls (k + i)) (s.cache.disk p))
    (now : Int) (zoneName : Bytes) (count : Nat) :
    ∃ s', purgePaths (fun k => purgeTagged N L (calls k) now zoneName soft) k paths count s =
        (.ok, count + succeeded soft calls s.cache.disk k paths, s') ∧
      LoopLeaves N L soft zoneName paths s s' := by
  induction paths generalizing k count s with
  | nil =>
    refine ⟨s, rfl, rfl, hindex, ?_, fun _ _ => rfl, rfl, rfl⟩
    exact (List.filter_eq_self.mpr fun rec _ => decide_eq_true fun h => absurd h.1 List.not_mem_nil).symm
  | cons path paths ih =>
    obtain ⟨hpath, hn⟩ := List.nodup_cons.mp hn
    have hfirst : FileOutcome L soft (calls k) (s.cache.disk path) := hout 0 path rfl
    have hturn := purgeTagged_leaves (N := N) hindex now zoneName hfirst
    have hrc := congrArg Prod.fst (purgeTagged_outcome (s := s) N now zoneName hfirst)
    generalize hone : purgeTagged N L (calls k) now zoneName soft path s = turn at hturn hrc
    obtain ⟨rc, s1⟩ := turn
    simp only at hturn hrc
    -- the files behind the first one are as they were
    have hdisk : ∀ q ∈ paths, s1.cache.disk q = s.cache.disk q := by
      intro q hq
      have hcache : s1.cache = settle L soft path s.cache := hturn.cache
      rw [hcache, settle_disk_other (fun h : q = path => hpath (h ▸ hq))]
    have hrest : ∀ i q, paths[i]? = some q → FileOutcome L soft (calls (k + 1 + i)) (s1.cache.disk q) := by
      intro i q hq
      rw [hdisk q (List.mem_of_getElem? hq), Nat.add_assoc, Nat.add_comm 1 i]
      exact hout (i + 1) q hq
    rw [succeeded_cons, ← succeeded_congr hdisk (k + 1)]
    unfold purgePaths
    rw [hone]
    split at hrc
    · next hdeclined =>
      obtain ⟨s', hloop, hs'⟩ := ih hturn.index hn (k + 1) hrest count
      refine ⟨s', ?_, hturn.cons hpath hs'⟩
      rw [hrc, if_pos hdeclined, Nat.zero_add]
      exact hloop
    · next hpurged =>
      obtain ⟨s', hloop, hs'⟩ := ih hturn.index hn (k + 1) hrest (count + 1)
      refine ⟨s', ?_, hturn.cons hpath hs'⟩
      rw [hrc, if_neg hpurged, ← Nat.add_assoc]
      exact hloop

/-! ## The cache behind the loop -/

theorem settleAll_disk (hn : paths.Nodup) (c : FileCache) (p : Bytes) :
    (paths.foldl (fun c path => settle L soft path c) c).disk p =
      if p ∈ paths then (if soft then (c.disk p).map (expireData L) else none) else c.disk p := by
  induction paths generalizing c with
  | nil => rfl
  | cons path paths ih =>
    obtain ⟨hpath, hn⟩ := List.nodup_cons.mp hn
    rw [List.foldl_cons, ih hn]
    by_cases hp : p = path
    · subst hp
      rw [if_neg hpath, if_pos List.mem_cons_self, settle_disk, Function.update_self]
    · rw [settle_disk_other hp]
      simp only [List.mem_cons, hp, false_or]

/-- A soft purge writes the validity of nodes and nothing else beside the files. -/
theorem settle_soft (L : HeaderLayout) (path : Bytes) (c : FileCache) :
    (settle L true path c).tree = c.tree ∧ (settle L true path c).size = c.size ∧
      ∀ a, (settle L true path c).node a =
        if c.disk path ≠ none ∧ c.pathNode path = some a ∧ (c.node a).present = true then
          (c.node a).expired
        else c.node a := by
  unfold settle
  cases c.disk path with
  | none => exact ⟨rfl, rfl, fun a => (if_neg fun h => h.1 rfl).symm⟩
  | some data =>
    have hnode : (c.setFile path (some (expireData L data))).pathNode path = c.pathNode path := rfl
    simp only [if_true]
    unfold expirePath
    rw [hnode]
    cases c.pathNode path with
    | none => exact ⟨rfl, rfl, fun a => (if_neg fun h => nomatch h.2.1).symm⟩
    | some b =>
      have hpresent : (c.setFile path (some (expireData L data))).node b = c.node b := rfl
      simp only [hpresent]
      split
      · next hb =>
        refine ⟨rfl, rfl, fun a => ?_⟩
        show Function.update c.node b (c.node b).expired a = _
        by_cases hab : a = b
        · subst hab
          rw [Function.update_self, if_pos ⟨Option.some_ne_none data, rfl, hb⟩]
        · rw [Function.update_of_ne hab, if_neg fun h => hab (Option.some.inj h.2.1).symm]
      · next hb =>
        refine ⟨rfl, rfl, fun a => (if_neg fun h => ?_).symm⟩
        rw [Option.some.inj h.2.1] at hb
        exact hb h.2.2

/-- A node is named by one of the paths whose file is there. -/
def NamedBy (c : FileCache) (paths : List Bytes) (a : Addr) : Prop :=
  ∃ p ∈ paths, c.disk p ≠ none ∧ c.pathNode p = some a ∧ (c.node a).present = true

theorem settleAll_soft (hn : paths.Nodup) (c : FileCache) :
    let c' := paths.foldl (fun c path => settle L true path c) c
    c'.tree = c.tree ∧ c'.size = c.size ∧
      ∀ a, (NamedBy c paths a → c'.node a = (c.node a).expired) ∧
        (¬ NamedBy c paths a → c'.node a = c.node a) := by
  induction paths generalizing c with
  | nil =>
    refine ⟨rfl, rfl, fun a => ⟨?_, fun _ => rfl⟩⟩
    rintro ⟨p, hp, -⟩
    exact absurd hp List.not_mem_nil
  | cons path paths ih =>
    obtain ⟨hpath, hn⟩ := List.nodup_cons.mp hn
    obtain ⟨htree, hsize, hnode⟩ := settle_soft L path c
    obtain ⟨htree', hsize', hnode'⟩ := ih hn (settle L true path c)
    refine ⟨htree'.trans htree, hsize'.trans hsize, fun a => ?_⟩
    obtain ⟨hin, hout⟩ := hnode' a
    have hpresent : ((settle L true path c).node a).present = (c.node a).present := by
      rw [hnode]
      split <;> rfl
    -- what the rest of the paths name is not affected by the first one
    have hrest : NamedBy (settle L true path c) paths a ↔ NamedBy c paths a := by
      unfold NamedBy FileCache.pathNode
      rw [htree, hpresent]
      refine exists_congr fun p => and_congr_right fun hp => ?_
      rw [settle_disk_other (fun h : p = path => hpath (h ▸ hp))]
    rw [hrest] at hin hout
    rw [List.foldl_cons]
    have hcons : NamedBy c (path :: paths) a ↔
        (c.disk path ≠ none ∧ c.pathNode path = some a ∧ (c.node a).present = true) ∨
          NamedBy c paths a := by
      unfold NamedBy
      simp only [List.mem_cons, exists_eq_or_imp]
    rw [hcons]
    by_cases hrest' : NamedBy c paths a
    · refine ⟨fun _ => ?_, fun h => absurd (Or.inr hrest') h⟩
      rw [hin hrest', hnode]
      split <;> rfl
    · rw [hout hrest', hnode]
      refine ⟨fun h => if_pos (h.resolve_right hrest'), fun h => if_neg fun h' => h (Or.inl h')⟩

/-! ## The request -/

/-- The zone of the request can answer a tag purge. -/
structure TagsReady (access : IndexAccess) (now : Int) (s : Pilot) (zoneName : Bytes) : Prop where
  configured : access.configured = true
  zone : access.zone = some zoneName
  reader : access.reader = true
  complete : (getZoneState now s.shm zoneName).bootstrapComplete = true

/-- Behind a loop that ends, a tag purge is accepted, whether it counts a file or
not. -/
theorem dispatchTags_accepted {s' : Pilot} {purged : Nat} (hready : TagsReady access r.now s zoneName)
    (hpaths : collectPathsByTags N r.pool.collect s.shm zoneName tags = some paths)
    (hloop : purgePaths (fun k => purgeTagged N L (r.calls k) r.now zoneName r.soft) 0 paths 0 s =
      (.ok, purged, s'))
    (hmetrics : s'.metrics = s.metrics) (hsame : s'.ctx = s.ctx)
    (hctx : s.ctx.isSome = true ∨ r.pool.ctx = true) :
    let result := dispatchTags N L access r tags s
    result.1 = .ok ∧ result.2.cache = s'.cache ∧ result.2.shm = s'.shm ∧
      result.2.reported .tag r.soft = s.reported .tag r.soft + purged ∧
      result.2.metrics = s.metrics.map fun m =>
        { m with
          purges := Pilot.addTo m.purges .tag r.soft 1
          purged := Pilot.addTo m.purged .tag r.soft purged } := by
  have hreported : s'.reported = s.reported := by
    unfold Pilot.reported
    rw [hsame]
  rw [← hsame] at hctx
  intro result
  have hresult : result = dispatchTags N L access r tags s := rfl
  unfold dispatchTags indexPurge at hresult
  simp only [hready.configured, hready.zone, hready.reader, hready.complete, hpaths, hloop,
    Bool.not_true, Bool.false_eq_true, if_false] at hresult
  obtain ⟨hcount, -, hadd⟩ := Pilot.recordPurge_report .tag r.soft purged hctx
  cases purged with
  | zero =>
    have hreason : (s'.setDeclineReason r.pool .notFound).declineReason = .notFound :=
      (Pilot.declineReason_set r.pool .notFound s' (by decide)).mpr hctx
    have hmetrics' : (s'.setDeclineReason r.pool .notFound).metrics = s.metrics :=
      (congrArg Prod.fst (Pilot.setDeclineReason_report r.pool .notFound s')).trans hmetrics
    simp only [Nat.lt_irrefl, if_false, hreason, if_true] at hresult
    rw [hresult]
    refine ⟨rfl, by simp, by simp, ?_, ?_⟩
    · rw [Pilot.recordPurgeRequest_reported, Pilot.setDeclineReason_reported, hreported]
      rfl
    · show ((s'.setDeclineReason r.pool .notFound).metrics.map fun m =>
        { m with purges := Pilot.addTo m.purges .tag r.soft 1 }) = _
      rw [hmetrics']
      simp only [Pilot.addTo_zero]
  | succ purged =>
    simp only [Nat.succ_pos, if_true] at hresult
    rw [hresult]
    refine ⟨rfl, by simp, by simp, ?_, ?_⟩
    · rw [Pilot.recordPurgeRequest_reported, Pilot.setResponsePath_reported, hcount, hreported]
    · show ((((s'.recordPurge r.pool .tag r.soft (purged + 1)).setResponsePath r.pool
        .reusedPersistedIndex).metrics).map fun m =>
          { m with purges := Pilot.addTo m.purges .tag r.soft 1 }) = _
      rw [Pilot.setResponsePath_metrics, hadd, hmetrics, Option.map_map]
      rfl

/-- An entry carries one of the tags. -/
def Record.Carries (rec : Record) (tags : List Bytes) : Prop := ∃ t ∈ tags, t ∈ rec.tags

instance (rec : Record) (tags : List Bytes) : Decidable (rec.Carries tags) :=
  inferInstanceAs (Decidable (∃ t ∈ tags, t ∈ rec.tags))

/-- What a hard tag purge leaves: no entry and no file of its tags, and everything else
of the index and of the disk. -/
structure HardTagPurge (zoneName : Bytes) (tags : List Bytes) (s s' : Pilot) : Prop where
  entries : recordsOf s'.shm zoneName =
    (recordsOf s.shm zoneName).filter fun rec => decide (¬ rec.Carries tags)
  zones : ∀ z, ¬ sameZoneName zoneName z = true → recordsOf s'.shm z = recordsOf s.shm z
  gone : ∀ p, Selected (recordsOf s.shm zoneName) tags p → s'.cache.disk p = none
  files : ∀ p, ¬ Selected (recordsOf s.shm zoneName) tags p → s'.cache.disk p = s.cache.disk p

/-- What a soft tag purge leaves: of the entries of its tags, those whose file is there;
these files and their nodes with no validity; and everything else as it was. -/
structure SoftTagPurge (L : HeaderLayout) (zoneName : Bytes) (tags : List Bytes) (s s' : Pilot) :
    Prop where
  entries : recordsOf s'.shm zoneName = (recordsOf s.shm zoneName).filter fun rec =>
    decide (¬ (rec.Carries tags ∧ s.cache.disk rec.path = none))
  zones : ∀ z, ¬ sameZoneName zoneName z = true → recordsOf s'.shm z = recordsOf s.shm z
  expired : ∀ p, Selected (recordsOf s.shm zoneName) tags p →
    s'.cache.disk p = (s.cache.disk p).map (expireData L) ∧
      ∀ data, s'.cache.disk p = some data → L.validSec (data.take L.size) = 0
  files : ∀ p, ¬ Selected (recordsOf s.shm zoneName) tags p → s'.cache.disk p = s.cache.disk p
  node : ∀ p x, Selected (recordsOf s.shm zoneName) tags p → s.cache.disk p ≠ none →
    Names s.cache p x → s'.cache.node x.addr = (s.cache.node x.addr).expired
  nodes : ∀ a, (∀ p x, Selected (recordsOf s.shm zoneName) tags p → s.cache.disk p ≠ none →
    Names s.cache p x → x.addr ≠ a) → s'.cache.node a = s.cache.node a
  tree : s'.cache.tree = s.cache.tree
  size : s'.cache.size = s.cache.size

/-- The paths of the tags are those of the entries that carry one. -/
theorem selected_path (hindex : IndexOk N s.shm) {rec : Record} (hrec : rec ∈ recordsOf s.shm zoneName) :
    Selected (recordsOf s.shm zoneName) tags rec.path ↔ rec.Carries tags := by
  unfold Selected Record.Carries
  constructor
  · rintro ⟨t, ht, rec', hrec', hmem, hpath⟩
    rw [List.inj_on_of_nodup_map (hindex.ok.recordsOf_paths zoneName) hrec' hrec hpath] at hmem
    exact ⟨t, ht, hmem⟩
  · rintro ⟨t, ht, hmem⟩
    exact ⟨t, ht, rec, hrec, hmem, rfl⟩

namespace LoopLeaves

/-- What is left of the disk. -/
theorem disk (h : LoopLeaves N L soft zoneName paths s s') (hn : paths.Nodup) (p : Bytes) :
    s'.cache.disk p =
      if p ∈ paths then (if soft then (s.cache.disk p).map (expireData L) else none)
      else s.cache.disk p := by
  rw [h.cache, settleAll_disk hn]

theorem files (h : LoopLeaves N L soft zoneName paths s s') (hn : paths.Nodup)
    (hmem : ∀ p, p ∈ paths ↔ Selected (recordsOf s.shm zoneName) tags p) (p : Bytes)
    (hp : ¬ Selected (recordsOf s.shm zoneName) tags p) : s'.cache.disk p = s.cache.disk p := by
  rw [h.disk hn, if_neg (mt (hmem p).mp hp)]

theorem entries (h : LoopLeaves N L soft zoneName paths s s') (hindex : IndexOk N s.shm)
    (hmem : ∀ p, p ∈ paths ↔ Selected (recordsOf s.shm zoneName) tags p) :
    recordsOf s'.shm zoneName = (recordsOf s.shm zoneName).filter fun rec =>
      decide (¬ (rec.Carries tags ∧ dropsEntry soft s.cache.disk rec.path = true)) := by
  rw [h.own]
  refine List.filter_congr fun rec hrec => ?_
  rw [decide_eq_decide, hmem, selected_path hindex hrec]

/-- A hard loop over the paths of the tags. -/
theorem hardPurge (h : LoopLeaves N L false zoneName paths s s') (hindex : IndexOk N s.shm)
    (hn : paths.Nodup) (hmem : ∀ p, p ∈ paths ↔ Selected (recordsOf s.shm zoneName) tags p) :
    HardTagPurge zoneName tags s s' := by
  refine ⟨?_, h.other, fun p hp => ?_, h.files hn hmem⟩
  · rw [h.entries hindex hmem]
    refine List.filter_congr fun rec _ => ?_
    simp [dropsEntry]
  · rw [h.disk hn, if_pos ((hmem p).mpr hp), if_neg Bool.false_ne_true]

/-- A soft loop over the paths of the tags, whose files have whole headers. -/
theorem softPurge (h : LoopLeaves N L true zoneName paths s s') (hindex : IndexOk N s.shm)
    (htree : NginxTree s.cache.tree) (hn : paths.Nodup)
    (hmem : ∀ p, p ∈ paths ↔ Selected (recordsOf s.shm zoneName) tags p)
    (hlen : ∀ p ∈ paths, ∀ data, s.cache.disk p = some data → (data.take L.size).length = L.size) :
    SoftTagPurge L zoneName tags s s' := by
  have hexpired : ∀ p, Selected (recordsOf s.shm zoneName) tags p →
      s'.cache.disk p = (s.cache.disk p).map (expireData L) := by
    intro p hp
    rw [h.disk hn, if_pos ((hmem p).mpr hp), if_pos rfl]
  obtain ⟨htree', hsize', hnode'⟩ := settleAll_soft (L := L) hn s.cache
  rw [← h.cache] at htree' hsize' hnode'
  refine ⟨?_, h.other, fun p hp => ⟨hexpired p hp, fun data hdata => ?_⟩, h.files hn hmem, ?_, ?_,
    htree', hsize'⟩
  · rw [h.entries hindex hmem]
    refine List.filter_congr fun rec _ => ?_
    simp [dropsEntry]
  · rw [hexpired p hp] at hdata
    obtain ⟨old, hold, rfl⟩ := Option.map_eq_some_iff.mp hdata
    have hwhole := hlen p ((hmem p).mpr hp) old hold
    unfold expireData
    rw [List.take_left' (L.length_expire _ hwhole), L.validSec_expire _ hwhole]
  · intro p x hp hsome hx
    refine (hnode' x.addr).1 ⟨p, (hmem p).mpr hp, hsome, ?_, hx.present⟩
    exact (pathNode_eq_some htree).mpr ⟨x, hx.member, hx.key, rfl⟩
  · intro a hno
    refine (hnode' a).2 ?_
    rintro ⟨p, hp, hsome, hpath, hpresent⟩
    obtain ⟨x, hx, hkey, rfl⟩ := (pathNode_eq_some htree).mp hpath
    exact hno p x ((hmem p).mp hp) hsome ⟨hx, hkey, hpresent⟩ rfl

end LoopLeaves

/-- A tag purge in a ready zone, each of whose files ends with success or is missing: it
works through the paths of its tags, each once; it is accepted, and counts the files
whose purge succeeded; and it leaves what its mode says. -/
theorem tag_purge_outcome (N : Nginx) (L : HeaderLayout) (access : IndexAccess) (r : PurgeRequest)
    (tags : List Bytes) (zoneName : Bytes) (s : Pilot) (hready : TagsReady access r.now s zoneName)
    (hindex : IndexOk N s.shm) (htree : NginxTree s.cache.tree)
    (hpool : ∀ site, r.pool.collect site = true) (hctx : s.ctx.isSome = true ∨ r.pool.ctx = true) :
    ∃ paths : List Bytes, paths.Nodup ∧
      (∀ p, p ∈ paths ↔ Selected (recordsOf s.shm zoneName) tags p) ∧
      ((∀ k p, paths[k]? = some p → FileOutcome L r.soft (r.calls k) (s.cache.disk p)) →
        let result := dispatchTags N L access r tags s
        result.1 = .ok ∧ IndexOk N result.2.shm ∧
          result.2.reported .tag r.soft =
            s.reported .tag r.soft + succeeded r.soft r.calls s.cache.disk 0 paths ∧
          (r.soft = false → HardTagPurge zoneName tags s result.2) ∧
          (r.soft = true → SoftTagPurge L zoneName tags s result.2)) := by
  have hfull : r.pool.collect = fun _ => true := funext hpool
  obtain ⟨paths, hpaths⟩ := collectPathsByTags_full hindex zoneName tags
  have hmem : ∀ p, p ∈ paths ↔ Selected (recordsOf s.shm zoneName) tags p :=
    fun p => hindex.mem_collectTags hpaths
  have hn : paths.Nodup := by
    rw [collectPathsByTags_eq hindex.ok] at hpaths
    rw [tagQuery_some (hindex.paths zoneName) hpaths]
    exact nodup_pushAll List.nodup_nil
  rw [← hfull] at hpaths
  refine ⟨paths, hn, hmem, fun hout => ?_⟩
  obtain ⟨s', hloop, hleaves⟩ := purgeTagged_loop (N := N) (s := s) r.calls hindex hn 0
    (fun i p hp => by rw [Nat.zero_add]; exact hout i p hp) r.now zoneName 0
  rw [Nat.zero_add] at hloop
  obtain ⟨hok, hcache, hshm, hreported, -⟩ :=
    dispatchTags_accepted hready hpaths hloop hleaves.metrics hleaves.ctx hctx
  intro result
  refine ⟨hok, by rw [hshm]; exact hleaves.index, hreported, fun hhard => ?_, fun hsoft => ?_⟩
  · rw [hhard] at hleaves
    obtain ⟨hentries, hzones, hgone, hfiles⟩ := hleaves.hardPurge hindex hn hmem
    rw [← hshm] at hentries hzones
    rw [← hcache] at hgone hfiles
    exact ⟨hentries, hzones, hgone, hfiles⟩
  · rw [hsoft] at hleaves hout
    have hlen : ∀ p ∈ paths, ∀ data, s.cache.disk p = some data →
        (data.take L.size).length = L.size := by
      intro p hp data hdata
      obtain ⟨k, hk⟩ := List.mem_iff_getElem?.mp hp
      exact ((hout k p hk).2 data hdata).2.2.1
    obtain ⟨hentries, hzones, hexpired, hfiles, hnode, hnodes, htree', hsize'⟩ :=
      hleaves.softPurge hindex htree hn hmem hlen
    rw [← hshm] at hentries hzones
    rw [← hcache] at hexpired hfiles hnode hnodes htree' hsize'
    exact ⟨hentries, hzones, hexpired, hfiles, hnode, hnodes, htree', hsize'⟩

/-- A ready zone in which the file `a` carries the tag `t`. -/
def taggedState : Pilot :=
  { variantState with
    shm := (setZoneState true 2 [122] ⟨true, 2, 2⟩
      (runStore .reference [.upsert (fun _ => true) 1 [122] [97] [107] 1 1 [[116]]])).2 }

theorem tag_purge_outcome_sample :
    let result := dispatchTags .reference .reference sampleAccess (samplePurge false) [[116]] taggedState
    result.1 = .ok ∧ HardTagPurge [122] [[116]] taggedState result.2 := by
  have hindex : IndexOk .reference taggedState.shm := (runStore_indexOk .reference (by decide)).setZoneState
  have htree : NginxTree taggedState.cache.tree :=
    ⟨fun _ hx => absurd hx List.not_mem_nil, List.Pairwise.nil, List.nodup_nil⟩
  obtain ⟨paths, -, -, h⟩ := tag_purge_outcome .reference .reference sampleAccess (samplePurge false)
    [[116]] [122] taggedState ⟨rfl, rfl, rfl, by decide +kernel⟩ hindex htree (fun _ => rfl) (Or.inr rfl)
  obtain ⟨hok, -, -, hhard, -⟩ := h fun _ _ _ => ⟨rfl, fun _ => rfl⟩
  exact ⟨hok, hhard rfl⟩

end CachePilot
