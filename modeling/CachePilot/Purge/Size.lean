import CachePilot.Purge.Counters
import CachePilot.Purge.Node
import Mathlib.Algebra.BigOperators.Group.List.Basic
import Mathlib.Algebra.Order.BigOperators.Group.List
import Mathlib.Data.List.Chain

/-!
# The size of the cache

nginx keeps the size of a cache as a number beside its nodes, each of which has a size
of its own. A purge writes both in one place, `mark_node_deleted`; whatever else it
writes has no size.

Results:
* `protocolHandler_writes`: a purge request is a sequence of such writes;
* `purges_keep_size`: over every sequence of purge requests the size is the sum of the
  sizes of the nodes, and no subtraction takes it below zero.
-/

namespace CachePilot
open NgxString SearchTree

/-! ## The account -/

namespace FileCache

/-- The nodes of the cache. -/
def nodes (c : FileCache) : List Addr := (inorder c.tree).map CacheTreeNode.addr

/-- What the sizes of the nodes add up to. -/
def total (c : FileCache) : Int := (c.nodes.map fun a => (c.node a).fsSize).sum

end FileCache

/-- The size of a cache is the sum of the sizes of its nodes, none of which is
negative. -/
structure Balanced (c : FileCache) : Prop where
  distinct : c.nodes.Nodup
  nonneg : ∀ a ∈ c.nodes, 0 ≤ (c.node a).fsSize
  size : c.size = c.total

/-- One write to a cache: a node is marked deleted, or something is written that has no
size. Before a purge, nginx may link a node without a size, for a key that it does not
know. -/
inductive CacheWrite : FileCache → FileCache → Prop
  | marked {c : FileCache} {a : Addr} : a ∈ c.nodes → CacheWrite c (markNodeDeleted c a)
  | kept {c c' : FileCache} : c'.tree = c.tree → c'.size = c.size →
    (∀ a, (c'.node a).fsSize = (c.node a).fsSize) → CacheWrite c c'
  | linked {c c' : FileCache} {a : Addr} : a ∉ c.nodes → c'.nodes.Perm (a :: c.nodes) →
    c'.size = c.size → (c'.node a).fsSize = 0 →
    (∀ b ≠ a, (c'.node b).fsSize = (c.node b).fsSize) → CacheWrite c c'

/-- A sequence of writes. -/
abbrev Writes : FileCache → FileCache → Prop := Relation.ReflTransGen CacheWrite

/-- The caches that purge requests leave, one after the other, whatever they find in
the index and in the metrics zone. The file that a request has opened is one of the
cache. -/
inductive PurgeRun (N : Nginx) (L : HeaderLayout) (c : FileCache) : FileCache → Prop
  | start : PurgeRun N L c c
  | request {c' : FileCache} (access : IndexAccess) (call : PurgeCall) (s : Pilot) :
    PurgeRun N L c c' → s.cache = c' → (∀ o, call.opened = .opened o → o.node ∈ c'.nodes) →
    PurgeRun N L c (protocolHandler N L access call s).state.cache
  | linked {c' c'' : FileCache} {a : Addr} : PurgeRun N L c c' → a ∉ c'.nodes →
    c''.nodes.Perm (a :: c'.nodes) → c''.size = c'.size → (c''.node a).fsSize = 0 →
    (∀ b ≠ a, (c''.node b).fsSize = (c'.node b).fsSize) → PurgeRun N L c c''

/-! ## One write -/

variable {c c' c'' : FileCache} {a : Addr}

theorem markNodeDeleted_fsSize (c : FileCache) (a b : Addr) :
    ((markNodeDeleted c a).node b).fsSize = if b = a then 0 else (c.node b).fsSize := by
  show (Function.update c.node a _ b).fsSize = _
  by_cases h : b = a
  · subst h
    rw [Function.update_self, if_pos rfl]
  · rw [Function.update_of_ne h, if_neg h]

/-- The marked node is taken out of the sum. -/
theorem total_markNodeDeleted (hn : c.nodes.Nodup) (ha : a ∈ c.nodes) :
    (markNodeDeleted c a).total = c.total - (c.node a).fsSize := by
  have hsplit : ∀ f : Addr → Int, (c.nodes.map f).sum = f a + ((c.nodes.erase a).map f).sum :=
    fun f => (List.sum_map_erase f ha).symm
  have hrest : ((c.nodes.erase a).map fun b => ((markNodeDeleted c a).node b).fsSize) =
      (c.nodes.erase a).map fun b => (c.node b).fsSize := by
    refine List.map_congr_left fun b hb => ?_
    rw [markNodeDeleted_fsSize, if_neg]
    rintro rfl
    exact hn.not_mem_erase hb
  have hnodes : (markNodeDeleted c a).nodes = c.nodes := rfl
  unfold FileCache.total
  rw [hnodes, hsplit, hrest, hsplit fun b => (c.node b).fsSize, markNodeDeleted_fsSize, if_pos rfl]
  omega

namespace CacheWrite

/-- A write keeps the account, and the size does not grow. -/
theorem balanced (h : CacheWrite c c') (hb : Balanced c) : Balanced c' ∧ c'.size ≤ c.size := by
  cases h with
  | @marked a ha =>
    have hsize : (markNodeDeleted c a).size = c.size - (c.node a).fsSize := rfl
    refine ⟨⟨hb.distinct, fun b hmem => ?_, ?_⟩, ?_⟩
    · rw [markNodeDeleted_fsSize]
      split
      · exact le_refl 0
      · exact hb.nonneg b hmem
    · rw [hsize, total_markNodeDeleted hb.distinct ha, hb.size]
    · have hnonneg := hb.nonneg a ha
      rw [hsize]
      omega
  | kept htree hsize hnode =>
    have hnodes : c'.nodes = c.nodes := by
      unfold FileCache.nodes
      rw [htree]
    refine ⟨⟨by rw [hnodes]; exact hb.distinct, fun b hmem => ?_, ?_⟩, le_of_eq hsize⟩
    · rw [hnode]
      exact hb.nonneg b (hnodes ▸ hmem)
    · unfold FileCache.total
      simp only [hnodes, hnode]
      exact hsize.trans hb.size
  | @linked _ a hnew hperm hsize hzero hnode =>
    have hother : ∀ b ∈ c.nodes, (c'.node b).fsSize = (c.node b).fsSize := by
      intro b hmem
      exact hnode b fun h => hnew (h ▸ hmem)
    refine ⟨⟨?_, fun b hmem => ?_, ?_⟩, le_of_eq hsize⟩
    · exact hperm.nodup_iff.mpr (List.nodup_cons.mpr ⟨hnew, hb.distinct⟩)
    · rcases List.mem_cons.mp (hperm.mem_iff.mp hmem) with rfl | hmem
      · exact le_of_eq hzero.symm
      · rw [hother b hmem]
        exact hb.nonneg b hmem
    · have hsum : c'.total = c.total := by
        unfold FileCache.total
        rw [(hperm.map _).sum_eq, List.map_cons, List.sum_cons, hzero, zero_add,
          List.map_congr_left hother]
      rw [hsize, hb.size, hsum]

/-- Nodes stay linked. -/
theorem mem_nodes (h : CacheWrite c c') (ha : a ∈ c.nodes) : a ∈ c'.nodes := by
  cases h with
  | marked _ => exact ha
  | kept htree _ _ =>
    unfold FileCache.nodes
    rw [htree]
    exact ha
  | linked _ hperm _ _ _ => exact hperm.mem_iff.mpr (List.mem_cons_of_mem _ ha)

end CacheWrite

namespace Writes

theorem single (h : CacheWrite c c') : Writes c c' := Relation.ReflTransGen.single h

theorem refl (c : FileCache) : Writes c c := Relation.ReflTransGen.refl

theorem trans (h : Writes c c') (h' : Writes c' c'') : Writes c c'' := Relation.ReflTransGen.trans h h'

/-- What has no size can be written in one go. -/
theorem kept (htree : c'.tree = c.tree) (hsize : c'.size = c.size)
    (hnode : ∀ a, (c'.node a).fsSize = (c.node a).fsSize) : Writes c c' :=
  single (.kept htree hsize hnode)

theorem mem_nodes (h : Writes c c') (ha : a ∈ c.nodes) : a ∈ c'.nodes := by
  induction h with
  | refl => exact ha
  | tail _ hw ih => exact hw.mem_nodes ih

theorem balanced (h : Writes c c') (hb : Balanced c) : Balanced c' ∧ c'.size ≤ c.size := by
  induction h with
  | refl => exact ⟨hb, le_refl _⟩
  | tail _ hw ih =>
    obtain ⟨hb', hle⟩ := ih
    obtain ⟨hb'', hle'⟩ := hw.balanced hb'
    exact ⟨hb'', hle'.trans hle⟩

end Writes

theorem Balanced.size_nonneg (hb : Balanced c) : 0 ≤ c.size := by
  rw [hb.size]
  refine List.sum_nonneg fun x hx => ?_
  obtain ⟨a, ha, rfl⟩ := List.mem_map.mp hx
  exact hb.nonneg a ha

/-! ## One file -/

variable {N : Nginx} {L : HeaderLayout} {access : IndexAccess} {r : PurgeRequest} {s : Pilot}
  {call : PurgeCall} {o : OpenedCache}

theorem lookupNode_mem {key : Bytes} {t : BinaryTree CacheTreeNode} (h : lookupNode key t = some a) :
    a ∈ (inorder t).map CacheTreeNode.addr := by
  induction t with
  | nil => exact nomatch h
  | node fcn l r ihl ihr =>
    unfold lookupNode at h
    simp only at h
    rw [inorder_node, List.map_append, List.mem_append, List.map_cons, List.mem_cons]
    split at h
    · exact Or.inl (ihl h)
    · split at h
      · exact Or.inr (Or.inr (ihr h))
      · split at h
        · exact Or.inr (Or.inl (Option.some.inj h).symm)
        · split at h
          · exact Or.inl (ihl h)
          · exact Or.inr (Or.inr (ihr h))

theorem pathNode_mem {path : Bytes} (h : c.pathNode path = some a) : a ∈ c.nodes := by
  obtain ⟨key, -, hnode⟩ := Option.bind_eq_some_iff.mp h
  exact lookupNode_mem hnode

theorem markPath_writes (path : Bytes) (c : FileCache) : Writes c (markPath path c) := by
  unfold markPath
  cases hnode : c.pathNode path with
  | none => exact .refl c
  | some a =>
    show Writes c (if (c.node a).present = true then markNodeDeleted c a else c)
    split
    · exact .single (.marked (pathNode_mem hnode))
    · exact .refl c

theorem deleteCacheFile_writes (calls : FileCalls) (path : Bytes) (c : FileCache) :
    Writes c (deleteCacheFile calls path c).2 := by
  rw [deleteCacheFile_eq]
  split
  · exact .refl c
  · split
    · exact .refl c
    · split
      · exact markPath_writes path c
      · exact (markPath_writes path c).trans (.kept rfl rfl fun _ => rfl)

theorem setNode_writes {n : CacheNode} (h : n.fsSize = (c.node a).fsSize) :
    Writes c (c.setNode a n) := by
  refine .kept rfl rfl fun b => ?_
  show (Function.update c.node a n b).fsSize = (c.node b).fsSize
  by_cases hb : b = a
  · subst hb
    rw [Function.update_self, h]
  · rw [Function.update_of_ne hb]

theorem softHeader_writes (L : HeaderLayout) (calls : FileCalls) (path : Bytes) (c : FileCache) :
    Writes c (softHeader L calls path c).2 := by
  obtain ⟨disk, h⟩ := softHeader_eq L calls path c
  rw [h]
  exact .kept rfl rfl fun _ => rfl

theorem softPath_writes (L : HeaderLayout) (calls : FileCalls) (path : Bytes) (c : FileCache) :
    Writes c (softPath L calls path c).2 := by
  have hheader := softHeader_writes L calls path c
  by_cases hok : (softHeader L calls path c).1 = .ok
  · rw [softPath_ok hok]
    refine hheader.trans ?_
    unfold expirePath
    split
    · split
      · exact setNode_writes rfl
      · exact .refl _
    · exact .refl _
  · rw [softPath_failed hok]
    exact hheader

theorem byPath_writes (L : HeaderLayout) (calls : FileCalls) (soft : Bool) (path : Bytes)
    (c : FileCache) : Writes c (byPath L calls soft path c).2 := by
  cases soft with
  | true => exact softPath_writes L calls path c
  | false => exact deleteCacheFile_writes calls path c

theorem deleteOpenedFile_writes (calls : FileCalls) (ho : o.node ∈ c.nodes) :
    Writes c (deleteOpenedFile calls o c).2 := by
  cases hp : (c.node o.node).present with
  | false => rw [deleteOpenedFile_gone hp]
  | true =>
    unfold deleteOpenedFile
    rw [hp]
    have hmark : Writes c (markNodeDeleted c o.node) := .single (.marked ho)
    cases calls.deletes with
    | false => exact hmark
    | true => exact hmark.trans (.kept rfl rfl fun _ => rfl)

theorem releaseUpdating_writes (o : OpenedCache) (s : Pilot) :
    Writes s.cache (releaseUpdating o s).cache := by
  unfold releaseUpdating
  simp only
  split
  · exact setNode_writes rfl
  · exact .refl _

/-! ## Loops and walks -/

theorem purgePaths_writes {one : Nat → Bytes → Pilot → NgxRc × Pilot}
    (hone : ∀ k path s, Writes s.cache (one k path s).2.cache) (k : Nat) (paths : List Bytes)
    (count : Nat) (s : Pilot) : Writes s.cache (purgePaths one k paths count s).2.2.cache :=
  purgePaths_relates (R := fun s s' => Writes s.cache s'.cache) (fun s => .refl s.cache)
    (fun _ _ _ h h' => h.trans h') hone k paths count s

theorem byIndexedPath_writes (N : Nginx) (L : HeaderLayout) (calls : FileCalls) (now : Int)
    (zoneName : Bytes) (soft : Bool) (path : Bytes) (s : Pilot) :
    Writes s.cache (byIndexedPath N L calls now zoneName soft path s).2.cache := by
  have h := congrArg Prod.snd (byIndexedPath_byPath N L calls now zoneName soft path s)
  simp only at h
  rw [h]
  exact byPath_writes L calls soft path s.cache

theorem purgeTagged_writes (N : Nginx) (L : HeaderLayout) (calls : FileCalls) (now : Int)
    (zoneName : Bytes) (soft : Bool) (path : Bytes) (s : Pilot) :
    Writes s.cache (purgeTagged N L calls now zoneName soft path s).2.cache := by
  have h := congrArg Prod.snd (purgeTagged_byPath N L calls now zoneName soft path s)
  simp only at h
  rw [h]
  exact byPath_writes L calls soft path s.cache

theorem walkTree_writes {calls : Nat → FileCalls} {soft : Bool}
    {selects : FileCalls → Bytes → Disk → Bool}
    {fileHandler : Nat → Bytes → Nat → FileCache → NgxRc × Nat × FileCache}
    (hh : Handles L calls soft selects fileHandler) (readable : Bool) (k : Nat)
    (listing : List Bytes) (purged : Nat) (c : FileCache) :
    Writes c (walkTree readable fileHandler k listing purged c).2.2 := by
  induction listing generalizing k purged c with
  | nil => exact .refl c
  | cons path listing ih =>
    unfold walkTree
    simp only [hh k path purged c]
    split
    · exact (byPath_writes L (calls k) soft path c).trans (ih (k + 1) _ _)
    · exact ih (k + 1) purged c

/-! ## Requests -/

theorem exactFanout_writes (N : Nginx) (L : HeaderLayout) (access : IndexAccess) (r : PurgeRequest)
    (soft : Bool) (o : OpenedCache) (s : Pilot) :
    Writes s.cache (exactFanout N L access r soft o s).2.2.cache := by
  have hcache := fanoutList_cache N access r s soft o
  rw [exactFanout_eq]
  generalize fanoutList N access r soft o s = result at hcache
  obtain ⟨list, s1⟩ := result
  simp only at hcache
  rw [← hcache]
  cases list with
  | none => exact .refl _
  | some list =>
    refine purgePaths_writes (fun k path s => ?_) 0 list.2 0 s1
    cases soft with
    | true => exact byPath_writes L (r.calls k) true path s.cache
    | false => exact byIndexedPath_writes N L (r.calls k) r.now list.1 false path s

theorem exactPurge_writes {opened : CacheOpen} (ho : ∀ o, opened = .opened o → o.node ∈ s.cache.nodes) :
    Writes s.cache (exactPurge N L access opened r s).2.cache := by
  unfold exactPurge
  cases opened with
  | declined =>
    simp only [Pilot.setDeclineReason_cache]
    exact .refl _
  | again => exact .refl _
  | error => exact .refl _
  | opened o =>
    have hdel := deleteOpenedFile_writes r.resolved (ho o rfl)
    simp only
    cases hd : deleteOpenedFile r.resolved o s.cache with | mk rc cache =>
    rw [hd] at hdel
    cases rc with
    | declined =>
      simp only [Pilot.setDeclineReason_cache]
      exact hdel
    | _ =>
      have hfan := exactFanout_writes N L access r false o
        (Pilot.recordPurgeRequest .exact false { s with cache := cache })
      dsimp only
      generalize exactFanout N L access r false o
        (Pilot.recordPurgeRequest .exact false { s with cache := cache }) = result at hfan
      obtain ⟨rc', fanned, s'⟩ := result
      have hfan' : Writes cache s'.cache := hfan
      have hrecord := releaseUpdating_writes o (recordExactPurge r.pool false fanned s')
      rw [recordExactPurge_cache] at hrecord
      cases rc' with
      | error => exact (hdel.trans hfan').trans (releaseUpdating_writes o s')
      | _ => exact (hdel.trans hfan').trans hrecord

theorem exactPurgeSoft_writes (opened : CacheOpen) :
    Writes s.cache (exactPurgeSoft N L access opened r s).2.cache := by
  unfold exactPurgeSoft
  cases opened with
  | declined =>
    simp only [Pilot.setDeclineReason_cache]
    exact .refl _
  | again => exact .refl _
  | error => exact .refl _
  | opened o =>
    simp only
    split
    · simp only [Pilot.setDeclineReason_cache]
      exact .refl _
    · have hheader := softHeader_writes L r.resolved o.name s.cache
      generalize softHeader L r.resolved o.name s.cache = result at hheader
      obtain ⟨rc, cache⟩ := result
      cases rc with
      | declined =>
        simp only [Pilot.setDeclineReason_cache]
        exact hheader
      | ok =>
        have hnode : Writes cache (cache.setNode o.node { cache.node o.node with validSec := 0 }) :=
          setNode_writes rfl
        have hfan := exactFanout_writes N L access r true o
          { s with cache := cache.setNode o.node { cache.node o.node with validSec := 0 } }
        simp only
        generalize exactFanout N L access r true o
          { s with cache := cache.setNode o.node { cache.node o.node with validSec := 0 } } = result
          at hfan
        obtain ⟨rc', fanned, s'⟩ := result
        have hbefore := (hheader.trans hnode).trans hfan
        have hrecord := releaseUpdating_writes o
          (recordExactPurge r.pool true fanned (s'.recordPurgeRequest .exact true))
        rw [recordExactPurge_cache, Pilot.recordPurgeRequest_cache] at hrecord
        cases rc' with
        | error => exact hbefore.trans (releaseUpdating_writes o s')
        | _ => exact hbefore.trans hrecord
      | _ => exact hheader

theorem handler_writes {opened : CacheOpen} {tagged purgeAll : Bool}
    (ho : ∀ o, opened = .opened o → o.node ∈ s.cache.nodes) :
    Writes s.cache (handler N L access opened tagged purgeAll r s).2.cache := by
  have hexact : Writes s.cache
      (if r.soft then exactPurgeSoft N L access opened r s else exactPurge N L access opened r s).2.cache := by
    split
    · exact exactPurgeSoft_writes opened
    · exact exactPurge_writes ho
  have hresult : Writes s.cache
      (if tagged then (NgxRc.ok, s)
      else if !purgeAll && !isPartial r.keys then
        if r.soft then exactPurgeSoft N L access opened r s else exactPurge N L access opened r s
      else (.ok, s)).2.cache := by
    split
    · exact .refl _
    · split
      · exact hexact
      · exact .refl _
  unfold handler
  simp only
  revert hresult
  generalize (if tagged then (NgxRc.ok, s)
      else if !purgeAll && !isPartial r.keys then
        if r.soft then exactPurgeSoft N L access opened r s else exactPurge N L access opened r s
      else (.ok, s)) = result
  intro hresult
  obtain ⟨rc, s'⟩ := result
  cases rc with
  | declined =>
    simp only
    split
    · exact hresult
    · exact hresult
  | _ => exact hresult

theorem partialFromIndex_writes (N : Nginx) (L : HeaderLayout) (access : IndexAccess)
    (r : PurgeRequest) (pre : Bytes) (s : Pilot) :
    Writes s.cache (partialFromIndex N L access r pre s).2.2.cache := by
  obtain ⟨-, hcache, -⟩ := keyIndexReady_eq access r.pool s
  unfold partialFromIndex
  generalize keyIndexReady access r.pool s = ready at hcache
  obtain ⟨z, s1⟩ := ready
  simp only at hcache
  rw [← hcache]
  cases z with
  | none => exact .refl _
  | some zoneName =>
    simp only
    split
    · exact .refl _
    · exact purgePaths_writes
        (fun k path s => byIndexedPath_writes N L (r.calls k) r.now zoneName r.soft path s) 0 _ 0 s1

theorem walkPartial_writes (L : HeaderLayout) (w : Walk) (soft : Bool) (keyPartial : Bytes)
    (c : FileCache) : Writes c (walkPartial L w soft keyPartial c).2.2 :=
  walkTree_writes (handles_prefixed L w.calls soft keyPartial) w.readable 0 w.listing 0 c

theorem partialPurge_writes (N : Nginx) (L : HeaderLayout) (access : IndexAccess) (w : Walk)
    (threads : Option Bool) (r : PurgeRequest) (s : Pilot) :
    Writes s.cache (partialPurge N L access w threads r s).2.cache := by
  unfold partialPurge
  cases keyPrefix r.pool r.keys with
  | none => exact .refl _
  | some pre =>
    have hindex := partialFromIndex_writes N L access r pre s
    simp only
    generalize partialFromIndex N L access r pre s = result at hindex
    obtain ⟨rc, purged, s1⟩ := result
    cases rc with
    | error => exact hindex
    | _ =>
      refine hindex.trans ?_
      dsimp only
      split
      · simp only [Pilot.recordPurgeRequest_cache, Pilot.recordKeyIndexWildcardHit_cache,
          Pilot.recordPurge_cache, Pilot.setResponsePath_cache]
        exact .refl _
      · split
        · exact .refl _
        · split
          · split
            · simp only [Pilot.setResponsePath_cache]
              exact .refl _
            · exact .refl _
          · rw [Pilot.setResponsePath_cache]
            have hwalk := walkPartial_writes L w r.soft (keyPartial r.keys) s1.cache
            generalize walkPartial L w r.soft (keyPartial r.keys) s1.cache = result at hwalk
            obtain ⟨rc', purged', cache⟩ := result
            cases rc' with
            | ok =>
              simp only [recordWildcardPurge_cache]
              exact hwalk
            | _ => exact hwalk

theorem indexPurge_writes (N : Nginx) (L : HeaderLayout) (access : IndexAccess) (r : PurgeRequest)
    (tags : List Bytes) (s : Pilot) : Writes s.cache (indexPurge N L access r tags s).2.cache := by
  have hdeclined : ∀ reason, Writes s.cache (s.setDeclineReason r.pool reason).cache := by
    intro reason
    rw [Pilot.setDeclineReason_cache]
  unfold indexPurge
  split
  · exact hdeclined _
  · cases access.zone with
    | none => exact hdeclined _
    | some zoneName =>
      simp only
      split
      · exact hdeclined _
      · split
        · exact hdeclined _
        · cases collectPathsByTags N r.pool.collect s.shm zoneName tags with
          | none => exact .refl _
          | some paths =>
            have hloop := purgePaths_writes (fun k path s =>
              purgeTagged_writes N L (r.calls k) r.now zoneName r.soft path s) 0 paths 0 s
            simp only
            generalize purgePaths (fun k => purgeTagged N L (r.calls k) r.now zoneName r.soft) 0 paths
              0 s = result at hloop
            obtain ⟨rc, purged, s1⟩ := result
            cases rc with
            | ok =>
              simp only
              split
              · simp only [Pilot.setResponsePath_cache, Pilot.recordPurge_cache]
                exact hloop
              · simp only [Pilot.setDeclineReason_cache]
                exact hloop
            | _ => exact hloop

theorem purgeAll_writes (L : HeaderLayout) (call : PurgeCall) (s : Pilot) :
    Writes s.cache (purgeAll L call s).2.cache := by
  have hwalk : Writes s.cache (walkAll L call.walk call.purge.soft s.cache).2.2 :=
    walkTree_writes (handles_all L call.walk.calls call.purge.soft) call.walk.readable 0
      call.walk.listing 0 s.cache
  unfold purgeAll
  generalize walkAll L call.walk call.purge.soft s.cache = result at hwalk
  obtain ⟨rc, purged, cache⟩ := result
  cases rc with
  | ok =>
    simp only [Pilot.recordPurgeRequest_cache, Pilot.recordPurge_cache]
    exact hwalk
  | _ => exact hwalk

theorem dispatchSpecial_writes (N : Nginx) (L : HeaderLayout) (access : IndexAccess) (call : PurgeCall)
    (s : Pilot) : Writes s.cache (dispatchSpecial N L access call s).state.cache := by
  have huntagged : Writes s.cache (dispatchUntagged N L access call s).state.cache := by
    unfold dispatchUntagged
    split
    · exact purgeAll_writes L call s
    · split
      · exact partialPurge_writes N L access call.walk call.threads call.request s
      · exact .refl _
  unfold dispatchSpecial
  split
  · split
    · exact .refl _
    · split
      · simp only
        rw [(dispatchTags_state access call.request s _).1]
        exact indexPurge_writes N L access call.request _ s
      · exact huntagged
    · exact huntagged
  · exact huntagged

/-- A purge request writes to the cache as a purge of single files does. -/
theorem protocolHandler_writes (N : Nginx) (L : HeaderLayout) (access : IndexAccess) (call : PurgeCall)
    (s : Pilot) (ho : ∀ o, call.opened = .opened o → o.node ∈ s.cache.nodes) :
    Writes s.cache (protocolHandler N L access call s).state.cache := by
  have hspecial := dispatchSpecial_writes N L access call s
  have hfinal : ∀ d : Dispatched, Writes s.cache d.state.cache →
      Writes s.cache (finalHandler N L access call d.ran d.failed d.state).state.cache :=
    fun d hd => hd.trans (handler_writes fun o h => hd.mem_nodes (ho o h))
  unfold protocolHandler
  simp only
  generalize dispatchSpecial N L access call s = d at hspecial
  split
  · split
    · exact hfinal d hspecial
    · have hwalk := walkPartial_writes L call.walk call.request.soft (keyPartial call.keys) d.state.cache
      generalize walkPartial L call.walk call.request.soft (keyPartial call.keys) d.state.cache = result
        at hwalk
      unfold partialCompletion
      split
      · exact hspecial.trans hwalk
      · split
        · simp only [recordWildcardPurge_cache]
          exact hspecial.trans hwalk
        · exact hspecial.trans hwalk
    · split
      · exact hspecial
      · exact hspecial
    · exact hspecial
  · exact hfinal d hspecial

/-! ## Sequences of requests -/

theorem PurgeRun.writes (h : PurgeRun N L c c') : Writes c c' := by
  induction h with
  | start => exact .refl c
  | request access call s _ hs ho ih =>
    subst hs
    exact ih.trans (protocolHandler_writes N L access call s ho)
  | linked _ hnew hperm hsize hzero hnode ih =>
    exact ih.trans (.single (.linked hnew hperm hsize hzero hnode))

/-- Over every sequence of purge requests the size of the cache stays the sum of the
sizes of its nodes and never grows, and none of the subtractions on the way takes it
below zero. -/
theorem purges_keep_size (N : Nginx) (L : HeaderLayout) (c c' : FileCache) (hbal : Balanced c)
    (hrun : PurgeRun N L c c') :
    Balanced c' ∧ c'.size ≤ c.size ∧
      ∃ trail, (c :: trail).IsChain CacheWrite ∧
        (c :: trail).getLast (List.cons_ne_nil c trail) = c' ∧
        ∀ x ∈ c :: trail, 0 ≤ x.size ∧ x.size ≤ c.size := by
  obtain ⟨hbal', hle⟩ := hrun.writes.balanced hbal
  obtain ⟨trail, hchain, hlast⟩ := List.exists_isChain_cons_of_relationReflTransGen hrun.writes
  refine ⟨hbal', hle, trail, hchain, hlast, fun x hx => ?_⟩
  have hall := hchain.induction (fun x => Balanced x ∧ x.size ≤ c.size) (c :: trail)
    (fun _ _ hw hx => ⟨(hw.balanced hx.1).1, (hw.balanced hx.1).2.trans hx.2⟩)
    (fun _ => ⟨hbal, le_refl _⟩)
  obtain ⟨hbx, hlex⟩ := hall x hx
  exact ⟨hbx.size_nonneg, hlex⟩

/-- A hard purge of the first node of the colliding cache. -/
def sampleFirst : PurgeCall :=
  { sampleCall true with headers := [], opened := .opened ⟨[97], 0, false, 0⟩ }

/-- A state with the colliding cache. -/
def collidingState : Pilot := { variantState with cache := collidingCache }

/-- The same file is purged twice. -/
theorem purges_keep_size_sample :
    let once := (protocolHandler .reference .reference sampleAccess sampleFirst collidingState).state
    let twice := (protocolHandler .reference .reference sampleAccess sampleFirst once).state
    Balanced twice.cache ∧ twice.cache.size ≤ collidingCache.size ∧
      ∃ trail, (collidingCache :: trail).IsChain CacheWrite ∧
        (collidingCache :: trail).getLast (List.cons_ne_nil _ trail) = twice.cache ∧
        ∀ x ∈ collidingCache :: trail, 0 ≤ x.size ∧ x.size ≤ collidingCache.size := by
  intro once twice
  have hopened : ∀ o, sampleFirst.opened = .opened o → o.node ∈ collidingCache.nodes := by
    rintro o ho
    cases ho
    exact List.mem_cons_self
  have honce : Writes collidingCache once.cache :=
    protocolHandler_writes .reference .reference sampleAccess sampleFirst collidingState hopened
  have hbal : Balanced collidingCache :=
    ⟨collidingTree_nginx.addrs, fun a _ => Int.one_nonneg, rfl⟩
  have hrun : PurgeRun .reference .reference collidingCache once.cache :=
    .request sampleAccess sampleFirst collidingState .start rfl hopened
  exact purges_keep_size .reference .reference collidingCache twice.cache hbal
    (.request sampleAccess sampleFirst once hrun rfl fun o ho => honce.mem_nodes (hopened o ho))

end CachePilot
