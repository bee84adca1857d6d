import CachePilot.Purge.Idempotent
import CachePilot.Purge.TagOutcome

/-!
# The writes of a purge request

A purge request, however it ends, is a sequence of writes of seven sorts: a file is
removed or its header expired, a node is marked deleted, expired or released, an entry is
dropped, or something is counted. What a request keeps is read off the single writes.

Results:
* `protocolHandler_steps`: the writes of a request;
* `PurgeSteps.files`, `PurgeSteps.entries`, `PurgeSteps.nodes`, `PurgeSteps.tallies`: what
  is left of the files, the index, the nodes and the counters.
-/

namespace CachePilot
open NgxString

/-! ## Writes -/

/-- No counter is smaller. -/
structure PurgeMetrics.Le (m m' : PurgeMetrics) : Prop where
  purges : ∀ type soft, m.purges type soft ≤ m'.purges type soft
  purged : ∀ type soft, m.purged type soft ≤ m'.purged type soft
  keyIndexExactFanout : m.keyIndexExactFanout ≤ m'.keyIndexExactFanout
  keyIndexWildcardHits : m.keyIndexWildcardHits ≤ m'.keyIndexWildcardHits

/-- The metrics zone is there or not, and its counters do not go back. -/
abbrev MetricsGrow (m m' : Option PurgeMetrics) : Prop := Option.Rel PurgeMetrics.Le m m'

/-- The counters do not go back, and those of purged files rise by what the request reports
on top of what it has reported. -/
structure Tallies (s s' : Pilot) : Prop where
  grow : MetricsGrow s.metrics s'.metrics
  purged : ∀ m m' : PurgeMetrics, s.metrics = some m → s'.metrics = some m' → ∀ type soft,
    m'.purged type soft + s.reported type soft = m.purged type soft + s'.reported type soft

/-- One write of a purge request: of its mode, in the zone of its location, to one of the
files that it may touch. -/
inductive PurgeStep (N : Nginx) (L : HeaderLayout) (soft : Bool) (zone : Option Bytes)
    (targets : Bytes → Prop) (s : Pilot) : Pilot → Prop
  | removed {path : Bytes} : soft = false → targets path →
    PurgeStep N L soft zone targets s { s with cache := s.cache.setFile path none }
  | expired {path data : Bytes} : soft = true → targets path → s.cache.disk path = some data →
    (data.take L.size).length = L.size →
    PurgeStep N L soft zone targets s { s with cache := s.cache.setFile path (some (expireData L data)) }
  | marked {a : Addr} : soft = false →
    PurgeStep N L soft zone targets s { s with cache := markNodeDeleted s.cache a }
  | zeroed {a : Addr} : soft = true → PurgeStep N L soft zone targets s
    { s with cache := s.cache.setNode a { s.cache.node a with validSec := 0 } }
  | released {a : Addr} : (s.cache.node a).present = false ∨ (s.cache.node a).validSec = 0 →
    PurgeStep N L soft zone targets s
      { s with cache := s.cache.setNode a { s.cache.node a with updating := false } }
  | dropped {now : Int} {zoneName path : Bytes} : zone = some zoneName → targets path →
    PurgeStep N L soft zone targets s (deleteIndexPath N now zoneName path s)
  | noted {s' : Pilot} : s'.cache = s.cache → s'.shm = s.shm → Tallies s s' →
    PurgeStep N L soft zone targets s s'

/-- A sequence of writes. -/
abbrev PurgeSteps (N : Nginx) (L : HeaderLayout) (soft : Bool) (zone : Option Bytes)
    (targets : Bytes → Prop) : Pilot → Pilot → Prop :=
  Relation.ReflTransGen (PurgeStep N L soft zone targets)

variable {N : Nginx} {L : HeaderLayout} {access : IndexAccess} {r : PurgeRequest} {s s' s'' : Pilot}
  {call : PurgeCall} {zoneName p : Bytes} {soft : Bool} {zone : Option Bytes}
  {targets : Bytes → Prop} {o : OpenedCache}

/-! ## What writes leave -/

theorem PurgeMetrics.Le.refl (m : PurgeMetrics) : m.Le m where
  purges _ _ := Nat.le_refl _
  purged _ _ := Nat.le_refl _
  keyIndexExactFanout := Nat.le_refl _
  keyIndexWildcardHits := Nat.le_refl _

theorem PurgeMetrics.Le.trans {m m' m'' : PurgeMetrics} (h : m.Le m') (h' : m'.Le m'') : m.Le m'' where
  purges type soft := (h.purges type soft).trans (h'.purges type soft)
  purged type soft := (h.purged type soft).trans (h'.purged type soft)
  keyIndexExactFanout := h.keyIndexExactFanout.trans h'.keyIndexExactFanout
  keyIndexWildcardHits := h.keyIndexWildcardHits.trans h'.keyIndexWildcardHits

namespace MetricsGrow

variable {m m' m'' : Option PurgeMetrics}

theorem refl (m : Option PurgeMetrics) : MetricsGrow m m := by
  cases m with
  | none => exact .none
  | some m => exact .some (.refl m)

theorem trans (h : MetricsGrow m m') (h' : MetricsGrow m' m'') : MetricsGrow m m'' := by
  cases h with
  | none =>
    cases h'
    exact .none
  | some h =>
    cases h' with
    | some h' => exact .some (h.trans h')

theorem map {change : PurgeMetrics → PurgeMetrics} (h : ∀ m : PurgeMetrics, m.Le (change m))
    (m : Option PurgeMetrics) :
    MetricsGrow m (m.map change) := by
  cases m with
  | none => exact .none
  | some m => exact .some (h m)

end MetricsGrow

namespace Tallies

theorem of_eq (hmetrics : s'.metrics = s.metrics) (hreported : s'.reported = s.reported) : Tallies s s' where
  grow := hmetrics ▸ .refl _
  purged m m' hm hm' type soft := by
    obtain rfl := Option.some.inj (hm.symm.trans (hmetrics ▸ hm'))
    rw [hreported]

theorem refl (s : Pilot) : Tallies s s := of_eq rfl rfl

theorem trans (h : Tallies s s') (h' : Tallies s' s'') : Tallies s s'' where
  grow := MetricsGrow.trans h.grow h'.grow
  purged m m'' hm hm'' type soft := by
    have hsome : ∃ m', s'.metrics = some m' := by
      have hgrow := h.grow
      rw [hm] at hgrow
      cases hs' : s'.metrics with
      | some m' => exact ⟨m', rfl⟩
      | none =>
        rw [hs'] at hgrow
        exact nomatch hgrow
    obtain ⟨m', hm'⟩ := hsome
    have hfirst := h.purged m m' hm hm' type soft
    have hsecond := h'.purged m' m'' hm' hm'' type soft
    omega

end Tallies

/-- A file that has been expired, once or more often: the validity in its header has been
zeroed that many times, and nothing else was written. -/
structure ExpiredTo (L : HeaderLayout) (d d' : Bytes) : Prop where
  header : L.size ≤ d.length
  bytes : ∃ n, d' = L.expire^[n + 1] (d.take L.size) ++ d.drop L.size
  length : d'.length = d.length
  validSec : L.validSec (d'.take L.size) = 0

/-- What a purge may make of a file: it is as it was, or a hard purge has removed it, or a
soft one has expired it. -/
def FileLeft (L : HeaderLayout) (soft : Bool) (data data' : Option Bytes) : Prop :=
  data' = data ∨ (soft = false ∧ data' = none) ∨
    soft = true ∧ ∃ d d', data = some d ∧ data' = some d' ∧ ExpiredTo L d d'

/-- What a purge may make of a node: it is as it was, but for marks that take it out of
the cache: deleted, expired, or released once it is one of them. -/
structure NodeLeft (n n' : CacheNode) : Prop where
  present : n'.present = true → n.present = true
  validSec : n'.validSec = n.validSec ∨ n'.validSec = 0
  updating : n'.updating = n.updating ∨ n'.updating = false ∧ (n'.present = false ∨ n'.validSec = 0)

namespace ExpiredTo

variable {d d' d'' : Bytes}

/-- A write of `soft_header`. -/
theorem expireData (hlen : (d.take L.size).length = L.size) : ExpiredTo L d (expireData L d) where
  header := by
    rw [List.length_take] at hlen
    exact hlen ▸ Nat.min_le_right _ _
  bytes := ⟨0, rfl⟩
  length := by
    have hsplit := congrArg List.length (List.take_append_drop L.size d)
    rw [List.length_append, hlen] at hsplit
    unfold CachePilot.expireData
    rw [List.length_append, L.length_expire _ hlen]
    exact hsplit
  validSec := by
    unfold CachePilot.expireData
    rw [List.take_left' (L.length_expire _ hlen), L.validSec_expire _ hlen]

/-- The header, and what is behind it. -/
theorem split (h : ExpiredTo L d d') :
    (∃ n, d'.take L.size = L.expire^[n + 1] (d.take L.size)) ∧ d'.drop L.size = d.drop L.size := by
  obtain ⟨n, hbytes⟩ := h.bytes
  have hlen : (L.expire^[n + 1] (d.take L.size)).length = L.size := by
    have hsum := congrArg List.length hbytes
    rw [h.length, List.length_append, List.length_drop] at hsum
    have hheader := h.header
    omega
  exact ⟨⟨n, by rw [hbytes, List.take_left' hlen]⟩, by rw [hbytes, List.drop_left' hlen]⟩

theorem trans (h : ExpiredTo L d d') (h' : ExpiredTo L d' d'') : ExpiredTo L d d'' where
  header := h.header
  bytes := by
    obtain ⟨⟨n, htake⟩, hdrop⟩ := h.split
    obtain ⟨m, hbytes⟩ := h'.bytes
    refine ⟨m + 1 + n, ?_⟩
    rw [hbytes, htake, hdrop, ← Function.iterate_add_apply]
    rfl
  length := h'.length.trans h.length
  validSec := h'.validSec

end ExpiredTo

theorem FileLeft.trans {data data' data'' : Option Bytes} (h : FileLeft L soft data data')
    (h' : FileLeft L soft data' data'') : FileLeft L soft data data'' := by
  rcases h with rfl | ⟨hs, rfl⟩ | ⟨hs, d, d1, hd, hd1, hexpired⟩
  · exact h'
  · rcases h' with rfl | ⟨-, rfl⟩ | ⟨-, d, d1, hd, -⟩
    · exact Or.inr (Or.inl ⟨hs, rfl⟩)
    · exact Or.inr (Or.inl ⟨hs, rfl⟩)
    · exact nomatch hd
  · rcases h' with rfl | h' | ⟨-, e, d2, he, hd2, hexpired'⟩
    · exact Or.inr (Or.inr ⟨hs, d, d1, hd, hd1, hexpired⟩)
    · exact Or.inr (Or.inl h')
    · obtain rfl := Option.some.inj (hd1.symm.trans he)
      exact Or.inr (Or.inr ⟨hs, d, d2, hd, hd2, hexpired.trans hexpired'⟩)

/-- What is behind the header stays. -/
theorem FileLeft.drop {data data' : Option Bytes} {d' : Bytes} (h : FileLeft L soft data data')
    (hd' : data' = some d') : ∃ d, data = some d ∧ d'.drop L.size = d.drop L.size := by
  subst hd'
  rcases h with heq | ⟨-, hnone⟩ | ⟨-, d, d1, hd, hd1, hexpired⟩
  · exact ⟨d', heq.symm, rfl⟩
  · exact nomatch hnone
  · obtain rfl := Option.some.inj hd1
    exact ⟨d, hd, hexpired.split.2⟩

theorem NodeLeft.refl (n : CacheNode) : NodeLeft n n := ⟨id, Or.inl rfl, Or.inl rfl⟩

theorem NodeLeft.trans {n n' n'' : CacheNode} (h : NodeLeft n n') (h' : NodeLeft n' n'') :
    NodeLeft n n'' where
  present hp := h.present (h'.present hp)
  validSec := by
    rcases h'.validSec with heq | hzero
    · rw [heq]
      exact h.validSec
    · exact Or.inr hzero
  updating := by
    rcases h'.updating with heq | hfree
    · rw [heq]
      refine h.updating.imp_right fun hfree => ⟨hfree.1, hfree.2.imp (fun hp => ?_) fun hv => ?_⟩
      · exact Bool.eq_false_iff.mpr fun hp' => Bool.false_ne_true (hp.symm.trans (h'.present hp'))
      · rcases h'.validSec with heq' | hzero
        · rw [heq', hv]
        · exact hzero
    · exact Or.inr hfree

namespace PurgeStep

theorem files (h : PurgeStep N L soft zone targets s s') (p : Bytes) :
    (¬ targets p → s'.cache.disk p = s.cache.disk p) ∧
      FileLeft L soft (s.cache.disk p) (s'.cache.disk p) := by
  cases h with
  | @removed path hs ht =>
    simp only [FileCache.setFile_disk, Function.update_apply]
    split
    · next hp =>
      exact ⟨fun hno => absurd (hp ▸ ht) hno, Or.inr (Or.inl ⟨hs, rfl⟩)⟩
    · exact ⟨fun _ => rfl, Or.inl rfl⟩
  | @expired path data hs ht hd hlen =>
    simp only [FileCache.setFile_disk, Function.update_apply]
    split
    · next hp =>
      exact ⟨fun hno => absurd (hp ▸ ht) hno,
        Or.inr (Or.inr ⟨hs, data, _, hp ▸ hd, rfl, .expireData hlen⟩)⟩
    · exact ⟨fun _ => rfl, Or.inl rfl⟩
  | marked _ => exact ⟨fun _ => rfl, Or.inl rfl⟩
  | zeroed _ => exact ⟨fun _ => rfl, Or.inl rfl⟩
  | released _ => exact ⟨fun _ => rfl, Or.inl rfl⟩
  | dropped _ _ => exact ⟨fun _ => rfl, Or.inl rfl⟩
  | noted hcache _ _ =>
    rw [hcache]
    exact ⟨fun _ => rfl, Or.inl rfl⟩

theorem index (h : PurgeStep N L soft zone targets s s') (hindex : IndexOk N s.shm) :
    IndexOk N s'.shm := by
  cases h with
  | dropped _ _ => exact hindex.delete
  | noted _ hshm _ => exact hshm ▸ hindex
  | _ => exact hindex

theorem entries (h : PurgeStep N L soft zone targets s s') (hindex : IndexOk N s.shm) (z p : Bytes) :
    toMap s'.shm z p = toMap s.shm z p ∨ targets p ∧ toMap s'.shm z p = none := by
  cases h with
  | @dropped now zoneName path _ ht =>
    have hmap : toMap (deleteIndexPath N now zoneName path s).shm z p =
        (toMap s.shm).set zoneName path none z p :=
      congrFun (congrFun (deleteFile_toMap hindex.ok now zoneName path).2 z) p
    rw [hmap]
    unfold IndexMap.set
    split
    · next hp => exact Or.inr ⟨hp.2 ▸ ht, rfl⟩
    · exact Or.inl rfl
  | noted _ hshm _ =>
    rw [hshm]
    exact Or.inl rfl
  | _ => exact Or.inl rfl

theorem nodes (h : PurgeStep N L soft zone targets s s') :
    s'.cache.tree = s.cache.tree ∧ ∀ a, NodeLeft (s.cache.node a) (s'.cache.node a) := by
  -- one node is written
  have hone : ∀ {a : Addr} {n : CacheNode}, NodeLeft (s.cache.node a) n →
      ∀ b, NodeLeft (s.cache.node b) (Function.update s.cache.node a n b) := by
    intro a n hn b
    rw [Function.update_apply]
    split
    · next hb =>
      rw [hb]
      exact hn
    · exact .refl _
  cases h with
  | removed _ _ => exact ⟨rfl, fun a => .refl _⟩
  | expired _ _ _ _ => exact ⟨rfl, fun a => .refl _⟩
  | marked _ =>
    refine ⟨rfl, hone ⟨(nomatch ·), Or.inl rfl, Or.inr ⟨rfl, Or.inl rfl⟩⟩⟩
  | zeroed _ => exact ⟨rfl, hone ⟨id, Or.inr rfl, Or.inl rfl⟩⟩
  | released hout => exact ⟨rfl, hone ⟨id, Or.inl rfl, Or.inr ⟨rfl, hout⟩⟩⟩
  | dropped _ _ => exact ⟨rfl, fun a => .refl _⟩
  | noted hcache _ _ =>
    rw [hcache]
    exact ⟨rfl, fun a => .refl _⟩

theorem tallies (h : PurgeStep N L soft zone targets s s') : Tallies s s' := by
  cases h with
  | noted _ _ hcounted => exact hcounted
  | _ => exact .of_eq rfl rfl

end PurgeStep

namespace PurgeSteps

theorem single (h : PurgeStep N L soft zone targets s s') : PurgeSteps N L soft zone targets s s' :=
  Relation.ReflTransGen.single h

theorem refl (s : Pilot) : PurgeSteps N L soft zone targets s s := Relation.ReflTransGen.refl

theorem trans (h : PurgeSteps N L soft zone targets s s') (h' : PurgeSteps N L soft zone targets s' s'') :
    PurgeSteps N L soft zone targets s s'' := Relation.ReflTransGen.trans h h'

theorem noted (hcache : s'.cache = s.cache) (hshm : s'.shm = s.shm)
    (hcounted : Tallies s s') : PurgeSteps N L soft zone targets s s' :=
  single (.noted hcache hshm hcounted)

theorem files (h : PurgeSteps N L soft zone targets s s') (p : Bytes) :
    (¬ targets p → s'.cache.disk p = s.cache.disk p) ∧
      FileLeft L soft (s.cache.disk p) (s'.cache.disk p) := by
  induction h with
  | refl => exact ⟨fun _ => rfl, Or.inl rfl⟩
  | tail _ hstep ih =>
    obtain ⟨hother, hleft⟩ := hstep.files p
    exact ⟨fun hp => (hother hp).trans (ih.1 hp), ih.2.trans hleft⟩

theorem index (h : PurgeSteps N L soft zone targets s s') (hindex : IndexOk N s.shm) :
    IndexOk N s'.shm := by
  induction h with
  | refl => exact hindex
  | tail _ hstep ih => exact hstep.index ih

theorem entries (h : PurgeSteps N L soft zone targets s s') (hindex : IndexOk N s.shm) (z p : Bytes) :
    toMap s'.shm z p = toMap s.shm z p ∨ targets p ∧ toMap s'.shm z p = none := by
  induction h with
  | refl => exact Or.inl rfl
  | tail hsteps hstep ih =>
    rcases hstep.entries (index hsteps hindex) z p with heq | hgone
    · rw [heq]
      exact ih
    · exact Or.inr hgone

theorem nodes (h : PurgeSteps N L soft zone targets s s') :
    s'.cache.tree = s.cache.tree ∧ ∀ a, NodeLeft (s.cache.node a) (s'.cache.node a) := by
  induction h with
  | refl => exact ⟨rfl, fun a => .refl _⟩
  | tail _ hstep ih =>
    obtain ⟨htree, hnodes⟩ := hstep.nodes
    exact ⟨htree.trans ih.1, fun a => (ih.2 a).trans (hnodes a)⟩

theorem tallies (h : PurgeSteps N L soft zone targets s s') : Tallies s s' := by
  induction h with
  | refl => exact .refl s
  | tail _ hstep ih => exact ih.trans hstep.tallies

end PurgeSteps

/-! ## One file -/

/-- What is written to the cache alone. -/
def CacheSteps (N : Nginx) (L : HeaderLayout) (soft : Bool) (zone : Option Bytes)
    (targets : Bytes → Prop) (c c' : FileCache) : Prop :=
  ∀ s : Pilot, s.cache = c → PurgeSteps N L soft zone targets s { s with cache := c' }

variable {c c' c'' : FileCache}

namespace CacheSteps

theorem refl (c : FileCache) : CacheSteps N L soft zone targets c c := by
  rintro s rfl
  exact .refl s

theorem trans (h : CacheSteps N L soft zone targets c c') (h' : CacheSteps N L soft zone targets c' c'') :
    CacheSteps N L soft zone targets c c'' := by
  rintro s hs
  exact (h s hs).trans (h' { s with cache := c' } rfl)

end CacheSteps

/-- Removing a file is two writes, the second of which may fail. -/
theorem deleteCacheFile_steps (calls : FileCalls) {path : Bytes} (ht : targets path) (c : FileCache) :
    CacheSteps N L false zone targets c (deleteCacheFile calls path c).2 := by
  have hmark : CacheSteps N L false zone targets c (markPath path c) := by
    unfold markPath
    cases c.pathNode path with
    | none => exact .refl c
    | some a =>
      show CacheSteps N L false zone targets c
        (if (c.node a).present = true then markNodeDeleted c a else c)
      split
      · rintro s rfl
        exact .single (.marked rfl)
      · exact .refl c
  have hremove : CacheSteps N L false zone targets (markPath path c) ((markPath path c).setFile path none) := by
    intro s hs
    rw [← hs]
    exact .single (.removed rfl ht)
  rw [deleteCacheFile_eq]
  split
  · exact .refl c
  · split
    · exact .refl c
    · split
      · exact hmark
      · exact hmark.trans hremove

theorem softHeader_steps (calls : FileCalls) {path : Bytes} (ht : targets path) (c : FileCache) :
    CacheSteps N L true zone targets c (softHeader L calls path c).2 := by
  unfold softHeader
  split
  · exact .refl c
  · split
    · exact .refl c
    · next data hd =>
      simp only
      split
      · exact .refl c
      · next hread =>
        split
        · exact .refl c
        · split
          · exact .refl c
          · -- the header was read whole
            have hlen : (data.take L.size).length = L.size := by
              have hboth := Bool.eq_false_iff.mpr hread
              rw [Bool.or_eq_false_iff, bne_eq_false_iff_eq] at hboth
              exact hboth.2
            rintro s rfl
            exact .single (.expired rfl ht hd hlen)

theorem softPath_steps (calls : FileCalls) {path : Bytes} (ht : targets path) (c : FileCache) :
    CacheSteps N L true zone targets c (softPath L calls path c).2 := by
  have hheader : CacheSteps N L true zone targets c (softHeader L calls path c).2 :=
    softHeader_steps calls ht c
  cases hok : decide ((softHeader L calls path c).1 = .ok) with
  | false =>
    rw [softPath_failed (of_decide_eq_false hok)]
    exact hheader
  | true =>
    rw [softPath_ok (of_decide_eq_true hok)]
    refine hheader.trans ?_
    unfold expirePath
    split
    · split
      · rintro s hs
        rw [← hs]
        exact .single (.zeroed rfl)
      · exact .refl _
    · exact .refl _

theorem byPath_steps (soft : Bool) (calls : FileCalls) {path : Bytes} (ht : targets path)
    (c : FileCache) : CacheSteps N L soft zone targets c (byPath L calls soft path c).2 := by
  cases soft with
  | true => exact softPath_steps calls ht c
  | false => exact deleteCacheFile_steps calls ht c

theorem byIndexedPath_steps (soft : Bool) (calls : FileCalls) (now : Int) {path : Bytes}
    (ht : targets path) (s : Pilot) :
    PurgeSteps N L soft (some zoneName) targets s (byIndexedPath N L calls now zoneName soft path s).2 := by
  have hfile : PurgeSteps N L soft (some zoneName) targets s
      { s with cache := (byPath L calls soft path s.cache).2 } := byPath_steps soft calls ht s.cache s rfl
  unfold byIndexedPath purgeByPath
  simp only
  split
  · exact hfile.trans (.single (.dropped rfl ht))
  · exact hfile

theorem purgeTagged_steps (soft : Bool) (calls : FileCalls) (now : Int) {path : Bytes}
    (ht : targets path) (s : Pilot) :
    PurgeSteps N L soft (some zoneName) targets s (purgeTagged N L calls now zoneName soft path s).2 := by
  have hfile : PurgeSteps N L soft (some zoneName) targets s
      { s with cache := (byPath L calls soft path s.cache).2 } := byPath_steps soft calls ht s.cache s rfl
  unfold purgeTagged purgeByPath
  simp only
  split
  · exact hfile
  · split
    · exact hfile.trans (.single (.dropped rfl ht))
    · exact hfile

/-! ## Loops and walks -/

theorem purgePaths_steps {one : Nat → Bytes → Pilot → NgxRc × Pilot}
    (hone : ∀ k path s, targets path → PurgeSteps N L soft zone targets s (one k path s).2) (k : Nat)
    (paths : List Bytes) (hpaths : ∀ path ∈ paths, targets path) (count : Nat) (s : Pilot) :
    PurgeSteps N L soft zone targets s (purgePaths one k paths count s).2.2 := by
  induction paths generalizing k count s with
  | nil => exact .refl s
  | cons path paths ih =>
    have hturn := hone k path s (hpaths path List.mem_cons_self)
    have hrest := fun p hp => hpaths p (List.mem_cons_of_mem path hp)
    unfold purgePaths
    generalize one k path s = result at hturn
    obtain ⟨rc, s1⟩ := result
    cases rc with
    | ok => exact hturn.trans (ih (k + 1) hrest (count + 1) s1)
    | declined => exact hturn.trans (ih (k + 1) hrest count s1)
    | _ => exact hturn

/-- What is behind the header of each file was there before. -/
def SameTails (L : HeaderLayout) (disk disk' : Disk) : Prop :=
  ∀ p d', disk' p = some d' → ∃ d, disk p = some d ∧ d'.drop L.size = d.drop L.size

theorem SameTails.refl (L : HeaderLayout) (disk : Disk) : SameTails L disk disk :=
  fun _ d hd => ⟨d, hd, rfl⟩

theorem SameTails.trans {disk disk' disk'' : Disk} (h : SameTails L disk disk')
    (h' : SameTails L disk' disk'') : SameTails L disk disk'' := by
  intro p d'' hd''
  obtain ⟨d', hd', heq'⟩ := h' p d'' hd''
  obtain ⟨d, hd, heq⟩ := h p d' hd'
  exact ⟨d, hd, heq'.trans heq⟩

theorem PurgeSteps.tails (h : PurgeSteps N L soft zone targets s s') :
    SameTails L s.cache.disk s'.cache.disk := fun p _ hd' => (h.files p).2.drop hd'

/-- A walk only selects by what is behind the header. -/
theorem walkTree_steps {calls : Nat → FileCalls} {selects : FileCalls → Bytes → Disk → Bool}
    {fileHandler : Nat → Bytes → Nat → FileCache → NgxRc × Nat × FileCache}
    (hh : Handles L calls soft selects fileHandler) {disk : Disk}
    (hselects : ∀ k p disk', SameTails L disk disk' → selects (calls k) p disk' = true → targets p)
    (readable : Bool) (k : Nat) (listing : List Bytes) (purged : Nat) (s : Pilot)
    (htails : SameTails L disk s.cache.disk) :
    PurgeSteps N L soft zone targets s
      { s with cache := (walkTree readable fileHandler k listing purged s.cache).2.2 } := by
  induction listing generalizing k purged s with
  | nil => exact .refl s
  | cons path listing ih =>
    unfold walkTree
    simp only [hh k path purged s.cache]
    split
    · next hselect =>
      have hturn : PurgeSteps N L soft zone targets s
          { s with cache := (byPath L (calls k) soft path s.cache).2 } :=
        byPath_steps soft (calls k) (hselects k path _ htails hselect) s.cache s rfl
      exact hturn.trans (ih (k + 1) _ _ (htails.trans hturn.tails))
    · exact ih (k + 1) purged s htails

/-! ## Counters and the context -/

/-- Only the counters and the context of the request are changed. -/
structure Notes (s s' : Pilot) : Prop where
  cache : s'.cache = s.cache
  shm : s'.shm = s.shm
  counted : Tallies s s'

namespace Notes

theorem refl (s : Pilot) : Notes s s := ⟨rfl, rfl, .refl s⟩

theorem trans (h : Notes s s') (h' : Notes s' s'') : Notes s s'' where
  cache := h'.cache.trans h.cache
  shm := h'.shm.trans h.shm
  counted := h.counted.trans h'.counted

theorem steps (h : Notes s s') : PurgeSteps N L soft zone targets s s' :=
  .noted h.cache h.shm h.counted

theorem withCtx (ok : Bool) (change : RequestCtx → RequestCtx)
    (hchange : ∀ ctx, (change ctx).purged = ctx.purged) (s : Pilot) : Notes s (s.withCtx ok change) := by
  refine ⟨Pilot.withCtx_cache .., Pilot.withCtx_shm .., ?_⟩
  obtain ⟨cache, shm, metrics, ctx⟩ := s
  unfold Pilot.withCtx
  cases ctx with
  | some ctx => exact .of_eq rfl (hchange ctx)
  | none =>
    cases ok with
    | true => exact .of_eq rfl (hchange .zero)
    | false => exact .refl _

theorem setResponsePath (pool : PurgePool) (path : PurgePath) (s : Pilot) :
    Notes s (s.setResponsePath pool path) :=
  withCtx pool.ctx (fun ctx => { ctx with purgePath := path }) (fun _ => rfl) s

theorem setDeclineReason (pool : PurgePool) (reason : DeclineReason) (s : Pilot) :
    Notes s (s.setDeclineReason pool reason) :=
  withCtx pool.ctx (fun ctx => { ctx with declineReason := reason }) (fun _ => rfl) s

/-- Counters of other things than purged files. -/
theorem counted_of_map (change : PurgeMetrics → PurgeMetrics) (h : ∀ m : PurgeMetrics, m.Le (change m))
    (hpurged : ∀ m, (change m).purged = m.purged) (s : Pilot) :
    Notes s { s with metrics := s.metrics.map change } := by
  refine ⟨rfl, rfl, .map h s.metrics, fun m m' hm hm' type soft => ?_⟩
  have hchange : some (change m) = some m' := by
    rw [← hm']
    show _ = s.metrics.map change
    rw [hm]
    rfl
  obtain rfl := Option.some.inj hchange
  rw [hpurged]
  rfl

theorem addTo_le (counters : PurgeStats → Bool → Nat) (type : PurgeStats) (soft : Bool) (count : Nat)
    (t : PurgeStats) (b : Bool) : counters t b ≤ Pilot.addTo counters type soft count t b := by
  unfold Pilot.addTo
  split
  · exact Nat.le_add_right _ _
  · exact Nat.le_refl _

/-- What is added to two counters is added to their difference once. -/
theorem addTo_add (counters counters' : PurgeStats → Bool → Nat) (type : PurgeStats) (soft : Bool)
    (count : Nat) (t : PurgeStats) (b : Bool) :
    Pilot.addTo counters type soft count t b + counters' t b =
      counters t b + Pilot.addTo counters' type soft count t b := by
  unfold Pilot.addTo
  split
  · omega
  · rfl

theorem recordPurge (pool : PurgePool) (type : PurgeStats) (soft : Bool) (count : Nat) (s : Pilot) :
    Notes s (s.recordPurge pool type soft count) := by
  refine ⟨Pilot.recordPurge_cache .., Pilot.recordPurge_shm .., ?_, fun m m' hm hm' t b => ?_⟩
  · unfold Pilot.recordPurge
    split
    · exact .refl _
    · obtain ⟨cache, shm, metrics, ctx⟩ := s
      have hle : ∀ m : PurgeMetrics, m.Le { m with purged := Pilot.addTo m.purged type soft count } :=
        fun m => { PurgeMetrics.Le.refl m with purged := addTo_le m.purged type soft count }
      have hgrow := MetricsGrow.map hle metrics
      unfold Pilot.withCtx
      cases ctx with
      | some ctx => exact hgrow
      | none =>
        cases pool.ctx with
        | true => exact hgrow
        | false => exact hgrow
  · unfold Pilot.recordPurge at hm' ⊢
    split at hm'
    · next hnone =>
      obtain rfl := Option.some.inj (hm.symm.trans hm')
      rw [if_pos hnone]
    · next hsome =>
      rw [if_neg hsome]
      obtain ⟨cache, shm, metrics, ctx⟩ := s
      obtain rfl : metrics = some m := hm
      unfold Pilot.withCtx at hm' ⊢
      cases ctx with
      | some ctx =>
        obtain rfl := Option.some.inj hm'
        exact addTo_add m.purged ctx.purged type soft count t b
      | none =>
        cases hpool : pool.ctx with
        | true =>
          simp only [hpool, if_true] at hm' ⊢
          obtain rfl := Option.some.inj hm'
          exact addTo_add m.purged (fun _ _ => 0) type soft count t b
        | false => exact absurd (Or.inr ⟨rfl, by rw [hpool]; rfl⟩) hsome

theorem recordPurgeRequest (type : PurgeStats) (soft : Bool) (s : Pilot) :
    Notes s (s.recordPurgeRequest type soft) :=
  counted_of_map (fun m => { m with purges := Pilot.addTo m.purges type soft 1 })
    (fun m => { PurgeMetrics.Le.refl m with purges := addTo_le m.purges type soft 1 }) (fun _ => rfl) s

theorem recordKeyIndexExactFanout (s : Pilot) : Notes s s.recordKeyIndexExactFanout :=
  counted_of_map (fun m => { m with keyIndexExactFanout := m.keyIndexExactFanout + 1 })
    (fun m => { PurgeMetrics.Le.refl m with keyIndexExactFanout := Nat.le_succ _ }) (fun _ => rfl) s

theorem recordKeyIndexWildcardHit (s : Pilot) : Notes s s.recordKeyIndexWildcardHit :=
  counted_of_map (fun m => { m with keyIndexWildcardHits := m.keyIndexWildcardHits + 1 })
    (fun m => { PurgeMetrics.Le.refl m with keyIndexWildcardHits := Nat.le_succ _ }) (fun _ => rfl) s

theorem keyIndexReady (access : IndexAccess) (pool : PurgePool) (s : Pilot) :
    Notes s (keyIndexReady access pool s).2 := by
  unfold CachePilot.keyIndexReady
  split
  · exact setDeclineReason ..
  · split
    · exact setDeclineReason ..
    · split
      · exact setDeclineReason ..
      · split
        · exact refl s
        · exact setDeclineReason ..

theorem recordExactPurge (pool : PurgePool) (soft : Bool) (fanned : Nat) (s : Pilot) :
    Notes s (recordExactPurge pool soft fanned s) := by
  unfold CachePilot.recordExactPurge
  refine trans ?_ (recordPurge ..)
  split
  · exact trans (setResponsePath ..) (recordKeyIndexExactFanout _)
  · exact refl s

theorem recordWildcardPurge (r : PurgeRequest) (purged : Nat) (s : Pilot) :
    Notes s (recordWildcardPurge r purged s) :=
  trans (recordPurge ..) (recordPurgeRequest ..)

end Notes

/-! ## By key -/

/-- The records that are left were there before. -/
theorem PurgeSteps.records (h : PurgeSteps N L soft zone targets s s') (hindex : IndexOk N s.shm)
    {z : Bytes} {rec : Record} (hrec : rec ∈ recordsOf s'.shm z) : rec ∈ recordsOf s.shm z := by
  obtain ⟨path, key, tags⟩ := rec
  have hentry : toMap s'.shm z path = some (key, tags) := (toMap_eq_some (h.index hindex).ok).mpr hrec
  refine (toMap_eq_some hindex.ok).mp ?_
  rcases h.entries hindex z path with heq | ⟨-, hnone⟩
  · rw [← heq, hentry]
  · exact nomatch hentry.symm.trans hnone

theorem mem_keyedPaths {rs : List Record} {key : Bytes} :
    p ∈ keyedPaths rs key ↔ key ≠ [] ∧ ∃ rec ∈ rs, rec.key = key ∧ rec.path = p := by
  unfold keyedPaths
  split
  · next hnil => exact iff_of_false List.not_mem_nil fun h => h.1 hnil
  · next hne =>
    rw [and_iff_right hne, List.mem_map]
    constructor
    · rintro ⟨rec, hrec, hp⟩
      exact ⟨rec, (List.mem_filter.mp hrec).1, of_decide_eq_true (List.mem_filter.mp hrec).2, hp⟩
    · rintro ⟨rec, hrec, hkey, hp⟩
      exact ⟨rec, List.mem_filter.mpr ⟨hrec, decide_eq_true hkey⟩, hp⟩

/-- The files that a purge may touch by their key: the one that it opened, and those that
the index has under the key. -/
def KeyTargets (access : IndexAccess) (opened : CacheOpen) (keys : List Bytes) (shm : Shm) (p : Bytes) :
    Prop :=
  ∃ o, opened = .opened o ∧
    (p = o.name ∨ ∃ z, access.zone = some z ∧ p ∈ keyedPaths (recordsOf shm z) (cacheKey keys))

theorem KeyTargets.of_steps {opened : CacheOpen} {keys : List Bytes}
    (h : PurgeSteps N L soft zone targets s s') (hindex : IndexOk N s.shm)
    (hp : KeyTargets access opened keys s'.shm p) : KeyTargets access opened keys s.shm p := by
  obtain ⟨o, ho, hp⟩ := hp
  refine ⟨o, ho, hp.imp_right ?_⟩
  rintro ⟨z, hz, hp⟩
  obtain ⟨hkey, rec, hrec, hown⟩ := mem_keyedPaths.mp hp
  exact ⟨z, hz, mem_keyedPaths.mpr ⟨hkey, rec, h.records hindex hrec, hown⟩⟩

theorem ready_eq_some (h : access.ready = some zoneName) : access.zone = some zoneName := by
  unfold IndexAccess.ready at h
  split at h
  · exact h
  · exact nomatch h

theorem exactFanout_steps (hindex : IndexOk N s.shm) (r : PurgeRequest) (soft : Bool)
    (ht : ∀ p, KeyTargets access (.opened o) r.keys s.shm p → targets p) :
    PurgeSteps N L soft access.zone targets s (exactFanout N L access r soft o s).2.2 := by
  have hnote := Notes.keyIndexReady access r.pool s
  have hquery := fanoutList_query N access r s soft o
  rw [exactFanout_eq]
  generalize fanoutList N access r soft o s = result at hquery
  cases hquery with
  | skipped _ hstart =>
    rw [hstart]
    exact hnote.steps
  | @queried zoneName keyText s1 hready hkey hstart =>
    have hzone := ready_eq_some hready
    obtain rfl : cacheKey r.keys = keyText := by
      unfold cacheKeyText at hkey
      split at hkey
      · exact nomatch hkey
      · split at hkey
        · exact Option.some.inj hkey
        · exact nomatch hkey
    have hbefore : PurgeSteps N L soft access.zone targets s s1 := by
      refine hnote.steps.trans ?_
      rw [hstart]
      cases soft with
      | true => exact .refl _
      | false => exact .single (.dropped hzone (ht _ ⟨o, rfl, Or.inl rfl⟩))
    have hindex1 := hbefore.index hindex
    cases hcollect : collectPathsByExactKey N r.pool.collect s1.shm zoneName (cacheKey r.keys) with
    | none => exact hbefore
    | some paths =>
      refine hbefore.trans ?_
      have hpaths : ∀ p ∈ paths, targets p := by
        intro p hp
        rw [hindex1.collectExact] at hcollect
        split at hcollect
        · obtain rfl := Option.some.inj hcollect
          refine ht p ?_
          exact KeyTargets.of_steps hbefore hindex ⟨o, rfl, Or.inr ⟨zoneName, hzone, hp⟩⟩
        · exact nomatch hcollect
      refine purgePaths_steps (fun k path s hp => ?_) 0 paths hpaths 0 s1
      rw [hzone]
      cases soft with
      | true => exact byPath_steps true (r.calls k) hp s.cache s rfl
      | false => exact byIndexedPath_steps false (r.calls k) r.now hp s

/-- The node of the opened file is out of the cache when it is released. -/
theorem releaseUpdating_steps (o : OpenedCache) (s : Pilot)
    (h : (s.cache.node o.node).present = false ∨ (s.cache.node o.node).validSec = 0) :
    PurgeSteps N L soft zone targets s (releaseUpdating o s) := by
  unfold releaseUpdating
  simp only
  split
  · exact .single (.released h)
  · exact .refl s

/-- A node that is out of the cache stays out. -/
theorem PurgeSteps.out (h : PurgeSteps N L soft zone targets s s') {a : Addr}
    (hout : (s.cache.node a).present = false ∨ (s.cache.node a).validSec = 0) :
    (s'.cache.node a).present = false ∨ (s'.cache.node a).validSec = 0 := by
  have hnode := h.nodes.2 a
  refine hout.imp (fun hp => ?_) fun hv => ?_
  · exact Bool.eq_false_iff.mpr fun hp' => Bool.false_ne_true (hp.symm.trans (hnode.present hp'))
  · rcases hnode.validSec with heq | hzero
    · rw [heq, hv]
    · exact hzero

theorem exactPurge_steps (hindex : IndexOk N s.shm) (r : PurgeRequest) (opened : CacheOpen)
    (ht : ∀ p, KeyTargets access opened r.keys s.shm p → targets p) :
    PurgeSteps N L false access.zone targets s (exactPurge N L access opened r s).2 := by
  unfold exactPurge
  cases opened with
  | declined => exact (Notes.setDeclineReason ..).steps
  | again => exact .refl s
  | error => exact .refl s
  | opened o =>
    simp only
    cases hp : (s.cache.node o.node).present with
    | false =>
      rw [deleteOpenedFile_gone hp]
      exact (Notes.setDeclineReason r.pool .notFound s).steps
    | true =>
      -- the node is marked before the file is removed, which may fail
      have hdelete : ∃ cache, deleteOpenedFile r.resolved o s.cache = (.ok, cache) ∧
          PurgeSteps N L false access.zone targets s { s with cache := cache } ∧
          (cache.node o.node).present = false := by
        have hnode : ((markNodeDeleted s.cache o.node).node o.node).present = false := by
          show (Function.update s.cache.node o.node _ o.node).present = false
          rw [Function.update_self]
        have hmarked : PurgeSteps N L false access.zone targets s
            { s with cache := markNodeDeleted s.cache o.node } := .single (.marked rfl)
        unfold deleteOpenedFile
        rw [hp, Bool.not_true, if_neg Bool.false_ne_true]
        simp only
        split
        · exact ⟨_, rfl, hmarked.trans (.single (.removed rfl (ht _ ⟨o, rfl, Or.inl rfl⟩))), hnode⟩
        · exact ⟨_, rfl, hmarked, hnode⟩
      obtain ⟨cache, hdeleted, hsteps, hgone⟩ := hdelete
      have hbefore := hsteps.trans (Notes.recordPurgeRequest .exact false { s with cache := cache }).steps
      have hfan := exactFanout_steps (L := L)
        (s := Pilot.recordPurgeRequest .exact false { s with cache := cache }) hindex r false ht
      have hall := hbefore.trans hfan
      have hout := hfan.out (a := o.node) (Or.inl hgone)
      simp only [hdeleted]
      generalize exactFanout N L access r false o
        (Pilot.recordPurgeRequest .exact false { s with cache := cache }) = result at hall hout
      obtain ⟨rc, fanned, s'⟩ := result
      have hnote := Notes.recordExactPurge r.pool false fanned s'
      have hout' : ((recordExactPurge r.pool false fanned s').cache.node o.node).present = false ∨
          ((recordExactPurge r.pool false fanned s').cache.node o.node).validSec = 0 := by
        rw [hnote.cache]
        exact hout
      cases rc with
      | error => exact hall.trans (releaseUpdating_steps o s' hout)
      | _ => exact (hall.trans hnote.steps).trans (releaseUpdating_steps o _ hout')

theorem exactPurgeSoft_steps (hindex : IndexOk N s.shm) (r : PurgeRequest) (opened : CacheOpen)
    (ht : ∀ p, KeyTargets access opened r.keys s.shm p → targets p) :
    PurgeSteps N L true access.zone targets s (exactPurgeSoft N L access opened r s).2 := by
  unfold exactPurgeSoft
  cases opened with
  | declined => exact (Notes.setDeclineReason ..).steps
  | again => exact .refl s
  | error => exact .refl s
  | opened o =>
    simp only
    split
    · exact (Notes.setDeclineReason ..).steps
    · have hheader : PurgeSteps N L true access.zone targets s
          { s with cache := (softHeader L r.resolved o.name s.cache).2 } :=
        softHeader_steps r.resolved (ht _ ⟨o, rfl, Or.inl rfl⟩) s.cache s rfl
      generalize softHeader L r.resolved o.name s.cache = result at hheader
      obtain ⟨rc, cache⟩ := result
      cases rc with
      | declined => exact hheader.trans (Notes.setDeclineReason ..).steps
      | ok =>
        have hzeroed : PurgeSteps N L true access.zone targets { s with cache := cache }
            { s with cache := cache.setNode o.node { cache.node o.node with validSec := 0 } } :=
          .single (.zeroed rfl)
        have hnode : ((cache.setNode o.node { cache.node o.node with validSec := 0 }).node
            o.node).validSec = 0 := by
          show (Function.update cache.node o.node _ o.node).validSec = 0
          rw [Function.update_self]
        have hfan := exactFanout_steps (L := L)
          (s := { s with cache := cache.setNode o.node { cache.node o.node with validSec := 0 } }) hindex
          r true ht
        have hall := (hheader.trans hzeroed).trans hfan
        have hout := hfan.out (a := o.node) (Or.inr hnode)
        simp only
        generalize exactFanout N L access r true o
          { s with cache := cache.setNode o.node { cache.node o.node with validSec := 0 } } = result
          at hall hout
        obtain ⟨rc, fanned, s'⟩ := result
        have hnote := (Notes.recordPurgeRequest .exact true s').trans
          (Notes.recordExactPurge r.pool true fanned (s'.recordPurgeRequest .exact true))
        have hout' : ((recordExactPurge r.pool true fanned
              (s'.recordPurgeRequest .exact true)).cache.node o.node).present = false ∨
            ((recordExactPurge r.pool true fanned
              (s'.recordPurgeRequest .exact true)).cache.node o.node).validSec = 0 := by
          rw [hnote.cache]
          exact hout
        cases rc with
        | error => exact hall.trans (releaseUpdating_steps o s' hout)
        | _ => exact (hall.trans hnote.steps).trans (releaseUpdating_steps o _ hout')
      | _ => exact hheader

theorem exactPurgeOf_steps (hindex : IndexOk N s.shm) (r : PurgeRequest) (opened : CacheOpen)
    (ht : ∀ p, KeyTargets access opened r.keys s.shm p → targets p) :
    PurgeSteps N L r.soft access.zone targets s (exactPurgeOf N L access opened r s).2 := by
  unfold exactPurgeOf
  cases r.soft with
  | true => exact exactPurgeSoft_steps hindex r opened ht
  | false => exact exactPurge_steps hindex r opened ht

end CachePilot
