import CachePilot.Lib.Sweep
import CachePilot.Purge.Sweeps

/-!
# The cache as its purges see it

What the module is for: a map from files to cached responses, each with the tags that it
was stored with, and purges that select by tag, by key, by a beginning of the key or
everything. The files and the index of a zone stand for such a map, and what happens to
them, a purge, a response that is stored or not, a file that nginx evicts, is a step of
it.

Results:
* `run_purges_items`: a purge request purges the items that its selector picks;
* `runs_refine`: each run of events is the run of the map.
-/

namespace CachePilot
open NgxString

/-! ## The tagged cache -/

/-- A cached response. -/
structure CachedItem where
  key : Bytes
  response : Bytes
  validSec : Int
  tags : List Bytes

/-- The cached responses, by file. -/
abbrev TaggedCache := Bytes → Option CachedItem

/-- What a purge asks for; `key` also takes the file that the request resolved to, and
`beginning` has the beginning of the key, and the stem that a walk compares. -/
inductive Selector
  | nothing
  | tags (tags : List Bytes)
  | all
  | key (path key : Bytes)
  | beginning (pre stem : Bytes)

namespace TaggedCache

variable {m : TaggedCache}

/-- What a purge makes of an item that it selects. -/
def purged (soft : Bool) (i : CachedItem) : Option CachedItem :=
  if soft then some { i with validSec := 0 } else none

theorem purged_idempotent (soft : Bool) : Sweep.Idempotent (purged soft) := by
  intro i j h
  unfold purged at h ⊢
  cases soft with
  | false => exact nomatch h
  | true =>
    obtain rfl := Option.some.inj h
    rfl

/-- The items that a selector picks. Only where no key begins as it says are the files
compared without regard to case, and beyond the end of the key. -/
def Picks (m : TaggedCache) : Selector → Bytes → CachedItem → Prop
  | .nothing, _, _ => False
  | .tags tags, _, i => ∃ t ∈ tags, t ∈ i.tags
  | .all, _, _ => True
  | .key path key, p, i => p = path ∨ key ≠ [] ∧ i.key = key
  | .beginning pre stem, _, i =>
    pre <+: i.key ∨
      (∀ q j, m q = some j → ¬ pre <+: j.key) ∧ BytesMatch stem (i.key ++ 10 :: i.response)

noncomputable def purge (soft : Bool) (sel : Selector) (m : TaggedCache) : TaggedCache :=
  Sweep.sweep (purged soft) (m.Picks sel) m

/-- An item is indexed anew. -/
def retag (path : Bytes) (tags : List Bytes) (m : TaggedCache) : TaggedCache :=
  Function.update m path ((m path).map fun i => { i with tags := tags })

end TaggedCache

/-! ## What a cache stands for -/

variable {N : Nginx} {L : HeaderLayout} {access : IndexAccess} {s s' : Pilot} {call : PurgeCall}
  {zoneName path p : Bytes} {soft : Bool} {files files' : Files L}
  {shm shm' : Shm} {sel : Bytes → Prop} {r : LiveRequest}

/-- A file with the tags that its entry has. -/
def itemOf (f : CacheFile L) (entry : Option (Bytes × List Bytes)) : CachedItem where
  key := f.key
  response := f.response
  validSec := L.validSec f.header
  tags := (entry.map Prod.snd).getD []

/-- The map that the files and the index stand for. -/
def itemsOf (files : Files L) (shm : Shm) (zoneName : Bytes) : TaggedCache := fun p =>
  (files p).map fun f => itemOf f (toMap shm zoneName p)

/-- Each file has an entry under its key. Entries without a file may be left. -/
def Indexed (files : Files L) (shm : Shm) (zoneName : Bytes) : Prop :=
  ∀ p f, files p = some f → ∃ tags, toMap shm zoneName p = some (f.key, tags)

/-- A cache whose index is ready and has every file. -/
structure Synced (N : Nginx) (zoneName : Bytes) (files : Files L) (s : Pilot) : Prop where
  disk : s.cache.disk = files.disk
  index : IndexOk N s.shm
  indexed : Indexed files s.shm zoneName
  keys : ∀ p f, files p = some f → NulFree f.key
  ready : zoneReady s.shm zoneName = true

theorem itemsOf_some (hf : files p = some f) :
    itemsOf files shm zoneName p = some (itemOf f (toMap shm zoneName p)) := by
  unfold itemsOf
  rw [hf]
  rfl

theorem itemsOf_none (hf : files p = none) : itemsOf files shm zoneName p = none := by
  unfold itemsOf
  rw [hf]
  rfl

theorem itemsOf_eq_some {i : CachedItem} : itemsOf files shm zoneName p = some i ↔
    ∃ f, files p = some f ∧ itemOf f (toMap shm zoneName p) = i := Option.map_eq_some_iff

theorem itemsOf_update (files : Files L) (shm : Shm) (zoneName path : Bytes) (f : Option (CacheFile L)) :
    itemsOf (Function.update files path f) shm zoneName = Function.update
      (itemsOf files shm zoneName) path (f.map fun f => itemOf f (toMap shm zoneName path)) := by
  funext p
  unfold itemsOf
  rw [Function.update_apply, Function.update_apply]
  split
  · next hp => rw [hp]
  · rfl

namespace Sweeps

/-- A purge of files is a sweep of their items. -/
theorem items (h : Sweeps N zoneName soft sel files shm files' shm') :
    itemsOf files' shm' zoneName = Sweep.sweep (TaggedCache.purged soft) (fun p _ => sel p)
      (itemsOf files shm zoneName) := by
  funext p
  cases hf : files p with
  | none =>
    rw [Sweep.sweep_none (itemsOf_none hf)]
    cases hf' : files' p with
    | none => exact itemsOf_none hf'
    | some f' =>
      obtain ⟨f, hsome, -⟩ := h.kept hf'
      exact nomatch hf.symm.trans hsome
  | some f =>
    rcases Classical.em (sel p) with hp | hp
    · rw [Sweep.sweep_picked (itemsOf_some hf) hp]
      have hown := h.own p hp
      rw [hf] at hown
      unfold TaggedCache.purged
      cases hf' : files' p with
      | none =>
        rw [hf'] at hown
        cases soft with
        | false => exact itemsOf_none hf'
        | true => exact nomatch hown
      | some f' =>
        rw [hf'] at hown
        obtain ⟨rfl, g, hg, hkey, hresponse, hexpired⟩ := hown.left
        obtain rfl := Option.some.inj hg
        have hentry := h.entries p (by rw [hf']; rfl)
        rw [itemsOf_some hf', if_pos rfl]
        unfold itemOf
        rw [hentry, hkey, hresponse, hexpired]
    · rw [Sweep.sweep_left (itemsOf_some hf) hp]
      have hsame := h.other p hp
      unfold itemsOf
      rw [hsame, hf, Option.map_some, Option.map_some, h.entries p (by rw [hsame, hf]; rfl)]

theorem indexed (h : Sweeps N zoneName soft sel files shm files' shm')
    (hindexed : Indexed files shm zoneName) : Indexed files' shm' zoneName := by
  intro p f' hf'
  obtain ⟨f, hf, hkey, -⟩ := h.kept hf'
  rw [h.entries p (by rw [hf']; rfl), hkey]
  exact hindexed p f hf

end Sweeps

/-! ## Purges -/

/-- What a purge request asks for. -/
def PurgeCall.selector (call : PurgeCall) : Selector :=
  match call.kind with
  | .tag => .tags (keepTags [] call.tokens)
  | .all => .all
  | .wildcard =>
    match keyPrefix call.pool call.keys with
    | none => .nothing
    | some pre => .beginning pre (keyPartial call.keys)
  | .exact =>
    match call.opened with
    | .opened o => .key o.name (cacheKey call.keys)
    | _ => .nothing

/-- A location whose index the worker reads. -/
structure IndexAccess.Serves (access : IndexAccess) (zoneName : Bytes) : Prop where
  configured : access.configured = true
  zone : access.zone = some zoneName
  reader : access.reader = true

theorem IndexAccess.Serves.reads (h : access.Serves zoneName) (hready : zoneReady shm zoneName = true) :
    access.Reads zoneName shm := ⟨h.configured, h.zone, h.reader, hready⟩

/-- The file that an exact purge opened can be purged: its node is there, and for a soft
purge the file itself. -/
def PurgeCall.OpensFile (call : PurgeCall) (s : Pilot) : Prop :=
  call.kind = .exact → ∀ o, call.opened = .opened o →
    (s.cache.node o.node).present = true ∧
      (call.request.soft = true → (s.cache.disk o.name).isSome = true)

namespace Synced

/-- The record of a file. -/
theorem record {f : CacheFile L} (h : Synced N zoneName files s) (hf : files p = some f) :
    ⟨p, f.key, (itemOf f (toMap s.shm zoneName p)).tags⟩ ∈ recordsOf s.shm zoneName := by
  obtain ⟨tags, hentry⟩ := h.indexed p f hf
  have hrec := (toMap_eq_some h.index.ok).mp hentry
  unfold itemOf
  rw [hentry]
  exact hrec

/-- It is the only one with the path. -/
theorem record_eq {f : CacheFile L} {rec : Record} (h : Synced N zoneName files s)
    (hf : files p = some f) (hrec : rec ∈ recordsOf s.shm zoneName) (hp : rec.path = p) :
    rec = ⟨p, f.key, (itemOf f (toMap s.shm zoneName p)).tags⟩ := by
  have hown : toMap s.shm zoneName p = some (rec.key, rec.tags) :=
    (toMap_eq_some h.index.ok).mpr (by rw [← hp]; exact hrec)
  have hfile := (toMap_eq_some h.index.ok).mpr (h.record hf)
  obtain ⟨hkey, htags⟩ := Prod.mk.inj (Option.some.inj (hown.symm.trans hfile))
  rw [← hkey, ← htags, ← hp]

theorem selected_iff {f : CacheFile L} (h : Synced N zoneName files s) (hf : files p = some f)
    (tags : List Bytes) : Selected (recordsOf s.shm zoneName) tags p ↔
      ∃ t ∈ tags, t ∈ (itemOf f (toMap s.shm zoneName p)).tags := by
  constructor
  · rintro ⟨t, ht, rec, hrec, htag, hp⟩
    rw [h.record_eq hf hrec hp] at htag
    exact ⟨t, ht, htag⟩
  · rintro ⟨t, ht, htag⟩
    exact ⟨t, ht, _, h.record hf, htag, rfl⟩

theorem keyed_iff {f : CacheFile L} (h : Synced N zoneName files s) (hf : files p = some f)
    (key : Bytes) : p ∈ keyedPaths (recordsOf s.shm zoneName) key ↔ key ≠ [] ∧ f.key = key := by
  unfold keyedPaths
  split
  · next hnil => exact iff_of_false List.not_mem_nil fun hk => hk.1 hnil
  · next hne =>
    rw [List.mem_map, and_iff_right hne]
    constructor
    · rintro ⟨rec, hrec, hp⟩
      obtain ⟨hmem, hkey⟩ := List.mem_filter.mp hrec
      rw [h.record_eq hf hmem hp] at hkey
      exact of_decide_eq_true hkey
    · intro hkey
      exact ⟨_, List.mem_filter.mpr ⟨h.record hf, decide_eq_true hkey⟩, rfl⟩

theorem prefixed_iff {f : CacheFile L} (h : Synced N zoneName files s) (hf : files p = some f)
    (pre : Bytes) : p ∈ prefixedPaths (recordsOf s.shm zoneName) pre ↔ pre <+: f.key := by
  rw [mem_prefixedPaths, ← keyHasPrefix_iff_of_nulFree (h.keys p f hf)]
  constructor
  · rintro ⟨rec, hrec, hkey, hp⟩
    rw [h.record_eq hf hrec hp] at hkey
    exact hkey
  · intro hkey
    exact ⟨_, h.record hf, hkey, rfl⟩

/-- A wildcard purge picks the same among the records and among the items. -/
theorem wildcard_iff {f : CacheFile L} (h : Synced N zoneName files s) (hf : files p = some f)
    (pre stem : Bytes) : WildcardPicks (recordsOf s.shm zoneName) files pre stem p ↔
      (itemsOf files s.shm zoneName).Picks (.beginning pre stem) p
        (itemOf f (toMap s.shm zoneName p)) := by
  have hany : (∃ q ∈ prefixedPaths (recordsOf s.shm zoneName) pre, (files q).isSome = true) ↔
      ¬ ∀ q j, itemsOf files s.shm zoneName q = some j → ¬ pre <+: j.key := by
    constructor
    · rintro ⟨q, hq, hsome⟩ hno
      obtain ⟨g, hg⟩ := Option.isSome_iff_exists.mp hsome
      exact hno q _ (itemsOf_some hg) ((h.prefixed_iff hg pre).mp hq)
    · intro hno
      obtain ⟨q, hq⟩ := not_forall.mp hno
      obtain ⟨j, hj⟩ := not_forall.mp hq
      obtain ⟨hitem, hpre⟩ := Classical.not_imp.mp hj
      obtain ⟨g, hg, rfl⟩ := itemsOf_eq_some.mp hitem
      exact ⟨q, (h.prefixed_iff hg pre).mpr (not_not.mp hpre), by rw [hg]; rfl⟩
  unfold WildcardPicks TaggedCache.Picks
  rw [hany, not_not, h.prefixed_iff hf pre]
  constructor
  · rintro (⟨-, hpre⟩ | ⟨hno, g, hg, hmatch⟩)
    · exact Or.inl hpre
    · obtain rfl := Option.some.inj (hf.symm.trans hg)
      exact Or.inr ⟨hno, hmatch⟩
  · rintro (hpre | ⟨hno, hmatch⟩)
    · exact Or.inl ⟨fun hno => hno p _ (itemsOf_some hf) hpre, hpre⟩
    · exact Or.inr ⟨hno, f, hf, hmatch⟩

end Synced

/-- Behind the hard purge of the opened file its own entry is gone, and so is the file. -/
theorem mem_fanout_iff {o : OpenedCache} {rs : List Record} {key : Bytes} :
    p = o.name ∨ p ∈ keyedPaths (fanoutRecords soft o rs) key ↔ p = o.name ∨ p ∈ keyedPaths rs key := by
  have hother : p ≠ o.name → (p ∈ keyedPaths (fanoutRecords soft o rs) key ↔ p ∈ keyedPaths rs key) := by
    intro hne
    unfold keyedPaths fanoutRecords
    split
    · exact Iff.rfl
    · cases soft with
      | true => exact Iff.rfl
      | false =>
        simp only [Bool.false_eq_true, if_false, List.mem_map, List.mem_filter, mem_otherRecords]
        constructor
        · rintro ⟨rec, ⟨⟨hrec, -⟩, hkey⟩, hp⟩
          exact ⟨rec, ⟨hrec, hkey⟩, hp⟩
        · rintro ⟨rec, ⟨hrec, hkey⟩, hp⟩
          exact ⟨rec, ⟨⟨hrec, hp ▸ hne⟩, hkey⟩, hp⟩
  rcases Classical.em (p = o.name) with hp | hp
  · exact iff_of_true (Or.inl hp) (Or.inl hp)
  · rw [or_iff_right hp, or_iff_right hp, hother hp]

/-- A purge request purges the items that its selector picks. -/
theorem run_purges_items (h : Synced N zoneName files s) (hcall : call.Unhindered s.cache.disk)
    (haccess : access.Serves zoneName) (hopens : call.OpensFile s) :
    ∃ files' : Files L, Synced N zoneName files' (call.run N L access s).2 ∧
      (∀ p f', files' p = some f' → ∃ f, files p = some f ∧ f'.key = f.key) ∧
      itemsOf files' (call.run N L access s).2.shm zoneName =
        (itemsOf files s.shm zoneName).purge call.mode call.selector := by
  have hreads := haccess.reads h.ready
  -- the files that are selected are those whose items are picked
  have hsettle : ∀ {sel : Bytes → Prop} {selector : Selector},
      SweepsTo N zoneName call.mode sel files s (call.run N L access s).2 →
      (∀ p f, files p = some f → (sel p ↔ (itemsOf files s.shm zoneName).Picks selector p
        (itemOf f (toMap s.shm zoneName p)))) →
      ∃ files' : Files L, Synced N zoneName files' (call.run N L access s).2 ∧
        (∀ p f', files' p = some f' → ∃ f, files p = some f ∧ f'.key = f.key) ∧
        itemsOf files' (call.run N L access s).2.shm zoneName =
          (itemsOf files s.shm zoneName).purge call.mode selector := by
    rintro sel selector ⟨files', hd', hsweeps⟩ hsel
    have hkept : ∀ p f', files' p = some f' → ∃ f, files p = some f ∧ f'.key = f.key := by
      intro p f' hf'
      obtain ⟨f, hf, hkey, -⟩ := hsweeps.kept hf'
      exact ⟨f, hf, hkey⟩
    refine ⟨files', ⟨hd', hsweeps.index, hsweeps.indexed h.indexed, fun p f' hf' => ?_,
      hsweeps.ready.trans h.ready⟩, hkept, hsweeps.items.trans (Sweep.sweep_congr fun p i hi => ?_)⟩
    · obtain ⟨f, hf, hkey⟩ := hkept p f' hf'
      rw [hkey]
      exact h.keys p f hf
    · obtain ⟨f, hf, rfl⟩ := itemsOf_eq_some.mp hi
      exact hsel p f hf
  have hnothing : (call.run N L access s).2.cache = s.cache → (call.run N L access s).2.shm = s.shm →
      SweepsTo N zoneName call.mode (fun _ => False) files s (call.run N L access s).2 := by
    intro hcache hshm
    refine ⟨files, by rw [hcache, h.disk], ?_⟩
    rw [hshm]
    exact .nothing h.index zoneName call.mode files
  have hmode : call.kind ≠ .all → call.mode = call.request.soft := fun hne => if_neg hne
  unfold PurgeCall.selector
  cases hkind : call.kind with
  | tag =>
    rw [hmode (by rw [hkind]; decide)] at hsettle ⊢
    exact hsettle (run_sweeps_tag hkind hcall hreads h.index h.disk) fun p f hf =>
      h.selected_iff hf _
  | all =>
    rw [show call.mode = call.purge.soft from if_pos hkind] at hsettle ⊢
    exact hsettle (run_sweeps_all hkind hcall zoneName h.index h.disk) fun p f hf => Iff.rfl
  | wildcard =>
    simp only
    cases hpre : keyPrefix call.pool call.keys with
    | none =>
      have hsame : (call.run N L access s).2 = s := run_wildcard_refused hkind hpre
      exact hsettle (hnothing (by rw [hsame]) (by rw [hsame])) fun p f hf => Iff.rfl
    | some pre =>
      rw [hmode (by rw [hkind]; decide)] at hsettle ⊢
      exact hsettle (run_sweeps_wildcard hkind hcall hreads h.index h.disk hpre) fun p f hf =>
        h.wildcard_iff hf pre _
  | exact =>
    simp only
    have hmissed : (∀ o, call.opened ≠ .opened o) →
        SweepsTo N zoneName call.mode (fun _ => False) files s (call.run N L access s).2 :=
      fun hopened => hnothing (run_exact_missed hkind hopened).1 (run_exact_missed hkind hopened).2
    cases hopened : call.opened with
    | opened o =>
      rw [hmode (by rw [hkind]; decide)] at hsettle ⊢
      obtain ⟨hpresent, hsome⟩ := hopens hkind o hopened
      have hreach : Reaches call.opened call.request.soft s files o := by
        refine ⟨hopened, hpresent, fun hsoft => ?_⟩
        have hdisk := hsome hsoft
        rw [h.disk] at hdisk
        unfold Files.disk at hdisk
        rwa [Option.isSome_map] at hdisk
      refine hsettle (run_sweeps_exact hkind hcall hreads h.index h.disk hreach) fun p f hf => ?_
      rw [mem_fanout_iff, h.keyed_iff hf]
      exact Iff.rfl
    | _ => exact hsettle (hmissed (by rw [hopened]; exact fun o => nofun)) fun p f hf => Iff.rfl

/-! ## The log phase -/

namespace LiveRequest

/-- `r->cache->file.name`. -/
def name (r : LiveRequest) : Bytes := (r.cache.map RequestCache.name).getD []

def key (r : LiveRequest) : Bytes := cacheKey ((r.cache.map RequestCache.keys).getD [])

/-- The tags of its response. -/
def tags (r : LiveRequest) : List Bytes := tagsOf r.wanted r.headers

/-- What the header filter puts aside. -/
def early (r : LiveRequest) : Option Captured :=
  match headerFilter r with
  | .ok captured => captured
  | .error _ => none

/-- Whether the log phase writes an entry. -/
def indexes (r : LiveRequest) : Bool :=
  !r.name.isEmpty && (lateCapture r r.early).isSome && r.writer && r.pool.key

/-- What the log phase makes of the cached responses. -/
def log (r : LiveRequest) (m : TaggedCache) : TaggedCache :=
  if r.indexes then m.retag r.name r.tags else m

/-- The entry that the log phase writes is one of the zone, and nothing fails. -/
structure Writes (r : LiveRequest) (zoneName : Bytes) : Prop where
  zone : r.zone = some zoneName
  index : r.pool.index = fun _ => true
  name : NulFree r.name

/-- The file that has the name of a request holds a response for its key. -/
def Named (L : HeaderLayout) (r : LiveRequest) (disk : Disk) : Prop :=
  ∀ f : CacheFile L, disk r.name = some f.bytes → f.key = r.key

theorem late_captured {captured : Captured} (h : lateCapture r r.early = some captured) :
    r.zone = some captured.zoneName ∧ captured.tags = r.tags := by
  unfold early at h
  cases hf : headerFilter r with
  | error rc =>
    rw [hf] at h
    exact lateCapture_captured h
  | ok captured =>
    rw [hf] at h
    cases captured with
    | none => exact lateCapture_captured h
    | some captured =>
      obtain rfl := Option.some.inj h
      exact headerFilter_captured hf

theorem logPhase_handler (N : Nginx) (r : LiveRequest) (shm : Shm) :
    logPhase N r shm = logHandler N r r.early shm := by
  unfold logPhase early
  cases headerFilter r with
  | error rc => rfl
  | ok captured => rfl

/-- The log phase of a request that writes no entry. -/
theorem logPhase_silent (N : Nginx) (h : r.indexes = false) (shm : Shm) : logPhase N r shm = shm := by
  rw [logPhase_handler]
  unfold logHandler
  unfold indexes name at h
  cases hcache : r.cache with
  | none => rfl
  | some cache =>
    rw [hcache] at h
    simp only [Option.map_some, Option.getD_some] at h
    simp only
    cases hname : cache.name with
    | nil => rfl
    | cons b name =>
      rw [hname] at h
      rw [if_neg (by exact Nat.succ_ne_zero _)]
      cases hlate : lateCapture r r.early with
      | none => rfl
      | some captured =>
        rw [hlate] at h
        simp only
        cases hwriter : r.writer with
        | false => rfl
        | true =>
          rw [hwriter] at h
          have hkey : r.pool.key = false := h
          rw [hkey]
          rfl

/-- The log phase of one that writes an entry. -/
theorem logPhase_writes (N : Nginx) (h : r.indexes = true) (hwrites : r.Writes zoneName) (shm : Shm) :
    logPhase N r shm =
      (upsertFileMeta N (fun _ => true) r.now zoneName r.name r.key r.now 0 r.tags shm).2 := by
  unfold indexes at h
  obtain ⟨⟨⟨hname, hlate⟩, hwriter⟩, hkey⟩ : ((r.name ≠ [] ∧ (lateCapture r r.early).isSome = true) ∧
      r.writer = true) ∧ r.pool.key = true := by simpa using h
  obtain ⟨captured, hcaptured⟩ := Option.isSome_iff_exists.mp hlate
  obtain ⟨hzone, htags⟩ := late_captured hcaptured
  have hown : captured.zoneName = zoneName := Option.some.inj (hzone.symm.trans hwrites.zone)
  rw [logPhase_handler]
  unfold logHandler name key
  unfold name at hname
  cases hcache : r.cache with
  | none =>
    rw [hcache] at hname
    exact absurd rfl hname
  | some cache =>
    rw [hcache] at hname
    have hlen : ¬ cache.name.length = 0 := fun h0 => hname (List.eq_nil_of_length_eq_zero h0)
    simp only [if_neg hlen, hcaptured, hwriter, hkey, hwrites.index, hown, htags, Option.map_some,
      Option.getD_some, Bool.not_true, Bool.false_eq_true, if_false]

end LiveRequest

/-! ## Events -/

/-- What happens to a cache: a purge request with its log phase, a request whose response
is stored in a file, one whose response is not, and the eviction of a file. -/
inductive CacheEvent (L : HeaderLayout)
  | purge (call : PurgeCall) (c : Closing)
  | stored (r : LiveRequest) (f : CacheFile L)
  | unstored (r : LiveRequest)
  | evicted (path : Bytes)

/-- The files and the index that an event leads to. The nodes, the counters and the
context of the next request are not determined. -/
def CacheEvent.Next (N : Nginx) (L : HeaderLayout) (access : IndexAccess) :
    CacheEvent L → Pilot → Pilot → Prop
  | .purge call c, s, s' =>
    let purged := (protocolHandler N L access call s).state
    s'.cache.disk = purged.cache.disk ∧ s'.shm = logPhase N (call.live access c) purged.shm
  | .stored r f, s, s' =>
    s'.cache.disk = Function.update s.cache.disk r.name (some f.bytes) ∧ s'.shm = logPhase N r s.shm
  | .unstored r, s, s' => s'.cache.disk = s.cache.disk ∧ s'.shm = logPhase N r s.shm
  | .evicted path, s, s' => s'.cache.disk = Function.update s.cache.disk path none ∧ s'.shm = s.shm

/-- The events for which nothing fails: a response that is stored is indexed, under the
key of the file; and an entry that is written for another one belongs to the file that
has its name. -/
def CacheEvent.Works (access : IndexAccess) (zoneName : Bytes) : CacheEvent L → Pilot → Prop
  | .purge call c, s =>
    call.Unhindered s.cache.disk ∧ call.OpensFile s ∧
      ((call.live access c).indexes = true →
        (call.live access c).Writes zoneName ∧ (call.live access c).Named L s.cache.disk)
  | .stored r f, _ => r.indexes = true ∧ r.Writes zoneName ∧ f.key = r.key ∧ NulFree f.key
  | .unstored r, s => r.indexes = true → r.Writes zoneName ∧ r.Named L s.cache.disk
  | .evicted _, _ => True

/-- What an event does to the cached responses. -/
noncomputable def CacheEvent.step (access : IndexAccess) : CacheEvent L → TaggedCache → TaggedCache
  | .purge call c, m => (call.live access c).log (m.purge call.mode call.selector)
  | .stored r f, m => Function.update m r.name (some ⟨f.key, f.response, L.validSec f.header, r.tags⟩)
  | .unstored r, m => r.log m
  | .evicted path, m => Function.update m path none

/-- Runs of events for which nothing fails. -/
inductive CacheRun (N : Nginx) (L : HeaderLayout) (access : IndexAccess) (zoneName : Bytes) :
    List (CacheEvent L) → Pilot → Pilot → Prop
  | nil (s : Pilot) : CacheRun N L access zoneName [] s s
  | cons {e : CacheEvent L} {events : List (CacheEvent L)} {s s1 s' : Pilot} :
      e.Works access zoneName s → e.Next N L access s s1 → CacheRun N L access zoneName events s1 s' →
      CacheRun N L access zoneName (e :: events) s s'

/-- The entry that the log phase writes. -/
theorem log_entry (hindex : IndexOk N shm) (hindexes : r.indexes = true) (hwrites : r.Writes zoneName)
    (hshm : shm' = logPhase N r shm) (p : Bytes) :
    toMap shm' zoneName p = if p = r.name then some (r.key, r.tags) else toMap shm zoneName p := by
  rw [hshm, LiveRequest.logPhase_writes N hindexes hwrites, upsert_entry hindex.ok]

/-- A file whose entry is written need not have had one. -/
theorem Synced.written (hindex : IndexOk N s.shm) (hready : zoneReady s.shm zoneName = true)
    (hindexed : ∀ p f, p ≠ r.name → files p = some f → ∃ tags, toMap s.shm zoneName p = some (f.key, tags))
    (hnamed : ∀ f, files r.name = some f → f.key = r.key)
    (hkeys : ∀ p f, files p = some f → NulFree f.key) (hindexes : r.indexes = true)
    (hwrites : r.Writes zoneName) (hdisk : s'.cache.disk = files.disk)
    (hshm : s'.shm = logPhase N r s.shm) : Synced N zoneName files s' ∧
      itemsOf files s'.shm zoneName = (itemsOf files s.shm zoneName).retag r.name r.tags := by
  have hentry := log_entry hindex hindexes hwrites hshm
  refine ⟨⟨hdisk, ?_, fun p f hf => ?_, hkeys, ?_⟩, funext fun p => ?_⟩
  · rw [hshm, LiveRequest.logPhase_writes N hindexes hwrites]
    exact hindex.upsert hwrites.name
  · rw [hentry p]
    split
    · next hp =>
      rw [hp] at hf
      exact ⟨r.tags, by rw [hnamed f hf]⟩
    · next hp => exact hindexed p f hp hf
  · rw [hshm, LiveRequest.logPhase_writes N hindexes hwrites, upsertFileMeta_ready hindex.ok, hready]
  · unfold TaggedCache.retag
    rw [Function.update_apply]
    unfold itemsOf
    rw [hentry p]
    split
    · next hp =>
      rw [hp, Option.map_map]
      rfl
    · rfl

/-- The log phase of a request whose response is not stored. -/
theorem Synced.logged (h : Synced N zoneName files s) (hworks : r.indexes = true →
      r.Writes zoneName ∧ ∀ f, files r.name = some f → f.key = r.key)
    (hdisk : s'.cache.disk = s.cache.disk) (hshm : s'.shm = logPhase N r s.shm) :
    Synced N zoneName files s' ∧
      itemsOf files s'.shm zoneName = r.log (itemsOf files s.shm zoneName) := by
  unfold LiveRequest.log
  cases hindexes : r.indexes with
  | false =>
    rw [LiveRequest.logPhase_silent N hindexes] at hshm
    refine ⟨⟨hdisk.trans h.disk, ?_, ?_, h.keys, ?_⟩, ?_⟩
    · exact hshm ▸ h.index
    · exact hshm ▸ h.indexed
    · exact hshm ▸ h.ready
    · rw [hshm, if_neg Bool.false_ne_true]
  | true =>
    obtain ⟨hwrites, hnamed⟩ := hworks hindexes
    exact Synced.written h.index h.ready (fun p f _ => h.indexed p f) hnamed h.keys hindexes hwrites
      (hdisk.trans h.disk) hshm

/-- Each event is a step of the cached responses. -/
theorem CacheEvent.refines {e : CacheEvent L} (haccess : access.Serves zoneName)
    (h : Synced N zoneName files s) (hworks : e.Works access zoneName s) (hnext : e.Next N L access s s') :
    ∃ files' : Files L, Synced N zoneName files' s' ∧
      itemsOf files' s'.shm zoneName = e.step access (itemsOf files s.shm zoneName) := by
  have hnamed : ∀ {r : LiveRequest}, r.Named L s.cache.disk →
      ∀ f, files r.name = some f → f.key = r.key := by
    intro r hr f hf
    refine hr f ?_
    rw [h.disk]
    exact Files.disk_eq_some.mpr hf
  cases e with
  | purge call c =>
    obtain ⟨hcall, hopens, hlog⟩ := hworks
    obtain ⟨hdisk, hshm⟩ := hnext
    rw [(protocolHandler_run fun _ => hcall.reads).2] at hdisk hshm
    obtain ⟨files', hsynced, hkept, hitems⟩ := run_purges_items h hcall haccess hopens
    have hfile : (call.live access c).indexes = true → (call.live access c).Writes zoneName ∧
        ∀ f', files' (call.live access c).name = some f' → f'.key = (call.live access c).key := by
      intro hindexes
      refine ⟨(hlog hindexes).1, fun f' hf' => ?_⟩
      obtain ⟨f, hf, hkey⟩ := hkept _ f' hf'
      rw [hkey]
      exact hnamed (hlog hindexes).2 f hf
    obtain ⟨hsynced', hlogged⟩ := hsynced.logged hfile hdisk hshm
    exact ⟨files', hsynced', hlogged.trans (congrArg _ hitems)⟩
  | stored r f =>
    obtain ⟨hindexes, hwrites, hkey, hnul⟩ := hworks
    obtain ⟨hdisk, hshm⟩ := hnext
    have hown : ∀ g, Function.update files r.name (some f) r.name = some g → g = f := by
      intro g hg
      rw [Function.update_self] at hg
      exact (Option.some.inj hg).symm
    have hother : ∀ p g, p ≠ r.name → Function.update files r.name (some f) p = some g →
        files p = some g := by
      intro p g hp hg
      rwa [Function.update_of_ne hp] at hg
    have hkeys : ∀ p g, Function.update files r.name (some f) p = some g → NulFree g.key := by
      intro p g hg
      rcases Classical.em (p = r.name) with rfl | hp
      · rw [hown g hg]
        exact hnul
      · exact h.keys p g (hother p g hp hg)
    have hdisk' : s'.cache.disk = Files.disk (Function.update files r.name (some f)) := by
      rw [hdisk, h.disk, Files.disk_update]
      rfl
    -- the entry of the new file is only there behind the log phase
    obtain ⟨hsynced, hitems⟩ := Synced.written h.index h.ready
      (fun p g hp hg => h.indexed p g (hother p g hp hg)) (fun g hg => hown g hg ▸ hkey) hkeys hindexes
      hwrites hdisk' hshm
    refine ⟨_, hsynced, hitems.trans ?_⟩
    rw [itemsOf_update]
    unfold TaggedCache.retag
    rw [Function.update_idem, Function.update_self]
    rfl
  | unstored r =>
    obtain ⟨hdisk, hshm⟩ := hnext
    exact ⟨files, h.logged (fun hi => ⟨(hworks hi).1, hnamed (hworks hi).2⟩) hdisk hshm⟩
  | evicted path =>
    obtain ⟨hdisk, hshm⟩ := hnext
    have hother : ∀ p f, Function.update files path none p = some f → files p = some f := by
      intro p f hf
      rw [Function.update_apply] at hf
      split at hf
      · exact nomatch hf
      · exact hf
    refine ⟨Function.update files path none, ⟨?_, hshm ▸ h.index, fun p f hf => ?_, fun p f hf => ?_,
      hshm ▸ h.ready⟩, ?_⟩
    · rw [hdisk, h.disk, Files.disk_update]
      rfl
    · rw [hshm]
      exact h.indexed p f (hother p f hf)
    · exact h.keys p f (hother p f hf)
    · rw [hshm, itemsOf_update]
      rfl

/-- What a run of events leaves. -/
theorem CacheRun.refines (haccess : access.Serves zoneName) {events : List (CacheEvent L)}
    (h : Synced N zoneName files s) (hrun : CacheRun N L access zoneName events s s') :
    ∃ files' : Files L, Synced N zoneName files' s' ∧ itemsOf files' s'.shm zoneName =
      events.foldl (fun m e => e.step access m) (itemsOf files s.shm zoneName) := by
  induction hrun generalizing files with
  | nil s => exact ⟨files, h, rfl⟩
  | cons hworks hnext _ ih =>
    obtain ⟨files1, h1, hitems⟩ := CacheEvent.refines haccess h hworks hnext
    obtain ⟨files', h', hrest⟩ := ih h1
    refine ⟨files', h', hrest.trans ?_⟩
    rw [List.foldl_cons, ← hitems]

/-- Each run of events for which nothing fails is a run of the cached responses, and
keeps files and index in step. -/
theorem runs_refine (N : Nginx) (L : HeaderLayout) (access : IndexAccess) (zoneName : Bytes)
    (haccess : access.Serves zoneName) (events : List (CacheEvent L)) (s s' : Pilot) (files : Files L)
    (h : Synced N zoneName files s) (hrun : CacheRun N L access zoneName events s s') :
    ∃ files' : Files L, Synced N zoneName files' s' ∧ itemsOf files' s'.shm zoneName =
      events.foldl (fun m e => e.step access m) (itemsOf files s.shm zoneName) :=
  hrun.refines haccess h

/-- Two variants of a resource in a ready zone, of which `a` carries the tag `t`. -/
def syncedState : Pilot :=
  { variantState with
    shm := (setZoneState true 3 [122] ⟨true, 3, 3⟩
      (runStore .reference
        [.upsert (fun _ => true) 1 [122] [97] [107] 1 1 [[116]],
         .upsert (fun _ => true) 2 [122] [98] [107] 1 1 []])).2 }

theorem syncedState_synced : Synced .reference [122] variantFiles syncedState := by
  have hentry : ∀ p f, variantFiles p = some f →
      f.key = [107] ∧ ∃ tags, toMap syncedState.shm [122] p = some ([107], tags) := by
    intro p f hf
    unfold variantFiles at hf
    split at hf
    · next hp =>
      obtain rfl := Option.some.inj hf
      exact ⟨rfl, [[116]], by rw [hp]; decide +kernel⟩
    · split at hf
      · next hp =>
        obtain rfl := Option.some.inj hf
        exact ⟨rfl, [], by rw [hp]; decide +kernel⟩
      · exact nomatch hf
  refine ⟨rfl, (runStore_indexOk .reference (by decide)).setZoneState, fun p f hf => ?_,
    fun p f hf => ?_, by decide +kernel⟩
  · rw [(hentry p f hf).1]
    exact (hentry p f hf).2
  · rw [(hentry p f hf).1]
    decide

theorem sampleAccess_serves : sampleAccess.Serves [122] := ⟨rfl, rfl, rfl⟩

/-- What a purge request of the samples and its log phase leave. -/
def samplePurged (call : PurgeCall) (s : Pilot) : Pilot :=
  (protocolHandler .reference .reference sampleAccess call s).state.next .reference sampleAccess call
    sampleClosing

theorem samplePurged_next (call : PurgeCall) (s : Pilot) :
    (CacheEvent.purge (L := .reference) call sampleClosing).Next .reference .reference sampleAccess s
      (samplePurged call s) := ⟨rfl, rfl⟩

/-- A purge by the tag `t`, or of all files. -/
theorem sampleCall_works {s : Pilot} (hlisted : ∀ p, (s.cache.disk p).isSome = true →
      p ∈ sampleWalk.listing) {call : PurgeCall} (hcall : call = sampleCall true ∨ call = sampleAll) :
    (CacheEvent.purge (L := .reference) call sampleClosing).Works sampleAccess [122] s := by
  rcases hcall with rfl | rfl
  · exact ⟨⟨rfl, ⟨rfl, fun _ => rfl⟩, hlisted, rfl, fun _ => rfl, by decide, rfl, rfl, rfl⟩,
      fun hkind => absurd hkind (by decide +kernel), fun h => absurd h (by decide +kernel)⟩
  · exact ⟨⟨rfl, ⟨rfl, fun _ => rfl⟩, hlisted, rfl, fun _ => rfl, by decide, rfl, rfl, rfl⟩,
      fun hkind => absurd hkind (by decide +kernel), fun h => absurd h (by decide +kernel)⟩

theorem runs_refine_sample : ∃ files' : Files .reference,
    Synced .reference [122] files' (samplePurged (sampleCall true) syncedState) ∧
    itemsOf files' (samplePurged (sampleCall true) syncedState).shm [122] =
      (CacheEvent.purge (L := .reference) (sampleCall true) sampleClosing).step sampleAccess
        (itemsOf variantFiles syncedState.shm [122]) :=
  runs_refine .reference .reference sampleAccess [122] sampleAccess_serves
    [.purge (sampleCall true) sampleClosing] syncedState _ variantFiles syncedState_synced
    (.cons (sampleCall_works variantState_listed (Or.inl rfl)) (samplePurged_next _ _) (.nil _))

end CachePilot
