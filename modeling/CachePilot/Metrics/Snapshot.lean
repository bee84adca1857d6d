import CachePilot.Live.Runtime
import CachePilot.Metrics.Serialize
import CachePilot.Purge.Declined
import CachePilot.Store.Failures

/-!
# What the metrics are read from

`ngx_http_cache_pilot_snapshot_zone`: the nodes of a cache are counted by their state, and
the state of the index is told as far as the worker can see it.

Results:
* `walkRbtree_counts`: which nodes are counted as what;
* `purges_only_age`: over any number of purges, and as time goes by, the number of entries
  only falls, and so does that of the valid ones;
* `handles_agree`: no purge and no page depends on the writer of the worker;
* `snapshot_foretells_purge`: a zone is shown as ready exactly if a tag purge is not refused,
  and otherwise the reason that is shown is that of the refusal.
-/

namespace CachePilot
open NgxString SearchTree

/-! ## The nodes -/

/-- The counters of `ngx_http_cache_pilot_walk_rbtree`. -/
structure EntryCounts where
  valid : Nat
  expired : Nat
  updating : Nat
deriving DecidableEq, Repr

def EntryCounts.zero : EntryCounts := ⟨0, 0, 0⟩

/-- All entries that are counted. -/
def EntryCounts.total (n : EntryCounts) : Nat := n.valid + n.expired + n.updating

/-- `ngx_http_cache_pilot_walk_rbtree`. -/
def walkRbtree (now : Int) (node : Addr → CacheNode) :
    BinaryTree CacheTreeNode → EntryCounts → EntryCounts
  | .nil, n => n
  | .node x left right, n =>
    let n := walkRbtree now node left n
    let n := walkRbtree now node right n
    let fcn := node x.addr
    if !fcn.present then n
    else if fcn.updating then { n with updating := n.updating + 1 }
    else if now < fcn.validSec then { n with valid := n.valid + 1 }
    else { n with expired := n.expired + 1 }

/-- `ngx_http_cache_pilot_stat_zone_t`, with what nginx has of its cache beside the nodes. -/
structure StatZone where
  name : Bytes
  maxSize : Int64
  cold : UInt64

/-- `ngx_http_cache_pilot_snapshot_zone`; `indexShmSize` is that of the index zone. -/
def snapshotZone (access : IndexAccess) (indexShmSize : Int64) (now : Int) (sz : StatZone)
    (cache : FileCache) (shm : Shm) : ZoneSnapshot :=
  let n := walkRbtree now cache.node cache.tree .zero
  let snap : ZoneSnapshot :=
    { name := sz.name
      size := Int64.ofInt cache.size
      maxSize := sz.maxSize
      indexMaxSize := 0
      cold := sz.cold
      entriesValid := UInt64.ofNat n.valid
      entriesExpired := UInt64.ofNat n.expired
      entriesUpdating := UInt64.ofNat n.updating
      indexState := .disabled
      hasIndex := false
      indexLastUpdatedAt := 0
      indexLastBootstrapAt := 0
      indexNotReadyReason := none
      allocFailures := 0 }
  if !access.configured then snap
  else
    let reader := access.reader || access.writer
    let state := if reader then getZoneState now shm sz.name else ⟨false, 0, 0⟩
    let snap : ZoneSnapshot :=
      { snap with
        indexState := .configured
        hasIndex := true
        indexMaxSize := indexShmSize
        indexNotReadyReason := some .readerUnavailable }
    let snap : ZoneSnapshot :=
      if reader then
        { snap with
          indexLastBootstrapAt := Int64.ofInt state.lastBootstrapAt
          indexLastUpdatedAt := Int64.ofInt state.lastUpdatedAt
          indexNotReadyReason := if state.bootstrapComplete then none else some .indexNotReady
          allocFailures := UInt64.ofNat (getStats shm) }
      else snap
    if access.zone.isSome && reader && state.bootstrapComplete then
      { snap with indexState := .ready, indexNotReadyReason := none }
    else if reader && access.zone.isNone then
      { snap with indexNotReadyReason := some .zoneNotRegistered }
    else snap

/-! ## Counts -/

namespace CacheNode

def isUpdating (n : CacheNode) : Bool := n.present && n.updating

def isValid (n : CacheNode) (now : Int) : Bool := n.present && !n.updating && decide (now < n.validSec)

def isExpired (n : CacheNode) (now : Int) : Bool :=
  n.present && !n.updating && !decide (now < n.validSec)

end CacheNode

variable {N : Nginx} {L : HeaderLayout} {access : IndexAccess} {call : PurgeCall} {s s' : Pilot}
  {now now' : Int} {node node' : Addr → CacheNode} {sz : StatZone}

/-- Each node that is there is counted once, by its state. -/
theorem walkRbtree_counts (now : Int) (node : Addr → CacheNode) (t : BinaryTree CacheTreeNode)
    (n : EntryCounts) :
    (walkRbtree now node t n).valid = n.valid + (inorder t).countP (fun x => (node x.addr).isValid now) ∧
    (walkRbtree now node t n).expired =
      n.expired + (inorder t).countP (fun x => (node x.addr).isExpired now) ∧
    (walkRbtree now node t n).updating =
      n.updating + (inorder t).countP (fun x => (node x.addr).isUpdating) := by
  induction t generalizing n with
  | nil => exact ⟨rfl, rfl, rfl⟩
  | node x left right ihl ihr =>
    obtain ⟨hvl, hel, hul⟩ := ihl n
    obtain ⟨hvr, her, hur⟩ := ihr (walkRbtree now node left n)
    rw [hvl] at hvr
    rw [hel] at her
    rw [hul] at hur
    unfold walkRbtree
    simp only [inorder_node, List.countP_append, List.countP_cons]
    generalize walkRbtree now node right (walkRbtree now node left n) = m at hvr her hur
    obtain ⟨valid, expired, updating⟩ := m
    simp only at hvr her hur
    subst hvr her hur
    unfold CacheNode.isValid CacheNode.isExpired CacheNode.isUpdating
    cases (node x.addr).present with
    | false => simp [Nat.add_assoc]
    | true =>
      cases (node x.addr).updating with
      | true => simp [Nat.add_assoc, Nat.add_comm, Nat.add_left_comm]
      | false =>
        cases hvalid : decide (now < (node x.addr).validSec) with
        | true =>
          rw [if_pos (of_decide_eq_true hvalid)]
          simp [Nat.add_assoc, Nat.add_comm, Nat.add_left_comm]
        | false =>
          rw [if_neg (of_decide_eq_false hvalid)]
          simp [Nat.add_assoc, Nat.add_comm, Nat.add_left_comm]

/-- The three counts add up to the nodes that are there. -/
theorem walkRbtree_total (now : Int) (node : Addr → CacheNode) (t : BinaryTree CacheTreeNode) :
    (walkRbtree now node t .zero).total = (inorder t).countP fun x => (node x.addr).present := by
  obtain ⟨hv, he, hu⟩ := walkRbtree_counts now node t .zero
  unfold EntryCounts.total
  rw [hv, he, hu]
  simp only [EntryCounts.zero, Nat.zero_add]
  induction inorder t with
  | nil => rfl
  | cons x xs ih =>
    have hone : (if (node x.addr).isValid now = true then 1 else 0) +
        (if (node x.addr).isExpired now = true then 1 else 0) +
        (if (node x.addr).isUpdating = true then 1 else 0) =
          if (node x.addr).present = true then 1 else 0 := by
      unfold CacheNode.isValid CacheNode.isExpired CacheNode.isUpdating
      cases (node x.addr).present with
      | false => rfl
      | true =>
        cases (node x.addr).updating with
        | true => rfl
        | false =>
          cases decide (now < (node x.addr).validSec) with
          | true => rfl
          | false => rfl
    simp only [List.countP_cons, ← ih, ← hone]
    omega

/-! ## Ageing -/

/-- What a purge leaves of a node is valid, updating or there only if the node was. -/
theorem NodeLeft.ages {n n' : CacheNode} (h : NodeLeft n n') (hle : now ≤ now') (hnow : 0 ≤ now') :
    (n'.isValid now' = true → n.isValid now = true) ∧ (n'.isUpdating = true → n.isUpdating = true) ∧
      (n'.present = true → n.present = true) := by
  refine ⟨fun hvalid => ?_, fun hupdating => ?_, h.present⟩
  · unfold CacheNode.isValid at hvalid ⊢
    simp only [Bool.and_eq_true, Bool.not_eq_true', decide_eq_true_eq] at hvalid ⊢
    obtain ⟨⟨hpresent, hidle⟩, hlt⟩ := hvalid
    have hsec : n'.validSec = n.validSec :=
      h.validSec.resolve_right fun hzero => absurd (hzero ▸ hlt) (not_lt.mpr hnow)
    refine ⟨⟨h.present hpresent, ?_⟩, hle.trans_lt (hsec ▸ hlt)⟩
    rcases h.updating with hsame | ⟨-, hgone | hzero⟩
    · exact hsame.symm.trans hidle
    · exact nomatch hpresent.symm.trans hgone
    · exact absurd (hzero ▸ hlt) (not_lt.mpr hnow)
  · unfold CacheNode.isUpdating at hupdating ⊢
    simp only [Bool.and_eq_true] at hupdating ⊢
    refine ⟨h.present hupdating.1, ?_⟩
    rcases h.updating with hsame | ⟨hidle, -⟩
    · exact hsame.symm.trans hupdating.2
    · exact nomatch hidle.symm.trans hupdating.2

/-- The counts over nodes that have aged. -/
theorem walkRbtree_ages (h : ∀ a, NodeLeft (node a) (node' a)) (hle : now ≤ now') (hnow : 0 ≤ now')
    (t : BinaryTree CacheTreeNode) :
    (walkRbtree now' node' t .zero).valid ≤ (walkRbtree now node t .zero).valid ∧
      (walkRbtree now' node' t .zero).updating ≤ (walkRbtree now node t .zero).updating ∧
      (walkRbtree now' node' t .zero).total ≤ (walkRbtree now node t .zero).total := by
  obtain ⟨hv, -, hu⟩ := walkRbtree_counts now node t .zero
  obtain ⟨hv', -, hu'⟩ := walkRbtree_counts now' node' t .zero
  have hages := fun x : CacheTreeNode => NodeLeft.ages (h x.addr) hle hnow
  rw [hv, hv', hu, hu', walkRbtree_total, walkRbtree_total]
  refine ⟨?_, ?_, ?_⟩
  · exact Nat.add_le_add_left (List.countP_mono_left fun x _ => (hages x).1) _
  · exact Nat.add_le_add_left (List.countP_mono_left fun x _ => (hages x).2.1) _
  · exact List.countP_mono_left fun x _ => (hages x).2.2

/-- Purge requests one after the other. The context of a request ends with it. -/
def servePurges (N : Nginx) (L : HeaderLayout) (access : IndexAccess) (calls : List PurgeCall)
    (s : Pilot) : Pilot :=
  calls.foldl (fun s call => { (protocolHandler N L access call s).state with ctx := none }) s

/-- What any number of purge requests make of a node. -/
theorem servePurges_nodes (N : Nginx) (L : HeaderLayout) (access : IndexAccess) (calls : List PurgeCall)
    (hindex : IndexOk N s.shm) :
    let s' := servePurges N L access calls s
    s'.cache.tree = s.cache.tree ∧ ∀ a, NodeLeft (s.cache.node a) (s'.cache.node a) := by
  induction calls generalizing s with
  | nil => exact ⟨rfl, fun a => .refl _⟩
  | cons call calls ih =>
    have hsteps := protocolHandler_steps N L access call s hindex
    have hindex' : IndexOk N { (protocolHandler N L access call s).state with ctx := none }.shm :=
      hsteps.index hindex
    obtain ⟨htree, hnodes⟩ := ih hindex'
    exact ⟨htree.trans hsteps.nodes.1, fun a => (hsteps.nodes.2 a).trans (hnodes a)⟩

/-- Purges and time take entries out of the cache and end their validity. However many
requests run, and whatever fails, no more entries are counted as valid behind them, no more
as updating, and no more in all. -/
theorem purges_only_age (N : Nginx) (L : HeaderLayout) (access : IndexAccess) (calls : List PurgeCall)
    (s : Pilot) (now now' : Int) (hindex : IndexOk N s.shm) (hle : now ≤ now') (hnow : 0 ≤ now') :
    let s' := servePurges N L access calls s
    let n := walkRbtree now s.cache.node s.cache.tree .zero
    let n' := walkRbtree now' s'.cache.node s'.cache.tree .zero
    n'.valid ≤ n.valid ∧ n'.updating ≤ n.updating ∧ n'.total ≤ n.total := by
  intro s' n n'
  obtain ⟨htree, hnodes⟩ := servePurges_nodes N L access calls hindex
  have hn' : n' = walkRbtree now' s'.cache.node s.cache.tree .zero := by
    show walkRbtree now' s'.cache.node s'.cache.tree .zero = _
    exact congrArg (walkRbtree now' s'.cache.node · .zero) htree
  rw [hn']
  exact walkRbtree_ages hnodes hle hnow s.cache.tree

theorem purges_only_age_sample :
    let s' := servePurges .reference .reference sampleAccess [sampleExact, sampleAll] variantState
    let n := walkRbtree 3 variantState.cache.node variantState.cache.tree .zero
    let n' := walkRbtree 4 s'.cache.node s'.cache.tree .zero
    n'.valid ≤ n.valid ∧ n'.updating ≤ n.updating ∧ n'.total ≤ n.total :=
  purges_only_age .reference .reference sampleAccess [sampleExact, sampleAll] variantState 3 4
    variantState_indexOk (by decide) (by decide)

/-! ## The handles of the index -/

/-- Without the handle of the writer. -/
def IndexAccess.readOnly (access : IndexAccess) : IndexAccess := { access with writer := false }

section
variable (h : (access.reader || access.writer) = access.reader) {r : PurgeRequest}
include h

theorem keyIndexReady_readOnly (pool : PurgePool) (s : Pilot) :
    keyIndexReady access.readOnly pool s = keyIndexReady access pool s := by
  unfold keyIndexReady
  rw [h]
  simp only [IndexAccess.readOnly, Bool.or_false]

theorem handler_readOnly (opened : CacheOpen) (tagged purgeAll : Bool) (s : Pilot) :
    handler N L access.readOnly opened tagged purgeAll r s =
      handler N L access opened tagged purgeAll r s := by
  unfold handler exactPurge exactPurgeSoft exactFanout
  simp only [keyIndexReady_readOnly h]

theorem partialPurge_readOnly (w : Walk) (threads : Option Bool) (s : Pilot) :
    partialPurge N L access.readOnly w threads r s = partialPurge N L access w threads r s := by
  unfold partialPurge partialFromIndex
  simp only [keyIndexReady_readOnly h]

/-- A tag purge asks for the reader only. The others take the writer where the reader is
missing, but then it is missing, too. -/
theorem protocolHandler_readOnly (call : PurgeCall) (s : Pilot) :
    protocolHandler N L access.readOnly call s = protocolHandler N L access call s := by
  unfold protocolHandler finalHandler dispatchSpecial dispatchUntagged
  simp only [handler_readOnly h, partialPurge_readOnly h]
  rfl

theorem snapshotZone_readOnly (indexShmSize : Int64) (now : Int) (sz : StatZone) (cache : FileCache)
    (shm : Shm) :
    snapshotZone access.readOnly indexShmSize now sz cache shm =
      snapshotZone access indexShmSize now sz cache shm := by
  unfold snapshotZone
  rw [h]
  simp only [IndexAccess.readOnly, Bool.or_false]

end

/-- Whatever has happened to the handles of a worker, its writer is its reader: what it can
write it can read. A purge request comes to the same answer and state without the writer,
and the metrics show the same. -/
theorem handles_agree (events : List RuntimeEvent) (configured : Bool) (zone : Option Bytes)
    (opened : Option Nat) :
    let rt := events.foldl StoreRuntime.step .shutdown
    let access := rt.access configured zone opened
    (∀ writer, rt.writer = some writer → (storeReader configured opened rt).1 = some writer) ∧
      (access.reader || access.writer) = access.reader ∧
      access.ready = (if access.configured && access.reader then access.zone else none) ∧
      (∀ (N : Nginx) (L : HeaderLayout) (call : PurgeCall) (s : Pilot),
        protocolHandler N L access.readOnly call s = protocolHandler N L access call s) ∧
      ∀ (indexShmSize : Int64) (now : Int) (sz : StatZone) (cache : FileCache) (shm : Shm),
        snapshotZone access.readOnly indexShmSize now sz cache shm =
          snapshotZone access indexShmSize now sz cache shm := by
  intro rt access
  obtain ⟨hsame, hfallback⟩ := StoreRuntime.run_agrees events configured zone opened
  refine ⟨hsame, hfallback, ?_, fun N L => protocolHandler_readOnly hfallback,
    snapshotZone_readOnly hfallback⟩
  show (if access.configured && (access.reader || access.writer) then access.zone else none) = _
  rw [show (access.reader || access.writer) = access.reader from hfallback]

/-! ## The state of the index -/

/-- What is shown of the index. -/
theorem snapshotZone_index (access : IndexAccess) (indexShmSize : Int64) (now : Int) (sz : StatZone)
    (cache : FileCache) (shm : Shm) :
    let snap := snapshotZone access indexShmSize now sz cache shm
    let reader := access.reader || access.writer
    let ready := zoneReady shm sz.name
    (snap.hasIndex = access.configured) ∧
    (snap.indexState = .ready ↔
      access.configured = true ∧ access.zone.isSome = true ∧ reader = true ∧ ready = true) ∧
    (snap.indexState = .disabled ↔ access.configured = false) ∧
    snap.indexNotReadyReason =
      if !access.configured then none
      else if !reader then some .readerUnavailable
      else if access.zone.isNone then some .zoneNotRegistered
      else if !ready then some .indexNotReady
      else none := by
  have hstate := getZoneState_complete now shm sz.name
  unfold snapshotZone
  simp only
  generalize getZoneState now shm sz.name = state at hstate
  rw [← hstate]
  cases access.configured with
  | false => simp
  | true =>
    cases access.reader || access.writer with
    | false => simp
    | true =>
      cases access.zone with
      | none => cases hready : state.bootstrapComplete <;> simp [hready]
      | some zoneName => cases hready : state.bootstrapComplete <;> simp [hready]

/-- The refusal of a purge and the reason that is shown, for one of which the zone is looked
at first, and for the other the handle. -/
theorem refusal_shown (access : IndexAccess) (hzone : access.zone = none ∨ access.zone = some sz.name)
    (hhandles : (access.reader || access.writer) = access.reader) (indexShmSize : Int64) (now now' : Int)
    (cache : FileCache) (shm : Shm) :
    let snap := snapshotZone access indexShmSize now sz cache shm
    (access.refusal now' shm ≠ none ↔ snap.indexState ≠ .ready) ∧
      (snap.indexState = .configured → access.zone.isSome = true ∨ access.reader = true →
        ∃ reason, access.refusal now' shm = some reason ∧
          snap.indexNotReadyReason.map NotReadyReason.str = some reason.value) := by
  intro snap
  obtain ⟨-, hready, hdisabled, hreason⟩ := snapshotZone_index access indexShmSize now sz cache shm
  change (snap.indexState = .ready ↔ _) at hready
  change (snap.indexState = .disabled ↔ _) at hdisabled
  change snap.indexNotReadyReason = _ at hreason
  rw [hhandles] at hready hreason
  have hcomplete := getZoneState_complete now' shm sz.name
  have hshown : access.refusal now' shm =
      if !access.configured then some .indexNotConfigured
      else if access.zone.isNone then some .zoneNotRegistered
      else if !access.reader then some .readerUnavailable
      else if !zoneReady shm sz.name then some .indexNotReady
      else none := by
    unfold IndexAccess.refusal
    rcases hzone with hzone | hzone
    · rw [hzone]
      rfl
    · rw [hzone, ← hcomplete]
      rfl
  rw [hshown, hreason]
  cases hconf : access.configured with
  | false =>
    have hstate := hdisabled.mpr hconf
    rw [hstate]
    exact ⟨iff_of_true (nomatch ·) (nomatch ·), (nomatch ·)⟩
  | true =>
    have hshows : snap.indexState = .ready ↔
        access.zone.isSome = true ∧ access.reader = true ∧ zoneReady shm sz.name = true :=
      hready.trans (and_iff_right hconf)
    rw [ne_eq snap.indexState, hshows]
    cases hzone' : access.zone with
    | none => cases access.reader <;> simp [NotReadyReason.str, DeclineReason.value]
    | some zoneName =>
      cases hreader : access.reader with
      | false => simp [NotReadyReason.str, DeclineReason.value]
      | true =>
        cases hcold : zoneReady shm sz.name with
        | false => simp [NotReadyReason.str, DeclineReason.value]
        | true =>
          have hstate : snap.indexState = .ready := hshows.mpr ⟨hzone' ▸ rfl, hreader, hcold⟩
          simp [hstate]

/-- What the metrics show of a zone is what a tag purge in its worker comes to: it is
answered 412 unless the index is shown as ready, and the reason that is shown is the one
that its context records. Only a zone that is neither registered nor to be read is shown for
the handle and refused for the zone. -/
theorem snapshot_foretells_purge (N : Nginx) (L : HeaderLayout) (events : List RuntimeEvent)
    (configured : Bool) (zone : Option Bytes) (opened : Option Nat) (indexShmSize : Int64) (now : Int)
    (sz : StatZone) (call : PurgeCall) (s : Pilot) (hzone : zone = none ∨ zone = some sz.name)
    (hctx : call.pool.ctx = true) (hkind : call.kind = .tag) (hreads : call.reads call.tagPool = true) :
    let access := (events.foldl StoreRuntime.step .shutdown).access configured zone opened
    let snap := snapshotZone access indexShmSize now sz s.cache s.shm
    let f := protocolHandler N L access call s
    (f.answer = some .preconditionFailed ↔ snap.indexState ≠ .ready) ∧
      (snap.indexState = .configured → zone.isSome = true ∨ access.reader = true →
        snap.indexNotReadyReason.map NotReadyReason.str = some (declineReasonValue f.state)) := by
  intro access snap f
  obtain ⟨-, hhandles⟩ := StoreRuntime.run_agrees events configured zone opened
  obtain ⟨hrefusal, hshown⟩ := refusal_shown access hzone hhandles indexShmSize now call.now s.cache s.shm
  refine ⟨⟨fun h => ?_, fun h => ?_⟩, fun hstate hfirst => ?_⟩
  · exact hrefusal.mp (protocolHandler_declined hctx h).2.2
  · obtain ⟨reason, href⟩ := Option.ne_none_iff_exists'.mp (hrefusal.mpr h)
    show (protocolHandler N L access call s).answer = _
    rw [protocolHandler_refused hctx hkind hreads href]
  · obtain ⟨reason, href, hreason⟩ := hshown hstate hfirst
    show _ = some (declineReasonValue (protocolHandler N L access call s).state)
    rw [protocolHandler_refused hctx hkind hreads href]
    unfold declineReasonValue
    rw [declineReason_set_of_ctx hctx]
    exact hreason

/-- A worker that has opened the index, and a purge by the tag `t`. -/
theorem snapshot_foretells_purge_sample :
    let access := ([RuntimeEvent.init true true (some 0)].foldl StoreRuntime.step .shutdown).access true
      (some [122]) none
    let snap := snapshotZone access 4096 3 ⟨[122], 0, 0⟩ variantState.cache variantState.shm
    let f := protocolHandler .reference .reference access (sampleCall true) variantState
    (f.answer = some .preconditionFailed ↔ snap.indexState ≠ .ready) ∧
      (snap.indexState = .configured → (some [(122 : UInt8)]).isSome = true ∨ access.reader = true →
        snap.indexNotReadyReason.map NotReadyReason.str = some (declineReasonValue f.state)) :=
  snapshot_foretells_purge .reference .reference [.init true true (some 0)] true (some [122]) none 4096 3
    ⟨[122], 0, 0⟩ (sampleCall true) variantState (Or.inr rfl) rfl (by decide +kernel) (by decide +kernel)

end CachePilot
