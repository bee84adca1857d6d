import CachePilot.Purge.Exact

/-!
# Tag purges

`ngx_http_cache_index_purge` of `ngx_cache_pilot_index.c`, and the branch of the
dispatch that calls it. A tag purge has nothing but the index: it declines
unless the bootstrap of the zone is complete, and then purges the paths that are
indexed under its tags.

Results:
* `dispatchTags_refused`, `dispatchTags_open`: a purge declines where a check of its
  index fails, and only there;
* `dispatchTags_ok`: one that is answered 200 has had its index open to it.
-/

namespace CachePilot
open NgxString

/-! ## The purge -/

/-- One turn of the loop of `index_purge`: other than `by_indexed_path`, it drops
the entry of a missing file in a soft purge too. -/
def purgeTagged (N : Nginx) (L : HeaderLayout) (calls : FileCalls) (now : Int) (zoneName : Bytes)
    (soft : Bool) (path : Bytes) (s : Pilot) : NgxRc × Pilot :=
  let r := purgeByPath L calls soft path s
  if r.1 == .ok && soft then r
  else if r.1 == .ok || r.1 == .declined then (r.1, deleteIndexPath N now zoneName path r.2)
  else r

theorem purgeTagged_byPath (N : Nginx) (L : HeaderLayout) (calls : FileCalls) (now : Int)
    (zoneName : Bytes) (soft : Bool) (path : Bytes) (s : Pilot) :
    ((purgeTagged N L calls now zoneName soft path s).1,
      (purgeTagged N L calls now zoneName soft path s).2.cache) = byPath L calls soft path s.cache := by
  unfold purgeTagged
  simp only
  split
  · rfl
  · split
    · rfl
    · rfl

/-- `ngx_http_cache_index_purge`. -/
def indexPurge (N : Nginx) (L : HeaderLayout) (access : IndexAccess) (r : PurgeRequest)
    (tags : List Bytes) (s : Pilot) : NgxRc × Pilot :=
  if !access.configured then (.declined, s.setDeclineReason r.pool .indexNotConfigured)
  else
    match access.zone with
    | none => (.declined, s.setDeclineReason r.pool .zoneNotRegistered)
    | some zoneName =>
      if !access.reader then (.declined, s.setDeclineReason r.pool .readerUnavailable)
      else if !(getZoneState r.now s.shm zoneName).bootstrapComplete then
        (.declined, s.setDeclineReason r.pool .indexNotReady)
      else
        match collectPathsByTags N r.pool.collect s.shm zoneName tags with
        | none => (.error, s)
        | some paths =>
          match purgePaths (fun k => purgeTagged N L (r.calls k) r.now zoneName r.soft) 0 paths 0 s with
          | (.ok, purged, s) =>
            if 0 < purged then
              (.ok, (s.recordPurge r.pool .tag r.soft purged).setResponsePath r.pool
                .reusedPersistedIndex)
            else (.declined, s.setDeclineReason r.pool .notFound)
          | (_, _, s) => (.error, s)

/-- The tag branch of `ngx_http_cache_pilot_dispatch_special`: a purge that found
no file is answered like one that did. -/
def dispatchTags (N : Nginx) (L : HeaderLayout) (access : IndexAccess) (r : PurgeRequest)
    (tags : List Bytes) (s : Pilot) : NgxRc × Pilot :=
  match indexPurge N L access r tags s with
  | (.ok, s) => (.ok, s.recordPurgeRequest .tag r.soft)
  | (.declined, s) =>
    if s.declineReason = .notFound then (.ok, s.recordPurgeRequest .tag r.soft) else (.declined, s)
  | (rc, s) => (rc, s)

/-! ## Purges that are refused -/

variable {N : Nginx} {L : HeaderLayout} {access : IndexAccess} {r : PurgeRequest} {s : Pilot}
  {tags : List Bytes}

/-- The paths that the tags select. -/
def Selected (rs : List Record) (tags : List Bytes) (p : Bytes) : Prop :=
  ∃ t ∈ tags, ∃ rec ∈ rs, t ∈ rec.tags ∧ rec.path = p

/-- The first check of `index_purge` that fails. -/
def IndexAccess.refusal (access : IndexAccess) (now : Int) (shm : Shm) : Option DeclineReason :=
  if !access.configured then some .indexNotConfigured
  else
    match access.zone with
    | none => some .zoneNotRegistered
    | some zoneName =>
      if !access.reader then some .readerUnavailable
      else if !(getZoneState now shm zoneName).bootstrapComplete then some .indexNotReady
      else none

theorem refusal_ne {reason : DeclineReason} {now : Int} {shm : Shm}
    (h : access.refusal now shm = some reason) : reason ≠ .notFound := by
  unfold IndexAccess.refusal at h
  split at h
  · cases h
    decide
  · split at h
    · cases h
      decide
    · split at h
      · cases h
        decide
      · split at h
        · cases h
          decide
        · exact nomatch h

theorem indexPurge_refused {reason : DeclineReason} (h : access.refusal r.now s.shm = some reason) :
    indexPurge N L access r tags s = (.declined, s.setDeclineReason r.pool reason) := by
  unfold IndexAccess.refusal at h
  unfold indexPurge
  split at h
  · next hconf =>
    rw [if_pos hconf, Option.some.inj h]
  · next hconf =>
    rw [if_neg hconf]
    cases hzone : access.zone with
    | none =>
      rw [hzone] at h
      rw [Option.some.inj h]
    | some zoneName =>
      rw [hzone] at h
      simp only at h ⊢
      split at h
      · next hreader =>
        rw [if_pos hreader, Option.some.inj h]
      · next hreader =>
        rw [if_neg hreader]
        split at h
        · next hready =>
          rw [if_pos hready, Option.some.inj h]
        · exact nomatch h

/-- A context that there is, or that can be made, has the reason. -/
theorem declineReason_set (pool : PurgePool) (reason : DeclineReason) (s : Pilot) :
    (s.setDeclineReason pool reason).declineReason = reason ∨
      pool.ctx = false ∧ (s.setDeclineReason pool reason).declineReason = .unset := by
  obtain ⟨cache, shm, metrics, ctx⟩ := s
  cases ctx with
  | some ctx => exact Or.inl rfl
  | none =>
    unfold Pilot.setDeclineReason Pilot.withCtx
    cases pool.ctx with
    | true => exact Or.inl rfl
    | false => exact Or.inr ⟨rfl, rfl⟩

theorem declineReason_set_of_ctx {pool : PurgePool} (hctx : pool.ctx = true) (reason : DeclineReason)
    (s : Pilot) : (s.setDeclineReason pool reason).declineReason = reason :=
  (declineReason_set pool reason s).resolve_right fun h => nomatch hctx.symm.trans h.1

theorem dispatchTags_refused {reason : DeclineReason} (hctx : r.pool.ctx = true)
    (h : access.refusal r.now s.shm = some reason) :
    dispatchTags N L access r tags s = (.declined, s.setDeclineReason r.pool reason) := by
  unfold dispatchTags
  rw [indexPurge_refused h]
  simp only
  rw [declineReason_set_of_ctx hctx, if_neg (refusal_ne h)]

theorem refusal_eq_none {now : Int} {shm : Shm} (h : access.refusal now shm = none) :
    access.configured = true ∧ access.reader = true ∧ ∃ zoneName, access.zone = some zoneName ∧
      (getZoneState now shm zoneName).bootstrapComplete = true := by
  unfold IndexAccess.refusal at h
  split at h
  · exact nomatch h
  · next hconf =>
    split at h
    · exact nomatch h
    · next zoneName hzone =>
      split at h
      · exact nomatch h
      · next hreader =>
        split at h
        · exact nomatch h
        · next hready =>
          simp only [Bool.not_eq_true', Bool.not_eq_false] at hconf hreader hready
          exact ⟨hconf, hreader, zoneName, hzone, hready⟩

/-- A tag purge whose index is open does not decline: if it finds no file, it is counted
like any purge. -/
theorem dispatchTags_open (hctx : r.pool.ctx = true) (h : access.refusal r.now s.shm = none) :
    (dispatchTags N L access r tags s).1 ≠ .declined := by
  obtain ⟨hconf, hreader, zoneName, hzone, hready⟩ := refusal_eq_none h
  have hreason : ∀ s', indexPurge N L access r tags s = (.declined, s') → s'.declineReason = .notFound := by
    intro s' hs'
    unfold indexPurge at hs'
    simp only [hconf, hreader, hzone, hready, Bool.not_true, Bool.false_eq_true, if_false] at hs'
    split at hs'
    · exact nomatch hs'
    · split at hs'
      · split at hs'
        · exact nomatch hs'
        · obtain ⟨-, rfl⟩ := Prod.mk.inj hs'
          exact declineReason_set_of_ctx hctx ..
      · exact nomatch hs'
  unfold dispatchTags
  generalize indexPurge N L access r tags s = result at hreason
  obtain ⟨rc, s'⟩ := result
  cases rc with
  | declined =>
    simp only
    rw [if_pos (hreason s' rfl)]
    exact (nomatch ·)
  | _ => exact (nomatch ·)

/-- A purge that lets its request go on has had its index open to it: a refusal leaves
another reason behind than that no file was found, or none. -/
theorem dispatchTags_ok (hok : (dispatchTags N L access r tags s).1 = .ok) :
    access.refusal r.now s.shm = none ∧ (indexPurge N L access r tags s).1 ≠ .error := by
  constructor
  · by_contra hclosed
    obtain ⟨reason, href⟩ := Option.ne_none_iff_exists'.mp hclosed
    have hreason : (s.setDeclineReason r.pool reason).declineReason ≠ .notFound := by
      rcases declineReason_set r.pool reason s with h | ⟨-, h⟩
      · rw [h]
        exact refusal_ne href
      · rw [h]
        decide
    unfold dispatchTags at hok
    rw [indexPurge_refused href] at hok
    simp only at hok
    rw [if_neg hreason] at hok
    cases hok
  · intro h
    unfold dispatchTags at hok
    generalize indexPurge N L access r tags s = result at h hok
    obtain ⟨rc, s'⟩ := result
    obtain rfl : rc = .error := h
    cases hok

variable (access r tags s) in
/-- The dispatch only counts the request. -/
theorem dispatchTags_state :
    (dispatchTags N L access r tags s).2.cache = (indexPurge N L access r tags s).2.cache ∧
      (dispatchTags N L access r tags s).2.shm = (indexPurge N L access r tags s).2.shm := by
  unfold dispatchTags
  cases indexPurge N L access r tags s with | mk rc s' =>
  cases rc with
  | ok => exact ⟨rfl, rfl⟩
  | declined =>
    simp only
    split
    · exact ⟨rfl, rfl⟩
    · exact ⟨rfl, rfl⟩
  | error => exact ⟨rfl, rfl⟩
  | again => exact ⟨rfl, rfl⟩
  | done => exact ⟨rfl, rfl⟩

end CachePilot
