import CachePilot.Metrics.Counting

/-!
# The request counters

Beside the purged files the metrics count the purge requests, by kind and mode. A purge
counts its request where it knows that it has been successful, which is in another place
for each kind: a purge of one key that finds nothing is counted by the handler.

Results:
* `requests_between`: over the life of the server the counters lie between the purges that
  were answered 200 and those that ran;
* `requests_are_answers`: when they are the former.
-/

namespace CachePilot
open NgxString

/-! ## Counted requests -/

/-- The request counters. -/
def Pilot.requests (s : Pilot) : Option (PurgeStats → Bool → Nat) := s.metrics.map PurgeMetrics.purges

/-- The mode in which a request runs a purge of a kind: one of all files has the
configured one. -/
def PurgeCall.modeOf (call : PurgeCall) (type : PurgeStats) : Bool :=
  if type = .all then call.purge.soft else call.request.soft

/-- How many of some purges are of a kind and mode. -/
def tally (mode : PurgeStats → Bool) (ran : List PurgeStats) (type : PurgeStats) (soft : Bool) : Nat :=
  if soft = mode type then ran.count type else 0

/-- The request counters have grown by the purges in `ran`. -/
def CountsRequests (mode : PurgeStats → Bool) (ran : List PurgeStats) (s s' : Pilot) : Prop :=
  s'.requests = s.requests.map fun counters type soft => counters type soft + tally mode ran type soft

variable {N : Nginx} {L : HeaderLayout} {access : IndexAccess} {call : PurgeCall} {r : PurgeRequest}
  {s s' s'' : Pilot} {mode : PurgeStats → Bool} {ran ran' : List PurgeStats} {type : PurgeStats}

@[simp] theorem tally_nil (mode : PurgeStats → Bool) (type : PurgeStats) (soft : Bool) :
    tally mode [] type soft = 0 := ite_self 0

theorem tally_append (mode : PurgeStats → Bool) (ran ran' : List PurgeStats) (type : PurgeStats)
    (soft : Bool) : tally mode (ran ++ ran') type soft = tally mode ran type soft + tally mode ran' type soft := by
  unfold tally
  split
  · exact List.count_append
  · rfl

theorem tally_sublist (h : ran.Sublist ran') (mode : PurgeStats → Bool) (type : PurgeStats) (soft : Bool) :
    tally mode ran type soft ≤ tally mode ran' type soft := by
  unfold tally
  split
  · exact h.count_le type
  · exact Nat.le_refl 0

namespace CountsRequests

theorem of_eq (h : s'.requests = s.requests) : CountsRequests mode [] s s' := by
  unfold CountsRequests
  simp only [tally_nil, Nat.add_zero]
  rw [h]
  exact Option.map_id'.symm

theorem of_metrics (h : s'.metrics = s.metrics) : CountsRequests mode [] s s' :=
  of_eq (congrArg (Option.map PurgeMetrics.purges) h)

theorem of_report (h : s'.report = s.report) : CountsRequests mode [] s s' :=
  of_metrics (congrArg Prod.fst h)

theorem trans (h : CountsRequests mode ran s s') (h' : CountsRequests mode ran' s' s'') :
    CountsRequests mode (ran ++ ran') s s'' := by
  unfold CountsRequests at h h' ⊢
  rw [h', h, Option.map_map]
  congr 1
  funext counters type soft
  show counters type soft + tally mode ran type soft + tally mode ran' type soft = _
  rw [tally_append, Nat.add_assoc]

/-- What counts nothing can stand in front. -/
theorem behind (h : CountsRequests mode [] s s') (h' : CountsRequests mode ran s' s'') :
    CountsRequests mode ran s s'' := h.trans h'

/-- It can stand at the end, too. -/
theorem before (h : CountsRequests mode ran s s') (h' : CountsRequests mode [] s' s'') :
    CountsRequests mode ran s s'' := by
  have hboth := h.trans h'
  rwa [List.append_nil] at hboth

theorem record (mode : PurgeStats → Bool) (type : PurgeStats) (s : Pilot) :
    CountsRequests mode [type] s (s.recordPurgeRequest type (mode type)) := by
  unfold CountsRequests Pilot.requests Pilot.recordPurgeRequest
  rw [Option.map_map, Option.map_map]
  congr 1
  funext m t b
  show Pilot.addTo m.purges type (mode type) 1 t b = m.purges t b + tally mode [type] t b
  unfold Pilot.addTo tally
  rw [List.count_singleton]
  cases decEq t type with
  | isTrue ht =>
    rw [ht]
    cases decEq b (mode type) with
    | isTrue hb => rw [if_pos ⟨rfl, hb⟩, if_pos hb, if_pos (beq_self_eq_true type)]
    | isFalse hb => rw [if_neg fun h => hb h.2, if_neg hb, Nat.add_zero]
  | isFalse ht =>
    have hbeq : ¬ (type == t) = true := fun h => ht (beq_iff_eq.mp h).symm
    rw [if_neg fun h => ht h.1, if_neg hbeq, ite_self]
    rfl

/-- In numbers. -/
theorem purges (h : CountsRequests mode ran s s') {m : PurgeMetrics} (hm : s.metrics = some m) :
    ∃ m', s'.metrics = some m' ∧
      ∀ type soft, m'.purges type soft = m.purges type soft + tally mode ran type soft := by
  unfold CountsRequests Pilot.requests at h
  rw [hm] at h
  obtain ⟨m', hm', hpurges⟩ := Option.map_eq_some_iff.mp h
  exact ⟨m', hm', fun type soft => congrFun (congrFun hpurges type) soft⟩

end CountsRequests

namespace Pilot

theorem recordPurge_requests (pool : PurgePool) (type : PurgeStats) (soft : Bool) (count : Nat)
    (s : Pilot) : (s.recordPurge pool type soft count).requests = s.requests := by
  obtain ⟨cache, shm, metrics, ctx⟩ := s
  have hkeeps : ∀ change : PurgeMetrics → PurgeMetrics, (∀ m, (change m).purges = m.purges) →
      (metrics.map change).map PurgeMetrics.purges = metrics.map PurgeMetrics.purges := by
    intro change hchange
    rw [Option.map_map]
    congr 1
    exact funext hchange
  unfold recordPurge
  split
  · rfl
  · cases ctx with
    | some ctx => exact hkeeps _ fun m => rfl
    | none =>
      unfold withCtx
      cases pool.ctx with
      | true => exact hkeeps _ fun m => rfl
      | false => exact hkeeps _ fun m => rfl

theorem setResponsePath_requests (pool : PurgePool) (p : PurgePath) (s : Pilot) :
    (s.setResponsePath pool p).requests = s.requests :=
  congrArg (Option.map PurgeMetrics.purges) (setResponsePath_metrics pool p s)

theorem recordKeyIndexExactFanout_requests (s : Pilot) :
    s.recordKeyIndexExactFanout.requests = s.requests := by
  unfold requests recordKeyIndexExactFanout
  rw [Option.map_map]
  rfl

theorem recordKeyIndexWildcardHit_requests (s : Pilot) :
    s.recordKeyIndexWildcardHit.requests = s.requests := by
  unfold requests recordKeyIndexWildcardHit
  rw [Option.map_map]
  rfl

end Pilot

/-! ## The purges of each kind -/

/-- A purge that returns `NGX_OK` has counted its request, and any other has not. -/
inductive CountsIfOk (mode : PurgeStats → Bool) (type : PurgeStats) (s : Pilot) : NgxRc × Pilot → Prop
  | ok {s' : Pilot} (h : CountsRequests mode [type] s s') : CountsIfOk mode type s (.ok, s')
  | other {rc : NgxRc} {s' : Pilot} (hrc : rc ≠ .ok) (h : CountsRequests mode [] s s') :
    CountsIfOk mode type s (rc, s')

theorem purgePaths_requests {one : Nat → Bytes → Pilot → NgxRc × Pilot}
    (hone : ∀ k path s, (one k path s).2.report = s.report) (paths : List Bytes) (s : Pilot) :
    CountsRequests mode [] s (purgePaths one 0 paths 0 s).2.2 :=
  .of_report (purgePaths_keeps Pilot.report hone 0 paths 0 s)

theorem indexPurge_requests (tags : List Bytes) :
    CountsRequests mode [] s (indexPurge N L access r tags s).2 := by
  have hdecline : ∀ (reason : DeclineReason) (s : Pilot),
      CountsRequests mode [] s (s.setDeclineReason r.pool reason) :=
    fun reason s => .of_report (s.setDeclineReason_report r.pool reason)
  unfold indexPurge
  split
  · exact hdecline _ s
  · split
    · exact hdecline _ s
    · next zoneName _ =>
      split
      · exact hdecline _ s
      · split
        · exact hdecline _ s
        · split
          · exact .of_metrics rfl
          · next paths _ =>
            have hloop : CountsRequests mode [] s _ := purgePaths_requests
              (fun k path s => purgeTagged_report N L (r.calls k) r.now zoneName r.soft path s) paths s
            split
            · next hrun =>
              rw [hrun] at hloop
              split
              · refine hloop.behind (.of_eq ?_)
                rw [Pilot.setResponsePath_requests, Pilot.recordPurge_requests]
              · exact hloop.behind (hdecline _ _)
            · next hrun =>
              rw [hrun] at hloop
              exact hloop

theorem dispatchTags_requests (tags : List Bytes) (hmode : mode .tag = r.soft) :
    CountsIfOk mode .tag s (dispatchTags N L access r tags s) := by
  have hindex : CountsRequests mode [] s (indexPurge N L access r tags s).2 := indexPurge_requests tags
  unfold dispatchTags
  rw [← hmode]
  generalize indexPurge N L access r tags s = result at hindex
  obtain ⟨rc, s1⟩ := result
  cases rc with
  | ok => exact .ok (hindex.behind (.record mode .tag s1))
  | declined =>
    simp only
    split
    · exact .ok (hindex.behind (.record mode .tag s1))
    · exact .other (by rintro ⟨⟩) hindex
  | _ => exact .other (by rintro ⟨⟩) hindex

theorem purgeAll_requests (hmode : mode .all = call.purge.soft) :
    CountsIfOk mode .all s (purgeAll L call s) := by
  unfold purgeAll
  rw [← hmode]
  split
  · next purged cache _ =>
    have hpurged : CountsRequests mode [] s
        (Pilot.recordPurge call.pool .all (mode .all) purged { s with cache := cache }) :=
      .of_eq (Pilot.recordPurge_requests call.pool .all (mode .all) purged { s with cache := cache })
    exact .ok (hpurged.behind (.record mode .all _))
  · exact .other (by rintro ⟨⟩) (.of_metrics rfl)

/-- The end of a wildcard purge. -/
theorem recordWildcardPurge_requests (hmode : mode .wildcard = r.soft) (purged : Nat) (s : Pilot) :
    CountsRequests mode [.wildcard] s (recordWildcardPurge r purged s) := by
  unfold recordWildcardPurge
  rw [← hmode]
  exact CountsRequests.behind (.of_eq (Pilot.recordPurge_requests _ _ _ _ s)) (.record mode .wildcard _)

theorem partialPurge_requests (w : Walk) (threads : Option Bool) (hmode : mode .wildcard = r.soft) :
    CountsIfOk mode .wildcard s (partialPurge N L access w threads r s) := by
  have herror : NgxRc.error ≠ .ok := by rintro ⟨⟩
  unfold partialPurge
  split
  · exact .other herror (.of_metrics rfl)
  · next pre _ =>
    have hindex : CountsRequests mode [] s (partialFromIndex N L access r pre s).2.2 :=
      .of_report (partialFromIndex_trail N L access r pre s).2.2
    split
    · next hrun =>
      rw [hrun] at hindex
      exact .other herror hindex
    · next rc purged s1 _ hrun =>
      rw [hrun] at hindex
      have hpath : CountsRequests mode [] s (s1.setResponsePath r.pool .filesystemFallback) :=
        hindex.behind (.of_eq (Pilot.setResponsePath_requests _ _ s1))
      split
      · simp only
        rw [← hmode]
        refine .ok (hindex.behind (CountsRequests.behind (.of_eq ?_) (.record mode .wildcard _)))
        rw [Pilot.recordKeyIndexWildcardHit_requests, Pilot.recordPurge_requests,
          Pilot.setResponsePath_requests]
      · split
        · exact .other herror hindex
        · split
          · split
            · exact .other (by rintro ⟨⟩) hpath
            · exact .other herror hindex
          · simp only
            split
            · next cache _ =>
              have hwalked : CountsRequests mode [] s
                  { s1.setResponsePath r.pool .filesystemFallback with cache := cache } :=
                hpath.behind (.of_metrics rfl)
              exact .ok (hwalked.behind (recordWildcardPurge_requests hmode _ _))
            · exact .other herror (hpath.behind (.of_metrics rfl))

/-- A walk in a thread counts its request in the completion. -/
theorem partialCompletion_requests (hmode : mode .wildcard = r.soft) (terminated : Bool) (rc : NgxRc)
    (purged : Nat) (s : Pilot) :
    let f := partialCompletion r terminated rc purged s
    f.1 = some (sendResponse r.pool) ∧ CountsRequests mode [.wildcard] s f.2 ∨
      f.1 ≠ some .ok ∧ CountsRequests mode [] s f.2 := by
  unfold partialCompletion
  cases terminated with
  | true => exact Or.inr ⟨by rintro ⟨⟩, .of_metrics rfl⟩
  | false =>
    cases rc with
    | ok => exact Or.inl ⟨rfl, recordWildcardPurge_requests hmode purged s⟩
    | _ => exact Or.inr ⟨by rintro ⟨⟩, .of_metrics rfl⟩

/-- The request has opened a file. -/
def CacheOpen.opens : CacheOpen → Bool
  | .opened _ => true
  | _ => false

/-- How an exact purge counts its request: a hard one that fails behind the file that it
opened has done so. -/
inductive CountsExact (mode : PurgeStats → Bool) (opened : CacheOpen) (soft : Bool) (s : Pilot) :
    NgxRc × Pilot → Prop
  | ok {s' : Pilot} (h : CountsRequests mode [.exact] s s') : CountsExact mode opened soft s (.ok, s')
  | failed {s' : Pilot} (hsoft : soft = false) (hopened : opened.opens = true)
    (h : CountsRequests mode [.exact] s s') : CountsExact mode opened soft s (.error, s')
  | other {rc : NgxRc} {s' : Pilot} (hrc : rc ≠ .ok) (h : CountsRequests mode [] s s') :
    CountsExact mode opened soft s (rc, s')

theorem recordExactPurge_requests (pool : PurgePool) (soft : Bool) (fanned : Nat) (s : Pilot) :
    (recordExactPurge pool soft fanned s).requests = s.requests := by
  unfold recordExactPurge
  rw [Pilot.recordPurge_requests]
  split
  · rw [Pilot.recordKeyIndexExactFanout_requests, Pilot.setResponsePath_requests]
  · rfl

/-- The end of an exact purge, behind its fanout. -/
theorem exactFanout_requests {s0 : Pilot} (soft : Bool) (o : OpenedCache) (finish : Pilot → Pilot)
    (hfailed : ∀ s', CountsRequests mode [] s s' → CountsExact mode (.opened o) soft s0 (.error, s'))
    (hok : ∀ s1 s', CountsRequests mode [] s s1 → CountsRequests mode [] (finish s1) s' →
      CountsExact mode (.opened o) soft s0 (.ok, s')) :
    CountsExact mode (.opened o) soft s0 (match exactFanout N L access r soft o s with
      | (.error, _, s) => (NgxRc.error, releaseUpdating o s)
      | (_, fanned, s) => (.ok, releaseUpdating o (recordExactPurge r.pool soft fanned (finish s)))) := by
  have hfanout : CountsRequests mode [] s (exactFanout N L access r soft o s).2.2 :=
    .of_report (exactFanout_trail N L access r soft o s).2.2
  have hreleased : ∀ s : Pilot, CountsRequests mode [] s (releaseUpdating o s) :=
    fun s => .of_report (releaseUpdating_report o s)
  split
  · next hrun =>
    rw [hrun] at hfanout
    exact hfailed _ (hfanout.before (hreleased _))
  · next fanned s1 _ hrun =>
    rw [hrun] at hfanout
    have hrecorded : CountsRequests mode [] (finish s1) (recordExactPurge r.pool soft fanned (finish s1)) :=
      .of_eq (recordExactPurge_requests r.pool soft fanned (finish s1))
    exact hok s1 _ hfanout (hrecorded.before (hreleased _))

theorem exactPurge_requests (opened : CacheOpen) (hmode : mode .exact = false) :
    CountsExact mode opened false s (exactPurge N L access opened r s) := by
  have hmissing : ∀ s : Pilot, CountsRequests mode [] s (s.setDeclineReason r.pool .notFound) :=
    fun s => .of_report (s.setDeclineReason_report r.pool .notFound)
  unfold exactPurge
  split
  · exact .other (by rintro ⟨⟩) (hmissing s)
  · exact .other (by rintro ⟨⟩) (.of_metrics rfl)
  · exact .other (by rintro ⟨⟩) (.of_metrics rfl)
  · next o =>
    split
    · next cache _ =>
      have hcache : CountsRequests mode [] s { s with cache := cache } := .of_metrics rfl
      exact .other (by rintro ⟨⟩) (hcache.behind (hmissing _))
    · next cache _ _ =>
      have hcounted : CountsRequests mode [.exact] s
          (Pilot.recordPurgeRequest .exact false { s with cache := cache }) := by
        rw [← hmode]
        exact CountsRequests.behind (.of_metrics rfl) (.record mode .exact { s with cache := cache })
      exact exactFanout_requests false o (fun s => s) (fun _ h => .failed rfl rfl (hcounted.before h))
        fun _ _ h h' => .ok ((hcounted.before h).before h')

theorem exactPurgeSoft_requests (opened : CacheOpen) (hmode : mode .exact = true) :
    CountsExact mode opened true s (exactPurgeSoft N L access opened r s) := by
  have hmissing : ∀ s : Pilot, CountsRequests mode [] s (s.setDeclineReason r.pool .notFound) :=
    fun s => .of_report (s.setDeclineReason_report r.pool .notFound)
  unfold exactPurgeSoft
  split
  · exact .other (by rintro ⟨⟩) (hmissing s)
  · exact .other (by rintro ⟨⟩) (.of_metrics rfl)
  · exact .other (by rintro ⟨⟩) (.of_metrics rfl)
  · next o =>
    split
    · exact .other (by rintro ⟨⟩) (hmissing s)
    · split
      · next cache _ =>
        have hcache : CountsRequests mode [] s { s with cache := cache } := .of_metrics rfl
        exact .other (by rintro ⟨⟩) (hcache.behind (hmissing _))
      · next cache _ =>
        have hexpired : CountsRequests mode [] s
            { s with cache := cache.setNode o.node { cache.node o.node with validSec := 0 } } :=
          .of_metrics rfl
        refine exactFanout_requests true o (·.recordPurgeRequest .exact true)
          (fun _ h => .other (by rintro ⟨⟩) (hexpired.behind h)) fun s1 _ h h' => .ok ?_
        have hcounted : CountsRequests mode [.exact] s1 (s1.recordPurgeRequest .exact true) := by
          rw [← hmode]
          exact .record mode .exact s1
        exact ((hexpired.behind h).behind hcounted).before h'
      · next hne _ => exact .other hne (.of_metrics rfl)

theorem exactPurgeOf_requests (opened : CacheOpen) (hmode : mode .exact = r.soft) :
    CountsExact mode opened r.soft s (exactPurgeOf N L access opened r s) := by
  unfold exactPurgeOf
  cases hs : r.soft with
  | true => exact exactPurgeSoft_requests opened (hmode.trans hs)
  | false => exact exactPurge_requests opened (hmode.trans hs)

/-- An exact purge and its answer: one that is answered 200 is counted, and one that is
counted gets an answer, or it is a hard one that has failed behind its file. -/
theorem handler_requests (N : Nginx) (L : HeaderLayout) (access : IndexAccess) (s : Pilot)
    (opened : CacheOpen) (hpart : isPartial r.keys = false) (hmode : mode .exact = r.soft) :
    let f := handler N L access opened false false r s
    CountsRequests mode [.exact] s f.2 ∧
        (f.1 = sendResponse r.pool ∨
          f.1 = .internalServerError ∧ r.soft = false ∧ opened.opens = true) ∨
      CountsRequests mode [] s f.2 ∧ f.1 ≠ .ok := by
  rw [handler_exact hpart]
  have hexact : CountsExact mode opened r.soft s (exactPurgeOf N L access opened r s) :=
    exactPurgeOf_requests opened hmode
  generalize exactPurgeOf N L access opened r s = result at hexact
  cases hexact with
  | ok h => exact Or.inl ⟨h, Or.inl rfl⟩
  | failed hsoft hopened h => exact Or.inl ⟨h, Or.inr ⟨rfl, hsoft, hopened⟩⟩
  | @other rc s1 hrc h =>
    cases rc with
    | ok => exact absurd rfl hrc
    | declined =>
      simp only
      split
      · refine Or.inl ⟨?_, Or.inl rfl⟩
        rw [← hmode]
        exact h.behind (.record mode .exact s1)
      · exact Or.inr ⟨h, by rintro ⟨⟩⟩
    | again => exact Or.inr ⟨h, by rintro ⟨⟩⟩
    | error => exact Or.inr ⟨h, by rintro ⟨⟩⟩
    | done => exact Or.inr ⟨h, by rintro ⟨⟩⟩

/-! ## A request -/

theorem PurgeCall.modeOf_kind (call : PurgeCall) : call.modeOf call.kind = call.mode := rfl

/-- A tag purge that found nothing is not declined. -/
theorem dispatchTags_declined {tags : List Bytes} (h : (dispatchTags N L access r tags s).1 = .declined) :
    (dispatchTags N L access r tags s).2.declineReason ≠ .notFound := by
  unfold dispatchTags at h ⊢
  generalize indexPurge N L access r tags s = result at h
  obtain ⟨rc, s1⟩ := result
  cases rc with
  | declined =>
    simp only at h ⊢
    split at h
    · cases h
    · next hreason =>
      rw [if_neg hreason]
      exact hreason
  | _ => cases h

/-- What `dispatch_special` counts: it leaves a request alone, or runs one purge. -/
inductive DispatchCounts (call : PurgeCall) (s : Pilot) : Dispatched → Prop
  | skipped {rc : NgxRc} {failed : Bool} : DispatchCounts call s ⟨false, rc, [], failed, s⟩
  | ran {type : PurgeStats} {rc : NgxRc} {s' : Pilot} (h : CountsIfOk call.modeOf type s (rc, s'))
    (hdeclined : rc = .declined → s'.declineReason ≠ .notFound) (hdone : rc = .done → type = .wildcard) :
    DispatchCounts call s ⟨true, rc, [type], false, s'⟩

theorem dispatchUntagged_requests : DispatchCounts call s (dispatchUntagged N L access call s) := by
  unfold dispatchUntagged
  split
  · have hrc : (purgeAll L call s).1 = .ok ∨ (purgeAll L call s).1 = .error := by
      unfold purgeAll
      split
      · exact Or.inl rfl
      · exact Or.inr rfl
    refine .ran (purgeAll_requests rfl) (fun h => ?_) fun h => ?_
    · rw [h] at hrc
      exact absurd hrc (by decide)
    · rw [h] at hrc
      exact absurd hrc (by decide)
  · split
    · refine .ran (partialPurge_requests call.walk call.threads rfl) (fun h => ?_) fun _ => rfl
      have hrc := partialPurge_rc N L access call.walk call.threads call.request s
      rw [h] at hrc
      exact absurd hrc (by decide)
    · exact .skipped

theorem dispatchSpecial_requests : DispatchCounts call s (dispatchSpecial N L access call s) := by
  unfold dispatchSpecial
  split
  · split
    · exact .skipped
    · next tags _ =>
      split
      · refine .ran (dispatchTags_requests tags rfl) dispatchTags_declined fun h => ?_
        have hrc := dispatchTags_rc N L access call.request tags s
        rw [h] at hrc
        exact absurd hrc (by decide)
      · exact dispatchUntagged_requests
    · exact dispatchUntagged_requests
  · exact dispatchUntagged_requests

/-- What a request has counted is among the purges that ran, and behind a 200 it is all of
them. -/
def CountsAmong (call : PurgeCall) (s : Pilot) (f : Finished) : Prop :=
  ∃ counted : List PurgeStats, counted.Sublist f.ran ∧ CountsRequests call.modeOf counted s f.state ∧
    (f.answer = some .ok → counted = f.ran)

theorem finalHandler_requests {s0 : Pilot} {failed : Bool} (h : CountsRequests call.modeOf ran s0 s) :
    CountsAmong call s0 (finalHandler N L access call ran failed s) := by
  rw [finalHandler_eq]
  split
  · next htaken =>
    have hpart : isPartial call.keys = false := by
      unfold PurgeCall.takenForExact at htaken
      simp only [Bool.and_eq_true, Bool.not_eq_true'] at htaken
      exact htaken.2
    have hmode : call.modeOf .exact = call.request.soft := rfl
    have hexact := handler_requests N L access s call.opened hpart hmode
    rcases hexact with ⟨hcounts, -⟩ | ⟨hcounts, hanswer⟩
    · exact ⟨ran ++ [.exact], List.Sublist.refl _, h.trans hcounts, fun _ => rfl⟩
    · refine ⟨ran, List.sublist_append_left ran [.exact], h.before hcounts, fun hok => ?_⟩
      exact absurd (Option.some.inj hok) hanswer
  · exact ⟨ran, List.Sublist.refl ran, h, fun _ => rfl⟩

/-- The counters of a request against the purges that it ran. -/
theorem protocolHandler_requests (N : Nginx) (L : HeaderLayout) (access : IndexAccess) (call : PurgeCall)
    (s : Pilot) : CountsAmong call s (protocolHandler N L access call s) := by
  have hdispatch : DispatchCounts call s (dispatchSpecial N L access call s) := dispatchSpecial_requests
  unfold protocolHandler
  generalize dispatchSpecial N L access call s = d at hdispatch
  cases hdispatch with
  | skipped => exact finalHandler_requests (.of_metrics rfl)
  | @ran type rc s1 h hdeclined hdone =>
    cases h with
    | ok h => exact finalHandler_requests h
    | other hrc h =>
      have hnone : ∀ answer : Answer, answer ≠ .ok → CountsAmong call s ⟨some answer, [type], false, s1⟩ :=
        fun answer hne => ⟨[], List.nil_sublist _, h, fun hok => absurd (Option.some.inj hok) hne⟩
      cases rc with
      | ok => exact absurd rfl hrc
      | done =>
        obtain rfl := hdone rfl
        simp only [if_true]
        generalize walkPartial L call.walk call.request.soft (keyPartial call.keys) s1.cache = walked
        have hwalked : CountsRequests call.modeOf [] s { s1 with cache := walked.2.2 } :=
          h.behind (.of_metrics rfl)
        have hmode : call.modeOf .wildcard = call.request.soft := rfl
        rcases partialCompletion_requests hmode call.terminated walked.1 walked.2.1
          { s1 with cache := walked.2.2 } with ⟨-, hcounts⟩ | ⟨hanswer, hcounts⟩
        · exact ⟨[.wildcard], List.Sublist.refl _, hwalked.behind hcounts, fun _ => rfl⟩
        · exact ⟨[], List.nil_sublist _, hwalked.behind hcounts, fun hok => absurd hok hanswer⟩
      | declined =>
        simp only [if_true, if_neg (hdeclined rfl)]
        exact hnone _ (by rintro ⟨⟩)
      | error => exact hnone _ (by rintro ⟨⟩)
      | again => exact hnone _ (by rintro ⟨⟩)

/-- The purge that a request asks for is counted if it is answered 200. One that is counted
is answered for, or it is a hard exact one that has failed behind the file it opened. -/
theorem run_requests (N : Nginx) (L : HeaderLayout) (access : IndexAccess) (call : PurgeCall) (s : Pilot) :
    let f := call.run N L access s
    CountsRequests call.modeOf [call.kind] s f.2 ∧ (f.1 = some (sendResponse call.pool) ∨
        f.1 = some .internalServerError ∧ call.kind = .exact ∧ call.mode = false ∧
          call.opened.opens = true) ∨
      CountsRequests call.modeOf [] s f.2 ∧ f.1 ≠ some .ok := by
  have hother : ∀ {answer : Answer}, answer ≠ .ok → some answer ≠ some .ok :=
    fun hne heq => hne (Option.some.inj heq)
  unfold PurgeCall.run
  cases hkind : call.kind with
  | tag =>
    have htags : CountsIfOk call.modeOf .tag s
        (dispatchTags N L access call.request (keepTags [] call.tokens) s) := dispatchTags_requests _ rfl
    simp only
    generalize dispatchTags N L access call.request (keepTags [] call.tokens) s = result at htags
    cases htags with
    | ok h => exact Or.inl ⟨h, Or.inl rfl⟩
    | @other rc s1 hrc h =>
      cases rc with
      | ok => exact absurd rfl hrc
      | declined => exact Or.inr ⟨h, hother (by rintro ⟨⟩)⟩
      | _ => exact Or.inr ⟨h, hother (by rintro ⟨⟩)⟩
  | all =>
    have hall : CountsIfOk call.modeOf .all s (purgeAll L call s) := purgeAll_requests rfl
    simp only
    generalize purgeAll L call s = result at hall
    cases hall with
    | ok h => exact Or.inl ⟨h, Or.inl rfl⟩
    | @other rc s1 hrc h =>
      cases rc with
      | ok => exact absurd rfl hrc
      | _ => exact Or.inr ⟨h, hother (by rintro ⟨⟩)⟩
  | wildcard =>
    have hpart : isPartial call.request.keys = true := call.kind_asterisk.1 hkind
    have hprefix : CountsIfOk call.modeOf .wildcard s
        (partialPurge N L access call.walk call.threads call.request s) :=
      partialPurge_requests call.walk call.threads rfl
    unfold wildcardRequest
    simp only [handler_asterisk hpart]
    generalize partialPurge N L access call.walk call.threads call.request s = result at hprefix
    cases hprefix with
    | ok h => exact Or.inl ⟨h, Or.inl rfl⟩
    | @other rc s1 hrc h =>
      cases rc with
      | ok => exact absurd rfl hrc
      | done =>
        simp only
        generalize walkPartial L call.walk call.request.soft (keyPartial call.request.keys) s1.cache = walked
        have hwalked : CountsRequests call.modeOf [] s { s1 with cache := walked.2.2 } :=
          h.behind (.of_metrics rfl)
        have hmode : call.modeOf .wildcard = call.request.soft := rfl
        rcases partialCompletion_requests hmode call.terminated walked.1 walked.2.1
          { s1 with cache := walked.2.2 } with ⟨hanswer, hcounts⟩ | ⟨hanswer, hcounts⟩
        · exact Or.inl ⟨hwalked.behind hcounts, Or.inl hanswer⟩
        · exact Or.inr ⟨hwalked.behind hcounts, hanswer⟩
      | _ => exact Or.inr ⟨h, hother (by rintro ⟨⟩)⟩
  | exact =>
    have hpart : isPartial call.request.keys = false := call.kind_asterisk.2 hkind
    have hmode : call.mode = call.request.soft := by
      rw [← call.modeOf_kind, hkind]
      rfl
    have hexact : call.modeOf .exact = call.request.soft := rfl
    rcases handler_requests N L access s call.opened hpart hexact with
      ⟨h, hanswer⟩ | ⟨h, hanswer⟩
    · refine Or.inl ⟨h, hanswer.imp (congrArg some) fun ⟨hfailed, hsoft, hopened⟩ => ?_⟩
      exact ⟨congrArg some hfailed, rfl, hmode.trans hsoft, hopened⟩
    · exact Or.inr ⟨h, hother hanswer⟩

/-! ## The life of the server -/

/-- The purges of one kind and mode that the requests ran. -/
def History.attempted (history : History) (type : PurgeStats) (soft : Bool) : Nat :=
  (history.map fun served => tally served.1.modeOf served.2.ran type soft).sum

/-- Those that were answered 200. -/
def History.succeeded (history : History) (type : PurgeStats) (soft : Bool) : Nat :=
  (history.map fun served =>
    if served.2.answer = some .ok then tally served.1.modeOf served.2.ran type soft else 0).sum

/-- If each request adds to a counter between `low` and `high`, a life of the server adds
between their sums. -/
theorem served_requests {history : History} (low high : PurgeCall × Finished → Nat) (type : PurgeStats)
    (soft : Bool) {m : PurgeMetrics} (h : ServerRun N L access history s s') (hm : s.metrics = some m)
    (hstep : ∀ call s0, (call, protocolHandler N L access call s0) ∈ history →
      ∃ ran, CountsRequests call.modeOf ran s0 (protocolHandler N L access call s0).state ∧
        low (call, protocolHandler N L access call s0) ≤ tally call.modeOf ran type soft ∧
        tally call.modeOf ran type soft ≤ high (call, protocolHandler N L access call s0)) :
    ∃ m', s'.metrics = some m' ∧ m.purges type soft + (history.map low).sum ≤ m'.purges type soft ∧
      m'.purges type soft ≤ m.purges type soft + (history.map high).sum := by
  induction h generalizing m with
  | done s => exact ⟨m, hm, Nat.le_refl _, Nat.le_refl _⟩
  | @purge call history s s' _ _ ih =>
    obtain ⟨ran, hcounts, hlow, hhigh⟩ := hstep call s List.mem_cons_self
    obtain ⟨m1, hm1, hpurges⟩ := hcounts.purges hm
    obtain ⟨m', hm', hle, hge⟩ := ih hm1 fun call s0 hmem => hstep call s0 (List.mem_cons_of_mem _ hmem)
    refine ⟨m', hm', ?_, ?_⟩
    · calc m.purges type soft + ((_ :: history).map low).sum
          = m.purges type soft + low (call, protocolHandler N L access call s) + (history.map low).sum := by
            rw [List.map_cons, List.sum_cons, Nat.add_assoc]
        _ ≤ m1.purges type soft + (history.map low).sum := by
            rw [hpurges]
            exact Nat.add_le_add_right (Nat.add_le_add_left hlow _) _
        _ ≤ m'.purges type soft := hle
    · calc m'.purges type soft ≤ m1.purges type soft + (history.map high).sum := hge
        _ ≤ m.purges type soft + high (call, protocolHandler N L access call s) + (history.map high).sum := by
            rw [hpurges]
            exact Nat.add_le_add_right (Nat.add_le_add_left hhigh _) _
        _ = m.purges type soft + ((_ :: history).map high).sum := by
            rw [List.map_cons, List.sum_cons, Nat.add_assoc]
  | @reload alloc m1 history s s' hreload _ ih =>
    have hold : metricsInitZone alloc s.metrics = some m := by
      rw [hm]
      rfl
    obtain rfl := Option.some.inj (hreload.symm.trans hold)
    exact ih rfl hstep
  | other hmetrics _ _ _ ih =>
    rw [← hmetrics] at hm
    exact ih hm hstep

/-- Whatever the requests are and however they end, a request counter grows over the life
of the server by no less than the purges that were answered 200, and by no more than those
that ran: no success is lost, and no purge is counted twice. -/
theorem requests_between (N : Nginx) (L : HeaderLayout) (access : IndexAccess) (history : History)
    (s s' : Pilot) (m : PurgeMetrics) (hm : s.metrics = some m) (h : ServerRun N L access history s s') :
    ∃ m', s'.metrics = some m' ∧ ∀ type soft,
      m.purges type soft + history.succeeded type soft ≤ m'.purges type soft ∧
        m'.purges type soft ≤ m.purges type soft + history.attempted type soft := by
  have hcounter : ∀ type soft, ∃ m', s'.metrics = some m' ∧
      m.purges type soft + history.succeeded type soft ≤ m'.purges type soft ∧
        m'.purges type soft ≤ m.purges type soft + history.attempted type soft := by
    intro type soft
    refine served_requests _ _ type soft h hm fun call s0 _ => ?_
    obtain ⟨counted, hsub, hcounts, hok⟩ := protocolHandler_requests N L access call s0
    refine ⟨counted, hcounts, ?_, tally_sublist hsub call.modeOf type soft⟩
    split
    · next hanswer => rw [hok hanswer]
    · exact Nat.zero_le _
  obtain ⟨m', hm', -⟩ := hcounter .exact false
  refine ⟨m', hm', fun type soft => ?_⟩
  obtain ⟨m'', hm'', hbounds⟩ := hcounter type soft
  rwa [Option.some.inj (hm'.symm.trans hm'')]

/-- A soft and a hard purge of the same key. -/
theorem requests_between_sample :
    ∃ m', hardServed.metrics = some m' ∧ ∀ type soft,
      PurgeMetrics.zero.purges type soft + sampleHistory.succeeded type soft ≤ m'.purges type soft ∧
        m'.purges type soft ≤ PurgeMetrics.zero.purges type soft + sampleHistory.attempted type soft :=
  requests_between .reference .reference sampleAccess sampleHistory countingState hardServed .zero rfl
    (.purge rfl (.purge rfl (.done _)))

/-- 1 for a request for a purge of this kind and mode that was answered 200. -/
def answeredAs (type : PurgeStats) (soft : Bool) (served : PurgeCall × Finished) : Nat :=
  if served.2.answer = some .ok ∧ served.1.kind = type ∧ served.1.mode = soft then 1 else 0

/-- The number of these requests. -/
def History.answered (history : History) (type : PurgeStats) (soft : Bool) : Nat :=
  (history.map (answeredAs type soft)).sum

/-- The tags of the request could be read, its pool holds a response, and it is no hard
exact purge that failed behind the file it opened: that one is counted before its fanout. -/
structure CountsAsAnswered (served : PurgeCall × Finished) : Prop where
  reads : locationEnabled served.1.conf = true →
    served.1.reads served.1.tagPool = true ∧ served.1.reads served.1.handlerPool = true
  response : served.1.pool.response = true
  hard : served.1.kind = .exact → served.1.mode = false → served.1.opened.opens = true →
    served.2.answer ≠ some .internalServerError

/-- A request counts itself exactly if it is answered 200. -/
theorem CountsAsAnswered.counts {s0 : Pilot} (h : CountsAsAnswered (call, protocolHandler N L access call s0))
    (type : PurgeStats) (soft : Bool) :
    let f := protocolHandler N L access call s0
    ∃ ran, CountsRequests call.modeOf ran s0 f.state ∧
      tally call.modeOf ran type soft = answeredAs type soft (call, f) := by
  have hrun : (protocolHandler N L access call s0).answer = (call.run N L access s0).1 ∧
      (protocolHandler N L access call s0).state = (call.run N L access s0).2 := protocolHandler_run h.reads
  obtain ⟨hanswer, hstate⟩ := hrun
  have hhard := h.hard
  have hresponse : sendResponse call.pool = .ok := sendResponse_ok.mpr h.response
  unfold answeredAs
  simp only at hhard ⊢
  rw [hanswer] at hhard ⊢
  rw [hstate]
  rcases run_requests N L access call s0 with ⟨hcounts, hanswered | ⟨hfailed, hexact, hmode, hopened⟩⟩ |
    ⟨hcounts, hne⟩
  · refine ⟨[call.kind], hcounts, ?_⟩
    rw [hanswered, hresponse]
    unfold tally
    rw [List.count_singleton]
    cases decEq call.kind type with
    | isTrue hkind =>
      obtain rfl := hkind
      rw [call.modeOf_kind, beq_self_eq_true, if_pos rfl]
      cases decEq call.mode soft with
      | isTrue hsoft => rw [if_pos hsoft.symm, if_pos ⟨rfl, rfl, hsoft⟩]
      | isFalse hsoft => rw [if_neg fun heq => hsoft heq.symm, if_neg fun heq => hsoft heq.2.2]
    | isFalse hkind =>
      have hbeq : ¬ (call.kind == type) = true := fun heq => hkind (beq_iff_eq.mp heq)
      rw [if_neg hbeq, ite_self, if_neg fun heq => hkind heq.2.1]
  · exact absurd hfailed (hhard hexact hmode hopened)
  · refine ⟨[], hcounts, ?_⟩
    rw [tally_nil, if_neg fun heq => hne heq.1]

/-- Where nothing comes between a purge and its answer, the request counters are what the
clients have seen: the requests of each kind and mode that were answered 200. -/
theorem requests_are_answers (N : Nginx) (L : HeaderLayout) (access : IndexAccess) (history : History)
    (s s' : Pilot) (m : PurgeMetrics) (hm : s.metrics = some m) (h : ServerRun N L access history s s')
    (hcounts : ∀ served ∈ history, CountsAsAnswered served) :
    ∃ m', s'.metrics = some m' ∧ ∀ type soft,
      m'.purges type soft = m.purges type soft + history.answered type soft := by
  have hcounter : ∀ type soft, ∃ m', s'.metrics = some m' ∧
      m'.purges type soft = m.purges type soft + history.answered type soft := by
    intro type soft
    have hstep : ∀ call s0, (call, protocolHandler N L access call s0) ∈ history →
        ∃ ran, CountsRequests call.modeOf ran s0 (protocolHandler N L access call s0).state ∧
          answeredAs type soft (call, protocolHandler N L access call s0) ≤ tally call.modeOf ran type soft ∧
          tally call.modeOf ran type soft ≤ answeredAs type soft (call, protocolHandler N L access call s0) := by
      intro call s0 hmem
      obtain ⟨ran, hran, htally⟩ := (hcounts _ hmem).counts type soft
      exact ⟨ran, hran, htally.ge, htally.le⟩
    obtain ⟨m', hm', hle, hge⟩ := served_requests _ _ type soft h hm hstep
    exact ⟨m', hm', Nat.le_antisymm hge hle⟩
  obtain ⟨m', hm', -⟩ := hcounter .exact false
  refine ⟨m', hm', fun type soft => ?_⟩
  obtain ⟨m'', hm'', heq⟩ := hcounter type soft
  rwa [Option.some.inj (hm'.symm.trans hm'')]

theorem requests_are_answers_sample :
    ∃ m', hardServed.metrics = some m' ∧ ∀ type soft,
      m'.purges type soft = PurgeMetrics.zero.purges type soft + sampleHistory.answered type soft :=
  requests_are_answers .reference .reference sampleAccess sampleHistory countingState hardServed .zero rfl
    (.purge rfl (.purge rfl (.done _))) (by
      intro served hserved
      rcases List.mem_cons.mp hserved with rfl | hserved
      · refine ⟨fun _ => ⟨rfl, rfl⟩, rfl, fun _ h _ => ?_⟩
        cases h
      · rw [List.mem_singleton.mp hserved]
        refine ⟨fun _ => ⟨rfl, rfl⟩, rfl, fun _ _ _ => ?_⟩
        decide +kernel)

end CachePilot
