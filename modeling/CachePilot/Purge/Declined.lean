import CachePilot.Purge.Body
import CachePilot.Purge.Confined

/-!
# Purges that are declined

A request that finds no file is answered 200 all the same, and 412 is left for a purge
that could not be tried. `send_decline_response` is for the requests that the handler
declines, which are not those whose index is closed.

Results:
* `refused_iff`: which requests are answered 412, and that they change nothing;
* `decline_body_unknown`: the body of a decline never names a reason.
-/

namespace CachePilot
open NgxString Print Json

/-! ## The response -/

/-- The values of `ngx_http_cache_pilot_decline_reason_value`. -/
def DeclineReason.value : DeclineReason → Bytes
  | .unset => ascii "unknown"
  | .indexNotConfigured => ascii "index_not_configured"
  | .unsupportedPlatform => ascii "unsupported_platform"
  | .flushPendingFailed => ascii "flush_pending_failed"
  | .zoneNotRegistered => ascii "zone_not_registered"
  | .readerUnavailable => ascii "reader_unavailable"
  | .indexNotReady => ascii "index_not_ready"
  | .notFound => ascii "not_found"

/-- `ngx_http_cache_pilot_decline_reason_value`. -/
def declineReasonValue (s : Pilot) : Bytes := s.declineReason.value

/-- The template of the body, around the reason. -/
def declineTempl (reason : Bytes) : List Bytes :=
  [ascii "\x7b\"cache_pilot\":\x7b\"declined\":true,\"reason\":\"", reason, ascii "\"\x7d\x7d"]

/-- `ngx_http_cache_pilot_send_decline_response`: its body, if there is memory for it. -/
def sendDeclineResponse (memory : Bool) (s : Pilot) : Option Bytes :=
  if !memory then none
  else
    let reason := declineReasonValue s
    let len := (declineTempl []).flatten.length + reason.length
    some (putAll len [] (declineTempl reason))

/-- The body is not cut. -/
theorem sendDeclineResponse_eq (s : Pilot) :
    sendDeclineResponse true s = some (declineTempl (declineReasonValue s)).flatten := by
  have hlen : (declineTempl (declineReasonValue s)).flatten.length ≤
      (declineTempl []).flatten.length + (declineReasonValue s).length := by
    simp only [declineTempl, List.flatten_cons, List.flatten_nil, List.append_nil, List.nil_append,
      List.length_append]
    omega
  exact congrArg some (putAll_fits hlen)

variable {N : Nginx} {L : HeaderLayout} {access : IndexAccess} {r : PurgeRequest} {s : Pilot}
  {call : PurgeCall}

/-! ## Declines of the handler -/

/-- An exact purge declines only because it found no file. -/
theorem exactPurgeOf_declined {opened : CacheOpen} {s' : Pilot}
    (h : exactPurgeOf N L access opened r s = (.declined, s')) :
    s'.declineReason = .notFound ∨ r.pool.ctx = false ∧ s'.declineReason = .unset := by
  have hset : ∀ s1 : Pilot, (NgxRc.declined, s1.setDeclineReason r.pool .notFound) = (.declined, s') →
      s'.declineReason = .notFound ∨ r.pool.ctx = false ∧ s'.declineReason = .unset := by
    intro s1 h1
    obtain ⟨-, rfl⟩ := Prod.mk.inj h1
    exact declineReason_set ..
  unfold exactPurgeOf at h
  split at h
  · unfold exactPurgeSoft at h
    cases opened with
    | declined => exact hset _ h
    | again => exact nomatch h
    | error => exact nomatch h
    | opened o =>
      simp only at h
      split at h
      · exact hset _ h
      · cases hsoft : softHeader L r.resolved o.name s.cache with | mk rc cache =>
        rw [hsoft] at h
        cases rc with
        | declined => exact hset _ h
        | ok =>
          simp only at h
          split at h
          · exact nomatch h
          · exact nomatch h
        | _ => exact nomatch h
  · unfold exactPurge at h
    split at h
    · exact hset _ h
    · exact nomatch h
    · exact nomatch h
    · split at h
      · exact hset _ h
      · simp only at h
        split at h
        · exact nomatch h
        · exact nomatch h

/-- The handler declines a request only without memory for its context. -/
theorem finalHandler_declined {ran : List PurgeStats} {failed : Bool}
    (h : (finalHandler N L access call ran failed s).answer = some .preconditionFailed) :
    call.pool.ctx = false ∧
      (finalHandler N L access call ran failed s).state.declineReason = .unset := by
  have hsend : some (sendResponse call.pool) ≠ some Answer.preconditionFailed := by
    unfold sendResponse
    split
    · exact (nomatch ·)
    · exact (nomatch ·)
  rw [finalHandler_eq] at h ⊢
  split at h
  · next htaken =>
    rw [if_pos htaken]
    have hexact : isPartial call.request.keys = false := by
      unfold PurgeCall.takenForExact at htaken
      simp only [Bool.and_eq_true, Bool.not_eq_true'] at htaken
      exact htaken.2
    simp only [handler_exact hexact] at h ⊢
    cases hpurge : exactPurgeOf N L access call.opened call.request s with | mk rc s' =>
    rw [hpurge] at h
    cases rc with
    | declined =>
      simp only at h ⊢
      split at h
      · exact absurd h hsend
      · next hreason =>
        rw [if_neg hreason]
        exact (exactPurgeOf_declined hpurge).resolve_left hreason
    | ok => exact absurd h hsend
    | _ => exact nomatch h
  · exact absurd h hsend

/-! ## Which requests are declined -/

theorem purgeAll_rc (L : HeaderLayout) (call : PurgeCall) (s : Pilot) :
    (purgeAll L call s).1 = .ok ∨ (purgeAll L call s).1 = .error := by
  unfold purgeAll
  split
  · exact Or.inl rfl
  · exact Or.inr rfl

theorem partialCompletion_answer (r : PurgeRequest) (terminated : Bool) (rc : NgxRc) (purged : Nat)
    (s : Pilot) : (partialCompletion r terminated rc purged s).1 ≠ some .preconditionFailed := by
  unfold partialCompletion sendResponse
  split
  · exact (nomatch ·)
  · split
    · split
      · exact (nomatch ·)
      · exact (nomatch ·)
    · exact (nomatch ·)

theorem enabled_of_tag (hkind : call.kind = .tag) : locationEnabled call.conf = true := by
  unfold PurgeCall.kind at hkind
  split at hkind
  · next htag => exact htag.1
  · split at hkind
    · exact nomatch hkind
    · split at hkind
      · exact nomatch hkind
      · exact nomatch hkind

theorem protocolHandler_refused {reason : DeclineReason} (hctx : call.pool.ctx = true)
    (hkind : call.kind = .tag) (hreads : call.reads call.tagPool = true)
    (href : access.refusal call.now s.shm = some reason) : protocolHandler N L access call s =
      ⟨some .preconditionFailed, [.tag], false, s.setDeclineReason call.pool reason⟩ := by
  have hdispatch : dispatchTags N L access call.request (keepTags [] call.tokens) s =
      (.declined, s.setDeclineReason call.pool reason) := dispatchTags_refused hctx href
  have hreason : (s.setDeclineReason call.pool reason).declineReason ≠ .notFound := by
    rw [declineReason_set_of_ctx hctx]
    exact refusal_ne href
  unfold protocolHandler
  rw [dispatchSpecial_reads fun _ => hreads, hkind]
  simp only [hdispatch, if_true]
  rw [if_neg hreason]

theorem protocolHandler_declined (hctx : call.pool.ctx = true)
    (h : (protocolHandler N L access call s).answer = some .preconditionFailed) :
    call.kind = .tag ∧ call.reads call.tagPool = true ∧ access.refusal call.now s.shm ≠ none := by
  have hfinal : ∀ ran failed s', (finalHandler N L access call ran failed s').answer ≠
      some .preconditionFailed := fun ran failed s' h => nomatch hctx.symm.trans (finalHandler_declined h).1
  unfold protocolHandler at h
  rcases Classical.em (locationEnabled call.conf = true → call.reads call.tagPool = true) with hread | hread
  · rw [dispatchSpecial_reads hread] at h
    cases hkind : call.kind with
    | tag =>
      rw [hkind] at h
      simp only [if_true] at h
      rcases dispatchTags_rc N L access call.request (keepTags [] call.tokens) s with hrc | hrc | hrc
      · rw [hrc] at h
        exact (hfinal _ _ _ h).elim
      · refine ⟨rfl, hread (enabled_of_tag hkind), fun hopen => ?_⟩
        exact dispatchTags_open (r := call.request) hctx hopen hrc
      · rw [hrc] at h
        exact nomatch h
    | all =>
      rw [hkind] at h
      simp only [if_true] at h
      rcases purgeAll_rc L call s with hrc | hrc
      · rw [hrc] at h
        exact (hfinal _ _ _ h).elim
      · rw [hrc] at h
        exact nomatch h
    | wildcard =>
      rw [hkind] at h
      simp only [if_true] at h
      rcases partialPurge_rc N L access call.walk call.threads call.request s with hrc | hrc | hrc
      · rw [hrc] at h
        exact (hfinal _ _ _ h).elim
      · rw [hrc] at h
        exact (partialCompletion_answer _ _ _ _ _ h).elim
      · rw [hrc] at h
        exact nomatch h
    | exact =>
      rw [hkind] at h
      exact (hfinal _ _ _ h).elim
  · obtain ⟨he, hno⟩ := Classical.not_imp.mp hread
    rw [dispatchSpecial_fails he (Bool.eq_false_iff.mpr hno)] at h
    exact (hfinal _ _ _ h).elim

/-- A request is answered 412 if it asks for a purge by tags, which can be read, and the
index is closed to it; and no other request. It changes nothing but its own context. -/
theorem refused_iff (N : Nginx) (L : HeaderLayout) (access : IndexAccess) (call : PurgeCall) (s : Pilot)
    (hctx : call.pool.ctx = true) :
    let f := protocolHandler N L access call s
    (f.answer = some .preconditionFailed ↔
      call.kind = .tag ∧ call.reads call.tagPool = true ∧ access.refusal call.now s.shm ≠ none) ∧
    ∀ reason, f.answer = some .preconditionFailed → access.refusal call.now s.shm = some reason →
      f.state = s.setDeclineReason call.pool reason := by
  refine ⟨⟨protocolHandler_declined hctx, fun ⟨hkind, hreads, hclosed⟩ => ?_⟩, fun reason h href => ?_⟩
  · obtain ⟨reason, href⟩ := Option.ne_none_iff_exists'.mp hclosed
    rw [protocolHandler_refused hctx hkind hreads href]
  · obtain ⟨hkind, hreads, -⟩ := protocolHandler_declined hctx h
    rw [protocolHandler_refused hctx hkind hreads href]

theorem refused_iff_sample :
    let f := protocolHandler .reference .reference sampleAccess (sampleCall true) variantState
    (f.answer = some .preconditionFailed ↔
      (sampleCall true).kind = .tag ∧ (sampleCall true).reads (sampleCall true).tagPool = true ∧
        sampleAccess.refusal (sampleCall true).now variantState.shm ≠ none) ∧
    ∀ reason, f.answer = some .preconditionFailed →
      sampleAccess.refusal (sampleCall true).now variantState.shm = some reason →
      f.state = variantState.setDeclineReason (sampleCall true).pool reason :=
  refused_iff .reference .reference sampleAccess (sampleCall true) variantState rfl

/-! ## The body of a decline -/

theorem value_spelling (reason : DeclineReason) : Json.Spelling reason.value reason.value := by
  refine .of_all_plain ?_
  cases reason <;> rfl

/-- The body read as JSON. -/
def declineValue (reason : Bytes) : Value :=
  .object [(ascii "cache_pilot", .object [(ascii "declined", .bool true), (ascii "reason", .string reason)])]

theorem parse_decline (s : Pilot) :
    (sendDeclineResponse true s).bind Json.parse = some (declineValue (declineReasonValue s)) := by
  have hlex : Json.lex (declineTempl (declineReasonValue s)).flatten =
      some [.lbrace, str "cache_pilot", .colon, .lbrace, str "declined", .colon, .scalar (.bool true),
        .comma, str "reason", .colon, .scalar (.string (declineReasonValue s)), .rbrace, .rbrace] := by
    have hopen : ascii "\x7b\"cache_pilot\":\x7b\"declined\":true,\"reason\":\"" =
        ascii "\x7b\"cache_pilot\":\x7b\"declined\":true,\"reason\":" ++ [34] := rfl
    have hhead : Json.lex (ascii "\x7b\"cache_pilot\":\x7b\"declined\":true,\"reason\":") =
        some [.lbrace, str "cache_pilot", .colon, .lbrace, str "declined", .colon,
          .scalar (.bool true), .comma, str "reason", .colon] := rfl
    have hend : Json.lex (ascii "\x7d\x7d") = some [.rbrace, .rbrace] := rfl
    have hquote : ascii "\"\x7d\x7d" = 34 :: ascii "\x7d\x7d" := rfl
    unfold declineTempl declineReasonValue
    simp only [List.flatten_cons, List.flatten_nil, List.append_nil, hopen, hquote, List.append_assoc,
      List.singleton_append]
    rw [Json.lex_append hhead (Apart.of_left rfl rfl _), Json.lex_quoted (value_spelling _), hend]
    rfl
  rw [sendDeclineResponse_eq]
  exact parse_of_lex hlex (.object (.last (.object (.cons (.scalar _) (.last (.scalar _) _) _)) _))

/-- `send_decline_response` is for the requests that the handler declines, which have no
context: whatever made the purge decline, its body says `unknown`. -/
theorem decline_body_unknown (N : Nginx) (L : HeaderLayout) (access : IndexAccess) (call : PurgeCall)
    (ran : List PurgeStats) (failed : Bool) (s : Pilot)
    (h : (finalHandler N L access call ran failed s).answer = some .preconditionFailed) :
    (sendDeclineResponse true (finalHandler N L access call ran failed s).state).bind Json.parse =
      some (declineValue (ascii "unknown")) := by
  rw [parse_decline]
  unfold declineReasonValue
  rw [(finalHandler_declined h).2]
  rfl

/-- An exact purge of a key that is not cached, without memory for its context. -/
def sampleDeclined : PurgeCall :=
  { sampleExact with opened := .declined, pool := { PurgePool.full with ctx := false } }

theorem decline_body_unknown_sample :
    (sendDeclineResponse true (finalHandler .reference .reference sampleAccess sampleDeclined [] false
      variantState).state).bind Json.parse = some (declineValue (ascii "unknown")) :=
  decline_body_unknown .reference .reference sampleAccess sampleDeclined [] false variantState
    (by decide +kernel)

end CachePilot
