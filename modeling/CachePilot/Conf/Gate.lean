import CachePilot.Conf.Directives

/-!
# From the location to the purge handler

`ngx_http_cache_pilot_access_handler`, which a merged location has for its content handler: it
evaluates the conditions of the directive, and a request that they do not open goes on to the
handler that the location had before.

Results:
* `gate_opens_iff`: which requests reach the purge handler, and where the others go;
* `gate_calls`: what the access handler of a location can call.
-/

namespace CachePilot
open NgxString Print

/-! ## The access handler -/

/-- `ngx_http_cache_pilot_value_enabled`. -/
def valueEnabled (value : Bytes) : Bool :=
  if value.length == 0 then false
  else if value.length == 1 && value.headD 0 == 48 then false
  else if value.length == 3 && ngxStrncasecmp value (ascii "off") 3 == 0 then false
  else true

/-- The loop of `ngx_http_cache_pilot_enabled`; `eval` is `ngx_http_complex_value`, and `none`
that it fails. -/
def enabledValues (eval : Bytes → Option Bytes) : List Bytes → Bool
  | [] => false
  | condition :: conditions =>
    match eval condition with
    | none => false
    | some value => if valueEnabled value then true else enabledValues eval conditions

/-- `ngx_http_cache_pilot_enabled`. -/
def enabled (eval : Bytes → Option Bytes) (c : PilotConf) : Bool :=
  match c.enableValues with
  | none => false
  | some conditions => enabledValues eval conditions

inductive GateAnswer
  | call (handler : ContentHandler)
  | declined
  | notFound
deriving DecidableEq, Repr

/-- The way to the handler that the location had before. -/
def callOriginal (conf : LocConf) : GateAnswer :=
  match conf.originalHandler with
  | some handler => .call handler
  | none => .declined

/-- `ngx_http_cache_pilot_access_handler`. -/
def accessHandler (eval : Bytes → Option Bytes) (conf : LocConf) : GateAnswer :=
  match conf.conf with
  | none => callOriginal conf
  | some c =>
    if !enabled eval c then callOriginal conf
    else
      match conf.handler with
      | none => .notFound
      | some handler => .call handler

/-! ## The conditions -/

/-- The values that do not open the gate: the empty one, `0`, and `off` in any letter case. -/
def Off (value : Bytes) : Prop := value = [] ∨ value = [48] ∨ value.map ngxTolower = ascii "off"

/-- A condition opens the gate, and all before it can be evaluated and are off. -/
def Opens (eval : Bytes → Option Bytes) (conditions : List Bytes) : Prop :=
  ∃ (front : List Bytes) (condition : Bytes) (back : List Bytes) (value : Bytes),
    conditions = front ++ condition :: back ∧ (∀ c ∈ front, ∃ v, eval c = some v ∧ Off v) ∧
      eval condition = some value ∧ ¬ Off value

variable {eval : Bytes → Option Bytes} {value : Bytes} {conditions : List Bytes} {ctx : Context}
  {prev conf : LocConf} {m : Merged} {f p : Protocol} {qs ps : List Protocol} {h : ContentHandler}

theorem off_word (hlen : value.length = 3) :
    ngxStrncasecmp value (ascii "off") 3 = 0 ↔ value.map ngxTolower = ascii "off" :=
  ngxStrncasecmp_word (by decide +kernel) (by decide +kernel) (by decide +kernel) hlen

theorem valueEnabled_iff : valueEnabled value = true ↔ ¬ Off value := by
  unfold valueEnabled
  split
  · next hempty =>
    have hnil : value = [] := List.length_eq_zero_iff.mp (beq_iff_eq.mp hempty)
    exact iff_of_false (nomatch ·) fun hoff => hoff (Or.inl hnil)
  · next hempty =>
    split
    · next hzero =>
      obtain ⟨hlen, hhead⟩ := Bool.and_eq_true_iff.mp hzero
      obtain ⟨b, rfl⟩ := List.length_eq_one_iff.mp (beq_iff_eq.mp hlen)
      have hb : b = 48 := beq_iff_eq.mp hhead
      exact iff_of_false (nomatch ·) fun hoff => hoff (Or.inr (Or.inl (by rw [hb])))
    · next hzero =>
      split
      · next hword =>
        obtain ⟨hlen, hcmp⟩ := Bool.and_eq_true_iff.mp hword
        have hoff := (off_word (beq_iff_eq.mp hlen)).mp (beq_iff_eq.mp hcmp)
        exact iff_of_false (nomatch ·) fun hnot => hnot (Or.inr (Or.inr hoff))
      · next hword =>
        refine iff_of_true rfl ?_
        rintro (rfl | rfl | hoff)
        · exact hempty rfl
        · exact hzero rfl
        · have hlen : value.length = 3 := by
            have hmap := congrArg List.length hoff
            rw [List.length_map] at hmap
            rw [hmap]
            decide +kernel
          refine hword (Bool.and_eq_true_iff.mpr ⟨beq_iff_eq.mpr hlen, beq_iff_eq.mpr ?_⟩)
          exact (off_word hlen).mpr hoff

/-- A condition that is off leaves it to those behind it. -/
theorem opens_cons_off (c : Bytes) (heval : eval c = some value) (hoff : Off value) :
    Opens eval (c :: conditions) ↔ Opens eval conditions := by
  constructor
  · rintro ⟨front, condition, back, v, hsplit, hfront, hv, hon⟩
    cases front with
    | nil =>
      obtain ⟨rfl, rfl⟩ := List.cons.inj hsplit
      obtain rfl := Option.some.inj (heval.symm.trans hv)
      exact absurd hoff hon
    | cons c' front =>
      obtain ⟨rfl, rfl⟩ := List.cons.inj hsplit
      exact ⟨front, condition, back, v, rfl, (List.forall_mem_cons.mp hfront).2, hv, hon⟩
  · rintro ⟨front, condition, back, v, rfl, hfront, hv, hon⟩
    exact ⟨c :: front, condition, back, v, rfl, List.forall_mem_cons.mpr ⟨⟨value, heval, hoff⟩, hfront⟩, hv, hon⟩

theorem enabledValues_iff : enabledValues eval conditions = true ↔ Opens eval conditions := by
  induction conditions with
  | nil =>
    refine iff_of_false (nomatch ·) ?_
    rintro ⟨front, condition, back, value, hsplit, -⟩
    exact List.append_ne_nil_of_right_ne_nil front (List.cons_ne_nil condition back) hsplit.symm
  | cons c conditions ih =>
    unfold enabledValues
    cases heval : eval c with
    | none =>
      refine iff_of_false (nomatch ·) ?_
      rintro ⟨front, condition, back, value, hsplit, hfront, hvalue, -⟩
      cases front with
      | nil =>
        obtain ⟨rfl, -⟩ := List.cons.inj hsplit
        exact nomatch heval.symm.trans hvalue
      | cons c' front =>
        obtain ⟨rfl, -⟩ := List.cons.inj hsplit
        obtain ⟨v, hv, -⟩ := hfront c List.mem_cons_self
        exact nomatch heval.symm.trans hv
    | some value =>
      simp only
      split
      · next hon =>
        refine iff_of_true rfl ⟨[], c, conditions, value, rfl, fun x hx => absurd hx List.not_mem_nil, heval, ?_⟩
        exact valueEnabled_iff.mp hon
      · next hoff =>
        have hoff' : Off value := not_not.mp (mt valueEnabled_iff.mpr hoff)
        rw [ih, opens_cons_off c heval hoff']

/-! ## The handler that the location had before -/

theorem mergeValues_original {conf' : LocConf} (h : mergeValues ctx prev conf = some conf') :
    conf'.originalHandler = conf.originalHandler ∧ conf'.handler = conf.handler := by
  unfold mergeValues at h
  simp only at h
  split at h
  · exact nomatch h
  · cases h
    exact ⟨rfl, rfl⟩

/-- What an attempt to attach makes of the handlers: nothing, or the location calls its own
content handler or the one that the level around it calls. -/
theorem protocolAttach_handlers {original : Option ContentHandler}
    (h : protocolAttach ctx conf f original = .ok m) :
    (m.conf.originalHandler = conf.originalHandler ∧ m.conf.handler = conf.handler) ∨
      ((m.conf.originalHandler = ctx.handler ∨ m.conf.originalHandler = original) ∧
        (m.conf.handler = none ∨ m.conf.handler = some .protocol)) := by
  have hchoice : ∀ a b : Bool, (if a then original else if b then original else ctx.handler) = ctx.handler ∨
      (if a then original else if b then original else ctx.handler) = original := by
    intro a b
    cases a <;> cases b <;> simp
  unfold protocolAttach at h
  simp only at h
  split at h
  · cases h
    exact Or.inl ⟨rfl, rfl⟩
  · split at h
    · cases h
      exact Or.inl ⟨rfl, rfl⟩
    · refine Or.inr ?_
      split at h
      · rw [(attached_ok h).1]
        refine ⟨hchoice _ _, ?_⟩
        split
        · exact Or.inr rfl
        · exact Or.inl rfl
      · split at h
        · exact nomatch h
        · split at h
          · exact nomatch h
          · rw [(attached_ok h).1]
            exact ⟨hchoice _ _, Or.inr rfl⟩

theorem mergeProtocols_handlers (horiginal : conf.originalHandler = none) (hhandler : conf.handler = none)
    (h : mergeProtocols ctx prev ps conf = .ok m) :
    (m.conf.originalHandler = none ∨ m.conf.originalHandler = ctx.handler ∨
        m.conf.originalHandler = prev.originalHandler) ∧
      (m.conf.handler = none ∨ m.conf.handler = some .protocol ∨ m.conf.handler = prev.handler) := by
  induction ps generalizing conf with
  | nil =>
    cases h
    rw [horiginal, hhandler]
    exact ⟨Or.inr (Or.inr rfl), Or.inr (Or.inr rfl)⟩
  | cons q ps ih =>
    unfold mergeProtocols at h
    simp only at h
    split at h
    · rcases protocolAttach_handlers h with ⟨ho, hh⟩ | ⟨ho, hh⟩
      · exact ⟨Or.inl (ho.trans horiginal), Or.inl (hh.trans hhandler)⟩
      · exact ⟨Or.inr ho, hh.imp_right Or.inl⟩
    · refine ih ?_ ?_ h
      · exact horiginal
      · exact hhandler

theorem mergeLocConf_handlers (h : mergeLocConf ctx prev = .ok m) :
    (m.conf.originalHandler = none ∨ m.conf.originalHandler = ctx.handler ∨
        m.conf.originalHandler = prev.originalHandler) ∧
      (m.conf.handler = none ∨ m.conf.handler = some .protocol ∨ m.conf.handler = prev.handler) := by
  unfold mergeLocConf at h
  cases hv : mergeValues ctx prev ctx.directives.locConf with
  | none =>
    rw [hv] at h
    exact nomatch h
  | some conf =>
    rw [hv] at h
    obtain ⟨ho, hh⟩ := mergeValues_original hv
    exact mergeProtocols_handlers ho hh h

/-- Down the levels, a handler comes from one of them. -/
theorem mergeChain_handlers {outer : List Context} {loc : Context} {c : ContentHandler}
    (h : mergeChain prev outer loc = .ok m) :
    (m.conf.originalHandler = some c →
        prev.originalHandler = some c ∨ ∃ ctx ∈ outer ++ [loc], ctx.handler = some c) ∧
      (m.conf.handler = some c → prev.handler = some c ∨ c = .protocol) := by
  induction outer generalizing prev with
  | nil =>
    obtain ⟨horiginal, hhandler⟩ := mergeLocConf_handlers h
    refine ⟨fun hc => ?_, fun hc => ?_⟩
    · rcases horiginal with ho | ho | ho
      · cases ho.symm.trans hc
      · exact Or.inr ⟨loc, List.mem_singleton_self loc, ho.symm.trans hc⟩
      · exact Or.inl (ho.symm.trans hc)
    · rcases hhandler with hh | hh | hh
      · cases hh.symm.trans hc
      · exact Or.inr (Option.some.inj (hc.symm.trans hh))
      · exact Or.inl (hh.symm.trans hc)
  | cons ctx outer ih =>
    unfold mergeChain at h
    cases hm : mergeLocConf ctx prev with
    | error e =>
      rw [hm] at h
      cases h
    | ok m1 =>
      rw [hm] at h
      obtain ⟨horiginal, hhandler⟩ := mergeLocConf_handlers hm
      obtain ⟨ih1, ih2⟩ := ih h
      refine ⟨fun hc => ?_, fun hc => ?_⟩
      · rcases ih1 hc with ho1 | ⟨ctx', hctx', hc'⟩
        · rcases horiginal with ho | ho | ho
          · cases ho.symm.trans ho1
          · exact Or.inr ⟨ctx, List.mem_cons_self, ho.symm.trans ho1⟩
          · exact Or.inl (ho.symm.trans ho1)
        · exact Or.inr ⟨ctx', List.mem_cons_of_mem ctx hctx', hc'⟩
      · rcases ih2 hc with hh1 | rfl
        · rcases hhandler with hh | hh | hh
          · cases hh.symm.trans hh1
          · exact Or.inr (Option.some.inj (hh1.symm.trans hh))
          · exact Or.inl (hh.symm.trans hh1)
        · exact Or.inr rfl

/-- Whatever is nested in what, the access handler of a location calls the purge handler or
a content handler that a directive has given to one of its levels. It never calls itself
where other modules give the handlers. -/
theorem gate_calls (eval : Bytes → Option Bytes) (http : Directives) (outer : List Context) (loc : Context)
    (m : Merged) (c : ContentHandler) (hok : mergeChain http.locConf outer loc = .ok m)
    (hcall : accessHandler eval m.conf = .call c) :
    c = .protocol ∨ ∃ ctx ∈ outer ++ [loc], ctx.handler = some c := by
  obtain ⟨horiginal, hhandler⟩ := mergeChain_handlers (c := c) hok
  have hcallOriginal : callOriginal m.conf = .call c → ∃ ctx ∈ outer ++ [loc], ctx.handler = some c := by
    intro h
    unfold callOriginal at h
    split at h
    · next c' hc' =>
      obtain rfl := GateAnswer.call.inj h
      exact (horiginal hc').resolve_left (nomatch ·)
    · exact nomatch h
  unfold accessHandler at hcall
  split at hcall
  · exact Or.inr (hcallOriginal hcall)
  · split at hcall
    · exact Or.inr (hcallOriginal hcall)
    · split at hcall
      · exact nomatch hcall
      · next c' hc' =>
        obtain rfl := GateAnswer.call.inj hcall
        exact Or.inl ((hhandler hc').resolve_left (nomatch ·))

/-- A request whose condition is empty. -/
theorem gate_calls_sample :
    ∃ m, mergeChain (sampleLevel [.proxy] false).locConf [sampleServer] proxyLocation = .ok m ∧
      (ContentHandler.other 0 = .protocol ∨
        ∃ ctx ∈ [sampleServer] ++ [proxyLocation], ctx.handler = some (.other 0)) :=
  ⟨_, rfl, gate_calls (fun _ => some []) (sampleLevel [.proxy] false) [sampleServer] proxyLocation _
    (.other 0) rfl rfl⟩

/-! ## The levels that set a directive -/

theorem setSlot_self (conf : LocConf) (f : Protocol) (c : PilotConf) : (conf.setSlot f c).slot f = c := by
  simp [LocConf.setSlot]

/-- The loop attaches at the first protocol that is enabled. -/
theorem mergeProtocols_enabled (hnodup : (qs ++ f :: ps).Nodup)
    (hoff : ∀ q ∈ qs, (mergeConf (conf.slot q) (prev.slot q)).enable = some false)
    (hon : (mergeConf (conf.slot f) (prev.slot f)).enable = some true) :
    mergeProtocols ctx prev (qs ++ f :: ps) conf =
      protocolAttach ctx ((mergedSlots prev conf qs).setSlot f (mergeConf (conf.slot f) (prev.slot f))) f
        prev.originalHandler := by
  have hf : f ∉ qs := fun hf =>
    (List.nodup_append.mp hnodup).2.2 f hf f List.mem_cons_self rfl
  have hself : (mergedSlots prev conf qs).slot f = conf.slot f := if_neg hf
  rw [mergeProtocols_append hnodup hoff, mergeProtocols]
  simp only [hself, setSlot_self, hon]
  rw [if_pos (by decide)]

variable {reached : Option PurgeDirective} {d : PurgeDirective} {id : Nat}

/-- One merge at a level that the directive of `f` reaches, where no protocol before `f` is
set: the slot knows whether the directive is the level's own. -/
theorem mergeLocConf_enabled (hprot : protocols = qs ++ f :: ps)
    (hno : ∀ q ∈ qs, ctx.directives.purge q = none) (hprev : ∀ q ∈ qs, Carries (prev.slot q) none)
    (hf : Carries (prev.slot f) reached) (hset : ((ctx.directives.purge f).or reached).isSome = true)
    (h : mergeLocConf ctx prev = .ok m) :
    ∃ conf' : LocConf, conf'.originalHandler = none ∧
      (conf'.slot f).configured = some (ctx.directives.purge f).isSome ∧
      protocolAttach ctx conf' f prev.originalHandler = .ok m := by
  unfold mergeLocConf at h
  cases hv : mergeValues ctx prev ctx.directives.locConf with
  | none =>
    rw [hv] at h
    exact nomatch h
  | some conf =>
    obtain ⟨hslot, -⟩ := mergeValues_slot hv
    have hoff : ∀ q ∈ qs, (mergeConf (conf.slot q) (prev.slot q)).enable = some false := by
      intro q hq
      obtain ⟨-, henable⟩ := mergeConf_carries ctx.directives (hprev q hq)
      rwa [← hslot, hno q hq] at henable
    obtain ⟨-, hon⟩ := mergeConf_carries ctx.directives hf
    rw [← hslot, hset] at hon
    have hnodup : (qs ++ f :: ps).Nodup := by
      rw [← hprot]
      decide
    rw [hv, hprot] at h
    simp only at h
    rw [mergeProtocols_enabled hnodup hoff hon] at h
    refine ⟨_, ?_, ?_, h⟩
    · exact (mergeValues_original hv).1
    rw [setSlot_self]
    rw [hslot, locConf_slot] at hon ⊢
    cases hown : ctx.directives.purge f with
    | some d => rfl
    | none =>
      rw [hown] at hset
      obtain ⟨d, rfl⟩ := Option.isSome_iff_exists.mp hset
      unfold mergeConf
      rw [if_pos rfl, if_pos hf.1]
      rfl

/-- The level has the content handler `id` of the upstream module if it passes there, and no
content handler where it has the purge directive and does not pass. -/
def PassesAs (p : Protocol) (id : Nat) (ctx : Context) : Prop :=
  ((ctx.upstream p).hasPass = true → ctx.handler = some (.other id)) ∧
    ((ctx.upstream p).hasPass = false → (ctx.directives.purge p).isSome = true → ctx.handler = none)

theorem protocolAttach_original {original : Option ContentHandler} (hpasses : PassesAs f id ctx)
    (hnone : conf.originalHandler = none)
    (hown : (conf.slot f).configured = some (ctx.directives.purge f).isSome)
    (horiginal : (ctx.directives.purge f).isSome = false → original = none ∨ original = some (.other id))
    (h : protocolAttach ctx conf f original = .ok m) :
    (m.conf.originalHandler = none ∨ m.conf.originalHandler = some (.other id)) ∧
      ((ctx.upstream f).hasPass = true → m.conf.originalHandler = some (.other id)) := by
  unfold protocolAttach at h
  simp only [hown] at h
  cases hpass : (ctx.upstream f).hasPass with
  | true =>
    have hhandler := hpasses.1 hpass
    simp only [hpass, hhandler, Bool.not_true, Bool.false_and, Bool.and_false, Bool.false_eq_true, if_false,
      if_true] at h
    have hm := congrArg LocConf.originalHandler (attached_ok h).1
    simp only at hm
    have hid : m.conf.originalHandler = some (.other id) := by
      rw [hm]
      cases hset : (ctx.directives.purge f).isSome with
      | true => rfl
      | false => rcases horiginal hset with rfl | rfl <;> rfl
    exact ⟨Or.inr hid, fun _ => hid⟩
  | false =>
    refine ⟨Or.inl ?_, (nomatch ·)⟩
    split at h
    · cases h
      exact hnone
    · split at h
      · cases h
        exact hnone
      · next hskip =>
        have hset : (ctx.directives.purge f).isSome = true := by
          cases hset : (ctx.directives.purge f).isSome with
          | true => rfl
          | false =>
            rw [hset, hpass] at hskip
            exact absurd rfl hskip
        have hhandler := hpasses.2 hpass hset
        simp only [hpass, hhandler, hset, Bool.false_eq_true, if_false] at h
        split at h
        · exact nomatch h
        · split at h
          · exact nomatch h
          · have hm := congrArg LocConf.originalHandler (attached_ok h).1
            exact hm

theorem reached_of_or {own : Option PurgeDirective} (h : (own.or reached).isSome = true)
    (hown : own.isSome = false) : reached.isSome = true := by
  cases own with
  | none => exact h
  | some d => exact nomatch hown

/-- The handler that the location ends up with behind its gate is its own. -/
theorem mergeChain_original {outer : List Context} {loc : Context} (hprot : protocols = qs ++ f :: ps)
    (hno : ∀ ctx ∈ outer ++ [loc], ∀ q ∈ qs, ctx.directives.purge q = none)
    (hprev : ∀ q ∈ qs, Carries (prev.slot q) none) (hf : Carries (prev.slot f) reached)
    (hpasses : ∀ ctx ∈ outer ++ [loc], PassesAs f id ctx)
    (hsame : reached.isSome = true →
      prev.originalHandler = none ∨ prev.originalHandler = some (.other id))
    (hset : ((loc.directives.purge f).or (nearest f reached (outer.map Context.directives))).isSome = true)
    (hpass : (loc.upstream f).hasPass = true) (h : mergeChain prev outer loc = .ok m) :
    m.conf.originalHandler = some (.other id) := by
  induction outer generalizing prev reached with
  | nil =>
    have hmem : loc ∈ [] ++ [loc] := List.mem_singleton_self loc
    obtain ⟨conf', hnone, hown, ha⟩ := mergeLocConf_enabled hprot (hno loc hmem) hprev hf hset h
    exact (protocolAttach_original (hpasses loc hmem) hnone hown
      (fun hinherited => hsame (reached_of_or hset hinherited)) ha).2 hpass
  | cons ctx outer ih =>
    unfold mergeChain at h
    cases hm : mergeLocConf ctx prev with
    | error e =>
      rw [hm] at h
      cases h
    | ok m1 =>
      rw [hm] at h
      have hmem : ctx ∈ ctx :: outer ++ [loc] := List.mem_cons_self
      obtain ⟨hprev1, hf1, -⟩ := mergeLocConf_first hprot (hno ctx hmem) hprev hf hm
      refine ih (fun c hc => hno c (List.mem_cons_of_mem ctx hc)) hprev1 hf1
        (fun c hc => hpasses c (List.mem_cons_of_mem ctx hc)) (fun hset1 => ?_) hset h
      obtain ⟨conf', hnone, hown, ha⟩ := mergeLocConf_enabled hprot (hno ctx hmem) hprev hf hset1 hm
      exact (protocolAttach_original (hpasses ctx hmem) hnone hown
        (fun hinherited => hsame (reached_of_or hset1 hinherited)) ha).1

theorem accessHandler_attached (eval : Bytes → Option Bytes) {original handler : ContentHandler} {c : PilotConf}
    (hconf : conf.conf = some c) (hvalues : c.enableValues = some conditions)
    (hhandler : conf.handler = some handler) (horiginal : conf.originalHandler = some original) :
    (Opens eval conditions → accessHandler eval conf = .call handler) ∧
      (¬ Opens eval conditions → accessHandler eval conf = .call original) := by
  have henabled : enabled eval c = enabledValues eval conditions := by
    unfold enabled
    rw [hvalues]
  have hcall : callOriginal conf = .call original := by
    unfold callOriginal
    rw [horiginal]
  unfold accessHandler
  rw [hconf, hhandler]
  simp only [henabled, hcall]
  refine ⟨fun hopen => ?_, fun hclosed => ?_⟩
  · rw [enabledValues_iff.mpr hopen]
    rfl
  · rw [Bool.eq_false_iff.mpr (mt enabledValues_iff.mp hclosed)]
    rfl

/-- A location that passes to the upstream of a protocol, with its zone and key set, and that
the directive `d` reaches: a request purges exactly when a condition of `d` is on and those
before it can be evaluated. Any other request is answered by the content handler of the
location, whatever the levels around it are. -/
theorem gate_opens_iff (eval : Bytes → Option Bytes) (http : Directives) (outer : List Context) (loc : Context)
    (p : Protocol) (d : PurgeDirective) (m : Merged) (id : Nat) (hpass : (loc.upstream p).hasPass = true)
    (hcache : (loc.upstream p).hasCache = true) (hkey : (loc.upstream p).hasCacheKey = true)
    (hset : nearest p none (levelsOf http outer loc) = some d)
    (hno : ∀ level ∈ levelsOf http outer loc, ∀ q ∈ earlier p, level.purge q = none)
    (hpasses : ∀ ctx ∈ outer ++ [loc], PassesAs p id ctx)
    (hok : mergeChain http.locConf outer loc = .ok m) :
    (accessHandler eval m.conf = .call .protocol ↔ Opens eval d.conditions) ∧
      (accessHandler eval m.conf = .call (.other id) ↔ ¬ Opens eval d.conditions) := by
  obtain ⟨ps, hprot⟩ := protocols_eq p
  have hlevels : ∀ ctx ∈ outer ++ [loc], ctx.directives ∈ levelsOf http outer loc := by
    intro ctx hctx
    have hmap : outer.map Context.directives ++ [loc.directives] = (outer ++ [loc]).map Context.directives := by
      rw [List.map_append, List.map_singleton]
    unfold levelsOf
    rw [hmap]
    exact List.mem_cons_of_mem _ (List.mem_map_of_mem hctx)
  have hno' : ∀ ctx ∈ outer ++ [loc], ∀ q ∈ earlier p, ctx.directives.purge q = none :=
    fun ctx hctx => hno ctx.directives (hlevels ctx hctx)
  have hhttp : ∀ q ∈ earlier p, Carries (http.locConf.slot q) none := by
    intro q hq
    have hcarries := locConf_carries http q
    rwa [hno http List.mem_cons_self q hq] at hcarries
  have hset' : (loc.directives.purge p).or (nearest p (http.purge p) (outer.map Context.directives)) =
      some d := by
    rw [← hset]
    unfold levelsOf
    rw [nearest, nearest_append, Option.or_none]
    rfl
  have horiginal := mergeChain_original hprot hno' hhttp (locConf_carries http p) hpasses
    (fun _ => Or.inl rfl) (by rw [hset']; rfl) hpass hok
  obtain ⟨conf, original, -, hcarries, ha⟩ := attach_first hprot hno hset hok
  obtain ⟨-, hhandler, -, hconf⟩ := protocolAttach_pass hpass hcache hkey ha
  obtain ⟨hopened, hclosed⟩ := accessHandler_attached eval hconf hcarries.2.1 hhandler horiginal
  refine ⟨⟨fun h => ?_, hopened⟩, ⟨fun h hopen => ?_, hclosed⟩⟩
  · by_contra hshut
    cases h.symm.trans (hclosed hshut)
  · cases h.symm.trans (hopened hopen)

/-- `proxy_cache_purge $p soft` around a server with a directive of its own. -/
theorem gate_opens_iff_sample :
    ∃ m, mergeChain (sampleLevel [.proxy] false).locConf [sampleServer] proxyLocation = .ok m ∧
      (accessHandler some m.conf = .call .protocol ↔ Opens some [[49]]) ∧
      (accessHandler some m.conf = .call (.other 0) ↔ ¬ Opens some [[49]]) := by
  refine ⟨_, rfl, gate_opens_iff some (sampleLevel [.proxy] false) [sampleServer] proxyLocation .proxy
    ⟨[[49]], true, false⟩ _ 0 rfl rfl rfl rfl (by decide) ?_ rfl⟩
  intro ctx hctx
  rcases List.mem_cons.mp hctx with rfl | hctx
  · exact ⟨(nomatch ·), fun _ _ => rfl⟩
  · obtain rfl := List.mem_singleton.mp hctx
    exact ⟨fun _ => rfl, (nomatch ·)⟩

end CachePilot
