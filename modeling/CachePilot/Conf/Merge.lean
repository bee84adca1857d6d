import CachePilot.Lib.Strings

/-!
# Purge directives and their inheritance

`ngx_http_cache_pilot_merge_loc_conf` of `ngx_cache_pilot_module.c` and what it
calls. nginx merges a location's configuration with the merged one of the level
around it, from the outside in, and the loop over the protocols attaches the purge
handler of the first one that is enabled.

Results:
* `purge_inherited_iff`: which locations end with the handler of their protocol,
  under the nearest directive;
* `earlier_protocol_hides_purge`: a location that inherits two directives and gets
  the handler of neither.
-/

namespace CachePilot
open NgxString

/-! ## Configurations -/

/-- The entries of `ngx_http_cache_pilot_protocols`. -/
inductive Protocol
  | fastcgi
  | proxy
  | scgi
  | uwsgi
deriving DecidableEq, Repr

/-- `ngx_http_cache_pilot_protocols`, in its order. -/
def protocols : List Protocol := [.fastcgi, .proxy, .scgi, .uwsgi]

/-- `ngx_http_cache_pilot_conf_t`; `none` is `NGX_CONF_UNSET`, or no array. -/
structure PilotConf where
  enable : Option Bool
  configured : Option Bool
  enableValues : Option (List Bytes)
  soft : Bool
  purgeAll : Bool
deriving DecidableEq, Repr

/-- The content handlers of a location: `ngx_http_cache_pilot_access_handler`,
`ngx_http_cache_pilot_protocol_handler`, and those of other modules. -/
inductive ContentHandler
  | access
  | protocol
  | other (id : Nat)
deriving DecidableEq, Repr

inductive ResponseType
  | json
  | text
deriving DecidableEq, Repr

/-- `ngx_http_cache_pilot_loc_conf_t`, without the zones of the metrics endpoint.
`conf` is the configuration that the handler uses. -/
structure LocConf where
  slot : Protocol → PilotConf
  conf : Option PilotConf
  handler : Option ContentHandler
  originalHandler : Option ContentHandler
  protocol : Option Protocol
  resptype : Option ResponseType
  resptypeConfigured : Bool
  cacheIndex : Option Bool
  cacheTagHeaders : Option (List Bytes)
  purgeModeHeader : Option Bytes

def LocConf.setSlot (conf : LocConf) (p : Protocol) (c : PilotConf) : LocConf :=
  { conf with slot := Function.update conf.slot p c }

/-- The arguments of a purge directive. -/
structure PurgeDirective where
  conditions : List Bytes
  soft : Bool
  purgeAll : Bool
deriving DecidableEq, Repr

/-- The directives of one level. -/
structure Directives where
  purge : Protocol → Option PurgeDirective
  resptype : Option ResponseType
  cacheIndex : Option Bool
  cacheTagHeaders : Option (List Bytes)
  purgeModeHeader : Option Bytes

/-- What a purge directive leaves in its slot. -/
def PurgeDirective.pilotConf (d : PurgeDirective) : PilotConf :=
  ⟨some true, some true, some d.conditions, d.soft, d.purgeAll⟩

/-- `ngx_http_cache_pilot_create_loc_conf`, and then the directives of the level. -/
def Directives.locConf (d : Directives) : LocConf where
  slot p := match d.purge p with
    | some directive => directive.pilotConf
    | none => ⟨none, none, none, false, false⟩
  conf := none
  handler := none
  originalHandler := none
  protocol := none
  resptype := d.resptype
  resptypeConfigured := false
  cacheIndex := d.cacheIndex
  cacheTagHeaders := d.cacheTagHeaders
  purgeModeHeader := d.purgeModeHeader

/-- What the configuration of an upstream module has for a location; `cache` is the
cache of a zone that is given by name. -/
structure UpstreamConf where
  hasPass : Bool
  hasCache : Bool
  hasCacheKey : Bool
  cache : Option Nat

/-- `ngx_http_cache_pilot_main_conf_t`: whether the index is configured, and the
zones that are registered so far, each with its tag headers. -/
structure MainConf where
  storeConfigured : Bool
  zones : List (Nat × List Bytes)

/-- A server or location as its merge finds it: its directives, the upstream
modules, `clcf->name.len` and `clcf->handler` of the core module, the main
configuration, and whether the pool can allocate. -/
structure Context where
  directives : Directives
  upstream : Protocol → UpstreamConf
  named : Bool
  handler : Option ContentHandler
  main : MainConf
  pool : Bool

inductive ConfError
  | failed
  | cacheKey (p : Protocol)
  | cache (p : Protocol)
deriving DecidableEq, Repr

def Protocol.name : Protocol → String
  | .fastcgi => "fastcgi"
  | .proxy => "proxy"
  | .scgi => "scgi"
  | .uwsgi => "uwsgi"

/-- The text of the error, where the directive has one of its own. -/
def ConfError.text : ConfError → Option String
  | .failed => none
  | .cacheKey p =>
    some ("\"" ++ p.name ++ "_cache_purge\" requires \"" ++ p.name ++ "_cache_key\" on this location")
  | .cache p =>
    some ("\"" ++ p.name ++ "_cache_purge\" requires \"" ++ p.name ++ "_cache\" on this location")

/-- A merged location: its configuration, the content handler that it ends with,
and the main configuration. -/
structure Merged where
  conf : LocConf
  handler : Option ContentHandler
  main : MainConf

/-! ## The merge -/

/-- `ngx_http_cache_pilot_merge_conf`. -/
def mergeConf (conf prev : PilotConf) : PilotConf :=
  if conf.enable = none then
    if prev.enable = some true then
      ⟨prev.enable, some false, prev.enableValues, prev.soft, prev.purgeAll⟩
    else { conf with enable := some false, configured := some false }
  else conf

/-- `ngx_http_cache_index_headers_equal`. -/
def headersEqual (left right : List Bytes) : Bool :=
  left.length == right.length &&
    left.all fun l => right.any fun r => l.length == r.length && ngxStrncasecmp l r l.length == 0

/-- `ngx_http_cache_index_register_cache`. -/
def registerCache (pool : Bool) (main : MainConf) (cache : Option Nat) (headers : List Bytes) :
    Except ConfError MainConf :=
  match cache with
  | none => .ok main
  | some cache =>
    if !main.storeConfigured then .ok main
    else
      match main.zones.find? fun z => z.1 == cache with
      | some z => if headersEqual z.2 headers then .ok main else .error .failed
      | none =>
        if pool then .ok { main with zones := main.zones ++ [(cache, headers)] } else .error .failed

/-- The end of `protocol_attach`: the location has the access handler, and its cache
is registered if it is to be indexed. -/
def attached (ctx : Context) (conf : LocConf) (p : Protocol) : Except ConfError Merged :=
  if conf.cacheIndex ≠ some false ∧ conf.handler ≠ none then
    match registerCache ctx.pool ctx.main (ctx.upstream p).cache (conf.cacheTagHeaders.getD []) with
    | .error e => .error e
    | .ok main => .ok ⟨conf, some .access, main⟩
  else .ok ⟨conf, some .access, ctx.main⟩

/-- `ngx_http_cache_pilot_protocol_attach`. -/
def protocolAttach (ctx : Context) (conf : LocConf) (p : Protocol)
    (prevOriginalHandler : Option ContentHandler) : Except ConfError Merged :=
  let slot := conf.slot p
  let up := ctx.upstream p
  if !up.hasPass && !up.hasCache && !up.hasCacheKey &&
      (slot.configured == some false || !ctx.named) then
    .ok ⟨conf, ctx.handler, ctx.main⟩
  else if slot.configured == some false && !up.hasPass then .ok ⟨conf, ctx.handler, ctx.main⟩
  else
    let original :=
      if slot.configured == some false && prevOriginalHandler.isSome then prevOriginalHandler
      else if ctx.handler == some .access && prevOriginalHandler.isSome then prevOriginalHandler
      else ctx.handler
    let conf := { conf with conf := some slot, protocol := some p, originalHandler := original }
    if up.hasPass then
      let handler := if up.hasCache && up.hasCacheKey then some .protocol else none
      attached ctx { conf with handler := handler } p
    else if !up.hasCacheKey then .error (.cacheKey p)
    else if !up.hasCache then .error (.cache p)
    else attached ctx { conf with handler := some .protocol } p

/-- The loop of `merge_loc_conf` over the protocols, and what follows it when none
of them is enabled. -/
def mergeProtocols (ctx : Context) (prev : LocConf) :
    List Protocol → LocConf → Except ConfError Merged
  | [], conf =>
    .ok ⟨{ conf with
      conf := conf.conf.or prev.conf
      protocol := conf.protocol.or prev.protocol
      handler := conf.handler.or prev.handler
      originalHandler := conf.originalHandler.or prev.originalHandler }, ctx.handler, ctx.main⟩
  | p :: ps, conf =>
    let conf := conf.setSlot p (mergeConf (conf.slot p) (prev.slot p))
    if (conf.slot p).enable ≠ some false then protocolAttach ctx conf p prev.originalHandler
    else mergeProtocols ctx prev ps conf

/-- `Surrogate-Key` and `Cache-Tag`. -/
def defaultTagHeaders : List Bytes :=
  [[83, 117, 114, 114, 111, 103, 97, 116, 101, 45, 75, 101, 121],
   [67, 97, 99, 104, 101, 45, 84, 97, 103]]

/-- `ngx_http_cache_pilot_location_uses_cache`. -/
def locationUsesCache (ctx : Context) : Bool := protocols.any fun p => (ctx.upstream p).hasCache

/-- The values that `merge_loc_conf` merges before its loop; `none` when the default
tag headers cannot be allocated. -/
def mergeValues (ctx : Context) (prev : LocConf) (conf : LocConf) : Option LocConf :=
  let index :=
    if conf.cacheIndex = none ∧ prev.cacheIndex = none ∧ ctx.main.storeConfigured ∧
        locationUsesCache ctx then some true
    else conf.cacheIndex
  let headers := conf.cacheTagHeaders.or prev.cacheTagHeaders
  if headers = none ∧ !ctx.pool then none
  else some { conf with
    resptype := (conf.resptype.or prev.resptype).or (some .json)
    resptypeConfigured := conf.resptype.isSome
    cacheIndex := (index.or prev.cacheIndex).or (some false)
    purgeModeHeader := (conf.purgeModeHeader.or prev.purgeModeHeader).or (some [])
    cacheTagHeaders := headers.or (some defaultTagHeaders) }

/-- `ngx_http_cache_pilot_merge_loc_conf`. -/
def mergeLocConf (ctx : Context) (prev : LocConf) : Except ConfError Merged :=
  match mergeValues ctx prev ctx.directives.locConf with
  | none => .error .failed
  | some conf => mergeProtocols ctx prev protocols conf

/-- The merges of the levels around a location, and then its own. `prev` is the
configuration around the outermost of them. -/
def mergeChain (prev : LocConf) : List Context → Context → Except ConfError Merged
  | [], loc => mergeLocConf loc prev
  | ctx :: outer, loc =>
    match mergeLocConf ctx prev with
    | .error e => .error e
    | .ok m => mergeChain m.conf outer loc

/-! ## Which directive reaches a location -/

variable {ctx : Context} {prev conf : LocConf} {m : Merged} {f q : Protocol} {qs ps : List Protocol}
  {d : PurgeDirective}

/-- The directive of a protocol that is set nearest to the last level, over what
reaches the first one. -/
def nearest (p : Protocol) : Option PurgeDirective → List Directives → Option PurgeDirective
  | reached, [] => reached
  | reached, level :: levels => nearest p ((level.purge p).or reached) levels

/-- What a slot knows about a directive: its values, or that there is none. -/
def Carries (c : PilotConf) : Option PurgeDirective → Prop
  | none => c.enable ≠ some true
  | some d => c.enable = some true ∧ c.enableValues = some d.conditions ∧ c.soft = d.soft ∧
      c.purgeAll = d.purgeAll

theorem locConf_slot (level : Directives) (p : Protocol) :
    level.locConf.slot p = match level.purge p with
      | some directive => directive.pilotConf
      | none => ⟨none, none, none, false, false⟩ := rfl

theorem locConf_carries (level : Directives) (p : Protocol) :
    Carries (level.locConf.slot p) (level.purge p) := by
  rw [locConf_slot]
  cases level.purge p with
  | none => exact fun h => nomatch h
  | some d => exact ⟨rfl, rfl, rfl, rfl⟩

/-- A slot takes the directive of its own level, or else the one that reaches it. -/
theorem mergeConf_carries (level : Directives) {p : Protocol} {c : PilotConf}
    {reached : Option PurgeDirective} (h : Carries c reached) :
    Carries (mergeConf (level.locConf.slot p) c) ((level.purge p).or reached) ∧
      (mergeConf (level.locConf.slot p) c).enable = some ((level.purge p).or reached).isSome := by
  rw [locConf_slot]
  cases level.purge p with
  | some d => exact ⟨⟨rfl, rfl, rfl, rfl⟩, rfl⟩
  | none =>
    simp only [mergeConf, if_true, Option.none_or]
    cases reached with
    | none =>
      rw [if_neg h]
      exact ⟨(nomatch ·), rfl⟩
    | some d =>
      rw [if_pos h.1]
      exact ⟨h, h.1⟩

theorem nearest_append (p : Protocol) (reached : Option PurgeDirective)
    (levels levels' : List Directives) :
    nearest p reached (levels ++ levels') = nearest p (nearest p reached levels) levels' := by
  induction levels generalizing reached with
  | nil => rfl
  | cons level levels ih => exact ih _

/-- A directive that is set somewhere is not lost on the way. -/
theorem nearest_isSome {p : Protocol} {reached : Option PurgeDirective} {levels : List Directives}
    (h : reached.isSome = true ∨ ∃ level ∈ levels, (level.purge p).isSome = true) :
    (nearest p reached levels).isSome = true := by
  induction levels generalizing reached with
  | nil =>
    rcases h with h | ⟨level, hl, -⟩
    · exact h
    · exact absurd hl List.not_mem_nil
  | cons level levels ih =>
    refine ih ?_
    rcases h with h | ⟨l, hl, hp⟩
    · refine Or.inl ?_
      cases level.purge p with
      | none => exact h
      | some d => rfl
    · rcases List.mem_cons.mp hl with rfl | hl
      · refine Or.inl ?_
        obtain ⟨d, hd⟩ := Option.isSome_iff_exists.mp hp
        rw [hd]
        rfl
      · exact Or.inr ⟨l, hl, hp⟩

/-! ## The loop over the protocols -/

/-- The configuration when the loop has merged the slots of `qs`. -/
def mergedSlots (prev conf : LocConf) (qs : List Protocol) : LocConf :=
  { conf with slot := fun q => if q ∈ qs then mergeConf (conf.slot q) (prev.slot q) else conf.slot q }

theorem mergedSlots_cons (hq : q ∉ qs) :
    mergedSlots prev (conf.setSlot q (mergeConf (conf.slot q) (prev.slot q))) qs =
      mergedSlots prev conf (q :: qs) := by
  unfold mergedSlots LocConf.setSlot
  simp only [LocConf.mk.injEq, and_true]
  funext q'
  cases hd : decide (q' = q) with
  | true =>
    obtain rfl := of_decide_eq_true hd
    simp [hq]
  | false =>
    have hne := of_decide_eq_false hd
    simp [hne]

/-- The loop passes over the protocols that are not enabled. -/
theorem mergeProtocols_append (hnodup : (qs ++ ps).Nodup)
    (hoff : ∀ q ∈ qs, (mergeConf (conf.slot q) (prev.slot q)).enable = some false) :
    mergeProtocols ctx prev (qs ++ ps) conf =
      mergeProtocols ctx prev ps (mergedSlots prev conf qs) := by
  induction qs generalizing conf with
  | nil =>
    have hsame : mergedSlots prev conf [] = conf := by simp [mergedSlots]
    rw [List.nil_append, hsame]
  | cons q qs ih =>
    rw [List.cons_append, List.nodup_cons] at hnodup
    obtain ⟨hq, hnodup⟩ := hnodup
    have hq' : q ∉ qs := fun h => hq (List.mem_append_left ps h)
    have hpass : mergeProtocols ctx prev (q :: (qs ++ ps)) conf =
        mergeProtocols ctx prev (qs ++ ps)
          (conf.setSlot q (mergeConf (conf.slot q) (prev.slot q))) := by
      rw [mergeProtocols]
      simp [LocConf.setSlot, hoff q List.mem_cons_self]
    have hoff' : ∀ q' ∈ qs, (mergeConf
        ((conf.setSlot q (mergeConf (conf.slot q) (prev.slot q))).slot q') (prev.slot q')).enable =
          some false := by
      intro q' h
      have hne : q' ≠ q := fun h0 => hq' (h0 ▸ h)
      have hslot : (conf.setSlot q (mergeConf (conf.slot q) (prev.slot q))).slot q' = conf.slot q' :=
        Function.update_of_ne hne _ _
      rw [hslot]
      exact hoff q' (List.mem_cons_of_mem q h)
    rw [List.cons_append, hpass, ih hnodup hoff', mergedSlots_cons hq']

theorem attached_ok (h : attached ctx conf f = .ok m) : m.conf = conf ∧ m.handler = some .access := by
  unfold attached at h
  split at h
  · split at h
    · exact nomatch h
    · cases h
      exact ⟨rfl, rfl⟩
  · cases h
    exact ⟨rfl, rfl⟩

/-- An attempt to attach leaves the slots alone. -/
theorem protocolAttach_slot {original : Option ContentHandler}
    (h : protocolAttach ctx conf f original = .ok m) :
    m.conf.slot = conf.slot ∧ (m.conf.protocol = conf.protocol ∨ m.conf.protocol = some f) := by
  unfold protocolAttach at h
  simp only at h
  split at h
  · cases h
    exact ⟨rfl, Or.inl rfl⟩
  · split at h
    · cases h
      exact ⟨rfl, Or.inl rfl⟩
    · split at h
      · rw [(attached_ok h).1]
        exact ⟨rfl, Or.inr rfl⟩
      · split at h
        · exact nomatch h
        · split at h
          · exact nomatch h
          · rw [(attached_ok h).1]
            exact ⟨rfl, Or.inr rfl⟩

/-- A location that passes to the upstream, with a zone and a key, gets the handler
with the merged slot. -/
theorem protocolAttach_pass {original : Option ContentHandler}
    (hpass : (ctx.upstream f).hasPass = true) (hcache : (ctx.upstream f).hasCache = true)
    (hkey : (ctx.upstream f).hasCacheKey = true) (h : protocolAttach ctx conf f original = .ok m) :
    m.handler = some .access ∧ m.conf.handler = some .protocol ∧ m.conf.protocol = some f ∧
      m.conf.conf = some (conf.slot f) := by
  unfold protocolAttach at h
  simp only [hpass, hcache, hkey, Bool.not_true, Bool.false_and, Bool.and_false, Bool.and_self,
    Bool.false_eq_true, if_false, if_true] at h
  obtain ⟨hconf, hhandler⟩ := attached_ok h
  rw [hconf]
  exact ⟨hhandler, rfl, rfl, rfl⟩

/-- Protocols that the loop does not come to keep their slots. -/
theorem mergeProtocols_slot_other {p : Protocol} (hp : p ∉ ps)
    (h : mergeProtocols ctx prev ps conf = .ok m) : m.conf.slot p = conf.slot p := by
  induction ps generalizing conf with
  | nil =>
    cases h
    rfl
  | cons q ps ih =>
    obtain ⟨hne, hp⟩ := not_or.mp (mt List.mem_cons.mpr hp)
    have hslot : ∀ c, (conf.setSlot q c).slot p = conf.slot p := by
      intro c
      exact Function.update_of_ne hne c conf.slot
    unfold mergeProtocols at h
    simp only at h
    split at h
    · rw [(protocolAttach_slot h).1, hslot]
    · rw [ih hp h, hslot]

/-- Where the protocols before it are not enabled, the loop merges the slot of `f`,
and attaches there if that is enabled. -/
theorem mergeProtocols_first (hnodup : (qs ++ f :: ps).Nodup)
    (hoff : ∀ q ∈ qs, (mergeConf (conf.slot q) (prev.slot q)).enable = some false)
    (h : mergeProtocols ctx prev (qs ++ f :: ps) conf = .ok m) :
    (∀ q ∈ f :: qs, m.conf.slot q = mergeConf (conf.slot q) (prev.slot q)) ∧
      ((mergeConf (conf.slot f) (prev.slot f)).enable = some true →
        ∃ conf', conf'.protocol = conf.protocol ∧
          conf'.slot f = mergeConf (conf.slot f) (prev.slot f) ∧
          protocolAttach ctx conf' f prev.originalHandler = .ok m) := by
  have hf : f ∉ qs := fun hf =>
    (List.nodup_append.mp hnodup).2.2 f hf f List.mem_cons_self rfl
  have hps : ∀ q ∈ f :: qs, q ∉ ps := by
    intro q hq hqp
    rcases List.mem_cons.mp hq with rfl | hq
    · exact (List.nodup_cons.mp (List.nodup_append.mp hnodup).2.1).1 hqp
    · exact (List.nodup_append.mp hnodup).2.2 q hq q (List.mem_cons_of_mem f hqp) rfl
  rw [mergeProtocols_append hnodup hoff] at h
  have hself : (mergedSlots prev conf qs).slot f = conf.slot f := if_neg hf
  -- the configuration when the slot of `f` is merged
  generalize hc : (mergedSlots prev conf qs).setSlot f (mergeConf (conf.slot f) (prev.slot f)) = conf'
  have hslot : ∀ q ∈ f :: qs, conf'.slot q = mergeConf (conf.slot q) (prev.slot q) := by
    intro q hq
    rw [← hc]
    rcases List.mem_cons.mp hq with rfl | hq
    · exact Function.update_self _ _ _
    · have hne : q ≠ f := fun h0 => hf (h0 ▸ hq)
      exact (Function.update_of_ne hne _ _).trans (if_pos hq)
  unfold mergeProtocols at h
  simp only [hself, hc] at h
  have hown := hslot f List.mem_cons_self
  split at h
  · refine ⟨fun q hq => ?_, fun _ => ⟨conf', by rw [← hc]; rfl, hown, h⟩⟩
    rw [(protocolAttach_slot h).1, hslot q hq]
  · next hoff' =>
    refine ⟨fun q hq => ?_, fun hon => ?_⟩
    · rw [mergeProtocols_slot_other (hps q hq) h, hslot q hq]
    · rw [hown, hon] at hoff'
      exact absurd (by decide) hoff'

/-! ## The location at the end of a chain -/

/-- The protocols that the loop comes to before `p`. -/
def earlier (p : Protocol) : List Protocol := protocols.takeWhile fun q => q != p

theorem protocols_eq (p : Protocol) : ∃ ps, protocols = earlier p ++ p :: ps := by
  cases p with
  | fastcgi => exact ⟨[.proxy, .scgi, .uwsgi], rfl⟩
  | proxy => exact ⟨[.scgi, .uwsgi], rfl⟩
  | scgi => exact ⟨[.uwsgi], rfl⟩
  | uwsgi => exact ⟨[], rfl⟩

theorem mergeValues_slot {conf' : LocConf} (h : mergeValues ctx prev conf = some conf') :
    conf'.slot = conf.slot ∧ conf'.protocol = conf.protocol := by
  unfold mergeValues at h
  simp only at h
  split at h
  · exact nomatch h
  · cases h
    exact ⟨rfl, rfl⟩

/-- One merge, where the protocols before `f` are set nowhere: the slot of `f` takes
what reaches it, and if that is a directive, the location is attached to `f`. -/
theorem mergeLocConf_first {reached : Option PurgeDirective} (hprot : protocols = qs ++ f :: ps)
    (hno : ∀ q ∈ qs, ctx.directives.purge q = none) (hprev : ∀ q ∈ qs, Carries (prev.slot q) none)
    (hf : Carries (prev.slot f) reached) (h : mergeLocConf ctx prev = .ok m) :
    (∀ q ∈ qs, Carries (m.conf.slot q) none) ∧
      Carries (m.conf.slot f) ((ctx.directives.purge f).or reached) ∧
      ∀ d, (ctx.directives.purge f).or reached = some d → ∃ conf' : LocConf,
        conf'.protocol = none ∧ Carries (conf'.slot f) (some d) ∧
          protocolAttach ctx conf' f prev.originalHandler = .ok m := by
  unfold mergeLocConf at h
  cases hv : mergeValues ctx prev ctx.directives.locConf with
  | none =>
    rw [hv] at h
    exact nomatch h
  | some conf =>
    rw [hv, hprot] at h
    obtain ⟨hslot, hproto⟩ := mergeValues_slot hv
    have hmerged : ∀ q reached, Carries (prev.slot q) reached →
        Carries (mergeConf (conf.slot q) (prev.slot q)) ((ctx.directives.purge q).or reached) ∧
          (mergeConf (conf.slot q) (prev.slot q)).enable =
            some ((ctx.directives.purge q).or reached).isSome := by
      intro q reached hq
      rw [hslot]
      exact mergeConf_carries ctx.directives hq
    have hoff : ∀ q ∈ qs, Carries (mergeConf (conf.slot q) (prev.slot q)) none ∧
        (mergeConf (conf.slot q) (prev.slot q)).enable = some false := by
      intro q hq
      have hq' := hmerged q none (hprev q hq)
      rw [hno q hq] at hq'
      exact hq'
    have hnodup : (qs ++ f :: ps).Nodup := by
      rw [← hprot]
      decide
    obtain ⟨hslots, hattach⟩ := mergeProtocols_first hnodup (fun q hq => (hoff q hq).2) h
    obtain ⟨hcarries, henable⟩ := hmerged f reached hf
    refine ⟨fun q hq => ?_, ?_, fun d hd => ?_⟩
    · rw [hslots q (List.mem_cons_of_mem f hq)]
      exact (hoff q hq).1
    · rw [hslots f List.mem_cons_self]
      exact hcarries
    · rw [hd] at hcarries henable
      obtain ⟨conf', hp, hs, ha⟩ := hattach henable
      refine ⟨conf', hp.trans hproto, ?_, ha⟩
      rw [hs]
      exact hcarries

/-- Down a chain of levels that set none of the protocols before `f`, the slot of
`f` takes the nearest directive. -/
theorem mergeChain_first {outer : List Context} {loc : Context} {reached : Option PurgeDirective}
    (hprot : protocols = qs ++ f :: ps)
    (hno : ∀ ctx ∈ outer, ∀ q ∈ qs, ctx.directives.purge q = none)
    (hprev : ∀ q ∈ qs, Carries (prev.slot q) none) (hf : Carries (prev.slot f) reached)
    (h : mergeChain prev outer loc = .ok m) :
    ∃ around : LocConf, (∀ q ∈ qs, Carries (around.slot q) none) ∧
      Carries (around.slot f) (nearest f reached (outer.map Context.directives)) ∧
      mergeLocConf loc around = .ok m := by
  induction outer generalizing prev reached with
  | nil => exact ⟨prev, hprev, hf, h⟩
  | cons ctx outer ih =>
    unfold mergeChain at h
    cases hm : mergeLocConf ctx prev with
    | error e =>
      rw [hm] at h
      exact nomatch h
    | ok m1 =>
      rw [hm] at h
      obtain ⟨hprev1, hf1, -⟩ :=
        mergeLocConf_first hprot (hno ctx List.mem_cons_self) hprev hf hm
      exact ih (fun c hc => hno c (List.mem_cons_of_mem ctx hc)) hprev1 hf1 h

/-- The location has the purge handler of the protocol, with the values of the
directive. -/
def AttachedWith (m : Merged) (p : Protocol) (d : PurgeDirective) : Prop :=
  m.handler = some .access ∧ m.conf.handler = some .protocol ∧ m.conf.protocol = some p ∧
    ∃ c, m.conf.conf = some c ∧ c.enableValues = some d.conditions ∧ c.soft = d.soft ∧
      c.purgeAll = d.purgeAll

/-- All levels of a location, from the outside in. -/
def levelsOf (http : Directives) (outer : List Context) (loc : Context) : List Directives :=
  http :: (outer.map Context.directives ++ [loc.directives])

/-- What `f` ends with, where no level sets a protocol before it. -/
theorem attach_first {http : Directives} {outer : List Context} {loc : Context}
    (hprot : protocols = qs ++ f :: ps)
    (hno : ∀ level ∈ levelsOf http outer loc, ∀ q ∈ qs, level.purge q = none)
    (hset : nearest f none (levelsOf http outer loc) = some d)
    (h : mergeChain http.locConf outer loc = .ok m) :
    ∃ (conf : LocConf) (original : Option ContentHandler), conf.protocol = none ∧
      Carries (conf.slot f) (some d) ∧ protocolAttach loc conf f original = .ok m := by
  have hno' : ∀ ctx ∈ outer, ∀ q ∈ qs, ctx.directives.purge q = none := by
    intro ctx hc
    refine hno ctx.directives (List.mem_cons_of_mem _ (List.mem_append_left _ ?_))
    exact List.mem_map_of_mem hc
  have hhttp : ∀ q ∈ qs, Carries (http.locConf.slot q) none := by
    intro q hq
    have hc := locConf_carries http q
    rw [hno http List.mem_cons_self q hq] at hc
    exact hc
  obtain ⟨around, hprev, hf, hm⟩ :=
    mergeChain_first hprot hno' hhttp (locConf_carries http f) h
  have hloc : ∀ q ∈ qs, loc.directives.purge q = none :=
    hno loc.directives (List.mem_cons_of_mem _ (List.mem_append_right _ (List.mem_singleton_self _)))
  have hset' : (loc.directives.purge f).or (nearest f (http.purge f) (outer.map Context.directives)) =
      some d := by
    rw [← hset]
    unfold levelsOf
    rw [nearest, nearest_append, Option.or_none]
    rfl
  obtain ⟨-, -, hattach⟩ := mergeLocConf_first hprot hloc hprev hf hm
  obtain ⟨conf, hp, hc, ha⟩ := hattach d hset'
  exact ⟨conf, _, hp, hc, ha⟩

/-- A location that passes to the upstream of a protocol, with its zone and key set,
and that a directive of the protocol reaches, ends with the handler of the protocol
and the values of the nearest directive exactly when no level sets the directive
of a protocol that the loop comes to before it. -/
theorem purge_inherited_iff (http : Directives) (outer : List Context) (loc : Context)
    (p : Protocol) (d : PurgeDirective) (m : Merged)
    (hpass : (loc.upstream p).hasPass = true) (hcache : (loc.upstream p).hasCache = true)
    (hkey : (loc.upstream p).hasCacheKey = true)
    (hset : nearest p none (levelsOf http outer loc) = some d)
    (hok : mergeChain http.locConf outer loc = .ok m) :
    AttachedWith m p d ↔
      ∀ level ∈ levelsOf http outer loc, ∀ q ∈ earlier p, level.purge q = none := by
  obtain ⟨ps, hprot⟩ := protocols_eq p
  constructor
  · intro hattached
    by_contra hsome
    -- the first protocol that is set anywhere
    cases hfind : (earlier p).find? fun q =>
        (levelsOf http outer loc).any fun level => (level.purge q).isSome with
    | none =>
      refine hsome fun level hl q hq => ?_
      have hq' := List.find?_eq_none.mp hfind q hq
      simpa using fun h => hq' (List.any_eq_true.mpr ⟨level, hl, h⟩)
    | some f =>
      obtain ⟨hset', qs, qs', hsplit, hqs⟩ := List.find?_eq_some_iff_append.mp hfind
      have hprot' : protocols = qs ++ f :: (qs' ++ p :: ps) := by
        rw [hprot, hsplit, List.append_assoc, List.cons_append]
      have hno : ∀ level ∈ levelsOf http outer loc, ∀ q ∈ qs, level.purge q = none := by
        intro level hl q hq
        have hq' := hqs q hq
        rw [Bool.not_eq_true', List.any_eq_false] at hq'
        simpa using hq' level hl
      have hreached : (nearest f none (levelsOf http outer loc)).isSome = true :=
        nearest_isSome (Or.inr (List.any_eq_true.mp hset'))
      obtain ⟨d', hd'⟩ := Option.isSome_iff_exists.mp hreached
      obtain ⟨conf, original, hp, -, ha⟩ := attach_first hprot' hno hd' hok
      have hne : f ≠ p := by
        have hnodup : protocols.Nodup := by decide
        rw [hprot'] at hnodup
        rintro rfl
        have h1 := (List.nodup_cons.mp (List.nodup_append.mp hnodup).2.1).1
        exact h1 (List.mem_append_right _ List.mem_cons_self)
      rcases (protocolAttach_slot ha).2 with h | h
      · rw [hp, hattached.2.2.1] at h
        exact nomatch h
      · rw [hattached.2.2.1] at h
        exact hne (Option.some.inj h).symm
  · intro hno
    obtain ⟨conf, original, -, hcarries, ha⟩ := attach_first hprot hno hset hok
    obtain ⟨h1, h2, h3, h4⟩ := protocolAttach_pass hpass hcache hkey ha
    exact ⟨h1, h2, h3, _, h4, hcarries.2⟩

/-- A level that sets the directives of these protocols, for every request. -/
def sampleLevel (ps : List Protocol) (soft : Bool) : Directives where
  purge p := if p ∈ ps then some ⟨[[49]], soft, false⟩ else none
  resptype := none
  cacheIndex := none
  cacheTagHeaders := none
  purgeModeHeader := none

/-- A location without directives of its own that passes to `proxy`, with a zone and
a key. -/
def proxyLocation : Context where
  directives := sampleLevel [] false
  upstream p := if p = .proxy then ⟨true, true, true, some 0⟩ else ⟨false, false, false, none⟩
  named := true
  handler := some (.other 0)
  main := ⟨true, []⟩
  pool := true

def sampleServer : Context where
  directives := sampleLevel [.proxy] true
  upstream _ := ⟨false, false, false, none⟩
  named := false
  handler := none
  main := ⟨true, []⟩
  pool := true

theorem purge_inherited_iff_sample :
    ∃ m, mergeChain (sampleLevel [.proxy] false).locConf [sampleServer] proxyLocation = .ok m ∧
      (AttachedWith m .proxy ⟨[[49]], true, false⟩ ↔
        ∀ level ∈ levelsOf (sampleLevel [.proxy] false) [sampleServer] proxyLocation,
          ∀ q ∈ earlier .proxy, level.purge q = none) :=
  ⟨_, rfl, purge_inherited_iff (sampleLevel [.proxy] false) [sampleServer] proxyLocation .proxy
    ⟨[[49]], true, false⟩ _ rfl rfl rfl rfl rfl⟩

/-- Two directives around a location that passes to `proxy`: the loop stops at
`fastcgi`, which the location does not use, and PURGE goes to the upstream. -/
theorem earlier_protocol_hides_purge :
    nearest .proxy none
        (levelsOf (sampleLevel [.fastcgi, .proxy] false) [] proxyLocation) =
      some ⟨[[49]], false, false⟩ ∧
    ∃ m, mergeChain (sampleLevel [.fastcgi, .proxy] false).locConf [] proxyLocation = .ok m ∧
      m.handler = some (.other 0) ∧ ¬ AttachedWith m .proxy ⟨[[49]], false, false⟩ := by
  refine ⟨rfl, _, rfl, rfl, fun h => ?_⟩
  exact absurd h.1 (by decide)

end CachePilot
