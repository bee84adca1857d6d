import CachePilot.Conf.StatZones
import CachePilot.Live.Runtime
import CachePilot.Purge.Declined

/-!
# From the request to its cache

The head of `ngx_http_cache_pilot_protocol_handler`: it asks `cache_get` for the cache of the
location, which is given by a zone or by a variable, and `init` for the key of the request. A
variable can name any cache of its protocol, while only locations with a zone register theirs.

Results:
* `request_cache_iff`: which cache a request purges, and how it ends without one;
* `unregistered_cache_refused`: whose tag purges are refused for their zone.
-/

namespace CachePilot
open NgxString Print SearchTree

/-! ## The head of the handler -/

/-- The cache of a location: its `cache_zone`, and what its `cache_value` evaluates to, with
`none` where that fails. -/
structure CacheConf where
  zone : Option NamedCache
  value : Option Bytes

/-- `ngx_http_cache_pilot_cache_get`; `caches` are those of the protocol. -/
def cacheGet (conf : CacheConf) (caches : List NamedCache) : Except NgxRc NamedCache :=
  match conf.zone with
  | some cache => .ok cache
  | none =>
    match conf.value with
    | none => .error .error
    | some val =>
      if val.length == 0 || (val.length == 3 && ngxStrncmp val (ascii "off") 3 == 0) then .error .declined
      else
        match caches.find? fun c => c.name.length == val.length && ngxStrncmp c.name val val.length == 0 with
        | some cache => .ok cache
        | none => .error .error

/-- What `init` gets: whether the body can be discarded, whether the pool holds the cache and its
keys, and what the key of the location evaluates to. -/
structure KeyConf where
  discarded : Bool
  alloc : Bool
  key : Option Bytes

/-- `ngx_http_cache_pilot_init`, with the keys that it leaves. -/
def pilotInit (conf : KeyConf) : Option (List Bytes) :=
  if !conf.discarded then none
  else if !conf.alloc then none
  else conf.key.map fun key => [key]

/-- What the head comes to: it returns a code of `cache_get` or a 500, or the purge runs. -/
inductive Entered
  | returned (rc : NgxRc)
  | internalServerError
  | purges (cache : NamedCache) (f : Finished)

/-- `ngx_http_cache_pilot_protocol_handler` with its head; `upstream` is whether
`ngx_http_upstream_create` works. The request reaches the index by its cache. -/
def enterProtocolHandler (N : Nginx) (L : HeaderLayout) (caches : Protocol → List NamedCache)
    (access : NamedCache → IndexAccess) (upstream : Bool) (conf : CacheConf) (init : KeyConf)
    (call : PurgeCall) (s : Pilot) : Entered :=
  match call.conf.protocol with
  | none => .internalServerError
  | some p =>
    if !upstream then .internalServerError
    else
      match cacheGet conf (caches p) with
      | .error rc => .returned rc
      | .ok cache =>
        match pilotInit init with
        | none => .internalServerError
        | some keys => .purges cache (protocolHandler N L (access cache) { call with keys := keys } s)

/-! ## The cache of a request -/

/-- A value names a zone; neither is read behind a NUL. -/
def NamesCache (value name : Bytes) : Prop := name.length = value.length ∧ cstr name = cstr value

/-- The values of a variable that give no cache. The other spellings of `off` are names. -/
def NoCache (value : Bytes) : Prop := value = [] ∨ value = ascii "off"

/-- The cache of a location: that of its zone, or else the first one that its variable names. -/
def CacheConf.Gives (conf : CacheConf) (caches : List NamedCache) (c : NamedCache) : Prop :=
  conf.zone = some c ∨ conf.zone = none ∧ ∃ (value : Bytes) (front back : List NamedCache),
    conf.value = some value ∧ ¬ NoCache value ∧ caches = front ++ c :: back ∧ NamesCache value c.name ∧
      ∀ c' ∈ front, ¬ NamesCache value c'.name

/-- The variable of a location says that there is no cache. -/
def CacheConf.Off (conf : CacheConf) : Prop :=
  conf.zone = none ∧ ∃ value, conf.value = some value ∧ NoCache value

/-- It cannot be evaluated, or there is no cache of this name. -/
def CacheConf.Lost (conf : CacheConf) (caches : List NamedCache) : Prop :=
  conf.zone = none ∧ ∀ value, conf.value = some value →
    ¬ NoCache value ∧ ∀ c ∈ caches, ¬ NamesCache value c.name

/-- The request can be given a key. -/
structure KeyConf.Works (init : KeyConf) (key : Bytes) : Prop where
  discarded : init.discarded = true
  alloc : init.alloc = true
  key : init.key = some key

variable {N : Nginx} {L : HeaderLayout} {conf : CacheConf} {caches : List NamedCache} {c : NamedCache}
  {value : Bytes} {call : PurgeCall} {s : Pilot} {access : IndexAccess}

theorem namesCache_iff (c : NamedCache) : (c.name.length == value.length &&
    ngxStrncmp c.name value value.length == 0) = true ↔ NamesCache value c.name := by
  rw [Bool.and_eq_true, beq_iff_eq, beq_iff_eq]
  refine and_congr_right fun hlen => ?_
  rw [ngxStrncmp_eq_zero (Nat.le_of_eq hlen.symm) (Nat.le_refl _), List.take_length,
    List.take_of_length_le (Nat.le_of_eq hlen)]

theorem noCache_iff : (value.length == 0 || (value.length == 3 && ngxStrncmp value (ascii "off") 3 == 0)) = true ↔
    NoCache value := by
  have hoff : (0 : UInt8) ∉ ascii "off" := by decide +kernel
  have hthree : (ascii "off").length = 3 := by decide +kernel
  rw [Bool.or_eq_true, beq_iff_eq, List.length_eq_zero_iff, Bool.and_eq_true, beq_iff_eq, beq_iff_eq]
  refine or_congr_right ⟨fun ⟨hlen, hcmp⟩ => ?_, fun hvalue => ?_⟩
  · have hpre : ascii "off" <+: cstr value := by
      rw [prefix_cstr_iff hoff, hthree]
      exact ⟨Nat.le_of_eq hlen.symm, hcmp⟩
    have hpre' : ascii "off" <+: value := hpre.trans (List.takeWhile_prefix _)
    exact (hpre'.eq_of_length (hthree.trans hlen.symm)).symm
  · subst hvalue
    exact ⟨hthree, by decide +kernel⟩

theorem cacheGet_ok_iff : cacheGet conf caches = .ok c ↔ conf.Gives caches c := by
  unfold cacheGet CacheConf.Gives
  cases conf.zone with
  | some cache =>
    refine ⟨fun h => Or.inl (congrArg some (Except.ok.inj h)), fun h => ?_⟩
    rcases h with heq | ⟨hnone, -⟩
    · rw [Option.some.inj heq]
    · cases hnone
  | none =>
    rw [or_iff_right (by rintro ⟨⟩), and_iff_right rfl]
    cases conf.value with
    | none =>
      refine iff_of_false (by rintro ⟨⟩) ?_
      rintro ⟨value, front, back, hvalue, -⟩
      cases hvalue
    | some value =>
      simp only
      split
      · next hno =>
        refine iff_of_false (by rintro ⟨⟩) ?_
        rintro ⟨value', front, back, hvalue, hcache, -⟩
        obtain rfl := Option.some.inj hvalue
        exact hcache (noCache_iff.mp hno)
      · next hno =>
        have hcache : ¬ NoCache value := mt noCache_iff.mpr hno
        have hfind : ∀ c, (caches.find? fun c => c.name.length == value.length &&
              ngxStrncmp c.name value value.length == 0) = some c ↔ NamesCache value c.name ∧
            ∃ front back, caches = front ++ c :: back ∧ ∀ c' ∈ front, ¬ NamesCache value c'.name := by
          intro c
          rw [List.find?_eq_some_iff_append, namesCache_iff]
          simp only [Bool.not_eq_true', ← Bool.not_eq_true, namesCache_iff]
        split
        · next cache hcaches =>
          obtain ⟨hname, front, back, hsplit, hfront⟩ := (hfind cache).mp hcaches
          constructor
          · intro h
            obtain rfl := Except.ok.inj h
            exact ⟨value, front, back, rfl, hcache, hsplit, hname, hfront⟩
          · rintro ⟨value', front', back', hvalue, -, hsplit', hname', hfront'⟩
            obtain rfl := Option.some.inj hvalue
            have hfound := (hfind c).mpr ⟨hname', front', back', hsplit', hfront'⟩
            rw [Option.some.inj (hcaches.symm.trans hfound)]
        · next hcaches =>
          refine iff_of_false (by rintro ⟨⟩) ?_
          rintro ⟨value', front, back, hvalue, -, hsplit, hname, hfront⟩
          obtain rfl := Option.some.inj hvalue
          have hfound := (hfind c).mpr ⟨hname, front, back, hsplit, hfront⟩
          cases hcaches.symm.trans hfound

theorem cacheGet_off (h : conf.Off) : cacheGet conf caches = .error .declined := by
  obtain ⟨hzone, value, hvalue, hno⟩ := h
  unfold cacheGet
  rw [hzone, hvalue]
  exact if_pos (noCache_iff.mpr hno)

theorem cacheGet_lost (h : conf.Lost caches) : cacheGet conf caches = .error .error := by
  obtain ⟨hzone, hnames⟩ := h
  unfold cacheGet
  rw [hzone]
  cases hvalue : conf.value with
  | none => rfl
  | some value =>
    obtain ⟨hno, hnone⟩ := hnames value hvalue
    have hfind : (caches.find? fun c => c.name.length == value.length &&
        ngxStrncmp c.name value value.length == 0) = none :=
      List.find?_eq_none.mpr fun c hc => mt (namesCache_iff c).mp (hnone c hc)
    simp only
    rw [if_neg (mt noCache_iff.mp hno), hfind]

/-- There is no other way to end without a cache. -/
theorem cacheGet_error {rc : NgxRc} (h : cacheGet conf caches = .error rc) :
    rc = .declined ∧ conf.Off ∨ rc = .error ∧ conf.Lost caches := by
  unfold cacheGet at h
  split at h
  · cases h
  · next hzone =>
    split at h
    · next hvalue =>
      refine Or.inr ⟨(Except.error.inj h).symm, hzone, fun value hsome => ?_⟩
      cases hvalue.symm.trans hsome
    · next value hvalue =>
      split at h
      · next hno => exact Or.inl ⟨(Except.error.inj h).symm, hzone, value, hvalue, noCache_iff.mp hno⟩
      · next hno =>
        split at h
        · cases h
        · next hfind =>
          refine Or.inr ⟨(Except.error.inj h).symm, hzone, fun value' hsome => ?_⟩
          obtain rfl := Option.some.inj (hvalue.symm.trans hsome)
          refine ⟨mt noCache_iff.mpr hno, fun c hc hname => ?_⟩
          exact List.find?_eq_none.mp hfind c hc ((namesCache_iff c).mpr hname)

theorem pilotInit_eq_some {init : KeyConf} {keys : List Bytes} : pilotInit init = some keys ↔
    ∃ key, init.Works key ∧ keys = [key] := by
  unfold pilotInit
  cases hdiscarded : init.discarded with
  | false =>
    refine iff_of_false (by rintro ⟨⟩) ?_
    rintro ⟨key, hworks, -⟩
    cases hdiscarded.symm.trans hworks.discarded
  | true =>
    cases halloc : init.alloc with
    | false =>
      refine iff_of_false (by rintro ⟨⟩) ?_
      rintro ⟨key, hworks, -⟩
      cases halloc.symm.trans hworks.alloc
    | true =>
      simp only [Bool.not_true, Bool.false_eq_true, if_false, Option.map_eq_some_iff]
      constructor
      · rintro ⟨key, hkey, rfl⟩
        exact ⟨key, ⟨hdiscarded, halloc, hkey⟩, rfl⟩
      · rintro ⟨key, hworks, rfl⟩
        exact ⟨key, hworks.key, rfl⟩

section
variable {access : NamedCache → IndexAccess} {allCaches : Protocol → List NamedCache} {init : KeyConf}
  {upstream : Bool} {p : Protocol} {rc : NgxRc}

/-- The head where the location has a cache. -/
theorem enterProtocolHandler_gives (hp : call.conf.protocol = some p) (hup : upstream = true)
    (hc : conf.Gives (allCaches p) c) :
    enterProtocolHandler N L allCaches access upstream conf init call s =
      match pilotInit init with
      | none => .internalServerError
      | some keys => .purges c (protocolHandler N L (access c) { call with keys := keys } s) := by
  unfold enterProtocolHandler
  rw [hp, hup]
  simp only [Bool.not_true, Bool.false_eq_true, if_false]
  rw [cacheGet_ok_iff.mpr hc]

/-- Where it has none. -/
theorem enterProtocolHandler_error (hp : call.conf.protocol = some p) (hup : upstream = true)
    (hrc : cacheGet conf (allCaches p) = .error rc) :
    enterProtocolHandler N L allCaches access upstream conf init call s = .returned rc := by
  unfold enterProtocolHandler
  rw [hp, hup]
  simp only [Bool.not_true, Bool.false_eq_true, if_false]
  rw [hrc]

/-- The ways that a request can take through the head. -/
inductive EntersBy (N : Nginx) (L : HeaderLayout) (allCaches : Protocol → List NamedCache)
    (access : NamedCache → IndexAccess) (upstream : Bool) (conf : CacheConf) (init : KeyConf)
    (call : PurgeCall) (s : Pilot) : Entered → Prop
  | unready (h : call.conf.protocol = none ∨ upstream = false) :
    EntersBy N L allCaches access upstream conf init call s .internalServerError
  | off {p : Protocol} (hp : call.conf.protocol = some p) (hup : upstream = true) (h : conf.Off) :
    EntersBy N L allCaches access upstream conf init call s (.returned .declined)
  | lost {p : Protocol} (hp : call.conf.protocol = some p) (hup : upstream = true)
    (h : conf.Lost (allCaches p)) : EntersBy N L allCaches access upstream conf init call s (.returned .error)
  | keyless {p : Protocol} {c : NamedCache} (hp : call.conf.protocol = some p) (hup : upstream = true)
    (h : conf.Gives (allCaches p) c) (hinit : ∀ key, ¬ init.Works key) :
    EntersBy N L allCaches access upstream conf init call s .internalServerError
  | purges {p : Protocol} {c : NamedCache} {key : Bytes} (hp : call.conf.protocol = some p)
    (hup : upstream = true) (h : conf.Gives (allCaches p) c) (hinit : init.Works key) :
    EntersBy N L allCaches access upstream conf init call s
      (.purges c (protocolHandler N L (access c) { call with keys := [key] } s))

theorem enterProtocolHandler_cases (N : Nginx) (L : HeaderLayout) (allCaches : Protocol → List NamedCache)
    (access : NamedCache → IndexAccess) (upstream : Bool) (conf : CacheConf) (init : KeyConf)
    (call : PurgeCall) (s : Pilot) : EntersBy N L allCaches access upstream conf init call s
      (enterProtocolHandler N L allCaches access upstream conf init call s) := by
  unfold enterProtocolHandler
  cases hp : call.conf.protocol with
  | none => exact .unready (Or.inl hp)
  | some p =>
    cases upstream with
    | false => exact .unready (Or.inr rfl)
    | true =>
      simp only [Bool.not_true, Bool.false_eq_true, if_false]
      cases hcache : cacheGet conf (allCaches p) with
      | error rc =>
        rcases cacheGet_error hcache with ⟨rfl, hoff⟩ | ⟨rfl, hlost⟩
        · exact .off hp rfl hoff
        · exact .lost hp rfl hlost
      | ok c =>
        have hgives : conf.Gives (allCaches p) c := cacheGet_ok_iff.mp hcache
        simp only
        cases hinit : pilotInit init with
        | none =>
          refine .keyless hp rfl hgives fun key hworks => ?_
          cases hinit.symm.trans (pilotInit_eq_some.mpr ⟨key, hworks, rfl⟩)
        | some keys =>
          obtain ⟨key, hworks, rfl⟩ := pilotInit_eq_some.mp hinit
          exact .purges hp rfl hgives hworks

/-- A request takes one of them only. -/
theorem EntersBy.eq {e : Entered}
    (h : EntersBy N L allCaches access upstream conf init call s e) :
    enterProtocolHandler N L allCaches access upstream conf init call s = e := by
  cases h with
  | unready h =>
    unfold enterProtocolHandler
    rcases h with hnone | rfl
    · rw [hnone]
    · cases call.conf.protocol with
      | none => rfl
      | some p => rfl
  | off hp hup h => exact enterProtocolHandler_error hp hup (cacheGet_off h)
  | lost hp hup h => exact enterProtocolHandler_error hp hup (cacheGet_lost h)
  | keyless hp hup h hinit =>
    have hnone : pilotInit init = none := by
      cases hsome : pilotInit init with
      | none => rfl
      | some keys =>
        obtain ⟨key, hworks, -⟩ := pilotInit_eq_some.mp hsome
        exact absurd hworks (hinit key)
    rw [enterProtocolHandler_gives hp hup h, hnone]
  | purges hp hup h hinit =>
    rw [enterProtocolHandler_gives hp hup h, pilotInit_eq_some.mpr ⟨_, hinit, rfl⟩]

end

/-- A request purges the cache of its location's zone, or else the first cache of its protocol
that the variable of the location names, if nothing fails on the way. It is declined exactly
if the variable is empty or says `off`, and nginx gets an error exactly if the variable fails
or names no cache; a 500 comes from what stands before and behind the choice of the cache.
It does not matter how a location has come to its cache. -/
theorem request_cache_iff (N : Nginx) (L : HeaderLayout) (caches : Protocol → List NamedCache)
    (access : NamedCache → IndexAccess) (upstream : Bool) (conf : CacheConf) (init : KeyConf)
    (call : PurgeCall) (s : Pilot) (c : NamedCache) (f : Finished) :
    let e := enterProtocolHandler N L caches access upstream conf init call s
    (e = .purges c f ↔ upstream = true ∧ ∃ p key, call.conf.protocol = some p ∧
      conf.Gives (caches p) c ∧ init.Works key ∧
        f = protocolHandler N L (access c) { call with keys := [key] } s) ∧
    (e = .returned .declined ↔ call.conf.protocol.isSome = true ∧ upstream = true ∧ conf.Off) ∧
    (e = .returned .error ↔ upstream = true ∧ ∃ p, call.conf.protocol = some p ∧ conf.Lost (caches p)) ∧
    (e = .internalServerError ↔ call.conf.protocol = none ∨ upstream = false ∨ ∃ p c,
      call.conf.protocol = some p ∧ conf.Gives (caches p) c ∧ ∀ key, ¬ init.Works key) ∧
    (∀ p, call.conf.protocol = some p → conf.Gives (caches p) c →
      e = enterProtocolHandler N L caches access upstream ⟨some c, conf.value⟩ init call s) := by
  intro e
  have henters : EntersBy N L caches access upstream conf init call s e :=
    enterProtocolHandler_cases N L caches access upstream conf init call s
  refine ⟨⟨fun h => ?_, ?_⟩, ⟨fun h => ?_, ?_⟩, ⟨fun h => ?_, ?_⟩, ⟨fun h => ?_, ?_⟩, fun p hp hgives => ?_⟩
  · rw [h] at henters
    cases henters with
    | @purges p c key hp hup hgives hworks => exact ⟨hup, p, key, hp, hgives, hworks, rfl⟩
  · rintro ⟨hup, p, key, hp, hgives, hworks, rfl⟩
    exact (EntersBy.purges hp hup hgives hworks).eq
  · rw [h] at henters
    cases henters with
    | off hp hup hoff => exact ⟨hp ▸ rfl, hup, hoff⟩
  · rintro ⟨hprotocol, hup, hoff⟩
    obtain ⟨p, hp⟩ := Option.isSome_iff_exists.mp hprotocol
    exact (EntersBy.off hp hup hoff).eq
  · rw [h] at henters
    cases henters with
    | @lost p hp hup hlost => exact ⟨hup, p, hp, hlost⟩
  · rintro ⟨hup, p, hp, hlost⟩
    exact (EntersBy.lost hp hup hlost).eq
  · rw [h] at henters
    cases henters with
    | unready hunready => exact hunready.imp_right Or.inl
    | @keyless p c hp hup hgives hkeyless => exact Or.inr (Or.inr ⟨p, c, hp, hgives, hkeyless⟩)
  · intro hfailed
    cases hup : upstream with
    | false => exact (EntersBy.unready (Or.inr hup)).eq
    | true =>
      rcases hfailed with hnone | hdown | ⟨p, c, hp, hgives, hkeyless⟩
      · exact (EntersBy.unready (Or.inl hnone)).eq
      · exact (EntersBy.unready (Or.inr hdown)).eq
      · exact (EntersBy.keyless hp hup hgives hkeyless).eq
  · have hzone : CacheConf.Gives ⟨some c, conf.value⟩ (caches p) c := Or.inl rfl
    cases hup : upstream with
    | false => exact (EntersBy.unready (Or.inr hup)).eq.trans (EntersBy.unready (Or.inr rfl)).eq.symm
    | true => exact (enterProtocolHandler_gives hp hup hgives).trans (enterProtocolHandler_gives hp rfl hzone).symm

def sampleNamed : List NamedCache := [⟨[98], 4⟩, ⟨[97], 3⟩, ⟨[97], 5⟩]

def sampleEntry (value : Bytes) : Entered :=
  enterProtocolHandler .reference .reference (fun _ => sampleNamed) (fun _ => sampleAccess) true
    ⟨none, some value⟩ ⟨true, true, some [107]⟩
    { sampleCall true with conf := { tagLocation with protocol := some .proxy } } variantState

/-- The first of two caches of one name, and a value that is `off` but for its letters. -/
example : (∃ f, sampleEntry [97] = .purges ⟨[97], 3⟩ f) ∧ sampleEntry (ascii "OFF") = .returned .error :=
  ⟨⟨_, rfl⟩, rfl⟩

/-! ## Caches that no location registers -/

theorem refusal_zone {now : Int} {shm : Shm} (hconf : access.configured = true) :
    access.refusal now shm = some .zoneNotRegistered ↔ access.zone = none := by
  unfold IndexAccess.refusal
  rw [hconf, Bool.not_true, if_neg Bool.false_ne_true]
  cases access.zone with
  | none => exact iff_of_true rfl rfl
  | some zoneName =>
    refine iff_of_false ?_ (by rintro ⟨⟩)
    simp only
    split
    · rintro ⟨⟩
    · split
      · rintro ⟨⟩
      · rintro ⟨⟩

/-- A tag purge that is refused for its zone has no zone. -/
theorem protocolHandler_zone (call : PurgeCall) (hconf : access.configured = true)
    (hctx : call.pool.ctx = true) (hkind : call.kind = .tag) (hreads : call.reads call.tagPool = true) :
    let f := protocolHandler N L access call s
    f.answer = some .preconditionFailed ∧ f.state.declineReason = .zoneNotRegistered ↔ access.zone = none := by
  intro f
  constructor
  · rintro ⟨hanswer, hreason⟩
    obtain ⟨reason, href⟩ := Option.ne_none_iff_exists'.mp (protocolHandler_declined hctx hanswer).2.2
    have hstate : f = ⟨some .preconditionFailed, [.tag], false, s.setDeclineReason call.pool reason⟩ :=
      protocolHandler_refused hctx hkind hreads href
    rw [hstate, declineReason_set_of_ctx hctx] at hreason
    rw [hreason] at href
    exact (refusal_zone hconf).mp href
  · intro hzone
    have hstate : f = ⟨some .preconditionFailed, [.tag], false,
        s.setDeclineReason call.pool .zoneNotRegistered⟩ :=
      protocolHandler_refused hctx hkind hreads ((refusal_zone hconf).mpr hzone)
    rw [hstate]
    exact ⟨rfl, declineReason_set_of_ctx hctx .zoneNotRegistered s⟩

/-- The tree of a worker has no zone for a cache that no location registers. -/
theorem lookupIndexedZone_none {B : Balancing ZoneIndex} {pool : Nat → Bool} {calls : List RegisterCall}
    {main : MainConf} {t : BinaryTree ZoneIndex} (hcalls : registerAll ⟨true, []⟩ calls = .ok main)
    (h : runtimeInitZones B pool main = some t) (cache : Nat) :
    lookupIndexedZone main t cache = none ↔ ∀ r ∈ calls, r.cache ≠ some cache := by
  have hregistered : main.registered cache = firstHeaders calls cache := (registerAll_first hcalls).1 cache
  have hnone : ((⟨true, []⟩ : MainConf).zones.map Prod.fst).Nodup := List.nodup_nil
  have hlookup : lookupIndexedZone main t cache = none ↔ main.registered cache = none := by
    rw [lookupIndexedZone_eq (registerAll_distinct hnone hcalls) h]
    exact Option.map_eq_none_iff.symm
  rw [hlookup, hregistered]
  unfold firstHeaders
  rw [Option.map_eq_none_iff, List.find?_eq_none]
  exact forall_congr' fun r => forall_congr' fun _ => not_congr beq_iff_eq

/-- In a worker that has set up its tree, a tag purge is refused for its zone exactly if no
location registers the cache that it is for: to name a cache by a variable does not register it. -/
theorem unregistered_cache_refused (N : Nginx) (L : HeaderLayout) (B : Balancing ZoneIndex)
    (pool : Nat → Bool) (calls : List RegisterCall) (main : MainConf) (t : BinaryTree ZoneIndex)
    (hcalls : registerAll ⟨true, []⟩ calls = .ok main) (htree : runtimeInitZones B pool main = some t)
    (rt : StoreRuntime) (opened : Option Nat) (caches : Protocol → List NamedCache) (upstream : Bool)
    (conf : CacheConf) (init : KeyConf) (call : PurgeCall) (s : Pilot) (c : NamedCache) (f : Finished)
    (henabled : locationEnabled call.conf = true) (htokens : call.tokens ≠ [])
    (hreads : call.reads call.tagPool = true) (hctx : call.pool.ctx = true)
    (hpurges : enterProtocolHandler N L caches
      (fun c => rt.access true ((lookupIndexedZone main t c.cache).map fun _ => c.name) opened)
      upstream conf init call s = .purges c f) :
    f.answer = some .preconditionFailed ∧ f.state.declineReason = .zoneNotRegistered ↔
      ∀ r ∈ calls, r.cache ≠ some c.cache := by
  obtain ⟨keys, rfl⟩ : ∃ keys, f = protocolHandler N L
      (rt.access true ((lookupIndexedZone main t c.cache).map fun _ => c.name) opened)
      { call with keys := keys } s := by
    have henters := enterProtocolHandler_cases N L caches
      (fun c => rt.access true ((lookupIndexedZone main t c.cache).map fun _ => c.name) opened)
      upstream conf init call s
    rw [hpurges] at henters
    cases henters with
    | purges _ _ _ _ => exact ⟨_, rfl⟩
  have hkind : PurgeCall.kind { call with keys := keys } = .tag := if_pos ⟨henabled, htokens⟩
  have hreads' : PurgeCall.reads { call with keys := keys } call.tagPool = true := hreads
  rw [← lookupIndexedZone_none hcalls htree]
  exact (protocolHandler_zone { call with keys := keys } rfl hctx hkind hreads').trans
    Option.map_eq_none_iff

/-- The worker of a configuration with one indexed location, and a request that reaches another
cache by a variable. -/
def sampleUnregistered : Entered :=
  enterProtocolHandler .reference .reference (fun _ => sampleNamed)
    (fun c => StoreRuntime.access ⟨some 1, some 1, true⟩ true ((lookupIndexedZone ⟨true, [(4, [])]⟩
      (.node ⟨4, 4, 0⟩ .nil .nil) c.cache).map fun _ => c.name) (some 1))
    true ⟨none, some [97]⟩ ⟨true, true, some [107]⟩
    { sampleCall true with conf := { tagLocation with protocol := some .proxy } } variantState

theorem unregistered_cache_refused_sample : ∃ f : Finished, sampleUnregistered = .purges ⟨[97], 3⟩ f ∧
    f.answer = some .preconditionFailed ∧ f.state.declineReason = .zoneNotRegistered :=
  ⟨_, rfl, (unregistered_cache_refused .reference .reference .plain (fun _ => true) [⟨true, some 4, []⟩]
    ⟨true, [(4, [])]⟩ (.node ⟨4, 4, 0⟩ .nil .nil) rfl rfl ⟨some 1, some 1, true⟩ (some 1)
    (fun _ => sampleNamed) true ⟨none, some [97]⟩ ⟨true, true, some [107]⟩
    { sampleCall true with conf := { tagLocation with protocol := some .proxy } } variantState ⟨[97], 3⟩ _
    rfl (by decide +kernel) rfl rfl rfl).mpr (by decide)⟩

end CachePilot
