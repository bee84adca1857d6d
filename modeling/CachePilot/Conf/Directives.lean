import CachePilot.Conf.Merge
import CachePilot.Lib.Print

/-!
# The directives of a level

The handlers of the directives that `ngx_http_cache_pilot_module_commands` allows at every
level. `ngx_http_cache_pilot_conf` reads the words of a purge directive from the last one:
conditions, and then flags. The configuration that the lines of a level leave is the one
that its merge starts from.

Results:
* `purge_directive_iff`: what the words of a purge directive say;
* `level_configured_iff`: which lines a level can have, and what they leave.
-/

namespace CachePilot
open NgxString Print

/-! ## The words of a purge directive -/

inductive DirectiveError
  | failed
  | duplicate
  | noWords
  | noConditions
  | invalidValue (value : Bytes)
deriving DecidableEq, Repr

/-- The text of the error, where the module has one for it. -/
def DirectiveError.text : DirectiveError → Option String
  | .duplicate => some "is duplicate"
  | .noWords => some "invalid syntax, expected \"string ... [soft] [purge_all]\""
  | .noConditions =>
    some "invalid syntax, expected at least one purge condition before \"soft\" or \"purge_all\""
  | _ => none

inductive PurgeFlag
  | soft
  | purgeAll
deriving DecidableEq, Repr

def PurgeFlag.word : PurgeFlag → Bytes
  | .soft => ascii "soft"
  | .purgeAll => ascii "purge_all"

/-- The loop of `ngx_http_cache_pilot_conf`, over the words from the last one: a word is a flag
as long as others are left and the flag has not been given. -/
def takeFlags : List Bytes → Bool → Bool → List Bytes × Bool × Bool
  | [], soft, purgeAll => ([], soft, purgeAll)
  | word :: words, soft, purgeAll =>
    if !words.isEmpty && !purgeAll && cstr word == PurgeFlag.purgeAll.word then
      takeFlags words soft true
    else if !words.isEmpty && !soft && cstr word == PurgeFlag.soft.word then
      takeFlags words true purgeAll
    else (word :: words, soft, purgeAll)

/-- `ngx_http_cache_pilot_conf`; `compile` tells what `ngx_http_compile_complex_value` accepts,
and `alloc` whether the array can be allocated. -/
def cachePilotConf (compile : Bytes → Bool) (alloc : Bool) (args : List Bytes) (c : PilotConf) :
    Except DirectiveError PilotConf :=
  if args.isEmpty then .error .noWords
  else
    match takeFlags args.reverse c.soft c.purgeAll with
    | (rest, soft, purgeAll) =>
      if rest.isEmpty then .error .noConditions
      else if !alloc then .error .failed
      else if rest.reverse.all compile then
        .ok ⟨some true, some true, some rest.reverse, soft, purgeAll⟩
      else .error .failed

/-- Whether a directive has a flag. -/
def PurgeDirective.has (d : PurgeDirective) : PurgeFlag → Bool
  | .soft => d.soft
  | .purgeAll => d.purgeAll

/-- The words of a directive: its conditions, and then its flags in any order. The last
condition may read as a flag only if it is the first, or if the flag is given behind it. -/
structure PurgeWords (args : List Bytes) (d : PurgeDirective) : Prop where
  conditions : d.conditions ≠ []
  split : ∃ (words : List Bytes) (flags : List PurgeFlag), args = d.conditions ++ words ∧
    words.map cstr = flags.map PurgeFlag.word ∧ flags.Nodup ∧ ∀ f, f ∈ flags ↔ d.has f = true
  last : ∀ (front : List Bytes) (word : Bytes) (f : PurgeFlag), d.conditions = front ++ [word] →
    front ≠ [] → cstr word = f.word → d.has f = true

/-- What the loop makes of the words. -/
def readPurge (args : List Bytes) : PurgeDirective :=
  match takeFlags args.reverse false false with
  | (rest, soft, purgeAll) => ⟨rest.reverse, soft, purgeAll⟩

variable {word : Bytes} {words rest args : List Bytes} {soft purgeAll : Bool} {f : PurgeFlag}
  {flags : List PurgeFlag} {d : PurgeDirective} {compile : Bytes → Bool} {alloc : Bool}

/-- The flags that have been given when the loop comes to a word. -/
def given (soft purgeAll : Bool) : PurgeFlag → Bool
  | .soft => soft
  | .purgeAll => purgeAll

/-- The loop stops at the first of these words. -/
def Stops (rest : List Bytes) (seen : PurgeFlag → Bool) : Prop :=
  ∀ (word : Bytes) (words : List Bytes) (f : PurgeFlag), rest = word :: words → words ≠ [] →
    cstr word = f.word → seen f = true

theorem takeFlags_flag (hword : cstr word = f.word) (hwords : words ≠ [])
    (hnew : given soft purgeAll f = false) :
    takeFlags (word :: words) soft purgeAll =
      takeFlags words (soft || f == .soft) (purgeAll || f == .purgeAll) := by
  have hmore : words.isEmpty = false := by
    cases words with
    | nil => exact absurd rfl hwords
    | cons w ws => rfl
  cases f with
  | soft =>
    obtain rfl : soft = false := hnew
    have hother : (cstr word == PurgeFlag.purgeAll.word) = false := by
      rw [hword]
      decide +kernel
    have hne : (PurgeFlag.soft == PurgeFlag.purgeAll) = false := rfl
    rw [takeFlags, hmore, hother, hword]
    simp [hne]
  | purgeAll =>
    obtain rfl : purgeAll = false := hnew
    have hne : (PurgeFlag.purgeAll == PurgeFlag.soft) = false := rfl
    rw [takeFlags, hmore, hword]
    simp [hne]

theorem takeFlags_stop (h : Stops rest (given soft purgeAll)) :
    takeFlags rest soft purgeAll = (rest, soft, purgeAll) := by
  cases rest with
  | nil => rfl
  | cons word words =>
    unfold takeFlags
    split
    · next hall =>
      simp only [Bool.and_eq_true, Bool.not_eq_true', beq_iff_eq] at hall
      have hseen : purgeAll = true := h word words .purgeAll rfl (by simpa using hall.1.1) hall.2
      rw [hseen] at hall
      exact nomatch hall.1.2
    · split
      · next hsoft =>
        simp only [Bool.and_eq_true, Bool.not_eq_true', beq_iff_eq] at hsoft
        have hseen : soft = true := h word words .soft rfl (by simpa using hsoft.1.1) hsoft.2
        rw [hseen] at hsoft
        exact nomatch hsoft.1.2
      · rfl

theorem given_or (g : PurgeFlag) : given (soft || f == .soft) (purgeAll || f == .purgeAll) g =
    (given soft purgeAll g || f == g) := by
  cases f <;> cases g <;> rfl

/-- The loop takes flags that are all new, and stops behind them. -/
theorem takeFlags_flags (hwords : words.map cstr = flags.map PurgeFlag.word) (hnodup : flags.Nodup)
    (hnew : ∀ f ∈ flags, given soft purgeAll f = false) (hrest : rest ≠ [])
    (hstop : Stops rest fun f => given soft purgeAll f || flags.contains f) :
    takeFlags (words ++ rest) soft purgeAll =
      (rest, soft || flags.contains .soft, purgeAll || flags.contains .purgeAll) := by
  induction flags generalizing words soft purgeAll with
  | nil =>
    obtain rfl := List.map_eq_nil_iff.mp hwords
    have hstop' : Stops rest (given soft purgeAll) := by simpa using hstop
    rw [List.nil_append, takeFlags_stop hstop']
    simp
  | cons f flags ih =>
    obtain ⟨word, words, rfl, hword, hwords⟩ := List.map_eq_cons_iff.mp hwords
    obtain ⟨hf, hnodup⟩ := List.nodup_cons.mp hnodup
    have hmore : words ++ rest ≠ [] := List.append_ne_nil_of_right_ne_nil words hrest
    have hnew' : ∀ g ∈ flags, given (soft || f == .soft) (purgeAll || f == .purgeAll) g = false := by
      intro g hg
      have hne : f ≠ g := fun h => hf (h ▸ hg)
      rw [given_or, hnew g (List.mem_cons_of_mem f hg), beq_false_of_ne hne]
      rfl
    have hseen : ∀ g : PurgeFlag, (f == g || flags.contains g) = (f :: flags).contains g := by
      intro g
      rw [List.contains_cons, Bool.beq_comm]
    rw [List.cons_append, takeFlags_flag hword hmore (hnew f List.mem_cons_self),
      ih hwords hnodup hnew' ?_]
    · rw [Bool.or_assoc, Bool.or_assoc, hseen, hseen]
    · intro word words g hw hne hg
      have hstopped := hstop word words g hw hne hg
      simp only at hstopped ⊢
      rw [given_or, Bool.or_assoc, hseen]
      exact hstopped

/-- Every list of words falls into flags that are taken, and a rest to stop at. -/
theorem exists_flags (soft purgeAll : Bool) (hargs : args ≠ []) :
    ∃ (words rest : List Bytes) (flags : List PurgeFlag), args = words ++ rest ∧ rest ≠ [] ∧
      words.map cstr = flags.map PurgeFlag.word ∧ flags.Nodup ∧
      (∀ f ∈ flags, given soft purgeAll f = false) ∧
      Stops rest fun f => given soft purgeAll f || flags.contains f := by
  induction args generalizing soft purgeAll with
  | nil => exact absurd rfl hargs
  | cons word words ih =>
    rcases Classical.em (Stops (word :: words) (given soft purgeAll)) with hstop | hstop
    · exact ⟨[], word :: words, [], rfl, List.cons_ne_nil word words, rfl, List.nodup_nil,
        fun f hf => absurd hf List.not_mem_nil, by simpa using hstop⟩
    · simp only [Stops, not_forall] at hstop
      obtain ⟨_, _, f, hcons, hwords, hword, hnew⟩ := hstop
      obtain ⟨rfl, rfl⟩ := List.cons.inj hcons
      obtain ⟨ws, rest, flags, rfl, hrest, hws, hnodup, hfresh, hstop⟩ :=
        ih (soft || f == .soft) (purgeAll || f == .purgeAll) hwords
      have hf : f ∉ flags := by
        intro hf
        have hgiven := hfresh f hf
        rw [given_or, beq_self_eq_true, Bool.or_true] at hgiven
        exact nomatch hgiven
      refine ⟨word :: ws, rest, f :: flags, rfl, hrest, ?_, List.nodup_cons.mpr ⟨hf, hnodup⟩, ?_, ?_⟩
      · rw [List.map_cons, List.map_cons, hword, hws]
      · intro g hg
        rcases List.mem_cons.mp hg with rfl | hg
        · exact Bool.eq_false_iff.mpr hnew
        · have hgiven := hfresh g hg
          rw [given_or, Bool.or_eq_false_iff] at hgiven
          exact hgiven.1
      · intro word words g hw hne hg
        have hstopped := hstop word words g hw hne hg
        simp only [given_or, Bool.or_assoc] at hstopped ⊢
        rw [List.contains_cons, Bool.beq_comm]
        exact hstopped

/-! ## What a purge directive says -/

theorem has_given (d : PurgeDirective) (f : PurgeFlag) : d.has f = given d.soft d.purgeAll f := by
  cases f <;> rfl

theorem contains_given (flags : List PurgeFlag) (f : PurgeFlag) :
    given (flags.contains .soft) (flags.contains .purgeAll) f = flags.contains f := by
  cases f <;> rfl

/-- What the loop reads is a reading of the words. -/
theorem readPurge_words (hargs : args ≠ []) : PurgeWords args (readPurge args) := by
  obtain ⟨words, rest, flags, hsplit, hrest, hwords, hnodup, hnew, hstop⟩ :=
    exists_flags false false (List.reverse_ne_nil_iff.mpr hargs)
  have hread : readPurge args = ⟨rest.reverse, flags.contains .soft, flags.contains .purgeAll⟩ := by
    unfold readPurge
    rw [hsplit, takeFlags_flags hwords hnodup hnew hrest hstop]
    rfl
  have hhas : ∀ f, (readPurge args).has f = flags.contains f := by
    intro f
    rw [has_given, hread, contains_given]
  refine ⟨?_, ⟨words.reverse, flags.reverse, ?_, ?_, ?_, fun f => ?_⟩, fun front word f hlast hfront hword => ?_⟩
  · rw [hread]
    exact List.reverse_ne_nil_iff.mpr hrest
  · rw [hread, ← List.reverse_append, ← hsplit, List.reverse_reverse]
  · rw [List.map_reverse, List.map_reverse, hwords]
  · exact List.nodup_reverse.mpr hnodup
  · rw [hhas, List.mem_reverse, List.contains_iff_mem]
  · have hcons : rest = word :: front.reverse := by
      rw [hread] at hlast
      rw [← List.reverse_reverse rest, show rest.reverse = front ++ [word] from hlast, List.reverse_append]
      rfl
    have hseen := hstop word front.reverse f hcons (List.reverse_ne_nil_iff.mpr hfront) hword
    have hnone : given false false f = false := by cases f <;> rfl
    simp only [hnone, Bool.false_or] at hseen
    rw [hhas, hseen]

/-- There is no other one. -/
theorem PurgeWords.eq_readPurge (h : PurgeWords args d) : d = readPurge args := by
  obtain ⟨words, flags, rfl, hwords, hnodup, hflags⟩ := h.split
  have hhas : ∀ f, flags.reverse.contains f = d.has f := by
    intro f
    rw [Bool.eq_iff_iff, List.contains_iff_mem, List.mem_reverse]
    exact hflags f
  have hstop : Stops d.conditions.reverse fun f => given false false f || flags.reverse.contains f := by
    intro word front f hcons hfront hword
    have hlast : d.conditions = front.reverse ++ [word] := by
      rw [← List.reverse_reverse d.conditions, hcons, List.reverse_cons]
    simp only [hhas, h.last front.reverse word f hlast (List.reverse_ne_nil_iff.mpr hfront) hword,
      Bool.or_true]
  have hnone : ∀ f ∈ flags.reverse, given false false f = false := by
    intro f _
    cases f <;> rfl
  have hwords' : words.reverse.map cstr = flags.reverse.map PurgeFlag.word := by
    rw [List.map_reverse, List.map_reverse, hwords]
  have htake := takeFlags_flags hwords' (List.nodup_reverse.mpr hnodup) hnone
    (List.reverse_ne_nil_iff.mpr h.conditions) hstop
  unfold readPurge
  rw [List.reverse_append, htake]
  simp only [hhas, List.reverse_reverse, Bool.false_or]
  rfl

theorem PurgeWords.ne_nil (h : PurgeWords args d) : args ≠ [] := by
  obtain ⟨words, flags, rfl, -⟩ := h.split
  exact List.append_ne_nil_of_left_ne_nil h.conditions words

/-- Words can be read in one way only, and none at all in no way. -/
theorem existsUnique_reading : (∃! d, PurgeWords args d) ↔ args ≠ [] := by
  constructor
  · rintro ⟨d, hwords, -⟩
    exact hwords.ne_nil
  · intro hargs
    exact ⟨readPurge args, readPurge_words hargs, fun d hd => hd.eq_readPurge⟩

/-- The slot of a protocol before its directive. -/
def PilotConf.unset : PilotConf := ⟨none, none, none, false, false⟩

theorem cachePilotConf_unset (compile : Bytes → Bool) (alloc : Bool) (hargs : args ≠ []) :
    cachePilotConf compile alloc args .unset =
      if alloc && (readPurge args).conditions.all compile then .ok (readPurge args).pilotConf
      else .error .failed := by
  have hne := (readPurge_words hargs).conditions
  have hcons : args.isEmpty = false := by simpa using hargs
  unfold cachePilotConf
  unfold readPurge at hne ⊢
  unfold PilotConf.unset
  generalize takeFlags args.reverse false false = taken at hne
  obtain ⟨rest, soft, purgeAll⟩ := taken
  have hrest : rest.isEmpty = false := by simpa using hne
  simp only [hcons, hrest]
  cases alloc <;> simp [PurgeDirective.pilotConf]

/-- Any words but none have one reading. A purge directive is taken exactly when its words
have it, memory for the conditions is there, and each of them compiles; then it leaves what
its words say. The error for flags without a condition does not happen. -/
theorem purge_directive_iff (compile : Bytes → Bool) (alloc : Bool) (args : List Bytes) (c : PilotConf) :
    ((∃! d, PurgeWords args d) ↔ args ≠ []) ∧
    (cachePilotConf compile alloc args .unset = .ok c ↔ alloc = true ∧ ∃ d, PurgeWords args d ∧
      (∀ condition ∈ d.conditions, compile condition = true) ∧ c = d.pilotConf) ∧
    (cachePilotConf compile alloc args .unset = .error .noWords ↔ args = []) ∧
    cachePilotConf compile alloc args .unset ≠ .error .noConditions := by
  refine ⟨existsUnique_reading, ?_⟩
  cases args with
  | nil =>
    refine ⟨⟨(nomatch ·), fun ⟨_, d, hwords, _⟩ => ?_⟩, ⟨fun _ => rfl, fun _ => rfl⟩, (nomatch ·)⟩
    exact absurd rfl hwords.ne_nil
  | cons word words =>
    rw [cachePilotConf_unset compile alloc (List.cons_ne_nil word words)]
    refine ⟨⟨fun h => ?_, fun ⟨halloc, d, hwords, hcompile, hc⟩ => ?_⟩, ⟨fun h => ?_, (nomatch ·)⟩,
      fun h => ?_⟩
    · split at h
      · next hall =>
        obtain ⟨halloc, hcompile⟩ := Bool.and_eq_true_iff.mp hall
        exact ⟨halloc, readPurge (word :: words), readPurge_words (List.cons_ne_nil word words),
          List.all_eq_true.mp hcompile, (Except.ok.inj h).symm⟩
      · exact nomatch h
    · obtain rfl := hwords.eq_readPurge
      rw [if_pos (Bool.and_eq_true_iff.mpr ⟨halloc, List.all_eq_true.mpr hcompile⟩), hc]
    · split at h <;> exact nomatch h
    · split at h <;> exact nomatch h

/-- `$p soft soft`: the first `soft` is a condition. -/
example :
    cachePilotConf (fun _ => true) true [[36, 112], ascii "soft", ascii "soft"] .unset =
      .ok (PurgeDirective.pilotConf ⟨[[36, 112], ascii "soft"], true, false⟩) := by
  decide +kernel

/-! ## The lines of a level -/

/-- The directives of the module that every level can have, with their words. -/
inductive LocDirective
  | tagHeaders (args : List Bytes)
  | index (value : Bytes)
  | purge (p : Protocol) (args : List Bytes)
  | responseType (value : Bytes)
  | modeHeader (value : Bytes)
deriving DecidableEq, Repr

/-- A directive in the file; `alloc` tells whether its array can be allocated. -/
structure ConfLine where
  directive : LocDirective
  alloc : Bool

/-- `ngx_http_cache_pilot_create_loc_conf`. -/
def createLocConf : LocConf where
  slot _ := .unset
  conf := none
  handler := none
  originalHandler := none
  protocol := none
  resptype := none
  resptypeConfigured := false
  cacheIndex := none
  cacheTagHeaders := none
  purgeModeHeader := none

/-- `ngx_strcasecmp` with a name in lower case. -/
def sameWord (value name : Bytes) : Bool := cstr (value.map ngxTolower) == name

/-- What `ngx_conf_set_flag_slot` reads. -/
def flagValue (value : Bytes) : Option Bool :=
  if sameWord value (ascii "on") then some true
  else if sameWord value (ascii "off") then some false
  else none

/-- `ngx_http_cache_pilot_response_types`. -/
def responseTypes : List (Bytes × ResponseType) := [(ascii "json", .json), (ascii "text", .text)]

/-- What `ngx_conf_set_enum_slot` reads. -/
def enumValue (value : Bytes) : Option ResponseType :=
  (responseTypes.find? fun e => e.1.length == value.length && sameWord value e.1).map Prod.snd

/-- A slot of nginx that takes one value. -/
def setOnce {α : Type} (current : Option α) (read : Bytes → Option α) (value : Bytes) :
    Except DirectiveError α :=
  if current.isSome then .error .duplicate
  else
    match read value with
    | some a => .ok a
    | none => .error (.invalidValue value)

/-- `ngx_http_cache_pilot_protocol_conf_set`. -/
def protocolConfSet (compile : Bytes → Bool) (alloc : Bool) (p : Protocol) (args : List Bytes)
    (conf : LocConf) : Except DirectiveError LocConf :=
  if (conf.slot p).enable.isSome then .error .duplicate
  else (cachePilotConf compile alloc args (conf.slot p)).map fun c => conf.setSlot p c

/-- `ngx_http_cache_index_headers_conf`; `inLocation` is `cf->cmd_type == NGX_HTTP_LOC_CONF`. -/
def headersConf (inLocation alloc : Bool) (args : List Bytes) (conf : LocConf) :
    Except DirectiveError LocConf :=
  if conf.cacheTagHeaders.isSome && inLocation then .error .duplicate
  else if !alloc then .error .failed
  else .ok { conf with cacheTagHeaders := some args }

/-- `ngx_http_cache_pilot_mode_header_conf`. -/
def modeHeaderConf (inLocation : Bool) (value : Bytes) (conf : LocConf) :
    Except DirectiveError LocConf :=
  if conf.purgeModeHeader.isSome && inLocation then .error .duplicate
  else .ok { conf with purgeModeHeader := some value }

/-- The handler of a line, as `ngx_http_cache_pilot_module_commands` has it. -/
def setLine (compile : Bytes → Bool) (inLocation : Bool) (conf : LocConf) (line : ConfLine) :
    Except DirectiveError LocConf :=
  match line.directive with
  | .tagHeaders args => headersConf inLocation line.alloc args conf
  | .index value =>
    (setOnce conf.cacheIndex flagValue value).map fun flag => { conf with cacheIndex := some flag }
  | .purge p args => protocolConfSet compile line.alloc p args conf
  | .responseType value =>
    (setOnce conf.resptype enumValue value).map fun type => { conf with resptype := some type }
  | .modeHeader value => modeHeaderConf inLocation value conf

/-- The lines of a level, one after the other. -/
def levelConf (compile : Bytes → Bool) (inLocation : Bool) (lines : List ConfLine) :
    Except DirectiveError LocConf :=
  lines.foldlM (setLine compile inLocation) createLocConf

/-! ## What the lines of a level say -/

def ConfLine.purgeOf (p : Protocol) (line : ConfLine) : Option PurgeDirective :=
  match line.directive with
  | .purge q args => if q = p then some (readPurge args) else none
  | _ => none

def ConfLine.resptypeOf (line : ConfLine) : Option ResponseType :=
  match line.directive with
  | .responseType value => enumValue value
  | _ => none

def ConfLine.indexOf (line : ConfLine) : Option Bool :=
  match line.directive with
  | .index value => flagValue value
  | _ => none

def ConfLine.headersOf (line : ConfLine) : Option (List Bytes) :=
  match line.directive with
  | .tagHeaders args => some args
  | _ => none

def ConfLine.modeOf (line : ConfLine) : Option Bytes :=
  match line.directive with
  | .modeHeader value => some value
  | _ => none

/-- What a level says: of the tag headers and of the mode header the last line counts. -/
def levelDirectives (lines : List ConfLine) : Directives where
  purge p := lines.findSome? (ConfLine.purgeOf p)
  resptype := lines.findSome? ConfLine.resptypeOf
  cacheIndex := lines.findSome? ConfLine.indexOf
  cacheTagHeaders := lines.reverse.findSome? ConfLine.headersOf
  purgeModeHeader := lines.reverse.findSome? ConfLine.modeOf

/-- A line that its handler takes if nothing stands before it. -/
def ConfLine.Readable (compile : Bytes → Bool) (line : ConfLine) : Prop :=
  match line.directive with
  | .tagHeaders _ => line.alloc = true
  | .index value => flagValue value ≠ none
  | .purge _ args => line.alloc = true ∧ args ≠ [] ∧
      ∀ condition ∈ (readPurge args).conditions, compile condition = true
  | .responseType value => enumValue value ≠ none
  | .modeHeader _ => True

/-- Two lines that one level cannot have. -/
def ConfLine.Clash (inLocation : Bool) (a b : ConfLine) : Prop :=
  match a.directive, b.directive with
  | .tagHeaders _, .tagHeaders _ => inLocation = true
  | .index _, .index _ => True
  | .purge p _, .purge q _ => p = q
  | .responseType _, .responseType _ => True
  | .modeHeader _, .modeHeader _ => inLocation = true
  | _, _ => False

/-- What a level says with one more line. -/
def Directives.andThen (level : Directives) : LocDirective → Directives
  | .tagHeaders args => { level with cacheTagHeaders := some args }
  | .index value => { level with cacheIndex := level.cacheIndex.or (flagValue value) }
  | .purge p args =>
    { level with purge := fun q => (level.purge q).or (if p = q then some (readPurge args) else none) }
  | .responseType value => { level with resptype := level.resptype.or (enumValue value) }
  | .modeHeader value => { level with purgeModeHeader := some value }

/-- Whether a level has room for a line. -/
def Directives.Free (level : Directives) (inLocation : Bool) : LocDirective → Prop
  | .tagHeaders _ => inLocation = true → level.cacheTagHeaders = none
  | .index _ => level.cacheIndex = none
  | .purge p _ => level.purge p = none
  | .responseType _ => level.resptype = none
  | .modeHeader _ => inLocation = true → level.purgeModeHeader = none

variable {inLocation : Bool} {lines done : List ConfLine} {line : ConfLine} {conf : LocConf}
  {level : Directives} {p : Protocol}

theorem findSome_concat {α : Type} (read : ConfLine → Option α) (done : List ConfLine) (line : ConfLine) :
    (done ++ [line]).findSome? read = (done.findSome? read).or (read line) := by
  rw [List.findSome?_append, List.findSome?_cons]
  cases read line <;> rfl

theorem levelDirectives_concat (done : List ConfLine) (line : ConfLine) :
    levelDirectives (done ++ [line]) = (levelDirectives done).andThen line.directive := by
  obtain ⟨directive, alloc⟩ := line
  unfold levelDirectives Directives.andThen
  simp only [findSome_concat, List.reverse_append, List.reverse_singleton, List.singleton_append,
    List.findSome?_cons]
  cases directive <;> simp [ConfLine.purgeOf, ConfLine.resptypeOf, ConfLine.indexOf,
    ConfLine.headersOf, ConfLine.modeOf]

theorem setOnce_ok {α : Type} {current : Option α} {read : Bytes → Option α} {value : Bytes} {a : α} :
    setOnce current read value = .ok a ↔ current = none ∧ read value = some a := by
  unfold setOnce
  cases current <;> cases read value <;> simp

theorem map_ok {α β ε : Type} {result : Except ε α} {g : α → β} {b : β} :
    result.map g = .ok b ↔ ∃ a, result = .ok a ∧ b = g a := by
  cases result with
  | error e => simp [Except.map]
  | ok a => simp [Except.map, eq_comm]

/-- A value that is read once, where there is room and a reading. -/
theorem setOnce_map_ok {α β : Type} {current : Option α} {read : Bytes → Option α} {value : Bytes}
    {g : α → β} {b : β} (g' : Option α → β) (hg : ∀ a, g a = g' (some a)) :
    (setOnce current read value).map g = .ok b ↔
      read value ≠ none ∧ current = none ∧ b = g' (current.or (read value)) := by
  rw [map_ok]
  constructor
  · rintro ⟨a, hset, rfl⟩
    obtain ⟨rfl, hread⟩ := setOnce_ok.mp hset
    rw [hread]
    exact ⟨Option.some_ne_none a, rfl, hg a⟩
  · rintro ⟨hread, rfl, rfl⟩
    obtain ⟨a, ha⟩ := Option.ne_none_iff_exists'.mp hread
    rw [ha]
    exact ⟨a, setOnce_ok.mpr ⟨rfl, ha⟩, (hg a).symm⟩

/-! ## What one line leaves -/

theorem protocolConfSet_iff (args : List Bytes) :
    protocolConfSet compile alloc p args level.locConf = .ok conf ↔
      (alloc = true ∧ args ≠ [] ∧ ∀ condition ∈ (readPurge args).conditions, compile condition = true) ∧
        level.purge p = none ∧ conf = (level.andThen (.purge p args)).locConf := by
  unfold protocolConfSet
  rw [locConf_slot]
  cases hslot : level.purge p with
  | some d => simp [PurgeDirective.pilotConf]
  | none =>
    cases args with
    | nil => simp [cachePilotConf, Except.map]
    | cons word words =>
      have hne := List.cons_ne_nil word words
      have hset : level.locConf.setSlot p (readPurge (word :: words)).pilotConf =
          (level.andThen (.purge p (word :: words))).locConf := by
        have hslots : Function.update level.locConf.slot p (readPurge (word :: words)).pilotConf =
            (level.andThen (.purge p (word :: words))).locConf.slot := by
          funext q
          rw [locConf_slot]
          unfold Directives.andThen
          cases hd : decide (q = p) with
          | true =>
            obtain rfl := of_decide_eq_true hd
            simp [hslot]
          | false =>
            have hqp := of_decide_eq_false hd
            have hpq : ¬ p = q := fun h => hqp h.symm
            simp only [Function.update_of_ne hqp, if_neg hpq, Option.or_none]
            rfl
        unfold LocConf.setSlot
        rw [hslots]
        rfl
      have hread := cachePilotConf_unset compile alloc hne
      unfold PilotConf.unset at hread
      simp only [hread, map_ok, Option.isSome_none, Bool.false_eq_true, if_false]
      rw [← hset]
      cases alloc <;> cases hall : (readPurge (word :: words)).conditions.all compile <;>
        simp_all

/-- What a location takes once, and other levels replace. -/
theorem replaced_ok {α : Type} {current : Option α} {result : Except DirectiveError LocConf} :
    (if current.isSome && inLocation then .error .duplicate else result) = .ok conf ↔
      (inLocation = true → current = none) ∧ result = .ok conf := by
  cases current <;> cases inLocation <;> simp

theorem setLine_iff (compile : Bytes → Bool) (inLocation : Bool) (level : Directives) (line : ConfLine)
    (conf : LocConf) :
    setLine compile inLocation level.locConf line = .ok conf ↔
      line.Readable compile ∧ level.Free inLocation line.directive ∧
        conf = (level.andThen line.directive).locConf := by
  obtain ⟨directive, alloc⟩ := line
  cases directive with
  | tagHeaders args =>
    refine replaced_ok.trans ?_
    rw [and_left_comm]
    refine and_congr_right fun _ => ?_
    cases alloc with
    | false => exact iff_of_false (nomatch ·) fun h => nomatch h.1
    | true => exact ⟨fun h => ⟨rfl, (Except.ok.inj h).symm⟩, fun h => congrArg Except.ok h.2.symm⟩
  | index value => exact setOnce_map_ok (fun flag => { level.locConf with cacheIndex := flag }) fun _ => rfl
  | purge p args => exact protocolConfSet_iff args
  | responseType value =>
    exact setOnce_map_ok (fun type => { level.locConf with resptype := type }) fun _ => rfl
  | modeHeader value =>
    have hread : (ConfLine.mk (.modeHeader value) alloc).Readable compile := trivial
    refine replaced_ok.trans ((and_congr_right fun _ => ?_).trans (and_iff_right hread).symm)
    exact ⟨fun h => (Except.ok.inj h).symm, fun h => congrArg Except.ok h.symm⟩

/-! ## What the lines leave -/

/-- Nothing has been read of a directive exactly when no line clashes with the next one. -/
theorem findSome_none_iff {α : Type} {read : ConfLine → Option α}
    (hread : ∀ l : ConfLine, l.Readable compile → (read l = none ↔ ¬ l.Clash inLocation line))
    (hdone : ∀ l ∈ done, l.Readable compile) :
    done.findSome? read = none ↔ ∀ l ∈ done, ¬ l.Clash inLocation line := by
  rw [List.findSome?_eq_none_iff]
  exact forall₂_congr fun l hl => hread l (hdone l hl)

/-- After lines that could be read there is room for one that clashes with none of them. -/
theorem free_iff (line : ConfLine) (hdone : ∀ l ∈ done, l.Readable compile) :
    (levelDirectives done).Free inLocation line.directive ↔ ∀ l ∈ done, ¬ l.Clash inLocation line := by
  obtain ⟨directive, alloc⟩ := line
  have hback : ∀ l ∈ done.reverse, l.Readable compile := fun l hl => hdone l (List.mem_reverse.mp hl)
  have hall : ∀ line : ConfLine, (∀ l ∈ done.reverse, ¬ l.Clash inLocation line) ↔
      ∀ l ∈ done, ¬ l.Clash inLocation line := by
    intro line
    simp only [List.mem_reverse]
  cases directive with
  | tagHeaders args =>
    cases inLocation with
    | false =>
      refine iff_of_true (nomatch ·) fun l _ => ?_
      obtain ⟨directive, allocated⟩ := l
      cases directive <;> simp [ConfLine.Clash]
    | true =>
      refine (forall_prop_of_true rfl).trans ((findSome_none_iff (fun l _ => ?_) hback).trans (hall _))
      obtain ⟨directive, allocated⟩ := l
      cases directive <;> simp [ConfLine.headersOf, ConfLine.Clash]
  | index value =>
    refine findSome_none_iff (fun l hl => ?_) hdone
    obtain ⟨directive, allocated⟩ := l
    cases directive with
    | index other =>
      have hother : flagValue other ≠ none := hl
      simp [ConfLine.indexOf, ConfLine.Clash, hother]
    | _ => simp [ConfLine.indexOf, ConfLine.Clash]
  | purge p args =>
    refine findSome_none_iff (fun l _ => ?_) hdone
    obtain ⟨directive, allocated⟩ := l
    cases directive <;> simp [ConfLine.purgeOf, ConfLine.Clash]
  | responseType value =>
    refine findSome_none_iff (fun l hl => ?_) hdone
    obtain ⟨directive, allocated⟩ := l
    cases directive with
    | responseType other =>
      have hother : enumValue other ≠ none := hl
      simp [ConfLine.resptypeOf, ConfLine.Clash, hother]
    | _ => simp [ConfLine.resptypeOf, ConfLine.Clash]
  | modeHeader value =>
    cases inLocation with
    | false =>
      refine iff_of_true (nomatch ·) fun l _ => ?_
      obtain ⟨directive, allocated⟩ := l
      cases directive <;> simp [ConfLine.Clash]
    | true =>
      refine (forall_prop_of_true rfl).trans ((findSome_none_iff (fun l _ => ?_) hback).trans (hall _))
      obtain ⟨directive, allocated⟩ := l
      cases directive <;> simp [ConfLine.modeOf, ConfLine.Clash]

/-- The lines that follow others. -/
theorem foldlM_setLine_iff (hdone : ∀ l ∈ done, l.Readable compile) :
    lines.foldlM (setLine compile inLocation) (levelDirectives done).locConf = .ok conf ↔
      (∀ l ∈ lines, l.Readable compile) ∧ lines.Pairwise (fun a b => ¬ a.Clash inLocation b) ∧
        (∀ a ∈ done, ∀ b ∈ lines, ¬ a.Clash inLocation b) ∧
        conf = (levelDirectives (done ++ lines)).locConf := by
  induction lines generalizing done with
  | nil =>
    rw [List.append_nil]
    constructor
    · intro h
      exact ⟨fun l hl => absurd hl List.not_mem_nil, List.Pairwise.nil,
        fun a _ b hb => absurd hb List.not_mem_nil, (Except.ok.inj h).symm⟩
    · rintro ⟨-, -, -, rfl⟩
      rfl
  | cons line lines ih =>
    have hconcat : ∀ rest, levelDirectives (done ++ line :: rest) = levelDirectives (done ++ [line] ++ rest) := by
      intro rest
      rw [List.append_assoc]
      rfl
    have hread : line.Readable compile → ∀ l ∈ done ++ [line], l.Readable compile := by
      intro hline l hl
      rcases List.mem_append.mp hl with hl | hl
      · exact hdone l hl
      · exact List.mem_singleton.mp hl ▸ hline
    rw [List.foldlM_cons, hconcat]
    constructor
    · intro h
      cases hset : setLine compile inLocation (levelDirectives done).locConf line with
      | error e =>
        rw [hset] at h
        exact nomatch h
      | ok c =>
        obtain ⟨hline, hfree, hc⟩ := (setLine_iff compile inLocation _ line c).mp hset
        rw [hset, hc, ← levelDirectives_concat] at h
        obtain ⟨hlines, hpairs, hapart, hconf⟩ := (ih (hread hline)).mp h
        refine ⟨List.forall_mem_cons.mpr ⟨hline, hlines⟩, List.pairwise_cons.mpr ⟨?_, hpairs⟩, ?_, hconf⟩
        · exact hapart line (List.mem_append_right done (List.mem_singleton_self line))
        · intro a ha
          refine List.forall_mem_cons.mpr ⟨(free_iff line hdone).mp hfree a ha, ?_⟩
          exact hapart a (List.mem_append_left [line] ha)
    · rintro ⟨hall, hpairs, hapart, hconf⟩
      obtain ⟨hline, hlines⟩ := List.forall_mem_cons.mp hall
      obtain ⟨hahead, hpairs⟩ := List.pairwise_cons.mp hpairs
      have hfree := (free_iff line hdone).mpr fun a ha => hapart a ha line List.mem_cons_self
      have hset := (setLine_iff compile inLocation _ line _).mpr ⟨hline, hfree, rfl⟩
      rw [← levelDirectives_concat] at hset
      rw [hset]
      refine (ih (hread hline)).mpr ⟨hlines, hpairs, fun a ha => ?_, hconf⟩
      rcases List.mem_append.mp ha with ha | ha
      · exact fun b hb => hapart a ha b (List.mem_cons_of_mem line hb)
      · exact List.mem_singleton.mp ha ▸ hahead

theorem levelConf_ok : levelConf compile inLocation lines = .ok conf ↔
    (∀ l ∈ lines, l.Readable compile) ∧ lines.Pairwise (fun a b => ¬ a.Clash inLocation b) ∧
      conf = (levelDirectives lines).locConf := by
  have hnone : ∀ l ∈ ([] : List ConfLine), l.Readable compile := fun l hl => absurd hl List.not_mem_nil
  have hapart : ∀ a ∈ ([] : List ConfLine), ∀ b ∈ lines, ¬ a.Clash inLocation b :=
    fun a ha => absurd ha List.not_mem_nil
  have hstart : levelConf compile inLocation lines =
      lines.foldlM (setLine compile inLocation) (levelDirectives []).locConf := rfl
  rw [hstart, foldlM_setLine_iff hnone]
  exact and_congr_right fun _ => and_congr_right fun _ => and_iff_right hapart

/-! ## The order of the lines -/

theorem clash_symm {a b : ConfLine} (h : a.Clash inLocation b) : b.Clash inLocation a := by
  obtain ⟨directive, alloc⟩ := a
  obtain ⟨directive', alloc'⟩ := b
  cases directive <;> cases directive' <;> simp_all [ConfLine.Clash]

/-- Where only one line can be read for a value, the order of the lines does not matter. -/
theorem findSome_perm {α : Type} {read : ConfLine → Option α}
    (hread : ∀ a b : ConfLine, read a ≠ none → read b ≠ none → a.Clash inLocation b)
    (hperm : lines.Perm done) (hpairs : lines.Pairwise fun a b => ¬ a.Clash inLocation b) :
    lines.findSome? read = done.findSome? read := by
  induction hperm with
  | nil => rfl
  | cons a _ ih =>
    rw [List.findSome?_cons, List.findSome?_cons, ih (List.pairwise_cons.mp hpairs).2]
  | swap a b _ =>
    rw [List.findSome?_cons, List.findSome?_cons, List.findSome?_cons, List.findSome?_cons]
    have hapart := (List.pairwise_cons.mp hpairs).1 a List.mem_cons_self
    cases ha : read a with
    | none => rfl
    | some x =>
      cases hb : read b with
      | none => rfl
      | some y => exact absurd (hread b a (by rw [hb]; simp) (by rw [ha]; simp)) hapart
  | trans hfirst _ ih ih' =>
    rw [ih hpairs, ih' ((hfirst.pairwise_iff fun h h' => h (clash_symm h')).mp hpairs)]

theorem purgeOf_ne_none (h : line.purgeOf p ≠ none) : ∃ args, line.directive = .purge p args := by
  obtain ⟨directive, alloc⟩ := line
  cases directive with
  | purge q args =>
    unfold ConfLine.purgeOf at h
    simp only at h
    split at h
    · next hq => exact ⟨args, by rw [hq]⟩
    · exact absurd rfl h
  | _ => exact absurd rfl h

theorem resptypeOf_ne_none (h : line.resptypeOf ≠ none) : ∃ value, line.directive = .responseType value := by
  obtain ⟨directive, alloc⟩ := line
  cases directive with
  | responseType value => exact ⟨value, rfl⟩
  | _ => exact absurd rfl h

theorem indexOf_ne_none (h : line.indexOf ≠ none) : ∃ value, line.directive = .index value := by
  obtain ⟨directive, alloc⟩ := line
  cases directive with
  | index value => exact ⟨value, rfl⟩
  | _ => exact absurd rfl h

theorem headersOf_ne_none (h : line.headersOf ≠ none) : ∃ args, line.directive = .tagHeaders args := by
  obtain ⟨directive, alloc⟩ := line
  cases directive with
  | tagHeaders args => exact ⟨args, rfl⟩
  | _ => exact absurd rfl h

theorem modeOf_ne_none (h : line.modeOf ≠ none) : ∃ value, line.directive = .modeHeader value := by
  obtain ⟨directive, alloc⟩ := line
  cases directive with
  | modeHeader value => exact ⟨value, rfl⟩
  | _ => exact absurd rfl h

theorem levelDirectives_perm (hperm : lines.Perm done)
    (hpairs : lines.Pairwise fun a b => ¬ a.Clash true b) : levelDirectives lines = levelDirectives done := by
  have hback : lines.reverse.Perm done.reverse :=
    (List.reverse_perm lines).trans (hperm.trans (List.reverse_perm done).symm)
  have hpairs' : lines.reverse.Pairwise fun a b => ¬ a.Clash true b :=
    ((List.reverse_perm lines).pairwise_iff fun h h' => h (clash_symm h')).mpr hpairs
  unfold levelDirectives
  congr 1
  · funext p
    refine findSome_perm (fun a b ha hb => ?_) hperm hpairs
    obtain ⟨args, ha⟩ := purgeOf_ne_none ha
    obtain ⟨args', hb⟩ := purgeOf_ne_none hb
    simp [ConfLine.Clash, ha, hb]
  · refine findSome_perm (fun a b ha hb => ?_) hperm hpairs
    obtain ⟨value, ha⟩ := resptypeOf_ne_none ha
    obtain ⟨value', hb⟩ := resptypeOf_ne_none hb
    simp [ConfLine.Clash, ha, hb]
  · refine findSome_perm (fun a b ha hb => ?_) hperm hpairs
    obtain ⟨value, ha⟩ := indexOf_ne_none ha
    obtain ⟨value', hb⟩ := indexOf_ne_none hb
    simp [ConfLine.Clash, ha, hb]
  · refine findSome_perm (fun a b ha hb => ?_) hback hpairs'
    obtain ⟨args, ha⟩ := headersOf_ne_none ha
    obtain ⟨args', hb⟩ := headersOf_ne_none hb
    simp [ConfLine.Clash, ha, hb]
  · refine findSome_perm (fun a b ha hb => ?_) hback hpairs'
    obtain ⟨value, ha⟩ := modeOf_ne_none ha
    obtain ⟨value', hb⟩ := modeOf_ne_none hb
    simp [ConfLine.Clash, ha, hb]

theorem levelConf_perm (hperm : lines.Perm done) (h : levelConf compile true lines = .ok conf) :
    levelConf compile true done = .ok conf := by
  obtain ⟨hread, hpairs, rfl⟩ := levelConf_ok.mp h
  refine levelConf_ok.mpr ⟨fun l hl => hread l (hperm.mem_iff.mpr hl), ?_, ?_⟩
  · exact (hperm.pairwise_iff fun h h' => h (clash_symm h')).mp hpairs
  · rw [levelDirectives_perm hperm hpairs]

/-- A level is accepted exactly when each line can be read, and no two lines clash: two purge
directives of one protocol, two indexes or two response types, and in a location also two
lists of tag headers or two mode headers. Then its configuration is that of what its lines
say, the one that the merge starts from. In a location the lines can stand in any order. -/
theorem level_configured_iff (compile : Bytes → Bool) (inLocation : Bool) (lines : List ConfLine)
    (conf : LocConf) :
    (levelConf compile inLocation lines = .ok conf ↔
      (∀ l ∈ lines, l.Readable compile) ∧ lines.Pairwise (fun a b => ¬ a.Clash inLocation b) ∧
        conf = (levelDirectives lines).locConf) ∧
    (inLocation = true → ∀ lines', lines.Perm lines' →
      (levelConf compile inLocation lines' = .ok conf ↔ levelConf compile inLocation lines = .ok conf)) := by
  refine ⟨levelConf_ok, ?_⟩
  rintro rfl lines' hperm
  exact ⟨levelConf_perm hperm.symm, levelConf_perm hperm⟩

end CachePilot
