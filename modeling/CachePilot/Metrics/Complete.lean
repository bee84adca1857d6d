import CachePilot.Metrics.Document
import CachePilot.Metrics.Length

/-!
# Whether the metrics documents are complete

A document is complete if its writer has not come to the end of the buffer. The JSON
document is well formed if it is read as one value whose `"zones"` has a member for each
zone, under its name.

The estimate of the buffer leaves room for names of some length, not of any, and the JSON
writer prints a name as it is.

Results:
* `metrics_documents_iff`: the documents are complete and well formed exactly if the bytes
  of the names are plain and two sums over the snapshots stay below the sizes of the
  buffers;
* `documents_incomplete`: a zone with a quote in its name, and one with a name of 500 bytes.
-/

namespace CachePilot
open NgxString Print
open Json (Token Value lex_append_some lex_quoted_some Apart Parses ParsesMembers ParsesPrefix)

/-! ## The zones in a row -/

/-- What is printed from the first zone on. -/
def zonesText (z : ZoneSnapshot) : List ZoneSnapshot → Bytes
  | [] => 34 :: (z.name ++ 34 :: (jsonZoneRest z ++ ascii "\x7d\x7d"))
  | z' :: zs => 34 :: (z.name ++ 34 :: (jsonZoneRest z ++ 44 :: zonesText z' zs))

/-- The members of `"zones"` with the closing brace. -/
def zonesTokens (z : ZoneSnapshot) : List ZoneSnapshot → List Token
  | [] => .scalar (.string z.name) :: .colon :: (zoneTokens z ++ [.rbrace])
  | z' :: zs => .scalar (.string z.name) :: .colon :: (zoneTokens z ++ .comma :: zonesTokens z' zs)

def zonesMembers (snaps : List ZoneSnapshot) : List (Bytes × Value) :=
  snaps.map fun s => (s.name, .object (zoneMembers s))

theorem jsonZones_flatten (i : Nat) (z : ZoneSnapshot) (zs : List ZoneSnapshot) :
    (jsonZones i (z :: zs)).flatten ++ ascii "\x7d\x7d" =
      (if 0 < i then [44] else []) ++ zonesText z zs := by
  have hcomma : (if 0 < i then [ascii ","] else []).flatten = if 0 < i then [44] else [] := by
    split
    · rfl
    · rfl
  induction zs generalizing i z with
  | nil =>
    unfold jsonZones jsonZones zonesText
    simp only [List.flatten_append, List.append_nil, hcomma, jsonZone_flatten, List.append_assoc,
      List.cons_append]
  | cons z' zs ih =>
    unfold jsonZones zonesText
    have hrest := ih (i + 1) z' (by rw [if_pos (Nat.succ_pos i), if_pos (Nat.succ_pos i)]; rfl)
    rw [if_pos (Nat.succ_pos i)] at hrest
    simp only [List.flatten_append, hcomma, jsonZone_flatten, List.append_assoc, List.cons_append,
      hrest, List.nil_append]

theorem parses_zones (z : ZoneSnapshot) (zs : List ZoneSnapshot) :
    ParsesMembers (zonesTokens z zs) (zonesMembers (z :: zs)) := by
  induction zs generalizing z with
  | nil => exact .last (parses_zone z) _
  | cons z' zs ih => exact .cons (parses_zone z) (ih z') _

theorem jsonZoneRest_last (z : ZoneSnapshot) : (jsonZoneRest z).getLast? = some 125 := by
  have hend : ascii "\x7d" = [125] := rfl
  simp only [jsonZoneRest, ← List.append_assoc]
  rw [hend]
  exact List.getLast?_concat

/-- What follows a zone does not go on with its tokens. -/
theorem lex_zone_append (z : ZoneSnapshot) (rest : Bytes) : Json.lex (jsonZoneRest z ++ rest) =
    (Json.lex rest).map (.colon :: zoneTokens z ++ ·) :=
  Json.lex_append (lex_jsonZoneRest z) (Apart.of_left (jsonZoneRest_last z) rfl rest)

theorem lex_zones {z : ZoneSnapshot} {zs : List ZoneSnapshot}
    (hplain : ∀ s ∈ z :: zs, ∀ c ∈ s.name, Json.Plain c) :
    Json.lex (zonesText z zs) = some (zonesTokens z zs ++ [.rbrace]) := by
  have hend : Json.lex (ascii "\x7d\x7d") = some [.rbrace, .rbrace] := rfl
  induction zs generalizing z with
  | nil =>
    have hz := Json.Spelling.of_plain (hplain z List.mem_cons_self)
    unfold zonesText zonesTokens
    rw [Json.lex_quoted hz, lex_zone_append, hend]
    simp
  | cons z' zs ih =>
    have hz := Json.Spelling.of_plain (hplain z List.mem_cons_self)
    have hcomma : Json.lex (44 :: zonesText z' zs) =
        some (.comma :: (zonesTokens z' zs ++ [.rbrace])) := by
      rw [Json.lex_cons rfl]
      show (Json.lex (zonesText z' zs)).map _ = _
      rw [ih fun s hs => hplain s (List.mem_cons_of_mem z hs)]
      rfl
    unfold zonesText zonesTokens
    rw [Json.lex_quoted hz, lex_zone_append, hcomma]
    simp

/-- A zone that is read under its name has a plain name. -/
theorem plain_of_zone {z : ZoneSnapshot} (hname : 58 ∉ z.name) {u : Bytes} {ts : List Token}
    (hlex : Json.lex (34 :: (z.name ++ 34 :: (jsonZoneRest z ++ u))) = some ts) {fuel : Nat}
    {names : List Bytes} {members : List (Bytes × Value)} {rest : List Token}
    (hparse : Json.parseMembers fuel ts = some (members, rest))
    (hmembers : members.map Prod.fst = z.name :: names) : ∀ c ∈ z.name, Json.Plain c := by
  obtain ⟨_, name, _, ts', _, _, _, rfl, _, rfl⟩ := Json.parseMembers_some hparse
  rw [List.map_cons] at hmembers
  obtain ⟨rfl, -⟩ := List.cons.inj hmembers
  exact Json.plain_of_lex_name (c := 115) hname rfl (by decide) hlex

/-- Zones that are read under their names have plain names. -/
theorem plain_of_parsed {z : ZoneSnapshot} {zs : List ZoneSnapshot}
    (hnames : ∀ s ∈ z :: zs, 58 ∉ s.name) {ts : List Token}
    (hlex : Json.lex (zonesText z zs) = some ts) {fuel : Nat} (hfuel : ts.length < fuel)
    {members : List (Bytes × Value)} {rest : List Token}
    (hparse : Json.parseMembers fuel ts = some (members, rest))
    (hmembers : members.map Prod.fst = (z :: zs).map ZoneSnapshot.name) :
    ∀ s ∈ z :: zs, ∀ c ∈ s.name, Json.Plain c := by
  induction zs generalizing z ts fuel members rest with
  | nil =>
    rw [List.forall_mem_singleton]
    exact plain_of_zone (hnames z List.mem_cons_self) hlex hparse hmembers
  | cons z' zs ih =>
    have hz := plain_of_zone (hnames z List.mem_cons_self) hlex hparse hmembers
    refine List.forall_mem_cons.mpr ⟨hz, ?_⟩
    -- the first zone is read as it should be, so that the others are left
    unfold zonesText at hlex
    rw [Json.lex_quoted (Json.Spelling.of_plain hz), lex_zone_append,
      Json.lex_cons rfl] at hlex
    obtain ⟨ts1, hts1, rfl⟩ := Option.map_eq_some_iff.mp hlex
    obtain ⟨ts2, hts2, rfl⟩ := Option.map_eq_some_iff.mp hts1
    obtain ⟨ts3, hts3, rfl⟩ := Option.map_eq_some_iff.mp (show (Json.lex (zonesText z' zs)).map
      (Token.comma :: ·) = some ts2 from hts2)
    simp only [List.length_cons, List.length_append, List.cons_append] at hfuel
    obtain ⟨fuel, rfl⟩ := Nat.exists_eq_succ_of_ne_zero (n := fuel) (by omega)
    rw [List.cons_append, Json.parseMembers_comma (parses_zone z) z.name fuel (by omega)] at hparse
    obtain ⟨⟨members', rest'⟩, hrest, hread⟩ := Option.map_eq_some_iff.mp hparse
    obtain ⟨rfl, rfl⟩ := Prod.mk.inj hread
    exact ih (fun s hs => hnames s (List.mem_cons_of_mem z hs)) hts3 (by omega) hrest
      (List.cons.inj hmembers).2

/-! ## The document -/

/-- The members before `"zones"`. -/
def headTokens (now : Int64) (snaps : List ZoneSnapshot) (m : Option PurgeMetrics) : List Token :=
  str "version" :: .colon :: ([.scalar (.number (ascii "1"))] ++ .comma ::
    str "timestamp" :: .colon :: ([int now] ++ .comma ::
    str "purges" :: .colon ::
      (kindsTokens (fun type soft => metricsRead m fun m => m.purges type soft) ++ .comma ::
    str "purged" :: .colon ::
      (kindsTokens (fun type soft => metricsRead m fun m => m.purged type soft) ++ .comma ::
    str "key_index" :: .colon ::
      ([.lbrace, str "exact_fanout", .colon, num (metricsRead m (·.keyIndexExactFanout)), .comma,
        str "wildcard_hits", .colon, num (metricsRead m (·.keyIndexWildcardHits)), .rbrace] ++ .comma ::
    str "index_store" :: .colon ::
      ([.lbrace, str "alloc_failures", .colon, num (indexAllocFailures snaps).toNat, .rbrace] ++
        [.comma]))))))

def headMembers (now : Int64) (snaps : List ZoneSnapshot) (m : Option PurgeMetrics) :
    List (Bytes × Value) :=
  [(ascii "version", .number (ascii "1")), (ascii "timestamp", .number (printInt now)),
    (ascii "purges", kindsValue fun type soft => metricsRead m fun m => m.purges type soft),
    (ascii "purged", kindsValue fun type soft => metricsRead m fun m => m.purged type soft),
    (ascii "key_index", .object
      [(ascii "exact_fanout", .number (printUint (metricsRead m (·.keyIndexExactFanout)))),
        (ascii "wildcard_hits", .number (printUint (metricsRead m (·.keyIndexWildcardHits))))]),
    (ascii "index_store", .object
      [(ascii "alloc_failures", .number (printUint (indexAllocFailures snaps).toNat))])]

theorem parses_head (now : Int64) (snaps : List ZoneSnapshot) (m : Option PurgeMetrics) :
    ParsesPrefix (headTokens now snaps m) (headMembers now snaps m) :=
  .cons (.scalar _) (.cons (.scalar _) (.cons (parses_kinds _) (.cons (parses_kinds _)
    (.cons (.object (.cons (.scalar _) (.last (.scalar _) _) _))
      (.cons (.object (.last (.scalar _) _)) .nil _) _) _) _) _) _

theorem lex_jsonHead (now : Int64) (snaps : List ZoneSnapshot) (m : Option PurgeMetrics) :
    Json.lex (jsonHead now snaps m).flatten =
      some (.lbrace :: (headTokens now snaps m ++ [str "zones", .colon, .lbrace])) := by
  have hopen : Json.lex (ascii "\x7b\"version\":1,\"timestamp\":") = some [.lbrace, str "version",
    .colon, .scalar (.number (ascii "1")), .comma, str "timestamp", .colon] := rfl
  have hpurges : Json.lex (ascii ",\"purges\":") = some [.comma, str "purges", .colon] := rfl
  have hpurged : Json.lex (ascii ",\"purged\":") = some [.comma, str "purged", .colon] := rfl
  have hfanout : Json.lex (ascii ",\"key_index\":\x7b\"exact_fanout\":") =
    some [.comma, str "key_index", .colon, .lbrace, str "exact_fanout", .colon] := rfl
  have hhits : Json.lex (ascii ",\"wildcard_hits\":") = some [.comma, str "wildcard_hits", .colon] := rfl
  have halloc : Json.lex (ascii "\x7d,\"index_store\":\x7b\"alloc_failures\":") =
    some [.rbrace, .comma, str "index_store", .colon, .lbrace, str "alloc_failures", .colon] := rfl
  have hzones : Json.lex (ascii "\x7d,\"zones\":\x7b") =
    some [.rbrace, .comma, str "zones", .colon, .lbrace] := rfl
  have htokens : .lbrace :: (headTokens now snaps m ++ [str "zones", .colon, .lbrace]) =
      [.lbrace, str "version", .colon, .scalar (.number (ascii "1")), .comma, str "timestamp", .colon] ++
        ([int now] ++ ([.comma, str "purges", .colon] ++
          (kindsTokens (fun type soft => metricsRead m fun m => m.purges type soft) ++
            ([.comma, str "purged", .colon] ++
              (kindsTokens (fun type soft => metricsRead m fun m => m.purged type soft) ++
                ([.comma, str "key_index", .colon, .lbrace, str "exact_fanout", .colon] ++
                  ([num (metricsRead m (·.keyIndexExactFanout))] ++ ([.comma, str "wildcard_hits", .colon] ++
                    ([num (metricsRead m (·.keyIndexWildcardHits))] ++
                      ([.rbrace, .comma, str "index_store", .colon, .lbrace, str "alloc_failures", .colon] ++
                        ([num (indexAllocFailures snaps).toNat] ++
                          [.rbrace, .comma, str "zones", .colon, .lbrace]))))))))))) := by
    simp [headTokens]
  have hkinds : ∀ counters rest, Apart (jsonKinds counters).flatten rest :=
    fun counters => Apart.of_left (jsonKinds_last counters) rfl
  rw [htokens]
  simp only [jsonHead, List.flatten_append, List.flatten_cons, List.flatten_nil, List.append_nil,
    List.append_assoc]
  refine lex_append_some hopen ?_ (Apart.of_left rfl rfl _)
  refine lex_append_some (lex_int _) ?_ (Apart.of_right rfl rfl _)
  refine lex_append_some hpurges ?_ (Apart.of_left rfl rfl _)
  refine lex_append_some (lex_jsonKinds _) ?_ (hkinds _ _)
  refine lex_append_some hpurged ?_ (Apart.of_left rfl rfl _)
  refine lex_append_some (lex_jsonKinds _) ?_ (hkinds _ _)
  refine lex_append_some hfanout ?_ (Apart.of_left rfl rfl _)
  refine lex_append_some (lex_num _) ?_ (Apart.of_right rfl rfl _)
  refine lex_append_some hhits ?_ (Apart.of_left rfl rfl _)
  refine lex_append_some (lex_num _) ?_ (Apart.of_right rfl rfl _)
  refine lex_append_some halloc ?_ (Apart.of_left rfl rfl _)
  exact lex_append_some (lex_num _) hzones (Apart.of_right rfl rfl _)

theorem jsonHead_last (now : Int64) (snaps : List ZoneSnapshot) (m : Option PurgeMetrics) :
    (jsonHead now snaps m).flatten.getLast? = some 123 := by
  have hend : ascii "\x7d,\"zones\":\x7b" = ascii "\x7d,\"zones\":" ++ [123] := rfl
  simp only [jsonHead, List.flatten_append, List.flatten_cons, List.flatten_nil, List.append_nil, hend,
    ← List.append_assoc]
  exact List.getLast?_concat

theorem jsonText_split (now : Int64) (z : ZoneSnapshot) (zs : List ZoneSnapshot)
    (m : Option PurgeMetrics) :
    jsonText now (z :: zs) m = (jsonHead now (z :: zs) m).flatten ++ zonesText z zs := by
  have hzones := jsonZones_flatten 0 z zs
  rw [if_neg (Nat.lt_irrefl 0), List.nil_append] at hzones
  unfold jsonText
  rw [List.flatten_append, List.flatten_append, List.append_assoc, List.flatten_singleton, hzones]

/-- The members of the document up to its zones. -/
theorem member_zones (now : Int64) (snaps : List ZoneSnapshot) (m : Option PurgeMetrics) (zones : Value)
    (members : List (Bytes × Value)) :
    Value.member (ascii "zones") (.object (headMembers now snaps m ++ (ascii "zones", zones) :: members)) =
      some zones := rfl

/-- With plain names the document is read as it should be. -/
theorem parse_document {now : Int64} {z : ZoneSnapshot} {zs : List ZoneSnapshot}
    {m : Option PurgeMetrics} (hplain : ∀ s ∈ z :: zs, ∀ c ∈ s.name, Json.Plain c) :
    Json.parse (jsonText now (z :: zs) m) = some (.object (headMembers now (z :: zs) m ++
      [(ascii "zones", .object (zonesMembers (z :: zs)))])) := by
  have hzones : ParsesMembers (str "zones" :: .colon :: (.lbrace :: zonesTokens z zs ++ [.rbrace]))
      [(ascii "zones", .object (zonesMembers (z :: zs)))] := .last (.object (parses_zones z zs)) _
  have hlex : Json.lex (jsonText now (z :: zs) m) = some (.lbrace :: (headTokens now (z :: zs) m ++
      str "zones" :: .colon :: (.lbrace :: zonesTokens z zs ++ [.rbrace]))) := by
    rw [jsonText_split, Json.lex_append (lex_jsonHead now (z :: zs) m)
      (Apart.of_left (jsonHead_last now (z :: zs) m) rfl _), lex_zones hplain]
    simp
  exact Json.parse_of_lex hlex (.object ((parses_head now (z :: zs) m).members hzones))

/-- A document that names its zones has zones with plain names. -/
theorem plain_of_document {now : Int64} {z : ZoneSnapshot} {zs : List ZoneSnapshot}
    {m : Option PurgeMetrics} (hnames : ∀ s ∈ z :: zs, 58 ∉ s.name) {v zones : Value}
    (hparse : Json.parse (jsonText now (z :: zs) m) = some v)
    (hmember : v.member (ascii "zones") = some zones)
    (hzones : zones.members.map Prod.fst = (z :: zs).map ZoneSnapshot.name) :
    ∀ s ∈ z :: zs, ∀ c ∈ s.name, Json.Plain c := by
  obtain ⟨ts, hlex, hvalue⟩ := Json.lex_of_parse hparse
  rw [jsonText_split, Json.lex_append (lex_jsonHead now (z :: zs) m)
    (Apart.of_left (jsonHead_last now (z :: zs) m) rfl _)] at hlex
  obtain ⟨zt, hzt, rfl⟩ := Option.map_eq_some_iff.mp hlex
  obtain ⟨hlen, hhead⟩ := parses_head now (z :: zs) m
  -- the members before the zones are read as they should be
  have hsix : (headMembers now (z :: zs) m).length = 6 := rfl
  have hshape : .lbrace :: (headTokens now (z :: zs) m ++ [str "zones", .colon, .lbrace]) ++ zt =
      .lbrace :: (headTokens now (z :: zs) m ++ str "zones" :: .colon :: .lbrace :: zt) := by simp
  have hlength : (headTokens now (z :: zs) m ++ str "zones" :: .colon :: .lbrace :: zt).length + 1 =
      (headTokens now (z :: zs) m).length + zt.length + 4 := by
    simp only [List.length_append, List.length_cons]
    omega
  rw [hshape, List.length_cons, hlength] at hvalue
  have hvalue' : (Json.parseMembers ((headTokens now (z :: zs) m).length + zt.length + 4)
      (headTokens now (z :: zs) m ++ str "zones" :: .colon :: .lbrace :: zt)).map
        (fun read => (Value.object read.1, read.2)) = some (v, []) :=
    (Json.parseValue_lbrace _ (ascii "version") _).symm.trans hvalue
  rw [hhead _ _ (by omega), Option.map_map] at hvalue'
  obtain ⟨⟨members, rest⟩, hread, hv⟩ := Option.map_eq_some_iff.mp hvalue'
  obtain ⟨fuel, name, v', ts', rest', members', hfuel, hts, hv', rfl⟩ := Json.parseMembers_some hread
  obtain ⟨hname, hts⟩ := List.cons.inj hts
  obtain ⟨-, rfl⟩ := List.cons.inj hts
  obtain rfl : name = ascii "zones" := by
    unfold str at hname
    exact (Value.string.inj (Token.scalar.inj hname)).symm
  rw [← (Prod.mk.inj hv).1] at hmember
  obtain rfl : v' = zones := Option.some.inj ((member_zones now (z :: zs) m v' members').symm.trans hmember)
  -- the text of the zones starts with a string, so that they are members
  obtain ⟨_, first, _, zt', _, _, _, rfl⟩ : ∃ raw first rest zt', zonesText z zs = 34 :: (raw ++ 34 :: rest) ∧
      Json.Spelling raw first ∧ Json.lex rest = some zt' ∧ zt = .scalar (.string first) :: zt' := by
    obtain ⟨t, ht⟩ : ∃ t, zonesText z zs = 34 :: t := by
      cases zs with
      | nil => exact ⟨_, rfl⟩
      | cons z' zs => exact ⟨_, rfl⟩
    rw [ht] at hzt
    obtain ⟨raw, first, rest, zt', hsplit, hraw, hrest, hzt⟩ := Json.lex_string_cases hzt
    exact ⟨raw, first, rest, zt', by rw [ht, hsplit], hraw, hrest, hzt⟩
  cases fuel with
  | zero => exact nomatch hv'
  | succ fuel =>
    rw [Json.parseValue_lbrace] at hv'
    obtain ⟨⟨zmembers, zrest⟩, hzparse, hzv⟩ := Option.map_eq_some_iff.mp hv'
    rw [← (Prod.mk.inj hzv).1] at hzones
    exact plain_of_parsed hnames hzt (by omega) hzparse hzones

/-! ## Lines -/

/-- Nothing, or text up to the end of a line. -/
def Lines (t : Bytes) : Prop := t = [] ∨ t.getLast? = some 10

theorem Lines.append {a b : Bytes} (ha : Lines a) (hb : Lines b) : Lines (a ++ b) := by
  rcases hb with rfl | hb
  · rw [List.append_nil]
    exact ha
  · exact Or.inr (by rw [List.getLast?_append, hb]; rfl)

theorem lines_promHeader (metric help type : String) : Lines (promHeader metric help type) := by
  have hend : ascii "\n" = [10] := rfl
  refine Or.inr ?_
  unfold promHeader
  rw [hend]
  exact List.getLast?_concat

theorem lines_promSample (metric : String) (labels : List Bytes) (value : Bytes) :
    Lines (promSample metric labels value).flatten := by
  have hend : [ascii "\x7d ", value, ascii "\n"].flatten = ascii "\x7d " ++ value ++ [10] := by
    simp only [List.flatten_cons, List.flatten_nil, List.append_nil, List.append_assoc]
    rfl
  refine Or.inr ?_
  unfold promSample
  rw [List.flatten_append, hend, ← List.append_assoc]
  exact List.getLast?_concat

theorem lines_flatMap {sample : ZoneSnapshot → List Bytes} (h : ∀ s, Lines (sample s).flatten)
    (snaps : List ZoneSnapshot) : Lines (snaps.flatMap sample).flatten := by
  induction snaps with
  | nil => exact Or.inl rfl
  | cons s snaps ih =>
    rw [List.flatMap_cons, List.flatten_append]
    exact (h s).append ih

theorem lines_promIndexed {header : Bytes} (hheader : Lines header) {sample : ZoneSnapshot → List Bytes}
    (h : ∀ s, Lines (sample s).flatten) (prev : Bool) (snaps : List ZoneSnapshot) :
    Lines (promIndexed header sample prev snaps).flatten := by
  induction snaps generalizing prev with
  | nil => exact Or.inl rfl
  | cons s snaps ih =>
    unfold promIndexed
    rw [List.flatten_append]
    refine Lines.append ?_ (ih s.hasIndex)
    split
    · rw [List.flatten_append]
      refine Lines.append ?_ (h s)
      split
      · exact Or.inl rfl
      · rw [List.flatten_singleton]
        exact hheader
    · exact Or.inl rfl

/-- The text ends with the end of a line. -/
theorem promText_last (snaps : List ZoneSnapshot) (m : Option PurgeMetrics) :
    (promText snaps m).getLast? = some 10 := by
  have hstates : Lines (promStates snaps).flatten := by
    unfold promStates
    simp only [List.flatten_append, List.flatten_singleton]
    refine Lines.append (Lines.append (Lines.append (Lines.append (Lines.append (Lines.append
      (lines_promHeader _ _ _) ?_) (lines_promHeader _ _ _)) ?_) (lines_promHeader _ _ _)) ?_) ?_
    · exact lines_flatMap (fun s => lines_promSample _ _ _) snaps
    · refine lines_flatMap (fun s => ?_) snaps
      simp only [List.flatten_append]
      exact ((lines_promSample _ _ _).append (lines_promSample _ _ _)).append (lines_promSample _ _ _)
    · exact lines_flatMap (fun s => lines_promSample _ _ _) snaps
    · exact lines_promIndexed (lines_promHeader _ _ _) (fun s => lines_promSample _ _ _) false snaps
  have hne : (promStates snaps).flatten ≠ [] := by
    intro h
    have hlen := promStates_length snaps
    rw [h, List.length_nil] at hlen
    omega
  unfold promText
  rw [List.flatten_append, List.getLast?_append, hstates.resolve_left hne]
  rfl

/-! ## Both documents -/

/-- What nginx takes for the name of a cache zone: the value of `keys_zone` up to its colon. -/
structure ZoneNamed (name : Bytes) : Prop where
  nonempty : name ≠ []
  colon : 58 ∉ name
  nul : 0 ∉ name

instance (name : Bytes) : Decidable (ZoneNamed name) :=
  decidable_of_iff (name ≠ [] ∧ 58 ∉ name ∧ 0 ∉ name)
    ⟨fun h => ⟨h.1, h.2.1, h.2.2⟩, fun h => ⟨h.nonempty, h.colon, h.nul⟩⟩

/-- Neither writer comes to the end of its buffer. The JSON document is one value whose
`"zones"` has a member for each zone under its name, and the Prometheus text ends with the
end of its last line. -/
structure DocumentsComplete (pagesize : Nat) (now : Int64) (snaps : List ZoneSnapshot)
    (m : Option PurgeMetrics) : Prop where
  prometheus : ∃ out, metricsHandler .prometheus pagesize now snaps m = some out ∧
    out.length < bufSize .prometheus pagesize snaps.length ∧ out = promText snaps m ∧
    out.getLast? = some 10
  json : ∃ out v members, metricsHandler .json pagesize now snaps m = some out ∧
    out.length < bufSize .json pagesize snaps.length ∧ Json.parse out = some v ∧
    v.member (ascii "zones") = some (.object members) ∧
    members.map Prod.fst = snaps.map ZoneSnapshot.name

section

variable {pagesize : Nat} {now : Int64} {snaps : List ZoneSnapshot} {m : Option PurgeMetrics}

/-- A document that does not fill its buffer is all there. -/
theorem putAll_lt {size : Nat} {pieces : List Bytes} (h : (putAll size [] pieces).length < size) :
    pieces.flatten.length < size ∧ putAll size [] pieces = pieces.flatten := by
  have hlt : pieces.flatten.length < size := by
    rw [putAll_nil, List.length_take] at h
    omega
  exact ⟨hlt, putAll_fits (Nat.le_of_lt hlt)⟩

theorem metricsHandler_prometheus (hne : snaps ≠ []) : metricsHandler .prometheus pagesize now snaps m =
    some (writePrometheus (bufSize .prometheus pagesize snaps.length) snaps m) := if_neg hne

theorem metricsHandler_json (hne : snaps ≠ []) : metricsHandler .json pagesize now snaps m =
    some (writeJson (bufSize .json pagesize snaps.length) now snaps m) := if_neg hne

theorem DocumentsComplete.promSize (h : DocumentsComplete pagesize now snaps m) (hne : snaps ≠ []) :
    promSize snaps m < bufSize .prometheus pagesize snaps.length := by
  obtain ⟨out, hout, hlen, -⟩ := h.prometheus
  rw [metricsHandler_prometheus hne] at hout
  rw [← Option.some.inj hout] at hlen
  rw [← promText_length]
  exact (putAll_lt hlen).1

theorem DocumentsComplete.jsonSize (h : DocumentsComplete pagesize now snaps m) (hne : snaps ≠ []) :
    jsonSize now snaps m < bufSize .json pagesize snaps.length := by
  obtain ⟨out, v, members, hout, hlen, -⟩ := h.json
  rw [metricsHandler_json hne] at hout
  rw [← Option.some.inj hout] at hlen
  rw [← jsonText_length]
  exact (putAll_lt hlen).1

theorem DocumentsComplete.plain (h : DocumentsComplete pagesize now snaps m) (hne : snaps ≠ [])
    (hnames : ∀ s ∈ snaps, ZoneNamed s.name) : ∀ s ∈ snaps, ∀ c ∈ s.name, Json.Plain c := by
  obtain ⟨out, v, members, hout, hlen, hparse, hzones, hmembers⟩ := h.json
  rw [metricsHandler_json hne] at hout
  obtain rfl := Option.some.inj hout
  have htext : writeJson (bufSize .json pagesize snaps.length) now snaps m = jsonText now snaps m :=
    (putAll_lt hlen).2
  rw [htext] at hparse
  cases snaps with
  | nil => exact absurd rfl hne
  | cons z zs => exact plain_of_document (fun s hs => (hnames s hs).colon) hparse hzones hmembers

/-- When the documents are complete and well formed. -/
theorem metrics_documents_iff (pagesize : Nat) (now : Int64) (snaps : List ZoneSnapshot)
    (m : Option PurgeMetrics) (hne : snaps ≠ []) (hnames : ∀ s ∈ snaps, ZoneNamed s.name) :
    DocumentsComplete pagesize now snaps m ↔
      (∀ s ∈ snaps, ∀ c ∈ s.name, c ≠ 34 ∧ c ≠ 92 ∧ 32 ≤ c) ∧
        promSize snaps m < ngxAlign (3072 + snaps.length * 2560) pagesize ∧
        jsonSize now snaps m < ngxAlign (512 + snaps.length * 1024) pagesize := by
  constructor
  · exact fun h => ⟨h.plain hne hnames, h.promSize hne, h.jsonSize hne⟩
  · rintro ⟨hplain, hprom, hjson⟩
    have hpromText : writePrometheus (bufSize .prometheus pagesize snaps.length) snaps m =
        promText snaps m := putAll_fits (Nat.le_of_lt (promText_length.trans_lt hprom))
    have hjsonText : writeJson (bufSize .json pagesize snaps.length) now snaps m =
        jsonText now snaps m := putAll_fits (Nat.le_of_lt (jsonText_length.trans_lt hjson))
    refine ⟨⟨_, metricsHandler_prometheus hne, ?_, hpromText, ?_⟩, ?_⟩
    · rw [hpromText, promText_length]
      exact hprom
    · rw [hpromText]
      exact promText_last snaps m
    · refine ⟨_, .object (headMembers now snaps m ++ [(ascii "zones", .object (zonesMembers snaps))]),
        zonesMembers snaps, metricsHandler_json hne, ?_, ?_, rfl, ?_⟩
      · rw [hjsonText, jsonText_length]
        exact hjson
      · rw [hjsonText]
        cases snaps with
        | nil => exact absurd rfl hne
        | cons z zs => exact parse_document hplain
      · unfold zonesMembers
        rw [List.map_map]
        rfl

end

/-- A zone with an index that is not ready; its numbers are as long as they can be. -/
def sampleZone (name : Bytes) : ZoneSnapshot where
  name := name
  size := Int64.minValue
  maxSize := Int64.minValue
  indexMaxSize := Int64.minValue
  cold := 1
  entriesValid := 18446744073709551615
  entriesExpired := 18446744073709551615
  entriesUpdating := 18446744073709551615
  indexState := .configured
  hasIndex := true
  indexLastUpdatedAt := Int64.minValue
  indexLastBootstrapAt := Int64.minValue
  indexNotReadyReason := some .zoneNotRegistered
  allocFailures := 18446744073709551615

theorem metrics_documents_iff_sample :
    DocumentsComplete 4096 0 [sampleZone (ascii "stats_test"), sampleZone (ascii "stats_test2")]
      none :=
  (metrics_documents_iff 4096 0 [sampleZone (ascii "stats_test"), sampleZone (ascii "stats_test2")]
    none (List.cons_ne_nil _ _) (by decide +kernel)).mpr
    ⟨by decide +kernel, by decide +kernel, by decide +kernel⟩

/-- With a quote in the name of its zone the JSON document does not name the zone, and with a
name of 500 bytes the Prometheus text does not fit in its buffer. -/
theorem documents_incomplete :
    (ZoneNamed (ascii "a\"b") ∧ ¬ DocumentsComplete 4096 0 [sampleZone (ascii "a\"b")] none) ∧
      ZoneNamed (List.replicate 500 97) ∧
      ¬ DocumentsComplete 4096 0 [sampleZone (List.replicate 500 97)] none := by
  have hquoted : ZoneNamed (ascii "a\"b") := by decide +kernel
  refine ⟨⟨hquoted, fun h => ?_⟩, by decide +kernel, fun h => ?_⟩
  · have hplain := h.plain (List.cons_ne_nil _ _) (List.forall_mem_singleton.mpr hquoted)
    have hquote := hplain _ List.mem_cons_self 34 (by decide +kernel)
    exact absurd rfl hquote.1
  · have hsize := h.promSize (List.cons_ne_nil _ _)
    exact absurd hsize (by decide +kernel)

end CachePilot
