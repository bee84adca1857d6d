import CachePilot.Metrics.Serialize

/-!
# The JSON document of the metrics

What the pieces of the JSON document are as tokens, and what the tokens are as a value.
The name of a zone is the only piece that may not be a string as it stands: where its
bytes are plain, the zone is a member under its name.
-/

namespace CachePilot
open NgxString Print
open Json (Token Value lex_append_some lex_quoted_some Apart Parses ParsesMembers Spelling)

/-! ## Before the zones -/

def int (i : Int64) : Token := .scalar (.number (printInt i))

theorem lex_int (i : Int64) : Json.lex (printInt i) = some [int i] := Json.lex_number i.toInt

theorem lex_num (n : Nat) : Json.lex (printUint n) = some [num n] := Json.lex_decimal _

theorem jsonModes_last (counters : Bool → Nat) : (jsonModes counters).flatten.getLast? = some 125 := by
  have hend : ascii "\x7d" = [125] := rfl
  simp only [jsonModes, List.flatten_cons, List.flatten_nil, List.append_nil, hend,
    ← List.append_assoc]
  exact List.getLast?_concat

theorem lex_jsonModes (counters : Bool → Nat) :
    Json.lex (jsonModes counters).flatten = some (modesTokens (counters false) (counters true)) := by
  simp only [jsonModes, List.flatten_cons, List.flatten_nil, List.append_nil]
  refine lex_append_some rfl ?_ (Apart.of_left rfl rfl _)
  refine lex_append_some (lex_num _) ?_ (Apart.of_right rfl rfl _)
  refine lex_append_some rfl ?_ (Apart.of_left rfl rfl _)
  exact lex_append_some (lex_num _) rfl (Apart.of_right rfl rfl _)

theorem jsonKinds_last (counters : PurgeStats → Bool → Nat) :
    (jsonKinds counters).flatten.getLast? = some 125 := by
  have hend : [ascii "\x7d"].flatten = [125] := rfl
  unfold jsonKinds
  rw [List.flatten_append, hend]
  exact List.getLast?_concat

theorem lex_jsonKinds (counters : PurgeStats → Bool → Nat) :
    Json.lex (jsonKinds counters).flatten = some (kindsTokens counters) := by
  have htokens : kindsTokens counters = [.lbrace, str "exact", .colon] ++
      (modesTokens (counters .exact false) (counters .exact true) ++ ([.comma, str "wildcard", .colon] ++
        (modesTokens (counters .wildcard false) (counters .wildcard true) ++ ([.comma, str "tag", .colon] ++
          (modesTokens (counters .tag false) (counters .tag true) ++ ([.comma, str "all", .colon] ++
            (modesTokens (counters .all false) (counters .all true) ++ [.rbrace]))))))) := by
    simp [kindsTokens]
  have hmodes : ∀ counters rest, Apart (jsonModes counters).flatten rest :=
    fun counters => Apart.of_left (jsonModes_last counters) rfl
  rw [htokens]
  simp only [jsonKinds, List.flatten_append, List.flatten_cons, List.flatten_nil, List.append_nil,
    List.append_assoc]
  refine lex_append_some rfl ?_ (Apart.of_left rfl rfl _)
  refine lex_append_some (lex_jsonModes _) ?_ (hmodes _ _)
  refine lex_append_some rfl ?_ (Apart.of_left rfl rfl _)
  refine lex_append_some (lex_jsonModes _) ?_ (hmodes _ _)
  refine lex_append_some rfl ?_ (Apart.of_left rfl rfl _)
  refine lex_append_some (lex_jsonModes _) ?_ (hmodes _ _)
  refine lex_append_some rfl ?_ (Apart.of_left rfl rfl _)
  exact lex_append_some (lex_jsonModes _) rfl (hmodes _ _)

/-! ## A zone -/

theorem indexState_spelling (state : IndexState) : Spelling state.str state.str := by
  refine .of_all_plain ?_
  cases state <;> rfl

theorem notReadyReason_spelling (reason : NotReadyReason) : Spelling reason.str reason.str := by
  refine .of_all_plain ?_
  cases reason <;> rfl

/-- The `"index"` member of a zone. -/
def indexTokens (s : ZoneSnapshot) : List Token :=
  .lbrace :: str "state" :: .colon :: .scalar (.string s.indexState.str) :: .comma ::
    str "state_code" :: .colon :: num s.indexState.code :: .comma ::
    str "max_size" :: .colon :: int s.indexMaxSize :: .comma ::
    str "last_bootstrap_at" :: .colon :: int s.indexLastBootstrapAt :: .comma ::
    str "last_updated_at" :: .colon :: int s.indexLastUpdatedAt :: .comma ::
    str "backend" :: .colon :: str "shm" ::
    ((match s.indexNotReadyReason with
      | some reason => [.comma, str "not_ready_reason", .colon, .scalar (.string reason.str)]
      | none => []) ++ [.rbrace])

def indexMembers (s : ZoneSnapshot) : List (Bytes × Value) :=
  (ascii "state", .string s.indexState.str) ::
    (ascii "state_code", .number (printUint s.indexState.code)) ::
    (ascii "max_size", .number (printInt s.indexMaxSize)) ::
    (ascii "last_bootstrap_at", .number (printInt s.indexLastBootstrapAt)) ::
    (ascii "last_updated_at", .number (printInt s.indexLastUpdatedAt)) ::
    (ascii "backend", .string (ascii "shm")) ::
    (match s.indexNotReadyReason with
      | some reason => [(ascii "not_ready_reason", .string reason.str)]
      | none => [])

theorem parses_index (s : ZoneSnapshot) : Parses (indexTokens s) (.object (indexMembers s)) := by
  unfold indexTokens indexMembers
  cases s.indexNotReadyReason with
  | none =>
    exact .object (.cons (.scalar _) (.cons (.scalar _) (.cons (.scalar _) (.cons (.scalar _)
      (.cons (.scalar _) (.last (.scalar _) _) _) _) _) _) _)
  | some reason =>
    exact .object (.cons (.scalar _) (.cons (.scalar _) (.cons (.scalar _) (.cons (.scalar _)
      (.cons (.scalar _) (.cons (.scalar _) (.last (.scalar _) _) _) _) _) _) _) _)

theorem lex_jsonIndex (s : ZoneSnapshot) : Json.lex (jsonIndex s).flatten =
    some (.comma :: str "index" :: .colon :: indexTokens s) := by
  have hopen : Json.lex (ascii ",\"index\":\x7b\"state\":") =
    some [.comma, str "index", .colon, .lbrace, str "state", .colon] := rfl
  have hcode : Json.lex (ascii ",\"state_code\":") = some [.comma, str "state_code", .colon] := rfl
  have hmax : Json.lex (ascii ",\"max_size\":") = some [.comma, str "max_size", .colon] := rfl
  have hboot : Json.lex (ascii ",\"last_bootstrap_at\":") =
    some [.comma, str "last_bootstrap_at", .colon] := rfl
  have hupdated : Json.lex (ascii ",\"last_updated_at\":") =
    some [.comma, str "last_updated_at", .colon] := rfl
  have hbackend : Json.lex (ascii ",\"backend\":\"shm\"") =
    some [.comma, str "backend", .colon, str "shm"] := rfl
  have hreason : Json.lex (ascii ",\"not_ready_reason\":") =
    some [.comma, str "not_ready_reason", .colon] := rfl
  have hend : ∀ tail tokens, Json.lex tail = some tokens → Json.lex (ascii ",\"index\":\x7b\"state\":" ++
      34 :: (s.indexState.str ++ 34 :: (ascii ",\"state_code\":" ++ (printUint s.indexState.code ++
        (ascii ",\"max_size\":" ++ (printInt s.indexMaxSize ++ (ascii ",\"last_bootstrap_at\":" ++
          (printInt s.indexLastBootstrapAt ++ (ascii ",\"last_updated_at\":" ++
            (printInt s.indexLastUpdatedAt ++ (ascii ",\"backend\":\"shm\"" ++ tail))))))))))) =
      some ([.comma, str "index", .colon, .lbrace, str "state", .colon] ++
        .scalar (.string s.indexState.str) :: ([.comma, str "state_code", .colon] ++
          ([num s.indexState.code] ++ ([.comma, str "max_size", .colon] ++ ([int s.indexMaxSize] ++
            ([.comma, str "last_bootstrap_at", .colon] ++ ([int s.indexLastBootstrapAt] ++
              ([.comma, str "last_updated_at", .colon] ++ ([int s.indexLastUpdatedAt] ++
                ([.comma, str "backend", .colon, str "shm"] ++ tokens)))))))))) := by
    intro tail tokens htail
    refine lex_append_some hopen ?_ (Apart.of_left rfl rfl _)
    refine lex_quoted_some (indexState_spelling s.indexState) ?_
    refine lex_append_some hcode ?_ (Apart.of_left rfl rfl _)
    refine lex_append_some (lex_num _) ?_ (Apart.of_right rfl rfl _)
    refine lex_append_some hmax ?_ (Apart.of_left rfl rfl _)
    refine lex_append_some (lex_int _) ?_ (Apart.of_right rfl rfl _)
    refine lex_append_some hboot ?_ (Apart.of_left rfl rfl _)
    refine lex_append_some (lex_int _) ?_ (Apart.of_right rfl rfl _)
    refine lex_append_some hupdated ?_ (Apart.of_left rfl rfl _)
    refine lex_append_some (lex_int _) ?_ (Apart.of_right rfl rfl _)
    exact lex_append_some hbackend htail (Apart.of_left rfl rfl _)
  unfold jsonIndex indexTokens
  simp only [List.flatten_append, List.flatten_cons, List.flatten_nil, List.append_nil,
    List.append_assoc]
  refine (hend _ _ ?_).trans rfl
  cases s.indexNotReadyReason with
  | none => rfl
  | some reason =>
    simp only [List.flatten_cons, List.flatten_nil, List.append_nil, List.append_assoc]
    show Json.lex (ascii ",\"not_ready_reason\":" ++ 34 :: (reason.str ++ 34 :: ascii "\x7d")) =
      some ([.comma, str "not_ready_reason", .colon] ++ .scalar (.string reason.str) :: [.rbrace])
    refine lex_append_some hreason ?_ (Apart.of_left rfl rfl _)
    exact lex_quoted_some (notReadyReason_spelling reason) rfl

theorem lex_coldStr (s : ZoneSnapshot) :
    Json.lex s.coldStr = some [.scalar (.bool (s.cold ≠ 0))] := by
  unfold ZoneSnapshot.coldStr
  split
  · next h =>
    rw [decide_eq_true h]
    rfl
  · next h =>
    rw [decide_eq_false h]
    rfl

def entriesTokens (s : ZoneSnapshot) : List Token :=
  [.lbrace, str "total", .colon, num (s.entriesValid + s.entriesExpired + s.entriesUpdating).toNat,
    .comma, str "valid", .colon, num s.entriesValid.toNat, .comma, str "expired", .colon,
    num s.entriesExpired.toNat, .comma, str "updating", .colon, num s.entriesUpdating.toNat, .rbrace]

def entriesMembers (s : ZoneSnapshot) : List (Bytes × Value) :=
  [(ascii "total", .number (printUint (s.entriesValid + s.entriesExpired + s.entriesUpdating).toNat)),
    (ascii "valid", .number (printUint s.entriesValid.toNat)),
    (ascii "expired", .number (printUint s.entriesExpired.toNat)),
    (ascii "updating", .number (printUint s.entriesUpdating.toNat))]

theorem parses_entries (s : ZoneSnapshot) : Parses (entriesTokens s) (.object (entriesMembers s)) :=
  .object (.cons (.scalar _) (.cons (.scalar _) (.cons (.scalar _) (.last (.scalar _) _) _) _) _)

/-- What stands under the name of a zone. -/
def zoneTokens (s : ZoneSnapshot) : List Token :=
  .lbrace :: str "size" :: .colon :: int s.size :: .comma :: str "max_size" :: .colon ::
    int s.maxSize :: .comma :: str "cold" :: .colon :: .scalar (.bool (s.cold ≠ 0)) :: .comma ::
    str "entries" :: .colon :: (entriesTokens s ++
      ((if s.hasIndex then .comma :: str "index" :: .colon :: indexTokens s else []) ++ [.rbrace]))

def zoneMembers (s : ZoneSnapshot) : List (Bytes × Value) :=
  (ascii "size", .number (printInt s.size)) :: (ascii "max_size", .number (printInt s.maxSize)) ::
    (ascii "cold", .bool (s.cold ≠ 0)) :: (ascii "entries", .object (entriesMembers s)) ::
    if s.hasIndex then [(ascii "index", .object (indexMembers s))] else []

theorem parses_zone (s : ZoneSnapshot) : Parses (zoneTokens s) (.object (zoneMembers s)) := by
  unfold zoneTokens zoneMembers
  cases s.hasIndex with
  | false =>
    exact .object (.cons (.scalar _) (.cons (.scalar _) (.cons (.scalar _)
      (.last (parses_entries s) _) _) _) _)
  | true =>
    exact .object (.cons (.scalar _) (.cons (.scalar _) (.cons (.scalar _)
      (.cons (parses_entries s) (.last (parses_index s) _) _) _) _) _)

/-- What is printed of a zone behind its name. -/
def jsonZoneRest (s : ZoneSnapshot) : Bytes :=
  ascii ":\x7b\"size\":" ++ (printInt s.size ++ (ascii ",\"max_size\":" ++ (printInt s.maxSize ++
    (ascii ",\"cold\":" ++ (s.coldStr ++ (ascii ",\"entries\":\x7b\"total\":" ++
      (printUint (s.entriesValid + s.entriesExpired + s.entriesUpdating).toNat ++ (ascii ",\"valid\":" ++
        (printUint s.entriesValid.toNat ++ (ascii ",\"expired\":" ++ (printUint s.entriesExpired.toNat ++
          (ascii ",\"updating\":" ++ (printUint s.entriesUpdating.toNat ++ (ascii "\x7d" ++
            ((if s.hasIndex then jsonIndex s else []).flatten ++ ascii "\x7d")))))))))))))))

theorem jsonZone_flatten (s : ZoneSnapshot) :
    (jsonZone s).flatten = 34 :: (s.name ++ 34 :: jsonZoneRest s) := by
  have hopen : ascii "\"" = [34] := rfl
  have hsize : ascii "\":\x7b\"size\":" = 34 :: ascii ":\x7b\"size\":" := rfl
  unfold jsonZone jsonZoneRest
  simp only [List.flatten_append, List.flatten_cons, List.flatten_nil, List.append_nil, hopen, hsize,
    List.cons_append, List.nil_append]

theorem lex_jsonZoneRest (s : ZoneSnapshot) :
    Json.lex (jsonZoneRest s) = some (.colon :: zoneTokens s) := by
  have hsize : Json.lex (ascii ":\x7b\"size\":") = some [.colon, .lbrace, str "size", .colon] := rfl
  have hmax : Json.lex (ascii ",\"max_size\":") = some [.comma, str "max_size", .colon] := rfl
  have hcold : Json.lex (ascii ",\"cold\":") = some [.comma, str "cold", .colon] := rfl
  have hentries : Json.lex (ascii ",\"entries\":\x7b\"total\":") =
    some [.comma, str "entries", .colon, .lbrace, str "total", .colon] := rfl
  have hvalid : Json.lex (ascii ",\"valid\":") = some [.comma, str "valid", .colon] := rfl
  have hexpired : Json.lex (ascii ",\"expired\":") = some [.comma, str "expired", .colon] := rfl
  have hupdating : Json.lex (ascii ",\"updating\":") = some [.comma, str "updating", .colon] := rfl
  have htokens : .colon :: zoneTokens s = [.colon, .lbrace, str "size", .colon] ++ ([int s.size] ++
      ([.comma, str "max_size", .colon] ++ ([int s.maxSize] ++ ([.comma, str "cold", .colon] ++
        ([.scalar (.bool (s.cold ≠ 0))] ++ ([.comma, str "entries", .colon, .lbrace, str "total", .colon] ++
          ([num (s.entriesValid + s.entriesExpired + s.entriesUpdating).toNat] ++
            ([.comma, str "valid", .colon] ++ ([num s.entriesValid.toNat] ++
              ([.comma, str "expired", .colon] ++ ([num s.entriesExpired.toNat] ++
                ([.comma, str "updating", .colon] ++ ([num s.entriesUpdating.toNat] ++ ([.rbrace] ++
                  ((if s.hasIndex then .comma :: str "index" :: .colon :: indexTokens s else []) ++
                    [.rbrace]))))))))))))))) := rfl
  have hindex : Json.lex (ascii "\x7d" ++ ((if s.hasIndex then jsonIndex s else []).flatten ++
      ascii "\x7d")) = some ([.rbrace] ++
        ((if s.hasIndex then .comma :: str "index" :: .colon :: indexTokens s else []) ++ [.rbrace])) := by
    refine lex_append_some rfl ?_ (Apart.of_left rfl rfl _)
    split
    · exact lex_append_some (lex_jsonIndex s) rfl (Apart.of_right rfl rfl _)
    · rfl
  rw [htokens]
  unfold jsonZoneRest
  refine lex_append_some hsize ?_ (Apart.of_left rfl rfl _)
  refine lex_append_some (lex_int _) ?_ (Apart.of_right rfl rfl _)
  refine lex_append_some hmax ?_ (Apart.of_left rfl rfl _)
  refine lex_append_some (lex_int _) ?_ (Apart.of_right rfl rfl _)
  refine lex_append_some hcold ?_ (Apart.of_left rfl rfl _)
  refine lex_append_some (lex_coldStr s) ?_ (Apart.of_right rfl rfl _)
  refine lex_append_some hentries ?_ (Apart.of_left rfl rfl _)
  refine lex_append_some (lex_num _) ?_ (Apart.of_right rfl rfl _)
  refine lex_append_some hvalid ?_ (Apart.of_left rfl rfl _)
  refine lex_append_some (lex_num _) ?_ (Apart.of_right rfl rfl _)
  refine lex_append_some hexpired ?_ (Apart.of_left rfl rfl _)
  refine lex_append_some (lex_num _) ?_ (Apart.of_right rfl rfl _)
  refine lex_append_some hupdating ?_ (Apart.of_left rfl rfl _)
  exact lex_append_some (lex_num _) hindex (Apart.of_right rfl rfl _)

end CachePilot
