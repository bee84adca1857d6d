import CachePilot.Lib.JsonPieces
import CachePilot.Purge.Idempotent

/-!
# The response to a purge

The body that `ngx_http_cache_pilot_send_response` prints: the first part of the cache key,
escaped, the way that the purge took, and what the request purged of each kind in each
mode. The buffer has room for two counters of full length, and no request counts more
than that (`Tallied`).

Results:
* `response_body_faithful`: whatever the key is and whatever a request has counted, the
  body is complete, and read as JSON it gives back the key.
-/

namespace CachePilot
open NgxString Print

/-! ## The body -/

/-- `ngx_http_cache_pilot_json_escaped_len`. -/
def jsonEscapedLen (value : Bytes) : Nat :=
  value.foldl
    (fun len ch => if ch = 34 ∨ ch = 92 then len + 1 else if ch < 0x20 then len + 5 else len)
    value.length

/-- `hex`. -/
def jsonHex (n : UInt8) : UInt8 := (ascii "0123456789abcdef").getD n.toNat 0

/-- What is written for one byte of the key. -/
def escapeByte (ch : UInt8) : Bytes :=
  if ch = 34 ∨ ch = 92 then [92, ch]
  else if ch < 0x20 then [92, 117, 48, 48, jsonHex (ch >>> 4), jsonHex (ch &&& 0x0f)]
  else [ch]

/-- `ngx_http_cache_pilot_json_escape`. -/
def jsonEscape (value : Bytes) : Bytes := value.foldl (fun dst ch => dst ++ escapeByte ch) []

/-- `ngx_http_cache_pilot_response_path_value`. -/
def responsePathValue : PurgePath → Bytes
  | .unset => []
  | .exactKeyFanout => ascii "exact-key-fanout"
  | .wildcardIndex => ascii "key-prefix-index"
  | .filesystemFallback => ascii "filesystem-fallback"
  | .reusedPersistedIndex => ascii "reused-persisted-index"

/-- `%ui`. -/
def printUint (n : Nat) : Bytes := decimal (n % 2 ^ 64)

/-- The two counters of one kind. -/
def modesTempl (hard soft : Nat) : List Bytes :=
  [ascii "\x7b\"hard\": ", printUint hard, ascii ", \"soft\": ", printUint soft, ascii "\x7d"]

/-- The end of the template, from its counters on. -/
def purgedTempl (purged : PurgeStats → Bool → Nat) : List Bytes :=
  [ascii "\"purged\": \x7b\"exact\": "] ++ modesTempl (purged .exact false) (purged .exact true) ++
    [ascii ", \"wildcard\": "] ++ modesTempl (purged .wildcard false) (purged .wildcard true) ++
    [ascii ", \"tag\": "] ++ modesTempl (purged .tag false) (purged .tag true) ++
    [ascii ", \"all\": "] ++ modesTempl (purged .all false) (purged .all true) ++
    [ascii "\x7d\x7d\x7d"]

/-- The JSON template; `%s` prints its argument up to the first NUL. -/
def bodyTemplJson (keydata path : Bytes) (purged : PurgeStats → Bool → Nat) : List Bytes :=
  [ascii "\x7b\"key\": \"", cstr keydata, ascii "\", \"cache_pilot\": \x7b"] ++
    (if 0 < path.length then [ascii "\"purge_path\": \"", path, ascii "\", "] else []) ++
    purgedTempl purged

/-- `ngx_http_cache_pilot_body_templ_text`. -/
def bodyTemplText (keydata : Bytes) : List Bytes := [ascii "Key:", cstr keydata, [10]]

/-- `ngx_http_cache_pilot_body_templ_text_size`, with its NUL. -/
def bodyTemplTextSize : Nat := (ascii "Key:%s\n").length + 1

/-- The body that `ngx_http_cache_pilot_send_response` prints for the key part `key`. -/
def responseBody (resptype : ResponseType) (key : Bytes) (path : PurgePath)
    (purged : PurgeStats → Bool → Nat) : Bytes :=
  let path := responsePathValue path
  match resptype with
  | .text => putAll (bodyTemplTextSize + key.length + path.length + 256 + 1) [] (bodyTemplText key)
  | .json =>
    let escaped := jsonEscape key
    putAll (bodyTemplTextSize + escaped.length + path.length + 256 + 1) []
      (bodyTemplJson escaped path purged)

/-! ## The key -/

theorem jsonEscape_flatMap (value : Bytes) : jsonEscape value = value.flatMap escapeByte := by
  have hfold : ∀ dst : Bytes,
      value.foldl (fun dst ch => dst ++ escapeByte ch) dst = dst ++ value.flatMap escapeByte := by
    induction value with
    | nil => exact fun dst => (List.append_nil dst).symm
    | cons ch value ih =>
      intro dst
      rw [List.foldl_cons, ih, List.flatMap_cons, List.append_assoc]
  exact hfold []

/-- Exactly as many bytes are written as were counted. -/
theorem jsonEscape_length (value : Bytes) : (jsonEscape value).length = jsonEscapedLen value := by
  have hfold : ∀ n, value.foldl
      (fun len ch => if ch = 34 ∨ ch = 92 then len + 1 else if ch < 0x20 then len + 5 else len)
      (value.length + n) = (value.flatMap escapeByte).length + n := by
    induction value with
    | nil => exact fun n => rfl
    | cons ch value ih =>
      intro n
      have hlen : (escapeByte ch).length =
          1 + if ch = 34 ∨ ch = 92 then 1 else if ch < 0x20 then 5 else 0 := by
        unfold escapeByte
        split
        · rfl
        · split
          · rfl
          · rfl
      rw [List.foldl_cons, List.flatMap_cons, List.length_append, List.length_cons, hlen]
      split
      · rw [show value.length + 1 + n + 1 = value.length + (n + 2) by omega, ih]
        omega
      · split
        · rw [show value.length + 1 + n + 5 = value.length + (n + 6) by omega, ih]
          omega
        · rw [show value.length + 1 + n = value.length + (n + 1) by omega, ih]
          omega
  rw [jsonEscape_flatMap]
  exact (hfold 0).symm

/-- The two digits of a control byte. -/
theorem jsonHex_value : ∀ k < 32,
    Json.hexValue (jsonHex (UInt8.ofNat k >>> 4)) = some (k / 16) ∧
      Json.hexValue (jsonHex (UInt8.ofNat k &&& 0x0f)) = some (k % 16) ∧
      jsonHex (UInt8.ofNat k >>> 4) ≠ 34 ∧ jsonHex (UInt8.ofNat k &&& 0x0f) ≠ 34 := by
  decide

theorem readChar_control {k : Nat} (hk : k < 32) (u : Bytes) :
    Json.readChar (92 :: 117 :: 48 :: 48 :: jsonHex (UInt8.ofNat k >>> 4) ::
      jsonHex (UInt8.ofNat k &&& 0x0f) :: u) = some ([UInt8.ofNat k], u) := by
  obtain ⟨hhigh, hlow, -⟩ := jsonHex_value k hk
  have hzero : Json.hexValue 48 = some 0 := by decide
  have hvalue : ((0 * 16 + 0) * 16 + k / 16) * 16 + k % 16 = k := by omega
  show Json.readUnicode (48 :: 48 :: jsonHex (UInt8.ofNat k >>> 4) ::
    jsonHex (UInt8.ofNat k &&& 0x0f) :: u) = _
  unfold Json.readUnicode Json.hex4
  simp only [hzero, hhigh, hlow, hvalue]
  rw [if_pos (Or.inl (by omega))]
  unfold Json.utf8
  rw [if_pos (by omega)]

/-- What is written for a byte spells that byte. -/
theorem escapeByte_spelling (ch : UInt8) {raw s : Bytes} (h : Json.Spelling raw s) :
    Json.Spelling (escapeByte ch ++ raw) (ch :: s) := by
  unfold escapeByte
  split
  · next hq =>
    refine .escape [] [ch] (fun u => ?_) List.not_mem_nil (Nat.le_refl 2) h
    rcases hq with rfl | rfl
    · rfl
    · rfl
  · next hq =>
    split
    · next hlt =>
      obtain ⟨k, hk, rfl⟩ : ∃ k, k < 32 ∧ ch = UInt8.ofNat k :=
        ⟨ch.toNat, UInt8.lt_iff_toNat_lt.mp hlt, UInt8.ofNat_toNat.symm⟩
      obtain ⟨-, -, hhigh, hlow⟩ := jsonHex_value k hk
      refine .escape [48, 48, _, _] [_] (readChar_control hk) ?_ ?_ h
      · simp [hhigh.symm, hlow.symm]
      · exact Nat.le_of_ble_eq_true rfl
    · next hlt =>
      refine .plain ⟨fun h0 => hq (Or.inl h0), fun h0 => hq (Or.inr h0), ?_⟩ h
      exact UInt8.not_lt.mp hlt

theorem jsonEscape_spelling (key : Bytes) : Json.Spelling (jsonEscape key) key := by
  rw [jsonEscape_flatMap]
  induction key with
  | nil => exact .nil
  | cons ch key ih => exact escapeByte_spelling ch ih

/-- The escaped key has no NUL, so that all of it is printed. -/
theorem jsonEscape_nulFree (key : Bytes) : (0 : UInt8) ∉ jsonEscape key := by
  rw [jsonEscape_flatMap]
  intro h
  obtain ⟨ch, -, hch⟩ := List.mem_flatMap.mp h
  unfold escapeByte at hch
  split at hch
  · next hq => rcases hq with rfl | rfl <;> exact absurd hch (by decide)
  · split at hch
    · next hlt =>
      have hdigits : ∀ k < 32, (0 : UInt8) ∉ [92, 117, 48, 48, jsonHex (UInt8.ofNat k >>> 4),
        jsonHex (UInt8.ofNat k &&& 0x0f)] := by decide
      have hno := hdigits ch.toNat (UInt8.lt_iff_toNat_lt.mp hlt)
      rw [UInt8.ofNat_toNat] at hno
      exact hno hch
    · next hlt =>
      rw [List.mem_singleton] at hch
      subst hch
      exact hlt (by decide)

/-! ## The length of the body -/

/-- Counters of which two at most are not zero. -/
def Tallied (purged : PurgeStats → Bool → Nat) : Prop :=
  ∃ first second : PurgeStats × Bool, ∀ type soft, purged type soft ≠ 0 →
    (type, soft) = first ∨ (type, soft) = second

/-- A 64-bit number has 20 digits at most. -/
theorem printUint_length (n : Nat) : (printUint n).length ≤ 20 := by
  unfold printUint
  rw [decimal_length]
  refine digitCount_le (by decide) (Nat.lt_of_lt_of_le (Nat.mod_lt _ (by decide)) (by decide))

/-- How much longer a counter is than a zero. -/
theorem printUint_tallied {purged : PurgeStats → Bool → Nat} {first second : PurgeStats × Bool}
    (h : ∀ type soft, purged type soft ≠ 0 → (type, soft) = first ∨ (type, soft) = second)
    (type : PurgeStats) (soft : Bool) : (printUint (purged type soft)).length ≤
      1 + (if (type, soft) = first then 19 else 0) + (if (type, soft) = second then 19 else 0) := by
  rcases Nat.eq_zero_or_pos (purged type soft) with hzero | hpos
  · rw [hzero]
    exact Nat.le_trans (Nat.le_add_right 1 _) (Nat.le_add_right _ _)
  · have hlen := printUint_length (purged type soft)
    rcases h type soft (Nat.ne_of_gt hpos) with he | he
    · rw [if_pos he]
      omega
    · rw [if_pos he]
      omega

/-- Each counter is printed once. -/
theorem sum_entries (e : PurgeStats × Bool) :
    (if (.exact, false) = e then 19 else 0) + (if (.exact, true) = e then 19 else 0) +
      (if (.wildcard, false) = e then 19 else 0) + (if (.wildcard, true) = e then 19 else 0) +
      (if (.tag, false) = e then 19 else 0) + (if (.tag, true) = e then 19 else 0) +
      (if (.all, false) = e then 19 else 0) + (if (.all, true) = e then 19 else 0) = 19 := by
  obtain ⟨type, soft⟩ := e
  cases type <;> cases soft <;> rfl

theorem modesTempl_length (hard soft : Nat) : (modesTempl hard soft).flatten.length =
    20 + (printUint hard).length + (printUint soft).length := by
  have hhard : (ascii "\x7b\"hard\": ").length = 9 := rfl
  have hsoft : (ascii ", \"soft\": ").length = 10 := rfl
  have hend : (ascii "\x7d").length = 1 := rfl
  simp only [modesTempl, List.flatten_cons, List.flatten_nil, List.append_nil, List.length_append,
    hhard, hsoft, hend]
  omega

theorem purgedTempl_length {purged : PurgeStats → Bool → Nat} (h : Tallied purged) :
    (purgedTempl purged).flatten.length ≤ 182 := by
  obtain ⟨first, second, h⟩ := h
  have hlen : ∀ type soft, _ := printUint_tallied h
  have hfirst := sum_entries first
  have hsecond := sum_entries second
  have hef := hlen .exact false
  have het := hlen .exact true
  have hwf := hlen .wildcard false
  have hwt := hlen .wildcard true
  have htf := hlen .tag false
  have htt := hlen .tag true
  have haf := hlen .all false
  have hat := hlen .all true
  have hexact : (ascii "\"purged\": \x7b\"exact\": ").length = 20 := rfl
  have hwildcard : (ascii ", \"wildcard\": ").length = 14 := rfl
  have htag : (ascii ", \"tag\": ").length = 9 := rfl
  have hall : (ascii ", \"all\": ").length = 9 := rfl
  have hend : (ascii "\x7d\x7d\x7d").length = 3 := rfl
  simp only [purgedTempl, List.flatten_append, List.length_append, modesTempl_length,
    List.flatten_singleton, hexact, hwildcard, htag, hall, hend]
  omega

/-- The pieces of the body fit in its buffer. -/
theorem bodyTemplJson_length {purged : PurgeStats → Bool → Nat} (h : Tallied purged) (key path : Bytes) :
    (bodyTemplJson (jsonEscape key) path purged).flatten.length ≤
      bodyTemplTextSize + (jsonEscape key).length + path.length + 256 + 1 := by
  have hpurged := purgedTempl_length h
  have hkey := cstr_of_nulFree (jsonEscape_nulFree key)
  have hsize : bodyTemplTextSize = 8 := rfl
  have hopen : (ascii "\x7b\"key\": \"").length = 9 := rfl
  have hpilot : (ascii "\", \"cache_pilot\": \x7b").length = 19 := rfl
  have hname : (ascii "\"purge_path\": \"").length = 15 := rfl
  have hend : (ascii "\", ").length = 3 := rfl
  unfold bodyTemplJson
  rw [hsize, hkey]
  split
  · simp only [List.flatten_append, List.length_append, List.flatten_cons, List.flatten_nil,
      List.append_nil, hopen, hpilot, hname, hend]
    omega
  · simp only [List.flatten_append, List.length_append, List.flatten_cons, List.flatten_nil,
      List.append_nil, hopen, hpilot]
    omega

/-! ## The body read as JSON -/

open Json (Token Value lex_append_some Apart Parses ParsesMembers)

/-- A string and a number as tokens. -/
def str (s : String) : Token := .scalar (.string (ascii s))
def num (n : Nat) : Token := .scalar (.number (printUint n))

def modesTokens (hard soft : Nat) : List Token :=
  [.lbrace, str "hard", .colon] ++
    ([num hard] ++ ([.comma, str "soft", .colon] ++ ([num soft] ++ [.rbrace])))

def modesValue (hard soft : Nat) : Value :=
  .object [(ascii "hard", .number (printUint hard)), (ascii "soft", .number (printUint soft))]

theorem lex_modes (hard soft : Nat) :
    Json.lex (modesTempl hard soft).flatten = some (modesTokens hard soft) := by
  simp only [modesTempl, List.flatten_cons, List.flatten_nil, List.append_nil]
  refine lex_append_some rfl ?_ (Apart.of_left rfl rfl _)
  refine lex_append_some (Json.lex_decimal _) ?_ (Apart.of_right rfl rfl _)
  refine lex_append_some rfl ?_ (Apart.of_left rfl rfl _)
  refine lex_append_some (Json.lex_decimal _) ?_ (Apart.of_right rfl rfl _)
  rfl

theorem parses_modes (hard soft : Nat) : Parses (modesTokens hard soft) (modesValue hard soft) :=
  .object (.cons (.scalar _) (.last (.scalar _) _) _)

theorem modesTempl_last (hard soft : Nat) : (modesTempl hard soft).flatten.getLast? = some 125 := by
  have hend : ascii "\x7d" = [125] := rfl
  simp only [modesTempl, List.flatten_cons, List.flatten_nil, List.append_nil, hend,
    ← List.append_assoc]
  exact List.getLast?_concat

/-- The counters by kind. -/
def kindsTokens (purged : PurgeStats → Bool → Nat) : List Token :=
  .lbrace :: str "exact" :: .colon :: (modesTokens (purged .exact false) (purged .exact true) ++
    .comma :: str "wildcard" :: .colon :: (modesTokens (purged .wildcard false) (purged .wildcard true) ++
      .comma :: str "tag" :: .colon :: (modesTokens (purged .tag false) (purged .tag true) ++
        .comma :: str "all" :: .colon :: (modesTokens (purged .all false) (purged .all true) ++
          [.rbrace]))))

def kindsValue (purged : PurgeStats → Bool → Nat) : Value :=
  .object [(ascii "exact", modesValue (purged .exact false) (purged .exact true)),
    (ascii "wildcard", modesValue (purged .wildcard false) (purged .wildcard true)),
    (ascii "tag", modesValue (purged .tag false) (purged .tag true)),
    (ascii "all", modesValue (purged .all false) (purged .all true))]

theorem parses_kinds (purged : PurgeStats → Bool → Nat) :
    Parses (kindsTokens purged) (kindsValue purged) :=
  .object (.cons (parses_modes _ _) (.cons (parses_modes _ _) (.cons (parses_modes _ _)
    (.last (parses_modes _ _) _) _) _) _)

theorem lex_purged (purged : PurgeStats → Bool → Nat) : Json.lex (purgedTempl purged).flatten =
    some (str "purged" :: .colon :: (kindsTokens purged ++ [.rbrace, .rbrace])) := by
  have htokens : str "purged" :: .colon :: (kindsTokens purged ++ [.rbrace, .rbrace]) =
      [str "purged", .colon, .lbrace, str "exact", .colon] ++
        (modesTokens (purged .exact false) (purged .exact true) ++ ([.comma, str "wildcard", .colon] ++
          (modesTokens (purged .wildcard false) (purged .wildcard true) ++ ([.comma, str "tag", .colon] ++
            (modesTokens (purged .tag false) (purged .tag true) ++ ([.comma, str "all", .colon] ++
              (modesTokens (purged .all false) (purged .all true) ++
                [.rbrace, .rbrace, .rbrace]))))))) := by
    simp [kindsTokens]
  rw [htokens]
  simp only [purgedTempl, List.flatten_append, List.flatten_cons, List.flatten_nil, List.append_nil,
    List.append_assoc]
  have hmodes : ∀ hard soft rest, Apart (modesTempl hard soft).flatten rest :=
    fun hard soft => Apart.of_left (modesTempl_last hard soft) rfl
  refine lex_append_some rfl ?_ (Apart.of_left rfl rfl _)
  refine lex_append_some (lex_modes _ _) ?_ (hmodes _ _ _)
  refine lex_append_some rfl ?_ (Apart.of_left rfl rfl _)
  refine lex_append_some (lex_modes _ _) ?_ (hmodes _ _ _)
  refine lex_append_some rfl ?_ (Apart.of_left rfl rfl _)
  refine lex_append_some (lex_modes _ _) ?_ (hmodes _ _ _)
  refine lex_append_some rfl ?_ (Apart.of_left rfl rfl _)
  refine lex_append_some (lex_modes _ _) ?_ (hmodes _ _ _)
  rfl

/-- The way of the purge needs no escapes. -/
theorem responsePathValue_spelling (path : PurgePath) :
    Json.Spelling (responsePathValue path) (responsePathValue path) := by
  refine .of_all_plain ?_
  cases path <;> rfl

/-- The members of `"cache_pilot"`. -/
def pilotTokens (path : Bytes) (purged : PurgeStats → Bool → Nat) : List Token :=
  (if 0 < path.length then str "purge_path" :: .colon :: [.scalar (.string path), .comma] else []) ++
    str "purged" :: .colon :: (kindsTokens purged ++ [.rbrace])

def pilotMembers (path : Bytes) (purged : PurgeStats → Bool → Nat) : List (Bytes × Value) :=
  (if 0 < path.length then [(ascii "purge_path", .string path)] else []) ++
    [(ascii "purged", kindsValue purged)]

theorem parses_pilot (path : Bytes) (purged : PurgeStats → Bool → Nat) :
    ParsesMembers (pilotTokens path purged) (pilotMembers path purged) := by
  have hpurged := ParsesMembers.last (parses_kinds purged) (ascii "purged")
  unfold pilotTokens pilotMembers
  split
  · exact .cons (.scalar _) hpurged _
  · exact hpurged

def bodyTokens (key path : Bytes) (purged : PurgeStats → Bool → Nat) : List Token :=
  .lbrace :: str "key" :: .colon :: .scalar (.string key) :: .comma :: str "cache_pilot" :: .colon ::
    (.lbrace :: pilotTokens path purged ++ [.rbrace])

def bodyValue (key path : Bytes) (purged : PurgeStats → Bool → Nat) : Value :=
  .object [(ascii "key", .string key), (ascii "cache_pilot", .object (pilotMembers path purged))]

theorem parses_body (key path : Bytes) (purged : PurgeStats → Bool → Nat) :
    Parses (bodyTokens key path purged) (bodyValue key path purged) :=
  .object (.cons (.scalar _) (.last (.object (parses_pilot path purged)) _) _)

theorem lex_body (key : Bytes) (path : PurgePath) (purged : PurgeStats → Bool → Nat) :
    Json.lex (bodyTemplJson (jsonEscape key) (responsePathValue path) purged).flatten =
      some (bodyTokens key (responsePathValue path) purged) := by
  have hpath := responsePathValue_spelling path
  generalize responsePathValue path = path at hpath
  have hkey : cstr (jsonEscape key) = jsonEscape key := cstr_of_nulFree (jsonEscape_nulFree key)
  have hopen : Json.lex (ascii "\x7b\"key\": ") = some [.lbrace, str "key", .colon] := rfl
  have hpilot : Json.lex (ascii ", \"cache_pilot\": \x7b") =
    some [.comma, str "cache_pilot", .colon, .lbrace] := rfl
  have hname : Json.lex (ascii "\"purge_path\": ") = some [str "purge_path", .colon] := rfl
  have hcomma : Json.lex (ascii ", ") = some [.comma] := rfl
  have hpurged := lex_purged purged
  unfold bodyTemplJson bodyTokens pilotTokens
  rw [hkey]
  simp only [List.flatten_append, List.flatten_cons, List.flatten_nil, List.append_nil,
    List.append_assoc]
  -- the quotes around the key and around the way belong to the pieces of the template
  show Json.lex (ascii "\x7b\"key\": " ++ 34 :: (jsonEscape key ++ 34 ::
    (ascii ", \"cache_pilot\": \x7b" ++ _))) = _
  rw [Json.lex_append hopen (Apart.of_left rfl rfl _), Json.lex_quoted (jsonEscape_spelling key),
    Json.lex_append hpilot (Apart.of_left rfl rfl _)]
  split
  · have hrest : Json.lex (ascii "\"purge_path\": " ++ 34 :: (path ++ 34 ::
        (ascii ", " ++ (purgedTempl purged).flatten))) =
        some (str "purge_path" :: .colon :: .scalar (.string path) :: .comma :: str "purged" :: .colon ::
          (kindsTokens purged ++ [.rbrace, .rbrace])) := by
      rw [Json.lex_append hname (Apart.of_left rfl rfl _), Json.lex_quoted hpath,
        Json.lex_append hcomma (Apart.of_left rfl rfl _), hpurged]
      rfl
    have hflat : [ascii "\"purge_path\": \"", path, ascii "\", "].flatten ++
        (purgedTempl purged).flatten = ascii "\"purge_path\": " ++ 34 :: (path ++ 34 ::
          (ascii ", " ++ (purgedTempl purged).flatten)) := by
      have hopen : ascii "\"purge_path\": \"" = ascii "\"purge_path\": " ++ [34] := rfl
      have hend : ascii "\", " = 34 :: ascii ", " := rfl
      simp only [List.flatten_cons, List.flatten_nil, List.append_nil, List.append_assoc,
        List.cons_append, List.nil_append, hopen, hend]
    rw [hflat, hrest]
    simp
  · rw [List.flatten_nil, List.nil_append, hpurged]
    simp

/-! ## What one request counts -/

namespace Pilot

/-- Of what is reported, only the counter of this kind and mode is another. -/
def CountsOnly (type : PurgeStats) (soft : Bool) (s s' : Pilot) : Prop :=
  ∀ t b, (t, b) ≠ (type, soft) → s'.reported t b = s.reported t b

theorem CountsOnly.of_eq {type : PurgeStats} {soft : Bool} {s s' : Pilot}
    (h : s'.reported = s.reported) : s.CountsOnly type soft s' :=
  fun t b _ => congrFun (congrFun h t) b

theorem CountsOnly.trans {type : PurgeStats} {soft : Bool} {s s' s'' : Pilot}
    (h : s.CountsOnly type soft s') (h' : s'.CountsOnly type soft s'') : s.CountsOnly type soft s'' :=
  fun t b hne => (h' t b hne).trans (h t b hne)

theorem reported_of_report {s s' : Pilot} (h : s'.report = s.report) : s'.reported = s.reported :=
  congrArg (fun report => report.2.1) h

theorem recordPurge_countsOnly (pool : PurgePool) (type : PurgeStats) (soft : Bool) (count : Nat)
    (s : Pilot) : s.CountsOnly type soft (s.recordPurge pool type soft count) := by
  intro t b hne
  have hadd : ∀ counters : PurgeStats → Bool → Nat, addTo counters type soft count t b = counters t b :=
    fun counters => if_neg fun h => hne (Prod.ext h.1 h.2)
  obtain ⟨cache, shm, metrics, ctx⟩ := s
  unfold recordPurge
  split
  · rfl
  · cases ctx with
    | some ctx => exact hadd ctx.purged
    | none =>
      unfold withCtx
      cases pool.ctx with
      | true => exact hadd fun _ _ => 0
      | false => rfl

end Pilot

open Pilot (CountsOnly)

variable {N : Nginx} {L : HeaderLayout} {access : IndexAccess} {call : PurgeCall} {r : PurgeRequest}
  {s : Pilot}

theorem purgePaths_reported {one : Nat → Bytes → Pilot → NgxRc × Pilot}
    (hone : ∀ k path s, (one k path s).2.report = s.report) (paths : List Bytes) (s : Pilot) :
    (purgePaths one 0 paths 0 s).2.2.reported = s.reported :=
  Pilot.reported_of_report (purgePaths_keeps Pilot.report hone 0 paths 0 s)

theorem indexPurge_countsOnly (tags : List Bytes) :
    s.CountsOnly .tag r.soft (indexPurge N L access r tags s).2 := by
  unfold indexPurge
  split
  · exact .of_eq (Pilot.reported_of_report (s.setDeclineReason_report r.pool _))
  · split
    · exact .of_eq (Pilot.reported_of_report (s.setDeclineReason_report r.pool _))
    · next zoneName _ =>
      split
      · exact .of_eq (Pilot.reported_of_report (s.setDeclineReason_report r.pool _))
      · split
        · exact .of_eq (Pilot.reported_of_report (s.setDeclineReason_report r.pool _))
        · split
          · exact .of_eq rfl
          · next paths _ =>
            have hloop := purgePaths_reported
              (fun k path s => purgeTagged_report N L (r.calls k) r.now zoneName r.soft path s) paths s
            split
            · next hrun =>
              rw [hrun] at hloop
              split
              · exact (CountsOnly.of_eq hloop).trans ((Pilot.recordPurge_countsOnly _ _ _ _ _).trans
                  (.of_eq (Pilot.setResponsePath_reported _ _ _)))
              · exact (CountsOnly.of_eq hloop).trans
                  (.of_eq (Pilot.reported_of_report (Pilot.setDeclineReason_report _ _ _)))
            · next _ hrun =>
              rw [hrun] at hloop
              exact .of_eq hloop

theorem dispatchTags_countsOnly (tags : List Bytes) :
    s.CountsOnly .tag r.soft (dispatchTags N L access r tags s).2 := by
  have hindex : s.CountsOnly .tag r.soft (indexPurge N L access r tags s).2 := indexPurge_countsOnly tags
  unfold dispatchTags
  generalize indexPurge N L access r tags s = result at hindex
  obtain ⟨rc, s1⟩ := result
  cases rc with
  | ok => exact hindex.trans (.of_eq rfl)
  | declined =>
    simp only
    split
    · exact hindex.trans (.of_eq rfl)
    · exact hindex
  | _ => exact hindex

theorem purgeAll_countsOnly : s.CountsOnly .all call.purge.soft (purgeAll L call s).2 := by
  unfold purgeAll
  split
  · next cache _ =>
    exact (CountsOnly.of_eq rfl).trans (Pilot.recordPurge_countsOnly _ _ _ _ { s with cache := cache })
  · exact .of_eq rfl

theorem partialFromIndex_reported (pre : Bytes) :
    (partialFromIndex N L access r pre s).2.2.reported = s.reported :=
  Pilot.reported_of_report (partialFromIndex_trail N L access r pre s).2.2

theorem partialPurge_countsOnly (w : Walk) (threads : Option Bool) :
    s.CountsOnly .wildcard r.soft (partialPurge N L access w threads r s).2 := by
  unfold partialPurge
  split
  · exact .of_eq rfl
  · next pre _ =>
    have hindex : (partialFromIndex N L access r pre s).2.2.reported = s.reported :=
      partialFromIndex_reported pre
    split
    · next hrun =>
      rw [hrun] at hindex
      exact .of_eq hindex
    · next _ hrun =>
      rw [hrun] at hindex
      refine (CountsOnly.of_eq hindex).trans ?_
      split
      · exact (CountsOnly.of_eq (Pilot.setResponsePath_reported _ _ _)).trans
          (Pilot.recordPurge_countsOnly _ _ _ _ _)
      · split
        · exact .of_eq rfl
        · split
          · split
            · exact .of_eq (Pilot.setResponsePath_reported _ _ _)
            · exact .of_eq rfl
          · refine (CountsOnly.of_eq (Pilot.setResponsePath_reported r.pool .filesystemFallback _)).trans ?_
            simp only
            split
            · exact (CountsOnly.of_eq rfl).trans (Pilot.recordPurge_countsOnly _ _ _ _ _)
            · exact .of_eq rfl

theorem partialCompletion_countsOnly (terminated : Bool) (rc : NgxRc) (purged : Nat) :
    s.CountsOnly .wildcard r.soft (partialCompletion r terminated rc purged s).2 := by
  unfold partialCompletion
  split
  · exact .of_eq rfl
  · split
    · exact Pilot.recordPurge_countsOnly _ _ _ _ _
    · exact .of_eq rfl

theorem releaseUpdating_reported (o : OpenedCache) (s : Pilot) :
    (releaseUpdating o s).reported = s.reported := by
  unfold releaseUpdating
  simp only
  split
  · rfl
  · rfl

theorem recordExactPurge_countsOnly (pool : PurgePool) (soft : Bool) (fanned : Nat) (s : Pilot) :
    s.CountsOnly .exact soft (recordExactPurge pool soft fanned s) := by
  unfold recordExactPurge
  refine CountsOnly.trans (.of_eq ?_) (Pilot.recordPurge_countsOnly _ _ _ _ _)
  split
  · exact Pilot.setResponsePath_reported _ _ _
  · rfl

/-- The end of an exact purge, behind its fanout. -/
theorem exactFanout_countsOnly (soft : Bool) (o : OpenedCache)
    (finish : Pilot → Pilot) (hfinish : ∀ s, (finish s).reported = s.reported) :
    s.CountsOnly .exact soft
      (match exactFanout N L access r soft o s with
        | (.error, _, s) => (NgxRc.error, releaseUpdating o s)
        | (_, fanned, s) => (.ok, releaseUpdating o (recordExactPurge r.pool soft fanned (finish s)))).2 := by
  have hfanout := Pilot.reported_of_report (exactFanout_trail N L access r soft o s).2.2
  split
  · next hrun =>
    rw [hrun] at hfanout
    exact .of_eq ((releaseUpdating_reported o _).trans hfanout)
  · next _ hrun =>
    rw [hrun] at hfanout
    refine (CountsOnly.of_eq ((hfinish _).trans hfanout)).trans ?_
    exact (recordExactPurge_countsOnly _ _ _ _).trans (.of_eq (releaseUpdating_reported o _))

theorem exactPurge_countsOnly (opened : CacheOpen) :
    s.CountsOnly .exact false (exactPurge N L access opened r s).2 := by
  unfold exactPurge
  split
  · exact .of_eq (Pilot.setDeclineReason_reported _ _ _)
  · exact .of_eq rfl
  · exact .of_eq rfl
  · next o =>
    split
    · exact (CountsOnly.of_eq rfl).trans (.of_eq (Pilot.setDeclineReason_reported _ _ _))
    · refine (CountsOnly.of_eq rfl).trans ?_
      exact exactFanout_countsOnly false o (fun s => s) fun _ => rfl

theorem exactPurgeSoft_countsOnly (opened : CacheOpen) :
    s.CountsOnly .exact true (exactPurgeSoft N L access opened r s).2 := by
  unfold exactPurgeSoft
  split
  · exact .of_eq (Pilot.setDeclineReason_reported _ _ _)
  · exact .of_eq rfl
  · exact .of_eq rfl
  · next o =>
    split
    · exact .of_eq (Pilot.setDeclineReason_reported _ _ _)
    · split
      · exact (CountsOnly.of_eq rfl).trans (.of_eq (Pilot.setDeclineReason_reported _ _ _))
      · refine (CountsOnly.of_eq rfl).trans ?_
        exact exactFanout_countsOnly true o (·.recordPurgeRequest .exact true) fun _ => rfl
      · exact .of_eq rfl

theorem handler_countsOnly (opened : CacheOpen) :
    s.CountsOnly .exact r.soft (handler N L access opened false false r s).2 := by
  unfold handler
  simp only [Bool.false_eq_true, if_false, Bool.not_false, Bool.true_and]
  have hpurge : s.CountsOnly .exact r.soft (if !isPartial r.keys then
      (if r.soft then exactPurgeSoft N L access opened r s else exactPurge N L access opened r s)
      else (.ok, s)).2 := by
    split
    · cases r.soft with
      | true => exact exactPurgeSoft_countsOnly opened
      | false => exact exactPurge_countsOnly opened
    · exact .of_eq rfl
  generalize (if !isPartial r.keys then (if r.soft then exactPurgeSoft N L access opened r s
    else exactPurge N L access opened r s) else (NgxRc.ok, s)) = result at hpurge
  obtain ⟨rc, s1⟩ := result
  cases rc with
  | declined =>
    simp only
    split
    · exact hpurge.trans (.of_eq rfl)
    · exact hpurge
  | _ => exact hpurge

/-- Behind the purges of a request, its handler counts at most an exact purge. -/
theorem finalHandler_countsOnly (ran : List PurgeStats) (failed : Bool) :
    s.CountsOnly .exact call.request.soft (finalHandler N L access call ran failed s).state := by
  rw [finalHandler_eq]
  split
  · exact handler_countsOnly call.opened
  · exact .of_eq rfl

/-- What `dispatch_special` counts is of one kind and mode. -/
theorem dispatchSpecial_countsOnly :
    ∃ type soft, s.CountsOnly type soft (dispatchSpecial N L access call s).state ∧
      ((dispatchSpecial N L access call s).rc = .done → type = .wildcard ∧ soft = call.request.soft) := by
  have hmode : ∀ tags, (dispatchTags N L access call.request tags s).1 ≠ .done := by
    intro tags hdone
    rcases dispatchTags_rc N L access call.request tags s with h | h | h <;>
      exact nomatch h.symm.trans hdone
  have huntagged : ∃ type soft, s.CountsOnly type soft (dispatchUntagged N L access call s).state ∧
      ((dispatchUntagged N L access call s).rc = .done → type = .wildcard ∧ soft = call.request.soft) := by
    unfold dispatchUntagged
    split
    · refine ⟨.all, call.purge.soft, purgeAll_countsOnly, fun hdone => ?_⟩
      have hno : (purgeAll L call s).1 ≠ .done := by
        unfold purgeAll
        split <;> exact (nomatch ·)
      exact absurd hdone hno
    · split
      · exact ⟨.wildcard, call.request.soft, partialPurge_countsOnly _ _, fun _ => ⟨rfl, rfl⟩⟩
      · exact ⟨.exact, false, .of_eq rfl, (nomatch ·)⟩
  unfold dispatchSpecial
  split
  · split
    · exact ⟨.exact, false, .of_eq rfl, (nomatch ·)⟩
    · split
      · exact ⟨.tag, call.request.soft, dispatchTags_countsOnly _, fun h => absurd h (hmode _)⟩
      · exact huntagged
    · exact huntagged
  · exact huntagged

/-- Two counters at most are not zero, and one of them is that of exact purges in the mode of
the request. -/
def TalliedFor (soft : Bool) (s : Pilot) : Prop :=
  ∃ first : PurgeStats × Bool, ∀ t b, s.reported t b ≠ 0 → (t, b) = first ∨ (t, b) = (.exact, soft)

theorem TalliedFor.tallied {soft : Bool} (h : TalliedFor soft s) : Tallied s.reported := by
  obtain ⟨first, h⟩ := h
  exact ⟨first, (.exact, soft), h⟩

/-- The handler keeps it. -/
theorem TalliedFor.finalHandler (h : TalliedFor call.request.soft s) (ran : List PurgeStats)
    (failed : Bool) :
    TalliedFor call.request.soft (finalHandler N L access call ran failed s).state := by
  obtain ⟨first, h⟩ := h
  refine ⟨first, fun t b hne => ?_⟩
  rcases Classical.em ((t, b) = (.exact, call.request.soft)) with he | he
  · exact Or.inr he
  · rw [finalHandler_countsOnly ran failed t b he] at hne
    exact h t b hne

theorem protocolHandler_tallied (hctx : s.ctx = none) :
    TalliedFor call.request.soft (protocolHandler N L access call s).state := by
  obtain ⟨type, soft, hcounts, hdone⟩ :
      ∃ type soft, s.CountsOnly type soft (dispatchSpecial N L access call s).state ∧
        ((dispatchSpecial N L access call s).rc = .done →
          type = .wildcard ∧ soft = call.request.soft) := dispatchSpecial_countsOnly
  unfold protocolHandler
  generalize dispatchSpecial N L access call s = d at hcounts hdone
  have honly : ∀ {s' : Pilot}, s.CountsOnly type soft s' → TalliedFor call.request.soft s' := by
    refine fun h => ⟨(type, soft), fun t b hne => ?_⟩
    rcases Classical.em ((t, b) = (type, soft)) with he | he
    · exact Or.inl he
    · rw [h t b he, (reported_of_ctx hctx t b).1] at hne
      exact absurd rfl hne
  have htallied := honly hcounts
  simp only
  split
  · split
    · exact htallied.finalHandler _ _
    · next hrc =>
      obtain ⟨rfl, rfl⟩ := hdone hrc
      refine honly ((hcounts.trans (.of_eq rfl)).trans ?_)
      exact partialCompletion_countsOnly (r := call.request) call.terminated _ _
    · split
      · exact htallied
      · exact htallied
    · exact htallied
  · exact htallied.finalHandler _ _

/-! ## The response -/

/-- A request whose handler is called again: of its own are the index, the clock and what
the system makes of it. -/
structure PurgeCall.Resumes (call call' : PurgeCall) : Prop where
  conf : call'.conf = call.conf
  purge : call'.purge = call.purge
  headers : call'.headers = call.headers
  keys : call'.keys = call.keys

/-- What becomes of a request, at the first call of its handler and at each further one, for
which it waits when its cache file cannot be read at once. What is not its own may be
another by then. -/
inductive Handled (N : Nginx) (L : HeaderLayout) (access : IndexAccess) (call : PurgeCall)
    (s : Pilot) : Finished → Prop
  | first : Handled N L access call s (protocolHandler N L access call s)
  | resumed {f : Finished} {access' : IndexAccess} {call' : PurgeCall} {s' : Pilot} :
      Handled N L access call s f → f.answer = some .again → call.Resumes call' →
      s'.ctx = f.state.ctx → Handled N L access call s (finalHandler N L access' call' f.ran f.failed s')

theorem Handled.tallied (hctx : s.ctx = none) {f : Finished} (h : Handled N L access call s f) :
    TalliedFor call.request.soft f.state := by
  induction h with
  | first => exact protocolHandler_tallied hctx
  | @resumed f access' call' s' _ _ hsame hctx' ih =>
    have hreported : s'.reported = f.state.reported := by
      unfold Pilot.reported
      rw [hctx']
    have hsoft : call.request.soft = call'.request.soft := by
      show requestMode call.conf call.headers call.purge.soft =
        requestMode call'.conf call'.headers call'.purge.soft
      rw [hsame.conf, hsame.headers, hsame.purge]
    unfold TalliedFor at ih
    rw [hsoft, ← hreported] at ih
    rw [hsoft]
    exact TalliedFor.finalHandler ih _ _

/-- The response is complete, and its key is the key. -/
theorem response_body_faithful (hctx : s.ctx = none) {f : Finished} (h : Handled N L access call s f)
    (key : Bytes) (path : PurgePath) :
    let body := responseBody .json key path f.state.reported
    (jsonEscape key).length = jsonEscapedLen key ∧
      body = (bodyTemplJson (jsonEscape key) (responsePathValue path) f.state.reported).flatten ∧
      ∃ v, Json.parse body = some v ∧ v.member (ascii "key") = some (.string key) := by
  intro body
  have hfits : body =
      (bodyTemplJson (jsonEscape key) (responsePathValue path) f.state.reported).flatten :=
    putAll_fits (bodyTemplJson_length (h.tallied hctx).tallied key (responsePathValue path))
  refine ⟨jsonEscape_length key, hfits, bodyValue key (responsePathValue path) f.state.reported, ?_, ?_⟩
  · rw [hfits]
    exact Json.parse_of_lex (lex_body key path _) (parses_body _ _ _)
  · rfl

theorem response_body_faithful_sample :
    let f := protocolHandler .reference .reference sampleAccess sampleExact variantState
    let key := ascii "quote\"slash\\end"
    let body := responseBody .json key .exactKeyFanout f.state.reported
    (jsonEscape key).length = jsonEscapedLen key ∧
      body = (bodyTemplJson (jsonEscape key) (responsePathValue .exactKeyFanout)
        f.state.reported).flatten ∧
      ∃ v, Json.parse body = some v ∧ v.member (ascii "key") = some (.string key) :=
  response_body_faithful rfl .first _ _

/-- The response that the tests of the module expect. -/
example : responseBody .json (ascii "quote\"slash\\end") .unset
    (fun type soft => if type = .exact ∧ soft = false then 1 else 0) =
      ascii "\x7b\"key\": \"quote\\\"slash\\\\end\", \"cache_pilot\": \x7b\"purged\": " ++
        ascii "\x7b\"exact\": \x7b\"hard\": 1, \"soft\": 0\x7d, \"wildcard\": \x7b\"hard\": 0, " ++
        ascii "\"soft\": 0\x7d, \"tag\": \x7b\"hard\": 0, \"soft\": 0\x7d, " ++
        ascii "\"all\": \x7b\"hard\": 0, \"soft\": 0\x7d\x7d\x7d\x7d" := by
  decide +kernel

end CachePilot
