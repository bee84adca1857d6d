import CachePilot.Scan.Tags
import CachePilot.Store.Ops

/-!
# Reading a cache file back

`parse_file` and `process_file` of `ngx_cache_pilot_index_store.c`, which the
bootstrap scan runs on every file of a cache directory. The file system is an
argument: what `ngx_file_info` says about the path, and the bytes that opening
and reading the file gives. A position in the buffer is the rest of the buffer
from there; `lineStart` says that the byte before it is a line feed.
-/

namespace CachePilot
open NgxString KeepFirst

/-- What `ngx_file_info` tells. -/
structure FileInfo where
  mtime : Int
  size : Nat
deriving DecidableEq, Repr

/-- The pool allocations of `parse_file`: the buffer, the array, the key and each
tag. -/
structure ParsePool where
  buf : Bool
  result : Bool
  key : Bool
  tag : Nat → Bool

/-- What `parse_file` reads from a file. -/
structure ParsedFile where
  key : Bytes
  tags : List Bytes
  mtime : Int
  size : Nat
deriving DecidableEq, Repr

def isBlank (c : UInt8) : Bool := c == 32 || c == 9

def isEol (c : UInt8) : Bool := c == 10 || c == 13

/-- `"KEY:"`. -/
def keyHdr : Bytes := [75, 69, 89, 58]

/-- `2 * NGX_HTTP_CACHE_KEY_LEN`, the length of a cache file's name. -/
def cacheNameLength : Nat := 32

/-- `ngx_http_cache_index_path_known`: the length behind the last slash. -/
def pathKnown (path : Bytes) : Bool :=
  (path.reverse.takeWhile fun c => c != 47).length == cacheNameLength

/-- The value of a line, from behind its colon to the end of the line. -/
def lineValue (rest : Bytes) : Bytes := (rest.dropWhile isBlank).takeWhile fun c => !isEol c

/-- The `KEY:` part of one line. -/
def parseKeyLine (pool : ParsePool) (rest key : Bytes) : Except NgxRc Bytes :=
  if key.length = 0 ∧ 4 ≤ rest.length ∧ ngxStrncasecmp rest keyHdr 4 = 0 then
    let value := lineValue (rest.drop 4)
    if 0 < value.length then
      if pool.key then .ok value else .error .error
    else .ok key
  else .ok key

/-- The part of one line that looks for one configured header. -/
def parseTagLine (pool : ParsePool) (rest : Bytes) (tags : List Bytes) (header : Bytes) :
    Except NgxRc (List Bytes) :=
  if rest.length ≤ header.length + 1 then .ok tags
  else if ngxStrncasecmp rest header header.length ≠ 0 ∨ rest.getD header.length 0 ≠ 58 then .ok tags
  else extractTokens pool.tag (lineValue (rest.drop (header.length + 1))) tags

/-- One turn of the scan that starts a line. -/
def parseLine (pool : ParsePool) (headers : Option (List Bytes)) (rest : Bytes)
    (st : Bytes × List Bytes) : Except NgxRc (Bytes × List Bytes) :=
  match parseKeyLine pool rest st.1 with
  | .error rc => .error rc
  | .ok key =>
    match headers with
    | none => .ok (key, st.2)
    | some headers =>
      match headers.foldlM (parseTagLine pool rest) st.2 with
      | .error rc => .error rc
      | .ok tags => .ok (key, tags)

/-- The scan of the buffer. -/
def parseLines (pool : ParsePool) (headers : Option (List Bytes)) :
    Bool → Bytes → Bytes × List Bytes → Except NgxRc (Bytes × List Bytes)
  | _, [], st => .ok st
  | lineStart, c :: rest, st =>
    if lineStart then
      match parseLine pool headers (c :: rest) st with
      | .error rc => .error rc
      | .ok st => parseLines pool headers (c == 10) rest st
    else parseLines pool headers (c == 10) rest st

/-- `ngx_http_cache_index_parse_file`. `info` is `none` when the path cannot be
stat'ed, `read` is `none` when opening or reading fails. -/
def parseFile (pool : ParsePool) (path : Bytes) (info : Option FileInfo) (read : Option Bytes)
    (headers : Option (List Bytes)) : Except NgxRc ParsedFile :=
  if !pathKnown path then .error .declined
  else
    match info with
    | none => .error .declined
    | some fi =>
      let maxRead := min 65536 fi.size
      if maxRead = 0 then .error .declined
      else if !pool.buf then .error .error
      else
        match read with
        | none => .error .declined
        | some data =>
          let buf := data.take maxRead
          if buf.length = 0 then .error .declined
          else if !pool.result then .error .error
          else
            match parseLines pool headers true buf ([], []) with
            | .error rc => .error rc
            | .ok (key, tags) => .ok ⟨key, tags, fi.mtime, fi.size⟩

/-- `ngx_http_cache_index_store_process_file`: index what the file says, or drop
its entry when nothing can be read. Without configured headers only the key is
read. -/
def processFile (N : Nginx) (alloc : AllocSite → Bool) (now : Int) (createPool : Bool)
    (pool : ParsePool) (zoneName path : Bytes) (info : Option FileInfo) (read : Option Bytes)
    (headers : List Bytes) (s : Shm) : NgxRc × Shm :=
  if !createPool then (.error, s)
  else if headers = [] then
    match parseFile pool path info read none with
    | .error _ => deleteFile N now zoneName path s
    | .ok p => upsertFileMeta N alloc now zoneName path p.key p.mtime p.size [] s
  else
    match parseFile pool path info read (some headers) with
    | .error _ => deleteFile N now zoneName path s
    | .ok p => upsertFileMeta N alloc now zoneName path p.key p.mtime p.size p.tags s

/-! ## What a scan reads -/

/-- The rests of a buffer at the starts of its lines. -/
def lineStarts : Bool → Bytes → List Bytes
  | _, [] => []
  | lineStart, c :: rest =>
    if lineStart then (c :: rest) :: lineStarts (c == 10) rest else lineStarts (c == 10) rest

/-- The key that a line names, if it does. -/
def keyAt (rest : Bytes) : Option Bytes :=
  if 4 ≤ rest.length ∧ ngxStrncasecmp rest keyHdr 4 = 0 ∧ 0 < (lineValue (rest.drop 4)).length then
    some (lineValue (rest.drop 4))
  else none

/-- The tokens that a line gives for one configured header. -/
def tokensAt (header rest : Bytes) : List Bytes :=
  if header.length + 1 < rest.length ∧ ngxStrncasecmp rest header header.length = 0 ∧
      rest.getD header.length 0 = 58 then
    tokens (lineValue (rest.drop (header.length + 1)))
  else []

/-- The pool of a scan in which no allocation fails. -/
def ParsePool.full : ParsePool := ⟨true, true, true, fun _ => true⟩

theorem parseKeyLine_success (rest key : Bytes) :
    parseKeyLine .full rest key = .ok (if key = [] then (keyAt rest).getD [] else key) := by
  unfold parseKeyLine keyAt
  simp only [ParsePool.full, if_true]
  cases key with
  | nil =>
    by_cases h : 4 ≤ rest.length ∧ ngxStrncasecmp rest keyHdr 4 = 0
    · by_cases hv : 0 < (lineValue (rest.drop 4)).length
      · rw [if_pos ⟨rfl, h⟩, if_pos hv, if_pos rfl, if_pos ⟨h.1, h.2, hv⟩]
        rfl
      · rw [if_pos ⟨rfl, h⟩, if_neg hv, if_pos rfl, if_neg fun h0 => hv h0.2.2]
        rfl
    · rw [if_neg fun h0 => h h0.2, if_pos rfl, if_neg fun h0 => h ⟨h0.1, h0.2.1⟩]
      rfl
  | cons c key =>
    rw [if_neg fun h0 => nomatch h0.1]
    exact congrArg Except.ok (if_neg (List.cons_ne_nil c key)).symm

theorem parseTagLine_success (rest : Bytes) (tags : List Bytes) (header : Bytes) :
    parseTagLine .full rest tags header = .ok (keepTags tags (tokensAt header rest)) := by
  unfold parseTagLine tokensAt
  by_cases hl : rest.length ≤ header.length + 1
  · rw [if_pos hl, if_neg fun h0 => Nat.not_lt.mpr hl h0.1]
    rfl
  · rw [if_neg hl]
    by_cases hm : ngxStrncasecmp rest header header.length ≠ 0 ∨ rest.getD header.length 0 ≠ 58
    · rw [if_pos hm, if_neg fun h0 => hm.elim (fun h => h h0.2.1) fun h => h h0.2.2]
      rfl
    · obtain ⟨h1, h2⟩ := not_or.mp hm
      rw [if_neg hm, if_pos ⟨Nat.lt_of_not_le hl, not_not.mp h1, not_not.mp h2⟩]
      exact extractTokens_success _ tags

theorem keepTags_append (tags xs ys : List Bytes) :
    keepTags tags (xs ++ ys) = keepTags (keepTags tags xs) ys := keepAll_append

theorem parseTagLines_success (rest : Bytes) (headers tags : List Bytes) :
    headers.foldlM (parseTagLine .full rest) tags =
      .ok (keepTags tags (headers.flatMap fun header => tokensAt header rest)) := by
  induction headers generalizing tags with
  | nil => rfl
  | cons header headers ih =>
    rw [List.foldlM_cons, parseTagLine_success, List.flatMap_cons, keepTags_append]
    exact ih _

/-- When nothing fails, a scan reads the first key that a line names, and the
tokens of all lines. -/
theorem parseLines_success (headers : List Bytes) (lineStart : Bool) (buf key : Bytes)
    (tags : List Bytes) :
    parseLines .full (some headers) lineStart buf (key, tags) =
      .ok (if key = [] then ((lineStarts lineStart buf).findSome? keyAt).getD [] else key,
        keepTags tags ((lineStarts lineStart buf).flatMap fun rest =>
          headers.flatMap fun header => tokensAt header rest)) := by
  induction buf generalizing lineStart key tags with
  | nil =>
    cases key with
    | nil => rfl
    | cons c key => rfl
  | cons c buf ih =>
    unfold parseLines lineStarts
    cases lineStart with
    | false => exact ih (c == 10) key tags
    | true =>
      simp only [if_true, parseLine, parseKeyLine_success, parseTagLines_success, ih,
        List.flatMap_cons, keepTags_append, List.findSome?_cons]
      cases key with
      | cons d key => simp
      | nil =>
        cases hk : keyAt (c :: buf) with
        | none => simp
        | some k =>
          have hne : k ≠ [] := by
            unfold keyAt at hk
            split at hk
            · next h =>
              rw [← Option.some.inj hk]
              exact List.ne_nil_of_length_pos h.2.2
            · exact nomatch hk
          simp [hne]

end CachePilot
