import CachePilot.Conf.Merge
import CachePilot.Purge.Tags
import CachePilot.Scan.Agree

/-!
# Tags from end to end

The tags of a response are read from its headers and linked into the index, those
of a purge are read from the headers of the request and looked up there. Both
sides drop a token that an earlier one equals up to letter case, while the index
compares bytes.

Results:
* `tags_match_iff`: when a purge finds a response exactly if they share a token;
* `collapsed_tag_not_found`: a purge by a tag of the response that does not find it.
-/

namespace CachePilot
open NgxString KeepFirst

/-! ## The tags of a request -/

/-- `ngx_http_cache_index_location_enabled`. -/
def locationEnabled (conf : LocConf) : Bool :=
  conf.cacheIndex != some false && conf.cacheTagHeaders.isSome

/-- `ngx_http_cache_index_request_headers`: its loops over the headers of the
request are those of `response_headers`. -/
def requestHeaders (pool : TagPool) (conf : LocConf) (headers : List TableElt) :
    NgxRc × Option (List Bytes) :=
  if !locationEnabled conf then (.declined, none)
  else
    match responseHeaders pool headers (conf.cacheTagHeaders.getD []) with
    | .error _ => (.error, none)
    | .ok tags => (if 0 < tags.length then .ok else .declined, some tags)

/-! ## What both sides keep -/

/-- The token is the first one in the stream of those that equal it up to letter
case. -/
def FirstSpelling (stream : List Bytes) (t : Bytes) : Prop :=
  stream.find? (fun u => tagKey u = tagKey t) = some t

theorem FirstSpelling.mem {stream : List Bytes} {t : Bytes} (h : FirstSpelling stream t) :
    t ∈ stream := List.mem_of_find?_eq_some h

theorem mem_keepTags {stream : List Bytes} (hlen : stream.length ≤ maxTokensPerScan) {t : Bytes} :
    t ∈ keepTags [] stream ↔ FirstSpelling stream t := by
  have hcap : ∀ n, some maxTokensPerScan = some n → ([] : List Bytes).length + stream.length ≤ n := by
    intro n hn
    rw [List.length_nil, Nat.zero_add, ← Option.some.inj hn]
    exact hlen
  unfold keepTags FirstSpelling
  rw [mem_keepAll hcap]
  simp

variable {N : Nginx} {shm : Shm}

/-- The record that an update leaves for its path. -/
theorem mem_upserted {rs : List Record} {path key : Bytes} {tags : List Bytes} {r : Record}
    (hpath : r.path = path) : r ∈ upserted .ok rs path key tags ↔ r = ⟨path, key, tags⟩ := by
  unfold upserted
  rw [if_pos rfl, List.mem_append, List.mem_singleton]
  exact or_iff_right fun h => (mem_otherRecords.mp h).2 hpath

/-- A query by tags finds an updated path by the tags of the update. -/
theorem mem_collect_upserted (h : IndexOk N shm) {alloc : AllocSite → Bool} {now mtime size : Int}
    {zoneName path key : Bytes} {tags : List Bytes} (hp : NulFree path)
    (hok : (upsertFileMeta N alloc now zoneName path key mtime size tags shm).1 = .ok)
    (wanted : List Bytes) :
    ∃ paths, collectPathsByTags N (fun _ => true)
        (upsertFileMeta N alloc now zoneName path key mtime size tags shm).2 zoneName wanted =
          some paths ∧
      (path ∈ paths ↔ ∃ t ∈ wanted, t ∈ tags) := by
  obtain ⟨-, hc, -, -⟩ := upsertFileMeta_spec h.ok alloc now zoneName path key mtime size tags
  have h' : IndexOk N (upsertFileMeta N alloc now zoneName path key mtime size tags shm).2 :=
    h.upsert hp
  rw [hok] at hc
  generalize (upsertFileMeta N alloc now zoneName path key mtime size tags shm).2 = shm' at hc h'
  have hrecords := hc.own zoneName (sameZoneName_refl zoneName)
  have hcollect : collectPathsByTags N (fun _ => true) shm' zoneName wanted =
      some (pushAll [] (wanted.flatMap (taggedPaths (recordsOf shm' zoneName)))) := by
    rw [collectPathsByTags_eq h'.ok, tagQuery_success (h'.paths zoneName)]
  refine ⟨_, hcollect, (h'.mem_collectTags hcollect).trans ?_⟩
  rw [hrecords]
  constructor
  · rintro ⟨t, ht, r, hr, htr, hpath⟩
    rw [(mem_upserted hpath).mp hr] at htr
    exact ⟨t, ht, htr⟩
  · rintro ⟨t, ht, htags⟩
    exact ⟨t, ht, ⟨path, key, tags⟩, (mem_upserted rfl).mpr rfl, htags, rfl⟩

/-! ## The match -/

/-- Behind the update of a response, a purge finds its file exactly if they share a
token, provided that a shared token, if there is one, is not lost on the way: one
of them is on both sides the first of those that equal it up to letter case. -/
theorem tags_match_iff (N : Nginx) (shm : Shm) (hindex : IndexOk N shm) (alloc : AllocSite → Bool)
    (now : Int) (zoneName path key : Bytes) (mtime size : Int) (hpath : NulFree path)
    (conf : LocConf) (henabled : locationEnabled conf = true) (headers : List Bytes)
    (response request : List TableElt)
    (hresponse : (headerTokens response headers).length ≤ maxTokensPerScan)
    (hrequest : (headerTokens request (conf.cacheTagHeaders.getD [])).length ≤ maxTokensPerScan) :
    let carried := headerTokens response headers
    let asked := headerTokens request (conf.cacheTagHeaders.getD [])
    ∃ tags rc wanted,
      responseHeaders ⟨true, fun _ => true⟩ response headers = .ok tags ∧
      requestHeaders ⟨true, fun _ => true⟩ conf request = (rc, some wanted) ∧
      ((upsertFileMeta N alloc now zoneName path key mtime size tags shm).1 = .ok →
        ∃ paths, collectPathsByTags N (fun _ => true)
            (upsertFileMeta N alloc now zoneName path key mtime size tags shm).2 zoneName wanted =
              some paths ∧
          ((path ∈ paths ↔ ∃ t ∈ asked, t ∈ carried) ↔
            ((∃ t ∈ asked, t ∈ carried) → ∃ t, FirstSpelling asked t ∧ FirstSpelling carried t))) := by
  intro carried asked
  have hasked : requestHeaders ⟨true, fun _ => true⟩ conf request =
      (if 0 < (keepTags [] asked).length then .ok else .declined, some (keepTags [] asked)) := by
    unfold requestHeaders
    rw [henabled, responseHeaders_success]
    rfl
  refine ⟨_, _, _, responseHeaders_success _ _, hasked, fun hok => ?_⟩
  obtain ⟨paths, hcollect, hmem⟩ := mem_collect_upserted hindex hpath hok (keepTags [] asked)
  refine ⟨paths, hcollect, ?_⟩
  have hfound : path ∈ paths ↔ ∃ t, FirstSpelling asked t ∧ FirstSpelling carried t := by
    rw [hmem]
    exact exists_congr fun t => and_congr (mem_keepTags hrequest) (mem_keepTags hresponse)
  rw [hfound]
  constructor
  · exact fun h => h.mpr
  · exact fun h => ⟨fun ⟨t, h1, h2⟩ => ⟨t, h1.mem, h2.mem⟩, h⟩

/-- A location that is indexed by the header `T`. -/
def tagLocation : LocConf :=
  { (sampleLevel [] false).locConf with cacheIndex := some true, cacheTagHeaders := some [[84]] }

/-- The tags `Aa` and `aA` on one response. -/
def spelledTwice : List TableElt := [⟨[84], [65, 97, 44, 97, 65]⟩]

theorem tags_match_iff_sample :
    let carried := headerTokens spelledTwice [[84]]
    let asked := headerTokens [⟨[84], [97, 65]⟩] [[84]]
    ∃ tags rc wanted,
      responseHeaders ⟨true, fun _ => true⟩ spelledTwice [[84]] = .ok tags ∧
      requestHeaders ⟨true, fun _ => true⟩ tagLocation [⟨[84], [97, 65]⟩] = (rc, some wanted) ∧
      ((upsertFileMeta .reference (fun _ => true) 1 [122] [97] [107] 1 0 tags .init).1 = .ok →
        ∃ paths, collectPathsByTags .reference (fun _ => true)
            (upsertFileMeta .reference (fun _ => true) 1 [122] [97] [107] 1 0 tags .init).2 [122]
              wanted = some paths ∧
          (([97] ∈ paths ↔ ∃ t ∈ asked, t ∈ carried) ↔
            ((∃ t ∈ asked, t ∈ carried) → ∃ t, FirstSpelling asked t ∧ FirstSpelling carried t))) :=
  tags_match_iff .reference .init
    (@runStore_indexOk .reference [] fun _ h => absurd h List.not_mem_nil) (fun _ => true) 1 [122]
    [97] [107] 1 0 (by decide) tagLocation rfl [[84]] spelledTwice [⟨[84], [97, 65]⟩]
    (by decide +kernel) (by decide +kernel)

/-- The response carries `aA`, but is indexed under `Aa` only: the purge by `aA`
does not find it. -/
theorem collapsed_tag_not_found :
    (∃ t ∈ headerTokens [⟨[84], [97, 65]⟩] [[84]], t ∈ headerTokens spelledTwice [[84]]) ∧
    ∃ tags wanted, responseHeaders ⟨true, fun _ => true⟩ spelledTwice [[84]] = .ok tags ∧
      requestHeaders ⟨true, fun _ => true⟩ tagLocation [⟨[84], [97, 65]⟩] = (.ok, some wanted) ∧
      (upsertFileMeta .reference (fun _ => true) 1 [122] [97] [107] 1 0 tags .init).1 = .ok ∧
      collectPathsByTags .reference (fun _ => true)
        (upsertFileMeta .reference (fun _ => true) 1 [122] [97] [107] 1 0 tags .init).2 [122]
          wanted = some [] := by
  refine ⟨by decide +kernel, [[65, 97]], [[97, 65]], ?_⟩
  decide +kernel

end CachePilot
