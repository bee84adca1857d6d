import CachePilot.Lib.SearchTree
import CachePilot.Lib.Strings
import Mathlib.Data.Multiset.AddSub
import Mathlib.Logic.Function.Basic
import Mathlib.Tactic.Simps.Basic

/-!
# The shared-memory index: data

The blocks of `ngx_cache_pilot_index_store_internal.h` and the slab pool they
live in. A pointer is the number of the allocation that made the block, so two
blocks never share a pointer and a pointer to a freed block stays recognisable.
An intrusive queue is the list of the blocks linked into it, head first.
-/

namespace CachePilot
open NgxString

/-- The return codes of nginx that the module uses. -/
inductive NgxRc
  | ok
  | error
  | again
  | done
  | declined
deriving DecidableEq, Repr

abbrev Addr := Nat

/-- A tree node as it is linked: `node->key`, the string that `node_string`
reads for it, and the block the node is part of. Key and string of a block never
change while its node is linked. -/
structure RbNode where
  key : UInt32
  str : Bytes
  addr : Addr
deriving DecidableEq, Repr

/-- What the store takes from nginx core: the two CRC functions and the
red-black tree. -/
structure Nginx where
  crc32Short : Bytes → UInt32
  crc32Long : Bytes → UInt32
  rbtree : SearchTree.Balancing RbNode

/-- CRC-32 bit by bit, which both of nginx's table-driven functions compute. -/
def crc32 (s : Bytes) : UInt32 :=
  let shift (crc : UInt32) : UInt32 :=
    if crc &&& 1 = 1 then (crc >>> 1) ^^^ 0xEDB88320 else crc >>> 1
  ~~~ s.foldl (fun crc b => Nat.iterate shift 8 (crc ^^^ b.toUInt32)) 0xFFFFFFFF

/-- An nginx whose tree is never rebalanced, to run the store with. -/
def Nginx.reference : Nginx where
  crc32Short := crc32
  crc32Long := crc32
  rbtree := .plain

/-! ## Blocks -/

/-- The key entries and the tag entries of a zone are two blocks of one layout. -/
inductive EntryKind
  | key
  | tag
deriving DecidableEq, Repr

/-- `ngx_http_cache_index_shm_file_t`; `pathKey` is `path_node.key`, and `path`,
`key` and `tags` are the strings copied behind each other into `data`. -/
structure ShmFile where
  pathKey : UInt32
  keyEntry : Option Addr
  tagMembers : List Addr
  mtime : Int
  size : Int
  tagCount : Nat
  path : Bytes
  key : Bytes
  tags : List Bytes
deriving Inhabited

/-- `ngx_http_cache_index_shm_key_entry_t` and
`ngx_http_cache_index_shm_tag_entry_t`: `files` queues file blocks for a key
entry and member blocks for a tag entry. -/
structure ShmEntry where
  nodeKey : UInt32
  str : Bytes
  files : List Addr
deriving Inhabited

/-- `ngx_http_cache_index_shm_tag_member_t`. -/
structure ShmTagMember where
  tagEntry : Addr
  file : Addr
deriving Inhabited

/-- `ngx_http_cache_index_shm_zone_t`; `index` holds `key_index` and
`tag_index`. -/
structure ShmZone where
  name : Bytes
  files : List Addr
  pathIndex : BinaryTree RbNode
  index : EntryKind → BinaryTree RbNode
  bootstrapComplete : Bool
  lastBootstrapAt : Int
  lastUpdatedAt : Int
deriving Inhabited

inductive BlockKind
  | zone
  | file
  | entry (kind : EntryKind)
  | tagMember
deriving DecidableEq, Repr

/-- A block of the slab pool: what it was allocated for, and its pointer. -/
structure Block where
  kind : BlockKind
  addr : Addr
deriving DecidableEq, Repr

/-! ## The pool -/

/-- The index zone: the queue `sh->zones`, the blocks behind the pointers, and
what the slab pool handed out and got back so far. The count of failed allocations
is taken not to wrap around. -/
structure Shm where
  zones : List Addr
  allocFailures : Nat
  zone : Addr → ShmZone
  file : Addr → ShmFile
  entry : EntryKind → Addr → ShmEntry
  member : Addr → ShmTagMember
  next : Addr
  allocated : Multiset Block
  freed : Multiset Block

/-- The zone as `ngx_http_cache_index_store_init_zone` leaves it. -/
def Shm.init : Shm where
  zones := []
  allocFailures := 0
  zone := default
  file := default
  entry := default
  member := default
  next := 0
  allocated := 0
  freed := 0

/-- A block that was handed out and not given back. -/
def Shm.Live (s : Shm) (b : Block) : Prop := b ∈ s.allocated ∧ b ∉ s.freed

namespace Shm

@[simps] def setZone (s : Shm) (a : Addr) (z : ShmZone) : Shm :=
  { s with zone := Function.update s.zone a z }

@[simps] def setFile (s : Shm) (a : Addr) (f : ShmFile) : Shm :=
  { s with file := Function.update s.file a f }

@[simps] def setEntry (s : Shm) (kind : EntryKind) (a : Addr) (e : ShmEntry) : Shm :=
  { s with entry := Function.update s.entry kind (Function.update (s.entry kind) a e) }

@[simps] def setMember (s : Shm) (a : Addr) (m : ShmTagMember) : Shm :=
  { s with member := Function.update s.member a m }

/-- A successful `ngx_slab_alloc_locked`; the block is at `s.next`. -/
@[simps] def takeBlock (s : Shm) (kind : BlockKind) : Shm :=
  { s with next := s.next + 1, allocated := ⟨kind, s.next⟩ ::ₘ s.allocated }

/-- `ngx_slab_free_locked`. -/
@[simps] def freeBlock (s : Shm) (kind : BlockKind) (a : Addr) : Shm :=
  { s with freed := ⟨kind, a⟩ ::ₘ s.freed }

@[simps] def countFailure (s : Shm) : Shm :=
  { s with allocFailures := s.allocFailures + 1 }

end Shm

end CachePilot
