import Datasystem.Lib.Bytes
import Datasystem.Lib.Keyed
import Datasystem.Status

/-!
# In-memory key-value store

Each operation is a function from the store it finds under the lock to the store it leaves, together with the
status, the outputs and the events it hands to the mutation callback after the lock is released.
-/

namespace Datasystem.Coordinator

open Keyed

def coordinatorNoVersionCheck : Int := -1
def coordinatorKeyNotExistsVersion : Int := 0
def coordinatorNoModRevisionCheck : Int := 0
def coordinatorNoGlobalRevisionCheck : Int := 0

structure KeyValueEntry where
  key : Bytes
  value : Bytes
  version : Int
  modRevision : Int
deriving DecidableEq, Repr

inductive WatchEventType where
  | put
  | delete
  | rewatch
deriving DecidableEq, Repr

structure WatchEvent where
  type : WatchEventType
  entry : KeyValueEntry
  revision : Int
deriving DecidableEq, Repr

structure ValueEntry where
  value : Bytes
  version : Int
  createRevision : Int
  modRevision : Int
  ttlMs : Int
  ttlGeneration : Nat
deriving DecidableEq, Repr

/-- The part of a stored entry that range reads and events carry. -/
def ValueEntry.toKeyValue (key : Bytes) (entry : ValueEntry) : KeyValueEntry :=
  ⟨key,entry.value,entry.version,entry.modRevision⟩

structure MemoryKvStore where
  data : List (Bytes × ValueEntry)
  revision : Int
  sorted : Sorted Prod.fst data

namespace MemoryKvStore

def empty : MemoryKvStore := ⟨[],1,List.Pairwise.nil⟩

def find (s : MemoryKvStore) (key : Bytes) : Option ValueEntry := (lookup Prod.fst key s.data).map Prod.snd

def store (s : MemoryKvStore) (key : Bytes) (entry : ValueEntry) (revision : Int) : MemoryKvStore :=
  ⟨upsert Prod.fst (key, entry) s.data,revision,s.sorted.upsert _⟩

/-- Erase one key after another, as the deletion loop does with its iterators. -/
def eraseAll (s : MemoryKvStore) (keys : List Bytes) (revision : Int) : MemoryKvStore where
  data := keys.foldl (fun data key => remove Prod.fst key data) s.data
  revision := revision
  sorted := by
    have h : ∀ (keys : List Bytes) (data : List (Bytes × ValueEntry)), Sorted Prod.fst data →
        Sorted Prod.fst (keys.foldl (fun data key => remove Prod.fst key data) data) := by
      intro keys
      induction keys with
      | nil => exact fun _ h => h
      | cons key keys ih => exact fun data h => ih _ (h.remove key)
    exact h keys s.data s.sorted

end MemoryKvStore

/-- What one store operation leaves behind. `output` is absent when the operation failed before
it wrote its output parameters. -/
structure Outcome (β : Type) where
  status : Status
  store : MemoryKvStore
  events : List WatchEvent
  output : Option β

structure PutOutput where
  version : Int
  revision : Int
  ttlGeneration : Nat
deriving DecidableEq, Repr

structure DeleteOutput where
  deleted : Nat
  revision : Int
  deletedEntries : List KeyValueEntry
deriving DecidableEq, Repr

structure KeepAliveOutput where
  ttlMs : Int
  remainingTtlMs : Int
  revision : Int
  ttlGeneration : Nat
deriving DecidableEq, Repr

structure PutRequest where
  key : Bytes
  value : Bytes
  ttlMs : Int
  expectedVersion : Int := coordinatorNoVersionCheck
  expectedModRevision : Int := coordinatorNoModRevisionCheck
  expectedGlobalRevision : Int := coordinatorNoGlobalRevisionCheck
deriving DecidableEq, Repr

namespace MemoryKvStore

variable (s : MemoryKvStore)

/-- The conditions of a put in the order in which the source checks them. -/
def checkPut (req : PutRequest) : Status :=
  let entry := s.find req.key
  if req.expectedGlobalRevision ≠ coordinatorNoGlobalRevisionCheck ∧
      s.revision ≠ req.expectedGlobalRevision then
    ⟨.tryAgain,"global revision mismatch"⟩
  else if req.expectedModRevision ≠ coordinatorNoModRevisionCheck ∧
      entry.map ValueEntry.modRevision ≠ some req.expectedModRevision then
    ⟨.tryAgain,"modification revision mismatch"⟩
  else if req.expectedVersion = coordinatorKeyNotExistsVersion then
    if entry.isSome then ⟨.invalid,"key already exists for CAS"⟩ else .success
  else if req.expectedVersion ≠ coordinatorNoVersionCheck then
    match entry with
    | none => ⟨.notFound,"key not found for CAS"⟩
    | some found =>
      if found.version ≠ req.expectedVersion then ⟨.invalid,"version mismatch"⟩ else .success
  else .success

/-- The entry a put stores: an existing key keeps its creation revision and counts up its version
and TTL generation, a new key starts both at one. -/
def putEntry (found : Option ValueEntry) (req : PutRequest) (newRevision : Int) : ValueEntry :=
  match found with
  | some entry =>
    { entry with
      version := entry.version + 1
      value := req.value
      modRevision := newRevision
      ttlMs := req.ttlMs
      ttlGeneration := entry.ttlGeneration + 1 }
  | none => ⟨req.value,1,newRevision,newRevision,req.ttlMs,1⟩

def put (s : MemoryKvStore) (req : PutRequest) : Outcome PutOutput :=
  let status := s.checkPut req
  if status.isOk then
    let newRevision := s.revision + 1
    let stored := putEntry (s.find req.key) req newRevision
    { status := status
      store := s.store req.key stored newRevision
      events := [⟨.put,stored.toKeyValue req.key,newRevision⟩]
      output := some ⟨stored.version,newRevision,stored.ttlGeneration⟩ }
  else ⟨status,s,[],none⟩

/-- The entries of one key, or of `[key, rangeEnd)` when an end is given. -/
def scan (key rangeEnd : Bytes) : List (Bytes × ValueEntry) :=
  if rangeEnd.isEmpty then (lookup Prod.fst key s.data).toList
  else slice Prod.fst key rangeEnd s.data

/-- Entries of a range together with the revision they were read at. -/
def range (key rangeEnd : Bytes) : List KeyValueEntry × Int :=
  ((s.scan key rangeEnd).map fun e => e.2.toKeyValue e.1, s.revision)

structure DeleteRequest where
  key : Bytes
  rangeEnd : Bytes := []
  expectedModRevision : Int := coordinatorNoModRevisionCheck
deriving DecidableEq, Repr

def delete (s : MemoryKvStore) (req : DeleteRequest) : Outcome DeleteOutput :=
  if req.expectedModRevision ≠ coordinatorNoModRevisionCheck ∧ ¬ req.rangeEnd.isEmpty then
    ⟨⟨.invalid,"modification revision fence only supports exact-key delete"⟩,s,[],none⟩
  else
    match s.scan req.key req.rangeEnd with
    | [] => ⟨.success,s,[],some ⟨0,s.revision,[]⟩⟩
    | front :: rest =>
      if req.expectedModRevision ≠ coordinatorNoModRevisionCheck ∧
          front.2.modRevision ≠ req.expectedModRevision then
        ⟨⟨.tryAgain,"modification revision mismatch"⟩,s,[],none⟩
      else
        let newRevision := s.revision + 1
        let deletedEntries := (front :: rest).map fun e => e.2.toKeyValue e.1
        { status := .success
          store := s.eraseAll ((front :: rest).map Prod.fst) newRevision
          events := deletedEntries.map fun e => ⟨.delete,e,newRevision⟩
          output := some ⟨deletedEntries.length,newRevision,deletedEntries⟩ }

/-- Delete a key on behalf of an expired lease. The output is the returned truth value. -/
def deleteIfTtlExpired (key : Bytes) (revision : Int) (ttlGeneration : Nat) : Outcome Bool :=
  match s.find key with
  | none => ⟨.success,s,[],some false⟩
  | some entry =>
    if entry.modRevision ≠ revision then ⟨.success,s,[],some false⟩
    else if entry.ttlMs ≤ 0 ∨ entry.ttlGeneration ≠ ttlGeneration then
      ⟨.success,s,[],some false⟩
    else
      let deleteRevision := s.revision + 1
      { status := .success
        store := s.eraseAll [key] deleteRevision
        events := [⟨.delete,entry.toKeyValue key,deleteRevision⟩]
        output := some true }

def keepAlive (key : Bytes) (expectedModRevision : Int := coordinatorNoModRevisionCheck) : Outcome KeepAliveOutput :=
  match s.find key with
  | none => ⟨⟨.notFound,"key has no TTL"⟩,s,[],none⟩
  | some entry =>
    if entry.ttlMs ≤ 0 then ⟨⟨.notFound,"key has no TTL"⟩,s,[],none⟩
    else if expectedModRevision ≠ coordinatorNoModRevisionCheck ∧
        entry.modRevision ≠ expectedModRevision then
      ⟨⟨.tryAgain,"modification revision mismatch"⟩,s,[],none⟩
    else
      let renewed := { entry with ttlGeneration := entry.ttlGeneration + 1 }
      { status := .success
        store := s.store key renewed s.revision
        events := []
        output := some
          ⟨renewed.ttlMs,renewed.ttlMs,renewed.modRevision,renewed.ttlGeneration⟩ }

/-- Whether a key lies in an exact-key scope (empty end) or in `[key, rangeEnd)`. -/
def inScope (key rangeEnd k : Bytes) : Bool :=
  if rangeEnd.isEmpty then k = key else decide (key ≤ k ∧ k < rangeEnd)

def visible (k : Bytes) : Option KeyValueEntry := (s.find k).map (ValueEntry.toKeyValue k)

section Lookup

@[simp] theorem find_store (key k : Bytes) (entry : ValueEntry) (revision : Int) :
    (s.store key entry revision).find k = if k = key then some entry else s.find k := by
  rw [find,store,lookup_upsert]
  split_ifs <;> rfl

@[simp] theorem store_revision (key : Bytes) (entry : ValueEntry) (revision : Int) :
    (s.store key entry revision).revision = revision := rfl

@[simp] theorem eraseAll_revision (keys : List Bytes) (revision : Int) :
    (s.eraseAll keys revision).revision = revision := rfl

private theorem lookup_foldl_remove (keys : List Bytes) (data : List (Bytes × ValueEntry)) (k : Bytes) :
    lookup Prod.fst k (keys.foldl (fun data key => remove Prod.fst key data) data) =
      if k ∈ keys then none else lookup Prod.fst k data := by
  induction keys generalizing data with
  | nil => simp
  | cons key keys ih =>
    rw [List.foldl_cons,ih,lookup_remove]
    by_cases hk : k = key <;> by_cases hmem : k ∈ keys <;> simp [hk,hmem]

@[simp] theorem find_eraseAll (keys : List Bytes) (revision : Int) (k : Bytes) :
    (s.eraseAll keys revision).find k = if k ∈ keys then none else s.find k := by
  rw [find,eraseAll,lookup_foldl_remove]
  split_ifs <;> rfl

theorem scan_eq (key rangeEnd : Bytes) : s.scan key rangeEnd = s.data.filter fun e => inScope key rangeEnd e.1 := by
  unfold scan inScope
  cases hend : rangeEnd.isEmpty with
  | false => simpa using s.sorted.slice_eq key rangeEnd
  | true =>
    simp only [if_true]
    -- both sides are sorted lists with the single possible key `key`
    have hsingle : Sorted Prod.fst (lookup Prod.fst key s.data).toList := by
      cases lookup Prod.fst key s.data <;> simp [Sorted]
    refine hsingle.ext (s.sorted.filter _) ?_
    intro k
    rw [lookup_filter (fun x => decide (x = key)) k]
    cases hl : lookup Prod.fst key s.data with
    | none =>
      rw [Option.toList_none,lookup_nil]
      by_cases hk : k = key
      · subst hk
        simp [hl]
      · simp [hk]
    | some e =>
      have he := lookup_key Prod.fst hl
      rw [Option.toList_some,lookup_cons,lookup_nil,he]
      by_cases hk : k = key
      · subst hk
        simp [hl]
      · simp [hk,Ne.symm hk]

theorem scan_sorted (key rangeEnd : Bytes) : Sorted Prod.fst (s.scan key rangeEnd) := by
  rw [scan_eq]
  exact s.sorted.filter _

theorem lookup_scan (key rangeEnd k : Bytes) : (lookup Prod.fst k (s.scan key rangeEnd)).map Prod.snd =
      if inScope key rangeEnd k then s.find k else none := by
  rw [scan_eq,lookup_filter (fun x => inScope key rangeEnd x) k]
  unfold find
  split_ifs <;> rfl

end Lookup

end MemoryKvStore

end Datasystem.Coordinator
