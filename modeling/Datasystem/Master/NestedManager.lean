import Datasystem.Master.ObjectMeta
import Datasystem.ObjectCache.ObjectRefInfo

/-!
# Nested objects

A master keeps which keys are nested in an object, and how often an object is nested in others; both are also
in RocksDB.
-/

namespace Datasystem.Master

open ObjectCache

structure OCNestedManager where
  /-- The keys that are nested in an object, in their order. -/
  dependencyTable : Finmap fun _ : Bytes => List Bytes := ∅
  nestedRef : ObjectRefInfo false Bytes := {}
  /-- In RocksDB: the keys that are nested in an object, by `nestedKey`. -/
  nestedTable : Finmap fun _ : Bytes => Bytes := ∅
  nestedCountTable : Finmap fun _ : Bytes => UInt32 := ∅

namespace OCNestedManager

variable (c : StoreConfig)

/-- The text under which it is stored that a key is nested in an object. -/
def nestedKey (parentObjKey childObjKey : Bytes) : Bytes := parentObjKey ++ 95 :: childObjKey

variable (n : OCNestedManager)

def getRefCount (key : Bytes) : UInt32 := (n.nestedRef.objectKeys.lookup key).getD 0

def checkIsNoneNestedRefById (key : Bytes) : Bool := n.getRefCount key = 0

variable (parentObjectKey : Bytes) (nestedObjectKeys : List Bytes)

def nestedKeysCanSet : Bool :=
  match n.dependencyTable.lookup parentObjectKey with
  | none => true
  | some keys => keys = [] ∨ keys = nestedObjectKeys

def isNestedKeysDiff : Bool := n.dependencyTable.lookup parentObjectKey ≠ some nestedObjectKeys

def addNestedRelationship (parentObjKey childObjKey : Bytes) (a : WriteAnswer) : Status × OCNestedManager :=
  if !c.isPersistenceEnabled then (.success, n)
  else
    (a.status,
      if a.effect then { n with nestedTable := n.nestedTable.insert (nestedKey parentObjKey childObjKey) childObjKey }
      else n)

def removeNestedRelationship (parentObjKey childObjKey : Bytes) (a : WriteAnswer) : Status × OCNestedManager :=
  if !c.isPersistenceEnabled then (.success, n)
  else
    (a.status, if a.effect then { n with nestedTable := n.nestedTable.erase (nestedKey parentObjKey childObjKey) } else n)

def updateNestedRefCount (objKey : Bytes) (count : UInt32) (a : WriteAnswer) : Status × OCNestedManager :=
  if !c.isPersistenceEnabled then (.success, n)
  else (a.status, if a.effect then { n with nestedCountTable := n.nestedCountTable.insert objKey count } else n)

def removeNestedRefCount (objKey : Bytes) (a : WriteAnswer) : Status × OCNestedManager :=
  if !c.isPersistenceEnabled then (.success, n)
  else (a.status, if a.effect then { n with nestedCountTable := n.nestedCountTable.erase objKey } else n)

/-- The loop of `IncreaseNestedRefCnt` over the keys that are nested in an object. -/
def addNestedRelationships (parentObjectKey : Bytes) (answer : Bytes → WriteAnswer) :
    List Bytes → OCNestedManager → Status × OCNestedManager
  | [], n => (.success, n)
  | id :: ids, n =>
    let (rc, n) := n.addNestedRelationship c parentObjectKey id (answer id)
    if !rc.isOk then (rc, n) else addNestedRelationships parentObjectKey answer ids n

variable (answer : Bytes → WriteAnswer)

/-- `IncreaseNestedRefCnt` for an object and the keys that are nested in it. -/
def increaseNestedKeys : Status × OCNestedManager :=
  let (rc, n) := addNestedRelationships c parentObjectKey answer nestedObjectKeys n
  if !rc.isOk then (rc, n)
  else (.success, { n with dependencyTable := n.dependencyTable.insert parentObjectKey nestedObjectKeys })

/-- `IncreaseNestedRefCnt` for a key that is nested. -/
def increaseNestedRefCnt (nestedObjectKey : Bytes) (ref : UInt32) (a : WriteAnswer) : Status × OCNestedManager :=
  let n := { n with nestedRef := (n.nestedRef.addRef nestedObjectKey ref).2 }
  let (rc, n) := n.updateNestedRefCount c nestedObjectKey (n.getRefCount nestedObjectKey) a
  if !rc.isOk then
    (rc, { n with
      nestedRef := (List.range ref.toNat).foldl (fun info _ => (info.removeRef nestedObjectKey).2) n.nestedRef })
  else (.success, n)

/-- The loop of `DecreaseNestedRefCnt`, which also gives the keys that are nested in no object any more. -/
def decreaseNestedLoop (parentObjectKey : Bytes) (answer : Bytes → WriteAnswer) :
    List Bytes → OCNestedManager → Status × List Bytes × OCNestedManager
  | [], n => (.success, [], n)
  | id :: ids, n =>
    let n := { n with nestedRef := (n.nestedRef.removeRef id).2 }
    let zeroRefId := if n.nestedRef.contains id then [] else [id]
    let (rc, n) := n.removeNestedRelationship c parentObjectKey id (answer id)
    if !rc.isOk then (rc, zeroRefId, n)
    else
      let (rc, zeroRefIds, n) := decreaseNestedLoop parentObjectKey answer ids n
      (rc, zeroRefId ++ zeroRefIds, n)

/-- `DecreaseNestedRefCnt` for an object that goes. -/
def decreaseNestedKeys : Status × List Bytes × OCNestedManager :=
  match n.dependencyTable.lookup parentObjectKey with
  | none => (.success, [], n)
  | some ids =>
    let (rc, zeroRefIds, n) := decreaseNestedLoop c parentObjectKey answer ids n
    if !rc.isOk then (rc, zeroRefIds, n)
    else (.success, zeroRefIds, { n with dependencyTable := n.dependencyTable.erase parentObjectKey })

/-- `DecreaseNestedRefCnt` for a key that is nested. -/
def decreaseNestedRefCnt (nestedObjectKey : Bytes) (a : WriteAnswer) : Status × OCNestedManager :=
  let removed := n.nestedRef.removeRef nestedObjectKey
  if removed.1 then
    let n := { n with nestedRef := removed.2 }
    let count := n.getRefCount nestedObjectKey
    (.success,
      if count ≠ 0 then (n.updateNestedRefCount c nestedObjectKey count a).2
      else (n.removeNestedRefCount c nestedObjectKey a).2)
  else (⟨.notFound,"This Object had no dependencies"⟩, n)

def removeRelationshipData : OCNestedManager :=
  match n.dependencyTable.lookup parentObjectKey with
  | none => n
  | some ids =>
    let n := ids.foldl (fun n id => (n.removeNestedRelationship c parentObjectKey id (answer id)).2) n
    { n with dependencyTable := n.dependencyTable.erase parentObjectKey }

def removeNestIdsRef (answer : Bytes → WriteAnswer) : List Bytes → OCNestedManager → OCNestedManager
  | [], n => n
  | id :: ids, n =>
    let removed := n.nestedRef.removeRef id
    let n := { n with nestedRef := removed.2 }
    removeNestIdsRef answer ids (if removed.1 then (n.removeNestedRefCount c id (answer id)).2 else n)

/-- What is before the last underscore of a stored key. -/
def parentIdOf (key : Bytes) : Option Bytes :=
  if key.contains 95 then some (key.reverse.dropWhile (· ≠ 95)).tail.reverse else none

def childrenOf : List Bytes := (n.dependencyTable.lookup parentObjectKey).getD []

/-- The first loop of `RecoverRelationshipData`, over the entries of the table of the relationships. -/
def recoverRelationships : List (Bytes × Bytes) → OCNestedManager → Status × OCNestedManager
  | [], n => (.success, n)
  | (key, id) :: metas, n =>
    match parentIdOf key with
    | none => (⟨.runtimeError,"Parse key to parentId failed"⟩, n)
    | some parentId =>
      let ids := n.childrenOf parentId
      recoverRelationships metas { n with
        dependencyTable := n.dependencyTable.insert parentId (if id ∈ ids then ids else ids.orderedInsert (· ≤ ·) id) }

/-- The second loop, over the entries of the table of the counts. A count is parsed as a signed integer. -/
def recoverCounts : List (Bytes × UInt32) → OCNestedManager → Status × OCNestedManager
  | [], n => (.success, n)
  | (key, count) :: metas, n =>
    if count ≤ 2147483647 then
      recoverCounts metas { n with nestedRef := ⟨n.nestedRef.objectKeys.insert key count⟩ }
    else (⟨.invalid,"Parse failed with count"⟩, n)

def recoverRelationshipData (metas : List (Bytes × Bytes)) (counts : List (Bytes × UInt32)) :
    Status × OCNestedManager :=
  let (rc, n) := recoverRelationships metas n
  if !rc.isOk then (rc, n) else recoverCounts counts n

end OCNestedManager

end Datasystem.Master
