import Datasystem.Lib.Bytes
import Datasystem.Status

/-!
# Rollback of metadata

A persistence-only rollback queues a deletion of every key. The keys are sorted before, the versions are not.
-/

namespace Datasystem.Master

open List

structure RollbackRequest where
  objectKeys : List Bytes
  versions : List UInt64
  address : Bytes := []
  redirect : Bool := false

/-- What the redirect decisions, the configuration and the store say. -/
structure RollbackAnswer where
  moving : Bytes → Bool := fun _ => false
  redirected : Bytes → Bool := fun _ => false
  useWorkerDeleteRpc : Bool := false
  persisted : Bytes → Bool := fun _ => true

structure Rollback where
  deleteIds : List (Bytes × UInt64)
  status : Status := .success
  metaIsMoving : Bool := false
  info : List Bytes := []
  failedObjectKeys : List Bytes := []

variable (req : RollbackRequest) (a : RollbackAnswer) (deleteIds : List (Bytes × UInt64))

/-- `RollbackMultiMeta` for a persistence-only request. -/
def rollbackMultiMeta : Rollback :=
  let objectKeys := req.objectKeys.insertionSort (· ≤ ·)
  if req.redirect && objectKeys.any a.moving then { deleteIds, metaIsMoving := true }
  else if req.redirect && objectKeys.any a.redirected then { deleteIds, info := objectKeys.filter a.redirected }
  else
    -- `InsertDeletedObject` ignores a deletion without a worker where the workers delete.
    let inserted := if a.useWorkerDeleteRpc && req.address.isEmpty then [] else objectKeys.zip req.versions
    { deleteIds := inserted.filter (fun p => a.persisted p.1) ∪ deleteIds
      status := if objectKeys.length ≤ req.versions.length then .success
        else ⟨.runtimeError,"No object version found"⟩
      failedObjectKeys := (inserted.filter fun p => !a.persisted p.1).map Prod.fst }

/-- Every new deletion has the version of its key, and every key has its deletion or is reported unless keys are
redirected or moving. -/
def Paired : Prop :=
  let after := rollbackMultiMeta req a deleteIds
  (∀ p ∈ after.deleteIds, p ∈ deleteIds ∨ p ∈ req.objectKeys.zip req.versions) ∧
    ((∀ k ∈ req.objectKeys, a.moving k = false ∧ a.redirected k = false) →
      ∀ p ∈ req.objectKeys.zip req.versions, p ∈ after.deleteIds ∨ p.1 ∈ after.failedObjectKeys)

variable {req}

theorem eq_of_zip_subset {l keys : List Bytes} {versions : List UInt64} (hl : l.length = versions.length)
    (hkeys : keys.length = versions.length) (hversions : versions.Nodup)
    (h : ∀ p ∈ l.zip versions, p ∈ keys.zip versions) : l = keys := by
  refine ext_getElem (hl.trans hkeys.symm) fun i hi hi' => ?_
  have hmem : (l[i], versions[i]) ∈ l.zip versions := mem_iff_getElem.mpr ⟨i,by simp; omega,by simp⟩
  obtain ⟨j,hj,hpair⟩ := getElem_of_mem (h _ hmem)
  grind [Nodup.getElem_inj_iff]

theorem rollback_paired_iff (hlen : req.objectKeys.length = req.versions.length) (hversions : req.versions.Nodup)
    (useWorkerDeleteRpc : Bool) :
    (∀ a deleteIds, a.useWorkerDeleteRpc = useWorkerDeleteRpc → Paired req a deleteIds) ↔ req.objectKeys = [] ∨
      req.objectKeys.Pairwise (· ≤ ·) ∧ (useWorkerDeleteRpc && req.address.isEmpty) = false := by
  constructor
  · intro h
    by_cases hnil : req.objectKeys = []
    · exact Or.inl hnil
    -- All keys are local and all deletions are stored.
    obtain ⟨hnew,hall⟩ := h { useWorkerDeleteRpc } [] rfl
    cases hignored : useWorkerDeleteRpc && req.address.isEmpty with
    | true =>
      have hzip : req.objectKeys.zip req.versions = [] := by
        simpa [rollbackMultiMeta,hignored,eq_nil_iff_forall_not_mem] using hall
      simpa [← hlen,hnil] using congrArg length hzip
    | false =>
      simp only [rollbackMultiMeta,hignored] at hnew
      have hsort : req.objectKeys.insertionSort (· ≤ ·) = req.objectKeys :=
        eq_of_zip_subset (by simpa using hlen) hlen hversions (by simpa using hnew)
      refine Or.inr ⟨?_,rfl⟩
      rw [← hsort]
      exact pairwise_insertionSort _ _
  · rintro hcondition a deleteIds rfl
    have hsort : req.objectKeys.insertionSort (· ≤ ·) = req.objectKeys := by
      rcases hcondition with hnil | ⟨hsorted,_⟩
      · simp [hnil]
      · exact hsorted.insertionSort_eq
    rw [Paired,rollbackMultiMeta,hsort]
    split_ifs <;> refine ⟨by grind,fun _ p hp => ?_⟩ <;> cases hpersisted : a.persisted p.1 <;> grind

theorem rollback_paired_iff_sorted : Paired { objectKeys := [[1],[2]], versions := [10,20] } {} [] :=
  (rollback_paired_iff rfl (by decide) false).mpr (Or.inr ⟨by decide,rfl⟩) _ _ rfl

theorem rollback_swaps_versions : ¬ Paired { objectKeys := [[2],[1]], versions := [10,20] } {} [] :=
  fun h => absurd (h.1 ([1], 10) (by decide)) (by decide)

end Datasystem.Master
