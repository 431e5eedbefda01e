import Datasystem.ObjectCache.SharedMemoryRefTable

/-!
# The counts of shared memory

As long as no client with unique counts adds a unit that it holds alone once more, and no client leaves that
holds a unit more than once, the counts of the clients, the units and the allocator agree.
-/

namespace Datasystem.ObjectCache

open SharedMemoryRefTable Finmap Function ObjectRefInfo

namespace ObjectRefInfo

variable {isUniqueCnt : Bool} (info : ObjectRefInfo isUniqueCnt Bytes)

def count (shmId : Bytes) : ℕ := (info.objectKeys.lookup shmId).elim 0 UInt32.toNat

/-- An entry counts something, and just one with unique counts. -/
def WellFormed : Prop := ∀ shmId n, info.objectKeys.lookup shmId = some n → n ≠ 0 ∧ (isUniqueCnt = true → n = 1)

variable {info}

theorem count_of_lookup {shmId : Bytes} {n : UInt32} (h : info.objectKeys.lookup shmId = some n) :
    info.count shmId = n.toNat := by
  simp [count,h]

theorem count_of_none {shmId : Bytes} (h : info.objectKeys.lookup shmId = none) : info.count shmId = 0 := by
  simp [count,h]

theorem count_insert (shmId : Bytes) (n : UInt32) (u : Bytes) :
    (⟨info.objectKeys.insert shmId n⟩ : ObjectRefInfo isUniqueCnt Bytes).count u =
      if u = shmId then n.toNat else info.count u := by
  by_cases hu : u = shmId
  · subst hu
    simp [count]
  · simp [count,hu]

theorem count_erase (shmId u : Bytes) : (⟨info.objectKeys.erase shmId⟩ : ObjectRefInfo isUniqueCnt Bytes).count u =
      if u = shmId then 0 else info.count u := by
  by_cases hu : u = shmId
  · subst hu
    simp [count]
  · simp [count,hu,lookup_erase_ne]

theorem WellFormed.insert (h : info.WellFormed) {shmId : Bytes} {n : UInt32} (hn : n ≠ 0)
    (hunique : isUniqueCnt = true → n = 1) :
    (⟨info.objectKeys.insert shmId n⟩ : ObjectRefInfo isUniqueCnt Bytes).WellFormed := by
  intro u m hm
  by_cases hu : u = shmId
  · subst hu
    rw [lookup_insert] at hm
    cases hm
    exact ⟨hn,hunique⟩
  · rw [lookup_insert_of_ne _ hu] at hm
    exact h u m hm

theorem WellFormed.erase (h : info.WellFormed) (shmId : Bytes) :
    (⟨info.objectKeys.erase shmId⟩ : ObjectRefInfo isUniqueCnt Bytes).WellFormed := by
  intro u m hm
  by_cases hu : u = shmId
  · subst hu
    rw [lookup_erase] at hm
    cases hm
  · rw [lookup_erase_ne hu] at hm
    exact h u m hm

theorem addRef_spec (h : info.WellFormed) (shmId : Bytes) (hlt : info.count shmId + 1 < 2 ^ 32) :
    (info.addRef shmId).2.WellFormed ∧ ((info.addRef shmId).1 = false ↔ isUniqueCnt = true ∧ 0 < info.count shmId) ∧
        ∀ u, (info.addRef shmId).2.count u =
          if u = shmId then info.count shmId + (if (info.addRef shmId).1 then 1 else 0) else info.count u := by
  unfold addRef
  cases hlookup : info.objectKeys.lookup shmId with
  | none =>
    refine ⟨h.insert (by decide) fun _ => rfl,by simp [count_of_none hlookup],?_⟩
    intro u
    rw [count_insert,count_of_none hlookup]
    rfl
  | some n =>
    have hn := h shmId n hlookup
    have hpos : 0 < n.toNat := Nat.pos_of_ne_zero fun hzero => hn.1 (UInt32.toNat_inj.mp hzero)
    rw [count_of_lookup hlookup] at hlt ⊢
    cases isUniqueCnt with
    | true =>
      refine ⟨h,by simp [hpos],?_⟩
      intro u
      by_cases hu : u = shmId
      · subst hu
        simp [count_of_lookup hlookup]
      · simp [hu]
    | false =>
      have hadd : (n + 1).toNat = n.toNat + 1 := by
        rw [UInt32.toNat_add]
        exact Nat.mod_eq_of_lt hlt
      refine ⟨h.insert ?_ (by simp),by simp,?_⟩
      · intro hzero
        rw [hzero] at hadd
        simp at hadd
      · intro u
        simp only [count_insert,hadd,Bool.false_eq_true,if_false,if_true]

theorem removeAndGetRefCnt_spec (h : info.WellFormed) (shmId : Bytes) : (info.removeAndGetRefCnt shmId).2.WellFormed ∧
      ((info.removeAndGetRefCnt shmId).1.1 = true ↔ 0 < info.count shmId) ∧
        (info.removeAndGetRefCnt shmId).1.2.toNat = info.count shmId - 1 ∧
          ∀ u, (info.removeAndGetRefCnt shmId).2.count u =
            if u = shmId then info.count shmId - 1 else info.count u := by
  unfold removeAndGetRefCnt
  cases hlookup : info.objectKeys.lookup shmId with
  | none =>
    have hzero := count_of_none hlookup
    refine ⟨h,by simp [hzero],by simp [hzero],?_⟩
    intro u
    by_cases hu : u = shmId
    · simp [hu,hzero]
    · simp [hu]
  | some n =>
    have hn := h shmId n hlookup
    have hpos : 0 < n.toNat := Nat.pos_of_ne_zero fun hzero => hn.1 (UInt32.toNat_inj.mp hzero)
    have hcount := count_of_lookup hlookup
    have hsub : (n - 1).toNat = n.toNat - 1 := by
      rw [UInt32.toNat_sub_of_le]
      · rfl
      · rw [UInt32.le_iff_toNat_le]
        exact hpos
    cases isUniqueCnt with
    | true =>
      have hone : n.toNat = 1 := by
        rw [hn.2 rfl]
        rfl
      refine ⟨h.erase shmId,by simp [hcount,hpos],by simp [hcount,hone],?_⟩
      intro u
      simp [count_erase,hcount,hone]
    | false =>
      by_cases hlast : n - 1 = 0
      · have hone : n.toNat - 1 = 0 := by
          rw [← hsub,hlast]
          rfl
        simp only [Bool.false_eq_true,if_false,hlast,if_true]
        refine ⟨h.erase shmId,by simp [hcount,hpos],by simp [hcount,hone],?_⟩
        intro u
        rw [count_erase,hcount,hone]
      · simp only [Bool.false_eq_true,if_false,hlast]
        refine ⟨h.insert hlast (by simp),by simp [hcount,hpos],by rw [hcount,hsub],?_⟩
        intro u
        rw [count_insert,hcount,hsub]

end ObjectRefInfo

section Int32

variable {x : Int32}

theorem int32_pos_iff : 0 < x ↔ 0 < x.toInt := by
  rw [Int32.lt_iff_toInt_lt]
  rfl

theorem int32_eq_zero_iff : x = 0 ↔ x.toInt = 0 := by
  rw [← Int32.toInt_inj]
  rfl

theorem int32_eq_one_iff : x = 1 ↔ x.toInt = 1 := by
  rw [← Int32.toInt_inj]
  rfl

theorem int32_toInt_add_one (h : 0 ≤ x.toInt) (hlt : x.toInt + 1 < 2 ^ 31) : (x + 1).toInt = x.toInt + 1 := by
  have hone : (1 : Int32).toInt = 1 := rfl
  rw [Int32.toInt_add,hone,Int.bmod_eq_of_le]
  · omega
  · omega

theorem int32_toInt_sub_one (h : 0 < x.toInt) : (x - 1).toInt = x.toInt - 1 := by
  have hone : (1 : Int32).toInt = 1 := rfl
  have hlt := x.toInt_lt
  rw [Int32.toInt_sub,hone,Int.bmod_eq_of_le]
  · omega
  · omega

end Int32

namespace SharedMemoryRefTable

variable (t : SharedMemoryRefTable)

def heldBy (clientId shmId : Bytes) : ℕ := t.clientRefTable.weight (fun info => info.refs.count shmId) clientId

def held (shmId : Bytes) : ℕ := t.clientRefTable.sumOver fun info => info.refs.count shmId

def referenced : Set Bytes := {shmId | 0 < t.refCount shmId}

/-- The counts of the clients, the units and the allocator agree. -/
structure InOrder (t : SharedMemoryRefTable) : Prop where
  refCount_eq : ∀ shmId, (t.refCount shmId).toInt = t.held shmId
  clients_iff : ∀ shmId clientId, clientId ∈ refsOf t.shmRefTable shmId ↔ 0 < t.heldBy clientId shmId
  pages : t.referenced.Finite ∧ t.refPageCount = t.referenced.ncard

/-- What is kept besides: no unit without clients is in the table. -/
structure Inv (t : SharedMemoryRefTable) : Prop extends InOrder t where
  wellFormed : ∀ clientId info, t.clientRefTable.lookup clientId = some info → info.refs.WellFormed
  stored : ∀ shmId, t.shmRefTable.lookup shmId ≠ some ∅

variable {t t' : SharedMemoryRefTable} {clientId : Bytes} {info : ShmClientInfo}

theorem heldBy_of_lookup (h : t.clientRefTable.lookup clientId = some info) (shmId : Bytes) :
    t.heldBy clientId shmId = info.refs.count shmId :=
  weight_of_lookup h

theorem count_clientTableGetOrInsert (t : SharedMemoryRefTable) (clientId shmId : Bytes) :
    (t.clientTableGetOrInsert clientId).refs.count shmId = t.heldBy clientId shmId := by
  unfold clientTableGetOrInsert heldBy weight
  cases t.clientRefTable.lookup clientId <;> rfl

theorem heldBy_le_held (t : SharedMemoryRefTable) (clientId shmId : Bytes) : t.heldBy clientId shmId ≤ t.held shmId :=
  weight_le_sumOver _ _

theorem ncard_referenced (shmId : Bytes) (hfinite : t.referenced.Finite)
    (hother : ∀ v, v ≠ shmId → t'.refCount v = t.refCount v) :
    t'.referenced.Finite ∧ (t'.referenced.ncard : ℤ) =
      t.referenced.ncard + (if 0 < t'.refCount shmId then 1 else 0) - (if 0 < t.refCount shmId then 1 else 0) := by
  have hmem : ∀ v, v ≠ shmId → (v ∈ t'.referenced ↔ v ∈ t.referenced) := by
    intro v hv
    simp only [referenced,Set.mem_setOf_eq,hother v hv]
  by_cases hnew : 0 < t'.refCount shmId
  · have hset : t'.referenced = insert shmId t.referenced := by
      ext v
      by_cases hv : v = shmId
      · subst hv
        simpa [referenced] using hnew
      · simp [hmem v hv,hv]
    rw [hset,if_pos hnew]
    refine ⟨hfinite.insert _,?_⟩
    by_cases hold : 0 < t.refCount shmId
    · rw [Set.insert_eq_of_mem (by exact hold),if_pos hold]
      omega
    · rw [Set.ncard_insert_of_notMem (by exact hold) hfinite,if_neg hold]
      push_cast
      omega
  · have hset : t'.referenced = t.referenced \ {shmId} := by
      ext v
      by_cases hv : v = shmId
      · subst hv
        simpa [referenced] using hnew
      · simp [hmem v hv,hv]
    rw [hset,if_neg hnew]
    refine ⟨hfinite.diff,?_⟩
    by_cases hold : 0 < t.refCount shmId
    · rw [Set.ncard_diff_singleton_of_mem (by exact hold),if_pos hold]
      have hpos : 0 < t.referenced.ncard := (Set.ncard_pos hfinite).mpr ⟨shmId,hold⟩
      omega
    · rw [Set.diff_singleton_eq_self (by exact hold),if_neg hold]
      omega

namespace Inv

theorem congr (h : Inv t) (hclient : t'.clientRefTable = t.clientRefTable) (hshm : t'.shmRefTable = t.shmRefTable)
    (hcount : t'.refCount = t.refCount) (hpages : t'.refPageCount = t.refPageCount) : Inv t' := by
  have hreferenced : t'.referenced = t.referenced := by rw [referenced,hcount,referenced]
  refine ⟨⟨?_,?_,?_⟩,?_,?_⟩
  · rw [hcount]
    unfold held
    rw [hclient]
    exact h.refCount_eq
  · rw [hshm]
    unfold heldBy
    rw [hclient]
    exact h.clients_iff
  · rw [hreferenced,hpages]
    exact h.pages
  · rw [hclient]
    exact h.wellFormed
  · rw [hshm]
    exact h.stored

theorem change (h : Inv t) (shmId : Bytes) {info : ShmClientInfo} {n : ℕ}
    (hclient : t'.clientRefTable = t.clientRefTable.insert clientId info) (hwell : info.refs.WellFormed)
    (hinfo : ∀ v, info.refs.count v = if v = shmId then n else t.heldBy clientId v)
    (hother : ∀ v, v ≠ shmId → t'.refCount v = t.refCount v)
    (hself : (t'.refCount shmId).toInt + t.heldBy clientId shmId = (t.refCount shmId).toInt + n)
    (hclients : ∀ v c, c ∈ refsOf t'.shmRefTable v ↔
      if v = shmId ∧ c = clientId then 0 < n else c ∈ refsOf t.shmRefTable v)
    (hstored : ∀ v, t'.shmRefTable.lookup v ≠ some ∅)
    (hpages : t'.refPageCount =
      t.refPageCount + (if 0 < t'.refCount shmId then 1 else 0) - (if 0 < t.refCount shmId then 1 else 0)) :
    Inv t' := by
  have hheld : ∀ v, t'.held v + t.heldBy clientId v = t.held v + info.refs.count v := by
    intro v
    rw [held,hclient]
    exact sumOver_insert _ _ _
  refine ⟨⟨?_,?_,?_⟩,?_,hstored⟩
  · intro v
    have hv := hheld v
    rw [hinfo] at hv
    have hbefore := h.refCount_eq v
    by_cases hvs : v = shmId
    · subst hvs
      rw [if_pos rfl] at hv
      omega
    · rw [if_neg hvs] at hv
      rw [hother v hvs]
      omega
  · intro v c
    have hheldBy : t'.heldBy c v = if c = clientId then info.refs.count v else t.heldBy c v := by
      unfold heldBy
      rw [hclient,weight_insert]
    rw [hclients,hheldBy]
    by_cases hc : c = clientId
    · subst hc
      rw [if_pos rfl,hinfo]
      by_cases hv : v = shmId
      · simp [hv]
      · simp only [hv,false_and,if_false]
        exact h.clients_iff v c
    · simp only [hc,and_false,if_false]
      exact h.clients_iff v c
  · obtain ⟨hfinite,hncard⟩ := ncard_referenced shmId h.pages.1 hother
    refine ⟨hfinite,?_⟩
    rw [hpages,h.pages.2,hncard]
  · intro c info' hlookup
    rw [hclient] at hlookup
    by_cases hc : c = clientId
    · subst hc
      rw [lookup_insert] at hlookup
      cases hlookup
      exact hwell
    · rw [lookup_insert_of_ne _ hc] at hlookup
      exact h.wellFormed c info' hlookup

theorem enter (h : Inv t) (hwell : info.refs.WellFormed) (hinfo : ∀ v, info.refs.count v = t.heldBy clientId v) :
    Inv { t with clientRefTable := t.clientRefTable.insert clientId info } := by
  apply h.change [] (n := t.heldBy clientId []) rfl hwell
  · intro v
    rw [hinfo]
    split_ifs with hv
    · rw [hv]
    · rfl
  · exact fun v _ => rfl
  · rfl
  · intro v c
    split_ifs with hvc
    · rw [hvc.1,hvc.2]
      exact h.clients_iff [] clientId
    · exact Iff.rfl
  · exact h.stored
  · dsimp only
    omega

theorem wellFormed_getOrInsert (h : Inv t) (clientId : Bytes) : (t.clientTableGetOrInsert clientId).refs.WellFormed := by
  unfold clientTableGetOrInsert
  cases hlookup : t.clientRefTable.lookup clientId with
  | none =>
    intro u n hn
    cases hn
  | some info => exact h.wellFormed clientId info hlookup

theorem refCount_nonneg (h : Inv t) (shmId : Bytes) : 0 ≤ (t.refCount shmId).toInt := by
  rw [h.refCount_eq]
  exact Int.natCast_nonneg _

end Inv

/-- A reference can be added: the count of the unit has room, and a client with unique counts does not hold the
unit alone already. -/
structure AddOk (t : SharedMemoryRefTable) (clientId shmId : Bytes) : Prop where
  room : (t.refCount shmId).toInt + 1 < 2 ^ 31
  first : (t.clientTableGetOrInsert clientId).isUniqueCnt = true → 0 < t.heldBy clientId shmId → t.refCount shmId ≠ 1

theorem refsOf_insert (table : Finmap fun _ : Bytes => Finset Bytes) (shmId : Bytes) (clients : Finset Bytes) (v : Bytes) :
    refsOf (table.insert shmId clients) v = if v = shmId then clients else refsOf table v := by
  unfold refsOf
  by_cases hv : v = shmId
  · subst hv
    simp
  · simp [hv]

theorem refsOf_erase (table : Finmap fun _ : Bytes => Finset Bytes) (shmId v : Bytes) :
    refsOf (table.erase shmId) v = if v = shmId then ∅ else refsOf table v := by
  unfold refsOf
  by_cases hv : v = shmId
  · subst hv
    simp
  · simp [hv,lookup_erase_ne]

variable {shmId : Bytes}

theorem Inv.addShmUnit (h : Inv t) (hok : t.AddOk clientId shmId) (requestTimeoutMs : ℤ) (nowMs : ℕ) :
    Inv (t.addShmUnit clientId shmId requestTimeoutMs nowMs) := by
  have hcount := count_clientTableGetOrInsert t clientId
  have heq := h.refCount_eq shmId
  have hle := t.heldBy_le_held clientId shmId
  have hroom := hok.room
  have hlt : (t.clientTableGetOrInsert clientId).refs.count shmId + 1 < 2 ^ 32 := by
    rw [hcount]
    omega
  obtain ⟨hwell,hnot,hadded⟩ := addRef_spec (h.wellFormed_getOrInsert clientId) shmId hlt
  simp only [hcount] at hadded hnot
  have hstored : ∀ v, (t.addShmUnit clientId shmId requestTimeoutMs nowMs).shmRefTable.lookup v ≠ some ∅ := by
    intro v
    by_cases hv : v = shmId
    · subst hv
      simp [addShmUnit,recordMaybeExpiredShm]
    · simp only [SharedMemoryRefTable.addShmUnit,recordMaybeExpiredShm,lookup_insert_of_ne _ hv]
      exact h.stored v
  have hother : ∀ v, v ≠ shmId → (t.addShmUnit clientId shmId requestTimeoutMs nowMs).refCount v = t.refCount v :=
    fun v hv => update_of_ne hv _ _
  have hself : (t.addShmUnit clientId shmId requestTimeoutMs nowMs).refCount shmId =
      if ((t.clientTableGetOrInsert clientId).refs.addRef shmId).1 then t.refCount shmId + 1 else t.refCount shmId :=
    update_self _ _ _
  have hpositive : 0 < t.heldBy clientId shmId +
      if ((t.clientTableGetOrInsert clientId).refs.addRef shmId).1 then 1 else 0 := by
    cases hfirst : ((t.clientTableGetOrInsert clientId).refs.addRef shmId).1 with
    | true => simp
    | false => simpa using (hnot.mp hfirst).2
  refine h.change shmId rfl hwell hadded hother ?_ ?_ hstored ?_
  · rw [hself]
    split_ifs
    · rw [int32_toInt_add_one (h.refCount_nonneg shmId) hroom]
      push_cast
      omega
    · simp
  · intro v c
    have hclients : refsOf (t.addShmUnit clientId shmId requestTimeoutMs nowMs).shmRefTable v =
        if v = shmId then insert clientId (refsOf t.shmRefTable shmId) else refsOf t.shmRefTable v :=
      refsOf_insert _ _ _ _
    rw [hclients]
    by_cases hv : v = shmId
    · subst hv
      by_cases hc : c = clientId
      · simpa [hc] using hpositive
      · simp [hc]
    · simp [hv]
  · rw [hself]
    have hpages : (t.addShmUnit clientId shmId requestTimeoutMs nowMs).refPageCount =
        if (if ((t.clientTableGetOrInsert clientId).refs.addRef shmId).1 then t.refCount shmId + 1 else t.refCount shmId) = 1
        then t.refPageCount + 1 else t.refPageCount := by
      simp only [SharedMemoryRefTable.addShmUnit,recordMaybeExpiredShm,decide_eq_true_eq]
    rw [hpages]
    have hnonneg := h.refCount_nonneg shmId
    cases hfirst : ((t.clientTableGetOrInsert clientId).refs.addRef shmId).1 with
    | true =>
      have hplus := int32_toInt_add_one hnonneg hroom
      simp only [if_true,int32_eq_one_iff,int32_pos_iff,hplus]
      split_ifs <;> omega
    | false =>
      obtain ⟨hunique,hheld⟩ := hnot.mp hfirst
      have hne := hok.first hunique hheld
      simp only [Bool.false_eq_true,if_false,hne]
      omega

theorem Inv.refCount_pos (h : Inv t) {clientIds : Finset Bytes} (hshm : t.shmRefTable.lookup shmId = some clientIds) :
    0 < (t.refCount shmId).toInt := by
  have hne : clientIds.Nonempty := Finset.nonempty_iff_ne_empty.mpr fun hempty => h.stored shmId (hempty ▸ hshm)
  obtain ⟨c,hc⟩ := hne
  have hheld : 0 < t.heldBy c shmId := by
    rw [← h.clients_iff,refsOf,hshm]
    exact hc
  have hle := t.heldBy_le_held c shmId
  rw [h.refCount_eq]
  omega

theorem Inv.removeShmUnitDetail (h : Inv t) {clientIds : Finset Bytes}
    (hinfo : t.clientRefTable.lookup clientId = some info) (hshm : t.shmRefTable.lookup shmId = some clientIds)
    {forceRemoveClient : Bool} (hforce : forceRemoveClient = true → t.heldBy clientId shmId ≤ 1) :
    Inv (t.removeShmUnitDetail clientId forceRemoveClient shmId clientIds info) := by
  obtain ⟨hwell,hremoved,hleft,hcount⟩ := removeAndGetRefCnt_spec (h.wellFormed clientId info hinfo) shmId
  simp only [← heldBy_of_lookup hinfo] at hremoved hleft hcount
  have hpos := h.refCount_pos hshm
  have hother : ∀ v, v ≠ shmId →
      (t.removeShmUnitDetail clientId forceRemoveClient shmId clientIds info).refCount v = t.refCount v :=
    fun v hv => update_of_ne hv _ _
  have hself : ((t.removeShmUnitDetail clientId forceRemoveClient shmId clientIds info).refCount shmId).toInt =
      (t.refCount shmId).toInt - if 0 < t.heldBy clientId shmId then 1 else 0 := by
    simp only [SharedMemoryRefTable.removeShmUnitDetail,update_self,hremoved]
    by_cases hheld : 0 < t.heldBy clientId shmId
    · simp only [hheld,if_true,int32_pos_iff,hpos]
      exact int32_toInt_sub_one hpos
    · simp [hheld]
  have hclients : refsOf t.shmRefTable shmId = clientIds := by
    rw [refsOf,hshm]
    rfl
  -- The client leaves the unit just when it keeps no reference.
  have hkeep : (!forceRemoveClient && decide (0 < (info.refs.removeAndGetRefCnt shmId).1.2)) =
      decide (0 < t.heldBy clientId shmId - 1) := by
    simp only [UInt32.lt_iff_toNat_lt,hleft]
    cases forceRemoveClient with
    | true =>
      have hle := hforce rfl
      simp [show t.heldBy clientId shmId - 1 = 0 by omega]
    | false => rfl
  have hrefs : ∀ v, refsOf (t.removeShmUnitDetail clientId forceRemoveClient shmId clientIds info).shmRefTable v =
      if v = shmId then if 0 < t.heldBy clientId shmId - 1 then clientIds else clientIds.erase clientId
      else refsOf t.shmRefTable v := by
    intro v
    simp only [SharedMemoryRefTable.removeShmUnitDetail,hkeep,decide_eq_true_eq]
    by_cases hv : v = shmId
    · subst hv
      rw [if_pos rfl]
      split_ifs with hpositive hempty
      · exact hclients
      · rw [refsOf_erase,if_pos rfl,hempty]
      · rw [refsOf_insert,if_pos rfl]
    · rw [if_neg hv]
      split_ifs with hpositive hempty
      · rfl
      · rw [refsOf_erase,if_neg hv]
      · rw [refsOf_insert,if_neg hv]
  refine h.change shmId rfl hwell hcount hother ?_ ?_ ?_ ?_
  · rw [hself]
    split_ifs <;> omega
  · intro v c
    rw [hrefs]
    by_cases hv : v = shmId
    · subst hv
      have hself := h.clients_iff v clientId
      rw [hclients] at hself
      rw [if_pos rfl,hclients]
      by_cases hc : c = clientId
      · subst hc
        simp only [and_self,if_true]
        split_ifs with hpositive
        · rw [hself]
          omega
        · simp [hpositive]
      · simp only [hc,and_false,if_false]
        split_ifs
        · exact Iff.rfl
        · simp [hc]
    · simp [hv]
  · intro v
    simp only [SharedMemoryRefTable.removeShmUnitDetail]
    split_ifs with hcond hempty
    · exact h.stored v
    · by_cases hv : v = shmId
      · subst hv
        simp
      · rw [lookup_erase_ne hv]
        exact h.stored v
    · by_cases hv : v = shmId
      · subst hv
        simpa using hempty
      · rw [lookup_insert_of_ne _ hv]
        exact h.stored v
  · have hnew : (t.removeShmUnitDetail clientId forceRemoveClient shmId clientIds info).refPageCount =
        if ((t.removeShmUnitDetail clientId forceRemoveClient shmId clientIds info).refCount shmId).toInt = 0
        then t.refPageCount - 1 else t.refPageCount := by
      simp only [SharedMemoryRefTable.removeShmUnitDetail,update_self,decide_eq_true_eq]
      exact if_congr int32_eq_zero_iff rfl rfl
    simp only [hnew,int32_pos_iff,hpos,hself]
    split_ifs <;> omega

theorem Inv.clearMaybeExpiredShmIds (h : Inv t) (clientId : Bytes) (shmIds : List Bytes) :
    Inv (t.clearMaybeExpiredShmIds clientId shmIds) := by
  unfold SharedMemoryRefTable.clearMaybeExpiredShmIds
  split
  · exact h
  · split
    · exact h
    · exact h.congr rfl rfl rfl rfl

theorem Inv.removeShmUnit (h : Inv t) (clientId shmId : Bytes) : Inv (t.removeShmUnit clientId shmId) := by
  unfold SharedMemoryRefTable.removeShmUnit
  split
  · exact h
  · split
    · exact h
    · apply Inv.clearMaybeExpiredShmIds
      exact h.removeShmUnitDetail ‹_› ‹_› (by simp)

theorem Inv.reconcileClientShmRefs (h : Inv t) (clientId : Bytes) (confirmedExpiredShmIds : List Bytes) :
    Inv (t.reconcileClientShmRefs clientId confirmedExpiredShmIds).2 := by
  apply Inv.clearMaybeExpiredShmIds
  induction confirmedExpiredShmIds generalizing t with
  | nil => exact h
  | cons shmId shmIds ih => exact ih (h.removeShmUnit clientId shmId)

/-- The units of a batch can be added one after the other. -/
def AddsOk (t : SharedMemoryRefTable) (clientId : Bytes) (requestTimeoutMs : ℤ) (nowMs : ℕ) : List (Option Bytes) → Prop
  | [] => True
  | none :: shmUnits => t.AddsOk clientId requestTimeoutMs nowMs shmUnits
  | some shmId :: shmUnits =>
    t.AddOk clientId shmId ∧
      (t.addShmUnit clientId shmId requestTimeoutMs nowMs).AddsOk clientId requestTimeoutMs nowMs shmUnits

theorem Inv.addShmUnits (h : Inv t) {requestTimeoutMs : ℤ} {nowMs : ℕ} {shmUnits : List (Option Bytes)}
    (hok : AddsOk { t with clientRefTable := t.clientRefTable.insert clientId (t.clientTableGetOrInsert clientId) }
      clientId requestTimeoutMs nowMs shmUnits) :
    Inv (t.addShmUnits clientId shmUnits requestTimeoutMs nowMs) := by
  have henter : Inv { t with clientRefTable := t.clientRefTable.insert clientId (t.clientTableGetOrInsert clientId) } :=
    h.enter (h.wellFormed_getOrInsert clientId) (count_clientTableGetOrInsert t clientId)
  unfold SharedMemoryRefTable.addShmUnits
  generalize ({ t with clientRefTable := t.clientRefTable.insert clientId (t.clientTableGetOrInsert clientId) } :
    SharedMemoryRefTable) = s at henter hok
  induction shmUnits generalizing s with
  | nil => exact henter
  | cons shmUnit shmUnits ih =>
    cases shmUnit with
    | none => exact ih s henter hok
    | some shmId => exact ih _ (henter.addShmUnit hok.1 requestTimeoutMs nowMs) hok.2

theorem Inv.removeOfClient (h : Inv t) (hheld : t.heldBy clientId shmId ≤ 1) :
    Inv (removeOfClient clientId t shmId) ∧ ∀ v, (removeOfClient clientId t shmId).heldBy clientId v =
        if v = shmId then 0 else t.heldBy clientId v := by
  have hsame : t.heldBy clientId shmId = 0 → ∀ v, t.heldBy clientId v = if v = shmId then 0 else t.heldBy clientId v := by
    intro hzero v
    split_ifs with hv
    · rw [hv,hzero]
    · rfl
  unfold SharedMemoryRefTable.removeOfClient
  cases hinfo : t.clientRefTable.lookup clientId with
  | none =>
    refine ⟨h,hsame ?_⟩
    rw [heldBy,weight,hinfo]
    rfl
  | some info =>
    cases hshm : t.shmRefTable.lookup shmId with
    | none =>
      refine ⟨h,hsame ?_⟩
      have hiff := h.clients_iff shmId clientId
      simp only [refsOf,hshm,Option.getD_none,Finset.notMem_empty,false_iff] at hiff
      exact Nat.eq_zero_of_not_pos hiff
    | some clientIds =>
      refine ⟨h.removeShmUnitDetail hinfo hshm fun _ => hheld,?_⟩
      intro v
      have hcount := (removeAndGetRefCnt_spec (h.wellFormed clientId info hinfo) shmId).2.2.2 v
      simp only [← heldBy_of_lookup hinfo] at hcount
      have hzero : t.heldBy clientId shmId - 1 = 0 := by omega
      rw [hzero] at hcount
      rw [← hcount]
      have hafter : (t.removeShmUnitDetail clientId true shmId clientIds info).clientRefTable.lookup clientId =
          some ⟨info.isUniqueCnt,(info.refs.removeAndGetRefCnt shmId).2⟩ := lookup_insert _
      exact heldBy_of_lookup hafter v

theorem Inv.leave (h : Inv t) (hnone : ∀ v, t.heldBy clientId v = 0) (table : Finmap fun _ : Bytes => List Bytes) :
    Inv { t with clientRefTable := t.clientRefTable.erase clientId, maybeExpiredShmTable := table } := by
  refine ⟨⟨?_,?_,h.pages⟩,?_,h.stored⟩
  · intro v
    have hsum := sumOver_erase (f := fun info : ShmClientInfo => info.refs.count v) t.clientRefTable clientId
    have hzero : weight (fun info : ShmClientInfo => info.refs.count v) t.clientRefTable clientId = 0 := hnone v
    rw [hzero,Nat.add_zero] at hsum
    exact (h.refCount_eq v).trans (congrArg Nat.cast hsum.symm)
  · intro v c
    have hheld : ({ t with clientRefTable := t.clientRefTable.erase clientId, maybeExpiredShmTable := table } :
        SharedMemoryRefTable).heldBy c v = t.heldBy c v := by
      refine (weight_erase c).trans ?_
      split_ifs with hc
      · rw [hc,hnone]
      · rfl
    rw [hheld]
    exact h.clients_iff v c
  · intro c info hlookup
    by_cases hc : c = clientId
    · subst hc
      rw [lookup_erase] at hlookup
      cases hlookup
    · rw [lookup_erase_ne hc] at hlookup
      exact h.wellFormed c info hlookup

theorem Inv.removeClient (h : Inv t) {shmIds : List Bytes} (hheld : ∀ v, t.heldBy clientId v ≤ 1)
    (hstep : t.removeClient clientId shmIds = some t') : Inv t' := by
  unfold SharedMemoryRefTable.removeClient at hstep
  cases hinfo : t.clientRefTable.lookup clientId with
  | none =>
    rw [hinfo] at hstep
    cases hstep
    exact h
  | some info =>
    rw [hinfo] at hstep
    simp only at hstep
    split_ifs at hstep with hids
    cases hstep
    -- After the loop the client holds nothing: what is not among its ids it did not hold before.
    have hloop : ∀ (l : List Bytes) (s : SharedMemoryRefTable), Inv s → (∀ v, s.heldBy clientId v ≤ 1) →
        Inv (l.foldl (SharedMemoryRefTable.removeOfClient clientId) s) ∧
          ∀ v, (l.foldl (SharedMemoryRefTable.removeOfClient clientId) s).heldBy clientId v =
            if v ∈ l then 0 else s.heldBy clientId v := by
      intro l
      induction l with
      | nil =>
        intro s hs _
        exact ⟨hs,by simp⟩
      | cons shmId l ih =>
        intro s hs hone
        obtain ⟨hinv,hafter⟩ := hs.removeOfClient (hone shmId)
        obtain ⟨hend,hzero⟩ := ih _ hinv fun v => by
          rw [hafter]
          split_ifs
          · omega
          · exact hone v
        refine ⟨hend,?_⟩
        intro v
        rw [List.foldl_cons,hzero,hafter]
        by_cases hv : v = shmId
        · simp [hv]
        · simp [hv]
    obtain ⟨hinv,hzero⟩ := hloop shmIds t h hheld
    apply hinv.leave
    intro v
    rw [hzero]
    split_ifs with hv
    · rfl
    · rw [heldBy_of_lookup hinfo]
      apply count_of_none
      rw [lookup_eq_none,← mem_keys,← hids.2,List.mem_toFinset]
      exact hv

theorem Inv.initShmRefForClient (h : Inv t) (clientId : Bytes) (supportMultiShmRefCount : Bool) :
    Inv (t.initShmRefForClient clientId supportMultiShmRefCount) := by
  unfold SharedMemoryRefTable.initShmRefForClient
  split_ifs with hmem
  · exact h
  · apply h.enter
    · intro u n hn
      cases hn
    · intro v
      exact (weight_of_notMem hmem).symm

theorem Inv.flushMaybeExpiredQueue (h : Inv t) (nowMs : ℕ) : Inv (t.flushMaybeExpiredQueue nowMs) := by
  have hitem : ∀ (s : SharedMemoryRefTable) (item : MaybeExpiredShmItem), Inv s → Inv (flushItem nowMs s item) := by
    intro s item hs
    unfold flushItem
    dsimp only
    split_ifs
    · exact hs
    · exact hs.congr rfl rfl rfl rfl
    · exact hs.congr rfl rfl rfl rfl
  exact List.foldlRecOn _ _ (h.congr rfl rfl rfl rfl) fun s hs item _ => hitem s item hs

theorem Inv.init : Inv {} := by
  have hnone : ({} : SharedMemoryRefTable).referenced = ∅ := by
    ext v
    simp [referenced]
  refine ⟨⟨?_,?_,?_⟩,?_,?_⟩
  · intro v
    simp [held]
  · intro v c
    simp [refsOf,heldBy,weight]
  · rw [hnone]
    simp
  · intro c info hlookup
    simp at hlookup
  · simp

end SharedMemoryRefTable

/-- What a call has to respect for the counts to stay in order. -/
def ShmCall.Ok (t : SharedMemoryRefTable) : ShmCall → Prop
  | .addShmUnit clientId shmId _ _ => t.AddOk clientId shmId
  | .addShmUnits clientId shmUnits requestTimeoutMs nowMs =>
    AddsOk
      { t with clientRefTable := t.clientRefTable.insert clientId (t.clientTableGetOrInsert clientId) }
      clientId requestTimeoutMs nowMs shmUnits
  | .removeClient clientId _ => ∀ shmId, t.heldBy clientId shmId ≤ 1
  | _ => True

theorem SharedMemoryRefTable.Inv.step {t t' : SharedMemoryRefTable} (h : t.Inv) {call : ShmCall} (hok : call.Ok t)
    (hstep : call.step t = some t') : t'.Inv := by
  cases call with
  | initShmRefForClient clientId supportMultiShmRefCount =>
    cases hstep
    exact h.initShmRefForClient clientId supportMultiShmRefCount
  | addShmUnit clientId shmId requestTimeoutMs nowMs =>
    cases hstep
    exact h.addShmUnit hok requestTimeoutMs nowMs
  | addShmUnits clientId shmUnits requestTimeoutMs nowMs =>
    cases hstep
    exact h.addShmUnits hok
  | removeShmUnit clientId shmId =>
    cases hstep
    exact h.removeShmUnit clientId shmId
  | reconcileClientShmRefs clientId confirmedExpiredShmIds =>
    cases hstep
    exact h.reconcileClientShmRefs clientId confirmedExpiredShmIds
  | removeClient clientId shmIds => exact h.removeClient hok hstep
  | flushMaybeExpiredQueue nowMs =>
    cases hstep
    exact h.flushMaybeExpiredQueue nowMs

/-- In every run of calls that add references where there is room and none is counted by itself already, and
that let no client go that holds a unit more than once, the counts are in order in every state reached. -/
theorem shm_counts_in_order {t : SharedMemoryRefTable} (h : shmMachine.ReachableBy (fun t call => call.Ok t) t) :
    t.InOrder := by
  have hinv : t.Inv := h.invariant Inv.init fun _ _ _ hinv hok hstep => hinv.step hok hstep
  exact hinv.toInOrder

/-- A client with multiple counts adds a unit twice, gives one reference back and then the other. -/
theorem shm_counts_in_order_after_removal : ∃ t, shmMachine.run shmMachine.init
        [.initShmRefForClient [99] true,.addShmUnit [99] [117] 0 0,.addShmUnit [99] [117] 0 0,
          .removeShmUnit [99] [117],.removeClient [99] [[117]]] = some t ∧ t.InOrder := by
  have hinit : shmMachine.ReachableBy (fun t call => call.Ok t) shmMachine.init := .init
  have henter := hinit.step (a := ShmCall.initShmRefForClient [99] true) trivial rfl
  have hadd := henter.step (a := ShmCall.addShmUnit [99] [117] 0 0) ⟨by decide,fun h => absurd h (by decide)⟩ rfl
  have hagain := hadd.step (a := ShmCall.addShmUnit [99] [117] 0 0) ⟨by decide,fun h => absurd h (by decide)⟩ rfl
  have hremove := hagain.step (a := ShmCall.removeShmUnit [99] [117]) trivial rfl
  -- The client holds at most what the units count.
  have hcount := (shm_counts_in_order hremove).refCount_eq
  have hle : ∀ v : Bytes, (update (update (update (fun _ => (0 : Int32)) [117] 1) [117] 2) [117] 1 v).toInt ≤ 1 := by
    intro v
    by_cases hv : v = [117]
    · simp [hv]
    · simp [hv]
  have hleave := hremove.step (a := ShmCall.removeClient [99] [[117]]) (fun v =>
    (heldBy_le_held _ [99] v).trans (Int.ofNat_le.mp ((hcount v).ge.trans (hle v)))) rfl
  exact ⟨_,rfl,shm_counts_in_order hleave⟩

/-- A client with multiple counts adds a unit twice and leaves: one reference stays with no client. -/
theorem shm_counts_not_in_order : ∃ t, shmMachine.run shmMachine.init
        [.initShmRefForClient [99] true,.addShmUnit [99] [117] 0 0,.addShmUnit [99] [117] 0 0,
          .removeClient [99] [[117]]] = some t ∧ ¬ t.InOrder := by
  refine ⟨_,rfl,?_⟩
  intro h
  exact absurd (h.refCount_eq [117]) (by decide)

end Datasystem.ObjectCache
