import Datasystem.Cluster.TopologyKeyHelper
import Datasystem.Coordinator.MemoryKvStore

/-!
# The recovery gate

The gate parses the start of a range into a cluster, a table and a relative key, and decides from that alone,
so it has to keep every range that leaves the table of its start away from all tables.
-/

namespace Datasystem.Coordinator

open Bytes Cluster TopologyKeyHelper MemoryKvStore List Except MemoryKvStore

inductive TopologyRecoveryState where
  | recovering
  | installing
  | ready
  | blocked
deriving DecidableEq, Repr

inductive TopologyCoordinationKeyKind where
  | other
  | topology
  | migrateTask
  | deleteTask
  | notify
  | probe
  | membership
  | scaleInMetadataDone
deriving DecidableEq, Repr

structure ParsedTopologyCoordinationKey where
  clusterName : Bytes := []
  kind : TopologyCoordinationKeyKind := .other
  relativeKey : Bytes := []
deriving DecidableEq, Repr

def maxEncodedScaleInSourceSize : Nat := 256

def physicalRoot : Bytes := ascii "/datasystem/"

/-- The decimal epoch of a marker: digits without leading zero whose value is a positive 64-bit
number. -/
def isMarkerEpoch (text : Bytes) : Bool :=
  !text.isEmpty && text.all isDigit && 0 < decimalValue text && decimalValue text < 2 ^ 64 &&
    (text.length = 1 || text.head? ≠ some 48)

def validateScaleInMetadataDoneKey (relative : Bytes) : Except Status Unit := do
  let epoch := relative.takeWhile (· ≠ slash)
  let fromSource := (relative.dropWhile (· ≠ slash)).drop 1
  let source := fromSource.takeWhile (· ≠ slash)
  -- both separators are there, with something before the first and between the two
  checkFailReturnStatus (slash ∈ relative && 1 < epoch.length && slash ∈ fromSource &&
    0 < source.length) .invalid "invalid ScaleIn metadata-done key"
  checkFailReturnStatus (relative.head? = some 101 && isMarkerEpoch (epoch.drop 1)) .invalid
    "invalid ScaleIn metadata-done epoch"
  checkFailReturnStatus (source.length ≤ maxEncodedScaleInSourceSize && source.length % 2 = 0 &&
    source.all isLowerHex) .invalid "invalid ScaleIn metadata-done source"
  let _ ← taskKey ((fromSource.dropWhile (· ≠ slash)).drop 1)

def validateRelativeKey (kind : TopologyCoordinationKeyKind) (relative : Bytes) : Except Status Unit :=
  match kind with
  | .other => .ok ()
  | .topology =>
    checkFailReturnStatus relative.isEmpty .invalid "topology singleton key is not exact"
  | .migrateTask =>
    if relative.isEmpty then .ok () else do
      let _ ← taskKey relative
      checkFailReturnStatus ((ascii "m-").isPrefixOf relative) .invalid "migrate task key kind mismatch"
  | .deleteTask =>
    if relative.isEmpty then .ok () else do
      let _ ← taskKey relative
      checkFailReturnStatus ((ascii "d-").isPrefixOf relative) .invalid "delete task key kind mismatch"
  | .notify => if relative.isEmpty then .ok () else do let _ ← notifyKey relative
  | .probe => do let _ ← probeKey relative
  | .membership => if relative.isEmpty then .ok () else do let _ ← membershipKey relative
  | .scaleInMetadataDone => validateScaleInMetadataDoneKey relative

variable (keys : TopologyKeyHelper)

def keyspaceTables : List (Bytes × TopologyCoordinationKeyKind) :=
  [(keys.topologyTable, .topology),(keys.migrateTaskTable, .migrateTask),
    (keys.deleteTaskTable, .deleteTask),(keys.notifyTable, .notify),(keys.probeTable, .probe),
    (keys.membershipTable, .membership),(keys.scaleInMetadataDoneTable, .scaleInMetadataDone)]

def matchTables (keys : TopologyKeyHelper) (physicalKey : Bytes) :
    List (Bytes × TopologyCoordinationKeyKind) → Except Status (Option ParsedTopologyCoordinationKey)
  | [] => .ok none
  | (table, kind) :: tables =>
    if physicalKey = table then .error ⟨.invalid,"topology coordination key lacks separator"⟩
    else if (table ++ [slash]).isPrefixOf physicalKey then do
      let relative := physicalKey.drop (table ++ [slash]).length
      validateRelativeKey kind relative
      return some ⟨keys.clusterName,kind,relative⟩
    else matchTables keys physicalKey tables

def matchKeyspace (physicalKey : Bytes) : Except Status (Option ParsedTopologyCoordinationKey) :=
  matchTables keys physicalKey (keyspaceTables keys)

def parseKey (physicalKey : Bytes) : Except Status ParsedTopologyCoordinationKey :=
  if physicalRoot.isPrefixOf physicalKey then do
    let suffix := physicalKey.drop physicalRoot.length
    let unnamed ← TopologyKeyHelper.create []
    match ← matchKeyspace unnamed physicalKey with
    | some parsed => return parsed
    | none =>
      if slash ∈ suffix then
        let keys ← TopologyKeyHelper.create (suffix.takeWhile (· ≠ slash))
        return (← matchKeyspace keys physicalKey).getD {}
      else return {}
  else .ok {}

def rangeIntersectsTopologyRoot (key rangeEnd : Bytes) : Bool :=
  !rangeEnd.isEmpty && key < plusOne physicalRoot && physicalRoot < rangeEnd

def checkOtherRange (key rangeEnd : Bytes) (crossing : String) : Except Status Unit := do
  checkFailReturnStatus (rangeEnd.isEmpty || key < rangeEnd) .invalid "invalid coordination range"
  checkFailReturnStatus (!rangeIntersectsTopologyRoot key rangeEnd) .invalid crossing

/-- The decision of `CheckAllowed`; `states` are the states of the known clusters. The reconcile that
a refused request schedules is not part of the decision. -/
def checkAllowed (states : Bytes → Option TopologyRecoveryState) (key rangeEnd : Bytes)
    (mutation : Bool) : Except Status Unit := do
  let parsed ← parseKey key
  if parsed.kind = .other then
    checkOtherRange key rangeEnd "coordination range crosses the topology keyspace boundary"
  else do
    checkFailReturnStatus (rangeEnd.isEmpty ||
      (!mutation && parsed.relativeKey.isEmpty && rangeEnd = plusOne key)) .invalid
      "topology coordination range crosses a keyspace boundary"
    if (mutation ∧ parsed.kind = .membership) ∨ (¬ mutation ∧ parsed.kind ≠ .topology) then .ok ()
    else
      match states parsed.clusterName with
      | none => .error ⟨.notReady,"cluster membership is not established"⟩
      | some state =>
        if state = .ready then .ok () else .error ⟨.notReady,"cluster topology is recovering"⟩

def checkMutationAllowed (states : Bytes → Option TopologyRecoveryState) (key rangeEnd : Bytes) :
    Except Status Unit := checkAllowed states key rangeEnd true

def validateWatchRange (key rangeEnd : Bytes) : Except Status Unit := do
  let parsed ← parseKey key
  if parsed.kind = .other then
    checkOtherRange key rangeEnd "watch range crosses the topology keyspace boundary"
  else
    checkFailReturnStatus (rangeEnd.isEmpty || (parsed.relativeKey.isEmpty && rangeEnd = plusOne key))
      .invalid "watch range crosses a topology keyspace boundary"

def tableName : TopologyCoordinationKeyKind → Bytes
  | .other => []
  | .topology => ascii "/topology"
  | .migrateTask => ascii "/tasks/migrate"
  | .deleteTask => ascii "/tasks/delete"
  | .notify => ascii "/notify"
  | .probe => ascii "/probe"
  | .membership => ascii "/cluster"
  | .scaleInMetadataDone => ascii "/scale-in-metadata-done"

def tableStart (kind : TopologyCoordinationKeyKind) : Bytes := keys.root ++ tableName kind ++ [slash]

def InTable (kind : TopologyCoordinationKeyKind) (key : Bytes) : Prop := kind ≠ .other ∧ tableStart keys kind <+: key

variable {kind : TopologyCoordinationKeyKind} {keys}

theorem mem_keyspaceTables {table : Bytes} :
    (table, kind) ∈ keyspaceTables keys ↔ kind ≠ .other ∧ table = keys.root ++ tableName kind := by
  cases kind <;> simp [keyspaceTables,tableName,topologyTable,migrateTaskTable,deleteTaskTable,
    notifyTable,probeTable,membershipTable,
    scaleInMetadataDoneTable]

variable {kind kind' : TopologyCoordinationKeyKind}

theorem tableName_startsWith (hkind : kind ≠ .other)
    (hkind' : kind' ≠ .other) (h : tableName kind ++ [slash] <+: tableName kind' ++ [slash]) :
    kind = kind' := by
  revert hkind hkind' h
  cases kind <;> cases kind' <;> decide

theorem tableName_reserved (hkind : kind ≠ .other) :
    ∃ name, tableName kind = slash :: name ∧ name.takeWhile (· ≠ slash) ∈ reservedClusterNames := by
  cases kind with
  | other => exact absurd rfl hkind
  | topology => exact ⟨ascii "topology",by decide,by decide⟩
  | migrateTask => exact ⟨ascii "tasks/migrate",by decide,by decide⟩
  | deleteTask => exact ⟨ascii "tasks/delete",by decide,by decide⟩
  | notify => exact ⟨ascii "notify",by decide,by decide⟩
  | probe => exact ⟨ascii "probe",by decide,by decide⟩
  | membership => exact ⟨ascii "cluster",by decide,by decide⟩
  | scaleInMetadataDone => exact ⟨ascii "scale-in-metadata-done",by decide,by decide⟩

variable {key : Bytes}

theorem InTable.kind_unique (h : InTable keys kind key) (h' : InTable keys kind' key) : kind = kind' := by
  obtain ⟨hkind,hstart⟩ := h
  obtain ⟨hkind',hstart'⟩ := h'
  unfold tableStart at hstart hstart'
  rw [append_assoc] at hstart hstart'
  rcases prefix_or_prefix_of_prefix hstart hstart' with hp | hp
  · exact tableName_startsWith hkind hkind' ((prefix_append_right_inj _).mp hp)
  · exact (tableName_startsWith hkind' hkind ((prefix_append_right_inj _).mp hp)).symm

/-- What follows the root in a key of a table, up to the first separator: a reserved name in the
unnamed cluster, the name of the cluster otherwise. -/
theorem InTable.firstPart (h : InTable keys kind key) : ∃ suffix, key = physicalRoot ++ suffix ∧ slash ∈ suffix ∧
      if keys.clusterName = [] then suffix.takeWhile (· ≠ slash) ∈ reservedClusterNames
      else suffix.takeWhile (· ≠ slash) = keys.clusterName := by
  obtain ⟨hkind,rest,rfl⟩ := h
  obtain ⟨name,hname,hreserved⟩ := tableName_reserved hkind
  have hroot : physicalRoot = rootPrefix ++ [slash] := by decide
  have hstop : ∀ tail : Bytes, ∀ b, (slash :: tail).head? = some b → decide (b ≠ slash) = false := by
    intro tail b hb
    simp [← Option.some.inj hb]
  rw [tableStart,root,hname]
  split_ifs with hcluster
  · refine ⟨name ++ slash :: rest,by simp [hroot],by simp,?_⟩
    rw [takeWhile_append_of_stop (hstop rest)]
    exact hreserved
  · refine ⟨keys.clusterName ++ slash :: (name ++ slash :: rest),by simp [hroot],by simp,?_⟩
    rw [takeWhile_append_of_stop (hstop _),takeWhile_eq_self_iff]
    intro b hb
    simpa using fun heq : b = slash => keys.slash_notMem_clusterName (heq ▸ hb)

theorem InTable.keys_unique {keys keys' : TopologyKeyHelper}
    (h : InTable keys kind key) (h' : InTable keys' kind' key) : keys = keys' := by
  obtain ⟨suffix,hkey,_,hpart⟩ := h.firstPart
  obtain ⟨suffix',hkey',_,hpart'⟩ := h'.firstPart
  obtain rfl := append_cancel_left (hkey.symm.trans hkey')
  apply ext_clusterName
  split_ifs at hpart with hc
  · split_ifs at hpart' with hc'
    · rw [hc,hc']
    · exact absurd (hpart' ▸ hpart) (keys'.clusterName_notMem_reserved hc')
  · split_ifs at hpart' with hc'
    · exact absurd (hpart ▸ hpart') (keys.clusterName_notMem_reserved hc)
    · exact hpart.symm.trans hpart'

theorem matchTables_eq_ok {tables : List (Bytes × TopologyCoordinationKeyKind)}
    {found : Option ParsedTopologyCoordinationKey} (h : matchTables keys key tables = .ok found) :
    (found = none ∧ ∀ t ∈ tables, ¬ t.1 ++ [slash] <+: key) ∨
    ∃ t ∈ tables, ∃ relative, key = t.1 ++ [slash] ++ relative ∧ found = some ⟨keys.clusterName,t.2,relative⟩ := by
  induction tables with
  | nil => exact Or.inl ⟨(Except.ok.inj h).symm,by simp⟩
  | cons t tables ih =>
    obtain ⟨table,kind⟩ := t
    unfold matchTables at h
    split at h
    · cases h
    · split at h
      · rename_i hprefix
        obtain ⟨relative,hrelative⟩ := List.isPrefixOf_iff_prefix.mp hprefix
        obtain ⟨_,_,hfound⟩ := bind_eq_ok.mp h
        refine Or.inr ⟨(table, kind),mem_cons_self,relative,hrelative.symm,?_⟩
        rw [← Except.ok.inj hfound,← hrelative,drop_left]
      · rename_i hprefix
        rcases ih h with ⟨hnone,hall⟩ | ⟨t,ht,hrest⟩
        · refine Or.inl ⟨hnone,?_⟩
          intro t ht
          rcases mem_cons.mp ht with rfl | ht
          · exact fun hp => hprefix (List.isPrefixOf_iff_prefix.mpr hp)
          · exact hall t ht
        · exact Or.inr ⟨t,mem_cons_of_mem _ ht,hrest⟩

theorem matchKeyspace_eq_ok {found : Option ParsedTopologyCoordinationKey} (h : matchKeyspace keys key = .ok found) :
    (found = none ∧ ∀ kind, ¬ InTable keys kind key) ∨
    ∃ kind relative, InTable keys kind key ∧ key = tableStart keys kind ++ relative ∧
      found = some ⟨keys.clusterName,kind,relative⟩ := by
  rcases matchTables_eq_ok h with ⟨hnone,hall⟩ | ⟨⟨table,kind⟩,ht,relative,hkey,hfound⟩
  · refine Or.inl ⟨hnone,?_⟩
    rintro kind ⟨hkind,hstart⟩
    exact hall _ (mem_keyspaceTables.mpr ⟨hkind,rfl⟩) hstart
  · obtain ⟨hkind,rfl⟩ := mem_keyspaceTables.mp ht
    exact Or.inr ⟨kind,relative,⟨hkind,relative,hkey.symm⟩,hkey,hfound⟩

/-- A key that parses to no table lies in no table; a key that parses to a table is the start of the
table followed by the relative key. -/
theorem parseKey_eq_ok {parsed : ParsedTopologyCoordinationKey} (h : parseKey key = .ok parsed) :
    (parsed.kind = .other ∧ ∀ keys kind, ¬ InTable keys kind key) ∨
    ∃ keys, parsed.clusterName = keys.clusterName ∧ InTable keys parsed.kind key ∧
      key = tableStart keys parsed.kind ++ parsed.relativeKey := by
  unfold parseKey at h
  split at h
  · obtain ⟨unnamed,hunnamed,h⟩ := bind_eq_ok.mp h
    have hname := clusterName_of_create hunnamed
    obtain ⟨found,hfound,h⟩ := bind_eq_ok.mp h
    rcases matchKeyspace_eq_ok hfound with ⟨rfl,hnot⟩ | ⟨kind,relative,hin,hkey,rfl⟩
    · -- not in a table of the unnamed cluster
      dsimp only at h
      have hother : ∀ keys' kind', InTable keys' kind' key → keys'.clusterName ≠ [] := by
        intro keys' kind' hin' hnil
        have : keys' = unnamed := ext_clusterName (hnil.trans hname.symm)
        exact hnot kind' (this ▸ hin')
      split at h
      · obtain ⟨keys,hkeys,h⟩ := bind_eq_ok.mp h
        have hcluster := clusterName_of_create hkeys
        obtain ⟨found',hfound',h⟩ := bind_eq_ok.mp h
        cases h
        rcases matchKeyspace_eq_ok hfound' with ⟨rfl,hnot'⟩ | ⟨kind,relative,hin,hkey,rfl⟩
        · refine Or.inl ⟨rfl,?_⟩
          intro keys' kind' hin'
          obtain ⟨suffix,hsuffix,_,hpart⟩ := hin'.firstPart
          rw [if_neg (hother keys' kind' hin')] at hpart
          rw [hsuffix,drop_left,hpart] at hcluster
          exact hnot' kind' (ext_clusterName hcluster ▸ hin')
        · exact Or.inr ⟨keys,rfl,hin,hkey⟩
      · rename_i hslash
        cases h
        refine Or.inl ⟨rfl,?_⟩
        intro keys' kind' hin'
        obtain ⟨suffix,hsuffix,hmem,_⟩ := hin'.firstPart
        rw [hsuffix,drop_left] at hslash
        exact hslash hmem
    · cases h
      exact Or.inr ⟨unnamed,rfl,hin,hkey⟩
  · rename_i hroot
    cases h
    refine Or.inl ⟨rfl,?_⟩
    intro keys' kind' hin'
    obtain ⟨suffix,rfl,_,_⟩ := hin'.firstPart
    exact hroot (List.isPrefixOf_iff_prefix.mpr ⟨suffix,rfl⟩)

theorem InTable.root_startsWith (h : InTable keys kind key) : physicalRoot <+: key := by
  obtain ⟨suffix,rfl,_,_⟩ := h.firstPart
  exact prefix_append _ _

variable {key rangeEnd : Bytes}

/-- A range that starts outside all tables and passes the check meets no table. -/
theorem checkOtherRange_disjoint {crossing : String} {u : Unit}
    (hkey : ∀ keys kind, ¬ InTable keys kind key) (h : checkOtherRange key rangeEnd crossing = .ok u) {k : Bytes}
    (hk : inScope key rangeEnd k = true) : ¬ InTable keys kind k := by
  intro hin
  simp only [checkOtherRange,bind_eq_ok,checkFailReturnStatus_eq_ok,exists_const] at h
  unfold inScope at hk
  split at hk
  · exact hkey keys kind (of_decide_eq_true hk ▸ hin)
  · rename_i hend
    obtain ⟨hlo,hhi⟩ := of_decide_eq_true hk
    obtain ⟨hroot,hplus⟩ := (prefix_iff_range physicalRoot k).mp hin.root_startsWith
    have hlt : k < plusOne physicalRoot := hplus.resolve_left (by decide)
    have hintersects : rangeIntersectsTopologyRoot key rangeEnd = true := by
      simp only [rangeIntersectsTopologyRoot,Bool.and_eq_true,Bool.not_eq_true',decide_eq_true_eq]
      exact ⟨⟨by simpa using hend,lt_of_le_of_lt hlo hlt⟩,lt_of_le_of_lt hroot hhi⟩
    simp [hintersects] at h

/-- An exact key, or the whole of the table that it starts. -/
theorem inTable_of_inScope {relative rangeEnd k : Bytes} (hkind : kind ≠ .other)
    (hend : rangeEnd = [] ∨ (relative = [] ∧ rangeEnd = plusOne (tableStart keys kind ++ relative)))
    (hk : inScope (tableStart keys kind ++ relative) rangeEnd k = true) : InTable keys kind k := by
  refine ⟨hkind,?_⟩
  unfold inScope at hk
  rcases hend with rfl | ⟨rfl,rfl⟩
  · rw [of_decide_eq_true hk]
    exact prefix_append _ _
  · have hne : plusOne (tableStart keys kind) ≠ [] := plusOne_append_ne_nil (keys.root ++ tableName kind) (by decide)
    rw [append_nil,if_neg (by simpa using hne)] at hk
    obtain ⟨hlo,hhi⟩ := of_decide_eq_true hk
    exact (prefix_iff_range _ _).mpr ⟨hlo,Or.inr hhi⟩

/-- What the gate lets a mutation do: stay out of all tables, or touch one key of a table, which is
the membership table or belongs to a cluster that is ready. -/
theorem checkMutationAllowed_cases {states : Bytes → Option TopologyRecoveryState}
    (h : checkMutationAllowed states key rangeEnd = .ok ()) :
    (∀ keys kind k, inScope key rangeEnd k = true → ¬ InTable keys kind k) ∨
    ∃ keys kind, (kind = .membership ∨ states keys.clusterName = some .ready) ∧
      ∀ k, inScope key rangeEnd k = true → InTable keys kind k := by
  unfold checkMutationAllowed checkAllowed at h
  obtain ⟨parsed,hparsed,h⟩ := bind_eq_ok.mp h
  rcases parseKey_eq_ok hparsed with ⟨hother,hnot⟩ | ⟨keys,hcluster,hin,hkey⟩
  · rw [if_pos hother] at h
    exact Or.inl fun keys kind k hk => checkOtherRange_disjoint hnot h hk
  · rw [if_neg hin.1] at h
    obtain ⟨_,hrange,h⟩ := bind_eq_ok.mp h
    have hend : rangeEnd = [] := by simpa using hrange
    refine Or.inr ⟨keys,parsed.kind,?_,?_⟩
    · split at h
      · rename_i hmember
        exact Or.inl (hmember.resolve_right (by simp)).2
      · split at h
        · cases h
        · rename_i state hstate
          split_ifs at h with hready
          exact Or.inr (hcluster ▸ hready ▸ hstate)
    · intro k hk
      rw [hkey] at hk
      exact inTable_of_inScope hin.1 (Or.inl hend) hk

theorem validateWatchRange_cases (h : validateWatchRange key rangeEnd = .ok ()) :
    (∀ keys kind k, inScope key rangeEnd k = true → ¬ InTable keys kind k) ∨
    ∃ keys kind, ∀ k, inScope key rangeEnd k = true → InTable keys kind k := by
  unfold validateWatchRange at h
  obtain ⟨parsed,hparsed,h⟩ := bind_eq_ok.mp h
  rcases parseKey_eq_ok hparsed with ⟨hother,hnot⟩ | ⟨keys,_,hin,hkey⟩
  · rw [if_pos hother] at h
    exact Or.inl fun keys kind k hk => checkOtherRange_disjoint hnot h hk
  · rw [if_neg hin.1,checkFailReturnStatus_eq_ok] at h
    refine Or.inr ⟨keys,parsed.kind,?_⟩
    intro k hk
    rw [hkey] at hk
    apply inTable_of_inScope hin.1 _ hk
    rw [← hkey]
    simpa using h

/-- A mutation admitted while a cluster is not ready touches no key of the topology, task,
notification, probe and marker tables of that cluster; every admitted mutation or watch range lies
in one table of one cluster or meets no table at all. -/
theorem recovery_gate_sound (states : Bytes → Option TopologyRecoveryState) (key rangeEnd : Bytes) :
    (checkMutationAllowed states key rangeEnd = .ok () →
      ∀ keys : TopologyKeyHelper, states keys.clusterName ≠ some .ready → ∀ kind, kind ≠ .membership →
          ∀ k, inScope key rangeEnd k = true → ¬ InTable keys kind k) ∧
    (checkMutationAllowed states key rangeEnd = .ok () ∨ validateWatchRange key rangeEnd = .ok () →
      (∃ keys kind, ∀ k, inScope key rangeEnd k = true → InTable keys kind k) ∨
      ∀ keys kind k, inScope key rangeEnd k = true → ¬ InTable keys kind k) := by
  constructor
  · intro h keys hready kind hkind k hk hin
    rcases checkMutationAllowed_cases h with hnone | ⟨keys',kind',hallowed,hall⟩
    · exact hnone keys kind k hk hin
    · obtain rfl := (hall k hk).keys_unique hin
      obtain rfl := (hall k hk).kind_unique hin
      rcases hallowed with hmember | hstate
      · exact hkind hmember
      · exact hready hstate
  · rintro (h | h)
    · rcases checkMutationAllowed_cases h with hnone | ⟨keys,kind,_,hall⟩
      · exact Or.inr hnone
      · exact Or.inl ⟨keys,kind,hall⟩
    · rcases validateWatchRange_cases h with hnone | ⟨keys,kind,hall⟩
      · exact Or.inr hnone
      · exact Or.inl ⟨keys,kind,hall⟩

/-- Deleting from `/datasystem0` on is admitted before any cluster is known, and keeps clear of the
tasks of the cluster `c1`. -/
theorem recovery_gate_sound_unknown_cluster :
    checkMutationAllowed (fun _ => none) (ascii "/datasystem0") (ascii "/e") = .ok () ∧
    ¬ inScope (ascii "/datasystem0") (ascii "/e") (ascii "/datasystem/c1/tasks/migrate/") = true := by
  have hadmitted : checkMutationAllowed (fun _ => none) (ascii "/datasystem0") (ascii "/e") = .ok () := by
    decide
  refine ⟨hadmitted,?_⟩
  intro hk
  refine (recovery_gate_sound _ _ _).1 hadmitted ⟨ascii "c1",Or.inr (by decide)⟩ (by simp)
    .migrateTask (by simp) _ hk ⟨by simp,?_⟩
  exact List.isPrefixOf_iff_prefix.mp (by decide)

end Datasystem.Coordinator
