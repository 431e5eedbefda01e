import Datasystem.Coordinator.RecoveryGate

/-!
# Keys of several clusters in one backend

A key that is built for one cluster must mean nothing to the watchers of the others, and parsing it must give
back what it was built from.
-/

namespace Datasystem.Coordinator

open Bytes Cluster TopologyKeyHelper List Except

/-- What a key helper builds a key for. Memberships have a second table, which exists in ETCD only. -/
inductive TopologyKey where
  | topology
  | migrateTask (taskId : Bytes)
  | deleteTask (taskId : Bytes)
  | notify (address : Bytes)
  | probe (address : Bytes)
  | membership (address : Bytes)
  | etcdMembership (address : Bytes)
  | scaleInMetadataDone (batchEpoch : UInt64) (sourceId taskId : Bytes)
deriving DecidableEq, Repr

namespace TopologyKey

def kind : TopologyKey → TopologyCoordinationKeyKind
  | .topology => .topology
  | .migrateTask _ => .migrateTask
  | .deleteTask _ => .deleteTask
  | .notify _ => .notify
  | .probe _ => .probe
  | .membership _ => .membership
  | .etcdMembership _ => .membership
  | .scaleInMetadataDone _ _ _ => .scaleInMetadataDone

variable (keys : TopologyKeyHelper)

def table : TopologyKey → Bytes
  | .topology => keys.topologyTable
  | .migrateTask _ => keys.migrateTaskTable
  | .deleteTask _ => keys.deleteTaskTable
  | .notify _ => keys.notifyTable
  | .probe _ => keys.probeTable
  | .membership _ => keys.membershipTable
  | .etcdMembership _ => keys.etcdMembershipTablePrefix
  | .scaleInMetadataDone _ _ _ => keys.scaleInMetadataDoneTable

def relativeKey : TopologyKey → Except Status Bytes
  | .topology => .ok TopologyKeyHelper.topologyKey
  | .migrateTask taskId => taskKey taskId
  | .deleteTask taskId => taskKey taskId
  | .notify address => notifyKey address
  | .probe address => probeKey address
  | .membership address => membershipKey address
  | .etcdMembership address => membershipKey address
  | .scaleInMetadataDone batchEpoch sourceId taskId => scaleInMetadataDoneKey batchEpoch sourceId taskId

def physicalKey (k : TopologyKey) : Except Status Bytes :=
  k.relativeKey.map fun relative => k.table keys ++ slash :: relative

theorem physicalKey_eq_ok {keys : TopologyKeyHelper} {k : TopologyKey} {key : Bytes}
    (h : k.physicalKey keys = .ok key) :
    ∃ relative, k.relativeKey = .ok relative ∧ key = k.table keys ++ slash :: relative := by
  unfold physicalKey at h
  cases hrelative : k.relativeKey with
  | error e =>
    rw [hrelative] at h
    cases h
  | ok relative =>
    rw [hrelative] at h
    exact ⟨relative,rfl,(Except.ok.inj h).symm⟩

/-- The task of a task table is of the kind of the table. -/
def HasTableKind : TopologyKey → Prop
  | .migrateTask taskId => ascii "m-" <+: taskId
  | .deleteTask taskId => ascii "d-" <+: taskId
  | _ => True

def InCoordinator : TopologyKey → Prop
  | .etcdMembership _ => keys.clusterName = [] ∨ keys.clusterName = ascii "datasystem"
  | _ => True

end TopologyKey

/-- The part of a key between its first two separators. -/
def topPart (key : Bytes) : Bytes := (key.drop 1).takeWhile (· ≠ slash)

theorem takeWhile_append_slash {part : Bytes} (h : slash ∉ part) (rest : Bytes) :
    (part ++ slash :: rest).takeWhile (· ≠ slash) = part := by
  rw [takeWhile_append_of_pos]
  · simp
  · intro b hb
    simpa using fun heq : b = slash => h (heq ▸ hb)

theorem dropWhile_append_slash {part : Bytes} (h : slash ∉ part) (rest : Bytes) :
    (part ++ slash :: rest).dropWhile (· ≠ slash) = slash :: rest := by
  rw [dropWhile_append_of_pos]
  · simp
  · intro b hb
    simpa using fun heq : b = slash => h (heq ▸ hb)

variable {key : Bytes}

theorem topPart_of_root (h : physicalRoot <+: key) : topPart key = ascii "datasystem" := by
  obtain ⟨rest,rfl⟩ := h
  have hroot : physicalRoot = slash :: (ascii "datasystem" ++ [slash]) := by decide
  rw [topPart,hroot]
  simpa using takeWhile_append_slash (show slash ∉ ascii "datasystem" by decide) rest

def InEtcdTable (keys : TopologyKeyHelper) (key : Bytes) : Prop := keys.etcdMembershipTablePrefix ++ [slash] <+: key

/-- The table in ETCD is the membership table of the coordinator, or lies under the name of the
cluster and outside the root. -/
theorem etcdTable_cases (keys : TopologyKeyHelper) : keys.etcdMembershipTablePrefix = keys.membershipTable ∧
      (keys.clusterName = [] ∨ keys.clusterName = ascii "datasystem") ∨
    keys.clusterName ≠ [] ∧ keys.clusterName ≠ ascii "datasystem" ∧
      ∀ key, InEtcdTable keys key → topPart key = keys.clusterName := by
  by_cases hnil : keys.clusterName = []
  · left
    refine ⟨?_,Or.inl hnil⟩
    simp only [etcdMembershipTablePrefix,membershipTable,root,hnil,if_true]
    decide
  · by_cases hname : keys.clusterName = ascii "datasystem"
    · left
      refine ⟨?_,Or.inr hname⟩
      simp only [etcdMembershipTablePrefix,membershipTable,root,hname]
      decide
    · right
      refine ⟨hnil,hname,?_⟩
      rintro key ⟨rest,rfl⟩
      rw [topPart,etcdMembershipTablePrefix,if_neg hnil]
      simpa using takeWhile_append_slash keys.slash_notMem_clusterName _

variable {keys : TopologyKeyHelper} {kind : TopologyCoordinationKeyKind}

theorem InTable.append (h : InTable keys kind key) (rest : Bytes) : InTable keys kind (key ++ rest) :=
  ⟨h.1,h.2.trans (prefix_append _ _)⟩

theorem inTable_membership : InTable keys .membership key ↔ keys.membershipTable ++ [slash] <+: key := by
  simp [InTable,tableStart,tableName,membershipTable]

/-- A key in the table that a cluster has in ETCD is in its membership table, or names the cluster
outside the root. -/
theorem InEtcdTable.cases (h : InEtcdTable keys key) :
    InTable keys .membership key ∨ keys.clusterName ≠ [] ∧ topPart key = keys.clusterName ∧
      topPart key ≠ ascii "datasystem" := by
  rcases etcdTable_cases keys with ⟨htable,-⟩ | ⟨hnil,hname,hpart⟩
  · left
    rw [inTable_membership,← htable]
    exact h
  · right
    rw [hpart key h]
    exact ⟨hnil,rfl,hname⟩

/-- A key belongs to a cluster when it is in one of its tables. -/
def BelongsTo (keys : TopologyKeyHelper) (key : Bytes) : Prop :=
  (∃ kind, InTable keys kind key) ∨ InEtcdTable keys key

variable {keys keys' : TopologyKeyHelper}

theorem BelongsTo.keys_unique (h : BelongsTo keys key) (h' : BelongsTo keys' key) : keys = keys' := by
  have hcases : ∀ {keys : TopologyKeyHelper}, BelongsTo keys key → (∃ kind, InTable keys kind key) ∨
      keys.clusterName ≠ [] ∧ topPart key = keys.clusterName ∧ topPart key ≠ ascii "datasystem" := by
    rintro keys (hin | hetcd)
    · exact Or.inl hin
    · exact hetcd.cases.imp_left fun hin => ⟨_,hin⟩
  rcases hcases h with ⟨kind,hin⟩ | ⟨-,hname,hnot⟩
  · rcases hcases h' with ⟨kind',hin'⟩ | ⟨-,-,hnot'⟩
    · exact hin.keys_unique hin'
    · exact absurd (topPart_of_root hin.root_startsWith) hnot'
  · rcases hcases h' with ⟨kind',hin'⟩ | ⟨-,hname',-⟩
    · exact absurd (topPart_of_root hin'.root_startsWith) hnot
    · exact ext_clusterName (hname.symm.trans hname')

theorem TopologyKey.kind_ne_other (k : TopologyKey) : k.kind ≠ .other := by
  cases k <;> simp [kind]

variable {k : TopologyKey}

theorem TopologyKey.table_eq (h : k.InCoordinator keys) : k.table keys = keys.root ++ tableName k.kind := by
  cases k with
  | etcdMembership address =>
    rcases etcdTable_cases keys with ⟨htable,-⟩ | ⟨hnil,hname,-⟩
    · exact htable
    · exact absurd h (not_or.mpr ⟨hnil,hname⟩)
  | _ => rfl

theorem TopologyKey.inTable (h : k.InCoordinator keys) (relative : Bytes) :
    InTable keys k.kind (k.table keys ++ slash :: relative) :=
  ⟨k.kind_ne_other,relative,by simp [tableStart,table_eq h]⟩

/-- A key that is built is in the table of its kind, or in the one in ETCD. -/
theorem TopologyKey.belongsTo (keys : TopologyKeyHelper) (k : TopologyKey) (relative : Bytes) :
    BelongsTo keys (k.table keys ++ slash :: relative) := by
  by_cases h : k.InCoordinator keys
  · exact Or.inl ⟨k.kind,TopologyKey.inTable h relative⟩
  · cases k with
    | etcdMembership address => exact Or.inr ⟨relative,by simp [table]⟩
    | _ => exact absurd trivial h

theorem matchesPhysicalTablePrefix_iff {key table : Bytes} :
    matchesPhysicalTablePrefix key table = true ↔ table ++ [slash] <+: key :=
  List.isPrefixOf_iff_prefix

theorem belongsTo_of_classify {key localAddress : Bytes} (h : keys.classifyPhysicalKey key localAddress ≠ .unknown) :
    BelongsTo keys key := by
  have htable : ∀ kind, tableStart keys kind <+: key → (hkind : kind ≠ .other := by simp) → BelongsTo keys key :=
    fun kind hstart hkind => Or.inl ⟨kind,hkind,hstart⟩
  have hexact : ∀ {table relative : Bytes}, matchesExactPhysicalKey key table relative = true →
      table ++ [slash] <+: key := by
    intro table relative hkey
    exact ⟨relative,by simp [of_decide_eq_true hkey]⟩
  unfold classifyPhysicalKey at h
  split_ifs at h with h₁ h₂ h₃ h₄ h₅ h₆
  · exact htable .topology (hexact h₁)
  · exact htable .notify (hexact h₂)
  · exact htable .probe (hexact h₃)
  · rcases Bool.or_eq_true_iff.mp h₄ with h₄ | h₄
    · exact htable .membership (matchesPhysicalTablePrefix_iff.mp h₄)
    · exact Or.inr (matchesPhysicalTablePrefix_iff.mp h₄)
  · exact htable .migrateTask (matchesPhysicalTablePrefix_iff.mp h₅)
  · exact htable .deleteTask (matchesPhysicalTablePrefix_iff.mp h₆)
  · exact absurd rfl h

/-- A key in a table is not the name of a table: with a separator after it, it would be in both. -/
theorem InTable.ne_table {kind kind' : TopologyCoordinationKeyKind}
    (h : InTable keys kind key) (hkind' : kind' ≠ .other) : key ≠ keys'.root ++ tableName kind' := by
  intro heq
  have hlonger := h.append [slash]
  have hother : InTable keys' kind' (key ++ [slash]) := ⟨hkind',by rw [heq]; exact prefix_refl _⟩
  obtain rfl := hlonger.keys_unique hother
  obtain rfl := hlonger.kind_unique hother
  have hlength := h.2.length_le
  simp [heq,tableStart] at hlength

theorem matchTables_of_other (h : InTable keys kind key) (hne : keys ≠ keys')
    {tables : List (Bytes × TopologyCoordinationKeyKind)} (htables : tables ⊆ keyspaceTables keys') :
    matchTables keys' key tables = .ok none := by
  induction tables with
  | nil => rfl
  | cons t tables ih =>
    obtain ⟨table,kind'⟩ := t
    obtain ⟨hmem,hrest⟩ := cons_subset.mp htables
    obtain ⟨hkind',rfl⟩ := mem_keyspaceTables.mp hmem
    have hnot : ¬ (keys'.root ++ tableName kind' ++ [slash]).isPrefixOf key = true := by
      intro hstart
      exact hne (h.keys_unique ⟨hkind',List.isPrefixOf_iff_prefix.mp hstart⟩)
    rw [matchTables,if_neg (h.ne_table hkind'),if_neg hnot]
    exact ih hrest

theorem matchTables_of_mem (hkind : kind ≠ .other) (relative : Bytes)
    {tables : List (Bytes × TopologyCoordinationKeyKind)} (htables : tables ⊆ keyspaceTables keys)
    (hmem : (keys.root ++ tableName kind, kind) ∈ tables) :
    matchTables keys (tableStart keys kind ++ relative) tables =
      (validateRelativeKey kind relative).map fun _ => some ⟨keys.clusterName,kind,relative⟩ := by
  have hin : InTable keys kind (tableStart keys kind ++ relative) := ⟨hkind,prefix_append _ _⟩
  induction tables with
  | nil => cases hmem
  | cons t tables ih =>
    obtain ⟨table,kind'⟩ := t
    obtain ⟨hfirst,hrest⟩ := cons_subset.mp htables
    obtain ⟨hkind',rfl⟩ := mem_keyspaceTables.mp hfirst
    rw [matchTables,if_neg (hin.ne_table hkind')]
    by_cases hsame : kind' = kind
    · subst hsame
      have hstart : (keys.root ++ tableName kind' ++ [slash]).isPrefixOf
          (tableStart keys kind' ++ relative) = true := List.isPrefixOf_iff_prefix.mpr hin.2
      rw [if_pos hstart]
      have hdrop : (tableStart keys kind' ++ relative).drop
          (keys.root ++ tableName kind' ++ [slash]).length = relative := drop_left
      rw [hdrop]
      dsimp only
      cases validateRelativeKey kind' relative <;> rfl
    · have hnot : ¬ (keys.root ++ tableName kind' ++ [slash]).isPrefixOf (tableStart keys kind ++ relative) = true := by
        intro hstart
        have hin' : InTable keys kind' (tableStart keys kind ++ relative) :=
          ⟨hkind',List.isPrefixOf_iff_prefix.mp hstart⟩
        exact hsame (hin'.kind_unique hin)
      rw [if_neg hnot]
      refine ih hrest ((mem_cons.mp hmem).resolve_left ?_)
      intro heq
      exact hsame (Prod.mk.inj heq).2.symm

/-- A key in a table parses to its cluster and table, provided that its relative key passes the check
of the table. -/
theorem parseKey_tableStart (hkind : kind ≠ .other) (relative : Bytes) : parseKey (tableStart keys kind ++ relative) =
      (validateRelativeKey kind relative).map fun _ => ⟨keys.clusterName,kind,relative⟩ := by
  have hin : InTable keys kind (tableStart keys kind ++ relative) := ⟨hkind,prefix_append _ _⟩
  have hmatch : matchKeyspace keys (tableStart keys kind ++ relative) =
      (validateRelativeKey kind relative).map fun _ => some ⟨keys.clusterName,kind,relative⟩ :=
    matchTables_of_mem hkind relative (List.Subset.refl _) (mem_keyspaceTables.mpr ⟨hkind,rfl⟩)
  rw [parseKey,if_pos (List.isPrefixOf_iff_prefix.mpr hin.root_startsWith)]
  by_cases hnil : keys.clusterName = []
  · have hcreate : create [] = .ok keys := hnil ▸ keys.create_clusterName
    simp only [hcreate,bind,Except.bind,hmatch]
    cases validateRelativeKey kind relative <;> rfl
  · obtain ⟨suffix,hsuffix,hslash,hpart⟩ := hin.firstPart
    rw [if_neg hnil] at hpart
    obtain ⟨unnamed,hunnamed⟩ : ∃ unnamed, create [] = .ok unnamed := ⟨_,rfl⟩
    have hother : matchKeyspace unnamed (tableStart keys kind ++ relative) = .ok none := by
      refine matchTables_of_other hin ?_ (List.Subset.refl _)
      rintro rfl
      exact hnil (clusterName_of_create hunnamed)
    have hdrop : (tableStart keys kind ++ relative).drop physicalRoot.length = suffix := by
      rw [hsuffix,drop_left]
    simp only [hunnamed,hdrop,hpart,hslash,keys.create_clusterName,if_true,bind,Except.bind,hother,hmatch]
    cases validateRelativeKey kind relative <;> rfl

theorem isDigit_ofNat {d : Nat} (hd : d < 10) : isDigit (UInt8.ofNat (48 + d)) = true := by
  interval_cases d <;> decide

theorem isDigit_of_mem_decimal (n : Nat) : ∀ b ∈ decimal n, isDigit b = true := by
  apply decimal_induction (P := fun _ text => ∀ b ∈ text, isDigit b = true)
  · intro d hd b hb
    rw [mem_singleton.mp hb]
    exact isDigit_ofNat hd
  · intro n d _ hd ih b hb
    rcases mem_append.mp hb with hb | hb
    · exact ih b hb
    · rw [mem_singleton.mp hb]
      exact isDigit_ofNat hd

theorem decimalValue_decimal (n : Nat) : decimalValue (decimal n) = n := by
  apply decimal_induction (P := fun n text => decimalValue text = n)
  · intro d hd
    simp [decimalValue]
    omega
  · intro n d _ hd ih
    unfold decimalValue at ih ⊢
    rw [foldl_append,ih]
    simp
    omega

theorem decimal_ne_nil (n : Nat) : decimal n ≠ [] := by
  apply decimal_induction (P := fun _ text => text ≠ []) <;> simp

theorem head_decimal {n : Nat} (hn : 0 < n) : (decimal n).head? ≠ some 48 := by
  have h := decimal_induction (P := fun n text => 0 < n → text.head? ≠ some 48) ?_ ?_ n
  · exact h hn
  · intro d hd hpos
    interval_cases d <;> decide
  · intro n d hpos _ ih _
    rw [head?_append_of_ne_nil _ (decimal_ne_nil n)]
    exact ih hpos

theorem isMarkerEpoch_decimal {n : Nat} (hpos : 0 < n) (hlt : n < 2 ^ 64) : isMarkerEpoch (decimal n) = true := by
  simp only [isMarkerEpoch,decimalValue_decimal,Bool.and_eq_true,Bool.or_eq_true,
    decide_eq_true_eq,all_eq_true,Bool.not_eq_true',isEmpty_eq_false_iff]
  exact ⟨⟨⟨⟨decimal_ne_nil n,isDigit_of_mem_decimal n⟩,hpos⟩,hlt⟩,Or.inr (head_decimal hpos)⟩

theorem isLowerHex_lowerHexDigit {nibble : UInt8} (h : nibble.toNat < 16) :
    isLowerHex (lowerHexDigit nibble) = true := by
  rw [← UInt8.ofNat_toNat (x := nibble)]
  generalize nibble.toNat = n at h
  interval_cases n <;> decide

theorem length_encode (sourceId : Bytes) : (encodeScaleInMetadataSourceId sourceId).length = 2 * sourceId.length := by
  induction sourceId with
  | nil => rfl
  | cons b sourceId ih =>
    simp only [encodeScaleInMetadataSourceId,flatMap_cons,length_append] at ih ⊢
    simp only [ih,length_cons,length_nil]
    omega

theorem isLowerHex_of_mem_encode {sourceId : Bytes} {b : UInt8}
    (h : b ∈ encodeScaleInMetadataSourceId sourceId) : isLowerHex b = true := by
  obtain ⟨value,_,hb⟩ := mem_flatMap.mp h
  simp only [mem_cons,not_mem_nil,or_false] at hb
  rcases hb with rfl | rfl
  · apply isLowerHex_lowerHexDigit
    have := value.toNat_lt
    simp [Nat.shiftRight_eq_div_pow]
    omega
  · apply isLowerHex_lowerHexDigit
    simp only [UInt8.toNat_and]
    exact Nat.lt_succ_of_le Nat.and_le_right

theorem taskKey_eq_ok {taskId key : Bytes} (h : taskKey taskId = .ok key) :
    isValidTaskId taskId = true ∧ key = taskId := by
  obtain ⟨_,hvalid,hkey⟩ := bind_eq_ok.mp h
  exact ⟨checkFailReturnStatus_eq_ok.mp hvalid,(Except.ok.inj hkey).symm⟩

variable {taskId : Bytes}

theorem taskKey_of_valid (h : isValidTaskId taskId = true) : taskKey taskId = .ok taskId := by
  rw [taskKey,h]
  rfl

theorem memberKey_eq_ok {address key : Bytes} (h : memberKey address = .ok key) : key = address ∧ address ≠ [] := by
  obtain ⟨_,hvalid,hkey⟩ := bind_eq_ok.mp h
  obtain ⟨_,hne,_⟩ := bind_eq_ok.mp hvalid
  exact ⟨(Except.ok.inj hkey).symm,by simpa using hne⟩

theorem validTaskId_ne_nil (h : isValidTaskId taskId = true) : taskId ≠ [] := by
  rintro rfl
  revert h
  decide

theorem slash_notMem_of_isLowerHex {text : Bytes} (h : ∀ b ∈ text, isLowerHex b = true) : slash ∉ text := by
  intro hmem
  have := h slash hmem
  revert this
  decide

theorem scaleInMetadataDoneKey_eq_ok {batchEpoch : UInt64} {sourceId taskId relative : Bytes}
    (h : scaleInMetadataDoneKey batchEpoch sourceId taskId = .ok relative) :
    0 < batchEpoch.toNat ∧ sourceId ≠ [] ∧ sourceId.length ≤ maxSourceIdSize ∧ isValidTaskId taskId = true ∧
      relative = (101 :: decimal batchEpoch.toNat) ++ slash ::
        (encodeScaleInMetadataSourceId sourceId ++ slash :: taskId) := by
  obtain ⟨start,hstart,h₁⟩ := bind_eq_ok.mp h
  obtain ⟨key,hkey,h₂⟩ := bind_eq_ok.mp h₁
  obtain ⟨_,hepoch,hstart₁⟩ := bind_eq_ok.mp hstart
  obtain ⟨_,hsource,hstart₂⟩ := bind_eq_ok.mp hstart₁
  obtain ⟨hvalid,rfl⟩ := taskKey_eq_ok hkey
  cases hstart₂
  cases h₂
  simp only [validateSourceId,checkFailReturnStatus_eq_ok,Bool.and_eq_true,Bool.not_eq_true',
    isEmpty_eq_false_iff,decide_eq_true_eq] at hsource
  refine ⟨?_,hsource.1,hsource.2,hvalid,?_⟩
  · simpa [UInt64.lt_iff_toNat_lt] using hepoch
  · have he : ascii "e" = [101] := by decide
    simp [he]

theorem validateScaleInMetadataDoneKey_of_key {batchEpoch : UInt64} {sourceId taskId relative : Bytes}
    (h : scaleInMetadataDoneKey batchEpoch sourceId taskId = .ok relative) :
    validateScaleInMetadataDoneKey relative = .ok () := by
  obtain ⟨hpos,hsource,hlength,hvalid,rfl⟩ := scaleInMetadataDoneKey_eq_ok h
  have hepoch := isMarkerEpoch_decimal hpos batchEpoch.toNat_lt
  have hepochSlash : slash ∉ (101 :: decimal batchEpoch.toNat : Bytes) := by
    intro hmem
    rcases mem_cons.mp hmem with h | h
    · revert h
      decide
    · have := isDigit_of_mem_decimal _ _ h
      revert this
      decide
  have hhex : ∀ b ∈ encodeScaleInMetadataSourceId sourceId, isLowerHex b = true := fun _ => isLowerHex_of_mem_encode
  have hsourceSlash := slash_notMem_of_isLowerHex hhex
  have hsourcePos : 0 < sourceId.length := length_pos_iff.mpr hsource
  have hepochPos := length_pos_iff.mpr (decimal_ne_nil batchEpoch.toNat)
  have hencoded := length_encode sourceId
  unfold maxSourceIdSize at hlength
  simp only [validateScaleInMetadataDoneKey,takeWhile_append_slash hepochSlash,
    dropWhile_append_slash hepochSlash,drop_succ_cons,drop_zero,
    takeWhile_append_slash hsourceSlash,dropWhile_append_slash hsourceSlash,taskKey_of_valid hvalid]
  refine bind_eq_ok.mpr ⟨(),checkFailReturnStatus_eq_ok.mpr ?_,?_⟩
  · simp
    omega
  refine bind_eq_ok.mpr ⟨(),checkFailReturnStatus_eq_ok.mpr ?_,?_⟩
  · simpa using hepoch
  refine bind_eq_ok.mpr ⟨(),checkFailReturnStatus_eq_ok.mpr ?_,?_⟩
  · simp only [Bool.and_eq_true,decide_eq_true_eq,all_eq_true,maxEncodedScaleInSourceSize]
    exact ⟨⟨decide_eq_true (by omega),by omega⟩,hhex⟩
  rfl

theorem validateRelativeKey_task (hvalid : isValidTaskId taskId = true) :
    (validateRelativeKey .migrateTask taskId = .ok () ↔ ascii "m-" <+: taskId) ∧
    (validateRelativeKey .deleteTask taskId = .ok () ↔ ascii "d-" <+: taskId) := by
  have hne : taskId.isEmpty = false := by simpa using validTaskId_ne_nil hvalid
  simp only [validateRelativeKey,hne,taskKey_of_valid hvalid,← List.isPrefixOf_iff_prefix]
  exact ⟨checkFailReturnStatus_eq_ok,checkFailReturnStatus_eq_ok⟩

theorem validateRelativeKey_eq_ok {relative : Bytes} (h : k.relativeKey = .ok relative) :
    validateRelativeKey k.kind relative = .ok () ↔ k.HasTableKind := by
  have hmember : ∀ address, memberKey address = .ok relative →
      (memberKey relative >>= fun _ => Except.ok ()) = .ok () ∧ relative.isEmpty = false := by
    intro address haddress
    obtain ⟨rfl,hne⟩ := memberKey_eq_ok haddress
    rw [haddress]
    exact ⟨rfl,by simpa using hne⟩
  cases k with
  | topology =>
    cases h
    exact iff_of_true rfl trivial
  | migrateTask taskId =>
    obtain ⟨hvalid,rfl⟩ := taskKey_eq_ok h
    exact (validateRelativeKey_task hvalid).1
  | deleteTask taskId =>
    obtain ⟨hvalid,rfl⟩ := taskKey_eq_ok h
    exact (validateRelativeKey_task hvalid).2
  | notify address | membership address | etcdMembership address =>
    obtain ⟨hok,hne⟩ := hmember address h
    refine iff_of_true ?_ trivial
    rw [TopologyKey.kind,validateRelativeKey,hne]
    exact hok
  | probe address => exact iff_of_true (hmember address h).1 trivial
  | scaleInMetadataDone batchEpoch sourceId taskId =>
    exact iff_of_true (validateScaleInMetadataDoneKey_of_key h) trivial

/-- A table outside the coordinator lies outside the root, and its keys parse to no table. -/
theorem parseKey_of_not_inCoordinator (h : ¬ k.InCoordinator keys) (relative : Bytes) :
    parseKey (k.table keys ++ slash :: relative) = .ok {} := by
  cases k with
  | etcdMembership address =>
    rcases etcdTable_cases keys with ⟨-,hin⟩ | ⟨-,hname,hpart⟩
    · exact absurd hin h
    · have houtside : ¬ physicalRoot.isPrefixOf (keys.etcdMembershipTablePrefix ++ slash :: relative) = true := by
        intro hroot
        have hetcd : InEtcdTable keys (keys.etcdMembershipTablePrefix ++ slash :: relative) := ⟨relative,by simp⟩
        rw [← hpart _ hetcd] at hname
        exact hname (topPart_of_root (List.isPrefixOf_iff_prefix.mp hroot))
      exact if_neg houtside
  | _ => exact absurd trivial h

/-- A key built for one cluster is unknown to the watchers of every other cluster. Parsing it gives
back the cluster, the table and the relative key, for every key in a table of the coordinator whose
task, if it has one, is of the kind of its table, and for no other. -/
theorem topology_keys_isolated_and_parsed :
    (∀ (keys keys' : TopologyKeyHelper) (k : TopologyKey) (key localAddress : Bytes),
      keys.clusterName ≠ keys'.clusterName → k.physicalKey keys = .ok key →
        keys'.classifyPhysicalKey key localAddress = .unknown) ∧
    ∀ (keys : TopologyKeyHelper) (k : TopologyKey) (relative key : Bytes),
      k.relativeKey = .ok relative → k.physicalKey keys = .ok key →
        (parseKey key = .ok ⟨keys.clusterName,k.kind,relative⟩ ↔ k.InCoordinator keys ∧ k.HasTableKind) := by
  constructor
  · intro keys keys' k key localAddress hne hkey
    by_contra hknown
    obtain ⟨relative,-,rfl⟩ := TopologyKey.physicalKey_eq_ok hkey
    exact hne (congrArg _ ((k.belongsTo keys relative).keys_unique (belongsTo_of_classify hknown)))
  · intro keys k relative key hrelative hkey
    obtain ⟨_,hsame,rfl⟩ := TopologyKey.physicalKey_eq_ok hkey
    obtain rfl := Except.ok.inj (hrelative.symm.trans hsame)
    by_cases hin : k.InCoordinator keys
    · have hform : k.table keys ++ slash :: relative = tableStart keys k.kind ++ relative := by
        simp [tableStart,TopologyKey.table_eq hin]
      rw [hform,parseKey_tableStart k.kind_ne_other,← validateRelativeKey_eq_ok hrelative]
      cases validateRelativeKey k.kind relative with
      | ok u => exact iff_of_true rfl ⟨hin,rfl⟩
      | error e => simp [Except.map]
    · rw [parseKey_of_not_inCoordinator hin]
      refine iff_of_false ?_ fun h => hin h.1
      intro heq
      exact k.kind_ne_other (congrArg ParsedTopologyCoordinationKey.kind (Except.ok.inj heq)).symm

/-- A membership of the unnamed cluster, seen from the cluster `c1`. -/
theorem topology_keys_isolated_and_parsed_membership :
    let keys : TopologyKeyHelper := ⟨[],Or.inl rfl⟩
    let keys' : TopologyKeyHelper := ⟨ascii "c1",Or.inr (by decide)⟩
    let address := ascii "127.0.0.1:31501"
    keys'.classifyPhysicalKey (ascii "/datasystem/cluster/127.0.0.1:31501") address = .unknown ∧
      parseKey (ascii "/datasystem/cluster/127.0.0.1:31501") = .ok ⟨[],.membership,address⟩ := by
  intro keys keys' address
  have hrelative : (TopologyKey.membership address).relativeKey = .ok address := by decide
  have hkey : (TopologyKey.membership address).physicalKey keys =
      .ok (ascii "/datasystem/cluster/127.0.0.1:31501") := by decide
  exact ⟨topology_keys_isolated_and_parsed.1 keys keys' _ _ _ (by simp [keys,keys',ascii]) hkey,
    (topology_keys_isolated_and_parsed.2 keys _ _ _ hrelative hkey).mpr ⟨trivial,trivial⟩⟩

/-- A delete task in the migrate table of its cluster is refused, and a membership that the cluster `c1`
has in ETCD parses to no table. -/
theorem topology_keys_not_recovered :
    (∃ (keys : TopologyKeyHelper) (k : TopologyKey) (key : Bytes), k.physicalKey keys = .ok key ∧
      parseKey key = .error ⟨.invalid,"migrate task key kind mismatch"⟩) ∧
    ∃ (keys : TopologyKeyHelper) (k : TopologyKey) (key : Bytes), k.physicalKey keys = .ok key ∧
      k.kind = .membership ∧ parseKey key = .ok {} := by
  constructor
  · exact ⟨⟨[],Or.inl rfl⟩,.migrateTask (ascii "d-e1-00000000000000000000000000000000"),_,rfl,by decide⟩
  · exact ⟨⟨ascii "c1",Or.inr (by decide)⟩,.etcdMembership (ascii "127.0.0.1:31501"),_,rfl,rfl,by decide⟩

end Datasystem.Coordinator
