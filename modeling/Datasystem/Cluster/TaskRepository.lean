import Datasystem.Cluster.TopologyKeyHelper
import Datasystem.Cluster.TopologyRepositoryCodec

/-!
# Stored tasks

A task is stored under its identifier, which carries the kind and the epoch of the task, and the value holds
an address and the ranges with their progress.
-/

namespace Datasystem.Cluster

open Bytes

inductive TopologyTaskKind where
  | migrate
  | deleteMember
deriving DecidableEq, Repr

def TopologyTask.taskKind : TopologyTask → TopologyTaskKind
  | .migrate _ => .migrate
  | .deleteMember _ => .deleteMember

def taskFinished (task : TopologyTask) : Bool := task.taskRanges.all TopologyTaskRange.finished

structure TokenRangePb where
  ownerAddress : Bytes := []
  «from» : UInt32 := 0
  «end» : UInt32 := 0
  finished : Bool := false
deriving DecidableEq, Repr

/-- `MigrateTaskPb` and `DeleteNodeTaskPb`, which have the same layout. -/
structure TaskPb where
  address : Bytes := []
  ranges : List TokenRangePb := []
deriving DecidableEq, Repr

section Fields

open Wire

def TokenRangePb.fields (r : TokenRangePb) : List Field :=
  bytesField 1 r.ownerAddress ++ numberField 2 r.from.toUInt64 ++ numberField 3 r.end.toUInt64 ++
    numberField 4 r.finished.toUInt64

def TokenRangePb.mergeField (r : TokenRangePb) (f : Field) : TokenRangePb :=
  match f with
  | ⟨1,.bytes b⟩ => { r with ownerAddress := b }
  | ⟨2,.number n⟩ => { r with «from» := n.toUInt32 }
  | ⟨3,.number n⟩ => { r with «end» := n.toUInt32 }
  | ⟨4,.number n⟩ => { r with finished := n ≠ 0 }
  | _ => r

def TaskPb.fields (t : TaskPb) : List Field :=
  bytesField 1 t.address ++ t.ranges.map fun r => ⟨2,.bytes (Wire.encode r.fields)⟩

def TaskPb.mergeField (t : TaskPb) (f : Field) : Option TaskPb :=
  match f with
  | ⟨1,.bytes b⟩ => some { t with address := b }
  | ⟨2,.bytes b⟩ => (Wire.decode b).map fun fields =>
      { t with ranges := t.ranges ++ [fields.foldl TokenRangePb.mergeField {}] }
  | _ => some t

end Fields

abbrev TaskParser := Bytes → Option TaskPb

def taskParserWire : TaskParser := fun b =>
  (Wire.decode b).bind fun fields => fields.foldlM TaskPb.mergeField {}

def validateTaskContext (taskId : Bytes) (kind : UInt8) (epoch : Nat) : Except Status Unit := do
  let _ ← taskKey taskId
  let expected := [kind,45,101] ++ decimal epoch ++ [45]
  checkFailReturnStatus (expected.isPrefixOf taskId) .invalid "task id context mismatch"

def validateMemberAddress (address : Bytes) : Except Status Unit := do
  let _ ← notifyKey address

/-- Nonempty ranges of one executor, each behind the previous one. -/
def isCanonicalRanges (ranges : List TopologyTaskRange) (executor : Bytes) : Bool :=
  !ranges.isEmpty && ranges.length ≤ maxTopologyTaskRanges && !executor.isEmpty &&
    (ranges.all fun r => r.ownerAddress = executor && r.range.first ≤ r.range.last) &&
    decide (ranges.IsChain fun a b => a.range.last < b.range.first)

def decodeRange (r : TokenRangePb) : TopologyTaskRange := ⟨r.ownerAddress,⟨r.from,r.end⟩,r.finished⟩

def decodeRanges (input : List TokenRangePb) : Except Status (List TopologyTaskRange × Bytes) := do
  checkFailReturnStatus (!input.isEmpty && input.length ≤ maxTopologyTaskRanges) .invalid
    "invalid task range count"
  let decoded := input.map decodeRange
  match decoded with
  | [] => .error ⟨.invalid,"task has no ranges"⟩
  | first :: _ => do
    checkFailReturnStatus (isCanonicalRanges decoded first.ownerAddress) .invalid "invalid task ranges"
    return (decoded, first.ownerAddress)

variable (parse : TaskParser)

/-- What both kinds of tasks check and read: the address, the ranges and their executor. -/
def decodeTaskValue (kind : UInt8) (invalidValue : String) (taskId : Bytes) (epoch : Nat) (value : Bytes) : Except Status (Bytes × List TopologyTaskRange × Bytes) := do
  validateTaskContext taskId kind epoch
  checkFailReturnStatus (0 < epoch && value.length ≤ maxValueBytes) .invalid "invalid task context"
  match parse value with
  | none => .error ⟨.invalid,invalidValue⟩
  | some pb => do
    checkFailReturnStatus (!pb.address.isEmpty) .invalid invalidValue
    validateMemberAddress pb.address
    let (ranges, executor) ← decodeRanges pb.ranges
    return (pb.address, ranges, executor)

def decodeMigrateTask (taskId : Bytes) (type : TopologyChangeType) (epoch : Nat) (value : Bytes) : Except Status TopologyMigrateTask := do
  let (address, ranges, executor) ←
    decodeTaskValue parse 109 "invalid migrate task value" taskId epoch value
  return ⟨taskId,type,epoch,executor,address,ranges⟩

def decodeDeleteTask (taskId : Bytes) (epoch : Nat) (value : Bytes) : Except Status TopologyDeleteTask := do
  let (address, ranges, executor) ←
    decodeTaskValue parse 100 "invalid delete task value" taskId epoch value
  return ⟨taskId,epoch,executor,address,ranges⟩

def isTaskDeleteTombstone (value : Bytes) : Bool := (ascii "cluster-task-delete-tombstone-v1-").isPrefixOf value

def readTask (kind : TopologyTaskKind) (taskId : Bytes)
    (type : TopologyChangeType) (epoch : Nat) (stored : Except Status Bytes) : Except Status TopologyTask := do
  let _ ← taskKey taskId
  let bytes ← stored
  checkFailReturnStatus (!isTaskDeleteTombstone bytes) .notFound "topology task is logically deleted"
  match kind with
  | .migrate => do
    let decoded ← decodeMigrateTask parse taskId type epoch bytes
    return .migrate decoded
  | .deleteMember => do
    let decoded ← decodeDeleteTask parse taskId epoch bytes
    return .deleteMember decoded

def TopologyTask.epoch : TopologyTask → Nat
  | .migrate task => task.epoch
  | .deleteMember task => task.epoch

theorem readTask_eq_ok {parse : TaskParser} {kind : TopologyTaskKind} {taskId : Bytes}
    {type : TopologyChangeType} {epoch : Nat} {stored : Except Status Bytes} {task : TopologyTask}
    (h : readTask parse kind taskId type epoch stored = .ok task) :
    task.taskId = taskId ∧ task.epoch = epoch := by
  obtain ⟨_,_,h⟩ := Except.bind_eq_ok.mp h
  obtain ⟨bytes,_,h⟩ := Except.bind_eq_ok.mp h
  obtain ⟨_,_,h⟩ := Except.bind_eq_ok.mp h
  -- both kinds decode the value and then wrap the result
  cases kind
  all_goals
    obtain ⟨decoded,hdecoded,h⟩ := Except.bind_eq_ok.mp h
    obtain ⟨_,_,hdecoded⟩ := Except.bind_eq_ok.mp hdecoded
    rw [← Except.ok.inj h,← Except.ok.inj hdecoded]
    exact ⟨rfl,rfl⟩

/-! ## Listings of the janitor -/

section Janitor

open List

/-- A table in the order in which a listing sorts it. -/
structure StoredTable where
  values : List (Bytes × Bytes)
  sorted : values.Pairwise fun left right => left.1 < right.1

/-- The records from the one behind the cursor on and round to it. -/
def StoredTable.rotated (table : StoredTable) (cursor : Bytes) : List (Bytes × Bytes) :=
  let index := table.values.findIdx fun entry => cursor < entry.1
  table.values.rotate (if index = table.values.length then 0 else index)

variable {α ν : Type}

def visitRotatingPage (visit : Bytes × Bytes → Except Status α) (table : StoredTable) (limit : Nat) (cursor : Bytes) :
    Except Status (List α) × Bytes :=
  let page := (table.rotated cursor).take limit
  match page.mapM visit with
  | .error e => (.error e, cursor)
  | .ok candidates =>
    (.ok candidates, if table.values = [] then [] else (page.getLast?.map Prod.fst).getD cursor)

structure TaskJanitorCandidate where
  kind : TopologyTaskKind
  taskId : Bytes
  matchToken : Bytes
deriving DecidableEq, Repr

def listTaskCandidatesForJanitor (kind : TopologyTaskKind) (table : StoredTable) (limit : Nat) (cursor : Bytes) :
    Except Status (List TaskJanitorCandidate) × Bytes :=
  if limit = 0 then (.error ⟨.invalid,"task Janitor scan limit must be positive"⟩, cursor)
  else visitRotatingPage (fun entry => .ok ⟨kind,entry.1,entry.2⟩) table limit cursor

structure NotifyJanitorCandidate (ν : Type) where
  address : Bytes
  notify : Option ν
  matchToken : Bytes
  logicallyDeleted : Bool

/-- The value is empty or a tombstone. -/
def notifyDeleted (value : Bytes) : Bool :=
  value.isEmpty || (ascii "cluster-notify-delete-tombstone-v1-").isPrefixOf value

variable (decodeNotify : Bytes → Except Status ν)

def visitNotify (entry : Bytes × Bytes) : Except Status (NotifyJanitorCandidate ν) :=
  if notifyDeleted entry.2 then .ok ⟨entry.1,none,entry.2,true⟩
  else (decodeNotify entry.2).map fun notify => ⟨entry.1,some notify,entry.2,false⟩

def listNotifyCandidatesForJanitor (table : StoredTable) (limit : Nat) (cursor : Bytes) :
    Except Status (List (NotifyJanitorCandidate ν)) × Bytes :=
  if limit = 0 then (.error ⟨.invalid,"notify Janitor scan limit must be positive"⟩, cursor)
  else visitRotatingPage (visitNotify decodeNotify) table limit cursor

/-- What consecutive listings return; one that fails returns nothing. -/
def listed (list : Bytes → Except Status (List α) × Bytes) : Nat → Bytes → List α
  | 0, _ => []
  | n + 1, cursor => (list cursor).1.toOption.getD [] ++ listed list n (list cursor).2

variable {table : StoredTable} {limit : Nat} {cursor : Bytes} {e : Bytes × Bytes}
  {visit : Bytes × Bytes → Except Status α} {f : Bytes × Bytes → α}

private theorem findIdx_getElem {l : List (Bytes × Bytes)} (h : l.Pairwise fun a b => a.1 < b.1) {j : Nat}
    (hj : j < l.length) : l.findIdx (fun e => l[j].1 < e.1) = j + 1 := by
  induction h generalizing j with
  | nil => cases hj
  | @cons a l ha _ ih =>
    cases j with
    | zero => cases l <;> simp_all [findIdx_cons]
    | succ j =>
      have hj' := Nat.lt_of_succ_lt_succ hj
      simp [findIdx_cons,not_lt.mpr (ha l[j] (getElem_mem hj')).le,ih hj']

theorem rotated_eq : table.rotated cursor = table.values.rotate (table.values.findIdx fun entry => cursor < entry.1) := by
  simp only [StoredTable.rotated]
  split_ifs with h
  · rw [h,rotate_length,rotate_zero]
  · rfl

/-- A page moves on by its length. -/
theorem rotated_next (hlt : limit < table.values.length)
    (he : ((table.rotated cursor).take (limit + 1)).getLast? = some e) :
    table.rotated e.1 = (table.rotated cursor).rotate (limit + 1) := by
  simp only [rotated_eq] at he ⊢
  generalize table.values.findIdx (fun entry => decide (cursor < entry.1)) = i at he ⊢
  rw [← length_rotate table.values i] at hlt
  rw [getLast?_take,if_neg (Nat.succ_ne_zero limit),Nat.add_sub_cancel,getElem?_eq_getElem hlt,
    getElem_rotate,Option.some_or,Option.some.injEq] at he
  rw [← he,findIdx_getElem table.sorted,← rotate_rotate,rotate_mod,rotate_rotate,rotate_rotate]
  congr 1
  omega

theorem mem_listed (hvisit : ∀ e ∈ table.values, visit e = .ok (f e)) (n : Nat)
    (he : e ∈ (table.rotated cursor).take (n * (limit + 1))) :
    f e ∈ listed (visitRotatingPage visit table (limit + 1)) n cursor := by
  induction n generalizing cursor with
  | zero => simp at he
  | succ n ih =>
    have hpage : ((table.rotated cursor).take (limit + 1)).mapM visit =
        .ok (((table.rotated cursor).take (limit + 1)).map f) := by
      rw [mapM_eq_ok,forall₂_map_right_iff,forall₂_same]
      intro e he
      rw [rotated_eq] at he
      exact hvisit e (mem_rotate.mp (mem_of_mem_take he))
    rw [Nat.succ_mul,Nat.add_comm,take_add,mem_append] at he
    rw [listed,visitRotatingPage,hpage,mem_append]
    rcases he with he | he
    · exact Or.inl (mem_map_of_mem he)
    · -- records are left, and they come first on the next page
      have hlen : (table.rotated cursor).length = table.values.length := by rw [rotated_eq,length_rotate]
      have hpos := length_pos_of_mem (mem_of_mem_take he)
      rw [length_drop,hlen] at hpos
      have hlt : limit < table.values.length := by omega
      obtain ⟨last,hlast⟩ := Option.isSome_iff_exists.mp (getLast?_isSome.mpr
        (ne_nil_of_length_pos (l := (table.rotated cursor).take (limit + 1)) (by rw [length_take,hlen]; omega)))
      have hnext : e ∈ (table.rotated last.1).take (n * (limit + 1)) := by
        rw [rotated_next hlt hlast,rotate_eq_drop_append_take (by omega),take_append]
        exact mem_append_left _ he
      right
      simpa [hlast,ne_nil_of_length_pos (Nat.zero_lt_of_lt hlt)] using ih hnext

private theorem mapM_error {l : List (Bytes × Bytes)} (he : e ∈ l) (hbad : ∀ a, visit e ≠ .ok a) :
    ∃ status, l.mapM visit = .error status := by
  cases hr : l.mapM visit with
  | error status => exact ⟨status,rfl⟩
  | ok r =>
    have h := mapM_eq_ok.mp hr
    obtain ⟨i,hi,rfl⟩ := getElem_of_mem he
    exact absurd (h.get hi (h.length_eq ▸ hi)) (hbad _)

/-- The values that a listing of notifications accepts. -/
def WellFormedNotify (value : Bytes) : Prop := notifyDeleted value = true ∨ ∃ notify, decodeNotify value = .ok notify

def notifyCandidate (entry : Bytes × Bytes) : NotifyJanitorCandidate ν :=
  ⟨entry.1,if notifyDeleted entry.2 then none else (decodeNotify entry.2).toOption,entry.2,notifyDeleted entry.2⟩

theorem visitNotify_of_wellFormed (h : WellFormedNotify decodeNotify e.2) :
    visitNotify decodeNotify e = .ok (notifyCandidate decodeNotify e) := by
  unfold visitNotify notifyCandidate
  cases hdeleted : notifyDeleted e.2
  · obtain ⟨notify,hnotify⟩ := h.resolve_left (by simp [hdeleted])
    simp [hnotify,Except.map,Except.toOption]
  · rfl

/-- A page that holds a malformed notification fails, and so does every later one. -/
theorem hidden_of_malformed (hlimit : table.values.length ≤ limit) (hpos : 0 < limit) (he : e ∈ table.values)
    (hbad : ¬ WellFormedNotify decodeNotify e.2) (n : Nat) :
    listed (listNotifyCandidatesForJanitor decodeNotify table limit) n cursor = [] := by
  have hvisit : ∀ c, visitNotify decodeNotify e ≠ .ok c := by
    intro c h
    unfold visitNotify at h
    split_ifs at h with hdeleted
    · exact hbad (Or.inl hdeleted)
    · cases hdecoded : decodeNotify e.2 with
      | error status => simp [hdecoded,Except.map] at h
      | ok notify => exact hbad (Or.inr ⟨notify,hdecoded⟩)
  obtain ⟨status,hfails⟩ : ∃ status, listNotifyCandidatesForJanitor decodeNotify table limit cursor =
      (.error status, cursor) := by
    rw [listNotifyCandidatesForJanitor,if_neg hpos.ne',visitRotatingPage,rotated_eq,
      take_of_length_le (by rwa [length_rotate])]
    obtain ⟨status,hr⟩ := mapM_error (mem_rotate.mpr he) hvisit
    exact ⟨status,by rw [hr]⟩
  induction n with
  | zero => rfl
  | succ n ih =>
    rw [listed,hfails]
    exact ih

end Janitor

end Datasystem.Cluster
