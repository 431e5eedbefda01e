import Datasystem.Lib.Machine

/-!
# The deletion of a stream on the master

`DeleteStream` marks the stream under its accessor, asks the workers without a lock, removes the stream, and at its end
undoes the mark of the stream that it finds under the name by then.
-/

namespace Datasystem.Master

open List

structure StreamMetadata where
  /-- which of the streams that had the name this is -/
  object : Nat
  isDeleting : Bool
  deleterRefCount : Int

structure DeleteRequest where
  /-- set with `decrementRef`, to the object that `DeleteStreamStart` has counted the request on -/
  startedOn : Option Nat
  /-- only the undo is left -/
  returning : Bool
deriving DecidableEq

structure StreamMaster where
  stream : Option StreamMetadata
  requests : List DeleteRequest
  created : Nat

inductive StartOutcome where
  | inUse
  /-- a recorded worker address does not parse, which is found after the mark -/
  | badAddress
  | started

inductive StreamEvent where
  | createOrGet (stored : Bool)
  | deleteStart (outcome : StartOutcome)
  /-- the workers have been asked; `removed` when none of them and neither the store has failed -/
  | deleteEnd (r : DeleteRequest) (removed : Bool)
  | undo (r : DeleteRequest)

namespace StreamMaster

variable (m : StreamMaster) (r : DeleteRequest)

def reject : StreamMaster := { m with requests := ⟨none,true⟩ :: m.requests }

def deleteStreamStart (s : StreamMetadata) (outcome : StartOutcome) : StreamMaster :=
  if s.isDeleting then m.reject
  else match outcome with
    | .inUse => m.reject
    | .badAddress => { m.reject with stream := some { s with isDeleting := true } }
    | .started => { m with
      stream := some { s with isDeleting := true, deleterRefCount := s.deleterRefCount + 1 }
      requests := ⟨some s.object,false⟩ :: m.requests }

def undoDeleteStream (s : StreamMetadata) (decrementRef : Bool) : StreamMetadata :=
  let count := if decrementRef then s.deleterRefCount - 1 else s.deleterRefCount
  { s with deleterRefCount := count, isDeleting := if count = 0 then false else s.isDeleting }

def step : StreamEvent → Option StreamMaster
  | .createOrGet stored =>
    if stored ∧ m.stream.isNone then
      some { m with stream := some ⟨m.created,false,0⟩, created := m.created + 1 }
    else some m
  | .deleteStart outcome => some (m.stream.elim m.reject fun s => m.deleteStreamStart s outcome)
  | .deleteEnd r removed =>
    if r ∈ m.requests ∧ r.returning = false then
      some { m with
        stream := if removed then none else m.stream
        requests := { r with returning := true } :: m.requests.erase r }
    else none
  | .undo r =>
    if r ∈ m.requests ∧ r.returning then
      some { m with
        stream := m.stream.map fun s => undoDeleteStream s r.startedOn.isSome
        requests := m.requests.erase r }
    else none

def machine : Machine StreamMaster StreamEvent := ⟨⟨none,[],0⟩,step⟩

/-- The objects that the requests in progress were counted on. -/
def started : List (Option Nat) := m.requests.map (·.startedOn)

/-- The mark and the count of a stream are those of the requests in progress that were started on it. -/
structure Counted (s : StreamMetadata) (started : List (Option Nat)) : Prop where
  mark : s.isDeleting = true ↔ some s.object ∈ started
  count : s.deleterRefCount = started.count (some s.object)

/-- No stream is created while a started request is in progress, and the recorded addresses parse. -/
def Undisturbed : StreamEvent → Prop
  | .createOrGet _ => m.stream = none → ∀ r ∈ m.requests, r.startedOn = none
  | .deleteStart outcome => outcome ≠ .badAddress
  | _ => True

variable {m r} {s : StreamMetadata} {started started' : List (Option Nat)} {o : Option Nat}

/-- Under the condition all the started requests in progress were started on the stream that is there. -/
structure Tracked (s : StreamMetadata) (started : List (Option Nat)) : Prop extends Counted s started where
  only : ∀ o, some o ∈ started → o = s.object

theorem Tracked.perm (hperm : started.Perm started') (h : Tracked s started) : Tracked s started' :=
  ⟨⟨by rw [h.mark,hperm.mem_iff],by rw [h.count,hperm.count_eq]⟩,fun o ho => h.only o (hperm.mem_iff.mpr ho)⟩

theorem Tracked.undo (h : Tracked s (o :: started)) : Tracked (undoDeleteStream s o.isSome) started := by
  obtain ⟨⟨hmark,hcount⟩,honly⟩ := h
  have hpos := count_pos_iff (a := some s.object) (l := started)
  cases o with
  | none =>
    refine ⟨⟨?_,?_⟩,?_⟩ <;> grind [undoDeleteStream]
  | some o =>
    obtain rfl : o = s.object := honly o (by simp)
    refine ⟨⟨?_,?_⟩,?_⟩ <;> grind [undoDeleteStream]

theorem Tracked.new (object : Nat) (hnone : ∀ o, some o ∉ started) : Tracked ⟨object,false,0⟩ started :=
  ⟨⟨by simp [hnone],by simp [count_eq_zero.mpr (hnone object)]⟩,fun o ho => absurd ho (hnone o)⟩

theorem Tracked.cons_none (h : Tracked s started) : Tracked s (none :: started) := by
  obtain ⟨⟨hmark,hcount⟩,honly⟩ := h
  refine ⟨⟨?_,?_⟩,?_⟩ <;> grind

theorem Tracked.start (h : Tracked s started) (hidle : s.isDeleting = false) :
    Tracked { s with isDeleting := true, deleterRefCount := s.deleterRefCount + 1 } (some s.object :: started) := by
  obtain ⟨⟨hmark,hcount⟩,honly⟩ := h
  refine ⟨⟨?_,?_⟩,?_⟩ <;> grind

variable (m) in
def Sound : Prop := ∀ s, m.stream = some s → Tracked s m.started

theorem Sound.reject (h : m.Sound) : m.reject.Sound := fun s hs => (h s hs).cons_none

theorem Sound.deleteStreamStart {outcome : StartOutcome} (h : m.Sound) (hs : m.stream = some s)
    (hparse : outcome ≠ .badAddress) : (m.deleteStreamStart s outcome).Sound := by
  cases hidle : s.isDeleting with
  | true => simpa [StreamMaster.deleteStreamStart,hidle] using h.reject
  | false =>
    cases outcome with
    | inUse => simpa [StreamMaster.deleteStreamStart,hidle] using h.reject
    | badAddress => exact absurd rfl hparse
    | started =>
      intro s' hs'
      simp only [StreamMaster.deleteStreamStart,hidle] at hs' ⊢
      cases hs'
      exact (h s hs).start hidle

theorem Sound.step {m' : StreamMaster} {e : StreamEvent} (h : m.Sound) (hgood : m.Undisturbed e)
    (hstep : m.step e = some m') : m'.Sound := by
  cases e with
  | createOrGet stored =>
    simp only [StreamMaster.step] at hstep
    split at hstep
    · rename_i hnew
      have hnone := hgood (by simpa using hnew.2)
      cases hstep
      intro s hs
      cases hs
      exact Tracked.new _ (by grind [started])
    · cases hstep
      exact h
  | deleteStart outcome =>
    cases hstep
    cases hs : m.stream with
    | none => exact h.reject
    | some s => exact h.deleteStreamStart hs hgood
  | deleteEnd r removed =>
    simp only [StreamMaster.step] at hstep
    split_ifs at hstep with hr
    · cases hstep
      exact fun s hs => by cases hs
    · cases hstep
      exact fun s hs => (h s hs).perm ((perm_cons_erase hr.1).map _)
  | undo r =>
    simp only [StreamMaster.step] at hstep
    split_ifs at hstep with hr
    cases hstep
    intro s' hs'
    obtain ⟨s,hs,rfl⟩ := Option.map_eq_some_iff.mp hs'
    exact ((h s hs).perm ((perm_cons_erase hr.1).map _)).undo

theorem counted_of_undisturbed (hreach : machine.ReachableBy Undisturbed m) (hs : m.stream = some s) :
    Counted s m.started ∧ (m.requests = [] → s.isDeleting = false) := by
  have h := hreach.invariant (fun s hs => by cases hs) (fun _ _ _ => Sound.step) s hs
  refine ⟨h.toCounted,fun hnil => ?_⟩
  simpa [started,hnil] using h.mark

/-- The undo of a deletion finds the stream that was created after it, which then stays marked by the next deletion. -/
theorem undo_on_recreated_stream : ∃ m s,
    machine.run machine.init [.createOrGet true,.deleteStart .started,.deleteEnd ⟨some 0,false⟩ true,.createOrGet true,
      .undo ⟨some 0,true⟩,.deleteStart .started,.deleteEnd ⟨some 1,false⟩ false,.undo ⟨some 1,true⟩] = some m ∧
      m.stream = some s ∧ m.requests = [] ∧ s.isDeleting = true ∧ s.deleterRefCount = -1 :=
  ⟨_,_,rfl,rfl,rfl,rfl,rfl⟩

theorem counted_of_undisturbed_start : Counted ⟨0,true,1⟩ [some 0] := by
  have hcreate : machine.ReachableBy Undisturbed ⟨some ⟨0,false,0⟩,[],1⟩ :=
    .step (a := .createOrGet true) .init (fun _ => by simp [machine]) rfl
  have hstart := hcreate.step (a := .deleteStart .started) (by simp [Undisturbed]) rfl
  exact (counted_of_undisturbed hstart rfl).1

end StreamMaster

end Datasystem.Master
