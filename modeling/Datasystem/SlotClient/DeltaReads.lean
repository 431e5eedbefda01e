import Datasystem.Lib.Machine
import Datasystem.SlotClient.SlotIndexFiles

/-!
# Delta reads beside appends

A save or delete holds the mutex while it appends its record to the active index, but a reader may see any part of
the record. The delta reads of a compaction do not hold it: they read the file, and then truncate what has
looked like a torn tail. Which of the records they go on with does not matter here.
-/

namespace Datasystem.SlotClient

open RecordLog SlotIndexCodec List

structure ActiveIndex where
  content : Bytes := header
  activeIndexSize : Nat := headerSize
  /-- the record that is being appended, and how many of its bytes are in the file -/
  appending : Option (SlotRecord × Nat) := none
  /-- the records of the calls that have returned OK -/
  returned : List SlotRecord := []
  /-- where a delta read is about to truncate the file -/
  truncating : Option Nat := none
deriving DecidableEq

inductive IndexEvent where
  | append (r : SlotRecord)
  | write (upTo : Nat)
  | returnOk
  | returnError
  | readAllRecordFrames
  | truncateTail

namespace ActiveIndex

variable (st : ActiveIndex)

def step : IndexEvent → Option ActiveIndex
  | .append r => if st.appending = none then some { st with appending := some (r, 0) } else none
  | .write upTo => do
    let (r, written) ← st.appending
    if written < upTo ∧ upTo ≤ (encodeRecord r).length then
      some { st with
        content := overwrite st.content (st.activeIndexSize + written) (((encodeRecord r).take upTo).drop written)
        appending := some (r, upTo) }
    else none
  | .returnOk => do
    let (r, written) ← st.appending
    if written = (encodeRecord r).length then
      some { st with
        activeIndexSize := st.activeIndexSize + written, appending := none, returned := st.returned ++ [r] }
    else none
  | .returnError => some { st with appending := none }
  | .readAllRecordFrames =>
    let validBytes := (scanContent st.content).2
    if st.truncating = none then
      some { st with truncating := if validBytes < st.content.length then some validBytes else none }
    else none
  | .truncateTail => do
    let validBytes ← st.truncating
    some { st with content := st.content.take validBytes, truncating := none }

def machine : Machine ActiveIndex IndexEvent := ⟨{},step⟩

/-- All bytes of the acknowledged records are in the file, and the next append leaves no gap. -/
def RecordsKept : Prop :=
  header ++ encodeAll encodeRecord st.returned <+: st.content ∧ st.activeIndexSize ≤ st.content.length

/-- A delta read finds whole records only. -/
def ReadsWhole : IndexEvent → Prop
  | .readAllRecordFrames =>
    ∃ rs, (∀ r ∈ rs, SlotIndexCodec.Encodable r) ∧ st.content = header ++ encodeAll encodeRecord rs
  | _ => True

/-- The bytes in the file of the record that is being appended. -/
def shown : Bytes := st.appending.elim [] fun p => (encodeRecord p.1).take p.2

structure Inv : Prop where
  size : st.activeIndexSize = (header ++ encodeAll encodeRecord st.returned).length
  kept : header ++ encodeAll encodeRecord st.returned ++ st.shown <+: st.content
  untruncated : st.truncating = none

variable {st} {st' : ActiveIndex}

theorem prefix_overwrite {p content : Bytes} (h : p <+: content) (b : Bytes) :
    p ++ b <+: overwrite content p.length b := by
  obtain ⟨t,rfl⟩ := h
  simp [overwrite]

/-- A write goes on where the bytes shown so far end. -/
theorem Inv.write (h : st.Inv) {r : SlotRecord} {written upTo : Nat} (happ : st.appending = some (r, written))
    (hlt : written < upTo) (hle : upTo ≤ (encodeRecord r).length) :
    header ++ encodeAll encodeRecord st.returned ++ (encodeRecord r).take upTo <+:
      overwrite st.content (st.activeIndexSize + written) (((encodeRecord r).take upTo).drop written) := by
  have hshown : st.shown = ((encodeRecord r).take upTo).take written := by
    simp [shown,happ,take_take,hlt.le]
  have hend : (header ++ encodeAll encodeRecord st.returned ++ st.shown).length = st.activeIndexSize + written := by
    rw [length_append,← h.size,hshown,length_take,length_take]
    omega
  have hkept := prefix_overwrite h.kept (((encodeRecord r).take upTo).drop written)
  rwa [hend,append_assoc,hshown,take_append_drop] at hkept

theorem Inv.step (h : st.Inv) {e : IndexEvent} (hread : st.ReadsWhole e) (hstep : st.step e = some st') : st'.Inv := by
  have hreturned := (prefix_append _ _).trans h.kept
  cases e with
  | append r =>
    simp only [ActiveIndex.step] at hstep
    split_ifs at hstep
    cases hstep
    exact ⟨h.size,by simpa [shown] using hreturned,h.untruncated⟩
  | write upTo =>
    obtain ⟨⟨r,written⟩,happ,hstep⟩ := Option.bind_eq_some_iff.mp hstep
    dsimp only at hstep
    split_ifs at hstep with hbounds
    cases hstep
    exact ⟨h.size,h.write happ hbounds.1 hbounds.2,h.untruncated⟩
  | returnOk =>
    obtain ⟨⟨r,written⟩,happ,hstep⟩ := Option.bind_eq_some_iff.mp hstep
    dsimp only at hstep
    split_ifs at hstep with hall
    cases hstep
    have hkept := h.kept
    simp only [shown,happ,Option.elim_some,hall,take_length] at hkept
    refine ⟨?_,?_,h.untruncated⟩
    · simp [encodeAll,h.size,hall,Nat.add_assoc]
    · simpa [encodeAll,shown] using hkept
  | returnError =>
    cases hstep
    exact ⟨h.size,by simpa [shown] using hreturned,h.untruncated⟩
  | readAllRecordFrames =>
    obtain ⟨rs,hrs,hcontent⟩ := hread
    have hscan := scanContent_eq hrs (recordFraming.take_nil : Torn takeRecord [])
    rw [append_nil,← hcontent] at hscan
    simp only [ActiveIndex.step,hscan,h.untruncated,if_true] at hstep
    cases hstep
    exact ⟨h.size,h.kept,by simp⟩
  | truncateTail =>
    obtain ⟨_,htruncating,_⟩ := Option.bind_eq_some_iff.mp hstep
    cases h.untruncated.symm.trans htruncating

private def sampleDelete : SlotRecord := .delete ⟨[107],1⟩

private def oneRecord : ActiveIndex where
  content := header ++ encodeRecord sampleDelete
  activeIndexSize := 50
  returned := [sampleDelete]

private def tornRead : List IndexEvent :=
  [.append sampleDelete,.write 18,.returnOk,.append sampleDelete,.write 1,.readAllRecordFrames,.write 18,.returnOk,
    .truncateTail]

end ActiveIndex

end Datasystem.SlotClient
