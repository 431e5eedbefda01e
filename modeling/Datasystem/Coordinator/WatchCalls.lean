import Datasystem.Coordinator.WatchPipeline

/-!
# Snapshots of watches

This module follows the revisions the calls have read, for the runs in which a call reads only after the
channel of its watch was created and no call lowers the snapshot revision that another call has set.
-/

namespace Datasystem.Coordinator

open Keyed MemoryKvStore List WatcherChannel WatchState

def WatchCallPhase.revision? : WatchCallPhase → Option Int
  | .addChannel => none
  | .range => none
  | .setSnapshot revision _ => some revision
  | .returned revision _ => some revision

/-- A call reads its range only when no registration of the watch has still to create the channel,
and sets no snapshot revision below the one the channel has. -/
def snapshotInOrder (st : WatchState) : WatchAction → Bool
  | .advance i => (st.calls[i]?).all fun call =>
      match call.phase with
      | .range => st.calls.all fun other =>
          decide (other.watchId = call.watchId → other.phase ≠ .addChannel)
      | .setSnapshot revision _ => (st.channel call.watchId).all fun c =>
          decide (c.snapshotRevision ≤ revision)
      | _ => true
  | _ => true

variable {st : WatchState} {call : WatchCall}

theorem snapshotInOrder_range {i : Nat} (h : snapshotInOrder st (.advance i))
    (hcall : st.calls[i]? = some call) (hphase : call.phase = .range) :
    ∀ other ∈ st.calls, other.watchId = call.watchId → other.phase ≠ .addChannel := by
  simp only [snapshotInOrder,hcall,Option.all_some,hphase,all_eq_true,decide_eq_true_eq] at h
  exact h

theorem snapshotInOrder_set {i : Nat} (h : snapshotInOrder st (.advance i))
    (hcall : st.calls[i]? = some call) {revision : Int} {kvs : List KeyValueEntry}
    (hphase : call.phase = .setSnapshot revision kvs) {c : WatcherChannel} (hc : st.channel call.watchId = some c) :
    c.snapshotRevision ≤ revision := by
  simp only [snapshotInOrder,hcall,Option.all_some,hphase,hc,decide_eq_true_eq] at h
  exact h

def WatchState.nextPhase (st : WatchState) (call : WatchCall) : WatchCallPhase :=
  match call.phase with
  | .addChannel => .range
  | .range => .setSnapshot st.store.revision (st.store.range call.key call.rangeEnd).1
  | .setSnapshot revision kvs => .returned revision kvs
  | .returned revision kvs => .returned revision kvs

/-- The ways in which a call gets into the next state. -/
inductive CallOrigin (st st' : WatchState) (a : WatchAction) (call' : WatchCall) : Prop
  | kept (hmem : call' ∈ st.calls)
  | registered (hother : ∀ call ∈ st.calls, call'.phase = .addChannel →
        call.watchId ≠ call'.watchId)
      (hphase : call'.phase.revision? = none)
      (hscope : st'.registry.scopeOf call'.watchId = some (call'.key, call'.rangeEnd))
  | advanced (i : Nat) (call : WatchCall) (ha : a = .advance i) (hcall : st.calls[i]? = some call)
      (hnext : call' = { call with phase := st.nextPhase call })

variable {st st' : WatchState}

theorem advance_calls {i : Nat} (hstep : watchStep st (.advance i) = some st') : ∃ call, st.calls[i]? = some call ∧
      st'.calls = st.calls.set i { call with phase := st.nextPhase call } := by
  cases WatchStep.of_watchStep hstep with
  | @advance _ call r hcall hadv =>
    refine ⟨call,hcall,?_⟩
    have hphase : r.2 = st.nextPhase call := by
      cases hph : call.phase with
      | returned revision kvs =>
        simp only [advanceCall,hph] at hadv
        cases hadv
      | _ =>
        simp only [advanceCall,hph,Option.some.injEq] at hadv
        simp only [nextPhase,hph,← hadv,MemoryKvStore.range]
    rw [hphase]

variable {a : WatchAction}

theorem watchStep_call (h : PipelineInv st) (hstep : watchStep st a = some st')
    {call' : WatchCall} (hcall' : call' ∈ st'.calls) : CallOrigin st st' a call' := by
  have hsame : st'.calls = st.calls → CallOrigin st st' a call' := by
    intro heq
    exact .kept (heq ▸ hcall')
  cases WatchStep.of_watchStep hstep with
  | @watchRange _ _ _ _ res hreg =>
    obtain ⟨_,hscope,_,_,hcreated,_⟩ := h.registry.register hreg
    rcases mem_append.mp hcall' with hmem | hmem
    · exact .kept hmem
    · obtain rfl := mem_singleton.mp hmem
      cases hc : res.created with
      | true =>
        refine .registered ?_ rfl hscope
        intro call hcall _
        show call.watchId ≠ res.watchId
        rw [(hcreated hc).1]
        exact ne_of_lt (h.call_lt call hcall)
      | false => exact .registered (fun _ _ hphase => by cases hphase) rfl hscope
  | @advance i =>
    obtain ⟨call,hcall,heq⟩ := advance_calls hstep
    rw [heq] at hcall'
    rcases mem_or_eq_of_mem_set hcall' with hmem | rfl
    · exact .kept hmem
    · exact .advanced i call rfl hcall rfl
  | callback => exact hsame (watchStep_frame rfl hstep).calls
  | _ => exact hsame rfl

theorem ChannelStep.addedRevision {id : Int} {c c' : WatcherChannel} (h : ChannelStep st id c a c') :
    c'.addedRevision = c.addedRevision := by
  cases h with
  | same => rfl
  | push e => exact c.push_addedRevision e
  | reset => exact c.reset_addedRevision
  | prepare => exact c.prepareChannelEvents_sameStream.addedRevision
  | notify code => exact (c.notifyReturned_sameStream code).addedRevision
  | acknowledge => exact c.acknowledge_sameStream.addedRevision
  | setSnapshot _ _ revision => exact (c.setSnapshotRevision_sameStream revision).addedRevision

@[simp] theorem WatcherChannel.setSnapshotRevision_snapshotRevision (revision : Int)
    (c : WatcherChannel) : (c.setSnapshotRevision revision).snapshotRevision = revision := by
  unfold setSnapshotRevision
  dsimp only
  split <;> simp

/-- Only a `WatchRange` call changes the snapshot revision of a channel. -/
theorem ChannelStep.snapshotRevision {id : Int} {c c' : WatcherChannel} (h : ChannelStep st id c a c') :
    c'.snapshotRevision = c.snapshotRevision ∨
      ∃ i call revision kvs, a = .advance i ∧ st.calls[i]? = some call ∧ call.watchId = id ∧
        call.phase = .setSnapshot revision kvs ∧ c'.snapshotRevision = revision := by
  cases h with
  | same => exact Or.inl rfl
  | push e =>
    left
    unfold WatcherChannel.push
    split_ifs <;> simp
  | reset =>
    left
    unfold WatcherChannel.reset
    split_ifs <;> simp
  | prepare =>
    left
    unfold prepareChannelEvents
    split_ifs <;> rfl
  | notify code =>
    left
    unfold notifyReturned
    split
    · split <;> rfl
    · rfl
  | acknowledge =>
    left
    unfold WatcherChannel.acknowledge
    split <;> rfl
  | setSnapshot i call revision kvs hcall hid hphase =>
    exact Or.inr ⟨i,call,revision,kvs,rfl,hcall,hid,hphase,by simp⟩

structure SnapshotInv (st : WatchState) : Prop where
  taken : ∀ call ∈ st.calls, ∀ revision, call.phase.revision? = some revision →
    (∀ c, st.channel call.watchId = some c → c.addedRevision ≤ revision) ∧
      ∀ other ∈ st.calls, other.watchId = call.watchId → other.phase ≠ .addChannel
  returned : ∀ call ∈ st.calls, ∀ revision kvs, call.phase = .returned revision kvs →
    ∀ c, st.channel call.watchId = some c → revision ≤ c.snapshotRevision
  set : ∀ id c, st.channel id = some c → 0 < c.snapshotRevision →
    c.addedRevision ≤ c.snapshotRevision

theorem revision?_nextPhase {revision : Int} (h : (st.nextPhase call).revision? = some revision) :
    call.phase.revision? = some revision ∨ (call.phase = .range ∧ revision = st.store.revision) := by
  unfold nextPhase at h
  split at h
  · cases h
  · rename_i hphase
    exact Or.inr ⟨hphase,(Option.some.inj h).symm⟩
  · rename_i hphase
    exact Or.inl (by rw [hphase]; exact h)
  · rename_i hphase
    exact Or.inl (by rw [hphase]; exact h)

/-- Whoever has to create a channel after a step had to before it, or is new. -/
theorem addChannel_origin (h : PipelineInv st) (hstep : watchStep st a = some st')
    {other : WatchCall} (hmem : other ∈ st'.calls) (hphase : other.phase = .addChannel) :
    other ∈ st.calls ∨ ∀ call ∈ st.calls, call.watchId ≠ other.watchId := by
  rcases watchStep_call h hstep hmem with hmem | ⟨hother,_,_⟩ | ⟨i,call,_,_,rfl⟩
  · exact Or.inl hmem
  · exact Or.inr fun call hcall => hother call hcall hphase
  · exfalso
    simp only at hphase
    unfold nextPhase at hphase
    split at hphase <;> cases hphase

theorem watchStep_snapshotInv (hp : PipelineInv st) (h : SnapshotInv st)
    (hguard : snapshotInOrder st a) (hstep : watchStep st a = some st') : SnapshotInv st' := by
  -- a call that has read is not about to create a channel, and neither is another of its watch
  have htaken : ∀ call ∈ st'.calls, ∀ revision, call.phase.revision? = some revision →
      (∃ old ∈ st.calls, old.watchId = call.watchId ∧ (old.phase.revision? = some revision ∨
        (revision = st.store.revision ∧ ∃ i, a = .advance i ∧ st.calls[i]? = some old ∧ old.phase = .range))) ∧
      ∀ other ∈ st.calls, other.watchId = call.watchId → other.phase ≠ .addChannel := by
    intro call hcall revision hrev
    rcases watchStep_call hp hstep hcall with hmem | ⟨_,hnone,_⟩ | ⟨i,old,ha,hold,rfl⟩
    · exact ⟨⟨call,hmem,rfl,Or.inl hrev⟩,(h.taken call hmem revision hrev).2⟩
    · rw [hnone] at hrev
      cases hrev
    · have hmem : old ∈ st.calls := mem_of_getElem? hold
      rcases revision?_nextPhase hrev with hrev | ⟨hphase,hrev⟩
      · exact ⟨⟨old,hmem,rfl,Or.inl hrev⟩,(h.taken old hmem revision hrev).2⟩
      · subst ha
        have hnone := snapshotInOrder_range hguard hold hphase
        exact ⟨⟨old,hmem,rfl,Or.inr ⟨hrev,i,rfl,hold,hphase⟩⟩,hnone⟩
  constructor
  · intro call hcall revision hrev
    obtain ⟨⟨old,holdmem,hid,hread⟩,hnone⟩ := htaken call hcall revision hrev
    constructor
    · intro c' hc'
      rcases watchStep_channel hp hstep hc' with ⟨c,hc,hcs⟩ | ⟨i,adder,_,hadd,hwatch,hphase,_⟩
      · rw [hcs.addedRevision]
        rcases hread with hread | ⟨hrev,_⟩
        · exact (h.taken old holdmem revision hread).1 c (hid.symm ▸ hc)
        · rw [hrev]
          exact (hp.channel_lt _ c hc).2
      · exact absurd hphase (hnone adder (mem_of_getElem? hadd) hwatch)
    · intro other hother hwatch hphase
      rcases addChannel_origin hp hstep hother hphase with hmem | hnew
      · exact hnone other hmem hwatch hphase
      · exact hnew old holdmem (hid.trans hwatch.symm)
  · intro call hcall revision kvs hphase c' hc'
    have hrev : call.phase.revision? = some revision := by
      rw [hphase]
      rfl
    obtain ⟨_,hnone⟩ := htaken call hcall revision hrev
    have horigin : (∃ old ∈ st.calls, old.watchId = call.watchId ∧ old.phase = .returned revision kvs) ∨
        ∃ i old, a = .advance i ∧ st.calls[i]? = some old ∧ old.watchId = call.watchId ∧
          old.phase = .setSnapshot revision kvs := by
      rcases watchStep_call hp hstep hcall with hmem | ⟨_,hnone,_⟩ | ⟨i,old,ha,hold,rfl⟩
      · exact Or.inl ⟨call,hmem,rfl,hphase⟩
      · rw [hnone] at hrev
        cases hrev
      · simp only [nextPhase] at hphase
        split at hphase
        · cases hphase
        · cases hphase
        · rename_i hold'
          cases hphase
          exact Or.inr ⟨i,old,ha,hold,rfl,hold'⟩
        · rename_i hold'
          cases hphase
          exact Or.inl ⟨old,mem_of_getElem? hold,rfl,hold'⟩
    rcases horigin with ⟨old,hmem,hid,hret⟩ | ⟨i,old,ha,hold,hid,hset⟩
    · rcases watchStep_channel hp hstep hc' with ⟨c,hc,hcs⟩ | ⟨i,adder,_,hadd,hwatch,hph,_⟩
      · have hle := h.returned old hmem revision kvs hret c (hid.symm ▸ hc)
        rcases hcs.snapshotRevision with heq | ⟨i,setter,R,kvs',ha,hsetter,hwatch,hph,heq⟩
        · rw [heq]
          exact hle
        · subst ha
          have hmono := snapshotInOrder_set hguard hsetter hph (hwatch.symm ▸ hc)
          omega
      · exact absurd hph (hnone adder (mem_of_getElem? hadd) hwatch)
    · -- the call itself has just set its revision
      subst ha
      obtain ⟨call₁,hcall₁,hstep₁⟩ := Option.bind_eq_some_iff.mp hstep
      obtain rfl : old = call₁ := Option.some.inj (hold.symm.trans hcall₁)
      simp only [advanceCall,hset,Option.map_some,Option.some.injEq] at hstep₁
      subst hstep₁
      have hlookup : (st.modifyChannel old.watchId (setSnapshotRevision revision)).channel call.watchId = some c' := hc'
      rw [channel_modifyChannel (setSnapshotRevision_watchId revision),if_pos hid.symm] at hlookup
      obtain ⟨c,_,rfl⟩ := Option.map_eq_some_iff.mp hlookup
      simp
  · intro id c' hc' hpos
    rcases watchStep_channel hp hstep hc' with ⟨c,hc,hcs⟩ | ⟨_,_,_,_,_,_,rfl⟩
    · rw [hcs.addedRevision]
      rcases hcs.snapshotRevision with heq | ⟨i,setter,R,kvs,ha,hsetter,hwatch,hph,heq⟩
      · rw [heq] at hpos ⊢
        exact h.set id c hc hpos
      · rw [heq]
        exact (h.taken setter (mem_of_getElem? hsetter) R (by rw [hph]; rfl)).1 c (hwatch.symm ▸ hc)
    · exact absurd hpos (Int.lt_irrefl 0)

theorem reachableBy_snapshotInv {guard : WatchState → WatchAction → Prop}
    (himp : ∀ s a, guard s a → snapshotInOrder s a) (h : watchMachine.ReachableBy guard st) :
    PipelineInv st ∧ SnapshotInv st := by
  refine h.invariant (P := fun st => PipelineInv st ∧ SnapshotInv st) ⟨empty_pipelineInv,?_⟩ ?_
  · constructor
    · exact fun call hcall => by cases hcall
    · exact fun call hcall => by cases hcall
    · exact fun id c hc => by cases hc
  · rintro s a s' ⟨hp,hs⟩ hguard hstep
    exact ⟨watchStep_pipelineInv hp hstep,watchStep_snapshotInv hp hs (himp s a hguard) hstep⟩

end Datasystem.Coordinator
