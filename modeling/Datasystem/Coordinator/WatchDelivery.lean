import Datasystem.Coordinator.WatchCalls

/-!
# Delivery to a watcher

A dispatch notifies a batch from the front of a channel's queue and then takes off the queue every leading
event whose revision is at most the highest of the batch. Events of equal or lower revision that are not in
the batch are taken off as well.
-/

namespace Datasystem.Coordinator

open Keyed MemoryKvStore List WatcherChannel

/-- An acknowledgement takes only events of the notified batch off the queue. -/
def ackWithinBatch (st : WatchState) : WatchAction → Bool
  | .acknowledge id => (st.channel id).all fun c =>
      match c.dispatch with
      | .notified events maxEventRevision => (c.acknowledged maxEventRevision).all fun e => e ∈ events
      | _ => true
  | _ => true

theorem ackWithinBatch_acknowledge {st : WatchState} {id : Int}
    (h : ackWithinBatch st (.acknowledge id)) {c : WatcherChannel} (hc : st.channel id = some c)
    {events : List WatchEvent} {maxEventRevision : Int}
    (hdispatch : c.dispatch = .notified events maxEventRevision) :
    ∀ e ∈ c.acknowledged maxEventRevision, e ∈ events := by
  simp only [ackWithinBatch,hc,Option.all_some,hdispatch,all_eq_true,decide_eq_true_eq] at h
  exact h

/-- What a channel owes its watcher: a pushed event stays queued until it is delivered, shown by
the snapshot, or replaced by a rewatch event, and a rewatch event is never taken off. -/
structure ChannelInv (c : WatcherChannel) : Prop where
  owed : ∀ e ∈ c.enqueued, e ∈ c.queue ∨ e ∈ c.delivered ∨ e.revision ≤ c.snapshotRevision ∨
    c.needReWatch = true
  reset_queued : c.needReWatch = true → ∃ e ∈ c.queue, e.type = .rewatch
  queue_plain : c.needReWatch = false → ∀ e ∈ c.queue, e.type ≠ .rewatch
  notifying_plain : ∀ events maxEventRevision,
    c.dispatch = .notifying events false maxEventRevision → ∀ e ∈ events, e.type ≠ .rewatch
  notified_plain : ∀ events maxEventRevision, c.dispatch = .notified events maxEventRevision →
    ∀ e ∈ events, e.type ≠ .rewatch ∧ e ∈ c.delivered

theorem mem_dropWhile_or {α : Type} (p : α → Bool) {l : List α} {a : α} (h : a ∈ l) :
    a ∈ l.dropWhile p ∨ a ∈ l.takeWhile p := by
  rw [← takeWhile_append_dropWhile (p := p) (l := l),mem_append] at h
  exact h.symm

theorem WatcherChannel.mem_of_mem_takeBatch {e : WatchEvent} :
    ∀ {count bytes : Nat} {l : List WatchEvent}, e ∈ takeBatch count bytes l → e ∈ l
  | 0, _, _, h => by cases h
  | _ + 1, _, [], h => by cases h
  | count + 1, bytes, x :: l, h => by
    simp only [takeBatch] at h
    split at h
    · rw [mem_singleton.mp h]
      exact mem_cons_self
    · rcases mem_cons.mp h with rfl | h
      · exact mem_cons_self
      · exact mem_cons_of_mem _ (mem_of_mem_takeBatch h)

namespace ChannelInv

theorem new (id : Int) (watcherAddr : Bytes) (revision : Int) : ChannelInv (.new id watcherAddr revision) := by
  constructor <;> simp [WatcherChannel.new]

variable {c : WatcherChannel} (h : ChannelInv c)

include h

theorem schedule : ChannelInv c.schedule := by
  have hdispatch : ∀ p : DispatchPhase, p ≠ .queued → c.schedule.dispatch = p → c.dispatch = p := by
    intro p hp heq
    unfold WatcherChannel.schedule at heq
    split at heq
    · exact absurd heq.symm hp
    · exact heq
  constructor
  · simpa using h.owed
  · simpa using h.reset_queued
  · simpa using h.queue_plain
  · exact fun events m heq => h.notifying_plain events m (hdispatch _ (by simp) heq)
  · intro events m heq
    rw [schedule_delivered]
    exact h.notified_plain events m (hdispatch _ (by simp) heq)

theorem rewatch (revision : Int) : ChannelInv { c with queue := [makeRewatchEvent revision], needReWatch := true } where
  owed _ _ := Or.inr (Or.inr (Or.inr rfl))
  reset_queued _ := ⟨_,mem_singleton.mpr rfl,rfl⟩
  queue_plain hneed := by cases hneed
  notifying_plain := h.notifying_plain
  notified_plain := h.notified_plain

theorem push {e : WatchEvent} (he : e.type ≠ .rewatch) : ChannelInv (c.push e) := by
  unfold WatcherChannel.push
  split_ifs with hneed hlen
  · exact h
  · refine schedule ⟨?_,?_,?_,h.notifying_plain,h.notified_plain⟩
    · intro x hx
      rcases mem_append.mp hx with hx | hx
      · exact (h.owed x hx).imp_left fun hq => mem_append_left _ hq
      · exact Or.inl (mem_append_right _ hx)
    · exact fun hneed' => absurd hneed' hneed
    · intro hneed' x hx
      rcases mem_append.mp hx with hx | hx
      · exact h.queue_plain hneed' x hx
      · rw [mem_singleton.mp hx]
        exact he
  · exact (h.rewatch e.revision).schedule

theorem reset : ChannelInv c.reset := by
  unfold WatcherChannel.reset
  split_ifs
  · exact h
  · exact (h.rewatch 0).schedule

theorem setSnapshotRevision {revision : Int} (hle : c.snapshotRevision ≤ revision) :
    ChannelInv (c.setSnapshotRevision revision) := by
  have hset : ChannelInv { c with snapshotRevision := revision } := by
    refine ⟨?_,h.reset_queued,h.queue_plain,h.notifying_plain,h.notified_plain⟩
    intro e he
    rcases h.owed e he with hq | hd | hr | hn
    · exact Or.inl hq
    · exact Or.inr (Or.inl hd)
    · exact Or.inr (Or.inr (Or.inl (Int.le_trans hr hle)))
    · exact Or.inr (Or.inr (Or.inr hn))
  unfold WatcherChannel.setSnapshotRevision
  dsimp only
  split
  · exact hset
  · exact hset.schedule

theorem setPhase {p : DispatchPhase} (hnotifying : ∀ events m, p ≠ .notifying events false m)
    (hnotified : ∀ events m, p ≠ .notified events m) :
    ChannelInv { c with dispatch := p } where
  owed := h.owed
  reset_queued := h.reset_queued
  queue_plain := h.queue_plain
  notifying_plain events m heq := absurd heq (hnotifying events m)
  notified_plain events m heq := absurd heq (hnotified events m)

theorem prune (hneed : c.needReWatch = false) : ChannelInv { c with queue := c.pruned } where
  owed e he := by
    rcases h.owed e he with hq | hrest
    · rcases mem_dropWhile_or (fun e => decide (e.revision ≤ c.snapshotRevision)) hq with hd | ht
      · exact Or.inl hd
      · exact Or.inr (Or.inr (Or.inl (by simpa using mem_takeWhile_imp ht)))
    · exact Or.inr hrest
  reset_queued hneed' := absurd hneed' (by simp [hneed])
  queue_plain _ e he := h.queue_plain hneed e ((dropWhile_sublist _).subset he)
  notifying_plain := h.notifying_plain
  notified_plain := h.notified_plain

theorem prepareChannelEvents : ChannelInv c.prepareChannelEvents := by
  unfold WatcherChannel.prepareChannelEvents
  split_ifs with hempty hneed hsnap hpruned
  · exact h.setPhase (by simp) (by simp)
  · exact h.setPhase (by simp) (by simp)
  · exact h.setPhase (by simp) (by simp)
  · exact (h.prune (by simpa using hneed)).setPhase (by simp) (by simp)
  · have hplain := h.prune (by simpa using hneed)
    refine ⟨hplain.owed,hplain.reset_queued,hplain.queue_plain,?_,fun _ _ heq => by cases heq⟩
    intro events m heq e he
    cases heq
    exact hplain.queue_plain (by simpa using hneed) e (mem_of_mem_takeBatch he)

theorem notifyReturned (code : StatusCode) : ChannelInv (c.notifyReturned code) := by
  unfold WatcherChannel.notifyReturned
  split
  · rename_i events needReWatch m hdispatch
    split
    · have hdelivered : ∀ e ∈ c.enqueued, e ∈ c.queue ∨ e ∈ c.delivered ++ events ∨
          e.revision ≤ c.snapshotRevision ∨ c.needReWatch = true := by
        intro e he
        rcases h.owed e he with hq | hd | hrest
        · exact Or.inl hq
        · exact Or.inr (Or.inl (mem_append_left _ hd))
        · exact Or.inr (Or.inr hrest)
      refine ⟨hdelivered,h.reset_queued,h.queue_plain,?_,?_⟩
      · intro events' m' heq
        dsimp only at heq
        split at heq <;> cases heq
      · intro events' m' heq e he
        dsimp only at heq
        split_ifs at heq with hneed
        cases heq
        obtain rfl : needReWatch = false := by simpa using hneed
        exact ⟨h.notifying_plain events m hdispatch e he,mem_append_right _ he⟩
    · exact h.setPhase (by simp) (by simp)
    · exact h.setPhase (by simp) (by simp)
  · exact h

theorem acknowledge (hack : ∀ events m, c.dispatch = .notified events m → ∀ e ∈ c.acknowledged m, e ∈ events) :
    ChannelInv c.acknowledge := by
  unfold WatcherChannel.acknowledge
  split
  · rename_i events m hdispatch
    have hplain := h.notified_plain events m hdispatch
    have hbatch := hack events m hdispatch
    refine ⟨?_,?_,?_,?_,?_⟩
    · intro e he
      rcases h.owed e he with hq | hrest
      · rcases mem_dropWhile_or (fun e => decide (e.revision ≤ m)) hq with hd | ht
        · exact Or.inl hd
        · exact Or.inr (Or.inl (hplain e (hbatch e ht)).2)
      · exact Or.inr hrest
    · intro hneed
      obtain ⟨e,he,htype⟩ := h.reset_queued hneed
      rcases mem_dropWhile_or (fun e => decide (e.revision ≤ m)) he with hd | ht
      · exact ⟨e,hd,htype⟩
      · exact absurd htype (hplain e (hbatch e ht)).1
    · intro hneed e he
      exact h.queue_plain hneed e ((dropWhile_sublist _).subset he)
    · intro events' m' heq
      dsimp only at heq
      split at heq <;> cases heq
    · intro events' m' heq
      dsimp only at heq
      split at heq <;> cases heq
  · exact h

omit h

end ChannelInv

/-- The events of the store are puts and deletes. -/
def LogPlain (st : WatchState) : Prop := ∀ e ∈ st.log, e.type ≠ .rewatch

structure DeliveryInv (st : WatchState) : Prop where
  log_plain : LogPlain st
  channel : ∀ id c, st.channel id = some c → ChannelInv c

theorem watchStep_deliveryInv {st st' : WatchState} {a : WatchAction} (hp : PipelineInv st)
    (h : DeliveryInv st) (hack : ackWithinBatch st a) (hsnap : snapshotInOrder st a)
    (hstep : watchStep st a = some st') : DeliveryInv st' := by
  constructor
  · intro e he
    rcases watchStep_log hstep with ⟨hlog,_⟩ | ⟨op,_,_,hlog⟩
    · rw [hlog] at he
      exact h.log_plain e he
    · rw [hlog] at he
      rcases mem_append.mp he with he | he
      · exact h.log_plain e he
      · exact (apply_spec op st.store).mutation e he
  · intro id c' hc'
    rcases watchStep_channel hp hstep hc' with ⟨c,hc,hcs⟩ | ⟨_,_,_,_,_,_,rfl⟩
    · have hinv := h.channel id c hc
      cases hcs with
      | same => exact hinv
      | push e ids rest hfan =>
        refine hinv.push (h.log_plain e (hp.transit_log e ?_))
        rw [WatchState.transit,hfan]
        exact mem_cons_self
      | reset => exact hinv.reset
      | prepare => exact hinv.prepareChannelEvents
      | notify code => exact hinv.notifyReturned code
      | acknowledge => exact hinv.acknowledge fun events m => ackWithinBatch_acknowledge hack hc
      | setSnapshot i call revision kvs hcall hid hphase =>
        exact hinv.setSnapshotRevision (snapshotInOrder_set hsnap hcall hphase (hid.symm ▸ hc))
    · exact ChannelInv.new _ _ _

/-- In every run in which acknowledgements take only notified events off the queues and snapshot
revisions are set in order, no matching mutation is ever lost. -/
theorem no_event_lost_of_ordered_acks (st : WatchState)
    (hreach : watchMachine.ReachableBy (fun s a => ackWithinBatch s a && snapshotInOrder s a) st) :
    NoEventLost st := by
  obtain ⟨hp,hs⟩ := reachableBy_snapshotInv (fun _ _ hguard => (Bool.and_eq_true_iff.mp hguard).2) hreach
  have hd : PipelineInv st ∧ DeliveryInv st := by
    refine hreach.invariant (P := fun st => PipelineInv st ∧ DeliveryInv st) ⟨empty_pipelineInv,?_⟩ ?_
    · exact ⟨(fun e he => by cases he),(fun id c hc => by cases hc)⟩
    · rintro s a s' ⟨hp,hd⟩ hguard hstep
      obtain ⟨hack,hsnap⟩ := Bool.and_eq_true_iff.mp hguard
      exact ⟨watchStep_pipelineInv hp hstep,watchStep_deliveryInv hp hd hack hsnap hstep⟩
  intro id c scope hc hscope hpos e he hin hrev
  have hinv := hd.2.channel id c hc
  by_cases hover : st.pendingOverflow = true
  · exact Or.inr (Or.inr (Or.inr (Or.inl hover)))
  by_cases hreset : st.fanOut.isResetting = true
  · exact Or.inr (Or.inr (Or.inr (Or.inr (Or.inl hreset))))
  by_cases hneed : c.needReWatch = true
  · exact Or.inr (Or.inr (Or.inr (Or.inr (Or.inr (Or.inl (hinv.reset_queued hneed))))))
  -- without a reset the event was pushed to the channel or is still on the way
  have htracked := hp.tracked id c scope hc hscope (by simpa using hneed) (by simpa using hover) (by simpa using hreset)
  have hdue : c.due scope e = true := by
    have hadded := hs.set id c hc hpos
    have hlt : c.addedRevision < e.revision := Int.lt_of_le_of_lt hadded hrev
    simp [due,hin,hlt]
  have hmem := htracked.mem_iff.mp (mem_filter.mpr ⟨he,hdue⟩)
  rcases mem_append.mp (mem_filter.mp hmem).1 with henq | hway
  · rcases hinv.owed e henq with hq | hdel | hle | hn
    · exact Or.inr (Or.inl hq)
    · exact Or.inl hdel
    · omega
    · exact absurd hn hneed
  · exact Or.inr (Or.inr (Or.inl hway))

/-- Two puts under one watch whose callbacks run in the opposite order of their commits. -/
def reorderedPuts : List WatchAction :=
  [.watchRange [97] [122] [119] [],.advance 0,.advance 0,.advance 0,
    .mutate (.put ⟨[98],[1],0,-1,0,0⟩),.mutate (.put ⟨[99],[2],0,-1,0,0⟩)]

/-- The second put is notified while the first is pushed behind it, and the acknowledgement takes
both off the queue. -/
def reorderedDelivery : List WatchAction :=
  reorderedPuts ++
    [.callback 1,.fanOutPop,.fanOutExchange,.fanOutMatch,.fanOutPush,.fanOutMatch,.prepare 1,
      .callback 0,.fanOutPop,.fanOutExchange,.fanOutMatch,.fanOutPush,.fanOutMatch,
      .notify 1 .ok,.acknowledge 1]

/-- What remains of the run: the first put is committed, matches the watch and is above its
snapshot revision, and it is nowhere. -/
theorem reordered_delivery_loses_event : ∃ st, watchMachine.Reachable st ∧ ¬ NoEventLost st := by
  obtain ⟨st,hst⟩ : ∃ st, watchMachine.run .empty reorderedDelivery = some st := ⟨_,rfl⟩
  refine ⟨st,Machine.Reachable.run .init hst,?_⟩
  have hlog : (watchMachine.run .empty reorderedDelivery).map WatchState.log =
      some [⟨.put,⟨[98],[1],1,2⟩,2⟩,⟨.put,⟨[99],[2],1,3⟩,3⟩] := by decide
  have hchannel : (watchMachine.run .empty reorderedDelivery).map (fun st => st.channel 1) =
      some (some { new 1 [119] 1 with
        snapshotRevision := 1
        enqueued := [⟨.put,⟨[99],[2],1,3⟩,3⟩,⟨.put,⟨[98],[1],1,2⟩,2⟩]
        delivered := [⟨.put,⟨[99],[2],1,3⟩,3⟩] }) := by decide
  have hscope : (watchMachine.run .empty reorderedDelivery).map
      (fun st => st.registry.scopeOf 1) = some (some ([97], [122])) := by decide
  have hway : (watchMachine.run .empty reorderedDelivery).map
      (fun st => (st.onTheWay 1, st.pendingOverflow, st.fanOut.isResetting)) =
      some ([], false, false) := by decide
  rw [hst,Option.map_some,Option.some.injEq] at hlog hchannel hscope hway
  obtain ⟨hway,hover,hreset⟩ := Prod.mk.inj hway |>.imp_right Prod.mk.inj
  intro hno
  have hlost := hno 1 _ _ hchannel hscope (by decide) ⟨.put,⟨[98],[1],1,2⟩,2⟩
    (by rw [hlog]; exact mem_cons_self) (by decide) (by decide)
  unfold Superseded at hlost
  rw [hway,hover,hreset] at hlost
  revert hlost
  decide

/-- Deliveries in the order of the commits meet both conditions, and the puts arrive. -/
def orderedDelivery : List WatchAction :=
  reorderedPuts ++
    [.callback 0,.callback 1,.fanOutPop,.fanOutExchange,.fanOutMatch,.fanOutPush,.fanOutMatch,
      .fanOutPush,.prepare 1,.notify 1 .ok,.acknowledge 1]

theorem no_event_lost_of_ordered_delivery :
    ∃ st, watchMachine.run .empty orderedDelivery = some st ∧ NoEventLost st := by
  obtain ⟨st,hst⟩ : ∃ st, watchMachine.runGuarded
      (fun s a => ackWithinBatch s a && snapshotInOrder s a) .empty orderedDelivery = some st :=
    ⟨_,rfl⟩
  exact ⟨st,Machine.run_of_runGuarded hst,no_event_lost_of_ordered_acks st (Machine.ReachableBy.runGuarded .init hst)⟩

/-! ## What a watcher is told -/

variable {st : WatchState} {a : WatchAction} {id : Int} {c c' : WatcherChannel} {e : WatchEvent}

/-- The events that a channel has to tell, tells or has told its watcher. -/
def WatcherChannel.told (c : WatcherChannel) : List WatchEvent :=
  c.queue ++ (match c.dispatch with | .notifying events _ _ => events | _ => []) ++ c.delivered

/-- A step tells the watcher only of events that have been pushed, or to watch again. -/
theorem told_of_channelStep (h : ChannelStep st id c a c') (hc : ∀ e ∈ c.told, e ∈ c.enqueued ∨ e.type = .rewatch)
    (he : e ∈ c'.told) : e ∈ c'.enqueued ∨ e.type = .rewatch := by
  simp only [told,mem_append] at hc he
  have hdrop := fun p => (dropWhile_sublist p (l := c.queue)).subset
  cases h with
  | same => exact hc e he
  | push => grind [push,schedule,makeRewatchEvent]
  | reset => grind [WatcherChannel.reset,schedule,makeRewatchEvent]
  | prepare => grind [prepareChannelEvents,mem_of_mem_takeBatch,mem_of_mem_take,pruned]
  | notify => grind [notifyReturned]
  | acknowledge => grind [acknowledge]
  | setSnapshot => grind [setSnapshotRevision,schedule]

theorem told_of_reachable (h : watchMachine.Reachable st) (hc : st.channel id = some c) :
    ∀ e ∈ c.told, e ∈ c.enqueued ∨ e.type = .rewatch := by
  induction h generalizing c with
  | init => cases hc
  | step hreach _ hstep ih =>
    cases watchStep_channel (reachable_pipelineInv hreach) hstep hc with
    | kept c₀ hc₀ hchannel => exact fun e he => told_of_channelStep hchannel (ih hc₀) he
    | added _ _ _ _ _ _ hnew => simp [hnew,told,new]

/-- Whatever the order of callbacks, calls and acknowledgements, a watcher is told only of committed mutations of its
range, and each mutation after its channel was there is pushed or on its way exactly once, unless a reset is due. -/
theorem watch_told_of_commits (h : watchMachine.Reachable st) (hc : st.channel id = some c) {scope : Bytes × Bytes}
    (hscope : st.registry.scopeOf id = some scope) :
    (∀ e ∈ c.delivered, e.type ≠ .rewatch → e ∈ st.log ∧ inScope scope.1 scope.2 e.entry.key) ∧
    (c.needReWatch = false → st.pendingOverflow = false → st.fanOut.isResetting = false →
      (st.log.filter (c.due scope)).Perm ((c.enqueued ++ st.onTheWay id).filter (c.due scope))) := by
  have hp := reachable_pipelineInv h
  refine ⟨?_,hp.tracked id c scope hc hscope⟩
  intro e he htype
  have henqueued := (told_of_reachable h hc e (mem_append_right _ he)).resolve_right htype
  exact ⟨hp.enqueued_log id c hc e henqueued,hp.enqueued_scope id c scope hc hscope e henqueued⟩

theorem watch_told_of_commits_reordered : ∃ st c, watchMachine.run .empty reorderedDelivery = some st ∧
    st.channel 1 = some c ∧ c.delivered.map (·.revision) = [3] ∧
    ∀ e ∈ c.delivered, e.type ≠ .rewatch → e ∈ st.log ∧ inScope [97] [122] e.entry.key := by
  obtain ⟨st,hst⟩ : ∃ st, watchMachine.run .empty reorderedDelivery = some st := ⟨_,rfl⟩
  have hstate : (watchMachine.run .empty reorderedDelivery).map (fun st => (st.registry.scopeOf 1,
      (st.channel 1).map fun c => c.delivered.map (·.revision))) = some (some ([97], [122]), some [3]) := by decide
  rw [hst,Option.map_some,Option.some.injEq,Prod.mk.injEq] at hstate
  obtain ⟨c,hc,hdelivered⟩ := Option.map_eq_some_iff.mp hstate.2
  exact ⟨st,c,hst,hc,hdelivered,(watch_told_of_commits (.run .init hst) hc hstate.1).1⟩

end Datasystem.Coordinator
