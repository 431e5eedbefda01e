import Datasystem.Coordinator.WatchDelivery

/-!
# Snapshot and stream

The stream continues the snapshot without gap or repetition when the mutation callbacks hand over the events
in the order of their commits; the store releases its lock before the callbacks, so the code does not ensure
that.
-/

namespace Datasystem.Coordinator

open Keyed MemoryKvStore WatcherChannel WatchState WatcherChannel
open List hiding lookup modify

/-- A callback hands over an event only when no mutation of a lower revision has events left to
hand over. -/
def callbackInOrder (st : WatchState) : WatchAction → Bool
  | .callback i =>
    match st.inFlight[i]? with
    | some (e :: _) => st.inFlight.flatten.all fun e' => decide (e.revision ≤ e'.revision)
    | _ => true
  | _ => true

/-- The snapshot a call has returned, followed by the events enqueued for its watch, as long as the
watch is live and no reset is due: every later mutation of the range is enqueued or on the way;
once none is on the way, the enqueued events above the snapshot revision lead from the snapshot to
the present contents; and a dispatch that starts now hands out no event the snapshot shows. -/
def StreamFollowsSnapshot (st : WatchState) : Prop :=
  ∀ call ∈ st.calls, ∀ revision kvs, call.phase = .returned revision kvs →
    ∀ c, st.channel call.watchId = some c → (st.registry.scopeOf call.watchId).isSome →
      c.needReWatch = false → st.pendingOverflow = false → st.fanOut.isResetting = false →
        (∀ e ∈ st.log, inScope call.key call.rangeEnd e.entry.key → revision < e.revision →
          e ∈ c.enqueued ∨ e ∈ st.onTheWay call.watchId) ∧
        ((∀ e ∈ st.onTheWay call.watchId, revision < e.revision →
            ¬ inScope call.key call.rangeEnd e.entry.key) →
          replay kvs (c.enqueued.filter fun e => revision < e.revision) =
            (st.store.range call.key call.rangeEnd).1) ∧
        ∀ events maxEventRevision,
          c.prepareChannelEvents.dispatch = .notifying events false maxEventRevision →
            ∀ e ∈ events, revision < e.revision

/-- Events before the channels, without those a callback has still to hand over. -/
def WatchState.handedOver (st : WatchState) : List WatchEvent := st.fanOut.events ++ st.pendingQueue

structure OrderInv (st : WatchState) : Prop where
  handedOver : st.handedOver.Pairwise fun a b => a.revision ≤ b.revision
  inFlight : ∀ e ∈ st.handedOver, ∀ e' ∈ st.inFlight.flatten, e.revision ≤ e'.revision
  enqueued : ∀ id c, st.channel id = some c →
    c.enqueued.Pairwise fun a b => a.revision ≤ b.revision
  enqueued_transit : ∀ id c, st.channel id = some c →
    ∀ e ∈ c.enqueued, ∀ e' ∈ st.transit, e.revision ≤ e'.revision
  queue : ∀ id c, st.channel id = some c → c.needReWatch = false → c.queue.Sublist c.enqueued

variable {st st' : WatchState} {e : WatchEvent}

theorem mem_transit : e ∈ st.transit ↔ e ∈ st.handedOver ∨ e ∈ st.inFlight.flatten := mem_append

theorem OrderInv.transitStep (h : OrderInv st) (hchannels : st'.channels = st.channels)
    (hordered : st'.handedOver.Pairwise fun a b => a.revision ≤ b.revision)
    (hinFlight : ∀ e ∈ st'.handedOver, ∀ e' ∈ st'.inFlight.flatten, e.revision ≤ e'.revision)
    (htransit : ∀ e ∈ st'.transit, e ∈ st.transit ∨ ∀ id c, st.channel id = some c → ∀ e₀ ∈ c.enqueued, e₀.revision ≤ e.revision)
    :
    OrderInv st' := by
  have hchannel : ∀ id, st'.channel id = st.channel id := by
    intro id
    unfold channel
    rw [hchannels]
  refine ⟨hordered,hinFlight,?_,?_,?_⟩
  · intro id c hc
    rw [hchannel] at hc
    exact h.enqueued id c hc
  · intro id c hc e he e' he'
    rw [hchannel] at hc
    rcases htransit e' he' with hmem | hle
    · exact h.enqueued_transit id c hc e he e' hmem
    · exact hle id c hc e he
  · intro id c hc
    rw [hchannel] at hc
    exact h.queue id c hc

/-- A step of the fan-out or of the callbacks that neither adds nor reorders events. -/
theorem OrderInv.sameHandedOver (h : OrderInv st) (hchannels : st'.channels = st.channels)
    (hhanded : st'.handedOver = st.handedOver) (hflight : st'.inFlight = st.inFlight) : OrderInv st' := by
  refine h.transitStep hchannels ?_ ?_ ?_
  · rw [hhanded]
    exact h.handedOver
  · rw [hhanded,hflight]
    exact h.inFlight
  · intro e he
    rw [mem_transit,hhanded,hflight,← mem_transit] at he
    exact Or.inl he

theorem mutate_orderInv (hp : PipelineInv st) (h : OrderInv st) (op : StoreOp) : OrderInv { st with
      store := (op.apply st.store).store
      log := st.log ++ (op.apply st.store).events
      inFlight := st.inFlight ++ [(op.apply st.store).events] } := by
  have hnew : ∀ e ∈ (op.apply st.store).events, ∀ e₀ ∈ st.log, e₀.revision ≤ e.revision := by
    intro e he e₀ he₀
    have hlt := ((apply_spec op st.store).stamped e he).1
    have hle := hp.log_le e₀ he₀
    omega
  have hflat : ∀ e, e ∈ (st.inFlight ++ [(op.apply st.store).events]).flatten →
      e ∈ st.inFlight.flatten ∨ e ∈ (op.apply st.store).events := by
    intro e he
    simpa using he
  refine h.transitStep rfl h.handedOver ?_ ?_
  · intro e he e' he'
    rcases hflat e' he' with hmem | hmem
    · exact h.inFlight e he e' hmem
    · exact hnew e' hmem e (hp.transit_log e (mem_transit.mpr (Or.inl he)))
  · intro e he
    rcases mem_transit.mp he with hmem | hmem
    · exact Or.inl (mem_transit.mpr (Or.inl hmem))
    · rcases hflat e hmem with hmem | hmem
      · exact Or.inl (mem_transit.mpr (Or.inr hmem))
      · exact Or.inr fun id c hc e₀ he₀ => hnew e hmem e₀ (hp.enqueued_log id c hc e₀ he₀)

theorem callback_orderInv (h : OrderInv st) {i : Nat} {events : List WatchEvent}
    (hi : st.inFlight[i]? = some (e :: events)) (hguard : callbackInOrder st (.callback i)) :
    OrderInv { st.enqueue e with inFlight := st.inFlight.set i events } := by
  have hperm := flatten_set_perm hi
  have hhead : e ∈ st.inFlight.flatten := hperm.mem_iff.mpr mem_cons_self
  have hrest : ∀ x ∈ (st.inFlight.set i events).flatten, x ∈ st.inFlight.flatten :=
    fun x hx => hperm.mem_iff.mpr (mem_cons_of_mem _ hx)
  have hle : ∀ x ∈ st.inFlight.flatten, e.revision ≤ x.revision := by
    simp only [callbackInOrder,hi,all_eq_true,decide_eq_true_eq] at hguard
    exact hguard
  by_cases hfull : maxPendingEvents ≤ st.pendingQueue.length
  · simp only [enqueue,hfull,if_true]
    refine h.transitStep rfl h.handedOver (fun x hx x' hx' => h.inFlight x hx x' (hrest x' hx')) ?_
    intro x hx
    rcases mem_transit.mp hx with hmem | hmem
    · exact Or.inl (mem_transit.mpr (Or.inl hmem))
    · exact Or.inl (mem_transit.mpr (Or.inr (hrest x hmem)))
  · simp only [enqueue,hfull,if_false]
    have hsplit : ({ st with
          inFlight := st.inFlight.set i events
          pendingQueue := st.pendingQueue ++ [e] } : WatchState).handedOver =
        st.handedOver ++ [e] := (append_assoc _ _ _).symm
    refine h.transitStep rfl ?_ ?_ ?_
    · rw [hsplit]
      refine pairwise_append.mpr ⟨h.handedOver,pairwise_singleton _ _,?_⟩
      intro x hx y hy
      rw [mem_singleton.mp hy]
      exact h.inFlight x hx e hhead
    · intro x hx x' hx'
      rw [hsplit,mem_append,mem_singleton] at hx
      rcases hx with hx | rfl
      · exact h.inFlight x hx x' (hrest x' hx')
      · exact hle x' (hrest x' hx')
    · intro x hx
      rw [mem_transit,hsplit,mem_append,mem_singleton] at hx
      rcases hx with (hx | rfl) | hx
      · exact Or.inl (mem_transit.mpr (Or.inl hx))
      · exact Or.inl (mem_transit.mpr (Or.inr hhead))
      · exact Or.inl (mem_transit.mpr (Or.inr (hrest x hx)))

variable {a : WatchAction}

/-- Dropping what the snapshot shows or what was notified keeps the queue a part of the stream. -/
theorem ChannelStep.queue_sublist {id : Int} {c c' : WatcherChannel} (h : ChannelStep st id c a c')
    (hpush : a ≠ .fanOutPush) (hc : c.needReWatch = false → c.queue.Sublist c.enqueued) :
    c'.enqueued = c.enqueued ∧ (c'.needReWatch = false → c'.queue.Sublist c'.enqueued) := by
  cases h with
  | same => exact ⟨rfl,hc⟩
  | push e => exact absurd rfl hpush
  | reset =>
    refine ⟨c.reset_enqueued,?_⟩
    intro hneed
    rw [c.reset_needReWatch] at hneed
    cases hneed
  | prepare =>
    refine ⟨c.prepareChannelEvents_sameStream.enqueued,?_⟩
    unfold prepareChannelEvents
    split_ifs
    · exact hc
    · exact hc
    · exact hc
    · exact fun hneed => (dropWhile_sublist _).trans (hc hneed)
    · exact fun hneed => (dropWhile_sublist _).trans (hc hneed)
  | notify code =>
    refine ⟨(c.notifyReturned_sameStream code).enqueued,?_⟩
    unfold notifyReturned
    split
    · split <;> exact hc
    · exact hc
  | acknowledge =>
    refine ⟨c.acknowledge_sameStream.enqueued,?_⟩
    unfold WatcherChannel.acknowledge
    split
    · exact fun hneed => (dropWhile_sublist _).trans (hc hneed)
    · exact hc
  | setSnapshot _ _ revision =>
    refine ⟨(c.setSnapshotRevision_sameStream revision).enqueued,?_⟩
    unfold setSnapshotRevision
    dsimp only
    split
    · exact hc
    · simpa using hc

/-- A step that changes channels only, and pushes nothing. -/
theorem OrderInv.channelStep (hp : PipelineInv st) (h : OrderInv st)
    (hstep : watchStep st a = some st') (hpush : a ≠ .fanOutPush) (hhanded : st'.handedOver = st.handedOver)
    (hflight : st'.inFlight = st.inFlight) : OrderInv st' := by
  have htransit : ∀ e, e ∈ st'.transit ↔ e ∈ st.transit := by
    intro e
    rw [mem_transit,mem_transit,hhanded,hflight]
  have horigin : ∀ id c', st'.channel id = some c' →
      (c'.enqueued = [] ∧ c'.queue = []) ∨ ∃ c, st.channel id = some c ∧ c'.enqueued = c.enqueued ∧
        (c'.needReWatch = false → c'.queue.Sublist c'.enqueued) := by
    intro id c' hc'
    rcases watchStep_channel hp hstep hc' with ⟨c,hc,hcs⟩ | ⟨_,_,_,_,_,_,rfl⟩
    · exact Or.inr ⟨c,hc,hcs.queue_sublist hpush (h.queue id c hc)⟩
    · exact Or.inl ⟨rfl,rfl⟩
  refine ⟨by rw [hhanded]; exact h.handedOver,by rw [hhanded,hflight]; exact h.inFlight,?_,?_,?_⟩
  · intro id c' hc'
    rcases horigin id c' hc' with ⟨hnil,_⟩ | ⟨c,hc,henq,_⟩
    · rw [hnil]
      exact List.Pairwise.nil
    · rw [henq]
      exact h.enqueued id c hc
  · intro id c' hc' e he e' he'
    rcases horigin id c' hc' with ⟨hnil,_⟩ | ⟨c,hc,henq,_⟩
    · rw [hnil] at he
      cases he
    · rw [henq] at he
      exact h.enqueued_transit id c hc e he e' ((htransit e').mp he')
  · intro id c' hc' hneed
    rcases horigin id c' hc' with ⟨hnil,hqueue⟩ | ⟨c,hc,_,hsub⟩
    · rw [hnil,hqueue]
    · exact hsub hneed

theorem fanOutPush_orderInv (hp : PipelineInv st) (h : OrderInv st) {ids : List Int} {rest : List WatchEvent}
    (hfan : st.fanOut = .matched e ids rest) :
    OrderInv { st with
      channels := ids.foldl (fun channels id =>
        modify watchId id (push e) channels) st.channels
      fanOut := .fanning rest } := by
  have hfront : st.handedOver = e :: (rest ++ st.pendingQueue) := by
    rw [handedOver,hfan]
    rfl
  have hordered := h.handedOver
  rw [hfront] at hordered
  obtain ⟨hhead,hrest⟩ := pairwise_cons.mp hordered
  have hmem : e ∈ st.transit := mem_transit.mpr (Or.inl (by rw [hfront]; exact mem_cons_self))
  have hsub : ∀ x ∈ rest ++ st.pendingQueue, x ∈ st.handedOver := by
    intro x hx
    rw [hfront]
    exact mem_cons_of_mem _ hx
  -- every event that stays in transit is at least as young as the pushed one
  have hyoung : ∀ x, x ∈ rest ++ st.pendingQueue ∨ x ∈ st.inFlight.flatten →
      x ∈ st.transit ∧ e.revision ≤ x.revision := by
    rintro x (hx | hx)
    · exact ⟨mem_transit.mpr (Or.inl (hsub x hx)),hhead x hx⟩
    · refine ⟨mem_transit.mpr (Or.inr hx),?_⟩
      exact h.inFlight e (by rw [hfront]; exact mem_cons_self) x hx
  have horigin : ∀ id c', lookup watchId id (ids.foldl (fun channels id =>
        modify watchId id (push e) channels) st.channels) = some c' →
      ∃ c, st.channel id = some c ∧ (c' = c ∨ c' = c.push e) := by
    intro id c' hc'
    rw [lookup_foldl_push e (hp.matched e ids rest hfan).nodup] at hc'
    split_ifs at hc'
    · obtain ⟨c,hc,rfl⟩ := Option.map_eq_some_iff.mp hc'
      exact ⟨c,hc,Or.inr rfl⟩
    · exact ⟨c',hc',Or.inl rfl⟩
  have henqueued : ∀ (id : Int) (c c' : WatcherChannel), st.channel id = some c →
      (c' = c ∨ c' = c.push e) → c'.enqueued = c.enqueued ∨ c'.enqueued = c.enqueued ++ [e] := by
    intro id c c' _ hc'
    rcases hc' with rfl | rfl
    · exact Or.inl rfl
    · rcases c.push_enqueued e with ⟨henq,_⟩ | ⟨henq,_⟩
      · exact Or.inr henq
      · exact Or.inl henq
  refine ⟨hrest,fun x hx => h.inFlight x (hsub x hx),?_,?_,?_⟩
  · intro id c' hc'
    obtain ⟨c,hc,hor⟩ := horigin id c' hc'
    rcases henqueued id c c' hc hor with henq | henq
    · rw [henq]
      exact h.enqueued id c hc
    · rw [henq]
      refine pairwise_append.mpr ⟨h.enqueued id c hc,pairwise_singleton _ _,?_⟩
      intro x hx y hy
      rw [mem_singleton.mp hy]
      exact h.enqueued_transit id c hc x hx e hmem
  · intro id c' hc' x hx y hy
    obtain ⟨c,hc,hor⟩ := horigin id c' hc'
    obtain ⟨hyt,hyoung⟩ := hyoung y (mem_transit.mp hy)
    rcases henqueued id c c' hc hor with henq | henq
    · rw [henq] at hx
      exact h.enqueued_transit id c hc x hx y hyt
    · rw [henq,mem_append,mem_singleton] at hx
      rcases hx with hx | rfl
      · exact h.enqueued_transit id c hc x hx y hyt
      · exact hyoung
  · intro id c' hc' hneed
    obtain ⟨c,hc,hor⟩ := horigin id c' hc'
    rcases hor with rfl | rfl
    · exact h.queue id c' hc hneed
    · revert hneed
      unfold push
      split_ifs with hre hlen
      · exact h.queue id c hc
      · intro _
        simp only [schedule_queue,schedule_enqueued]
        exact (h.queue id c hc (by simpa using hre)).append (List.Sublist.refl _)
      · intro hneed
        simp at hneed

theorem watchStep_orderInv (hp : PipelineInv st) (h : OrderInv st)
    (hguard : callbackInOrder st a) (hstep : watchStep st a = some st') : OrderInv st' := by
  have hphase : ∀ {phase : FanOutPhase} {pendingOverflow : Bool}, phase.events = st.fanOut.events →
      OrderInv { st with pendingOverflow := pendingOverflow, fanOut := phase } := by
    intro phase pendingOverflow hevents
    exact h.sameHandedOver rfl (by simp only [handedOver,hevents]) rfl
  cases WatchStep.of_watchStep hstep with
  | mutate op => exact mutate_orderInv hp h op
  | callback hi => exact callback_orderInv h hi hguard
  | fanOutPop hfan =>
    refine h.sameHandedOver rfl ?_ rfl
    simp [handedOver,hfan,FanOutPhase.events]
  | overflow hfan => exact hphase (by rw [hfan]; rfl)
  | fanOutExchange hfan => exact hphase (by rw [hfan]; rfl)
  | fanOutReset hfan =>
    exact h.channelStep hp hstep (by simp) (by simp [handedOver,hfan,FanOutPhase.events]) rfl
  | fannedOut hfan => exact hphase (by rw [hfan]; rfl)
  | fanOutMatch hfan => exact hphase (by rw [hfan]; rfl)
  | fanOutPush hfan => exact fanOutPush_orderInv hp h hfan
  | refused => exact h
  | watchRange hreg => exact h.sameHandedOver rfl rfl rfl
  | advance =>
    refine h.channelStep hp hstep (by simp) ?_ ?_
    · rw [advance_frame hstep]
      rfl
    · rw [advance_frame hstep]
  | cancel => exact h.sameHandedOver rfl rfl rfl
  | _ => exact h.channelStep hp hstep (by simp) rfl rfl

/-- What a call has read: the contents of its range at some earlier state of the store, from which
the later part of the log leads to the present state; and its watch has its scope. -/
structure CallInv (st : WatchState) (call : WatchCall) : Prop where
  scope : ∀ scope, st.registry.scopeOf call.watchId = some scope →
    scope = (call.key, call.rangeEnd)
  read : ∀ revision kvs, call.phase = .setSnapshot revision kvs ∨
      call.phase = .returned revision kvs →
    ∃ s, s.revision = revision ∧ kvs = (s.range call.key call.rangeEnd).1 ∧
      LogSpec s st.store (st.log.filter fun e => revision < e.revision)

variable (hp : PipelineInv st)

include hp

theorem watchStep_scopeOf (hstep : watchStep st a = some st') {id : Int}
    (hid : id < st.registry.nextWatchId) {scope : Bytes × Bytes} (hs : st'.registry.scopeOf id = some scope) :
    st.registry.scopeOf id = some scope := by
  cases WatchStep.of_watchStep hstep with
  | @watchRange _ _ _ _ res hreg =>
    obtain ⟨_,_,hother,_,hcreated,hsame⟩ := hp.registry.register hreg
    cases hc : res.created with
    | true =>
      rw [← hother id (by rw [(hcreated hc).1]; exact ne_of_lt hid)]
      exact hs
    | false =>
      rw [← hsame hc]
      exact hs
  | cancel j watcherAddr =>
    rcases st.registry.scopeOf_cancel j id watcherAddr with heq | ⟨_,hnone⟩
    · exact heq.symm.trans hs
    · cases hnone.symm.trans hs
  | advance =>
    rw [advance_frame hstep] at hs
    exact hs
  | callback =>
    rw [← (watchStep_frame rfl hstep).registry]
    exact hs
  | _ => exact hs

theorem CallInv.step (hstep : watchStep st a = some st')
    {call : WatchCall} (h : CallInv st call) (hid : call.watchId < st.registry.nextWatchId) : CallInv st' call := by
  constructor
  · intro scope hs
    exact h.scope scope (watchStep_scopeOf hp hstep hid hs)
  · intro revision kvs hphase
    obtain ⟨s,hrev,hkvs,hlog⟩ := h.read revision kvs hphase
    refine ⟨s,hrev,hkvs,?_⟩
    rcases watchStep_log hstep with ⟨hsame,hstore⟩ | ⟨op,_,hstore,hnew⟩
    · rw [hsame,hstore]
      exact hlog
    · -- the new events are all above the revision that was read
      have hspec := apply_spec op st.store
      have hall : ∀ e ∈ (op.apply st.store).events, decide (revision < e.revision) = true := by
        intro e he
        have hlt := (hspec.stamped e he).1
        have hle := hlog.revision_le
        rw [decide_eq_true_eq]
        omega
      rw [hnew,hstore,filter_append,filter_eq_self.mpr hall]
      exact hlog.append hspec.toLog

theorem callInv_range {call : WatchCall} (hscope : ∀ scope, st.registry.scopeOf call.watchId = some scope →
      scope = (call.key, call.rangeEnd)) (hphase : call.phase = .range) :
    CallInv st { call with phase := st.nextPhase call } := by
  refine ⟨hscope,?_⟩
  intro revision kvs hread
  simp only [nextPhase,hphase,WatchCallPhase.setSnapshot.injEq,reduceCtorEq,or_false] at hread
  obtain ⟨rfl,rfl⟩ := hread
  refine ⟨st.store,rfl,rfl,?_⟩
  have hnone : st.log.filter (fun e => decide (st.store.revision < e.revision)) = [] := by
    rw [filter_eq_nil_iff]
    intro e he
    have hle := hp.log_le e he
    rw [decide_eq_true_eq]
    omega
  rw [hnone]
  exact (StepSpec.refl st.store).toLog

theorem CallInv.advance {call : WatchCall} (h : CallInv st call) :
    CallInv st { call with phase := st.nextPhase call } := by
  cases hphase : call.phase with
  | addChannel => exact ⟨h.scope,by simp [nextPhase,hphase]⟩
  | range => exact callInv_range hp h.scope hphase
  | setSnapshot revision kvs =>
    refine ⟨h.scope,fun revision' kvs' hread => h.read revision' kvs' (Or.inl ?_)⟩
    simp only [nextPhase,hphase,reduceCtorEq,false_or,WatchCallPhase.returned.injEq] at hread
    rw [hphase,hread.1,hread.2]
  | returned revision kvs =>
    refine ⟨h.scope,fun revision' kvs' hread => h.read revision' kvs' (Or.inr ?_)⟩
    simp only [nextPhase,hphase,reduceCtorEq,false_or,WatchCallPhase.returned.injEq] at hread
    rw [hphase,hread.1,hread.2]

theorem watchStep_callInv (h : ∀ call ∈ st.calls, CallInv st call) (hstep : watchStep st a = some st') :
    ∀ call ∈ st'.calls, CallInv st' call := by
  intro call hcall
  rcases watchStep_call hp hstep hcall with hmem | ⟨_,hnone,hscope⟩ | ⟨i,old,_,hold,rfl⟩
  · exact (h call hmem).step hp hstep (hp.call_lt call hmem)
  · refine ⟨fun scope hs => Option.some.inj (hs.symm.trans hscope),?_⟩
    rintro revision kvs (hphase | hphase) <;> rw [hphase] at hnone <;> cases hnone
  · have hmem : old ∈ st.calls := mem_of_getElem? hold
    exact ((h old hmem).advance hp).step hp hstep (hp.call_lt old hmem)

omit hp

theorem lt_of_mem_dropWhile {l : List WatchEvent} {revision : Int}
    (hsorted : l.Pairwise fun a b => a.revision ≤ b.revision) (he : e ∈ l.dropWhile fun e => e.revision ≤ revision) :
    revision < e.revision := by
  induction l with
  | nil => cases he
  | cons x l ih =>
    obtain ⟨hx,hl⟩ := pairwise_cons.mp hsorted
    by_cases hle : x.revision ≤ revision
    · rw [dropWhile_cons_of_pos (by simpa using hle)] at he
      exact ih hl he
    · rw [dropWhile_cons_of_neg (by simpa using hle)] at he
      rcases mem_cons.mp he with rfl | he
      · omega
      · have := hx e he
        omega

/-- Once nothing of the range is on the way, the enqueued events above a revision that is at least
the channel's are the later mutations of the range. -/
theorem enqueued_perm_log (hp : PipelineInv st) {id : Int} {c : WatcherChannel} {scope : Bytes × Bytes}
    (hc : st.channel id = some c) (hscope : st.registry.scopeOf id = some scope) (hneed : c.needReWatch = false)
    (hover : st.pendingOverflow = false) (hreset : st.fanOut.isResetting = false) {revision : Int}
    (hadded : c.addedRevision ≤ revision)
    (hway : ∀ e ∈ st.onTheWay id, revision < e.revision → ¬ inScope scope.1 scope.2 e.entry.key) :
    (c.enqueued.filter fun e => revision < e.revision).Perm
      ((st.log.filter fun e => revision < e.revision).filter fun e =>
        inScope scope.1 scope.2 e.entry.key) := by
  have htracked := (hp.tracked id c scope hc hscope hneed hover hreset).filter fun e => decide (revision < e.revision)
  rw [filter_filter,filter_filter,filter_append] at htracked
  have hlog : (st.log.filter fun e => decide (revision < e.revision) && c.due scope e) =
      (st.log.filter fun e => revision < e.revision).filter fun e =>
        inScope scope.1 scope.2 e.entry.key := by
    rw [filter_filter]
    refine filter_congr fun e _ => ?_
    rw [Bool.eq_iff_iff]
    simp only [due,Bool.and_eq_true,decide_eq_true_eq]
    exact ⟨fun h => ⟨h.2.1,h.1⟩,fun h => ⟨h.2,h.1,Int.lt_of_le_of_lt hadded h.2⟩⟩
  have henq : (c.enqueued.filter fun e => decide (revision < e.revision) && c.due scope e) =
      c.enqueued.filter fun e => revision < e.revision := by
    refine filter_congr fun e he => ?_
    rw [Bool.eq_iff_iff]
    simp only [due,Bool.and_eq_true,decide_eq_true_eq]
    exact ⟨fun h => h.1,fun h =>
      ⟨h,hp.enqueued_scope id c scope hc hscope e he,Int.lt_of_le_of_lt hadded h⟩⟩
  have hnone : ((st.onTheWay id).filter fun e => decide (revision < e.revision) && c.due scope e) = [] := by
    rw [filter_eq_nil_iff]
    intro e he hdue
    simp only [due,Bool.and_eq_true,decide_eq_true_eq] at hdue
    exact hway e he hdue.1 hdue.2.1
  rw [hlog,henq,hnone,append_nil] at htracked
  exact htracked.symm

/-- In every run in which callbacks hand over events in the order of the commits and snapshots are
taken and set in order, the stream of a watch continues the snapshot of every call. -/
theorem stream_follows_snapshot_of_ordered (st : WatchState)
    (hreach : watchMachine.ReachableBy (fun s a => callbackInOrder s a && snapshotInOrder s a) st) :
    StreamFollowsSnapshot st := by
  obtain ⟨hp,hs⟩ := reachableBy_snapshotInv (fun _ _ hguard => (Bool.and_eq_true_iff.mp hguard).2) hreach
  obtain ⟨_,horder,hcalls⟩ : PipelineInv st ∧ OrderInv st ∧ ∀ call ∈ st.calls, CallInv st call := by
    refine hreach.invariant (P := fun st => PipelineInv st ∧ OrderInv st ∧ ∀ call ∈ st.calls, CallInv st call) ?_ ?_
    · refine ⟨empty_pipelineInv,?_,fun call hcall => by cases hcall⟩
      exact ⟨List.Pairwise.nil,(fun e he => by cases he),(fun id c hc => by cases hc),
        (fun id c hc => by cases hc),(fun id c hc => by cases hc)⟩
    · rintro s a s' ⟨hp,ho,hc⟩ hguard hstep
      obtain ⟨hcallback,_⟩ := Bool.and_eq_true_iff.mp hguard
      exact ⟨watchStep_pipelineInv hp hstep,watchStep_orderInv hp ho hcallback hstep,watchStep_callInv hp hc hstep⟩
  intro call hcall revision kvs hphase c hc hlive hneed hover hreset
  have hinv := hcalls call hcall
  obtain ⟨scope,hscope⟩ := Option.isSome_iff_exists.mp hlive
  obtain rfl := hinv.scope scope hscope
  have hadded : c.addedRevision ≤ revision := by
    refine (hs.taken call hcall revision ?_).1 c hc
    rw [hphase]
    rfl
  refine ⟨?_,?_,?_⟩
  · intro e he hin hrev
    have hdue : c.due (call.key, call.rangeEnd) e = true := by
      have hlt : c.addedRevision < e.revision := Int.lt_of_le_of_lt hadded hrev
      simp [due,hin,hlt]
    have htracked := hp.tracked _ c _ hc hscope hneed hover hreset
    have hmem := htracked.mem_iff.mp (mem_filter.mpr ⟨he,hdue⟩)
    exact mem_append.mp (mem_filter.mp hmem).1
  · intro hway
    obtain ⟨s,_,rfl,hlog⟩ := hinv.read revision kvs (Or.inr hphase)
    have hperm := enqueued_perm_log hp hc hscope hneed hover hreset hadded hway
    exact hlog.replay_range call.key call.rangeEnd hperm ((horder.enqueued _ c hc).filter _)
  · intro events m hprepare e he
    have hle := hs.returned call hcall revision kvs hphase c hc
    have hqueue := (horder.enqueued _ c hc).sublist (horder.queue _ c hc hneed)
    have hpruned : e ∈ c.pruned := by
      unfold prepareChannelEvents at hprepare
      split_ifs at hprepare with hempty hre
      · rw [hneed] at hre
        cases hre
      · cases hprepare
        exact mem_of_mem_takeBatch he
    have hlt := lt_of_mem_dropWhile hqueue hpruned
    omega

/-- A repeated registration reads its range before the first one has created the channel, and a put
is fanned out in between. -/
def earlyRange : List WatchAction :=
  [.watchRange [97] [122] [119] [1],.watchRange [97] [122] [119] [1],.advance 1,.advance 1,
    .mutate (.put ⟨[98],[1],0,-1,0,0⟩),.callback 0,.fanOutPop,.fanOutExchange,.fanOutMatch,
    .fanOutPush,.fanOutMatch,.advance 0]

/-- Two puts of one key whose callbacks run in the opposite order of their commits. -/
def reorderedOverwrite : List WatchAction :=
  [.watchRange [97] [122] [119] [],.advance 0,.advance 0,.advance 0,
    .mutate (.put ⟨[98],[1],0,-1,0,0⟩),.mutate (.put ⟨[98],[2],0,-1,0,0⟩),.callback 1,
    .callback 0,.fanOutPop,.fanOutExchange,.fanOutMatch,.fanOutPush,.fanOutMatch,.fanOutPush,
    .fanOutMatch]

theorem not_streamFollowsSnapshot_earlyRange (hst : watchMachine.run .empty earlyRange = some st) :
    ¬ StreamFollowsSnapshot st := by
  have hcalls : (watchMachine.run .empty earlyRange).map calls =
      some [⟨[97],[122],[119],1,.range⟩,⟨[97],[122],[119],1,.returned 1 []⟩] := by decide
  have hchannel : (watchMachine.run .empty earlyRange).map (fun st => st.channel 1) =
      some (some (.new 1 [119] 2)) := by decide
  have hlive : (watchMachine.run .empty earlyRange).map
      (fun st => ((st.registry.scopeOf 1).isSome, st.pendingOverflow, st.fanOut.isResetting, st.onTheWay 1, st.log)) =
      some (true, false, false, [], [⟨.put,⟨[98],[1],1,2⟩,2⟩]) := by decide
  rw [hst,Option.map_some,Option.some.injEq] at hcalls hchannel hlive
  simp only [Prod.mk.injEq] at hlive
  obtain ⟨hscope,hover,hreset,hway,hlog⟩ := hlive
  intro h
  have hgap := (h ⟨[97],[122],[119],1,.returned 1 []⟩ (by rw [hcalls]; simp) 1 [] rfl _ hchannel
    hscope rfl hover hreset).1 ⟨.put,⟨[98],[1],1,2⟩,2⟩ (by rw [hlog]; simp) (by decide)
    (by decide)
  rw [hway] at hgap
  revert hgap
  decide

theorem not_streamFollowsSnapshot_reorderedOverwrite (hst : watchMachine.run .empty reorderedOverwrite = some st) :
    ¬ StreamFollowsSnapshot st := by
  have hcalls : (watchMachine.run .empty reorderedOverwrite).map calls =
      some [⟨[97],[122],[119],1,.returned 1 []⟩] := by decide
  have hchannel : (watchMachine.run .empty reorderedOverwrite).map
      (fun st => (st.channel 1).map fun c => (c.needReWatch, c.enqueued)) =
      some (some (false, [⟨.put,⟨[98],[2],2,3⟩,3⟩,⟨.put,⟨[98],[1],1,2⟩,2⟩])) := by decide
  have hlive : (watchMachine.run .empty reorderedOverwrite).map
      (fun st => ((st.registry.scopeOf 1).isSome, st.pendingOverflow, st.fanOut.isResetting,
        st.onTheWay 1, (st.store.range [97] [122]).1)) =
      some (true, false, false, [], [⟨[98],[2],2,3⟩]) := by decide
  rw [hst,Option.map_some,Option.some.injEq] at hcalls hchannel hlive
  simp only [Prod.mk.injEq] at hlive
  obtain ⟨hscope,hover,hreset,hway,hrange⟩ := hlive
  obtain ⟨c,hc,hfields⟩ := Option.map_eq_some_iff.mp hchannel
  obtain ⟨hneed,henq⟩ := Prod.mk.inj hfields
  intro h
  have hreplay := (h ⟨[97],[122],[119],1,.returned 1 []⟩ (by rw [hcalls]; simp) 1 [] rfl c hc
    hscope hneed hover hreset).2.1
  simp only [hway,henq,hrange] at hreplay
  have hstale := hreplay (by simp)
  revert hstale
  decide

/-- Neither condition can be left out: with ordered callbacks alone a put falls between snapshot
and stream, with ordered snapshots alone the stream ends in an overwritten value. -/
theorem stream_departs_from_snapshot : (∃ st, watchMachine.ReachableBy (fun s a => callbackInOrder s a) st ∧
      ¬ StreamFollowsSnapshot st) ∧
    ∃ st, watchMachine.ReachableBy (fun s a => snapshotInOrder s a) st ∧ ¬ StreamFollowsSnapshot st := by
  constructor
  · obtain ⟨st,hst⟩ : ∃ st, watchMachine.runGuarded (fun s a => callbackInOrder s a) .empty
        earlyRange = some st := ⟨_,rfl⟩
    exact ⟨st,Machine.ReachableBy.runGuarded .init hst,
      not_streamFollowsSnapshot_earlyRange (Machine.run_of_runGuarded hst)⟩
  · obtain ⟨st,hst⟩ : ∃ st, watchMachine.runGuarded (fun s a => snapshotInOrder s a) .empty
        reorderedOverwrite = some st := ⟨_,rfl⟩
    exact ⟨st,Machine.ReachableBy.runGuarded .init hst,
      not_streamFollowsSnapshot_reorderedOverwrite (Machine.run_of_runGuarded hst)⟩

/-- A repeated registration after the channel exists, and two puts handed over in order. -/
def orderedOverwrite : List WatchAction :=
  [.watchRange [97] [122] [119] [1],.advance 0,.advance 0,.advance 0,
    .mutate (.put ⟨[98],[1],0,-1,0,0⟩),.watchRange [97] [122] [119] [1],.advance 1,
    .mutate (.put ⟨[98],[2],0,-1,0,0⟩),.callback 0,.callback 1,.advance 1,.fanOutPop,
    .fanOutExchange,.fanOutMatch,.fanOutPush,.fanOutMatch,.fanOutPush,.fanOutMatch]

theorem stream_follows_snapshot_orderedOverwrite :
    ∃ st, watchMachine.run .empty orderedOverwrite = some st ∧ StreamFollowsSnapshot st := by
  obtain ⟨st,hst⟩ : ∃ st, watchMachine.runGuarded
      (fun s a => callbackInOrder s a && snapshotInOrder s a) .empty orderedOverwrite = some st :=
    ⟨_,rfl⟩
  exact ⟨st,Machine.run_of_runGuarded hst,
    stream_follows_snapshot_of_ordered st (Machine.ReachableBy.runGuarded .init hst)⟩

end Datasystem.Coordinator
