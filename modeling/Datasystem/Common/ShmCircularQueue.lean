import Datasystem.Lib.Bytes
import Datasystem.Lib.Machine

/-!
# The circular queue in shared memory

Clients hold the shared lock while they take a slot and copy a value to it. The worker holds the write lock while it
takes all values out, so this is one step. When a client is gone, the worker releases the lock for it, and its slot
keeps whatever has been copied.
-/

namespace Datasystem

open List

/-- What all processes see. -/
structure ShmQueue where
  queueSize : Nat := 0
  queueHead : Nat := 0
  arr : Nat → Bytes

/-- The object of one process, with its copy of the size and of the head. -/
structure ShmCircularQueue where
  cap : Nat
  elementSize : Nat
  hasHandler : Bool := true
  head : Nat := 0
  len : Nat := 0

namespace ShmCircularQueue

variable (q : ShmCircularQueue) (shm : ShmQueue)

def updateQueueMeta : ShmCircularQueue := { q with head := shm.queueHead, len := shm.queueSize }

/-- The index of an element; the sum is one of unsigned 32-bit numbers. -/
def place (head i : Nat) : Nat := (head + i) % 2 ^ 32 % q.cap

/-- `memcpy_s` to an element; it resets an element that is too small. -/
def memcpyS (index : Nat) (value : Bytes) : Bool × ShmQueue :=
  if value.length ≤ q.elementSize then
    (true, { shm with arr := Function.update shm.arr index (value ++ (shm.arr index).drop value.length) })
  else (false, { shm with arr := Function.update shm.arr index (replicate q.elementSize 0) })

def setQueueSizeToShm (isAddChange : Bool) (skipOne : Nat) : Bool × ShmQueue :=
  let verifyData := if 0 < skipOne then skipOne else if isAddChange then q.len - 1 else q.len + 1
  if shm.queueSize = verifyData then (true, { shm with queueSize := q.len }) else (false, shm)

def setHeadPosToShm (verifyHeadPos : Nat) : Bool × ShmQueue :=
  if shm.queueHead = verifyHeadPos then (true, { shm with queueHead := q.head }) else (false, shm)

def setPosToShm (needSetHead : Bool) (verifyHeadPos skipOne : Nat) : Bool × ShmQueue :=
  if needSetHead then
    let r := q.setHeadPosToShm shm verifyHeadPos
    if r.1 then q.setQueueSizeToShm r.2 false skipOne else r
  else q.setQueueSizeToShm shm true skipOne

/-- Hand elements to the handler one after the other; the head after them. -/
def handleAll : Nat → Nat → List Bytes × Nat
  | 0, head => ([], head)
  | len + 1, head =>
    let r := handleAll len ((head + 1) % q.cap)
    (shm.arr head :: r.1, r.2)

def getAndPopAll : Nat × List Bytes × ShmCircularQueue × ShmQueue :=
  if q.len = 0 ∨ q.hasHandler = false ∨ q.cap = 0 then (0, [], q, shm)
  else
    let handled := q.handleAll shm q.len q.head
    let q' := { q with head := handled.2, len := 0 }
    let r := q'.setPosToShm shm true q.head q.len
    (if r.1 then q.len else 0, handled.1, q', r.2)

end ShmCircularQueue

/-- How far a client has come that pushes a value by slot. -/
inductive QueueClient where
  | locked (value : Bytes)
  | updated (value : Bytes) (head : Nat)
  | loaded (value : Bytes) (head queueSize : Nat)
  | slot (value : Bytes) (head slotIndex : Nat)
  | copied
  | unlocked
deriving DecidableEq, Repr

structure QueueSystem where
  shm : ShmQueue
  worker : ShmCircularQueue
  clients : List QueueClient := []
  /-- The values that elements have been taken for, in the order of the elements; `none` where it does not come. -/
  accepted : List (Option Bytes) := []
  /-- The elements that have been taken out. -/
  out : List Bytes := []

inductive QueueEvent where
  | sharedLock (value : Bytes)
  | work (i : Nat) (spurious : Bool)
  | trySharedUnlockByLockId (i : Nat) (left : Bytes)
  | getAndPopAll

namespace QueueSystem

variable (s : QueueSystem)

def setClient (i : Nat) (c : QueueClient) : QueueSystem := { s with clients := s.clients.set i c }

/-- The slot is written for the last time, with or without the value of its client. -/
def writeSlot (i head slotIndex : Nat) (c : QueueClient) (element : Bytes) (arrived : Bool) : QueueSystem :=
  { s with
    shm := { s.shm with arr := Function.update s.shm.arr (s.worker.place head slotIndex) element }
    clients := s.clients.set i c
    accepted := if arrived then s.accepted else s.accepted.set (s.out.length + slotIndex) none }

/-- The next operation of a client: `UpdateQueueMeta`, the loop of `GetSlotUntilSuccess`, `PushBySlot` and
`SharedUnlock`. The weak comparison may fail although the sizes agree. -/
def work (i : Nat) (spurious : Bool) : QueueClient → Option QueueSystem
  | .locked value => some (s.setClient i (.updated value s.shm.queueHead))
  | .updated value head => some (s.setClient i (.loaded value head s.shm.queueSize))
  | .loaded value head queueSize =>
    if s.worker.cap ≤ queueSize then some (s.setClient i .unlocked)
    else if s.shm.queueSize = queueSize ∧ spurious = false then
      some { s with
        shm := { s.shm with queueSize := queueSize + 1 }
        clients := s.clients.set i (.slot value head queueSize)
        accepted := s.accepted ++ [some value] }
    else some (s.setClient i (.updated value head))
  | .slot value head slotIndex =>
    let r := s.worker.memcpyS s.shm (s.worker.place head slotIndex) value
    some (s.writeSlot i head slotIndex .copied (r.2.arr (s.worker.place head slotIndex)) r.1)
  | .copied => some (s.setClient i .unlocked)
  | .unlocked => none

/-- No client holds the shared lock. -/
def free : Bool := s.clients.all fun c => c = .unlocked

def step : QueueEvent → Option QueueSystem
  | .sharedLock value => some { s with clients := s.clients ++ [.locked value] }
  | .work i spurious => s.clients[i]?.bind (s.work i spurious)
  | .trySharedUnlockByLockId i left =>
    match s.clients[i]? with
    | some (.slot _ head slotIndex) => some (s.writeSlot i head slotIndex .unlocked left false)
    | some _ => some (s.setClient i .unlocked)
    | none => none
  | .getAndPopAll =>
    if s.free then
      let r := (s.worker.updateQueueMeta s.shm).getAndPopAll s.shm
      some { s with worker := r.2.2.1, shm := r.2.2.2, out := s.out ++ r.2.1 }
    else none

def machine (cap elementSize : Nat) (arr : Nat → Bytes) : Machine QueueSystem QueueEvent :=
  ⟨{ shm := { arr }, worker := { cap, elementSize } },step⟩

/-- What a client knows while it holds the shared lock. -/
def Knows : QueueClient → Prop
  | .updated _ head => head = s.shm.queueHead
  | .loaded _ head _ => head = s.shm.queueHead
  | .slot value head slotIndex => head = s.shm.queueHead ∧ slotIndex < s.shm.queueSize ∧
      ∀ v, s.accepted[s.out.length + slotIndex]? = some (some v) → v = value
  | _ => True

structure QueueInv (cap : Nat) : Prop where
  cap_eq : s.worker.cap = cap
  handler : s.worker.hasHandler = true
  head : s.shm.queueHead < cap
  size : s.shm.queueSize ≤ cap
  count : s.accepted.length = s.out.length + s.shm.queueSize
  taken : ∀ (i : Nat) v d, s.accepted[i]? = some (some v) → s.out[i]? = some d → v <+: d
  knows : ∀ c ∈ s.clients, s.Knows c
  arrived : ∀ k < s.shm.queueSize, ∀ v, s.accepted[s.out.length + k]? = some (some v) →
    v <+: s.shm.arr (s.worker.place s.shm.queueHead k) ∨ .slot v s.shm.queueHead k ∈ s.clients

variable {s} {cap i : Nat} {c x : QueueClient}

theorem place_eq {q : ShmCircularQueue} {head k : Nat} (hcap : q.cap ≤ 2 ^ 31) (hhead : head < q.cap) (hk : k ≤ q.cap) :
    q.place head k = (head + k) % q.cap := by
  rw [ShmCircularQueue.place,Nat.mod_eq_of_lt (show head + k < 2 ^ 32 by omega)]

theorem place_ne {q : ShmCircularQueue} {head k k' : Nat} (hcap : q.cap ≤ 2 ^ 31) (hhead : head < q.cap)
    (hk : k < q.cap) (hk' : k' < q.cap) (hne : k ≠ k') : q.place head k ≠ q.place head k' := by
  rw [place_eq hcap hhead hk.le,place_eq hcap hhead hk'.le]
  intro heq
  exact hne (Nat.ModEq.eq_of_lt_of_lt (Nat.ModEq.add_left_cancel' head heq) hk hk')

private theorem mem_set_of_ne {l : List QueueClient} {y : QueueClient} (hi : l[i]? = some y) (hc : c ∈ l)
    (hne : c ≠ y) : c ∈ l.set i x := by
  obtain ⟨j,hj⟩ := mem_iff_getElem?.mp hc
  have hij : i ≠ j := by
    rintro rfl
    exact hne (Option.some.inj (hj.symm.trans hi))
  exact mem_of_getElem? ((getElem?_set_ne hij).trans hj)

/-- A client that has no slot moves on. -/
theorem QueueInv.setClient (h : s.QueueInv cap) (hi : s.clients[i]? = some c)
    (hc : ∀ value head slotIndex, c ≠ .slot value head slotIndex) (hx : s.Knows x) :
    (s.setClient i x).QueueInv cap := by
  refine { h with knows := ?_, arrived := ?_ }
  · intro y hy
    rcases mem_or_eq_of_mem_set hy with hy | rfl
    · exact h.knows y hy
    · exact hx
  · intro k hk v hv
    refine (h.arrived k hk v hv).imp_right fun hmem => mem_set_of_ne hi hmem ?_
    exact fun heq => hc _ _ _ heq.symm

theorem QueueInv.accepted_old (h : s.QueueInv cap) {value : Bytes} {j : Nat}
    (hj : j < s.out.length + s.shm.queueSize) : (s.accepted ++ [some value])[j]? = s.accepted[j]? :=
  getElem?_append_left (h.count ▸ hj)

theorem QueueInv.accepted_new (h : s.QueueInv cap) {value : Bytes} :
    (s.accepted ++ [some value])[s.out.length + s.shm.queueSize]? = some (some value) := by
  rw [← h.count]
  simp

theorem QueueInv.takeSlot (h : s.QueueInv cap) {value : Bytes} {queueSize : Nat}
    (hi : s.clients[i]? = some (.loaded value s.shm.queueHead queueSize)) (hlt : s.shm.queueSize < cap) :
    QueueInv { s with
      shm := { s.shm with queueSize := s.shm.queueSize + 1 }
      clients := s.clients.set i (.slot value s.shm.queueHead s.shm.queueSize)
      accepted := s.accepted ++ [some value] } cap := by
  refine { h with size := hlt, count := ?_, taken := ?_, knows := ?_, arrived := ?_ }
  · simp [h.count,Nat.add_assoc]
  · intro j v d hv hd
    have hj : j < s.out.length := (List.getElem?_eq_some_iff.mp hd).1
    rw [h.accepted_old (by omega)] at hv
    exact h.taken j v d hv hd
  · intro y hy
    rcases mem_or_eq_of_mem_set hy with hy | rfl
    · have hknows := h.knows y hy
      cases y with
      | slot v head k =>
        refine ⟨hknows.1,hknows.2.1.trans (Nat.lt_succ_self _),?_⟩
        dsimp only
        rw [h.accepted_old (by have := hknows.2.1; omega)]
        exact hknows.2.2
      | _ => exact hknows
    · refine ⟨rfl,Nat.lt_succ_self _,?_⟩
      intro v hv
      simpa [h.accepted_new] using hv.symm
  · intro k hk v hv
    dsimp only at hk hv ⊢
    by_cases hlast : k = s.shm.queueSize
    · subst hlast
      obtain rfl : value = v := by simpa [h.accepted_new] using hv
      exact Or.inr (mem_set (List.getElem?_eq_some_iff.mp hi).1 _)
    · rw [h.accepted_old (by omega)] at hv
      refine (h.arrived k (by omega) v hv).imp_right fun hmem => mem_set_of_ne hi hmem ?_
      exact fun heq => by cases heq

theorem QueueInv.writeSlot (h : s.QueueInv cap) (hcap : cap ≤ 2 ^ 31) {value element : Bytes} {head slotIndex : Nat}
    {arrived : Bool} (hi : s.clients[i]? = some (.slot value head slotIndex)) (hx : x = .copied ∨ x = .unlocked)
    (harrived : arrived = true → value <+: element) :
    (s.writeSlot i head slotIndex x element arrived).QueueInv cap := by
  obtain ⟨rfl,hlt,hvalue⟩ := h.knows _ (mem_of_getElem? hi)
  -- whatever is still expected has been expected before, and at the slot it is the value
  have hexpected : ∀ j v, (if arrived then s.accepted else s.accepted.set (s.out.length + slotIndex) none)[j]? =
      some (some v) → s.accepted[j]? = some (some v) ∧ (j = s.out.length + slotIndex → v <+: element) := by
    intro j v hv
    cases arrived with
    | true =>
      refine ⟨hv,?_⟩
      rintro rfl
      rw [hvalue v hv]
      exact harrived rfl
    | false =>
      by_cases hj : j = s.out.length + slotIndex
      · subst hj
        simp [getElem?_set] at hv
      · have hv' : (s.accepted.set (s.out.length + slotIndex) none)[j]? = some (some v) := by simpa using hv
        rw [getElem?_set_ne (Ne.symm hj)] at hv'
        exact ⟨hv',fun heq => absurd heq hj⟩
  refine { h with count := ?_, taken := ?_, knows := ?_, arrived := ?_ }
  · cases arrived <;> simp [QueueSystem.writeSlot,h.count]
  · exact fun j v d hv hd => h.taken j v d (hexpected j v hv).1 hd
  · intro y hy
    rcases mem_or_eq_of_mem_set hy with hy | rfl
    · have hknows := h.knows y hy
      cases y with
      | slot v head k => exact ⟨hknows.1,hknows.2.1,fun w hw => hknows.2.2 w (hexpected _ w hw).1⟩
      | _ => exact hknows
    · rcases hx with rfl | rfl <;> trivial
  · intro k hk v hv
    obtain ⟨hv',helement⟩ := hexpected _ v hv
    simp only [QueueSystem.writeSlot] at hk ⊢
    by_cases hsame : k = slotIndex
    · subst hsame
      rw [Function.update_self]
      exact Or.inl (helement rfl)
    · have hne : s.worker.place s.shm.queueHead k ≠ s.worker.place s.shm.queueHead slotIndex := by
        have hsize := h.size
        have heq := h.cap_eq
        exact place_ne (by omega) (heq ▸ h.head) (by omega) (by omega) hsame
      rw [Function.update_of_ne hne]
      refine (h.arrived k hk v hv').imp_right fun hmem => mem_set_of_ne hi hmem ?_
      exact fun heq => hsame (by cases heq; rfl)

theorem knows_of_free (hfree : s.free = true) (s' : QueueSystem) : ∀ c ∈ s.clients, s'.Knows c := by
  intro c hc
  have heq := all_eq_true.mp hfree c hc
  rw [of_decide_eq_true heq]
  trivial

theorem QueueInv.arrived_of_free (h : s.QueueInv cap) (hfree : s.free = true) {k : Nat} (hk : k < s.shm.queueSize)
    {v : Bytes} (hv : s.accepted[s.out.length + k]? = some (some v)) :
    v <+: s.shm.arr (s.worker.place s.shm.queueHead k) := by
  refine (h.arrived k hk v hv).resolve_right fun hmem => ?_
  have heq := of_decide_eq_true (all_eq_true.mp hfree _ hmem)
  cases heq

/-- The worker takes the first elements out. -/
theorem QueueInv.takeOut (h : s.QueueInv cap) (hcap : cap ≤ 2 ^ 31) (hfree : s.free = true) {n : Nat}
    (hn : n ≤ s.shm.queueSize) : QueueInv { s with
      shm := { s.shm with queueHead := (s.shm.queueHead + n) % cap, queueSize := s.shm.queueSize - n }
      out := s.out ++ (range n).map fun k => s.shm.arr (s.worker.place s.shm.queueHead k) } cap := by
  have hsize := h.size
  have hhead := h.head
  have heq := h.cap_eq
  refine ⟨heq,h.handler,Nat.mod_lt _ (by omega),by dsimp only; omega,?_,?_,knows_of_free hfree _,?_⟩
  · simp only [length_append,length_map,length_range,h.count]
    omega
  · intro j v d hv hd
    by_cases hj : j < s.out.length
    · exact h.taken j v d hv (by rwa [getElem?_append_left hj] at hd)
    · obtain ⟨k,rfl⟩ : ∃ k, j = s.out.length + k := ⟨j - s.out.length,by omega⟩
      rw [getElem?_append_right (by omega),Nat.add_sub_cancel_left,getElem?_map] at hd
      obtain ⟨k',hk',rfl⟩ := Option.map_eq_some_iff.mp hd
      obtain ⟨hlt,rfl⟩ := List.getElem?_eq_some_iff.mp hk'
      rw [length_range] at hlt
      simp only [getElem_range]
      exact h.arrived_of_free hfree (by omega) hv
  · intro k hk v hv
    dsimp only at hk hv ⊢
    have hplace : s.worker.place ((s.shm.queueHead + n) % cap) k = s.worker.place s.shm.queueHead (n + k) := by
      have hlt : (s.shm.queueHead + n) % cap < cap := Nat.mod_lt _ (by omega)
      rw [place_eq (by omega) (by omega) (by omega),place_eq (by omega) (by omega) (by omega),heq,
        Nat.mod_add_mod,Nat.add_assoc]
    rw [hplace]
    refine Or.inl (h.arrived_of_free hfree (by omega) ?_)
    simpa [Nat.add_assoc] using hv

theorem QueueInv.setWorker (h : s.QueueInv cap) {q : ShmCircularQueue} (hq : q.cap = s.worker.cap)
    (hhandler : q.hasHandler = s.worker.hasHandler) : QueueInv { s with worker := q } cap := by
  refine { h with cap_eq := hq.trans h.cap_eq, handler := hhandler.trans h.handler, knows := h.knows, arrived := ?_ }
  simp only [ShmCircularQueue.place,hq]
  exact h.arrived

theorem handleAll_eq {q : ShmCircularQueue} (shm : ShmQueue) (len : Nat) {head : Nat} (hhead : head < q.cap) :
    q.handleAll shm len head = ((range len).map fun k => shm.arr ((head + k) % q.cap), (head + len) % q.cap) := by
  induction len generalizing head with
  | zero => simp [ShmCircularQueue.handleAll,Nat.mod_eq_of_lt hhead]
  | succ len ih =>
    have hnext : ∀ k, ((head + 1) % q.cap + k) % q.cap = (head + (k + 1)) % q.cap := by
      intro k
      rw [Nat.mod_add_mod,Nat.add_assoc,Nat.add_comm 1]
    rw [ShmCircularQueue.handleAll,ih (Nat.mod_lt _ (by omega)),range_succ_eq_map]
    simp [hnext,Nat.mod_eq_of_lt hhead]

theorem getAndPopAll_eq {q : ShmCircularQueue} {shm : ShmQueue} (hhandler : q.hasHandler = true)
    (hhead : shm.queueHead < q.cap) (hsize : 0 < shm.queueSize) :
    (q.updateQueueMeta shm).getAndPopAll shm =
      (shm.queueSize, (range shm.queueSize).map fun k => shm.arr ((shm.queueHead + k) % q.cap),
        { q with head := (shm.queueHead + shm.queueSize) % q.cap, len := 0 },
        { shm with queueHead := (shm.queueHead + shm.queueSize) % q.cap, queueSize := 0 }) := by
  have hcap : q.cap ≠ 0 := by omega
  have hall := handleAll_eq (q := q.updateQueueMeta shm) shm shm.queueSize hhead
  simp only [ShmCircularQueue.updateQueueMeta,hhandler] at hall
  simp [ShmCircularQueue.getAndPopAll,ShmCircularQueue.updateQueueMeta,hall,ShmCircularQueue.setPosToShm,
    ShmCircularQueue.setHeadPosToShm,ShmCircularQueue.setQueueSizeToShm,hhandler,hcap,hsize,hsize.ne']

theorem QueueInv.getAndPopAll (h : s.QueueInv cap) (hcap : cap ≤ 2 ^ 31) {s' : QueueSystem}
    (hstep : s.step .getAndPopAll = some s') : s'.QueueInv cap ∧ s'.out.length = s.accepted.length := by
  rw [step] at hstep
  split_ifs at hstep with hfree
  have heq := h.cap_eq
  have hhead : s.shm.queueHead < s.worker.cap := heq ▸ h.head
  by_cases hempty : s.shm.queueSize = 0
  · have hnone : (s.worker.updateQueueMeta s.shm).getAndPopAll s.shm = (0, [], s.worker.updateQueueMeta s.shm, s.shm) :=
      if_pos (Or.inl hempty)
    simp only [hnone,append_nil,Option.some.injEq] at hstep
    subst hstep
    exact ⟨h.setWorker rfl rfl,by simp [h.count,hempty]⟩
  · simp only [getAndPopAll_eq h.handler hhead (Nat.pos_of_ne_zero hempty),Option.some.injEq] at hstep
    subst hstep
    refine ⟨?_,by simp [h.count]⟩
    have hout := (h.takeOut hcap hfree le_rfl).setWorker
      (q := { s.worker with head := (s.shm.queueHead + s.shm.queueSize) % s.worker.cap, len := 0 }) rfl rfl
    have hplace : ∀ k ∈ range s.shm.queueSize, s.shm.arr (s.worker.place s.shm.queueHead k) =
        s.shm.arr ((s.shm.queueHead + k) % s.worker.cap) := by
      intro k hk
      have hsize := h.size
      rw [place_eq (by omega) hhead (by have := mem_range.mp hk; omega)]
    rw [map_congr_left hplace,Nat.sub_self,← heq] at hout
    rw [← heq]
    exact hout

theorem QueueInv.work (h : s.QueueInv cap) (hcap : cap ≤ 2 ^ 31) {spurious : Bool} (hi : s.clients[i]? = some c)
    {s' : QueueSystem} (hstep : s.work i spurious c = some s') : s'.QueueInv cap := by
  have hknows := h.knows c (mem_of_getElem? hi)
  cases c with
  | locked value =>
    cases hstep
    exact h.setClient hi (fun _ _ _ heq => by cases heq) rfl
  | updated value head =>
    cases hstep
    exact h.setClient hi (fun _ _ _ heq => by cases heq) hknows
  | loaded value head queueSize =>
    obtain rfl : head = s.shm.queueHead := hknows
    rw [QueueSystem.work] at hstep
    split_ifs at hstep with hfull hcas
    · cases hstep
      exact h.setClient hi (fun _ _ _ heq => by cases heq) trivial
    · cases hstep
      rw [← hcas.1]
      exact h.takeSlot hi (by rw [hcas.1]; have := h.cap_eq; omega)
    · cases hstep
      exact h.setClient hi (fun _ _ _ heq => by cases heq) rfl
  | slot value head slotIndex =>
    cases hstep
    refine h.writeSlot hcap hi (Or.inl rfl) ?_
    rw [ShmCircularQueue.memcpyS]
    split_ifs with hfits
    · simp
    · exact fun hfalse => by cases hfalse
  | copied =>
    cases hstep
    exact h.setClient hi (fun _ _ _ heq => by cases heq) trivial
  | unlocked => cases hstep

theorem QueueInv.step (h : s.QueueInv cap) (hcap : cap ≤ 2 ^ 31) {e : QueueEvent} {s' : QueueSystem}
    (hstep : s.step e = some s') : s'.QueueInv cap := by
  cases e with
  | sharedLock value =>
    cases hstep
    refine { h with knows := ?_, arrived := ?_ }
    · intro c hc
      rcases mem_append.mp hc with hc | hc
      · exact h.knows c hc
      · rw [mem_singleton.mp hc]
        trivial
    · exact fun k hk v hv => (h.arrived k hk v hv).imp_right fun hmem => mem_append_left _ hmem
  | work i spurious =>
    obtain ⟨c,hi,hwork⟩ := Option.bind_eq_some_iff.mp hstep
    exact h.work hcap hi hwork
  | trySharedUnlockByLockId i left =>
    simp only [QueueSystem.step] at hstep
    split at hstep
    · rename_i value head slotIndex hi
      cases hstep
      exact h.writeSlot hcap hi (Or.inr rfl) fun hfalse => by cases hfalse
    · rename_i c hslot hi
      cases hstep
      exact h.setClient hi hslot trivial
    · cases hstep
  | getAndPopAll => exact (h.getAndPopAll hcap hstep).1

/-- The second client is gone before it has copied its value. -/
def besideGoneClient : Option QueueSystem :=
  (machine 2 1 fun _ => [0]).run (machine 2 1 fun _ => [0]).init
    [.sharedLock [7],.sharedLock [8],.work 0 false,.work 0 false,.work 0 false,.work 1 false,.work 1 false,.work 1 false,
      .work 0 false,.trySharedUnlockByLockId 1 [0],.work 0 false,.getAndPopAll]

end QueueSystem

end Datasystem
