import Datasystem.Lib.Machine
import Datasystem.Lib.Prog

/-!
# Programs in parallel

Beside its program each thread has a note of what it has done so far, which depends on the operations and
their results only. A protocol says, in terms of the notes, when a thread may perform an operation, what holds
between any two operations, and what a thread with a note may rely on. If every call meets the protocol by
itself, then the invariant holds in every state that the calls reach together.
-/

structure Thread (Op : Type) (Res : Op → Type) (α ν : Type) where
  prog : Prog Op Res α
  note : ν

structure Threads (Op : Type) (Res : Op → Type) (α σ ν : Type) where
  shared : σ
  threads : List (Thread Op Res α ν) := []

/-- Operations and how a thread takes notes of them. -/
structure Concurrency (Op : Type) (Res : Op → Type) (σ ν : Type) where
  /-- `none` if the operation has to wait. -/
  exec : (o : Op) → σ → Option (Res o × σ)
  idle : ν
  note : (o : Op) → Res o → ν → ν

/-- A call begins, or a thread performs its next operation. -/
inductive ThreadEvent (κ : Type) where
  | call (c : κ)
  | work (i : Nat)
deriving DecidableEq, Repr

variable {Op : Type} {Res : Op → Type} {α κ σ ν : Type}

namespace Threads

/-- A thread that has ended keeps no note. -/
def entry (idle : ν) (p : Prog Op Res α) (n : ν) : Thread Op Res α ν :=
  match p with
  | .pure a => ⟨.pure a,idle⟩
  | .op o k => ⟨.op o k,n⟩

variable (t : Threads Op Res α σ ν)

def notes : List ν := t.threads.map Thread.note

def others (i : Nat) : List ν := t.notes.eraseIdx i

def step (c : Concurrency Op Res σ ν) (prog : κ → Prog Op Res α) (t : Threads Op Res α σ ν) :
    ThreadEvent κ → Option (Threads Op Res α σ ν)
  | .call call => some { t with threads := t.threads ++ [entry c.idle (prog call) c.idle] }
  | .work i =>
    match t.threads[i]? with
    | some ⟨.op o k,n⟩ =>
      (c.exec o t.shared).map fun r => ⟨r.2,t.threads.set i (entry c.idle (k r.1) (c.note o r.1 n))⟩
    | _ => none

def machine (c : Concurrency Op Res σ ν) (prog : κ → Prog Op Res α) (init : σ) :
    Machine (Threads Op Res α σ ν) (ThreadEvent κ) := ⟨{ shared := init },step c prog⟩

theorem step_work {c : Concurrency Op Res σ ν} {prog : κ → Prog Op Res α} {t t' : Threads Op Res α σ ν}
    {init : σ} {i : Nat} (h : (machine c prog init).step t (.work i) = some t') :
    ∃ o k n r, t.threads[i]? = some ⟨.op o k,n⟩ ∧ c.exec o t.shared = some (r, t'.shared) ∧
      t'.threads = t.threads.set i (entry c.idle (k r) (c.note o r n)) := by
  simp only [machine,step] at h
  split at h
  · rename_i o k n hi
    obtain ⟨⟨r,s⟩,hexec,rfl⟩ := Option.map_eq_some_iff.mp h
    exact ⟨o,k,n,r,hi,hexec,rfl⟩
  · cases h

/-- All calls have returned. -/
def Quiescent : Prop := ∀ p ∈ t.threads, ∃ a, p.prog = .pure a

theorem quiescent_of_all {t : Threads Op Res α σ ν} (h : (t.threads.all fun p => p.prog.isPure) = true) :
    t.Quiescent := by
  intro p hp
  have hpure := List.all_eq_true.mp h p hp
  cases hprog : p.prog with
  | pure a => exact ⟨a,rfl⟩
  | op o k => simp [hprog,Prog.isPure] at hpure

end Threads

structure Protocol (c : Concurrency Op Res σ ν) where
  /-- When a thread with a note may perform an operation beside threads with other notes. -/
  guard : Op → σ → ν → List ν → Prop
  inv : σ → List ν → Prop
  inv_perm : ∀ {s ns ns'}, ns.Perm ns' → inv s ns → inv s ns'
  rely : ν → σ → σ → Prop
  rely_refl : ∀ n s, rely n s s
  rely_trans : ∀ {n s s' s''}, rely n s s' → rely n s' s'' → rely n s s''

namespace Protocol

variable {c : Concurrency Op Res σ ν} (P : Protocol c)

/-- The protocol seen from one thread, with its own note and the notes of the others. -/
def contract : Prog.Contract Op Res (σ × ν × List ν) Unit where
  env v _ v' _ := v'.2.1 = v.2.1 ∧ P.rely v.2.1 v.1 v'.1 ∧ P.inv v'.1 (v.2.1 :: v'.2.2)
  step o v r v' :=
    v'.2.2 = v.2.2 ∧ v'.2.1 = c.note o r v.2.1 ∧ P.guard o v.1 v.2.1 v.2.2 ∧ c.exec o v.1 = some (r, v'.1)
  keeps _ _ _ := True
  moves _ v _ v' _ := P.inv v'.1 (v'.2.1 :: v.2.2) ∧ ∀ n ∈ v.2.2, P.rely n v.1 v'.1

/-- A program, in the middle of its work, meets the protocol to its end. -/
def Safe (p : Prog Op Res α) (s : σ) (n : ν) (others : List ν) : Prop :=
  p.wp P.contract (fun _ v _ => P.inv v.1 (c.idle :: v.2.2)) (s, n, others) ()

theorem safe_op {o : Op} {k : Res o → Prog Op Res α} {s : σ} {n : ν} {others : List ν} :
    P.Safe (.op o k) s n others ↔ ∀ s₁ others₁, P.rely n s s₁ → P.inv s₁ (n :: others₁) →
      P.guard o s₁ n others₁ → ∀ r s₂, c.exec o s₁ = some (r, s₂) →
        P.inv s₂ (c.note o r n :: others₁) ∧ (∀ m ∈ others₁, P.rely m s₁ s₂) ∧
          P.Safe (k r) s₂ (c.note o r n) others₁ := by
  constructor
  · intro h s₁ others₁ hrely hinv hguard r s₂ hexec
    obtain ⟨-,hstep⟩ := h (s₁, n, others₁) () ⟨rfl,hrely,hinv⟩
    obtain ⟨_,⟨hinv₂,hrely₂⟩,hsafe⟩ := hstep r (s₂, c.note o r n, others₁) ⟨rfl,rfl,hguard,hexec⟩
    exact ⟨hinv₂,hrely₂,hsafe⟩
  · rintro h ⟨s₁,n₁,others₁⟩ _ ⟨hn,hrely,hinv⟩
    dsimp only at hn hrely hinv
    subst hn
    refine ⟨trivial,?_⟩
    rintro r ⟨s₂,n₂,others₂⟩ ⟨hothers,hnote,hguard,hexec⟩
    dsimp only at hothers hnote hguard hexec
    subst hothers hnote
    obtain ⟨hinv₂,hrely₂,hsafe⟩ := h s₁ others₂ hrely hinv hguard r s₂ hexec
    exact ⟨(),⟨hinv₂,hrely₂⟩,hsafe⟩

theorem Safe.env {o : Op} {k : Res o → Prog Op Res α} {s s' : σ} {n : ν} {others others' : List ν}
    (h : P.Safe (.op o k) s n others) (hrely : P.rely n s s') : P.Safe (.op o k) s' n others' := by
  rw [safe_op] at h ⊢
  intro s₁ others₁ hrely₁
  exact h s₁ others₁ (P.rely_trans hrely hrely₁)

/-- The invariant holds, and every thread meets the protocol to its end. -/
structure Sound (t : Threads Op Res α σ ν) : Prop where
  inv : P.inv t.shared t.notes
  safe : ∀ p ∈ t.threads, ∀ o k, p.prog = .op o k → ∀ others, P.Safe p.prog t.shared p.note others
  ended : ∀ p ∈ t.threads, ∀ a, p.prog = .pure a → p.note = c.idle

/-- What a step of the threads has to respect. -/
def Guard (t : Threads Op Res α σ ν) : ThreadEvent κ → Prop
  | .call _ => True
  | .work i => ∀ p ∈ t.threads[i]?, ∀ o k, p.prog = .op o k → P.guard o t.shared p.note (t.others i)

variable {P}

section Reach

variable {prog : κ → Prog Op Res α} {init : σ} {t : Threads Op Res α σ ν}

theorem reachable_call (h : (Threads.machine c prog init).ReachableBy P.Guard t) (call : κ) :
    (Threads.machine c prog init).ReachableBy P.Guard
      { t with threads := t.threads ++ [Threads.entry c.idle (prog call) c.idle] } :=
  h.step (a := .call call) trivial rfl

theorem reachable_work (h : (Threads.machine c prog init).ReachableBy P.Guard t) (i : Nat) {o : Op}
    {k : Res o → Prog Op Res α} {n : ν} (hi : t.threads[i]? = some ⟨.op o k,n⟩)
    (hguard : P.guard o t.shared n (t.others i)) {r : Res o} {s : σ} (hexec : c.exec o t.shared = some (r, s)) :
    (Threads.machine c prog init).ReachableBy P.Guard
      ⟨s,t.threads.set i (Threads.entry c.idle (k r) (c.note o r n))⟩ := by
  refine h.step (a := .work i) ?_ ?_
  · intro p hp o' k' hop
    rw [hi] at hp
    cases hp
    obtain ⟨rfl,-⟩ := Prog.op.inj hop
    exact hguard
  · simp only [Threads.machine,Threads.step,hi,hexec,Option.map_some]

end Reach

variable {t : Threads Op Res α σ ν}

theorem Sound.call (h : P.Sound t) {p : Prog Op Res α} (hinv : P.inv t.shared (c.idle :: t.notes))
    (hp : P.Safe p t.shared c.idle t.notes) :
    P.Sound { t with threads := t.threads ++ [Threads.entry c.idle p c.idle] } := by
  have hnote : (Threads.entry c.idle p c.idle).note = c.idle := by cases p <;> rfl
  have hprog : (Threads.entry c.idle p c.idle).prog = p := by cases p <;> rfl
  constructor
  · refine P.inv_perm ?_ hinv
    simp only [Threads.notes,List.map_append,List.map_singleton,hnote]
    exact (List.perm_append_singleton _ _).symm
  · intro q hq o k hop others
    rcases List.mem_append.mp hq with hq | hq
    · exact h.safe q hq o k hop others
    · obtain rfl := List.mem_singleton.mp hq
      rw [hprog] at hop
      rw [hnote,hprog,hop]
      rw [hop] at hp
      exact hp.env P (P.rely_refl _ _)
  · intro q hq a hpure
    rcases List.mem_append.mp hq with hq | hq
    · exact h.ended q hq a hpure
    · obtain rfl := List.mem_singleton.mp hq
      exact hnote

private theorem mem_set {i : Nat} {e q : Thread Op Res α ν} (hi : i < t.threads.length) (hq : q ∈ t.threads.set i e) :
    q = e ∨ q ∈ t.threads ∧ q.note ∈ t.others i := by
  obtain ⟨j,hj⟩ := List.mem_iff_getElem?.mp hq
  by_cases hij : i = j
  · left
    rw [← hij,List.getElem?_set_self hi] at hj
    exact (Option.some.inj hj).symm
  · right
    rw [List.getElem?_set_ne hij] at hj
    refine ⟨List.mem_of_getElem? hj,?_⟩
    rw [Threads.others,Threads.notes,List.mem_eraseIdx_iff_getElem?]
    exact ⟨j,Ne.symm hij,by simp [hj]⟩

theorem Sound.work (h : P.Sound t) {i : Nat} {o : Op} {k : Res o → Prog Op Res α} {n : ν}
    (hi : t.threads[i]? = some ⟨.op o k,n⟩) (hguard : P.guard o t.shared n (t.others i)) {r : Res o} {s : σ}
    (hexec : c.exec o t.shared = some (r, s)) :
    P.Sound ⟨s,t.threads.set i (Threads.entry c.idle (k r) (c.note o r n))⟩ := by
  obtain ⟨hlt,hget⟩ := List.getElem?_eq_some_iff.mp hi
  have hlt' : i < t.notes.length := by simpa [Threads.notes] using hlt
  have hself : t.notes[i] = n := by simp [Threads.notes,hget]
  have hinv : P.inv t.shared (n :: t.others i) := P.inv_perm (hself ▸ (List.getElem_cons_eraseIdx_perm hlt').symm) h.inv
  have hsafe := (P.safe_op).mp (h.safe _ (List.mem_of_getElem? hi) o k rfl (t.others i)) t.shared
    (t.others i) (P.rely_refl _ _) hinv hguard r s hexec
  obtain ⟨hinv₂,hrely₂,hsafe₂⟩ := hsafe
  have hnotes : ∀ e : Thread Op Res α ν, P.inv s (e.note :: t.others i) →
      P.inv s (Threads.notes ⟨s,t.threads.set i e⟩ : List ν) := by
    intro e he
    refine P.inv_perm ?_ he
    rw [Threads.notes,List.map_set]
    exact (List.set_perm_cons_eraseIdx hlt' _).symm
  constructor
  · apply hnotes
    cases hk : k r with
    | pure a =>
      rw [hk] at hsafe₂
      exact hsafe₂
    | op o' k' => exact hinv₂
  · intro q hq o' k' hop others
    rcases mem_set hlt hq with rfl | ⟨hq,hnote⟩
    · cases hk : k r with
      | pure a =>
        rw [hk] at hop
        cases hop
      | op o'' k'' =>
        rw [hk] at hsafe₂
        exact hsafe₂.env P (P.rely_refl _ _)
    · have hold := h.safe q hq o' k' hop others
      rw [hop] at hold ⊢
      exact hold.env P (hrely₂ _ hnote)
  · intro q hq a hpure
    rcases mem_set hlt hq with rfl | ⟨hq,-⟩
    · cases hk : k r with
      | pure a => rfl
      | op o'' k'' =>
        rw [hk] at hpure
        cases hpure
    · exact h.ended q hq a hpure

/-- Calls that meet the protocol keep it together. -/
theorem sound_of_reachable {prog : κ → Prog Op Res α} {init : σ} (hinit : P.inv init [])
    (hidle : ∀ s ns, P.inv s ns → P.inv s (c.idle :: ns))
    (hprog : ∀ call s ns, P.inv s (c.idle :: ns) → P.Safe (prog call) s c.idle ns)
    (h : (Threads.machine c prog init).ReachableBy P.Guard t) : P.Sound t := by
  refine h.invariant ⟨hinit,by simp [Threads.machine],by simp [Threads.machine]⟩ ?_
  intro t e t' hsound hguard hstep
  cases e with
  | call call =>
    cases hstep
    have hinv := hidle _ _ hsound.inv
    exact hsound.call hinv (hprog call _ _ hinv)
  | work i =>
    obtain ⟨o,k,n,r,hi,hexec,hthreads⟩ := Threads.step_work hstep
    have hwork := hsound.work hi (hguard _ hi o k rfl) hexec
    rw [← hthreads] at hwork
    exact hwork

theorem Sound.notes_of_quiescent (h : P.Sound t) (hq : t.Quiescent) : ∀ n ∈ t.notes, n = c.idle := by
  intro n hn
  obtain ⟨p,hp,rfl⟩ := List.mem_map.mp hn
  obtain ⟨a,ha⟩ := hq p hp
  exact h.ended p hp a ha

end Protocol

/-! ## Pre- and postconditions of a thread

Between two operations of the thread other threads move on, so an assertion before an operation has to be one
that they respect. -/

variable {Op : Type} {Res : Op → Type} {α β ε σ ν : Type} {c : Concurrency Op Res σ ν}

namespace Protocol

variable (P : Protocol c)

/-- Other threads respect an assertion. -/
def Stable (A : σ → ν → Prop) : Prop := ∀ n s s', P.rely n s s' → A s n → A s' n

/-- An action that begins where `A` holds ends where `B` holds of its value, or fails where `F` holds, and
meets the protocol. -/
def Triple (F A : σ → ν → Prop) (m : Act Op Res ε Unit α) (B : α → σ → ν → Prop) : Prop :=
  ∀ s n others, P.inv s (n :: others) → A s n →
    m.wp P.contract (fun a _ v _ => P.inv v.1 (v.2.1 :: v.2.2) ∧ B a v.1 v.2.1)
      (fun _ _ v _ => P.inv v.1 (v.2.1 :: v.2.2) ∧ F v.1 v.2.1) () (s, n, others) ()

variable {P} {F A A' : σ → ν → Prop}

namespace Triple

variable {B : α → σ → ν → Prop}

theorem ret {a : α} (h : ∀ s n, A s n → B a s n) : P.Triple F A (.ret a : Act Op Res ε Unit α) B :=
  fun s n _ hinv hA => ⟨hinv,h s n hA⟩

theorem fail {e : ε} (h : ∀ s n, A s n → F s n) : P.Triple F A (.fail e : Act Op Res ε Unit α) B :=
  fun s n _ hinv hA => ⟨hinv,h s n hA⟩

variable {m : Act Op Res ε Unit α}

theorem bind {C : β → σ → ν → Prop} {f : α → Act Op Res ε Unit β} (hm : P.Triple F A m B)
    (hf : ∀ a, P.Triple F (B a) (f a) C) : P.Triple F A (Act.bind m f) C := by
  intro s n others hinv hA
  rw [Act.wp_bind']
  refine Act.wp_mono ?_ (fun _ _ _ _ h => h) (hm s n others hinv hA)
  rintro a _ ⟨s₁,n₁,others₁⟩ _ ⟨hinv₁,hB⟩
  exact hf a s₁ n₁ others₁ hinv₁ hB

theorem mono {B B' : α → σ → ν → Prop} (h : P.Triple F A m B) (hA : ∀ s n, A' s n → A s n)
    (hB : ∀ a s n, B a s n → B' a s n) : P.Triple F A' m B' := by
  intro s n others hinv hA'
  refine Act.wp_mono ?_ (fun _ _ _ _ h => h) (h s n others hinv (hA s n hA'))
  rintro a _ v _ ⟨hinv₁,hB₁⟩
  exact ⟨hinv₁,hB a _ _ hB₁⟩

theorem ite {p : Prop} [Decidable p] {m m' : Act Op Res ε Unit α} (hm : p → P.Triple F A m B)
    (hm' : ¬ p → P.Triple F A m' B) : P.Triple F A (if p then m else m') B := by
  split
  · exact hm ‹p›
  · exact hm' ‹¬ p›

theorem assume {p : Prop} (hp : ∀ s n, A s n → p) (h : p → P.Triple F A m B) : P.Triple F A m B :=
  fun s n others hinv hA => h (hp s n hA) s n others hinv hA

theorem of_exists {ι : Sort*} {D : ι → σ → ν → Prop} (h : ∀ i, P.Triple F (D i) m B) :
    P.Triple F (fun s n => ∃ i, D i s n) m B :=
  fun s n others hinv ⟨i,hi⟩ => h i s n others hinv hi

theorem forEach {f : β → Act Op Res ε Unit Unit} {l : List β} (I : List β → σ → ν → Prop)
    (h : ∀ done b rest, done ++ b :: rest = l → P.Triple F (I done) (f b) fun _ => I (done ++ [b])) :
    P.Triple F (I []) (Act.forEach f l) fun _ => I l := by
  intro s n others hinv hI
  refine Act.wp_forEach (fun done _ (v : σ × ν × List ν) _ => P.inv v.1 (v.2.1 :: v.2.2) ∧ I done v.1 v.2.1) ?_ ⟨hinv,hI⟩
  rintro done b rest _ ⟨s₁,n₁,others₁⟩ _ hl ⟨hinv₁,hI₁⟩
  exact h done b rest hl s₁ n₁ others₁ hinv₁ hI₁

theorem loop {f : β → Act Op Res ε Unit Unit} {l : List β} (h : ∀ b, P.Triple F A (f b) fun _ => A) :
    P.Triple F A (Act.forEach f l) fun _ => A :=
  forEach (fun _ => A) fun _ b _ _ => h b

theorem ask {o : Op} {B : Res o → σ → ν → Prop} (hA : P.Stable A)
    (h : ∀ s n others r s', P.inv s (n :: others) → A s n → P.guard o s n others → c.exec o s = some (r, s') →
      P.inv s' (c.note o r n :: others) ∧ (∀ m ∈ others, P.rely m s s') ∧ B r s' (c.note o r n)) :
    P.Triple F A (.ask o : Act Op Res ε Unit (Res o)) B := by
  intro s n others _ hAs
  rw [Act.wp_ask]
  rintro ⟨s₁,n₁,others₁⟩ _ ⟨hn,hrely,hinv⟩
  dsimp only at hn hrely hinv
  subst hn
  refine ⟨trivial,?_⟩
  rintro r ⟨s₂,n₂,others₂⟩ ⟨hothers,hnote,hguard,hexec⟩
  dsimp only at hothers hnote hguard hexec
  subst hothers hnote
  obtain ⟨hinv₂,hrely₂,hB⟩ := h s₁ n₁ others₂ r s₂ hinv (hA n₁ s s₁ hrely hAs) hguard hexec
  exact ⟨(),⟨hinv₂,hrely₂⟩,hinv₂,hB⟩

/-- A call that ends where its note can be dropped meets the protocol. -/
theorem safe (h : P.Triple F A m B) (hB : ∀ a s n others, P.inv s (n :: others) → B a s n → P.inv s (c.idle :: others))
    (hF : ∀ s n others, P.inv s (n :: others) → F s n → P.inv s (c.idle :: others)) {s : σ} {n : ν} {others : List ν}
    (hinv : P.inv s (n :: others)) (hA : A s n) : P.Safe (m ()) s n others := by
  refine Prog.wp_mono ?_ (h s n others hinv hA)
  rintro ⟨r,_⟩ ⟨s₁,n₁,others₁⟩ _ hr
  cases r with
  | ok a => exact hB a s₁ n₁ others₁ hr.1 hr.2
  | error e => exact hF s₁ n₁ others₁ hr.1 hr.2

end Triple

end Protocol
