import Mathlib

/-!
# Labelled machines

Concurrent code is modelled by one action for each atomic section, so that a list of actions is an
interleaving.
-/

structure Machine (σ α : Type) where
  init : σ
  step : σ → α → Option σ

namespace Machine

open Machine

variable {σ α : Type} (m : Machine σ α)

/-- The states reached by runs whose steps all satisfy the guard. -/
inductive ReachableBy (guard : σ → α → Prop) : σ → Prop
  | init : ReachableBy guard m.init
  | step {s s' : σ} {a : α} (hs : ReachableBy guard s) (hguard : guard s a)
      (hstep : m.step s a = some s') : ReachableBy guard s'

/-- The states reached by any run. -/
def Reachable (s : σ) : Prop := m.ReachableBy (fun _ _ => True) s

/-- Execute a list of actions; `none` when one of them is not enabled. -/
def run (s : σ) : List α → Option σ
  | [] => some s
  | a :: actions => (m.step s a).bind fun s' => run s' actions

def runGuarded (guard : σ → α → Bool) (s : σ) : List α → Option σ
  | [] => some s
  | a :: actions =>
    if guard s a then (m.step s a).bind fun s' => runGuarded guard s' actions else none

variable {m}

/-- What holds initially and survives every guarded step holds in every state reached. -/
theorem ReachableBy.invariant {guard : σ → α → Prop} {P : σ → Prop} {s : σ}
    (h : m.ReachableBy guard s) (hinit : P m.init)
    (hstep : ∀ s a s', P s → guard s a → m.step s a = some s' → P s') : P s := by
  induction h with
  | init => exact hinit
  | step _ hguard hs ih => exact hstep _ _ _ ih hguard hs

theorem ReachableBy.mono {guard guard' : σ → α → Prop} (hguard : ∀ s a, guard s a → guard' s a) {s : σ}
    (h : m.ReachableBy guard s) : m.ReachableBy guard' s := by
  induction h with
  | init => exact .init
  | step _ hg hs ih => exact ih.step (hguard _ _ hg) hs

theorem Reachable.invariant {P : σ → Prop} {s : σ} (h : m.Reachable s) (hinit : P m.init)
    (hstep : ∀ s a s', P s → m.step s a = some s' → P s') : P s :=
  ReachableBy.invariant h hinit fun s a s' hP _ hs => hstep s a s' hP hs

variable {s s' : σ}

theorem Reachable.step {a : α} (h : m.Reachable s) (hs : m.step s a = some s') : m.Reachable s' :=
  ReachableBy.step h trivial hs

variable {actions : List α}

theorem run_invariant {P : σ → Prop} (hstep : ∀ s a s', P s → m.step s a = some s' → P s') (hs : P s)
    (hrun : m.run s actions = some s') : P s' := by
  induction actions generalizing s with
  | nil =>
    obtain rfl : s = s' := by simpa [run] using hrun
    exact hs
  | cons a actions ih =>
    obtain ⟨t,ht,hrest⟩ := Option.bind_eq_some_iff.mp hrun
    exact ih (hstep s a t hs ht) hrest

theorem Reachable.run (h : m.Reachable s) (hrun : m.run s actions = some s') : m.Reachable s' :=
  run_invariant (fun _ _ _ hs hstep => hs.step hstep) h hrun

theorem run_append (s : σ) (actions actions' : List α) :
    m.run s (actions ++ actions') = (m.run s actions).bind fun s' => m.run s' actions' := by
  induction actions generalizing s with
  | nil => rfl
  | cons a actions ih =>
    rw [List.cons_append]
    simp only [run,ih,Option.bind_assoc]

theorem reachableBy_of_run {guard : σ → α → Prop} {s : σ} (hrun : m.run m.init actions = some s)
    (hguard : ∀ before a s₁ s₂, before ++ [a] <+: actions → m.run m.init before = some s₁ →
      m.step s₁ a = some s₂ → guard s₁ a) : m.ReachableBy guard s := by
  induction actions using List.reverseRecOn generalizing s with
  | nil =>
    cases hrun
    exact .init
  | append_singleton before a ih =>
    rw [run_append] at hrun
    obtain ⟨s₁,hbefore,hlast⟩ := Option.bind_eq_some_iff.mp hrun
    have hstep : m.step s₁ a = some s := by simpa [run] using hlast
    refine (ih hbefore ?_).step (hguard before a s₁ s (List.prefix_refl _) hbefore hstep) hstep
    intro before' a' s₂ s₃ hpre
    exact hguard before' a' s₂ s₃ (hpre.trans (List.prefix_append _ _))

theorem ReachableBy.runGuarded {guard : σ → α → Bool} (h : m.ReachableBy (fun s a => guard s a) s)
    (hrun : m.runGuarded guard s actions = some s') : m.ReachableBy (fun s a => guard s a) s' := by
  induction actions generalizing s with
  | nil =>
    obtain rfl : s = s' := by simpa [runGuarded] using hrun
    exact h
  | cons a actions ih =>
    rw [runGuarded] at hrun
    split_ifs at hrun with hguard
    obtain ⟨t,ht,hrest⟩ := Option.bind_eq_some_iff.mp hrun
    exact ih (h.step hguard ht) hrest

theorem run_of_runGuarded {guard : σ → α → Bool} (hrun : m.runGuarded guard s actions = some s') :
    m.run s actions = some s' := by
  induction actions generalizing s with
  | nil => exact hrun
  | cons a actions ih =>
    rw [runGuarded] at hrun
    split_ifs at hrun
    obtain ⟨t,ht,hrest⟩ := Option.bind_eq_some_iff.mp hrun
    rw [run,ht,Option.bind_some]
    exact ih hrest

end Machine

section

variable {σ ε : Type} (step : σ → ε → σ)

/-- Every step of a run satisfies a condition in the state in which it is taken. -/
def EachStep (ok : σ → ε → Prop) : σ → List ε → Prop
  | _, [] => True
  | s, e :: es => ok s e ∧ EachStep ok (step s e) es

/-- Where the steps that keep an invariant are exactly those that lead to a good state, all states of a run are
good if and only if all its steps keep the invariant. -/
theorem good_along_iff {inv good : σ → Prop} {ok : σ → ε → Prop} (hgood : ∀ s, inv s → good s)
    (hok : ∀ s e, inv s → good (step s e) → ok s e) (hinv : ∀ s e, inv s → ok s e → inv (step s e)) {s : σ}
    (h : inv s) (es : List ε) : (∀ before, before <+: es → good (before.foldl step s)) ↔ EachStep step ok s es := by
  induction es generalizing s with
  | nil =>
    refine iff_of_true (fun before hbefore => ?_) trivial
    rw [List.prefix_nil.mp hbefore]
    exact hgood s h
  | cons e es ih =>
    constructor
    · intro hall
      have hstep : ok s e := hok s e h (hall [e] (by simp))
      refine ⟨hstep,(ih (hinv s e h hstep)).mp fun before hbefore => ?_⟩
      exact hall (e :: before) ((List.prefix_cons_inj e).mpr hbefore)
    · intro ⟨hstep,hrest⟩ before hbefore
      cases before with
      | nil => exact hgood s h
      | cons e' before =>
        obtain ⟨rfl,hbefore'⟩ := List.cons_prefix_cons.mp hbefore
        exact (ih (hinv s e' h hstep)).mpr hrest before hbefore'

end
