import Mathlib

/-!
# Programs over operations

A program performs operations on a shared state one after the other; what it does next depends on the results.
A contract says what others may do before each operation (`env`), what an operation may result in (`step`),
what has to hold whenever an operation is about to be executed (`keeps`) and how each operation moves the
state (`moves`). `wp` is the weakest condition under which a program meets its contract and ends in the
postcondition.
-/

inductive Prog (Op : Type) (Res : Op → Type) (α : Type) : Type
  | pure (a : α) : Prog Op Res α
  | op (o : Op) (k : Res o → Prog Op Res α) : Prog Op Res α

namespace Prog

variable {Op : Type} {Res : Op → Type} {α β σ γ : Type}

def bind : Prog Op Res α → (α → Prog Op Res β) → Prog Op Res β
  | .pure a, f => f a
  | .op o k, f => .op o fun r => (k r).bind f

def run (exec : (o : Op) → σ → Res o × σ) : Prog Op Res α → σ → α × σ
  | .pure a, s => (a, s)
  | .op o k, s => run exec (k (exec o s).1) (exec o s).2

def advance (exec : (o : Op) → σ → Res o × σ) : Nat → Prog Op Res α → σ → Prog Op Res α × σ
  | 0, p, s => (p, s)
  | _ + 1, .pure a, s => (.pure a, s)
  | n + 1, .op o k, s => advance exec n (k (exec o s).1) (exec o s).2

def isPure : Prog Op Res α → Bool
  | .pure _ => true
  | .op _ _ => false

def perform (exec : (o : Op) → σ → Option (Res o × σ)) : Prog Op Res α → σ → Option (α × σ)
  | .pure a, s => some (a, s)
  | .op o k, s => (exec o s).bind fun r => perform exec (k r.1) r.2

theorem perform_bind (exec : (o : Op) → σ → Option (Res o × σ)) (p : Prog Op Res α) (f : α → Prog Op Res β) (s : σ) :
    (p.bind f).perform exec s = (p.perform exec s).bind fun r => (f r.1).perform exec r.2 := by
  induction p generalizing s with
  | pure a => rfl
  | op o k ih => simp only [bind,perform,ih,Option.bind_assoc]

/-- What a program may rely on and what it has to guarantee. -/
structure Contract (Op : Type) (Res : Op → Type) (σ γ : Type) where
  env : σ → γ → σ → γ → Prop
  step : (o : Op) → σ → Res o → σ → Prop
  keeps : Op → σ → γ → Prop
  moves : Op → σ → γ → σ → γ → Prop

def wp (c : Contract Op Res σ γ) (Q : α → σ → γ → Prop) : Prog Op Res α → σ → γ → Prop
  | .pure a, s, g => Q a s g
  | .op o k, s, g =>
    ∀ s₁ g₁, c.env s g s₁ g₁ → c.keeps o s₁ g₁ ∧
      ∀ r s₂, c.step o s₁ r s₂ → ∃ g₂, c.moves o s₁ g₁ s₂ g₂ ∧ wp c Q (k r) s₂ g₂

variable {c : Contract Op Res σ γ} {Q Q' : α → σ → γ → Prop} {s s' : σ} {g g' : γ}

theorem wp_mono (hQ : ∀ a s g, Q a s g → Q' a s g) {p : Prog Op Res α} (h : p.wp c Q s g) : p.wp c Q' s g := by
  induction p generalizing s g with
  | pure a => exact hQ a s g h
  | op o k ih =>
    intro s₁ g₁ henv
    obtain ⟨hkeeps,hstep⟩ := h s₁ g₁ henv
    refine ⟨hkeeps,?_⟩
    intro r s₂ hs
    obtain ⟨g₂,hmoves,hk⟩ := hstep r s₂ hs
    exact ⟨g₂,hmoves,ih r hk⟩

theorem wp_bind {Q : β → σ → γ → Prop} {p : Prog Op Res α} {f : α → Prog Op Res β} :
    (p.bind f).wp c Q s g ↔ p.wp c (fun a s g => (f a).wp c Q s g) s g := by
  induction p generalizing s g with
  | pure a => rfl
  | op o k ih => simp only [bind,wp,ih]

theorem wp_op_env (htrans : ∀ {s g s' g' s'' g''}, c.env s g s' g' → c.env s' g' s'' g'' →
      c.env s g s'' g'') {o : Op} {k : Res o → Prog Op Res α} (h : (Prog.op o k).wp c Q s g)
    (henv : c.env s g s' g') : (Prog.op o k).wp c Q s' g' :=
  fun s₁ g₁ h₁ => h s₁ g₁ (htrans henv h₁)

variable {exec : (o : Op) → σ → Res o × σ} {p : Prog Op Res α}

/-- A program that meets its contract does so after any number of operations when it is executed alone. -/
theorem wp_advance (h : p.wp c Q s g) (henv : ∀ s g, c.env s g s g)
    (hexec : ∀ o s, c.step o s (exec o s).1 (exec o s).2) (n : Nat) :
    ∃ g', (p.advance exec n s).1.wp c Q (p.advance exec n s).2 g' := by
  induction n generalizing p s g with
  | zero => exact ⟨g,h⟩
  | succ n ih =>
    cases p with
    | pure a => exact ⟨g,h⟩
    | op o k =>
      obtain ⟨g₂,_,hk⟩ := (h s g (henv s g)).2 _ _ (hexec o s)
      exact ih hk

theorem wp_run (h : p.wp c Q s g) (henv : ∀ s g, c.env s g s g)
    (hexec : ∀ o s, c.step o s (exec o s).1 (exec o s).2) : ∃ g', Q (p.run exec s).1 (p.run exec s).2 g' := by
  induction p generalizing s g with
  | pure a => exact ⟨g,h⟩
  | op o k ih =>
    obtain ⟨g₂,_,hk⟩ := (h s g (henv s g)).2 _ _ (hexec o s)
    exact ih _ hk

theorem run_bind (p : Prog Op Res α) (f : α → Prog Op Res β) (s : σ) :
    (p.bind f).run exec s = (f (p.run exec s).1).run exec (p.run exec s).2 := by
  induction p generalizing s with
  | pure a => rfl
  | op o k ih => exact ih _ _

end Prog

/-- A program with a state of its own that ends with a value or an error. -/
def Act (Op : Type) (Res : Op → Type) (ε τ α : Type) : Type := τ → Prog Op Res (Except ε α × τ)

namespace Act

variable {Op : Type} {Res : Op → Type} {ε τ σ γ α β : Type}

def ret (a : α) : Act Op Res ε τ α := fun t => .pure (.ok a, t)

def bind (m : Act Op Res ε τ α) (f : α → Act Op Res ε τ β) : Act Op Res ε τ β := fun t =>
  (m t).bind fun
    | (.ok a, t') => f a t'
    | (.error e, t') => .pure (.error e, t')

instance instMonad : Monad (Act Op Res ε τ) where
  pure := ret
  bind := bind

def ask (o : Op) : Act Op Res ε τ (Res o) := fun t => .op o fun r => .pure (.ok r, t)

def fail (e : ε) : Act Op Res ε τ α := fun t => .pure (.error e, t)

/-- `RETURN_IF_NOT_OK` of a computed status. -/
def ofExcept (x : Except ε α) : Act Op Res ε τ α := fun t => .pure (x, t)

def getState : Act Op Res ε τ τ := fun t => .pure (.ok t, t)

def modifyState (f : τ → τ) : Act Op Res ε τ Unit := fun t => .pure (.ok (), f t)

/-- Perform an action and look at its status. -/
def attempt (m : Act Op Res ε τ α) : Act Op Res ε τ (Except ε α) := fun t =>
  (m t).bind fun (r, t') => .pure (.ok r, t')

/-- Clean up when an action fails; the failure of the action is reported. -/
def onError (m : Act Op Res ε τ α) (cleanup : Act Op Res ε τ Unit) : Act Op Res ε τ α :=
  bind (attempt m) fun
    | .ok a => ret a
    | .error e => bind (attempt cleanup) fun _ => fail e

/-- Perform an action on a part of the state. -/
def zoom {τ' : Type} (view : τ → τ') (put : τ → τ' → τ) (m : Act Op Res ε τ' α) : Act Op Res ε τ α := fun t =>
  (m (view t)).bind fun (r, t') => .pure (r, put t t')

/-- Perform an action for each element, up to the first that fails. -/
def forEach (f : β → Act Op Res ε τ Unit) : List β → Act Op Res ε τ Unit
  | [] => ret ()
  | b :: l => bind (f b) fun _ => forEach f l

variable {f : α → Act Op Res ε τ β}

/-- An action that goes through is followed by the next one. -/
theorem run_bind_ok {exec : (o : Op) → σ → Res o × σ} {m : Act Op Res ε τ α} {t t' : τ}
    {s s' : σ} {a : α} (h : (m t).run exec s = ((.ok a, t'), s')) :
    ((m >>= f) t).run exec s = (f a t').run exec s' := by
  change ((m t).bind _).run exec s = _
  rw [Prog.run_bind,h]

def perform (exec : (o : Op) → σ → Option (Res o × σ)) (m : Act Op Res ε Unit α) (s : σ) : Option (Except ε α × σ) :=
  ((m ()).perform exec s).map fun r => (r.1.1, r.2)

section Perform

variable (exec : (o : Op) → σ → Option (Res o × σ))

@[simp] theorem perform_ret (a : α) (s : σ) : perform exec (ret a : Act Op Res ε Unit α) s = some (.ok a, s) := rfl

@[simp] theorem perform_fail (e : ε) (s : σ) : perform exec (fail e : Act Op Res ε Unit α) s = some (.error e, s) := rfl

theorem perform_ask (o : Op) (s : σ) :
    perform exec (ask o : Act Op Res ε Unit (Res o)) s = (exec o s).map fun r => (.ok r.1, r.2) := by
  unfold perform ask
  cases h : exec o s <;> simp [Prog.perform,h]

theorem perform_bind (m : Act Op Res ε Unit α) (f : α → Act Op Res ε Unit β) (s : σ) :
    perform exec (bind m f) s = (perform exec m s).bind fun r =>
      match r.1 with
      | .ok a => perform exec (f a) r.2
      | .error e => some (.error e, r.2) := by
  unfold perform bind
  rw [Prog.perform_bind]
  cases (m ()).perform exec s with
  | none => rfl
  | some r =>
    obtain ⟨⟨r,_⟩,s'⟩ := r
    cases r <;> rfl

/-- An action goes through, with a value and a new state. -/
theorem perform_bind_ok {m : Act Op Res ε Unit α} {f : α → Act Op Res ε Unit β} {s s' : σ} {a : α}
    (h : perform exec m s = some (.ok a, s')) : perform exec (bind m f) s = perform exec (f a) s' := by
  rw [perform_bind,h]
  rfl

theorem perform_forEach {f : β → Act Op Res ε Unit Unit} (whole : τ → σ) {g : τ → β → τ}
    (h : ∀ b t, perform exec (f b) (whole t) = some (.ok (), whole (g t b))) (l : List β) (t : τ) :
    perform exec (forEach f l) (whole t) = some (.ok (), whole (l.foldl g t)) := by
  induction l generalizing t with
  | nil => rfl
  | cons b l ih => rw [forEach,perform_bind_ok exec (h b t),ih,List.foldl_cons]

end Perform

/-- The weakest precondition for a postcondition on success and one on failure. -/
def wp (c : Prog.Contract Op Res σ γ) (Q : α → τ → σ → γ → Prop) (E : ε → τ → σ → γ → Prop)
    (m : Act Op Res ε τ α) (t : τ) (s : σ) (g : γ) : Prop :=
  (m t).wp c (fun r s g => match r with
    | (.ok a, t') => Q a t' s g
    | (.error e, t') => E e t' s g) s g

variable {c : Prog.Contract Op Res σ γ} {Q Q' : α → τ → σ → γ → Prop} {E E' : ε → τ → σ → γ → Prop}
  {t : τ} {s : σ} {g : γ}

@[simp] theorem wp_ret (a : α) : wp c Q E (ret a) t s g ↔ Q a t s g := Iff.rfl

@[simp] theorem wp_pure (a : α) : wp c Q E (Pure.pure a : Act Op Res ε τ α) t s g ↔ Q a t s g := Iff.rfl

@[simp] theorem wp_getState {Q : τ → τ → σ → γ → Prop} :
    wp c Q E (getState : Act Op Res ε τ τ) t s g ↔ Q t t s g := Iff.rfl

@[simp] theorem wp_modifyState {Q : Unit → τ → σ → γ → Prop} (f : τ → τ) :
    wp c Q E (modifyState f : Act Op Res ε τ Unit) t s g ↔ Q () (f t) s g := Iff.rfl

theorem wp_ofExcept (x : Except ε α) : wp c Q E (ofExcept x : Act Op Res ε τ α) t s g ↔
      match x with
      | .ok a => Q a t s g
      | .error e => E e t s g := by
  cases x <;> rfl

@[simp] theorem wp_ofExcept_ok (a : α) : wp c Q E (ofExcept (.ok a) : Act Op Res ε τ α) t s g ↔ Q a t s g := Iff.rfl

@[simp] theorem wp_ofExcept_error (e : ε) :
    wp c Q E (ofExcept (.error e) : Act Op Res ε τ α) t s g ↔ E e t s g := Iff.rfl

theorem wp_ask {o : Op} {Q : Res o → τ → σ → γ → Prop} : wp c Q E (ask o) t s g ↔
      ∀ s₁ g₁, c.env s g s₁ g₁ → c.keeps o s₁ g₁ ∧
        ∀ r s₂, c.step o s₁ r s₂ → ∃ g₂, c.moves o s₁ g₁ s₂ g₂ ∧ Q r t s₂ g₂ := Iff.rfl

variable {m : Act Op Res ε τ α}

theorem wp_mono (hQ : ∀ a t s g, Q a t s g → Q' a t s g) (hE : ∀ e t s g, E e t s g → E' e t s g)
    (h : wp c Q E m t s g) : wp c Q' E' m t s g := by
  refine Prog.wp_mono ?_ h
  rintro ⟨r,t'⟩ s g hr
  cases r with
  | ok a => exact hQ a t' s g hr
  | error e => exact hE e t' s g hr

theorem wp_bind' {Q : β → τ → σ → γ → Prop} :
    wp c Q E (bind m f) t s g ↔ wp c (fun a t s g => wp c Q E (f a) t s g) E m t s g := by
  rw [wp,bind,Prog.wp_bind]
  constructor
  all_goals
    refine Prog.wp_mono ?_
    rintro ⟨r,t'⟩ s g hr
    cases r <;> exact hr

theorem wp_bind {Q : β → τ → σ → γ → Prop} :
    wp c Q E (m >>= f) t s g ↔ wp c (fun a t s g => wp c Q E (f a) t s g) E m t s g :=
  wp_bind'

theorem wp_attempt {Q : Except ε α → τ → σ → γ → Prop} : wp c Q E (attempt m) t s g ↔
      wp c (fun a => Q (.ok a)) (fun e => Q (.error e)) m t s g := by
  rw [wp,attempt,Prog.wp_bind]
  constructor
  all_goals
    refine Prog.wp_mono ?_
    rintro ⟨r,t'⟩ s g hr
    cases r <;> exact hr

theorem wp_forEach {f : β → Act Op Res ε τ Unit} {l : List β} (I : List β → τ → σ → γ → Prop)
    (hstep : ∀ done b rest t s g, done ++ b :: rest = l → I done t s g → wp c (fun _ => I (done ++ [b])) E (f b) t s g)
    (h : I [] t s g) : wp c (fun _ => I l) E (forEach f l) t s g := by
  suffices hrest : ∀ done rest t s g, done ++ rest = l → I done t s g →
      wp c (fun _ => I l) E (forEach f rest) t s g from hrest [] l t s g rfl h
  intro done rest
  induction rest generalizing done with
  | nil =>
    intro t s g hl hI
    rw [List.append_nil] at hl
    exact hl ▸ hI
  | cons b rest ih =>
    intro t s g hl hI
    rw [forEach,wp_bind']
    refine wp_mono ?_ (fun _ _ _ _ h => h) (hstep done b rest t s g hl hI)
    intro _ t s g hI
    exact ih (done ++ [b]) t s g (by simpa using hl) hI

/-- What holds before an action holds after it, whether it succeeds or fails. -/
def Maintains (c : Prog.Contract Op Res σ γ) (I : σ → γ → Prop) (m : Act Op Res ε τ α) : Prop :=
  ∀ t s g, I s g → wp c (fun _ _ => I) (fun _ _ => I) m t s g

section Maintains

variable {I : σ → γ → Prop}

theorem Maintains.ret (a : α) : Maintains c I (ret a : Act Op Res ε τ α) := fun _ _ _ h => h

theorem Maintains.fail (e : ε) : Maintains c I (fail e : Act Op Res ε τ α) := fun _ _ _ h => h

theorem Maintains.bind {m : Act Op Res ε τ α} (hm : Maintains c I m)
    (hf : ∀ a, Maintains c I (f a)) : Maintains c I (Act.bind m f) := by
  intro t s g h
  rw [wp_bind']
  exact wp_mono (fun a t s g hI => hf a t s g hI) (fun _ _ _ _ hI => hI) (hm t s g h)

theorem Maintains.forEach {f : β → Act Op Res ε τ Unit} (hf : ∀ b, Maintains c I (f b)) (l : List β) :
    Maintains c I (forEach f l) := by
  induction l with
  | nil => exact Maintains.ret ()
  | cons b l ih => exact (hf b).bind fun _ => ih

theorem Maintains.ite {p : Prop} [Decidable p] {m m' : Act Op Res ε τ α} (hm : Maintains c I m)
    (hm' : Maintains c I m') : Maintains c I (if p then m else m') := by
  split_ifs
  · exact hm
  · exact hm'

end Maintains

end Act
