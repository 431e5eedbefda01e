import Datasystem.Cluster.ExpectedTasks

/-!
# Edits of the membership during a batch

While a batch runs, the controller still admits and drops `INITIAL` members and marks active members that are
about to leave.
-/

namespace Datasystem.Cluster

open TopologySnapshot

/-- A member that an edit keeps: at most it goes from active to leaving soon. -/
def KeptAs (m m' : Member) : Prop :=
  m'.identity = m.identity ∧ m'.tokens = m.tokens ∧
    (m'.state = m.state ∨ (m.state = .active ∧ m'.state = .preLeaving))

instance (m m' : Member) : Decidable (KeptAs m m') := by unfold KeptAs; infer_instance

theorem KeptAs.refl (m : Member) : KeptAs m m := ⟨rfl,rfl,Or.inl rfl⟩

theorem KeptAs.trans {m m' m'' : Member} (h : KeptAs m m') (h' : KeptAs m' m'') : KeptAs m m'' := by
  obtain ⟨hid,htok,hstate⟩ := h
  obtain ⟨hid',htok',hstate'⟩ := h'
  refine ⟨hid'.trans hid,htok'.trans htok,?_⟩
  rcases hstate with hstate | ⟨hactive,hpre⟩
  · rw [hstate] at hstate'
    exact hstate'
  · simp [hpre] at hstate'
    exact Or.inr ⟨hactive,hstate'⟩

variable {p : MemberState → Bool}

/-- A condition on states that does not tell active members from those that leave soon. -/
theorem KeptAs.eq_of {m m' : Member} (h : KeptAs m m') (hp : p .active = p .preLeaving) : p m'.state = p m.state := by
  rcases h.2.2 with hstate | ⟨hactive,hpre⟩
  · rw [hstate]
  · rw [hactive,hpre,hp]

/-- The batch and all members but `INITIAL` ones are kept. -/
structure Edited (before after : TopologyState) : Prop where
  activeBatch : after.activeBatch = before.activeBatch
  kept : ∀ m ∈ before.members, m.state ≠ .initial → ∃ m' ∈ after.members, KeptAs m m'
  origin : ∀ m' ∈ after.members, m'.state ≠ .initial → ∃ m ∈ before.members, KeptAs m m'

/-- One commit of membership facts: `INITIAL` members come and go, active members may start to
leave. -/
structure MembershipEdit (before after : TopologySnapshot) : Prop extends
    Edited before.state after.state where
  version : after.state.version = before.state.version + 1

theorem Edited.refl (state : TopologyState) : Edited state state :=
  ⟨rfl,fun m hm _ => ⟨m,hm,KeptAs.refl m⟩,fun m hm _ => ⟨m,hm,KeptAs.refl m⟩⟩

theorem KeptAs.initial_iff {m m' : Member} (h : KeptAs m m') : m'.state = .initial ↔ m.state = .initial := by
  have heq := h.eq_of (p := fun s => s = .initial) rfl
  simpa using heq

theorem Edited.trans {a b c : TopologyState} (h : Edited a b) (h' : Edited b c) : Edited a c where
  activeBatch := h'.activeBatch.trans h.activeBatch
  kept m hm hinit := by
    obtain ⟨m',hm',hkept⟩ := h.kept m hm hinit
    obtain ⟨m'',hm'',hkept'⟩ := h'.kept m' hm' (fun heq => hinit (hkept.initial_iff.mp heq))
    exact ⟨m'',hm'',hkept.trans hkept'⟩
  origin m hm hinit := by
    obtain ⟨m',hm',hkept'⟩ := h'.origin m hm hinit
    obtain ⟨m'',hm'',hkept⟩ := h.origin m' hm' (fun heq => hinit (hkept'.initial_iff.mpr heq))
    exact ⟨m'',hm'',hkept.trans hkept'⟩

theorem edited_of_edits {started s : TopologySnapshot}
    (h : Relation.ReflTransGen MembershipEdit started s) : Edited started.state s.state := by
  induction h with
  | refl => exact Edited.refl _
  | tail _ hedit ih => exact ih.trans hedit.toEdited

section Owners

variable {before after : TopologyState} (h : Edited before after)

include h

/-- Members found by a condition that neither `INITIAL` members nor the start of leaving affect. -/
theorem Edited.exists_iff
    (hinit : p .initial = false) (hp : p .active = p .preLeaving) (q : MemberIdentity → List UInt32 → Prop) :
    (∃ m ∈ after.members, p m.state = true ∧ q m.identity m.tokens) ↔
      ∃ m ∈ before.members, p m.state = true ∧ q m.identity m.tokens := by
  have hne : ∀ m : Member, p m.state = true → m.state ≠ .initial := by
    intro m hm heq
    rw [heq,hinit] at hm
    cases hm
  constructor
  · rintro ⟨m',hm',hpm,hq⟩
    obtain ⟨m,hm,hkept⟩ := h.origin m' hm' (hne m' hpm)
    rw [hkept.eq_of hp] at hpm
    rw [hkept.1,hkept.2.1] at hq
    exact ⟨m,hm,hpm,hq⟩
  · rintro ⟨m,hm,hpm,hq⟩
    obtain ⟨m',hm',hkept⟩ := h.kept m hm (hne m hpm)
    rw [← hkept.1,← hkept.2.1] at hq
    exact ⟨m',hm',by rw [hkept.eq_of hp,hpm],hq⟩

theorem Edited.ownerOf_eq (hbefore : Valid before) (hafter : Valid after)
    (hinit : p .initial = false) (hp : p .active = p .preLeaving)
    (t : UInt32) : ownerOf (memberRing (fun m => p m.state) after.members) t =
      ownerOf (memberRing (fun m => p m.state) before.members) t :=
  ownerOf_congr hafter.wellFormed hbefore.wellFormed
    (fun identity tokens => h.exists_iff hinit hp fun i ts => i = identity ∧ ts = tokens) t

/-- Edits do not move tokens during a scale-out or a scale-in. -/
theorem Edited.batchMoves_iff (hbefore : Valid before)
    (hafter : Valid after) {type : TopologyChangeType} (htype : type ≠ .failure) (t : UInt32)
    (source target : MemberIdentity) :
    BatchMoves after type t source target ↔ BatchMoves before type t source target := by
  have hcommitted : ownerOf (committedRing after) t = ownerOf (committedRing before) t :=
    h.ownerOf_eq hbefore hafter (p := isCommittedMemberState) rfl rfl t
  have hprospective : ownerOf (prospectiveRing after) t = ownerOf (prospectiveRing before) t := by
    have hinit : ∀ batch, isProspective .initial batch = false := by
      rintro (_ | ⟨_ | _ | _,_⟩) <;> rfl
    have hleave : ∀ batch, isProspective .active batch = isProspective .preLeaving batch := by
      rintro (_ | ⟨_ | _ | _,_⟩) <;> rfl
    rw [prospectiveRing,h.activeBatch]
    exact h.ownerOf_eq hbefore hafter (p := fun s => isProspective s before.activeBatch) (hinit _) (hleave _) t
  have hmoves : Moves (committedRing after) (prospectiveRing after) t source target ↔
      Moves (committedRing before) (prospectiveRing before) t source target := by
    unfold Moves
    rw [hcommitted,hprospective]
  cases type with
  | failure => exact absurd rfl htype
  | scaleOut => exact hmoves
  | scaleIn => exact hmoves

theorem Edited.plannable_iff {tokensPerMember : Nat} {type : TopologyChangeType} (htype : type ≠ .failure) :
    Plannable tokensPerMember after type ↔ Plannable tokensPerMember before type := by
  cases type with
  | failure => exact absurd rfl htype
  | scaleOut =>
    have hcommitted := h.exists_iff (p := isCommittedMemberState) rfl rfl fun _ _ => True
    simp only [and_true] at hcommitted
    simp only [Plannable,hcommitted]
  | scaleIn =>
    exact h.exists_iff (p := isAdmittedScaleInMigrationTargetState) rfl rfl fun _ tokens => tokens ≠ []

omit h

end Owners

end Datasystem.Cluster
