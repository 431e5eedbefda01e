import Datasystem.SlotClient.SlotDisk
import Datasystem.SlotClient.SlotIndexFiles

/-!
# Rules for the operations of a slot

A call is executed alone, but it may be cut off at any of its operations. Beside the state, the proofs keep the
history that the files stand for.
-/

namespace Datasystem.SlotClient

open RecordLog SlotIndexCodec Act

/-- What holds of a result, of the states it comes with and of the history. -/
abbrev Post (τ α : Type) := α → τ → Shared → List Entry → Prop

/-- The histories that a call may leave behind. -/
structure Setting (path : Bytes) where
  after : List Entry → Prop

variable {path : Bytes}

/-- Wherever the call is cut off, the files stand for one of the histories it may leave behind. -/
def Setting.contract (S : Setting path) : Prog.Contract SlotOp SlotRes Shared (List Entry) where
  env s g s' g' := s' = s ∧ g' = g
  step o s r s' := r = (exec o s).1 ∧ s' = (exec o s).2
  keeps o s _ := ∀ reach, ∃ g, S.after g ∧ DiskInv (cutOff o reach s).fs path g
  moves _ _ _ _ _ := True

variable {S : Setting path} {τ α : Type} {E : Post τ Status} {t : τ}
  {s : Shared} {g : List Entry}

/-- The files stand for a history that the call may leave behind. -/
structure Safe (S : Setting path) (s : Shared) (g : List Entry) : Prop where
  disk : DiskInv s.fs path g
  after : S.after g

theorem Safe.mend (h : Safe S s g) {fs' : Fs} (hm : Mends s.fs fs' path) : Safe S { s with fs := fs' } g :=
  ⟨hm.diskInv h.disk,h.after⟩

variable {o : SlotOp} {Q : Post τ (SlotRes o)}

theorem wp_operation (g' : List Entry) (hcut : ∀ reach, ∃ g, S.after g ∧ DiskInv (cutOff o reach s).fs path g)
    (hQ : Q (exec o s).1 t (exec o s).2 g') : wp S.contract Q E (ask o) t s g := by
  rw [wp_ask]
  rintro s₁ g₁ ⟨rfl,rfl⟩
  refine ⟨hcut,?_⟩
  rintro r s₂ ⟨rfl,rfl⟩
  exact ⟨g',trivial,hQ⟩

/-- An operation that has no effect when it is cut off. -/
theorem wp_atomic (h : Safe S s g) (hcut : ∀ reach, cutOff o reach s = s) (hQ : Q (exec o s).1 t (exec o s).2 g) :
    wp S.contract Q E (ask o) t s g := by
  refine wp_operation g ?_ hQ
  intro reach
  rw [hcut]
  exact ⟨g,h.after,h.disk⟩

section Queries

variable {p : Bytes} {name : FileName}

theorem wp_fileExist {Q : Post τ Bool} (h : Safe S s g) (hQ : Q (s.fs.file p name).isSome t s g) :
    wp S.contract Q E (fileExist p name) t s g :=
  wp_atomic h (fun _ => rfl) hQ

theorem wp_fileSize {Q : Post τ (Option Nat)} (h : Safe S s g)
    (hQ : Q ((s.fs.file p name).map fun f => f.bytes.length) t s g) :
    wp S.contract Q E (fileSize p name) t s g :=
  wp_atomic h (fun _ => rfl) hQ

variable {Q : Post τ Nat} (h : Safe S s g)

include h

variable {f : File}

theorem wp_fdFileSize (hf : s.fs.file p name = some f) (hQ : Q f.bytes.length t s g) :
    wp S.contract Q E (fdFileSize ⟨p,name,f.inode⟩) t s g := by
  refine wp_atomic h (fun _ => rfl) ?_
  simpa [exec,Fs.behind_eq hf] using hQ

theorem wp_nowMs (hQ : ∀ now, Q now t s g) : wp S.contract Q E (ask SlotOp.nowMs : SlotAct τ Nat) t s g :=
  wp_atomic (o := SlotOp.nowMs) h (fun _ => rfl) (hQ s.nowMs)

theorem wp_openFile_of_some {Q : Post τ Fd} {create : Bool} (hf : s.fs.file p name = some f)
    (hQ : Q ⟨p,name,f.inode⟩ t s g) : wp S.contract Q E (openFile p name create) t s g := by
  rw [openFile,wp_bind]
  refine wp_atomic h (fun _ => rfl) ?_
  simpa [exec,hf] using hQ

theorem wp_readWholeFile {Q : Post τ Bytes} (hf : s.fs.file p name = some f) (hQ : Q f.bytes t s g) :
    wp S.contract Q E (readWholeFile p name) t s g := by
  rw [readWholeFile,wp_bind]
  refine wp_atomic h (fun _ => rfl) ?_
  simpa [exec,hf] using hQ

theorem wp_fsyncFd {Q : Post τ Unit} {fd : Fd} (hQ : Q () t s g) : wp S.contract Q E (fsyncFd fd) t s g := by
  rw [fsyncFd,wp_bind]
  exact wp_atomic h (fun _ => rfl) hQ

theorem wp_getFileIdentity {sm : StoredManifest} (hstored : (s.fs.dir p).stored = some sm)
    (hQ : Q sm.identity t s g) : wp S.contract Q E (getFileIdentity p) t s g := by
  rw [getFileIdentity,wp_bind]
  refine wp_atomic h (fun _ => rfl) ?_
  simpa [exec,hstored] using hQ

theorem wp_getFileIdentity_none (hstored : (s.fs.dir p).stored = none) (hE : ∀ e, E e t s g) :
    wp S.contract Q E (getFileIdentity p) t s g := by
  rw [getFileIdentity,wp_bind]
  refine wp_atomic h (fun _ => rfl) ?_
  simpa [exec,hstored] using hE _

omit h

end Queries

section Mending

variable {Q : Post τ Unit}

theorem wp_createDir (h : Safe S s g) (hQ : ∀ fs', Mends s.fs fs' path → (fs'.dir path).present = true →
      Q () t { s with fs := fs' } g) : wp S.contract Q E (createDir path) t s g := by
  rw [createDir,wp_bind]
  refine wp_atomic h (fun _ => rfl) ?_
  exact hQ _ (mends_createDir s.fs path) (by simp [Fs.dir_setDir])

theorem wp_openFile_create {Q : Post τ Fd} {name : FileName} (h : Safe S s g)
    (hpresent : (s.fs.dir path).present = true) (hnone : s.fs.file path name = none)
    (hQ : Q ⟨path,name,s.fs.nextInode⟩ t { s with fs := s.fs.createFile path name } g) :
    wp S.contract Q E (openFile path name true) t s g := by
  rw [openFile,wp_bind]
  refine wp_atomic h (fun _ => rfl) ?_
  simpa [exec,hnone,hpresent] using hQ

variable {f : File}

theorem wp_truncate {index : Bytes} {size : Nat} (h : Safe S s g) (hf : s.fs.file path (.index index) = some f)
    (hQ : Q () t { s with fs := s.fs.setFile path (.index index) ⟨f.inode,f.bytes.take size⟩ } g) :
    wp S.contract Q E (truncate path (.index index) size) t s g := by
  rw [truncate,wp_bind]
  refine wp_atomic h (fun _ => rfl) ?_
  simpa [exec,hf] using hQ

theorem wp_writeFile {fd : Fd} {b : Bytes} {offset : Nat} (g' : List Entry)
    (hcut : ∀ reach, ∃ g, S.after g ∧ DiskInv (s.fs.write fd (b.take reach) offset) path g)
    (hQ : offset + b.length ≤ ssizeMax → Q () t { s with fs := s.fs.write fd b offset } g')
    (hE : ssizeMax < offset + b.length → ∀ e, E e t s g) :
    wp S.contract Q E (writeFile fd b offset) t s g := by
  rw [writeFile,wp_bind]
  by_cases hlen : offset + b.length ≤ ssizeMax
  · refine wp_operation g' hcut ?_
    simpa [exec,hlen] using hQ hlen
  · refine wp_operation g hcut ?_
    simpa [exec,hlen] using hE (not_le.mp hlen) _

end Mending

end Datasystem.SlotClient
