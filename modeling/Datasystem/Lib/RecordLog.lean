import Datasystem.Lib.Bytes

/-!
# Logs of self-delimiting records

If a record is recognized by its own bytes, whatever follows them, the reader recovers all records of a log,
and of a log that is cut off anywhere it recovers the records in front of the cut.
-/

namespace RecordLog

open List

/-- A record with the positions of its first byte and of the byte behind it. -/
structure Frame (ρ : Type) where
  record : ρ
  startOffset : Nat
  endOffset : Nat
deriving DecidableEq, Repr

variable {ρ : Type}

/-- Read records from the front as long as there are any; also what is left over. -/
def scan (takeRecord : Bytes → Option (ρ × Bytes)) : Nat → Nat → Bytes → List (Frame ρ) × Bytes
  | 0, _, b => ([], b)
  | fuel + 1, offset, b =>
    match takeRecord b with
    | none => ([], b)
    | some (r, rest) =>
      let next := offset + (b.length - rest.length)
      let found := scan takeRecord fuel next rest
      (⟨r,offset,next⟩ :: found.1, found.2)

def encodeAll (encode : ρ → Bytes) (rs : List ρ) : Bytes := rs.flatMap encode

def frames (encode : ρ → Bytes) : Nat → List ρ → List (Frame ρ)
  | _, [] => []
  | offset, r :: rs =>
    ⟨r,offset,offset + (encode r).length⟩ :: frames encode (offset + (encode r).length) rs

/-- Records are recognized by their own bytes. -/
structure Framing (encode : ρ → Bytes) (takeRecord : Bytes → Option (ρ × Bytes))
    (Encodable : ρ → Prop) : Prop where
  take_nil : takeRecord [] = none
  take_encode : ∀ r, Encodable r → takeRecord (encode r) = some (r, [])
  take_append : ∀ b r rest tail, takeRecord b = some (r, rest) →
    takeRecord (b ++ tail) = some (r, rest ++ tail)

section Encode

variable (encode : ρ → Bytes)

@[simp] theorem encodeAll_nil : encodeAll encode [] = [] := rfl

@[simp] theorem encodeAll_cons (r : ρ) (rs : List ρ) :
    encodeAll encode (r :: rs) = encode r ++ encodeAll encode rs := rfl

theorem map_record_frames (offset : Nat) (rs : List ρ) : (frames encode offset rs).map Frame.record = rs := by
  induction rs generalizing offset with
  | nil => rfl
  | cons r rs ih => simp [frames,ih]

end Encode

section Scan

variable {encode : ρ → Bytes} {takeRecord : Bytes → Option (ρ × Bytes)} {Encodable : ρ → Prop}

/-- A tail in which no record is recognized. -/
def Torn (takeRecord : Bytes → Option (ρ × Bytes)) (tail : Bytes) : Prop := takeRecord tail = none

variable (h : Framing encode takeRecord Encodable)

include h

theorem Framing.take_cons {r : ρ} (hr : Encodable r)
    (rest : Bytes) : takeRecord (encode r ++ rest) = some (r, rest) := by
  simpa using h.take_append _ _ _ rest (h.take_encode r hr)

theorem Framing.encode_ne_nil {r : ρ} (hr : Encodable r) : encode r ≠ [] := by
  intro hnil
  have htake := h.take_encode r hr
  rw [hnil,h.take_nil] at htake
  cases htake

/-- The reader recovers the records in front of a torn tail. -/
theorem Framing.scan_encodeAll {rs : List ρ}
    (hrs : ∀ r ∈ rs, Encodable r) {tail : Bytes} (htail : Torn takeRecord tail) {fuel : Nat}
    (hfuel : (encodeAll encode rs ++ tail).length ≤ fuel) (offset : Nat) :
    scan takeRecord fuel offset (encodeAll encode rs ++ tail) = (frames encode offset rs, tail) := by
  induction rs generalizing fuel offset with
  | nil =>
    cases fuel with
    | zero => rfl
    | succ fuel =>
      have hnone : takeRecord tail = none := htail
      simp [scan,frames,hnone]
  | cons r rs ih =>
    have hr := hrs r mem_cons_self
    have hpos := length_pos_iff.mpr (h.encode_ne_nil hr)
    simp only [encodeAll_cons,append_assoc,length_append] at hfuel ⊢
    obtain ⟨fuel,rfl⟩ : ∃ n, fuel = n + 1 := ⟨fuel - 1,by omega⟩
    have hless : (encodeAll encode rs ++ tail).length ≤ fuel := by
      simp only [length_append]
      omega
    have hrest := ih (fun x hx => hrs x (mem_cons_of_mem _ hx)) hless (offset + (encode r).length)
    simp [scan,frames,h.take_cons hr,hrest]

/-- A record that is cut off is not recognized. -/
theorem Framing.torn_of_cut {r : ρ} (hr : Encodable r) {p : Bytes} (hp : p <+: encode r) (hne : p ≠ encode r) :
    Torn takeRecord p := by
  obtain ⟨q,hq⟩ := hp
  unfold Torn
  cases htake : takeRecord p with
  | none => rfl
  | some found =>
    -- a record found in the part would be found in the whole, with something left over
    obtain ⟨r',rest⟩ := found
    have happend := h.take_append _ _ _ q htake
    rw [hq,h.take_encode r hr] at happend
    have hnil : rest ++ q = [] := (Prod.mk.inj (Option.some.inj happend)).2.symm
    rw [(append_eq_nil_iff.mp hnil).2,append_nil] at hq
    exact absurd hq hne

/-- A log that is cut off consists of the records in front of the cut and a torn tail. -/
theorem Framing.cut_encodeAll {rs : List ρ} (hrs : ∀ r ∈ rs, Encodable r) (n : Nat) :
    ∃ kept tail, kept <+: rs ∧ (encodeAll encode rs).take n = encodeAll encode kept ++ tail ∧ Torn takeRecord tail ∧
      ∀ more, more <+: rs → (encodeAll encode more).length ≤ n → more <+: kept := by
  induction rs generalizing n with
  | nil => exact ⟨[],[],prefix_refl _,by simp,h.take_nil,fun more hmore _ => hmore⟩
  | cons r rs ih =>
    rw [encodeAll_cons]
    by_cases hlen : (encode r).length ≤ n
    · obtain ⟨kept,tail,hkept,htake,htail,hmax⟩ := ih (fun x hx => hrs x (mem_cons_of_mem _ hx)) (n - (encode r).length)
      refine ⟨r :: kept,tail,by simpa using hkept,?_,htail,?_⟩
      · rw [List.take_append,List.take_of_length_le hlen,htake,encodeAll_cons,List.append_assoc]
      · intro more hmore hfits
        cases more with
        | nil => exact List.nil_prefix
        | cons x more =>
          obtain ⟨rfl,hrest⟩ := cons_prefix_cons.mp hmore
          rw [encodeAll_cons,length_append] at hfits
          exact (prefix_cons_inj x).mpr (hmax more hrest (by omega))
    · refine ⟨[],(encode r).take n,List.nil_prefix,?_,?_,?_⟩
      · rw [take_append_of_le_length (by omega)]
        rfl
      · refine h.torn_of_cut (hrs r mem_cons_self) (List.take_prefix _ _) fun heq => hlen ?_
        rw [← heq]
        exact length_take_le _ _
      · intro more hmore hfits
        cases more with
        | nil => exact List.nil_prefix
        | cons x more =>
          obtain ⟨rfl,_⟩ := cons_prefix_cons.mp hmore
          rw [encodeAll_cons,length_append] at hfits
          omega

end Scan

end RecordLog
