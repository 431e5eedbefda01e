import Datasystem.Lib.Bytes

/-!
# Tagged wire format

A field holds a number, written in groups of seven bits with the lowest group first, or a byte string behind
its length.
-/

namespace Wire

open List Option UInt64

/-- Write a number in at most `k + 1` groups; all bytes but the last have the high bit set. -/
def writeVarint : Nat → Nat → Bytes
  | 0, n => [UInt8.ofNat (n % 128)]
  | k + 1, n =>
    if n < 128 then [UInt8.ofNat n] else UInt8.ofNat (n % 128 + 128) :: writeVarint k (n / 128)

def readVarint : Nat → Bytes → Option (Nat × Bytes)
  | _, [] => none
  | 0, b :: rest => if b.toNat < 128 then some (b.toNat, rest) else none
  | k + 1, b :: rest =>
    if b.toNat < 128 then some (b.toNat, rest)
    else (readVarint k rest).map fun p => (b.toNat - 128 + 128 * p.1, p.2)

theorem length_writeVarint_pos (k n : Nat) : 0 < (writeVarint k n).length := by
  cases k with
  | zero => simp [writeVarint]
  | succ k =>
    rw [writeVarint]
    split_ifs <;> simp

theorem length_writeVarint_le (k n : Nat) : (writeVarint k n).length ≤ k + 1 := by
  induction k generalizing n with
  | zero => simp [writeVarint]
  | succ k ih =>
    rw [writeVarint]
    split_ifs
    · simp
    · simpa using ih (n / 128)

private theorem toNat_ofNat {n : Nat} (h : n < 256) : (UInt8.ofNat n).toNat = n := by
  rw [UInt8.toNat_ofNat']
  exact Nat.mod_eq_of_lt h

theorem readVarint_writeVarint {k n : Nat} (h : n < 128 ^ (k + 1)) (rest : Bytes) :
    readVarint k (writeVarint k n ++ rest) = some (n, rest) := by
  induction k generalizing n with
  | zero =>
    have hn : n < 128 := by simpa using h
    have hbyte : (UInt8.ofNat (n % 128)).toNat = n := by
      rw [toNat_ofNat (by omega)]
      omega
    simp [writeVarint,readVarint,hbyte,hn]
  | succ k ih =>
    rw [writeVarint]
    by_cases hn : n < 128
    · have hbyte : (UInt8.ofNat n).toNat = n := toNat_ofNat (by omega)
      simp [hn,readVarint,hbyte]
    · have hbyte : (UInt8.ofNat (n % 128 + 128)).toNat = n % 128 + 128 := toNat_ofNat (by omega)
      have hdiv : n / 128 < 128 ^ (k + 1) := by
        apply Nat.div_lt_of_lt_mul
        rw [← Nat.pow_succ']
        exact h
      rw [if_neg hn,cons_append,readVarint,hbyte,if_neg (by omega),ih hdiv]
      simp only [map_some,some.injEq,Prod.mk.injEq,and_true]
      omega

/-- A 64-bit number takes up to ten groups. -/
def varint (n : UInt64) : Bytes := writeVarint 9 n.toNat

def takeVarint (b : Bytes) : Option (UInt64 × Bytes) := (readVarint 9 b).map fun p => (ofNat p.1, p.2)

theorem length_varint_pos (n : UInt64) : 0 < (varint n).length := length_writeVarint_pos 9 n.toNat

theorem length_varint_le (n : UInt64) : (varint n).length ≤ 10 := length_writeVarint_le 9 n.toNat

theorem takeVarint_varint (n : UInt64) (rest : Bytes) : takeVarint (varint n ++ rest) = some (n, rest) := by
  have hn : n.toNat < 128 ^ (9 + 1) := lt_trans n.toNat_lt (by decide)
  rw [takeVarint,varint,readVarint_writeVarint hn]
  simp

/-- Numbers one after the other up to the end; `fuel` bounds their count. -/
def takeVarints : Nat → Bytes → Option (List UInt64)
  | _, [] => some []
  | 0, _ :: _ => none
  | fuel + 1, b :: rest =>
    (takeVarint (b :: rest)).bind fun p => (takeVarints fuel p.2).map (p.1 :: ·)

def unpack (b : Bytes) : Option (List UInt64) := takeVarints b.length b

def pack (ns : List UInt64) : Bytes := ns.flatMap varint

theorem takeVarints_pack {fuel : Nat} {ns : List UInt64} (h : (pack ns).length ≤ fuel) :
    takeVarints fuel (pack ns) = some ns := by
  induction ns generalizing fuel with
  | nil => cases fuel <;> rfl
  | cons n ns ih =>
    have hpos := length_varint_pos n
    rw [pack,flatMap_cons,length_append] at h
    cases fuel with
    | zero => omega
    | succ fuel =>
      cases hb : varint n ++ pack ns with
      | nil => simp [append_eq_nil_iff.mp hb] at hpos
      | cons b rest =>
        rw [pack,flatMap_cons,show varint n ++ ns.flatMap varint = b :: rest from hb,
          takeVarints,← hb,takeVarint_varint,bind_some,
          ih (by rw [pack]; omega),map_some]

theorem unpack_pack (ns : List UInt64) : unpack (pack ns) = some ns := takeVarints_pack le_rfl

theorem length_pack_le (ns : List UInt64) : (pack ns).length ≤ 10 * ns.length := by
  induction ns with
  | nil => simp [pack]
  | cons n ns ih =>
    have hn := length_varint_le n
    rw [pack] at ih
    rw [pack,flatMap_cons,length_append,length_cons]
    omega

inductive Value where
  | number (n : UInt64)
  | bytes (b : Bytes)
deriving DecidableEq, Repr

structure Field where
  id : Nat
  value : Value
deriving DecidableEq, Repr

/-- The key of a field carries its number and the kind of its value. -/
def Field.tag (f : Field) : UInt64 :=
  match f.value with
  | .number _ => ofNat (8 * f.id)
  | .bytes _ => ofNat (8 * f.id + 2)

def Field.encode (f : Field) : Bytes :=
  match f.value with
  | .number n => varint f.tag ++ varint n
  | .bytes b => varint f.tag ++ (varint (ofNat b.length) ++ b)

def takeField (b : Bytes) : Option (Field × Bytes) :=
  (takeVarint b).bind fun tag =>
    if tag.1.toNat % 8 = 0 then
      (takeVarint tag.2).map fun n => (⟨tag.1.toNat / 8,.number n.1⟩, n.2)
    else if tag.1.toNat % 8 = 2 then
      (takeVarint tag.2).bind fun len =>
        if len.1.toNat ≤ len.2.length then
          some (⟨tag.1.toNat / 8,.bytes (len.2.take len.1.toNat)⟩, len.2.drop len.1.toNat)
        else none
    else none

def takeFields : Nat → Bytes → Option (List Field)
  | _, [] => some []
  | 0, _ :: _ => none
  | fuel + 1, b :: rest =>
    (takeField (b :: rest)).bind fun p => (takeFields fuel p.2).map (p.1 :: ·)

def decode (b : Bytes) : Option (List Field) := takeFields b.length b

def encode (fields : List Field) : Bytes := fields.flatMap Field.encode

def maxFieldId : Nat := 2 ^ 29

theorem Field.length_encode_pos (f : Field) : 0 < f.encode.length := by
  have htag := length_varint_pos f.tag
  unfold Field.encode
  split <;> rw [length_append] <;> omega

private theorem toNat_tag {n : Nat} (h : n < 2 ^ 64) : (ofNat n).toNat = n := by
  rw [toNat_ofNat']
  exact Nat.mod_eq_of_lt h

theorem takeField_encode {f : Field} (hid : f.id < maxFieldId) (hlen : f.encode.length < 2 ^ 31)
    (rest : Bytes) : takeField (f.encode ++ rest) = some (f, rest) := by
  obtain ⟨id,value⟩ := f
  have hid' : id < 2 ^ 29 := hid
  cases value with
  | number n =>
    have htag : (Field.tag ⟨id,.number n⟩).toNat = 8 * id := toNat_tag (n := 8 * id) (by omega)
    rw [Field.encode,append_assoc,takeField,takeVarint_varint,bind_some,htag,if_pos (by omega),takeVarint_varint]
    simp
  | bytes b =>
    have htag : (Field.tag ⟨id,.bytes b⟩).toNat = 8 * id + 2 := toNat_tag (n := 8 * id + 2) (by omega)
    rw [Field.encode] at hlen
    simp only [length_append] at hlen
    have hb : (ofNat b.length).toNat = b.length := toNat_tag (by omega)
    rw [Field.encode,append_assoc,append_assoc,takeField,takeVarint_varint,
      bind_some,htag,if_neg (by omega),if_pos (by omega),takeVarint_varint,
      bind_some,hb,if_pos (by simp),take_left,drop_left]
    simp only [some.injEq,Prod.mk.injEq,Field.mk.injEq,and_true]
    omega

variable {fields : List Field}

theorem takeFields_encode {fuel : Nat} (hfuel : (encode fields).length ≤ fuel) (hid : ∀ f ∈ fields, f.id < maxFieldId)
    (hlen : (encode fields).length < 2 ^ 31) : takeFields fuel (encode fields) = some fields := by
  induction fields generalizing fuel with
  | nil => cases fuel <;> rfl
  | cons f fields ih =>
    have hpos := f.length_encode_pos
    rw [encode,flatMap_cons,length_append] at hfuel hlen
    have htake := takeField_encode (hid f mem_cons_self) (by omega) (encode fields)
    have hrest : ∀ fuel, (encode fields).length ≤ fuel → takeFields fuel (encode fields) = some fields := by
      intro fuel hf
      exact ih hf (fun g hg => hid g (mem_cons_of_mem _ hg)) (by rw [encode]; omega)
    cases fuel with
    | zero => omega
    | succ fuel =>
      cases hb : f.encode ++ encode fields with
      | nil => simp [append_eq_nil_iff.mp hb] at hpos
      | cons b rest =>
        rw [encode,flatMap_cons,
          show f.encode ++ fields.flatMap Field.encode = b :: rest from hb,takeFields,← hb,htake,
          bind_some,hrest fuel (by rw [encode]; omega),map_some]

theorem decode_encode (hid : ∀ f ∈ fields, f.id < maxFieldId) (hlen : (encode fields).length < 2 ^ 31) :
    decode (encode fields) = some fields :=
  takeFields_encode le_rfl hid hlen

theorem length_encode_of_mem {f : Field} (h : f ∈ fields) : f.encode.length ≤ (encode fields).length := by
  induction fields with
  | nil => cases h
  | cons g fields ih =>
    rw [encode,flatMap_cons,length_append]
    rcases mem_cons.mp h with rfl | hmem
    · omega
    · have := ih hmem
      rw [encode] at this
      omega

theorem length_bytes_lt_encode {id : Nat} {b : Bytes} (h : ⟨id,.bytes b⟩ ∈ fields) :
    b.length < (encode fields).length := by
  have hmem := length_encode_of_mem h
  have hpos := length_varint_pos (Field.tag ⟨id,.bytes b⟩)
  rw [Field.encode,length_append,length_append] at hmem
  omega

variable (id : Nat)

theorem length_encode_bytes_le (b : Bytes) : (Field.encode ⟨id,.bytes b⟩).length ≤ 20 + b.length := by
  have htag := length_varint_le (Field.tag ⟨id,.bytes b⟩)
  have hlen := length_varint_le (ofNat b.length)
  rw [Field.encode,length_append,length_append]
  omega

theorem length_encode_number_le (n : UInt64) : (Field.encode ⟨id,.number n⟩).length ≤ 20 := by
  have htag := length_varint_le (Field.tag ⟨id,.number n⟩)
  have hn := length_varint_le n
  rw [Field.encode,length_append]
  omega

@[simp] theorem encode_append (fields fields' : List Field) :
    encode (fields ++ fields') = encode fields ++ encode fields' := by
  simp [encode]

/-- A number that is left out when it is zero. -/
def numberField (n : UInt64) : List Field := if n = 0 then [] else [⟨id,.number n⟩]

/-- A byte string that is left out when it is empty. -/
def bytesField (b : Bytes) : List Field := if b = [] then [] else [⟨id,.bytes b⟩]

theorem id_of_mem_numberField {id : Nat} {n : UInt64} {f : Field} (h : f ∈ numberField id n) : f.id = id := by
  unfold numberField at h
  split_ifs at h
  · cases h
  · rw [mem_singleton.mp h]

theorem id_of_mem_bytesField {id : Nat} {b : Bytes} {f : Field} (h : f ∈ bytesField id b) : f.id = id := by
  unfold bytesField at h
  split_ifs at h
  · cases h
  · rw [mem_singleton.mp h]

theorem length_encode_numberField_le (n : UInt64) : (encode (numberField id n)).length ≤ 20 := by
  unfold numberField
  split_ifs
  · simp [encode]
  · simpa [encode] using length_encode_number_le id n

theorem length_encode_bytesField_le (b : Bytes) : (encode (bytesField id b)).length ≤ 20 + b.length := by
  unfold bytesField
  split_ifs
  · simp [encode]
  · simpa [encode] using length_encode_bytes_le id b

section Merge

variable {σ : Type} {merge : σ → Field → Option σ} {s s' : σ}

/-- Merging an optional field gives what merging the field gives, provided that its absence stands
for zero. -/
theorem foldlM_numberField {id : Nat} {n : UInt64} (hzero : n = 0 → s = s')
    (hmerge : merge s ⟨id,.number n⟩ = some s') : (numberField id n).foldlM merge s = some s' := by
  unfold numberField
  split_ifs with h
  · rw [hzero h]
    rfl
  · simp [hmerge]

theorem foldlM_bytesField {id : Nat} {b : Bytes} (hnil : b = [] → s = s')
    (hmerge : merge s ⟨id,.bytes b⟩ = some s') : (bytesField id b).foldlM merge s = some s' := by
  unfold bytesField
  split_ifs with h
  · rw [hnil h]
    rfl
  · simp [hmerge]

end Merge

end Wire
