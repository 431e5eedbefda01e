import Mathlib

/-!
# Byte strings

Byte strings are compared byte by byte as unsigned characters, so the lexicographic order on lists of `UInt8`
is the order of the source's string type.
-/

/-- Unsigned bytes are ordered by value. -/
instance instLinearOrderUInt8 : LinearOrder UInt8 where
  le_refl := UInt8.le_refl
  le_trans _ _ _ := UInt8.le_trans
  lt_iff_le_not_ge a b := by
    simp only [UInt8.lt_iff_toNat_lt,UInt8.le_iff_toNat_le]
    omega
  le_antisymm _ _ := UInt8.le_antisymm
  le_total := UInt8.le_total
  toDecidableLE := inferInstance
  toDecidableEq := inferInstance
  toDecidableLT := inferInstance

/-- Unsigned 32-bit words are ordered by value. -/
instance instLinearOrderUInt32 : LinearOrder UInt32 where
  le_refl := UInt32.le_refl
  le_trans _ _ _ := UInt32.le_trans
  lt_iff_le_not_ge a b := by
    simp only [UInt32.lt_iff_toNat_lt,UInt32.le_iff_toNat_le]
    omega
  le_antisymm _ _ := UInt32.le_antisymm
  le_total := UInt32.le_total
  toDecidableLE := inferInstance
  toDecidableEq := inferInstance
  toDecidableLT := inferInstance

/-- Unsigned 64-bit words are ordered by value. -/
instance instLinearOrderUInt64 : LinearOrder UInt64 where
  le_refl := UInt64.le_refl
  le_trans _ _ _ := UInt64.le_trans
  lt_iff_le_not_ge a b := by
    simp only [UInt64.lt_iff_toNat_lt,UInt64.le_iff_toNat_le]
    omega
  le_antisymm _ _ := UInt64.le_antisymm
  le_total := UInt64.le_total
  toDecidableLE := inferInstance
  toDecidableEq := inferInstance
  toDecidableLT := inferInstance

/-- A binary-safe string. -/
abbrev Bytes := List UInt8

namespace Bytes

open List UInt8

/-- The search for a byte string in a list goes by equality. -/
instance instLawfulBEq : LawfulBEq Bytes := List.instLawfulBEq

def ascii (s : String) : Bytes := s.toList.map fun c => ofNat c.toNat

def decimal (n : Nat) : Bytes := (Nat.toDigits 10 n).map fun c => ofNat c.toNat

theorem decimal_digit {d : Nat} (hd : d < 10) : decimal d = [ofNat (48 + d)] := by
  rw [decimal,Nat.toDigits_of_lt_base hd]
  interval_cases d <;> rfl

theorem decimal_append {n d : Nat} (hn : 0 < n) (hd : d < 10) :
    decimal (10 * n + d) = decimal n ++ [ofNat (48 + d)] := by
  rw [← decimal_digit hd,decimal,← Nat.toDigits_append_toDigits (by omega) hn hd,map_append]
  rfl

theorem decimal_induction {P : Nat → Bytes → Prop} (digit : ∀ d < 10, P d [ofNat (48 + d)])
    (append : ∀ n d, 0 < n → d < 10 → P n (decimal n) →
      P (10 * n + d) (decimal n ++ [ofNat (48 + d)])) (n : Nat) : P n (decimal n) := by
  induction n using Nat.strongRecOn with
  | _ n ih =>
    by_cases hn : n < 10
    · rw [decimal_digit hn]
      exact digit n hn
    · have hsplit : n = 10 * (n / 10) + n % 10 := by omega
      rw [hsplit,decimal_append (by omega) (by omega)]
      exact append (n / 10) (n % 10) (by omega) (by omega) (ih (n / 10) (by omega))

/-- A word of the given number of bytes, most significant byte first. -/
def bigEndian (n value : Nat) : Bytes := (List.range n).map fun i => ofNat (value / 256 ^ (n - 1 - i))

/-- A word of the given number of bytes, least significant byte first. -/
def littleEndian : Nat → Nat → Bytes
  | 0, _ => []
  | n + 1, value => ofNat (value % 256) :: littleEndian n (value / 256)

def ofLittleEndian : Bytes → Nat
  | [] => 0
  | b :: rest => b.toNat + 256 * ofLittleEndian rest

def takeLittleEndian (n : Nat) (b : Bytes) : Option (Nat × Bytes) :=
  if n ≤ b.length then some (ofLittleEndian (b.take n), b.drop n) else none

def takeBytes (n : Nat) (b : Bytes) : Option (Bytes × Bytes) :=
  if n ≤ b.length then some (b.take n, b.drop n) else none

@[simp] theorem length_littleEndian (n value : Nat) : (littleEndian n value).length = n := by
  induction n generalizing value with
  | zero => rfl
  | succ n ih => simp [littleEndian,ih]

theorem ofLittleEndian_littleEndian (n value : Nat) : ofLittleEndian (littleEndian n value) = value % 256 ^ n := by
  induction n generalizing value with
  | zero => simp [littleEndian,ofLittleEndian,Nat.mod_one]
  | succ n ih =>
    have hlow : (ofNat (value % 256)).toNat = value % 256 := by
      simp
    rw [littleEndian,ofLittleEndian,ih,hlow,pow_succ',Nat.mod_mul]

variable {n value : Nat}

theorem takeLittleEndian_append (hvalue : value < 256 ^ n) (rest : Bytes) :
    takeLittleEndian n (littleEndian n value ++ rest) = some (value, rest) := by
  have hle : n ≤ (littleEndian n value ++ rest).length := by simp
  have htake : (littleEndian n value ++ rest).take n = littleEndian n value := take_left' (length_littleEndian n value)
  have hdrop : (littleEndian n value ++ rest).drop n = rest := drop_left' (length_littleEndian n value)
  rw [takeLittleEndian,if_pos hle,htake,hdrop,ofLittleEndian_littleEndian,Nat.mod_eq_of_lt hvalue]

theorem takeLittleEndian_suffix {b rest : Bytes} (h : takeLittleEndian n b = some (value, rest)) : rest <:+ b := by
  unfold takeLittleEndian at h
  split_ifs at h
  cases h
  exact drop_suffix n b

theorem takeBytes_suffix {n : Nat} {b c rest : Bytes} (h : takeBytes n b = some (c, rest)) : rest <:+ b := by
  unfold takeBytes at h
  split_ifs at h
  cases h
  exact drop_suffix n b

theorem takeBytes_append (b rest : Bytes) : takeBytes b.length (b ++ rest) = some (b, rest) := by
  simp [takeBytes]

theorem takeLittleEndian_extend {b rest : Bytes} (h : takeLittleEndian n b = some (value, rest)) (tail : Bytes) :
    takeLittleEndian n (b ++ tail) = some (value, rest ++ tail) := by
  unfold takeLittleEndian at h ⊢
  split_ifs at h with hle
  simp only [Option.some.injEq,Prod.mk.injEq] at h
  obtain ⟨rfl,rfl⟩ := h
  rw [if_pos (by simp; omega),take_append_of_le_length hle,drop_append_of_le_length hle]

theorem takeBytes_extend {n : Nat} {b c rest : Bytes} (h : takeBytes n b = some (c, rest))
    (tail : Bytes) : takeBytes n (b ++ tail) = some (c, rest ++ tail) := by
  unfold takeBytes at h ⊢
  split_ifs at h with hle
  simp only [Option.some.injEq,Prod.mk.injEq] at h
  obtain ⟨rfl,rfl⟩ := h
  rw [if_pos (by simp; omega),take_append_of_le_length hle,drop_append_of_le_length hle]

/-! ## Prefixes as half-open intervals

The strings that start with a given prefix are the strings from the prefix up to, but excluding, its
successor, which is the prefix with its last byte below 255 counted up and the rest dropped. -/

/-- The least string above all strings with a prefix, empty when there is none. -/
def plusOne : Bytes → Bytes
  | [] => []
  | b :: rest =>
    match plusOne rest with
    | [] => if b < 255 then [b + 1] else []
    | c :: cs => b :: c :: cs

theorem nil_le (k : Bytes) : [] ≤ k := not_lt.mp (not_lt_nil k)

theorem cons_le_cons {b c : UInt8} {p k : Bytes} : b :: p ≤ c :: k ↔ b < c ∨ b = c ∧ p ≤ k := by
  rw [← not_lt,cons_lt_cons_iff,← not_lt]
  rcases lt_trichotomy b c with hlt | rfl | hgt
  · simp [hlt,lt_asymm hlt,ne_of_gt hlt]
  · simp
  · simp [hgt,lt_asymm hgt,ne_of_gt hgt]

private theorem lt_succ_iff {b c : UInt8} (h : b < 255) : c < b + 1 ↔ c ≤ b := by
  have hb : b.toNat < 255 := by simpa [UInt8.lt_iff_toNat_lt] using h
  have hs : (b + 1).toNat = b.toNat + 1 := by
    rw [UInt8.toNat_add]
    simp
    omega
  rw [UInt8.lt_iff_toNat_lt,UInt8.le_iff_toNat_le,hs]
  omega

private theorem eq_of_ge_max {b c : UInt8} (h : ¬ b < 255) (hbc : b ≤ c) : c = b := by
  have hb : ¬ b.toNat < 255 := by simpa [UInt8.lt_iff_toNat_lt] using h
  have hc : b.toNat ≤ c.toNat := by simpa [UInt8.le_iff_toNat_le] using hbc
  have := c.toNat_lt
  apply UInt8.toNat_inj.mp
  omega

theorem prefix_iff_range (p k : Bytes) : p <+: k ↔ p ≤ k ∧ (plusOne p = [] ∨ k < plusOne p) := by
  induction p generalizing k with
  | nil => simp [plusOne,nil_le]
  | cons b p ih =>
    cases k with
    | nil => simp
    | cons c k =>
      rw [cons_prefix_cons,ih k,cons_le_cons]
      cases hp : plusOne p with
      | nil =>
        by_cases hb : b < 255
        · simp only [plusOne,hp,hb,if_true,and_true,cons_ne_nil,false_or,
            cons_lt_cons_iff,not_lt_nil,and_false,or_false,lt_succ_iff hb]
          constructor
          · rintro ⟨rfl,hle⟩
            exact ⟨Or.inr ⟨rfl,hle⟩,le_rfl⟩
          · rintro ⟨hlt | ⟨rfl,hle⟩,hcb⟩
            · exact absurd hlt (not_lt.mpr hcb)
            · exact ⟨rfl,hle⟩
        · simp only [plusOne,hp,hb,if_false,true_or,and_true]
          constructor
          · rintro ⟨rfl,hle⟩
            exact Or.inr ⟨rfl,hle⟩
          · rintro (hlt | ⟨rfl,hle⟩)
            · exact absurd (eq_of_ge_max hb hlt.le) (ne_of_gt hlt)
            · exact ⟨rfl,hle⟩
      | cons d ds =>
        simp only [plusOne,hp,cons_ne_nil,false_or]
        rw [cons_lt_cons_iff]
        constructor
        · rintro ⟨rfl,hle,hlt⟩
          exact ⟨Or.inr ⟨rfl,hle⟩,Or.inr ⟨rfl,hlt⟩⟩
        · rintro ⟨hlo,hhi⟩
          rcases hlo with hlo | ⟨rfl,hle⟩
          · rcases hhi with hhi | ⟨rfl,_⟩
            · exact absurd hlo (lt_asymm hhi)
            · exact absurd hlo (lt_irrefl _)
          · rcases hhi with hhi | ⟨_,hlt⟩
            · exact absurd hhi (lt_irrefl _)
            · exact ⟨rfl,hle,hlt⟩

theorem plusOne_append_ne_nil (p : Bytes) {b : UInt8} (hb : b < 255) : plusOne (p ++ [b]) ≠ [] := by
  induction p with
  | nil => simp [plusOne,hb]
  | cons a p ih =>
    rw [cons_append,plusOne]
    split
    · exact absurd ‹_› ih
    · simp

theorem takeWhile_append_of_stop {p : UInt8 → Bool} {l rest : Bytes}
    (h : ∀ b, rest.head? = some b → p b = false) : (l ++ rest).takeWhile p = l.takeWhile p := by
  induction l with
  | nil =>
    cases rest with
    | nil => rfl
    | cons b rest => simp [h b rfl]
  | cons a l ih =>
    rw [cons_append,takeWhile_cons,takeWhile_cons,ih]

end Bytes
