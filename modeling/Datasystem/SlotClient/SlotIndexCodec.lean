import Datasystem.Lib.RecordLog
import Datasystem.Status

/-!
# Slot index records

The reader stops at the first place where no complete record with a matching checksum stands.
-/

namespace Datasystem.SlotClient

open Bytes RecordLog List Option

structure SlotPutRecord where
  key : Bytes
  fileId : UInt32 := 0
  offset : Nat := 0
  size : Nat := 0
  version : UInt64 := 0
  writeMode : UInt8 := 0
  ttlSecond : UInt32 := 0
deriving DecidableEq, Repr

structure SlotDeleteRecord where
  key : Bytes
  version : UInt64 := 0
deriving DecidableEq, Repr

structure SlotImportRecord where
  txnId : Bytes
deriving DecidableEq, Repr

inductive SlotRecord where
  | put (record : SlotPutRecord)
  | delete (record : SlotDeleteRecord)
  | importBegin (record : SlotImportRecord)
  | importEnd (record : SlotImportRecord)
deriving DecidableEq, Repr

namespace SlotIndexCodec

def magic : Nat := 0x534c5431

def version : Nat := 1

def headerSize : Nat := 32

/-- `WriteHeader`: the magic number, the version and six reserved words. -/
def header : Bytes := littleEndian 4 magic ++ littleEndian 4 version ++ (List.replicate 6 (littleEndian 4 0)).flatten

def verifyHeader (buffer : Bytes) : Except Status Unit := do
  checkFailReturnStatus (headerSize ≤ buffer.length) .runtimeError "Index header incomplete"
  checkFailReturnStatus (ofLittleEndian (buffer.take 4) = magic) .runtimeError
    "Index magic mismatch"
  checkFailReturnStatus (ofLittleEndian ((buffer.drop 4).take 4) = version) .runtimeError
    "Index version mismatch"

def crcBit (crc : UInt32) : UInt32 :=
  if crc &&& 1 = 1 then (crc >>> 1) ^^^ 0xedb88320 else crc >>> 1

def crcByte (crc : UInt32) (b : UInt8) : UInt32 := (List.range 8).foldl (fun crc _ => crcBit crc) (crc ^^^ b.toUInt32)

def calcCrc32 (data : Bytes) : UInt32 := data.foldl crcByte 0

def lengthPrefixed (b : Bytes) : Bytes := littleEndian 4 b.length ++ b

def bodyOf : SlotRecord → Bytes
  | .put r =>
    1 :: (lengthPrefixed r.key ++ (littleEndian 4 r.fileId.toNat ++ (littleEndian 8 r.offset ++
      (littleEndian 8 r.size ++ (littleEndian 8 r.version.toNat ++ (r.writeMode ::
        littleEndian 4 r.ttlSecond.toNat))))))
  | .delete r => 2 :: (lengthPrefixed r.key ++ littleEndian 8 r.version.toNat)
  | .importBegin r => 3 :: lengthPrefixed r.txnId
  | .importEnd r => 4 :: lengthPrefixed r.txnId

def encodeRecord (r : SlotRecord) : Bytes := bodyOf r ++ littleEndian 4 (calcCrc32 (bodyOf r)).toNat

def encodePut (record : SlotPutRecord) : Except Status Bytes := do
  checkFailReturnStatus (!record.key.isEmpty) .invalid "PUT key must not be empty"
  return encodeRecord (.put record)

def encodeDelete (record : SlotDeleteRecord) : Except Status Bytes := do
  checkFailReturnStatus (!record.key.isEmpty) .invalid "DELETE key must not be empty"
  return encodeRecord (.delete record)

def encodeImportBegin (record : SlotImportRecord) : Except Status Bytes := do
  checkFailReturnStatus (!record.txnId.isEmpty) .invalid "IMPORT_BEGIN txn id must not be empty"
  return encodeRecord (.importBegin record)

def encodeImportEnd (record : SlotImportRecord) : Except Status Bytes := do
  checkFailReturnStatus (!record.txnId.isEmpty) .invalid "IMPORT_END txn id must not be empty"
  return encodeRecord (.importEnd record)

def takeLengthPrefixed (b : Bytes) : Option (Bytes × Bytes) := do
  let (n, b) ← takeLittleEndian 4 b
  takeBytes n b

def takePut (b : Bytes) : Option (SlotRecord × Bytes) := do
  let (key, b) ← takeLengthPrefixed b
  let (fileId, b) ← takeLittleEndian 4 b
  let (offset, b) ← takeLittleEndian 8 b
  let (size, b) ← takeLittleEndian 8 b
  let (version, b) ← takeLittleEndian 8 b
  let (writeMode, b) ← takeLittleEndian 1 b
  let (ttlSecond, b) ← takeLittleEndian 4 b
  return (.put ⟨key,.ofNat fileId,offset,size,.ofNat version,.ofNat writeMode,
    .ofNat ttlSecond⟩, b)

def takeDelete (b : Bytes) : Option (SlotRecord × Bytes) := do
  let (key, b) ← takeLengthPrefixed b
  let (version, b) ← takeLittleEndian 8 b
  return (.delete ⟨key,.ofNat version⟩, b)

def takeImport (make : SlotImportRecord → SlotRecord) (b : Bytes) : Option (SlotRecord × Bytes) := do
  let (txnId, b) ← takeLengthPrefixed b
  return (make ⟨txnId⟩, b)

/-- The fields that stand behind the type byte. -/
def takeFields (rawType : UInt8) (b : Bytes) : Option (SlotRecord × Bytes) :=
  if rawType = 1 then takePut b
  else if rawType = 2 then takeDelete b
  else if rawType = 3 then takeImport .importBegin b
  else if rawType = 4 then takeImport .importEnd b
  else none

def takeRecord : Bytes → Option (SlotRecord × Bytes)
  | [] => none
  | rawType :: b => do
    let (record, rest) ← takeFields rawType b
    let (storedCrc, after) ← takeLittleEndian 4 rest
    let computedCrc := calcCrc32 ((rawType :: b).take ((rawType :: b).length - rest.length))
    if storedCrc = computedCrc.toNat then some (record, after) else none

/-- The records of an index and how far they reach; the content starts with a header. -/
def scanContent (content : Bytes) : List (Frame SlotRecord) × Nat :=
  let body := content.drop headerSize
  let found := scan takeRecord body.length headerSize body
  (found.1, content.length - found.2.length)

@[simp] theorem length_header : header.length = headerSize := by decide

theorem verifyHeader_header (b : Bytes) : verifyHeader (header ++ b) = .ok () := by
  have hlen : headerSize ≤ (header ++ b).length := by simp
  have hmagic : ofLittleEndian ((header ++ b).take 4) = magic := by
    rw [take_append_of_le_length (by decide)]
    decide
  have hversion : ofLittleEndian (((header ++ b).drop 4).take 4) = version := by
    rw [drop_append_of_le_length (by decide),take_append_of_le_length (by decide)]
    decide
  simp only [verifyHeader,hlen,hmagic,hversion,decide_true]
  rfl

/-- The lengths and offsets fit into the words that hold them. -/
def Encodable : SlotRecord → Prop
  | .put r => r.key.length < 2 ^ 32 ∧ r.offset < 2 ^ 64 ∧ r.size < 2 ^ 64
  | .delete r => r.key.length < 2 ^ 32
  | .importBegin r => r.txnId.length < 2 ^ 32
  | .importEnd r => r.txnId.length < 2 ^ 32

theorem takeLengthPrefixed_append {b : Bytes} (hb : b.length < 2 ^ 32) (rest : Bytes) :
    takeLengthPrefixed (lengthPrefixed b ++ rest) = some (b, rest) := by
  have hlength : b.length < 256 ^ 4 := by simpa using hb
  simp [takeLengthPrefixed,lengthPrefixed,takeLittleEndian_append hlength,takeBytes_append]

theorem takeLengthPrefixed_extend {b c rest : Bytes} (h : takeLengthPrefixed b = some (c, rest))
    (tail : Bytes) : takeLengthPrefixed (b ++ tail) = some (c, rest ++ tail) := by
  obtain ⟨⟨n,b'⟩,hlength,hbytes⟩ := bind_eq_some_iff.mp h
  simp only [takeLengthPrefixed,takeLittleEndian_extend hlength,bind_eq_bind,bind_some]
  exact takeBytes_extend hbytes tail

theorem takeLengthPrefixed_suffix {b c rest : Bytes} (h : takeLengthPrefixed b = some (c, rest)) : rest <:+ b := by
  obtain ⟨⟨n,b'⟩,hlength,hbytes⟩ := bind_eq_some_iff.mp h
  exact (takeBytes_suffix hbytes).trans (takeLittleEndian_suffix hlength)

private theorem takeByte_append (w : UInt8) (rest : Bytes) : takeLittleEndian 1 (w :: rest) = some (w.toNat, rest) := by
  simp [takeLittleEndian,ofLittleEndian]

variable {r : SlotRecord}

private theorem takeFields_append (hr : Encodable r) {t : UInt8} {fields : Bytes} (hbody : bodyOf r = t :: fields)
    (rest : Bytes) : takeFields t (fields ++ rest) = some (r, rest) := by
  cases r with
  | put r =>
    obtain ⟨hkey,hoffset,hsize⟩ := hr
    obtain ⟨rfl,rfl⟩ := List.cons.inj hbody
    have h4 (w : UInt32) : w.toNat < 256 ^ 4 := by simpa using w.toNat_lt
    have h8 (w : UInt64) : w.toNat < 256 ^ 8 := by simpa using w.toNat_lt
    have hoffset : r.offset < 256 ^ 8 := by simpa using hoffset
    have hsize : r.size < 256 ^ 8 := by simpa using hsize
    simp [takeFields,takePut,takeLengthPrefixed_append hkey,takeLittleEndian_append (h4 _),
      takeLittleEndian_append (h8 _),takeLittleEndian_append hoffset,
      takeLittleEndian_append hsize,takeByte_append]
  | delete r =>
    obtain ⟨rfl,rfl⟩ := List.cons.inj hbody
    have hkey : r.key.length < 2 ^ 32 := hr
    have h8 : r.version.toNat < 256 ^ 8 := by simpa using r.version.toNat_lt
    simp [takeFields,takeDelete,takeLengthPrefixed_append hkey,takeLittleEndian_append h8]
  | importBegin r =>
    obtain ⟨rfl,rfl⟩ := List.cons.inj hbody
    have htxn : r.txnId.length < 2 ^ 32 := hr
    simp [takeFields,takeImport,takeLengthPrefixed_append htxn]
  | importEnd r =>
    obtain ⟨rfl,rfl⟩ := List.cons.inj hbody
    have htxn : r.txnId.length < 2 ^ 32 := hr
    simp [takeFields,takeImport,takeLengthPrefixed_append htxn]

variable {b rest : Bytes}

private theorem takeFields_extend {t : UInt8} (h : takeFields t b = some (r, rest)) (tail : Bytes) :
    takeFields t (b ++ tail) = some (r, rest ++ tail) := by
  unfold takeFields at h ⊢
  split_ifs at h ⊢ with h1 h2 h3 h4
  · unfold takePut at h ⊢
    simp only [bind_eq_bind,bind_eq_some_iff,Prod.exists] at h
    obtain ⟨key,b₁,hkey,fileId,b₂,hfile,offset,b₃,hoffset,size,b₄,hsize,version,b₅,
      hversion,mode,b₆,hmode,ttl,b₇,httl,hr⟩ := h
    simp only [takeLengthPrefixed_extend hkey,takeLittleEndian_extend hfile,
      takeLittleEndian_extend hoffset,takeLittleEndian_extend hsize,
      takeLittleEndian_extend hversion,takeLittleEndian_extend hmode,
      takeLittleEndian_extend httl,bind_eq_bind,bind_some]
    simp only [pure,some.injEq,Prod.mk.injEq] at hr ⊢
    exact ⟨hr.1,by rw [hr.2]⟩
  · unfold takeDelete at h ⊢
    simp only [bind_eq_bind,bind_eq_some_iff,Prod.exists] at h
    obtain ⟨key,b₁,hkey,version,b₂,hversion,hr⟩ := h
    simp only [takeLengthPrefixed_extend hkey,takeLittleEndian_extend hversion,bind_eq_bind,bind_some]
    simp only [pure,some.injEq,Prod.mk.injEq] at hr ⊢
    exact ⟨hr.1,by rw [hr.2]⟩
  all_goals
    unfold takeImport at h ⊢
    simp only [bind_eq_bind,bind_eq_some_iff,Prod.exists] at h
    obtain ⟨txnId,b₁,htxn,hr⟩ := h
    simp only [takeLengthPrefixed_extend htxn,bind_eq_bind,bind_some]
    simp only [pure,some.injEq,Prod.mk.injEq] at hr ⊢
    exact ⟨hr.1,by rw [hr.2]⟩

private theorem takeFields_suffix {t : UInt8} (h : takeFields t b = some (r, rest)) : rest <:+ b := by
  unfold takeFields at h
  split_ifs at h with h1 h2 h3 h4
  · unfold takePut at h
    simp only [bind_eq_bind,bind_eq_some_iff,Prod.exists] at h
    obtain ⟨_,_,hkey,_,_,hfile,_,_,hoffset,_,_,hsize,_,_,hversion,_,_,hmode,_,_,httl,hr⟩ := h
    cases hr
    calc _ <:+ _ := takeLittleEndian_suffix httl
      _ <:+ _ := takeLittleEndian_suffix hmode
      _ <:+ _ := takeLittleEndian_suffix hversion
      _ <:+ _ := takeLittleEndian_suffix hsize
      _ <:+ _ := takeLittleEndian_suffix hoffset
      _ <:+ _ := takeLittleEndian_suffix hfile
      _ <:+ b := takeLengthPrefixed_suffix hkey
  · unfold takeDelete at h
    simp only [bind_eq_bind,bind_eq_some_iff,Prod.exists] at h
    obtain ⟨_,_,hkey,_,_,hversion,hr⟩ := h
    cases hr
    exact (takeLittleEndian_suffix hversion).trans (takeLengthPrefixed_suffix hkey)
  all_goals
    unfold takeImport at h
    simp only [bind_eq_bind,bind_eq_some_iff,Prod.exists] at h
    obtain ⟨_,_,htxn,hr⟩ := h
    cases hr
    exact takeLengthPrefixed_suffix htxn

private theorem bodyOf_eq_cons (r : SlotRecord) : ∃ t fields, bodyOf r = t :: fields := by
  cases r <;> exact ⟨_,_,rfl⟩

private theorem takeRecord_encodeRecord (hr : Encodable r) : takeRecord (encodeRecord r) = some (r, []) := by
  obtain ⟨t,fields,hbody⟩ := bodyOf_eq_cons r
  have hcrc : (calcCrc32 (t :: fields)).toNat < 256 ^ 4 := by
    simpa using (calcCrc32 (t :: fields)).toNat_lt
  have htail := takeLittleEndian_append hcrc []
  rw [append_nil] at htail
  simp only [encodeRecord,hbody,cons_append,takeRecord,takeFields_append hr hbody,bind_eq_bind,bind_some,htail]
  simp

private theorem takeRecord_extend (h : takeRecord b = some (r, rest)) (tail : Bytes) :
    takeRecord (b ++ tail) = some (r, rest ++ tail) := by
  cases b with
  | nil => cases h
  | cons t b =>
    simp only [takeRecord,bind_eq_bind,bind_eq_some_iff,Prod.exists] at h
    obtain ⟨record,b₁,hfields,crc,b₂,hcrc,hsum⟩ := h
    have hle := (takeFields_suffix hfields).length_le
    have htake : (t :: b ++ tail).take ((t :: b ++ tail).length - (b₁ ++ tail).length) =
        (t :: b).take ((t :: b).length - b₁.length) := by
      have hlen : (t :: b ++ tail).length - (b₁ ++ tail).length = (t :: b).length - b₁.length := by
        simp only [length_append,length_cons]
        omega
      rw [hlen,take_append_of_le_length (by omega)]
    simp only [cons_append] at htake ⊢
    simp only [takeRecord,takeFields_extend hfields,takeLittleEndian_extend hcrc,bind_eq_bind,bind_some,htake]
    split_ifs at hsum ⊢ with hequal
    simp only [some.injEq,Prod.mk.injEq] at hsum ⊢
    exact ⟨hsum.1,by rw [hsum.2]⟩

/-- Records recognize themselves. -/
theorem recordFraming : Framing encodeRecord takeRecord Encodable where
  take_nil := rfl
  take_encode := fun _ hr => takeRecord_encodeRecord hr
  take_append := fun _ _ _ tail h => takeRecord_extend h tail

theorem scanContent_eq {rs : List SlotRecord} (hrs : ∀ r ∈ rs, Encodable r) {tail : Bytes}
    (htail : Torn takeRecord tail) :
    scanContent (header ++ (encodeAll encodeRecord rs ++ tail)) =
      (frames encodeRecord headerSize rs, (header ++ encodeAll encodeRecord rs).length) := by
  have hdrop : (header ++ (encodeAll encodeRecord rs ++ tail)).drop headerSize =
      encodeAll encodeRecord rs ++ tail := drop_left' length_header
  simp only [scanContent,hdrop,recordFraming.scan_encodeAll hrs htail le_rfl headerSize]
  simp only [length_append,Prod.mk.injEq,true_and]
  omega

end SlotIndexCodec

end Datasystem.SlotClient
