import DiskMap.Library.ByteMemory

namespace DiskMap
open ByteMemory

def pageSize : Nat := 4096

structure SetRecord where
  loc : Nat
  length : Nat
  oldValueLen : Nat
  newValueLen : Nat
  deriving DecidableEq, Repr

structure CompensationRecord where
  undoLsn : Nat
  loc : Nat
  length : Nat
  newValueLen : Nat
  deriving DecidableEq, Repr

/-- `WALRecordType` together with the union member it selects. The enumeration has a fixed
underlying type, so that a loaded record may also carry a byte outside it. -/
inductive RecordBody
  | begin
  | commit
  | abortBegin
  | abortEnd
  | checkpoint
  | set (header : SetRecord)
  | clr (header : CompensationRecord)
  | other (code : Nat)
  deriving DecidableEq, Repr

structure InMemoryWALRecord where
  checksum : Nat
  lsn : Nat
  txnId : Nat
  body : RecordBody
  data : List UInt8
  deriving DecidableEq, Repr

def RecordBody.typeCode : RecordBody → Nat
  | begin => 0
  | commit => 1
  | abortBegin => 2
  | abortEnd => 3
  | checkpoint => 4
  | set _ => 5
  | clr _ => 6
  | other code => code

/-- The packed union member, as far as `record_header_size` covers it. -/
def RecordBody.bytes : RecordBody → List UInt8
  | set s => leBytes 8 s.loc ++ leBytes 2 s.length ++ leBytes 2 s.oldValueLen ++ leBytes 2 s.newValueLen
  | clr c => leBytes 4 c.undoLsn ++ leBytes 8 c.loc ++ leBytes 2 c.length ++ leBytes 2 c.newValueLen
  | _ => []

def recordHeaderSize : RecordBody → Nat
  | .clr _ => 13 + 16
  | .set _ => 13 + 14
  | _ => 13

def recordDataSize : RecordBody → Nat
  | .clr c => c.newValueLen
  | .set s => s.oldValueLen + s.newValueLen
  | _ => 0

def recordSize (body : RecordBody) : Nat :=
  recordHeaderSize body + recordDataSize body

namespace Checksum

def start : Nat := 1099511628211

/-- One round on the 64-bit state. -/
def mix (state word : Nat) : Nat :=
  let state := (state + word) % 2 ^ 64
  let state := (state + state <<< 10) % 2 ^ 64
  state ^^^ (state >>> 6)

/-- A `char` is signed: it is widened to 64 bits with its sign. -/
def signExtend (b : UInt8) : Nat :=
  if b.toNat < 128 then b.toNat else 2 ^ 64 - 256 + b.toNat

def digest (state : Nat) : List UInt8 → Nat
  | b0 :: b1 :: b2 :: b3 :: b4 :: b5 :: b6 :: b7 :: rest =>
    digest (mix state (leNat [b0, b1, b2, b3, b4, b5, b6, b7])) rest
  | tail => tail.foldl (fun state b => mix state (signExtend b)) state

end Checksum

namespace InMemoryWALRecord

/-- The header bytes behind the checksum field. -/
def digested (r : InMemoryWALRecord) : List UInt8 :=
  leBytes 4 r.lsn ++ leBytes 4 r.txnId ++ leBytes 1 r.body.typeCode ++ r.body.bytes

def computeChecksum (r : InMemoryWALRecord) : Nat :=
  let state := Checksum.digest Checksum.start r.digested
  let state := if r.data.length > 0 then Checksum.digest state r.data else state
  state % 2 ^ 32

/-- The record as its creator leaves it. -/
def withChecksum (r : InMemoryWALRecord) : InMemoryWALRecord :=
  { r with checksum := r.computeChecksum }

def encode (r : InMemoryWALRecord) : List UInt8 :=
  leBytes 4 r.checksum ++ r.digested ++ r.data

end InMemoryWALRecord

def encodeAll (records : List InMemoryWALRecord) : List UInt8 :=
  records.flatMap InMemoryWALRecord.encode

/-- What `pread` sees: the buffers it fills are zeroed before, and stay zero past the end. -/
def fileBytes (file : List UInt8) : Mem := fun i => file.getD i 0

def loadBody (m : Mem) (offset code : Nat) : RecordBody :=
  match code with
  | 0 => .begin
  | 1 => .commit
  | 2 => .abortBegin
  | 3 => .abortEnd
  | 4 => .checkpoint
  | 5 => .set ⟨leAt m offset 8, leAt m (offset + 8) 2, leAt m (offset + 10) 2, leAt m (offset + 12) 2⟩
  | 6 => .clr ⟨leAt m offset 4, leAt m (offset + 4) 8, leAt m (offset + 12) 2, leAt m (offset + 14) 2⟩
  | code => .other code

def loadWalRecord (file : List UInt8) (offset : Nat) : InMemoryWALRecord :=
  let m := fileBytes file
  let body := loadBody m (offset + 13) (leAt m (offset + 12) 1)
  { checksum := leAt m offset 4
    lsn := leAt m (offset + 4) 4
    txnId := leAt m (offset + 8) 4
    body := body
    data := slice m (offset + recordHeaderSize body) (recordDataSize body) }

theorem recordSize_pos (body : RecordBody) : 0 < recordSize body := by
  cases body <;> simp [recordSize, recordHeaderSize]

/-- The load loop of `recover`: the records found and the position at which it stops. -/
def loadRecords (file : List UInt8) (pos : Nat) : List InMemoryWALRecord × Nat :=
  if pos < file.length then
    let r := loadWalRecord file pos
    if r.checksum = r.computeChecksum then
      let rest := loadRecords file (pos + recordSize r.body)
      (r :: rest.1, rest.2)
    else ([], pos)
  else ([], pos)
termination_by file.length - pos
decreasing_by
  have := recordSize_pos (loadWalRecord file pos).body
  omega

/-- What the packed fields can hold. -/
def RecordBody.Fits : RecordBody → Prop
  | set s => s.loc < 2 ^ 64 ∧ s.length < 2 ^ 16 ∧ s.oldValueLen < 2 ^ 16 ∧ s.newValueLen < 2 ^ 16
  | clr c => c.undoLsn < 2 ^ 32 ∧ c.loc < 2 ^ 64 ∧ c.length < 2 ^ 16 ∧ c.newValueLen < 2 ^ 16
  | other code => 7 ≤ code ∧ code < 256
  | _ => True

structure InMemoryWALRecord.Valid (r : InMemoryWALRecord) : Prop where
  checksum : r.checksum = r.computeChecksum
  lsn : r.lsn < 2 ^ 32
  txnId : r.txnId < 2 ^ 32
  body : r.body.Fits
  data : r.data.length = recordDataSize r.body

theorem RecordBody.bytes_length (body : RecordBody) : body.bytes.length + 13 = recordHeaderSize body := by
  cases body <;> simp [bytes, recordHeaderSize]

theorem RecordBody.typeCode_lt {body : RecordBody} (fits : body.Fits) : body.typeCode < 256 := by
  cases body <;> simp [typeCode]
  exact fits.2

theorem loadBody_bytes {m : Mem} {offset : Nat} {body : RecordBody} (fits : body.Fits)
    (stored : slice m offset body.bytes.length = body.bytes) :
    loadBody m offset body.typeCode = body := by
  cases body with
  | set s =>
    obtain ⟨loc, length, old, new⟩ := fits
    simp only [RecordBody.bytes, List.append_assoc] at stored
    obtain ⟨atLoc, stored⟩ := slice_split stored
    obtain ⟨atLength, stored⟩ := slice_split stored
    obtain ⟨atOld, atNew⟩ := slice_split stored
    simp only [leBytes_length, Nat.add_assoc] at atLength atOld atNew
    simp only [RecordBody.typeCode, loadBody]
    rw [leAt_of_slice loc atLoc, leAt_of_slice length (by simpa using atLength),
      leAt_of_slice old (by simpa using atOld), leAt_of_slice new (by simpa using atNew)]
  | clr c =>
    obtain ⟨undo, loc, length, new⟩ := fits
    simp only [RecordBody.bytes, List.append_assoc] at stored
    obtain ⟨atUndo, stored⟩ := slice_split stored
    obtain ⟨atLoc, stored⟩ := slice_split stored
    obtain ⟨atLength, atNew⟩ := slice_split stored
    simp only [leBytes_length, Nat.add_assoc] at atLoc atLength atNew
    simp only [RecordBody.typeCode, loadBody]
    rw [leAt_of_slice undo atUndo, leAt_of_slice loc (by simpa using atLoc),
      leAt_of_slice length (by simpa using atLength), leAt_of_slice new (by simpa using atNew)]
  | other code =>
    obtain ⟨lower, _⟩ := fits
    simp only [RecordBody.typeCode]
    unfold loadBody
    split <;> first | omega | rfl
  | _ => rfl

/-- Reading at the place of an encoded record gives the record back. -/
theorem loadWalRecord_encode {file : List UInt8} {pos : Nat} {r : InMemoryWALRecord} (valid : r.Valid)
    (stored : slice (fileBytes file) pos r.encode.length = r.encode) : loadWalRecord file pos = r := by
  simp only [InMemoryWALRecord.encode, InMemoryWALRecord.digested, List.append_assoc] at stored
  obtain ⟨atChecksum, stored⟩ := slice_split stored
  obtain ⟨atLsn, stored⟩ := slice_split stored
  obtain ⟨atTxn, stored⟩ := slice_split stored
  obtain ⟨atCode, stored⟩ := slice_split stored
  obtain ⟨atBody, atData⟩ := slice_split stored
  have size := r.body.bytes_length
  have sum : r.checksum < 256 ^ 4 := by
    rw [valid.checksum]
    exact Nat.mod_lt _ (by decide)
  simp only [leBytes_length, Nat.add_assoc] at atLsn atTxn atCode atBody atData
  have code : leAt (fileBytes file) (pos + 12) 1 = r.body.typeCode :=
    leAt_of_slice (RecordBody.typeCode_lt valid.body) (by simpa using atCode)
  have body : loadBody (fileBytes file) (pos + 13) r.body.typeCode = r.body :=
    loadBody_bytes valid.body atBody
  have position : 4 + (4 + (4 + (1 + r.body.bytes.length))) = recordHeaderSize r.body := by omega
  rw [position, valid.data] at atData
  simp only [loadWalRecord, code, body, atData, leAt_of_slice sum atChecksum,
    leAt_of_slice valid.lsn (by simpa using atLsn), leAt_of_slice valid.txnId (by simpa using atTxn)]

theorem InMemoryWALRecord.Valid.encode_length {r : InMemoryWALRecord} (valid : r.Valid) :
    r.encode.length = recordSize r.body := by
  have size := r.body.bytes_length
  have data := valid.data
  simp only [encode, digested, List.length_append, leBytes_length, recordSize]
  omega

theorem fileBytes_slice_append (front middle back : List UInt8) :
    slice (fileBytes (front ++ (middle ++ back))) front.length middle.length = middle := by
  rw [slice_eq_iff]
  intro i within
  simp only [fileBytes, List.getD_eq_getElem?_getD]
  rw [List.getElem?_append_right (by omega), Nat.add_sub_cancel_left, List.getElem?_append_left within]

/-- The load loop reads whole records back, whatever stands behind them, and goes on from there. -/
theorem loadRecords_append {records : List InMemoryWALRecord} (valid : ∀ r ∈ records, r.Valid)
    (front junk : List UInt8) :
    loadRecords (front ++ (encodeAll records ++ junk)) front.length =
      (records ++ (loadRecords (front ++ (encodeAll records ++ junk)) (front.length + (encodeAll records).length)).1,
        (loadRecords (front ++ (encodeAll records ++ junk)) (front.length + (encodeAll records).length)).2) := by
  induction records generalizing front with
  | nil => rfl
  | cons r rest ih =>
    have head := valid r List.mem_cons_self
    have size := head.encode_length
    have positive := recordSize_pos r.body
    have shape : front ++ (encodeAll (r :: rest) ++ junk) = front ++ (r.encode ++ (encodeAll rest ++ junk)) := by
      simp [encodeAll]
    have loaded : loadWalRecord (front ++ (encodeAll (r :: rest) ++ junk)) front.length = r := by
      rw [shape]
      exact loadWalRecord_encode head (fileBytes_slice_append front r.encode _)
    have later := ih (fun r' member => valid r' (List.mem_cons_of_mem _ member)) (front ++ r.encode)
    have length : (encodeAll (r :: rest)).length = r.encode.length + (encodeAll rest).length := by simp [encodeAll]
    rw [List.length_append, List.append_assoc, ← shape] at later
    conv_lhs => rw [loadRecords, if_pos (by rw [shape, List.length_append, List.length_append]; omega)]
    simp only [loaded, head.checksum.symm, if_true]
    rw [← size, later, length, Nat.add_assoc]
    rfl

/-- The load loop reads a log of whole records back, and stops at its end. -/
theorem loadRecords_encodeAll {records : List InMemoryWALRecord} (valid : ∀ r ∈ records, r.Valid)
    (front : List UInt8) :
    loadRecords (front ++ encodeAll records) front.length =
      (records, (front ++ encodeAll records).length) := by
  have loaded := loadRecords_append valid front []
  rw [List.append_nil, ← List.length_append] at loaded
  rw [loaded, loadRecords, if_neg (Nat.lt_irrefl _), List.append_nil]

end DiskMap
