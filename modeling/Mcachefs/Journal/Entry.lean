import Mcachefs.CString

namespace Mcachefs
namespace Journal

open Library

/-!
# Journal entries and their file format

The journal is a plain concatenation of entries.  Each entry is the in-memory
`struct mcachefs_journal_entry_t` followed by the path and, when `to_sz` is
non-zero, by the second path; neither string carries its terminator.

`appendEntry` and `readEntry` follow `mcachefs_journal_append_entry` and
`mcachefs_journal_read_entry`, error paths included.  A `JournalRecord` is
what an entry means: the numeric fields and the two strings.  Its two sizes
are not data of their own, because the writer always recomputes them.
-/

/-- `mcachefs_journal_op`. -/
inductive JournalOp
  | none | mknod | mkdir | unlink | rmdir | symlink | rename | link
  | chmod | chown | truncate | utime | fsync
  deriving DecidableEq, Repr

/-- The value of the enumerator, as stored in the `op` field. -/
def JournalOp.code : JournalOp -> UInt32
  | .none => 0x0 | .mknod => 0x1 | .mkdir => 0x2 | .unlink => 0x3
  | .rmdir => 0x4 | .symlink => 0x5 | .rename => 0x6 | .link => 0x7
  | .chmod => 0x8 | .chown => 0x9 | .truncate => 0xa | .utime => 0xb
  | .fsync => 0xc

/-- The enumerator a stored `op` stands for, as a `switch` selects it. -/
def JournalOp.ofCode (code : UInt32) : Option JournalOp :=
  [JournalOp.none, mknod, mkdir, unlink, rmdir, symlink, rename, link, chmod, chown,
    truncate, utime, fsync].find? fun op => op.code = code

@[simp] theorem JournalOp.ofCode_code (op : JournalOp) : ofCode op.code = some op := by
  cases op <;> rfl

/-- `struct utimbuf`. -/
structure Utimbuf where
  actime : UInt64
  modtime : UInt64
  deriving DecidableEq, Repr

/-- `memset(&utimbuf, 0, sizeof(struct utimbuf))`. -/
def Utimbuf.zero : Utimbuf := ⟨0, 0⟩

/-- `struct mcachefs_journal_entry_t`. -/
structure JournalEntry where
  op : UInt32
  path_sz : UInt32
  to_sz : UInt32
  mode : UInt32
  rdev : UInt64
  uid : UInt32
  gid : UInt32
  size : UInt64
  utimbuf : Utimbuf
  deriving DecidableEq, Repr

/-- `sizeof(struct mcachefs_journal_entry_t)`; the layout has no padding. -/
def entrySize : Nat := 56

/-- The bytes of the structure, field after field. -/
def JournalEntry.encode (entry : JournalEntry) : List Byte :=
  littleEndian 4 entry.op.toNat ++ (littleEndian 4 entry.path_sz.toNat ++
  (littleEndian 4 entry.to_sz.toNat ++ (littleEndian 4 entry.mode.toNat ++
  (littleEndian 8 entry.rdev.toNat ++ (littleEndian 4 entry.uid.toNat ++
  (littleEndian 4 entry.gid.toNat ++ (littleEndian 8 entry.size.toNat ++
  (littleEndian 8 entry.utimbuf.actime.toNat ++
    littleEndian 8 entry.utimbuf.modtime.toNat))))))))

/-- Overlay the structure on raw bytes. -/
def JournalEntry.decode (bytes : List Byte) : JournalEntry :=
  let (op, bytes) := peel 4 bytes
  let (path_sz, bytes) := peel 4 bytes
  let (to_sz, bytes) := peel 4 bytes
  let (mode, bytes) := peel 4 bytes
  let (rdev, bytes) := peel 8 bytes
  let (uid, bytes) := peel 4 bytes
  let (gid, bytes) := peel 4 bytes
  let (size, bytes) := peel 8 bytes
  let (actime, bytes) := peel 8 bytes
  let (modtime, _) := peel 8 bytes
  { op := UInt32.ofNat op, path_sz := UInt32.ofNat path_sz, to_sz := UInt32.ofNat to_sz,
    mode := UInt32.ofNat mode, rdev := UInt64.ofNat rdev, uid := UInt32.ofNat uid,
    gid := UInt32.ofNat gid, size := UInt64.ofNat size,
    utimbuf := ⟨UInt64.ofNat actime, UInt64.ofNat modtime⟩ }

@[simp] theorem JournalEntry.encode_length (entry : JournalEntry) :
    entry.encode.length = entrySize := by
  simp only [encode, List.length_append, littleEndian_length, entrySize]

@[simp] theorem JournalEntry.decode_encode (entry : JournalEntry) :
    JournalEntry.decode entry.encode = entry := by
  have last : peel 8 (littleEndian 8 entry.utimbuf.modtime.toNat) =
      (entry.utimbuf.modtime.toNat, []) := by
    simpa using peel_uint64 entry.utimbuf.modtime []
  simp only [decode, encode, peel_uint32, peel_uint64, last, UInt32.ofNat_toNat,
    UInt64.ofNat_toNat]

/-! ## Writing one entry -/

/-- What one `write` system call does: it writes everything, or it stops after
some bytes (none of them, for a call that fails). -/
inductive WriteOutcome
  | complete
  | short (written : Nat)
  deriving DecidableEq, Repr

/-- The bytes of `data` that reach the file. -/
def WriteOutcome.written (outcome : WriteOutcome) (data : List Byte) : List Byte :=
  match outcome with
  | .complete => data
  | .short count => data.take count

/-- `-EIO` of the callers. -/
def EIO : Int := 5

/-- `mcachefs_journal_append_entry`: the size fields are recomputed from the
strings, and up to three writes follow.  `writes` tells what each of them
does.  The result is the returned code and the file afterwards; what an
incomplete write left behind stays in the file. -/
def appendEntry (writes : Nat -> WriteOutcome) (file : List Byte) (entry : JournalEntry)
    (path : Path) (toPath : Option Path) : Int × List Byte :=
  let second := toPath.getD []
  let entry := { entry with
    path_sz := UInt32.ofNat path.length, to_sz := UInt32.ofNat second.length }
  let written := (writes 0).written entry.encode
  let file := file ++ written
  if written.length ≠ entrySize then (- EIO, file)
  else
    let written := (writes 1).written path
    let file := file ++ written
    if written.length ≠ path.length then (- EIO, file)
    else if second.length ≠ 0 then
      let written := (writes 2).written second
      let file := file ++ written
      if written.length ≠ second.length then (- EIO, file) else (0, file)
    else (0, file)

/-! ## Reading one entry -/

/-- The outcome of `mcachefs_journal_read_entry`.  `returned` carries a result
that came without an entry: `0` at the end of the file, `-errno` after a short
read.  `overflow` is a store outside of one of the two path buffers. -/
inductive ReadResult
  | returned (res : Int)
  | entry (bytes : Nat) (entry : JournalEntry) (path toPath : Path) (rest : List Byte)
  | overflow
  deriving DecidableEq, Repr

/-- `EFAULT`. -/
def EFAULT : Nat := 14

/-- The value of an `int`. -/
def signed (word : UInt32) : Int := word.toBitVec.toInt

theorem signed_eq {word : UInt32} (short : word.toNat < 2 ^ 31) : signed word = word.toNat :=
  BitVec.toInt_eq_toNat_of_lt (show 2 * word.toNat < 2 ^ 32 by omega)

/-- One string of `mcachefs_journal_read_entry` and the NUL byte behind it; an
empty one is not read.  With a negative size `read` fails, and takes -1 for
complete if that was the size: the NUL byte then goes before the buffer.  The
buffers of the callers have `PATH_MAX` bytes. -/
def readString (errno : Nat) (size : UInt32) (file : List Byte) :
    Except ReadResult (List Byte × List Byte) :=
  let size := signed size
  if size < 0 then
    if size = -1 then .error .overflow else .error (.returned (-(EFAULT : Int)))
  else
    let string := file.take size.toNat
    if PATH_MAX < string.length then .error .overflow
    else if string.length ≠ size.toNat then .error (.returned (-(errno : Int)))
    else if string.length = PATH_MAX then .error .overflow
    else .ok (string, file.drop size.toNat)

/-- `mcachefs_journal_read_entry` on the bytes that remain in the file.
`errno` is the value the variable holds beforehand: a short read does not set
it. -/
def readEntry (errno : Nat) (file : List Byte) : ReadResult :=
  let header := file.take entrySize
  if header.length = 0 then .returned 0
  else if header.length ≠ entrySize then .returned (-(errno : Int))
  else
    let entry := JournalEntry.decode header
    match readString errno entry.path_sz (file.drop entrySize) with
    | .error result => result
    | .ok (path, file) =>
        match readString errno entry.to_sz file with
        | .error result => result
        | .ok (toPath, file) =>
            .entry (entrySize + path.length + toPath.length) entry (cString path)
              (cString toPath) file

theorem readString_append {errno : Nat} {size : UInt32} {string : List Byte}
    (whole : size.toNat = string.length) (short : string.length < PATH_MAX) (rest : List Byte) :
    readString errno size (string ++ rest) = .ok (string, rest) := by
  have positive : signed size = string.length := by
    rw [signed_eq (whole ▸ short.trans (by decide)), whole]
  simp only [readString, positive, Int.toNat_natCast, List.take_left', List.drop_left']
  rw [if_neg (Int.not_lt.mpr (Int.natCast_nonneg _)), if_neg short.le.not_gt,
    if_neg (not_not_intro rfl), if_neg short.ne]

/-- Nothing is missing but the end of the string. -/
theorem readString_cut {errno : Nat} {size : UInt32} {file : List Byte}
    (cut : file.length < size.toNat) (short : size.toNat < PATH_MAX) :
    readString errno size file = .error (.returned (-(errno : Int))) := by
  have positive : signed size = size.toNat := signed_eq (short.trans (by decide))
  have all : file.take size.toNat = file := List.take_of_length_le cut.le
  simp only [readString, positive, Int.toNat_natCast, all]
  rw [if_neg (Int.not_lt.mpr (Int.natCast_nonneg _)), if_neg (cut.trans short).le.not_gt,
    if_pos cut.ne]

/-! ## Records -/

/-- What one entry says. -/
structure JournalRecord where
  op : UInt32
  mode : UInt32
  rdev : UInt64
  uid : UInt32
  gid : UInt32
  size : UInt64
  utimbuf : Utimbuf
  path : Path
  toPath : Path
  deriving DecidableEq, Repr

namespace JournalRecord

/-- The structure that stands in the file for this record. -/
def entry (record : JournalRecord) : JournalEntry where
  op := record.op
  path_sz := UInt32.ofNat record.path.length
  to_sz := UInt32.ofNat record.toPath.length
  mode := record.mode
  rdev := record.rdev
  uid := record.uid
  gid := record.gid
  size := record.size
  utimbuf := record.utimbuf

/-- The bytes a complete append of this record adds to the file. -/
def encode (record : JournalRecord) : List Byte :=
  record.entry.encode ++ (record.path ++ record.toPath)

/-- The two strings are C strings that fit the readers' buffers. -/
structure Readable (record : JournalRecord) : Prop where
  path_noNul : (0 : Byte) ∉ record.path
  to_noNul : (0 : Byte) ∉ record.toPath
  path_short : record.path.length < PATH_MAX
  to_short : record.toPath.length < PATH_MAX

instance (record : JournalRecord) : Decidable record.Readable :=
  decidable_of_iff ((0 : Byte) ∉ record.path ∧ (0 : Byte) ∉ record.toPath ∧
      record.path.length < PATH_MAX ∧ record.toPath.length < PATH_MAX)
    ⟨fun ⟨path, second, pathShort, toShort⟩ => ⟨path, second, pathShort, toShort⟩,
      fun ⟨path, second, pathShort, toShort⟩ => ⟨path, second, pathShort, toShort⟩⟩

theorem encode_length (record : JournalRecord) :
    record.encode.length = entrySize + record.path.length + record.toPath.length := by
  simp only [encode, List.length_append, JournalEntry.encode_length, Nat.add_assoc]

theorem entrySize_le_encode (record : JournalRecord) : entrySize ≤ record.encode.length := by
  rw [encode_length]
  omega

private theorem ofNat_toNat_of_short {length : Nat} (short : length < PATH_MAX) :
    (UInt32.ofNat length).toNat = length := by
  rw [UInt32.toNat_ofNat']
  exact Nat.mod_eq_of_lt (short.trans (by decide))

/-- A complete append of a record adds its encoding and reports success. -/
theorem appendEntry_complete (record : JournalRecord) (file : List Byte) :
    appendEntry (fun _ => .complete) file record.entry record.path (some record.toPath) =
      (0, file ++ record.encode) := by
  have sizes : { record.entry with
      path_sz := UInt32.ofNat record.path.length, to_sz := UInt32.ofNat record.toPath.length } =
      record.entry := rfl
  simp only [appendEntry, Option.getD_some, WriteOutcome.written, JournalEntry.encode_length,
    ne_eq, not_true_eq_false, if_false, sizes]
  by_cases empty : record.toPath.length = 0
  · simp only [empty, not_true_eq_false, if_false, Prod.mk.injEq, true_and]
    rw [encode, List.length_eq_zero_iff.mp empty, List.append_nil, List.append_assoc]
  · simp only [empty, not_false_eq_true, if_true, encode, List.append_assoc]

/-- Reading at the start of a readable record returns exactly that record and
leaves what follows it. -/
theorem readEntry_encode (record : JournalRecord) (readable : record.Readable)
    (errno : Nat) (rest : List Byte) :
    readEntry errno (record.encode ++ rest) =
      .entry record.encode.length record.entry record.path record.toPath rest := by
  have pathSize : record.entry.path_sz.toNat = record.path.length :=
    ofNat_toNat_of_short readable.path_short
  have toSize : record.entry.to_sz.toNat = record.toPath.length :=
    ofNat_toNat_of_short readable.to_short
  have header : (record.encode ++ rest).take entrySize = record.entry.encode := by
    rw [encode, List.append_assoc, List.take_left' record.entry.encode_length]
  have body : (record.encode ++ rest).drop entrySize =
      record.path ++ (record.toPath ++ rest) := by
    rw [encode, List.append_assoc, List.drop_left' record.entry.encode_length,
      List.append_assoc]
  have nonempty : ¬ entrySize = 0 := by decide
  simp only [readEntry, header, body, JournalEntry.encode_length, JournalEntry.decode_encode,
    nonempty, ne_eq, not_true_eq_false, if_false, readString_append pathSize readable.path_short,
    readString_append toSize readable.to_short, cString_eq_self readable.path_noNul,
    cString_eq_self readable.to_noNul, encode_length]

end JournalRecord

/-- The journal file that complete appends of these records produce. -/
def encodeJournal (records : List JournalRecord) : List Byte :=
  records.flatMap JournalRecord.encode

@[simp] theorem encodeJournal_cons (record : JournalRecord) (records : List JournalRecord) :
    encodeJournal (record :: records) = record.encode ++ encodeJournal records :=
  List.flatMap_cons

@[simp] theorem encodeJournal_append (first second : List JournalRecord) :
    encodeJournal (first ++ second) = encodeJournal first ++ encodeJournal second :=
  List.flatMap_append

/-- Every entry is at least as long as its fixed part. -/
theorem length_le_encodeJournal (records : List JournalRecord) :
    records.length ≤ (encodeJournal records).length := by
  induction records with
  | nil => exact Nat.le_refl 0
  | cons record records inductionHypothesis =>
      have long := record.entrySize_le_encode
      rw [encodeJournal_cons, List.length_append, List.length_cons]
      unfold entrySize at long
      omega

theorem readEntry_nil (errno : Nat) : readEntry errno [] = .returned 0 := by
  simp [readEntry]

/-! ## Reading a whole journal -/

/-- One entry as a reader gets it. -/
structure JournalItem where
  entry : JournalEntry
  path : Path
  toPath : Path
  deriving DecidableEq, Repr

/-- The item a readable record reads back as. -/
def JournalRecord.item (record : JournalRecord) : JournalItem :=
  ⟨record.entry, record.path, record.toPath⟩

/-- The loop every reader of the journal runs: call `readEntry` until it does
not deliver an entry.  The last result is `none` after an overflow. -/
def readLoop (errno : Nat) : (fuel : Nat) -> List Byte -> List JournalItem × Option Int
  | 0, _ => ([], none)
  | fuel + 1, file =>
      match readEntry errno file with
      | .returned res => ([], some res)
      | .overflow => ([], none)
      | .entry _ entry path toPath rest =>
          let (items, last) := readLoop errno fuel rest
          (⟨entry, path, toPath⟩ :: items, last)

/-- Read a journal from its start.  Every entry takes at least one byte, so
the length of the file bounds the number of calls. -/
def readJournal (errno : Nat) (file : List Byte) : List JournalItem × Option Int :=
  readLoop errno (file.length + 1) file

theorem readLoop_encodeJournal (errno : Nat) (records : List JournalRecord)
    (readable : forall record, record ∈ records -> record.Readable) (fuel : Nat)
    (enough : records.length < fuel) :
    readLoop errno fuel (encodeJournal records) =
      (records.map JournalRecord.item, some 0) := by
  induction records generalizing fuel with
  | nil =>
      cases fuel with
      | zero => omega
      | succ fuel => simp [readLoop, encodeJournal, readEntry_nil]
  | cons record records inductionHypothesis =>
      cases fuel with
      | zero => omega
      | succ fuel =>
          have first := record.readEntry_encode
            (readable record List.mem_cons_self) errno (encodeJournal records)
          have later := inductionHypothesis
            (fun other member => readable other (List.mem_cons_of_mem record member)) fuel
            (by simpa using enough)
          simp only [readLoop, encodeJournal_cons, first, later, List.map_cons,
            JournalRecord.item]

/-- A journal written by complete appends reads back as the same records, and
the reader stops with `0` exactly at the end of the file. -/
theorem readJournal_encodeJournal (errno : Nat) (records : List JournalRecord)
    (readable : forall record, record ∈ records -> record.Readable) :
    readJournal errno (encodeJournal records) = (records.map JournalRecord.item, some 0) :=
  readLoop_encodeJournal errno records readable _
    (Nat.lt_succ_of_le (length_le_encodeJournal records))

/-- Records that read back alike are equal: an item determines its record. -/
theorem JournalRecord.item_injective {first second : JournalRecord}
    (same : first.item = second.item) : first = second := by
  simp only [item, entry, JournalItem.mk.injEq, JournalEntry.mk.injEq] at same
  obtain ⟨⟨op, -, -, mode, rdev, uid, gid, size, utimbuf⟩, path, second⟩ := same
  cases first
  cases second
  simp_all

end Journal
end Mcachefs
