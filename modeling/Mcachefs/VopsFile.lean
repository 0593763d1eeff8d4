import Mcachefs.CBuffer

namespace Mcachefs

open Library

/-!
# Writing to a virtual file

A virtual file keeps what is written to it in `contents`, a buffer of
`contents_alloced` bytes of which `contents_size` are valuable.  The release of a handle
that was open for writing parses it: the first newline below `contents_alloced` becomes a
NUL, and the string in front of it is compared with names, read as a number or handed to
a setter.  `file->contents` is not built for such a handle, so that it may be NULL.
-/

namespace VopsFile

/-- The three fields of `struct mcachefs_file_t` for a virtual file. -/
structure Contents where
  contents : Option (List Byte)
  contentsAlloced : Nat
  contentsSize : Nat
  alloced : contentsAlloced = (contents.getD []).length
  sized : contentsSize ≤ contentsAlloced

/-- No contents, as after creation, `mcachefs_truncate` or `mcachefs_vops_cleanup_vops`. -/
def Contents.empty : Contents where
  contents := none
  contentsAlloced := 0
  contentsSize := 0
  alloced := rfl
  sized := Nat.le_refl 0

/-! ## `mcachefs_write_vops` -/

/-- One call, with what `realloc` does when it is asked. -/
structure Write where
  buf : List Byte
  offset : Nat
  realloc : Option (Nat -> Byte)

/-- `memcpy` and the new `contents_size`, when there is room. -/
def Contents.put (file : Contents) (buf : List Byte) (offset : Nat)
    (room : offset + buf.length ≤ file.contentsAlloced) : Contents where
  contents := file.contents.map fun contents => memcpy contents offset buf
  contentsAlloced := file.contentsAlloced
  contentsSize := max file.contentsSize (offset + buf.length)
  alloced := by
    have alloced := file.alloced
    cases contents : file.contents with
    | none => rw [alloced, contents]; rfl
    | some held =>
        rw [contents] at alloced
        exact alloced.trans (memcpy_length (alloced ▸ room)).symm
  sized := Nat.max_le.mpr ⟨file.sized, room⟩

/-- `mcachefs_write_vops`. -/
def Contents.writeVops (file : Contents) (call : Write) : Contents × Int :=
  let size := call.buf.length
  if room : call.offset + size ≤ file.contentsAlloced then
    (file.put call.buf call.offset room, size)
  else
    match call.realloc with
    | some held =>
        let grown : Contents :=
          { contents := some (grow (file.contents.getD []) (call.offset + size) held)
            contentsAlloced := call.offset + size
            contentsSize := file.contentsSize
            alloced := by
              have alloced := file.alloced
              simp only [Option.getD_some, grow_length]
              omega
            sized := by
              have sized := file.sized
              omega }
        (grown.put call.buf call.offset (Nat.le_refl _), size)
    | none => (Contents.empty, -12)

/-- A sequence of calls. -/
def Contents.writes (file : Contents) (calls : List Write) : Contents :=
  calls.foldl (fun file call => (file.writeVops call).1) file

/-! ## The table -/

/-- The setters of `vops_procs` for a number, and `mcachefs_call_action`. -/
inductive IntSetter where
  | setReadState
  | setWriteState
  | setFileThreadInterval
  | setFileTtl
  | setMetadataMapTtl
  | setTransferMaxRate
  | callAction
deriving DecidableEq

/-- The setter of `vops_procs` for a string. -/
inductive StringSetter where
  | setCachePrefix
deriving DecidableEq

/-- `struct mcachefs_vops_proc`, as far as it is read here. -/
structure VopsProc where
  name : Path
  setInt : Option IntSetter
  setString : Option StringSetter
  intStringMap : Option (List Path)

/-- `read_state_names`. -/
def readStateNames : List Path :=
  [ascii "normal", ascii "full", ascii "handsup", ascii "nocache", ascii "quitting"]

/-- `write_state_names`. -/
def writeStateNames : List Path :=
  [ascii "cache", ascii "flush", ascii "force"]

/-- `vops_action_names`. -/
def vopsActionNames : List Path :=
  [ascii "none", ascii "apply_journal", ascii "flush_metadata", ascii "cleanup_cache",
    ascii "fill_cache_meta"]

/-- `vops_procs`. -/
def vopsProcs : List VopsProc :=
  [⟨ascii "read_state", some .setReadState, none, some readStateNames⟩,
    ⟨ascii "write_state", some .setWriteState, none, some writeStateNames⟩,
    ⟨ascii "file_thread_interval", some .setFileThreadInterval, none, none⟩,
    ⟨ascii "file_ttl", some .setFileTtl, none, none⟩,
    ⟨ascii "metadata_map_ttl", some .setMetadataMapTtl, none, none⟩,
    ⟨ascii "transfer_max_rate", some .setTransferMaxRate, none, none⟩,
    ⟨ascii "transfer", none, none, none⟩,
    ⟨ascii "journal", none, none, none⟩,
    ⟨ascii "metadata", none, none, none⟩,
    ⟨ascii "timeslices", none, none, none⟩,
    ⟨ascii "cache_prefix", none, some .setCachePrefix, none⟩,
    ⟨ascii "action", some .callAction, none, some vopsActionNames⟩]

/-- `mcachefs_vops_proc_find`, on `&(mvops->path[11])`. -/
def vopsProcFind (path : Path) : Option VopsProc :=
  vopsProcs.find? fun proc => proc.name = path.drop 11

/-! ## `mcachefs_vops_parse` -/

/-- A read that is not of the buffer. -/
inductive Fault where
  | nullContents
  | pastContents
deriving DecidableEq

/-- What a parse hands to the configuration. -/
inductive SetterCall where
  | setInt (setter : IntSetter) (value : Int)
  | setString (setter : StringSetter) (value : Option Path)
deriving DecidableEq

/-- A function reads the buffer, and `none` where it leaves it. -/
def reading {Value : Type} (contents : Option (List Byte)) (read : List Byte -> Option Value) :
    Except Fault Value :=
  match contents with
  | none => .error .nullContents
  | some buffer =>
      match read buffer with
      | none => .error .pastContents
      | some value => .ok value

/-- The loop of `vops_cleanup_first_line`. -/
def cleanupFirstLine : (contents : List Byte) -> List Byte
  | [] => []
  | byte :: contents => if byte = 10 then 0 :: contents else byte :: cleanupFirstLine contents

/-- The loop over `values` in `vops_parse_int_raw_map`. -/
def findName (contents : Option (List Byte)) :
    (iter : Nat) -> (values : List Path) -> Except Fault (Option Nat)
  | _, [] => .ok none
  | iter, value :: values => do
      let equal ← reading contents fun buffer => strcmpEqual buffer value
      if equal then return some iter else findName contents (iter + 1) values

/-- `vops_parse_int_raw_map`. -/
def vopsParseIntRawMap (file : Contents) (values : List Path) : Except Fault (Option Nat) :=
  findName (file.contents.map cleanupFirstLine) 0 values

/-- `vops_parse_int_map`.  The message for a value of no name prints the string. -/
def vopsParseIntMap (file : Contents) (setter : IntSetter) (values : List Path) :
    Except Fault (Option SetterCall) := do
  match ← vopsParseIntRawMap file values with
  | some value => return some (.setInt setter value)
  | none =>
      let _ ← reading (file.contents.map cleanupFirstLine) readString
      return none

/-- `vops_parse_int`. -/
def vopsParseInt (file : Contents) (setter : IntSetter) : Except Fault (Option SetterCall) := do
  let result ← reading (file.contents.map cleanupFirstLine) atoi
  return some (.setInt setter result)

/-- `vops_parse_string`.  The setter leaves a NULL alone and copies any other string. -/
def vopsParseString (file : Contents) (setter : StringSetter) :
    Except Fault (Option SetterCall) :=
  match file.contents.map cleanupFirstLine with
  | none => .ok (some (.setString setter none))
  | some buffer => do
      let value ← reading (some buffer) readString
      return some (.setString setter (some value))

/-- `mcachefs_vops_parse`, behind the search for the file. -/
def VopsProc.parse (proc : VopsProc) (file : Contents) : Except Fault (Option SetterCall) :=
  match proc.setInt, proc.setString with
  | some setter, _ =>
      match proc.intStringMap with
      | some values => vopsParseIntMap file setter values
      | none => vopsParseInt file setter
  | none, some setter => vopsParseString file setter
  | none, none => .ok none

/-- `mcachefs_vops_parse`. -/
def vopsParse (path : Path) (file : Contents) : Except Fault (Option SetterCall) :=
  match vopsProcFind path with
  | none => .ok none
  | some proc => proc.parse file

/-- `mcachefs_release_mfile` of a virtual file. -/
def releaseMfile (path : Path) (file : Contents) (isWrite : Bool) :
    Except Fault (Option SetterCall) :=
  if isWrite then vopsParse path file else .ok none

/-! ## What the parse reads -/

/-- The bytes of a line are neither newlines nor NULs. -/
def inLine (byte : Byte) : Bool :=
  byte ≠ 10 ∧ byte ≠ 0

/-- The first line of the file: of its `contents_size` bytes, and without the newline. -/
def Contents.firstLine (file : Contents) : Path :=
  ((file.contents.getD []).take file.contentsSize).takeWhile inLine

/-- The line that the parse finds in the buffer. -/
def seenLine (buffer : List Byte) : Path :=
  buffer.takeWhile inLine

/-- The first line of the buffer ends in it. -/
def Ended (buffer : List Byte) : Prop :=
  (10 : Byte) ∈ buffer ∨ (0 : Byte) ∈ buffer

theorem mem_cleanupFirstLine {buffer : List Byte} :
    (0 : Byte) ∈ cleanupFirstLine buffer ↔ Ended buffer := by
  induction buffer with
  | nil => simp [cleanupFirstLine, Ended]
  | cons byte buffer inductionHypothesis =>
      rw [cleanupFirstLine]
      by_cases newline : byte = 10
      · simp [newline, Ended]
      · rw [if_neg newline, List.mem_cons, inductionHypothesis]
        simp only [Ended, List.mem_cons, Ne.symm newline, false_or]
        exact or_left_comm

/-- Without a newline there is nothing to clean. -/
theorem cleanupFirstLine_eq_self {buffer : List Byte} (absent : (10 : Byte) ∉ buffer) :
    cleanupFirstLine buffer = buffer := by
  induction buffer with
  | nil => rfl
  | cons byte buffer inductionHypothesis =>
      have other : byte ≠ 10 := fun newline => absent (newline ▸ List.mem_cons_self)
      have later : (10 : Byte) ∉ buffer := fun member => absent (List.mem_cons_of_mem _ member)
      rw [cleanupFirstLine, if_neg other, inductionHypothesis later]

theorem cString_cleanupFirstLine (buffer : List Byte) :
    cString (cleanupFirstLine buffer) = seenLine buffer := by
  induction buffer with
  | nil => rfl
  | cons byte buffer inductionHypothesis =>
      rw [cleanupFirstLine]
      by_cases newline : byte = 10
      · simp [newline, cString, seenLine, inLine]
      · rw [if_neg newline]
        by_cases zero : byte = 0
        · simp [zero, cString, seenLine, inLine]
        · have whole : cString (byte :: cleanupFirstLine buffer) =
              byte :: cString (cleanupFirstLine buffer) := by simp [cString, zero]
          have line : seenLine (byte :: buffer) = byte :: seenLine buffer := by
            simp [seenLine, inLine, zero, newline]
          rw [whole, line, inductionHypothesis]

/-- A name of the maps: it has no end of a line in it. -/
def NameLike (name : Path) : Prop :=
  (10 : Byte) ∉ name ∧ (0 : Byte) ∉ name

instance (name : Path) : Decidable (NameLike name) :=
  inferInstanceAs (Decidable (_ ∧ _))

/-- On a string that ends the loop finds the first name that is equal to it. -/
theorem findName_of_mem {buffer : List Byte} (ends : (0 : Byte) ∈ buffer) {names : List Path}
    (plain : forall name, name ∈ names -> NameLike name) (iter : Nat) :
    findName (some buffer) iter names =
      .ok ((names.findIdx? fun name => cString buffer = name).map (iter + ·)) := by
  induction names generalizing iter with
  | nil => rfl
  | cons name names inductionHypothesis =>
      have equal := strcmpEqual_of_mem ends (plain name List.mem_cons_self).2
      have rest := inductionHypothesis
        (fun name member => plain name (List.mem_cons_of_mem _ member)) (iter + 1)
      rw [findName, reading, equal, List.findIdx?_cons]
      by_cases same : cString buffer = name
      · simp only [same, decide_true]
        rfl
      · simp only [same, decide_false, Bool.false_eq_true, if_false, Option.map_map]
        refine rest.trans (congrArg Except.ok ?_)
        cases names.findIdx? fun name => decide (cString buffer = name) with
        | none => rfl
        | some index => exact congrArg some (by simp only [Function.comp_apply]; omega)

/-- On a string that does not end the loop finds no name. -/
theorem findName_of_not_mem {buffer : List Byte} (endless : (0 : Byte) ∉ buffer)
    {names : List Path} (plain : forall name, name ∈ names -> NameLike name) {iter : Nat}
    {found : Option Nat} (result : findName (some buffer) iter names = .ok found) :
    found = none := by
  induction names generalizing iter with
  | nil => cases result; rfl
  | cons name names inductionHypothesis =>
      have different := strcmpEqual_of_not_mem endless (plain name List.mem_cons_self).2
      rw [findName, reading] at result
      cases equal : strcmpEqual buffer name with
      | none => rw [equal] at result; cases result
      | some same =>
          cases same with
          | true => exact absurd equal different
          | false =>
              rw [equal] at result
              exact inductionHypothesis
                (fun name member => plain name (List.mem_cons_of_mem _ member)) result

/-! ## When the parse is right -/

/-- A file with a name map calls its setter with the number of the name that the first
line is, and not at all for a line that is no name. -/
def CallsNamed (path : Path) (file : Contents) (call : Option SetterCall) : Prop :=
  forall proc setter names, vopsProcFind path = some proc -> proc.setInt = some setter ->
    proc.intStringMap = some names ->
      (forall index : Nat, names[index]? = some file.firstLine ->
        call = some (.setInt setter index)) ∧
      (file.firstLine ∉ names -> call = none)

/-- The parse at the release of a handle open for writing stays in the buffer and calls
what the file says. -/
def ParsedRightly (path : Path) (file : Contents) : Prop :=
  Exists fun call => releaseMfile path file true = .ok call ∧ CallsNamed path file call

/-- What the buffer has to be for that. -/
def VopsProc.Parsable (proc : VopsProc) (file : Contents) : Prop :=
  match proc.setInt, proc.intStringMap, proc.setString with
  | some _, some names, _ =>
      Exists fun buffer => file.contents = some buffer ∧ Ended buffer ∧
        (seenLine buffer = file.firstLine ∨
          seenLine buffer ∉ names ∧ file.firstLine ∉ names)
  | some _, none, _ =>
      Exists fun buffer => file.contents = some buffer ∧
        ((10 : Byte) ∈ buffer ∨ ¬ Numeral buffer)
  | none, _, some _ => forall buffer, file.contents = some buffer -> Ended buffer
  | none, _, none => True

/-- The condition for a file of the table. -/
def Parsable (path : Path) (file : Contents) : Prop :=
  forall proc, vopsProcFind path = some proc -> proc.Parsable file

/-- The maps of the table: different names, none with an end of a line in it. -/
theorem vopsProcs_names {path : Path} {proc : VopsProc} {names : List Path}
    (found : vopsProcFind path = some proc) (map : proc.intStringMap = some names) :
    names.Nodup ∧ forall name, name ∈ names -> NameLike name := by
  have whole : forall proc, proc ∈ vopsProcs -> forall names, proc.intStringMap = some names ->
      names.Nodup ∧ forall name, name ∈ names -> NameLike name := by
    decide +kernel
  exact whole proc (List.mem_of_find?_eq_some found) names map

theorem vopsParseIntMap_of_ended {file : Contents} {setter : IntSetter} {names : List Path}
    {buffer : List Byte} (contents : file.contents = some buffer) (ended : Ended buffer)
    (plain : forall name, name ∈ names -> NameLike name) :
    vopsParseIntMap file setter names =
      .ok ((names.findIdx? fun name => seenLine buffer = name).map fun index : Nat =>
        .setInt setter index) := by
  have ends := mem_cleanupFirstLine.mpr ended
  have found := findName_of_mem ends plain 0
  rw [cString_cleanupFirstLine] at found
  simp only [vopsParseIntMap, vopsParseIntRawMap, contents, Option.map_some, found]
  cases names.findIdx? fun name => seenLine buffer = name with
  | none =>
      simp only [reading, readString_of_mem ends]
      rfl
  | some index =>
      simp only [Option.map_some, Nat.zero_add]
      rfl

theorem vopsParseIntMap_ended {file : Contents} {setter : IntSetter} {names : List Path}
    {call : Option SetterCall} (plain : forall name, name ∈ names -> NameLike name)
    (result : vopsParseIntMap file setter names = .ok call) :
    Exists fun buffer => file.contents = some buffer ∧ Ended buffer := by
  cases contents : file.contents with
  | none =>
      cases names <;> simp [vopsParseIntMap, vopsParseIntRawMap, contents, findName, reading,
        bind, Except.bind] at result
  | some buffer =>
      refine ⟨buffer, rfl, by_contra fun endless => ?_⟩
      have endless := mt mem_cleanupFirstLine.mp endless
      simp only [vopsParseIntMap, vopsParseIntRawMap, contents, Option.map_some] at result
      cases raw : findName (some (cleanupFirstLine buffer)) 0 names with
      | error fault => rw [raw] at result; cases result
      | ok found =>
          rw [raw, findName_of_not_mem endless plain raw] at result
          simp only [reading, readString_eq_none_iff.mpr endless] at result
          cases result

/-- The index of a name among different names. -/
private theorem findIdx?_eq_some_iff {names : List Path} (different : names.Nodup) {line : Path}
    {index : Nat} : (names.findIdx? fun name => line = name) = some index ↔
      names[index]? = some line := by
  rw [List.findIdx?_eq_some_iff_getElem]
  constructor
  · rintro ⟨bound, same, -⟩
    rw [List.getElem?_eq_getElem bound, of_decide_eq_true same]
  · intro same
    obtain ⟨bound, same⟩ := List.getElem?_eq_some_iff.mp same
    refine ⟨bound, decide_eq_true same.symm, fun earlier before equal => ?_⟩
    have position := (List.getElem_inj different).mp
      (same.trans (of_decide_eq_true equal))
    omega

private theorem findIdx?_eq_none_iff {names : List Path} {line : Path} :
    (names.findIdx? fun name => line = name) = none ↔ line ∉ names := by
  rw [List.findIdx?_eq_none_iff]
  constructor
  · intro none member
    exact absurd (none line member) (by simp)
  · intro absent name member
    exact decide_eq_false fun same => absent (same ▸ member)

theorem parse_map_iff {path : Path} {file : Contents} {proc : VopsProc} {setter : IntSetter}
    {names : List Path} (found : vopsProcFind path = some proc)
    (number : proc.setInt = some setter) (map : proc.intStringMap = some names) :
    (Exists fun call => proc.parse file = .ok call ∧ CallsNamed path file call) ↔
      Exists fun buffer => file.contents = some buffer ∧ Ended buffer ∧
        (seenLine buffer = file.firstLine ∨
          seenLine buffer ∉ names ∧ file.firstLine ∉ names) := by
  obtain ⟨different, plain⟩ := vopsProcs_names found map
  have parse : proc.parse file = vopsParseIntMap file setter names := by
    simp only [VopsProc.parse, number, map]
  rw [parse]
  constructor
  · rintro ⟨call, result, named⟩
    obtain ⟨buffer, contents, ended⟩ := vopsParseIntMap_ended plain result
    refine ⟨buffer, contents, ended, ?_⟩
    rw [vopsParseIntMap_of_ended contents ended plain] at result
    have called := Except.ok.inj result
    obtain ⟨hit, miss⟩ := named proc setter names found number map
    by_cases member : file.firstLine ∈ names
    · obtain ⟨index, bound, same⟩ := List.getElem_of_mem member
      have wanted := hit index (List.getElem?_eq_some_iff.mpr ⟨bound, same⟩)
      rw [← called, Option.map_eq_some_iff] at wanted
      obtain ⟨seen, position, equal⟩ := wanted
      have index : seen = index := by
        injection equal with _ value
        exact Int.ofNat.inj value
      rw [index, findIdx?_eq_some_iff different] at position
      obtain ⟨_, seen⟩ := List.getElem?_eq_some_iff.mp position
      exact Or.inl (seen.symm.trans same)
    · have none := miss member
      rw [← called, Option.map_eq_none_iff, findIdx?_eq_none_iff] at none
      exact Or.inr ⟨none, member⟩
  · rintro ⟨buffer, contents, ended, line⟩
    refine ⟨_, vopsParseIntMap_of_ended contents ended plain, ?_⟩
    intro other _ _ again otherNumber otherMap
    obtain rfl : proc = other := Option.some.inj (found.symm.trans again)
    obtain rfl : setter = _ := Option.some.inj (number.symm.trans otherNumber)
    obtain rfl : names = _ := Option.some.inj (map.symm.trans otherMap)
    constructor
    · intro index named
      have same : seenLine buffer = file.firstLine := by
        rcases line with same | ⟨-, absent⟩
        · exact same
        · exact absurd (List.mem_of_getElem? named) absent
      rw [(findIdx?_eq_some_iff different).mpr (same ▸ named)]
      rfl
    · intro absent
      have unseen : seenLine buffer ∉ names := by
        rcases line with same | ⟨unseen, -⟩
        · exact same ▸ absent
        · exact unseen
      rw [findIdx?_eq_none_iff.mpr unseen]
      rfl

/-- `atoi` behind the cleaning. -/
theorem atoi_cleanupFirstLine {buffer : List Byte} :
    atoi (cleanupFirstLine buffer) = none ↔ ¬ ((10 : Byte) ∈ buffer ∨ ¬ Numeral buffer) := by
  rw [atoi_eq_none_iff]
  by_cases newline : (10 : Byte) ∈ buffer
  · have ends := mem_cleanupFirstLine.mpr (Or.inl newline)
    simp only [newline, true_or, not_true_eq_false, iff_false]
    exact not_numeral_of_mem ends
  · rw [cleanupFirstLine_eq_self newline]
    simp only [newline, false_or, not_not]

theorem reading_eq_ok_iff {Value : Type} {contents : Option (List Byte)}
    {read : List Byte -> Option Value} {value : Value} :
    reading contents read = .ok value ↔
      Exists fun buffer => contents = some buffer ∧ read buffer = some value := by
  cases contents with
  | none => simp [reading]
  | some buffer => cases inside : read buffer <;> simp [reading, inside]

theorem vopsParseInt_iff {file : Contents} {setter : IntSetter} :
    (Exists fun call => vopsParseInt file setter = .ok call) ↔
      Exists fun buffer => file.contents = some buffer ∧
        ((10 : Byte) ∈ buffer ∨ ¬ Numeral buffer) := by
  constructor
  · rintro ⟨call, result⟩
    cases read : reading (file.contents.map cleanupFirstLine) atoi with
    | error fault => rw [vopsParseInt, read] at result; cases result
    | ok value =>
        obtain ⟨cleaned, held, number⟩ := reading_eq_ok_iff.mp read
        obtain ⟨buffer, contents, rfl⟩ := Option.map_eq_some_iff.mp held
        refine ⟨buffer, contents, by_contra fun endless => ?_⟩
        rw [atoi_cleanupFirstLine.mpr endless] at number
        cases number
  · rintro ⟨buffer, contents, ended⟩
    cases number : atoi (cleanupFirstLine buffer) with
    | none => exact absurd ended (atoi_cleanupFirstLine.mp number)
    | some value =>
        have read : reading (file.contents.map cleanupFirstLine) atoi = .ok value :=
          reading_eq_ok_iff.mpr ⟨_, by rw [contents]; rfl, number⟩
        exact ⟨_, by rw [vopsParseInt, read]; rfl⟩

theorem vopsParseString_iff {file : Contents} {setter : StringSetter} :
    (Exists fun call => vopsParseString file setter = .ok call) ↔
      forall buffer, file.contents = some buffer -> Ended buffer := by
  cases contents : file.contents with
  | none =>
      refine ⟨fun _ _ absent => absurd absent (Option.some_ne_none _).symm, fun _ => ?_⟩
      exact ⟨_, by rw [vopsParseString, contents]; rfl⟩
  | some buffer =>
      constructor
      · rintro ⟨call, result⟩ _ same
        obtain rfl := Option.some.inj same
        by_contra endless
        have unread := readString_eq_none_iff.mpr (mt mem_cleanupFirstLine.mp endless)
        simp only [vopsParseString, contents, Option.map_some, reading, unread] at result
        cases result
      · intro ended
        have ends := mem_cleanupFirstLine.mpr (ended buffer rfl)
        have read : reading (some (cleanupFirstLine buffer)) readString = .ok _ :=
          reading_eq_ok_iff.mpr ⟨_, rfl, readString_of_mem ends⟩
        exact ⟨_, by simp only [vopsParseString, contents, Option.map_some, read]; rfl⟩

/-- A file without a name map has nothing to say about names. -/
theorem callsNamed_of_no_map {path : Path} {proc : VopsProc} {file : Contents}
    {call : Option SetterCall} (found : vopsProcFind path = some proc)
    (plain : proc.setInt = none ∨ proc.intStringMap = none) : CallsNamed path file call := by
  intro other setter names again number map
  obtain rfl : proc = other := Option.some.inj (found.symm.trans again)
  rcases plain with none | none
  · rw [none] at number
    cases number
  · rw [none] at map
    cases map

theorem parse_iff {path : Path} {file : Contents} {proc : VopsProc}
    (found : vopsProcFind path = some proc) :
    (Exists fun call => proc.parse file = .ok call ∧ CallsNamed path file call) ↔
      proc.Parsable file := by
  cases number : proc.setInt with
  | some setter =>
      cases map : proc.intStringMap with
      | some names =>
          rw [parse_map_iff found number map, VopsProc.Parsable, number, map]
      | none =>
          have parse : proc.parse file = vopsParseInt file setter := by
            simp only [VopsProc.parse, number, map]
          simp only [parse, callsNamed_of_no_map found (Or.inr map), and_true,
            vopsParseInt_iff, VopsProc.Parsable, number, map]
  | none =>
      have unnamed {call} : CallsNamed path file call :=
        callsNamed_of_no_map found (Or.inl number)
      cases string : proc.setString with
      | some setter =>
          have parse : proc.parse file = vopsParseString file setter := by
            simp only [VopsProc.parse, number, string]
          simp only [parse, unnamed, and_true, vopsParseString_iff, VopsProc.Parsable, number,
            string]
      | none =>
          have parse : proc.parse file = .ok none := by
            simp only [VopsProc.parse, number, string]
          simp only [parse, unnamed, and_true, VopsProc.Parsable, number, string, iff_true]
          exact ⟨none, rfl⟩

/-- Whatever was written to a virtual file, its release parses it rightly exactly when
the buffer is parsable: it is there and what is read of it ends in it. -/
theorem writes_parsedRightly_iff (path : Path) (file : Contents) (calls : List Write) :
    ParsedRightly path (file.writes calls) ↔ Parsable path (file.writes calls) := by
  cases found : vopsProcFind path with
  | none =>
      constructor
      · intro _ proc other
        rw [found] at other
        cases other
      · intro _
        refine ⟨none, by rw [releaseMfile, if_pos rfl, vopsParse, found], ?_⟩
        intro proc _ _ other
        rw [found] at other
        cases other
  | some proc =>
      have only : Parsable path (file.writes calls) ↔ proc.Parsable (file.writes calls) := by
        constructor
        · exact fun all => all proc found
        · intro parsable other again
          obtain rfl : proc = other := Option.some.inj (found.symm.trans again)
          exact parsable
      rw [only, ← parse_iff found, ParsedRightly]
      simp only [releaseMfile, if_true, vopsParse, found]

/-- A handle that is opened for writing on a fresh file and released at once. -/
theorem release_reads_null :
    ¬ (forall (path : Path) (file : Contents) (calls : List Write),
      ParsedRightly path (file.writes calls)) := by
  intro always
  obtain ⟨call, result, -⟩ := always (ascii "/.mcachefs/read_state") Contents.empty []
  have fault : releaseMfile (ascii "/.mcachefs/read_state") Contents.empty true =
      .error .nullContents := by decide +kernel
  rw [Contents.writes, List.foldl_nil, fault] at result
  cases result

end VopsFile

end Mcachefs
