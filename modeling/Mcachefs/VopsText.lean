import Mcachefs.Config

namespace Mcachefs

open Library

namespace VopsFile

/-!
# The text of a virtual file

Opening a file of `.mcachefs` for reading prints the value of its entry in
`vops_procs` into a buffer that grows until the text fits.  `mcachefs_read_vops`
hands that buffer out in pieces.  A user who writes back what was read has
`mcachefs_vops_parse` read it again.
-/

/-! ## Printing -/

/-- The calls of `Bug` in `__VOPS_WRITE`, and the end of the fuel. -/
inductive PrintFault
  | noMemory
  | fuel
  deriving DecidableEq, Repr

/-- `snprintf` at the end of the contents, into what room there is. -/
def Contents.print (file : Contents) (text : List Byte) : Contents :=
  let room := file.contentsAlloced - file.contentsSize
  let printed := if room = 0 then [] else text.take (room - 1) ++ [0]
  have fits : file.contentsSize + printed.length ≤ file.contentsAlloced := by
    have sized := file.sized
    have short := List.length_take_le (room - 1) text
    by_cases none : room = 0
    · simp only [printed, if_pos none, List.length_nil]
      omega
    · simp only [printed, if_neg none, List.length_append, List.length_singleton]
      omega
  { contents := file.contents.map fun contents => memcpy contents file.contentsSize printed
    contentsAlloced := file.contentsAlloced
    contentsSize := file.contentsSize
    alloced := by
      have alloced := file.alloced
      cases contents : file.contents with
      | none =>
          rw [alloced, contents]
          rfl
      | some held =>
          rw [contents] at alloced
          exact alloced.trans (memcpy_length (alloced ▸ fits)).symm
    sized := file.sized }

/-- `realloc`, where `held` is what the new bytes are. -/
def Contents.enlarge (file : Contents) (more : Nat) (held : Nat -> Byte) : Contents where
  contents := some (grow (file.contents.getD []) (file.contentsAlloced + more) held)
  contentsAlloced := file.contentsAlloced + more
  contentsSize := file.contentsSize
  alloced := by
    have alloced := file.alloced
    simp only [Option.getD_some, grow_length]
    omega
  sized := Nat.le_add_right_of_le file.sized

/-- `__VOPS_WRITE` to a file; `realloc` is `none` where it returns `NULL`. -/
def Contents.vopsWrite (realloc : Option (Nat -> Byte)) (text : List Byte) :
    (fuel : Nat) -> Contents -> Except PrintFault Contents
  | 0, _ => .error .fuel
  | fuel + 1, file =>
      let wrb := text.length
      let printed := file.print text
      if room : wrb < file.contentsAlloced - file.contentsSize then
        .ok { printed with
          contentsSize := file.contentsSize + wrb
          sized := by
            have sized := file.sized
            simp only [printed, Contents.print]
            omega }
      else
        match realloc with
        | none => .error .noMemory
        | some held => vopsWrite realloc text fuel (printed.enlarge (wrb * 2) held)

/-- What the getters of the entries return, each under the name of the setter of its entry. -/
structure Values where
  int : IntSetter -> Int
  string : StringSetter -> Option Path
  /-- The texts that the dump functions print. -/
  externBuild : Path -> List (List Byte)
  range : forall setter, - 2 ^ 31 ≤ int setter ∧ int setter < 2 ^ 31
  plain : forall setter value, string setter = some value -> NameLike value

/-- The digits of a number, as in `%d`. -/
def digits (value : Nat) : List Byte :=
  if value < 10 then [UInt8.ofNat (48 + value)]
  else digits (value / 10) ++ [UInt8.ofNat (48 + value % 10)]

/-- `%d`. -/
def decimal (value : Int) : List Byte :=
  if value < 0 then 45 :: digits value.natAbs else digits value.natAbs

/-- The texts that `vops_build_int_map` prints, from one of the names on. -/
def vopsBuildIntMap (value : Int) : (valueindex : Nat) -> (names : List Path) -> List (List Byte)
  | _, [] => [[10]]
  | valueindex, name :: names =>
      (if valueindex = 0 then [] else [ascii " "]) ++
        (if value = valueindex then [ascii "["] else []) ++ [name] ++
        (if value = valueindex then [ascii "]"] else []) ++
        vopsBuildIntMap value (valueindex + 1) names

/-- The text that `vops_build_int` prints. -/
def vopsBuildInt (value : Int) : List (List Byte) :=
  [decimal value ++ [10]]

/-- The text that `vops_build_string` prints. -/
def vopsBuildString : (value : Option Path) -> List (List Byte)
  | some value => [value ++ [10]]
  | none => [[10]]

/-- The texts for one entry, which has a getter where it has a setter. -/
def VopsProc.texts (proc : VopsProc) (values : Values) : List (List Byte) :=
  match proc.setInt, proc.setString with
  | some setter, _ =>
      match proc.intStringMap with
      | some names => vopsBuildIntMap (values.int setter) 0 names
      | none => vopsBuildInt (values.int setter)
  | none, some setter => vopsBuildString (values.string setter)
  | none, none => values.externBuild proc.name

/-- `mcachefs_vops_build`. -/
def vopsBuild (fuel : Nat) (realloc : Option (Nat -> Byte)) (path : Path) (values : Values)
    (file : Contents) : Except PrintFault Contents :=
  if file.contents.isSome then .ok file
  else
    match vopsProcFind path with
    | none => .ok file
    | some proc =>
        (proc.texts values).foldlM (fun file text => file.vopsWrite realloc text fuel) file

/-- `mcachefs_read_vops`. -/
def Contents.readVops (file : Contents) (size offset : Nat) : List Byte :=
  match file.contents with
  | none => []
  | some contents =>
      if file.contentsSize ≤ offset then []
      else (contents.drop offset).take (min size (file.contentsSize - offset))

/-! ## What is printed -/

/-- The file holds this text, and one byte more than it if there is any. -/
structure Prints (file : Contents) (text : List Byte) : Prop where
  front : (file.contents.getD []).take file.contentsSize = text
  size : file.contentsSize = text.length
  room : text ≠ [] -> file.contentsSize < file.contentsAlloced

theorem empty_prints : Prints Contents.empty [] :=
  ⟨rfl, rfl, fun some => absurd rfl some⟩

theorem memcpy_take {contents buf : List Byte} {offset : Nat} (inside : offset ≤ contents.length) :
    (memcpy contents offset buf).take offset = contents.take offset := by
  rw [memcpy, List.take_append_of_le_length (by simp [inside]), List.take_take, min_self]

theorem Contents.print_take (file : Contents) (text : List Byte) :
    ((file.print text).contents.getD []).take file.contentsSize =
      (file.contents.getD []).take file.contentsSize := by
  have alloced := file.alloced
  have sized := file.sized
  simp only [Contents.print]
  cases contents : file.contents with
  | none => rfl
  | some held =>
      rw [contents, Option.getD_some] at alloced
      exact memcpy_take (alloced ▸ sized)

/-- A text for which there is room is printed whole. -/
theorem Contents.print_whole (file : Contents) {text : List Byte}
    (room : text.length < file.contentsAlloced - file.contentsSize) :
    ((file.print text).contents.getD []).take (file.contentsSize + text.length) =
      (file.contents.getD []).take file.contentsSize ++ text := by
  have alloced := file.alloced
  have some : file.contentsAlloced - file.contentsSize ≠ 0 := by omega
  simp only [Contents.print, if_neg some]
  rw [List.take_of_length_le (Nat.le_sub_one_of_lt room)]
  cases contents : file.contents with
  | none =>
      rw [contents] at alloced
      simp only [Option.getD_none, List.length_nil] at alloced
      omega
  | some held =>
      rw [contents, Option.getD_some] at alloced
      have front : (held.take file.contentsSize ++ text).length =
          file.contentsSize + text.length := by
        rw [List.length_append, List.length_take]
        omega
      simp only [Option.map_some, Option.getD_some, memcpy, List.append_assoc]
      rw [← List.append_assoc, ← front, List.take_left]

theorem Contents.vopsWrite_fits {file : Contents} {text more : List Byte}
    (prints : Prints file text) (room : more.length < file.contentsAlloced - file.contentsSize)
    (held : Nat -> Byte) (fuel : Nat) : Exists fun next =>
      file.vopsWrite (some held) more (fuel + 1) = .ok next ∧ Prints next (text ++ more) := by
  rw [Contents.vopsWrite]
  simp only [dif_pos room]
  refine ⟨_, rfl, ?_, ?_, fun _ => ?_⟩
  · exact (file.print_whole room).trans (by rw [prints.front])
  · rw [List.length_append, ← prints.size]
  · show file.contentsSize + more.length < file.contentsAlloced
    omega

/-- `__VOPS_WRITE` takes at most one `realloc` and adds the text to what is there. -/
theorem Contents.vopsWrite_prints {file : Contents} {text more : List Byte}
    (prints : Prints file text) (present : more ≠ []) (held : Nat -> Byte) (fuel : Nat) :
    Exists fun next => file.vopsWrite (some held) more (fuel + 2) = .ok next ∧
      Prints next (text ++ more) := by
  by_cases room : more.length < file.contentsAlloced - file.contentsSize
  · exact file.vopsWrite_fits prints room _ _
  · rw [Contents.vopsWrite]
    simp only [dif_neg room]
    have positive := List.length_pos_iff.mpr present
    have sized := file.sized
    have again : Prints ((file.print more).enlarge (more.length * 2) held) text := by
      refine ⟨?_, prints.size, fun _ => ?_⟩
      · have inside : file.contentsSize ≤ ((file.print more).contents.getD []).length := by
          rw [← (file.print more).alloced]
          exact sized
        show (grow ((file.print more).contents.getD []) _ held).take file.contentsSize = text
        rw [grow, List.take_append_of_le_length inside, file.print_take, prints.front]
      · show file.contentsSize < file.contentsAlloced + more.length * 2
        omega
    refine vopsWrite_fits again ?_ _ _
    show more.length < file.contentsAlloced + more.length * 2 - file.contentsSize
    omega

theorem vopsWrites_prints {file : Contents} {text : List Byte} (prints : Prints file text)
    (texts : List (List Byte)) (present : forall more, more ∈ texts -> more ≠ [])
    (held : Nat -> Byte) (fuel : Nat) : Exists fun next =>
      texts.foldlM (fun file text => file.vopsWrite (some held) text (fuel + 2)) file = .ok next ∧
        Prints next (text ++ texts.flatten) := by
  induction texts generalizing file text with
  | nil => exact ⟨file, rfl, by rwa [List.flatten_nil, List.append_nil]⟩
  | cons more texts inductionHypothesis =>
      obtain ⟨middle, written, printed⟩ := file.vopsWrite_prints prints
        (present more List.mem_cons_self) held fuel
      obtain ⟨next, rest, all⟩ := inductionHypothesis printed
        fun other member => present other (List.mem_cons_of_mem _ member)
      refine ⟨next, ?_, by rwa [List.flatten_cons, ← List.append_assoc]⟩
      rw [List.foldlM_cons, written]
      exact rest

/-! ## Numbers -/

theorem digits_of_lt {value : Nat} (one : value < 10) :
    digits value = [UInt8.ofNat (48 + value)] := by
  rw [digits, if_pos one]

theorem digits_of_ge {value : Nat} (more : ¬ value < 10) :
    digits value = digits (value / 10) ++ [UInt8.ofNat (48 + value % 10)] := by
  rw [digits, if_neg more]

theorem toNat_digit {digit : Nat} (one : digit < 10) :
    (UInt8.ofNat (48 + digit)).toNat = 48 + digit := by
  rw [UInt8.toNat_ofNat']
  omega

theorem isDigit_digit {digit : Nat} (one : digit < 10) :
    isDigit (UInt8.ofNat (48 + digit)) = true := by
  have byte := toNat_digit one
  simp only [isDigit, UInt8.le_iff_toNat_le, decide_eq_true_eq, byte]
  exact ⟨Nat.le_add_right 48 digit, show 48 + digit ≤ 57 by omega⟩

theorem digits_ne_nil (value : Nat) : digits value ≠ [] := by
  by_cases one : value < 10
  · rw [digits_of_lt one]
    exact List.cons_ne_nil _ _
  · rw [digits_of_ge one]
    exact List.append_ne_nil_of_right_ne_nil _ (List.cons_ne_nil _ _)

theorem isDigit_of_mem {value : Nat} {byte : Byte} (member : byte ∈ digits value) :
    isDigit byte = true := by
  induction value using Nat.strong_induction_on with
  | _ value inductionHypothesis =>
      by_cases one : value < 10
      · rw [digits_of_lt one, List.mem_singleton] at member
        exact member ▸ isDigit_digit one
      · rw [digits_of_ge one, List.mem_append, List.mem_singleton] at member
        rcases member with before | rfl
        · exact inductionHypothesis (value / 10) (by omega) before
        · exact isDigit_digit (Nat.mod_lt value (by decide))

/-- The digits of a number are read as the number. -/
theorem strtolDigits_digits (value : Nat) (start : Nat) (rest : List Byte) :
    strtolDigits start (digits value ++ rest) =
      strtolDigits (start * 10 ^ (digits value).length + value) rest := by
  induction value using Nat.strong_induction_on generalizing rest with
  | _ value inductionHypothesis =>
      have last (start digit : Nat) (small : digit < 10) (rest : List Byte) :
          strtolDigits start (UInt8.ofNat (48 + digit) :: rest) =
            strtolDigits (10 * start + digit) rest := by
        rw [strtolDigits, if_pos (isDigit_digit small), toNat_digit small,
          Nat.add_sub_cancel_left]
      by_cases one : value < 10
      · rw [digits_of_lt one, List.singleton_append, last start value one, List.length_singleton,
          Nat.pow_one, Nat.mul_comm]
      · rw [digits_of_ge one, List.append_assoc, List.singleton_append,
          inductionHypothesis (value / 10) (by omega), last _ _ (Nat.mod_lt value (by decide)),
          List.length_append, List.length_singleton, Nat.pow_succ]
        congr 1
        have split := Nat.div_add_mod value 10
        rw [Nat.mul_add, Nat.mul_comm 10 (start * _), Nat.mul_assoc, Nat.add_assoc, split]

theorem atoi_decimal {value : Int} (least : - 2 ^ 31 ≤ value) (greatest : value < 2 ^ 31)
    (rest : List Byte) : atoi (decimal value ++ 0 :: rest) = some value := by
  have read (start : Nat) : strtolDigits start (digits value.natAbs ++ 0 :: rest) =
      some (start * 10 ^ (digits value.natAbs).length + value.natAbs) := by
    rw [strtolDigits_digits]
    rfl
  have first := read 0
  rw [Nat.zero_mul, Nat.zero_add] at first
  have whole {number : Int} (same : number = value) : number.bmod (2 ^ 32) = value := by
    rw [same]
    exact Int.bmod_eq_of_le least greatest
  unfold decimal
  by_cases negative : value < 0
  · rw [if_pos negative, List.cons_append, atoi, if_neg (by decide), strtolNumber, if_pos rfl, first,
      Option.map_some, Option.map_some, whole (by omega)]
  · rw [if_neg negative]
    obtain ⟨byte, others, here⟩ := List.exists_cons_of_ne_nil (digits_ne_nil value.natAbs)
    have digit : isDigit byte = true := isDigit_of_mem (here ▸ List.mem_cons_self)
    rw [here] at first ⊢
    have notSpace : ¬ isSpace byte = true := by
      simp only [isDigit, isSpace, UInt8.le_iff_toNat_le, decide_eq_true_eq,
        ← UInt8.toNat_inj] at digit ⊢
      have least : 48 ≤ byte.toNat := digit.1
      have bounds : ¬ (byte.toNat = 32 ∨ 9 ≤ byte.toNat ∧ byte.toNat ≤ 13) := by omega
      exact bounds
    have notMinus : byte ≠ 45 := by
      rintro rfl
      exact absurd digit (by decide)
    have notPlus : byte ≠ 43 := by
      rintro rfl
      exact absurd digit (by decide)
    rw [List.cons_append, atoi, if_neg notSpace, strtolNumber, if_neg notMinus, if_neg notPlus,
      ← List.cons_append, first, Option.map_some, Option.map_some, whole (by omega)]

/-! ## Reading and writing in pieces -/

/-- What a reader gets who asks for so many bytes at a time, each time behind what it has. -/
def Contents.readPieces (file : Contents) : (offset : Nat) -> (sizes : List Nat) -> List Byte
  | _, [] => []
  | offset, size :: sizes =>
      let piece := file.readVops size offset
      piece ++ file.readPieces (offset + piece.length) sizes

/-- The calls that write pieces one behind the other. -/
def consecutive (realloc : Option (Nat -> Byte)) : (offset : Nat) -> List (List Byte) -> List Write
  | _, [] => []
  | offset, piece :: pieces =>
      ⟨piece, offset, realloc⟩ :: consecutive realloc (offset + piece.length) pieces

theorem Contents.readVops_eq (file : Contents) (size offset : Nat) :
    file.readVops size offset =
      (((file.contents.getD []).take file.contentsSize).drop offset).take size := by
  have alloced := file.alloced
  have sized := file.sized
  unfold Contents.readVops
  cases contents : file.contents with
  | none => simp
  | some held =>
      rw [contents, Option.getD_some] at alloced
      simp only [Option.getD_some]
      rw [List.drop_take, List.take_take]
      split
      · next behind =>
          rw [Nat.sub_eq_zero_of_le behind, Nat.min_zero, List.take_zero]
      · rfl

/-- A reader gets the text whole if it asks for enough. -/
theorem Contents.readPieces_eq (file : Contents) (offset : Nat) (sizes : List Nat) :
    file.readPieces offset sizes =
      (((file.contents.getD []).take file.contentsSize).drop offset).take sizes.sum := by
  induction sizes generalizing offset with
  | nil => simp [Contents.readPieces]
  | cons size sizes inductionHypothesis =>
      simp only [Contents.readPieces]
      rw [inductionHypothesis, file.readVops_eq, List.sum_cons, List.take_add, List.length_take,
        ← List.drop_drop]
      congr 1
      by_cases less : size ≤ (((file.contents.getD []).take file.contentsSize).drop offset).length
      · rw [Nat.min_eq_left less]
      · have more := Nat.le_of_lt (not_le.mp less)
        rw [Nat.min_eq_right more, List.drop_length, List.drop_of_length_le more]

theorem memcpy_behind {before buf contents : List Byte} (front : contents.take before.length = before)
    (room : contents.length ≤ before.length + buf.length) :
    memcpy contents before.length buf = before ++ buf := by
  rw [memcpy, front, List.drop_of_length_le room, List.append_nil]

/-- A piece that is written behind all there is. -/
theorem writeVops_behind (held : Nat -> Byte) (piece : List Byte) {file : Contents}
    {before : List Byte} (contents : file.contents.getD [] = before)
    (whole : file.contentsSize = before.length) :
    ((file.writeVops ⟨piece, before.length, some held⟩).1.contents.getD []) = before ++ piece ∧
      (file.writeVops ⟨piece, before.length, some held⟩).1.contentsSize =
        (before ++ piece).length := by
  have alloced := file.alloced
  rw [contents] at alloced
  rw [List.length_append]
  simp only [Contents.writeVops]
  split
  · next room =>
      have none : piece = [] := by
        apply List.eq_nil_of_length_eq_zero
        omega
      subst none
      simp only [Contents.put, whole, List.append_nil, List.length_nil, Nat.add_zero, max_self,
        and_true]
      cases here : file.contents with
      | none => rwa [here] at contents
      | some held =>
          rw [here, Option.getD_some] at contents
          subst contents
          simp only [Option.map_some, Option.getD_some, memcpy, List.length_nil, Nat.add_zero,
            List.nil_append, List.take_append_drop]
  · next room =>
      simp only [Contents.put, Option.map_some, Option.getD_some, whole, contents]
      refine ⟨memcpy_behind ?_ ?_, Nat.max_eq_right (Nat.le_add_right _ _)⟩
      · rw [grow, List.take_left]
      · rw [grow_length]
        omega

/-- A file to which pieces are written one behind the other holds all of them. -/
theorem writes_consecutive (held : Nat -> Byte) (pieces : List (List Byte)) {file : Contents}
    {before : List Byte} (contents : file.contents.getD [] = before)
    (whole : file.contentsSize = before.length) :
    ((file.writes (consecutive (some held) before.length pieces)).contents.getD []) =
      before ++ pieces.flatten := by
  induction pieces generalizing file before with
  | nil => rwa [List.flatten_nil, List.append_nil]
  | cons piece pieces inductionHypothesis =>
      obtain ⟨written, size⟩ := writeVops_behind held piece contents whole
      rw [List.flatten_cons, ← List.append_assoc, ← inductionHypothesis written size,
        List.length_append]
      rfl

/-! ## Writing back what was read -/

theorem cleanupFirstLine_line {line : Path} (plain : NameLike line) (rest : List Byte) :
    cleanupFirstLine (line ++ 10 :: rest) = line ++ 0 :: rest := by
  induction line with
  | nil => rfl
  | cons byte line inductionHypothesis =>
      obtain ⟨noNewline, noNul⟩ := plain
      simp only [List.mem_cons, not_or] at noNewline noNul
      rw [List.cons_append, cleanupFirstLine, if_neg (Ne.symm noNewline.1),
        inductionHypothesis ⟨noNewline.2, noNul.2⟩]
      rfl

/-- The setter call that would leave the value as it is, where the file is parsed as one. -/
def VopsProc.same (proc : VopsProc) (values : Values) : Option SetterCall :=
  match proc.setInt, proc.setString with
  | some setter, _ =>
      match proc.intStringMap with
      | some _ => none
      | none => some (.setInt setter (values.int setter))
  | none, some setter => some (.setString setter (some ((values.string setter).getD [])))
  | none, none => none

theorem nameLike_append {front back : Path} :
    NameLike (front ++ back) ↔ NameLike front ∧ NameLike back := by
  simp only [NameLike, List.mem_append, not_or]
  exact and_and_and_comm

/-- A list of names is one line, with a blank in it if there are several names. -/
theorem vopsBuildIntMap_line (value : Int) {names : List Path} (valueindex : Nat)
    (plain : forall name, name ∈ names -> NameLike name ∧ name ≠ []) :
    Exists fun line => (vopsBuildIntMap value valueindex names).flatten = line ++ [10] ∧
      NameLike line ∧
      (forall text, text ∈ vopsBuildIntMap value valueindex names -> text ≠ []) ∧
      (names ≠ [] -> 2 ≤ valueindex + names.length -> (32 : Byte) ∈ line) := by
  induction names generalizing valueindex with
  | nil =>
      refine ⟨[], rfl, by decide, fun text member => ?_, fun some => absurd rfl some⟩
      exact List.mem_singleton.mp member ▸ by decide
  | cons name names inductionHypothesis =>
      obtain ⟨rest, text, restPlain, present, blank⟩ := inductionHypothesis (valueindex + 1)
        fun other member => plain other (List.mem_cons_of_mem _ member)
      obtain ⟨own, some⟩ := plain name List.mem_cons_self
      let front := (if valueindex = 0 then [] else [ascii " "]) ++
        (if value = valueindex then [ascii "["] else []) ++ [name] ++
        (if value = valueindex then [ascii "]"] else [])
      have frontPlain : NameLike front.flatten := by
        simp only [front, List.flatten_append, List.flatten_singleton, nameLike_append]
        refine ⟨⟨⟨?_, ?_⟩, own⟩, ?_⟩ <;> split <;> decide
      have frontPresent : forall text, text ∈ front -> text ≠ [] := by
        intro text member
        simp only [front, List.mem_append, List.mem_singleton] at member
        rcases member with ((member | member) | rfl) | member
        · split at member
          · exact absurd member List.not_mem_nil
          · exact List.mem_singleton.mp member ▸ by decide
        · split at member
          · exact List.mem_singleton.mp member ▸ by decide
          · exact absurd member List.not_mem_nil
        · exact some
        · split at member
          · exact List.mem_singleton.mp member ▸ by decide
          · exact absurd member List.not_mem_nil
      have whole : vopsBuildIntMap value valueindex (name :: names) =
          front ++ vopsBuildIntMap value (valueindex + 1) names := rfl
      refine ⟨front.flatten ++ rest, ?_, nameLike_append.mpr ⟨frontPlain, restPlain⟩, ?_, ?_⟩
      · rw [whole, List.flatten_append, text, List.append_assoc]
      · intro text member
        rw [whole, List.mem_append] at member
        exact member.elim (frontPresent text) (present text)
      · intro _ several
        rw [List.length_cons] at several
        by_cases first : valueindex = 0
        · have others : names ≠ [] := by
            rintro rfl
            simp only [List.length_nil] at several
            omega
          exact List.mem_append_right _ (blank others (by omega))
        · apply List.mem_append_left
          simp only [front, if_neg first, List.flatten_append, List.flatten_singleton,
            List.mem_append]
          exact Or.inl (Or.inl (Or.inl (by decide)))

/-- The names of a table are short words, and there are several of them. -/
theorem vopsProcs_several {path : Path} {proc : VopsProc} {names : List Path}
    (found : vopsProcFind path = some proc) (map : proc.intStringMap = some names) :
    2 ≤ names.length ∧ forall name, name ∈ names -> name ≠ [] ∧ (32 : Byte) ∉ name := by
  have table : forall other, other ∈ vopsProcs -> forall words, other.intStringMap = some words ->
      2 ≤ words.length ∧ forall name, name ∈ words -> name ≠ [] ∧ (32 : Byte) ∉ name := by
    decide
  exact table proc (List.mem_of_find?_eq_some found) names map

theorem decimal_plain (value : Int) : NameLike (decimal value) := by
  have plain (number : Nat) : NameLike (digits number) := by
    constructor
    · exact fun member => absurd (isDigit_of_mem member) (by decide)
    · exact fun member => absurd (isDigit_of_mem member) (by decide)
  unfold decimal
  split
  · exact nameLike_append.mpr ⟨(by decide : NameLike [45]), plain _⟩
  · exact plain _

/-- What the parser is to make of the line of a settable entry. -/
def VopsProc.Shows (proc : VopsProc) (values : Values) (line : Path) : Prop :=
  match proc.setInt, proc.setString with
  | some setter, _ =>
      match proc.intStringMap with
      | some names => line ∉ names
      | none => line = decimal (values.int setter)
  | none, some setter => line = (values.string setter).getD []
  | none, none => True

/-- What a settable entry prints is one line. -/
theorem texts_line {path : Path} {proc : VopsProc} (found : vopsProcFind path = some proc)
    (values : Values) (settable : proc.setInt ≠ none ∨ proc.setString ≠ none) :
    Exists fun line => (proc.texts values).flatten = line ++ [10] ∧ NameLike line ∧
      (forall text, text ∈ proc.texts values -> text ≠ []) ∧ proc.Shows values line := by
  unfold VopsProc.texts VopsProc.Shows
  cases number : proc.setInt with
  | some setter =>
      cases map : proc.intStringMap with
      | some names =>
          obtain ⟨several, words⟩ := vopsProcs_several found map
          have plain := (vopsProcs_names found map).2
          obtain ⟨line, text, linePlain, present, blank⟩ :=
            vopsBuildIntMap_line (values.int setter) 0
              fun name member => ⟨plain name member, (words name member).1⟩
          refine ⟨line, text, linePlain, present, fun member => (words line member).2 (blank ?_ ?_)⟩
          · rintro rfl
            exact absurd several (by decide)
          · omega
      | none =>
          refine ⟨decimal (values.int setter), List.flatten_singleton, decimal_plain _,
            fun text member => ?_, rfl⟩
          exact List.mem_singleton.mp member ▸ List.append_ne_nil_of_right_ne_nil _ (by decide)
  | none =>
      cases string : proc.setString with
      | none => exact absurd settable (by simp [number, string])
      | some setter =>
          dsimp only
          cases value : values.string setter with
          | none =>
              refine ⟨[], rfl, by decide, fun text member => ?_, rfl⟩
              exact List.mem_singleton.mp member ▸ by decide
          | some line =>
              refine ⟨line, List.flatten_singleton, values.plain setter line value,
                fun text member => ?_, rfl⟩
              exact List.mem_singleton.mp member ▸ List.append_ne_nil_of_right_ne_nil _ (by decide)

/-- The parser on a line that is there as a whole. -/
theorem parse_line {path : Path} {proc : VopsProc} (found : vopsProcFind path = some proc)
    {values : Values} {line : Path} (plain : NameLike line) (shows : proc.Shows values line)
    {file : Contents} (contents : file.contents = some (line ++ [10])) :
    releaseMfile path file true = .ok (proc.same values) := by
  have cleaned : file.contents.map cleanupFirstLine = some (line ++ [0]) := by
    rw [contents, Option.map_some, cleanupFirstLine_line plain]
  have seen : seenLine (line ++ [10]) = line := by
    rw [← cString_cleanupFirstLine, cleanupFirstLine_line plain, cString_append_zero plain.2]
  rw [releaseMfile, if_pos rfl, vopsParse, found]
  unfold VopsProc.parse VopsProc.same
  unfold VopsProc.Shows at shows
  cases number : proc.setInt with
  | some setter =>
      rw [number] at shows
      cases map : proc.intStringMap with
      | some names =>
          rw [map] at shows
          have ended : Ended (line ++ [10]) := Or.inl (List.mem_append_right _ (by decide))
          have nowhere : (names.findIdx? fun name => decide (line = name)) = none := by
            rw [List.findIdx?_eq_none_iff]
            exact fun name member => decide_eq_false fun same => shows (same ▸ member)
          simp only [vopsParseIntMap_of_ended contents ended (vopsProcs_names found map).2, seen,
            nowhere, Option.map_none, number, map]
      | none =>
          simp only [map] at shows
          obtain ⟨least, greatest⟩ := values.range setter
          simp only [vopsParseInt, cleaned, reading, shows, atoi_decimal least greatest, number, map]
          rfl
  | none =>
      cases string : proc.setString with
      | none => simp only [number, string]
      | some setter =>
          simp only [number, string] at shows
          have ends : (0 : Byte) ∈ line ++ [0] := List.mem_append_right _ (by decide)
          simp only [vopsParseString, cleaned, reading, readString_of_mem ends,
            cString_append_zero plain.2, ← shows, number, string]
          rfl

/-- Writing back what a file shows sets the value that it has, or nothing: a list of names is not
taken for a name. -/
theorem written_back (values : Values) (held : Nat -> Byte) (path : Path) (proc : VopsProc)
    (found : vopsProcFind path = some proc)
    (settable : proc.setInt ≠ none ∨ proc.setString ≠ none) (fuel : Nat) :
    Exists fun shown =>
      vopsBuild (fuel + 2) (some held) path values Contents.empty = .ok shown ∧
        forall sizes pieces again, shown.contentsSize ≤ sizes.sum ->
          pieces.flatten = shown.readPieces 0 sizes ->
            releaseMfile path (Contents.empty.writes (consecutive (some again) 0 pieces)) true =
              .ok (proc.same values) := by
  obtain ⟨line, text, plain, present, kind⟩ := texts_line found values settable
  obtain ⟨shown, built, prints⟩ := vopsWrites_prints empty_prints (proc.texts values) present held
    fuel
  rw [List.nil_append, text] at prints
  refine ⟨shown, ?_, fun sizes pieces again all same => ?_⟩
  · rw [vopsBuild, if_neg (by decide), found]
    exact built
  · have written : pieces.flatten = line ++ [10] := by
      rw [same, shown.readPieces_eq, List.drop_zero, List.take_of_length_le, prints.front]
      rw [List.length_take]
      omega
    have empty : Contents.empty.contents.getD [] = [] := rfl
    have holds := writes_consecutive again pieces empty rfl
    rw [List.nil_append, written, List.length_nil] at holds
    refine parse_line found plain kind ?_
    cases contents : (Contents.empty.writes (consecutive (some again) 0 pieces)).contents with
    | none =>
        rw [contents, Option.getD_none] at holds
        exact absurd holds.symm (by simp)
    | some buffer =>
        rw [contents, Option.getD_some] at holds
        rw [holds]

/-- A file for a time to live, read in pieces of four bytes and written back in one. -/
theorem written_back_fileTtl :
    Exists fun shown =>
      vopsBuild 2 (some fun _ => 0) (ascii "/.mcachefs/file_ttl")
        ⟨fun _ => -300, fun _ => none, fun _ => [], fun _ => by decide, nofun⟩ Contents.empty =
          .ok shown ∧
        forall sizes pieces again, shown.contentsSize ≤ sizes.sum ->
          pieces.flatten = shown.readPieces 0 sizes ->
            releaseMfile (ascii "/.mcachefs/file_ttl")
              (Contents.empty.writes (consecutive (some again) 0 pieces)) true =
                .ok (some (.setInt .setFileTtl (-300))) :=
  written_back ⟨fun _ => -300, fun _ => none, fun _ => [], fun _ => by decide, nofun⟩ (fun _ => 0)
    (ascii "/.mcachefs/file_ttl") ⟨ascii "file_ttl", some .setFileTtl, none, none⟩ rfl
    (Or.inl (by decide)) 0

/-! ## The cache prefix -/

/-- A prefix that the setter leaves as it is. -/
def Settled (mountpoint cachePrefix : Path) : Prop :=
  cachePrefix ≠ [] ∧ (mountpoint <+: cachePrefix -> mountpoint = []) ∧ ¬ [slash] <:+ cachePrefix

theorem setCachePrefix_keeps_iff {config : Config} {given : Path} (noNul : (0 : Byte) ∉ given) :
    (Exists fun after => config.setCachePrefix (some given) = some after ∧
      after.getCachePrefix = some given) ↔ Settled config.mountpoint given := by
  by_cases nothing : given = config.mountpoint ∨ given = []
  · rw [setCachePrefix_eq_none nothing]
    constructor
    · rintro ⟨after, result, -⟩
      cases result
    · rintro ⟨present, own, -⟩
      have same := nothing.resolve_right present
      exact absurd (same.trans (own (same ▸ List.prefix_rfl))) present
  obtain ⟨other, present⟩ := not_or.mp nothing
  have kept {stored : Path} {after : Config}
      (result : config.setCachePrefix (some given) = some after)
      (seen : after.getCachePrefix = some stored) :
      (Exists fun after => config.setCachePrefix (some given) = some after ∧
        after.getCachePrefix = some given) ↔ stored = given := by
    constructor
    · rintro ⟨again, sameResult, sameSeen⟩
      obtain rfl := Option.some.inj (result.symm.trans sameResult)
      exact Option.some.inj (seen.symm.trans sameSeen)
    · rintro rfl
      exact ⟨after, result, seen⟩
  by_cases based : config.mountpoint <+: given ∧ config.mountpoint ≠ []
  · obtain ⟨⟨rest, whole⟩, own⟩ := based
    have behind : (if config.mountpoint <+: given then given.drop config.mountpoint.length
        else given) = rest := by
      rw [if_pos ⟨rest, whole⟩, ← whole, List.drop_left]
    have left : rest ≠ [] := by
      rintro rfl
      exact other (whole.symm.trans (List.append_nil _))
    have solid : (0 : Byte) ∉ rest := fun member => noNul (whole ▸ List.mem_append_right _ member)
    obtain ⟨after, result, stored, seen, trimmed⟩ := setCachePrefix_trimmed left solid behind
    rw [kept result seen]
    constructor
    · rintro rfl
      have short := trimmed.length
      have long := congrArg List.length whole
      have some := List.length_pos_of_ne_nil own
      rw [List.length_append] at long
      omega
    · exact fun settled => absurd (settled.2.1 ⟨rest, whole⟩) own
  · have same : (if config.mountpoint <+: given then given.drop config.mountpoint.length
        else given) = given := by
      split
      · next front =>
          rw [not_not.mp fun own => based ⟨front, own⟩]
          rfl
      · rfl
    obtain ⟨after, result, stored, seen, trimmed⟩ := setCachePrefix_trimmed present noNul same
    rw [kept result seen]
    constructor
    · rintro rfl
      exact ⟨present, fun front => not_not.mp fun own => based ⟨front, own⟩,
        (trimmed.resolve_left (by simp)).2⟩
    · intro settled
      exact (trimmed.resolve_left fun ends => settled.2.2 ⟨stored, ends⟩).1

/-- Writing back what `/.mcachefs/cache_prefix` shows keeps the prefix exactly when it is neither
empty nor at the mountpoint and has no separator at its end.  A prefix at the mountpoint loses the
mountpoint once more. -/
theorem cachePrefix_written_back_iff (config : Config) (values : Values) (held : Nat -> Byte)
    (getter : values.string .setCachePrefix = config.getCachePrefix) (fuel : Nat) :
    Exists fun shown =>
      vopsBuild (fuel + 2) (some held) (ascii "/.mcachefs/cache_prefix") values Contents.empty =
          .ok shown ∧
        forall sizes pieces again, shown.contentsSize ≤ sizes.sum ->
          pieces.flatten = shown.readPieces 0 sizes ->
            ((Exists fun after =>
              config.releaseCachePrefix
                  (Contents.empty.writes (consecutive (some again) 0 pieces)) = some after ∧
                after.getCachePrefix = config.getCachePrefix) ↔
              Settled config.mountpoint (config.getCachePrefix.getD [])) := by
  have found : vopsProcFind (ascii "/.mcachefs/cache_prefix") =
      some ⟨ascii "cache_prefix", none, some .setCachePrefix, none⟩ := rfl
  obtain ⟨shown, built, back⟩ := written_back values held _ _ found (Or.inr (by decide)) fuel
  refine ⟨shown, built, fun sizes pieces again all same => ?_⟩
  have parsed := back sizes pieces again all same
  have called : config.releaseCachePrefix
      (Contents.empty.writes (consecutive (some again) 0 pieces)) =
        config.setCachePrefix (some (config.getCachePrefix.getD [])) := by
    rw [Config.releaseCachePrefix, parsed, ← getter]
    rfl
  rw [called]
  cases seen : config.getCachePrefix with
  | none =>
      rw [Option.getD_none, setCachePrefix_eq_none (Or.inr rfl)]
      constructor
      · rintro ⟨after, result, -⟩
        cases result
      · exact fun settled => absurd rfl settled.1
  | some given =>
      exact setCachePrefix_keeps_iff (values.plain .setCachePrefix given (getter.trans seen)).2

theorem cachePrefix_written_back_mounted :
    Exists fun shown =>
      vopsBuild 2 (some fun _ => 0) (ascii "/.mcachefs/cache_prefix")
        ⟨fun _ => 0, fun _ => some (ascii "/a"), fun _ => [], fun _ => by decide,
          fun _ value same => Option.some.inj same ▸ by decide⟩ Contents.empty = .ok shown ∧
        forall sizes pieces again, shown.contentsSize ≤ sizes.sum ->
          pieces.flatten = shown.readPieces 0 sizes ->
            ((Exists fun after =>
              Config.releaseCachePrefix ⟨ascii "/mnt", some (ascii "/a" ++ [0])⟩
                  (Contents.empty.writes (consecutive (some again) 0 pieces)) = some after ∧
                after.getCachePrefix = some (ascii "/a")) ↔
              Settled (ascii "/mnt") (ascii "/a")) :=
  cachePrefix_written_back_iff ⟨ascii "/mnt", some (ascii "/a" ++ [0])⟩ _ (fun _ => 0) rfl 0

end VopsFile

end Mcachefs
