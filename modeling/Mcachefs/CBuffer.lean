import Mcachefs.CString

namespace Mcachefs

open Library

/-!
# C strings in buffers

A function that is given a `char *` reads on until it has what it wants.  What is
behind the pointer is a buffer of so many bytes, and the functions below give `none`
when the reader would leave it.
-/

/-- A function reads the whole string, as `strlen`, `strdup` and `%s` do. -/
def readString : (buffer : List Byte) -> Option Path
  | [] => none
  | byte :: buffer => if byte = 0 then some [] else (readString buffer).map (byte :: ·)

/-- `strcmp(buffer, text) == 0`, for a text in a buffer of its own. -/
def strcmpEqual : (buffer : List Byte) -> (text : Path) -> Option Bool
  | [], _ => none
  | byte :: _, [] => some (decide (byte = 0))
  | byte :: buffer, letter :: text =>
      if byte = letter then strcmpEqual buffer text else some false

/-- `isspace`. -/
def isSpace (byte : Byte) : Bool :=
  byte = 32 ∨ 9 ≤ byte ∧ byte ≤ 13

/-- `isdigit`. -/
def isDigit (byte : Byte) : Bool :=
  48 ≤ byte ∧ byte ≤ 57

/-- The digits of `strtol`. -/
def strtolDigits : (value : Nat) -> (buffer : List Byte) -> Option Nat
  | _, [] => none
  | value, byte :: buffer =>
      if isDigit byte then strtolDigits (10 * value + (byte.toNat - 48)) buffer else some value

/-- `strtol` behind the blanks; the bounds are those of `long`. -/
def strtolNumber : (buffer : List Byte) -> Option Int
  | [] => none
  | byte :: buffer =>
      if byte = 45 then
        (strtolDigits 0 buffer).map fun value : Nat => max (- 2 ^ 63) (-(value : Int))
      else
        (if byte = 43 then strtolDigits 0 buffer else strtolDigits 0 (byte :: buffer)).map
          fun value : Nat => min (2 ^ 63 - 1) (value : Int)

/-- `atoi`. -/
def atoi : (buffer : List Byte) -> Option Int
  | [] => none
  | byte :: buffer =>
      if isSpace byte then atoi buffer
      else (strtolNumber (byte :: buffer)).map fun value => value.bmod (2 ^ 32)

/-- `strcpy`, which needs room for the text and its NUL. -/
def strcpy : (buffer : List Byte) -> (text : Path) -> Option (List Byte)
  | [], _ => none
  | _ :: buffer, [] => some (0 :: buffer)
  | _ :: buffer, letter :: text => (strcpy buffer text).map (letter :: ·)

/-- `strcat`, which copies the text over the first NUL. -/
def strcat : (buffer : List Byte) -> (text : Path) -> Option (List Byte)
  | [], _ => none
  | byte :: buffer, text =>
      if byte = 0 then strcpy (byte :: buffer) text else (strcat buffer text).map (byte :: ·)

/-- Blanks, a sign and digits: the bytes that `atoi` reads on after. -/
def Numeral (bytes : List Byte) : Prop :=
  Exists fun blanks => Exists fun sign => Exists fun digits =>
    bytes = blanks ++ (sign ++ digits) ∧ blanks.all isSpace = true ∧
      (sign = [] ∨ sign = [43] ∨ sign = [45]) ∧ digits.all isDigit = true

/-! ## Strings that end -/

theorem readString_of_mem {buffer : List Byte} (ends : (0 : Byte) ∈ buffer) :
    readString buffer = some (cString buffer) := by
  induction buffer with
  | nil => cases ends
  | cons byte buffer inductionHypothesis =>
      by_cases zero : byte = 0
      · simp [readString, cString, zero]
      · have later : (0 : Byte) ∈ buffer := by
          rcases List.mem_cons.mp ends with same | later
          · exact absurd same.symm zero
          · exact later
        have rest := inductionHypothesis later
        simp only [cString] at rest
        simp [readString, cString, zero, rest]

/-- A string in a buffer with its NUL is what is read of it. -/
theorem cString_append_zero {string : Path} (noNul : (0 : Byte) ∉ string) {behind : List Byte} :
    cString (string ++ 0 :: behind) = string := by
  rw [cString, List.takeWhile_append_of_pos]
  · simp
  · intro byte member
    have present : byte ≠ 0 := fun zero => noNul (zero ▸ member)
    simpa using present

theorem readString_eq_none_iff {buffer : List Byte} :
    readString buffer = none ↔ (0 : Byte) ∉ buffer := by
  constructor
  · intro none ends
    rw [readString_of_mem ends] at none
    cases none
  · intro absent
    induction buffer with
    | nil => rfl
    | cons byte buffer inductionHypothesis =>
        have present : byte ≠ 0 := fun zero => absent (zero ▸ List.mem_cons_self)
        have later : (0 : Byte) ∉ buffer := fun member => absent (List.mem_cons_of_mem _ member)
        rw [readString, if_neg present, inductionHypothesis later]
        rfl

theorem strcmpEqual_of_mem {buffer : List Byte} (ends : (0 : Byte) ∈ buffer) {text : Path}
    (noNul : (0 : Byte) ∉ text) :
    strcmpEqual buffer text = some (decide (cString buffer = text)) := by
  induction text generalizing buffer with
  | nil =>
      cases buffer with
      | nil => cases ends
      | cons byte buffer =>
          by_cases zero : byte = 0 <;> simp [strcmpEqual, cString, zero]
  | cons letter text inductionHypothesis =>
      have present : (0 : Byte) ≠ letter := fun zero => noNul (zero ▸ List.mem_cons_self)
      have rest : (0 : Byte) ∉ text := fun member => noNul (List.mem_cons_of_mem _ member)
      cases buffer with
      | nil => cases ends
      | cons byte buffer =>
          by_cases same : byte = letter
          · subst same
            have later : (0 : Byte) ∈ buffer := (List.mem_cons.mp ends).resolve_left present
            have inside := inductionHypothesis later rest
            simp only [cString] at inside
            simp [strcmpEqual, cString, inside, Ne.symm present]
          · have different : cString (byte :: buffer) ≠ letter :: text := by
              intro equal
              by_cases zero : byte = 0
              · simp [cString, zero] at equal
              · simp only [cString, zero, ne_eq, not_false_eq_true, decide_true,
                  List.takeWhile_cons_of_pos, List.cons.injEq] at equal
                exact same equal.1
            simp [strcmpEqual, same, different]

/-- A string that does not end is not equal to any text. -/
theorem strcmpEqual_of_not_mem {buffer : List Byte} (endless : (0 : Byte) ∉ buffer) {text : Path}
    (noNul : (0 : Byte) ∉ text) : strcmpEqual buffer text ≠ some true := by
  induction text generalizing buffer with
  | nil =>
      cases buffer with
      | nil => simp [strcmpEqual]
      | cons byte buffer =>
          have present : byte ≠ 0 := fun zero => endless (zero ▸ List.mem_cons_self)
          simp [strcmpEqual, present]
  | cons letter text inductionHypothesis =>
      cases buffer with
      | nil => simp [strcmpEqual]
      | cons byte buffer =>
          rw [strcmpEqual]
          split
          · exact inductionHypothesis (fun later => endless (List.mem_cons_of_mem _ later))
              fun later => noNul (List.mem_cons_of_mem _ later)
          · simp

/-! ## Copies -/

/-- `memcpy(&(contents[offset]), buf, size)`, where there is room. -/
def memcpy (contents : List Byte) (offset : Nat) (buf : List Byte) : List Byte :=
  contents.take offset ++ (buf ++ contents.drop (offset + buf.length))

theorem memcpy_length {contents : List Byte} {offset : Nat} {buf : List Byte}
    (room : offset + buf.length ≤ contents.length) :
    (memcpy contents offset buf).length = contents.length := by
  simp only [memcpy, List.length_append, List.length_take, List.length_drop]
  omega

/-- `realloc` to a larger size: what the new bytes hold is up to the allocator. -/
def grow (contents : List Byte) (alloced : Nat) (held : Nat -> Byte) : List Byte :=
  contents ++ (List.range' contents.length (alloced - contents.length)).map held

@[simp] theorem grow_length (contents : List Byte) (alloced : Nat) (held : Nat -> Byte) :
    (grow contents alloced held).length = max contents.length alloced := by
  simp only [grow, List.length_append, List.length_map, List.length_range']
  omega

theorem strcpy_of_length {buffer : List Byte} {text : Path}
    (room : text.length < buffer.length) :
    strcpy buffer text = some (text ++ 0 :: buffer.drop (text.length + 1)) := by
  induction text generalizing buffer with
  | nil =>
      cases buffer with
      | nil => cases room
      | cons byte buffer => rfl
  | cons letter text inductionHypothesis =>
      cases buffer with
      | nil => cases room
      | cons byte buffer =>
          rw [strcpy, inductionHypothesis (Nat.lt_of_succ_lt_succ room)]
          rfl

/-- What is behind the string goes as far as the text is long. -/
theorem strcat_of_length {string text : Path} {behind : List Byte}
    (noNul : (0 : Byte) ∉ string) (room : text.length ≤ behind.length) :
    strcat (string ++ 0 :: behind) text =
      some ((string ++ text) ++ 0 :: behind.drop text.length) := by
  induction string with
  | nil =>
      rw [List.nil_append, List.nil_append, strcat, if_pos rfl]
      exact strcpy_of_length (Nat.lt_succ_of_le room)
  | cons letter string inductionHypothesis =>
      have present : letter ≠ 0 := fun zero => noNul (zero ▸ List.mem_cons_self)
      have rest : (0 : Byte) ∉ string := fun member => noNul (List.mem_cons_of_mem _ member)
      rw [List.cons_append, strcat, if_neg present, inductionHypothesis rest]
      rfl

/-! ## Numbers -/

theorem strtolDigits_eq_none_iff {value : Nat} {buffer : List Byte} :
    strtolDigits value buffer = none ↔ buffer.all isDigit = true := by
  induction buffer generalizing value with
  | nil => simp [strtolDigits]
  | cons byte buffer inductionHypothesis =>
      rw [strtolDigits, List.all_cons]
      cases digit : isDigit byte with
      | true => rw [if_pos rfl, inductionHypothesis, Bool.true_and]
      | false => simp

private theorem not_isDigit_sign {sign byte : Byte} (plus : sign = 43 ∨ sign = 45)
    (same : byte = sign) : isDigit byte = false := by
  rcases plus with plus | minus
  · subst plus
    subst same
    decide
  · subst minus
    subst same
    decide

theorem strtolNumber_eq_none_iff {buffer : List Byte} :
    strtolNumber buffer = none ↔
      Exists fun sign => Exists fun digits => buffer = sign ++ digits ∧
        (sign = [] ∨ sign = [43] ∨ sign = [45]) ∧ digits.all isDigit = true := by
  cases buffer with
  | nil => exact ⟨fun _ => ⟨[], [], rfl, Or.inl rfl, rfl⟩, fun _ => rfl⟩
  | cons byte buffer =>
      rw [strtolNumber]
      constructor
      · intro runsOut
        split at runsOut
        · next minus =>
            have digits := strtolDigits_eq_none_iff.mp (Option.map_eq_none_iff.mp runsOut)
            exact ⟨[45], buffer, by rw [minus]; rfl, Or.inr (Or.inr rfl), digits⟩
        · have rest := Option.map_eq_none_iff.mp runsOut
          split at rest
          · next plus =>
              exact ⟨[43], buffer, by rw [plus]; rfl, Or.inr (Or.inl rfl),
                strtolDigits_eq_none_iff.mp rest⟩
          · exact ⟨[], byte :: buffer, rfl, Or.inl rfl, strtolDigits_eq_none_iff.mp rest⟩
      · rintro ⟨sign, digits, whole, signs, allDigits⟩
        rcases signs with bare | plus | minus
        · subst bare
          rw [List.nil_append] at whole
          subst whole
          have digit : isDigit byte = true := by
            rw [List.all_cons, Bool.and_eq_true] at allDigits
            exact allDigits.1
          have notMinus : byte ≠ 45 := fun minus => by
            rw [not_isDigit_sign (Or.inr rfl) minus] at digit
            cases digit
          have notPlus : byte ≠ 43 := fun plus => by
            rw [not_isDigit_sign (Or.inl rfl) plus] at digit
            cases digit
          rw [if_neg notMinus, if_neg notPlus, strtolDigits_eq_none_iff.mpr allDigits]
          rfl
        · subst plus
          rw [List.singleton_append] at whole
          cases whole
          rw [if_neg (by decide), if_pos rfl, strtolDigits_eq_none_iff.mpr allDigits]
          rfl
        · subst minus
          rw [List.singleton_append] at whole
          cases whole
          rw [if_pos rfl, strtolDigits_eq_none_iff.mpr allDigits]
          rfl

/-- `atoi` leaves the buffer exactly when nothing in it ends the number. -/
theorem atoi_eq_none_iff {buffer : List Byte} : atoi buffer = none ↔ Numeral buffer := by
  induction buffer with
  | nil => exact ⟨fun _ => ⟨[], [], [], rfl, rfl, Or.inl rfl, rfl⟩, fun _ => rfl⟩
  | cons byte buffer inductionHypothesis =>
      rw [atoi]
      cases blank : isSpace byte with
      | true =>
          rw [if_pos rfl, inductionHypothesis]
          constructor
          · rintro ⟨blanks, sign, digits, whole, allBlank, signs, allDigits⟩
            refine ⟨byte :: blanks, sign, digits, by rw [whole]; rfl, ?_, signs, allDigits⟩
            rw [List.all_cons, blank, allBlank]
            rfl
          · rintro ⟨blanks, sign, digits, whole, allBlank, signs, allDigits⟩
            cases blanks with
            | cons first blanks =>
                cases whole
                rw [List.all_cons, Bool.and_eq_true] at allBlank
                exact ⟨blanks, sign, digits, rfl, allBlank.2, signs, allDigits⟩
            | nil =>
                -- A blank is neither a sign nor a digit.
                rcases signs with bare | plus | minus
                · subst bare
                  rw [List.nil_append, List.nil_append] at whole
                  subst whole
                  rw [List.all_cons, Bool.and_eq_true] at allDigits
                  simp only [isSpace, isDigit, decide_eq_true_eq, UInt8.le_iff_toNat_le,
                    ← UInt8.toNat_inj, UInt8.reduceToNat] at blank allDigits
                  omega
                · subst plus
                  cases whole
                  exact absurd blank (by decide)
                · subst minus
                  cases whole
                  exact absurd blank (by decide)
      | false =>
          rw [if_neg Bool.false_ne_true, Option.map_eq_none_iff, strtolNumber_eq_none_iff]
          constructor
          · rintro ⟨sign, digits, whole, signs, allDigits⟩
            exact ⟨[], sign, digits, whole, rfl, signs, allDigits⟩
          · rintro ⟨blanks, sign, digits, whole, allBlank, signs, allDigits⟩
            cases blanks with
            | nil => exact ⟨sign, digits, whole, signs, allDigits⟩
            | cons first blanks =>
                cases whole
                rw [List.all_cons, blank, Bool.false_and] at allBlank
                cases allBlank

/-- A NUL ends every number. -/
theorem not_numeral_of_mem {buffer : List Byte} (ends : (0 : Byte) ∈ buffer) :
    ¬ Numeral buffer := by
  rintro ⟨blanks, sign, digits, whole, allBlank, signs, allDigits⟩
  subst whole
  rcases List.mem_append.mp ends with blank | later
  · exact absurd (List.all_eq_true.mp allBlank 0 blank) (by decide)
  · rcases List.mem_append.mp later with isSign | digit
    · rcases signs with bare | plus | minus
      · subst bare
        cases isSign
      · subst plus
        exact absurd isSign (by decide)
      · subst minus
        exact absurd isSign (by decide)
    · exact absurd (List.all_eq_true.mp allDigits 0 digit) (by decide)

end Mcachefs
