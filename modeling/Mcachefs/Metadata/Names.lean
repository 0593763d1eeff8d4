import Mcachefs.CString
import Mathlib.Data.Nat.ModEq

namespace Mcachefs
namespace Metadata

open Library

/-!
# Names, paths and their hashes

A path below the mount point is a list of names, and its string has a slash
before each of them.  The hash of a path is computed byte by byte, so that it
can be continued from the hash of the directory above.
-/

/-- A name in a directory, as the bytes before its terminating NUL. -/
abbrev Component := List Byte

/-- `NAME_MAX` of the Linux headers. -/
def NAME_MAX : Nat := 255

/-- A byte string that can stand between two slashes of a path. -/
structure IsComponent (name : Component) : Prop where
  nonempty : name ≠ []
  noSlash : slash ∉ name
  noNul : (0 : Byte) ∉ name

instance (name : Component) : Decidable (IsComponent name) :=
  decidable_of_iff (name ≠ [] ∧ slash ∉ name ∧ (0 : Byte) ∉ name)
    ⟨fun ⟨nonempty, noSlash, noNul⟩ => ⟨nonempty, noSlash, noNul⟩,
      fun ⟨nonempty, noSlash, noNul⟩ => ⟨nonempty, noSlash, noNul⟩⟩

/-- The names one after the other, each with its slash. -/
def pathString : List Component -> Path
  | [] => []
  | name :: names => slash :: name ++ pathString names

/-- The absolute path of an entry; the root is `/`. -/
def absolutePath (names : List Component) : Path :=
  if names = [] then [slash] else pathString names

@[simp] theorem pathString_append (first second : List Component) :
    pathString (first ++ second) = pathString first ++ pathString second := by
  induction first with
  | nil => rfl
  | cons name names inductionHypothesis => simp [pathString, inductionHypothesis]

theorem pathString_concat (names : List Component) (name : Component) :
    pathString (names ++ [name]) = pathString names ++ slash :: name := by
  simp [pathString]

/-- A path is a slash and a name, and goes on with a slash or ends. -/
theorem pathString_head {names : List Component} :
    pathString names = [] ∨ Exists fun rest => pathString names = slash :: rest := by
  cases names with
  | nil => exact Or.inl rfl
  | cons name names => exact Or.inr ⟨name ++ pathString names, rfl⟩

/-- Two names before the end of a string or a slash are equal when the strings
are. -/
theorem component_append_inj {one two : Component} {first second : Path}
    (oneSlash : slash ∉ one) (twoSlash : slash ∉ two)
    (firstHead : first = [] ∨ Exists fun rest => first = slash :: rest)
    (secondHead : second = [] ∨ Exists fun rest => second = slash :: rest)
    (same : one ++ first = two ++ second) : one = two ∧ first = second := by
  induction one generalizing two with
  | nil =>
      cases two with
      | nil => exact ⟨rfl, same⟩
      | cons byte two =>
          rcases firstHead with rfl | ⟨rest, rfl⟩
          · cases same
          · exact absurd (List.cons.inj same).1.symm (fun equal =>
              twoSlash (equal ▸ List.mem_cons_self))
  | cons byte one inductionHypothesis =>
      cases two with
      | nil =>
          rcases secondHead with rfl | ⟨rest, rfl⟩
          · cases same
          · exact absurd (List.cons.inj same).1 (fun equal =>
              oneSlash (equal ▸ List.mem_cons_self))
      | cons other two =>
          obtain ⟨head, tail⟩ := List.cons.inj same
          obtain ⟨equal, rest⟩ := inductionHypothesis
            (fun member => oneSlash (List.mem_cons_of_mem _ member))
            (fun member => twoSlash (List.mem_cons_of_mem _ member)) tail
          exact ⟨by rw [head, equal], rest⟩

/-- A path string has one reading as names. -/
theorem pathString_inj {first second : List Component}
    (firstNames : forall name, name ∈ first -> slash ∉ name)
    (secondNames : forall name, name ∈ second -> slash ∉ name)
    (same : pathString first = pathString second) : first = second := by
  induction first generalizing second with
  | nil =>
      cases second with
      | nil => rfl
      | cons name names => cases same
  | cons name names inductionHypothesis =>
      cases second with
      | nil => cases same
      | cons other others =>
          obtain ⟨equal, rest⟩ := component_append_inj (firstNames name List.mem_cons_self)
            (secondNames other List.mem_cons_self) pathString_head pathString_head
            (List.cons.inj same).2
          rw [equal, inductionHypothesis
            (fun name member => firstNames name (List.mem_cons_of_mem _ member))
            (fun name member => secondNames name (List.mem_cons_of_mem _ member)) rest]

/-! ## Hashes -/

/-- How `continueHashPartial` takes in one byte, and where `doHash` starts.
Which function this is depends on a compile-time choice. -/
structure HashFunction (Hash : Type) where
  seed : Hash
  step : Hash -> Byte -> Hash

/-- `__MCACHEFS_HASH_USE_32_6_16`. -/
def hash32_6_16 : HashFunction UInt32 where
  seed := 0x245
  step h d := d.toUInt32 + (h <<< 6) + (h <<< 16) - h

namespace HashFunction

variable {Hash : Type} (hashing : HashFunction Hash)

/-- The loop of `continueHashPartial`; `cur` counts the bytes taken in. -/
def continueLoop (sz : Int) : (cur : Nat) -> Hash -> Path -> Hash
  | _, h, [] => h
  | cur, h, d :: str =>
      let h := hashing.step h d
      if ((cur + 1 : Nat) : Int) = sz then h else continueLoop sz (cur + 1) h str

/-- `continueHashPartial`. -/
def continueHashPartial (h : Hash) (str : Path) (sz : Int) : Hash :=
  hashing.continueLoop sz 0 h str

/-- `continueHash`; the size is `~((int) 0)`. -/
def continueHash (h : Hash) (str : Path) : Hash :=
  hashing.continueHashPartial h str (-1)

/-- `doHashPartial`. -/
def doHashPartial (str : Path) (sz : Int) : Hash :=
  hashing.continueHashPartial hashing.seed str sz

/-- `doHash`. -/
def doHash (str : Path) : Hash :=
  hashing.doHashPartial str (-1)

theorem continueLoop_eq (sz : Int) (cur : Nat) (h : Hash) (str : Path) :
    hashing.continueLoop sz cur h str =
      if (cur : Int) < sz then (str.take (sz - cur).toNat).foldl hashing.step h
      else str.foldl hashing.step h := by
  induction str generalizing cur h with
  | nil => simp [continueLoop]
  | cons d str inductionHypothesis =>
      rw [continueLoop]
      by_cases last : ((cur + 1 : Nat) : Int) = sz
      · have one : (sz - cur).toNat = 1 := by omega
        rw [if_pos last, if_pos (by omega), one]
        rfl
      · rw [if_neg last, inductionHypothesis]
        by_cases more : (cur : Int) < sz
        · have count : (sz - cur).toNat = (sz - (cur + 1 : Nat)).toNat + 1 := by omega
          rw [if_pos more, if_pos (by omega), count]
          rfl
        · rw [if_neg more, if_neg (by omega)]
          rfl

/-- A size that is not positive takes in the whole string. -/
theorem continueHashPartial_eq (h : Hash) (str : Path) (sz : Int) :
    hashing.continueHashPartial h str sz =
      if 0 < sz then (str.take sz.toNat).foldl hashing.step h
      else str.foldl hashing.step h := by
  unfold continueHashPartial
  simpa using hashing.continueLoop_eq sz 0 h str

theorem doHash_eq (str : Path) : hashing.doHash str = str.foldl hashing.step hashing.seed := by
  simp [doHash, doHashPartial, continueHashPartial_eq]

/-- Continuing a hash is hashing the longer string. -/
@[simp] theorem continueHash_doHash (first second : Path) :
    hashing.continueHash (hashing.doHash first) second = hashing.doHash (first ++ second) := by
  rw [doHash_eq, doHash_eq, List.foldl_append, continueHash, continueHashPartial_eq,
    if_neg (by decide)]

/-- The string whose hash a partial continuation is. -/
def partialString (str : Path) (sz : Nat) : Path :=
  if 0 < sz then str.take sz else str

theorem continueHashPartial_doHash (first str : Path) (sz : Nat) :
    hashing.continueHashPartial (hashing.doHash first) str sz =
      hashing.doHash (first ++ partialString str sz) := by
  rw [doHash_eq, doHash_eq, List.foldl_append, continueHashPartial_eq, partialString]
  by_cases some : 0 < sz
  · rw [if_pos (by omega), if_pos some, Int.toNat_natCast]
  · rw [if_neg (by omega), if_neg some]

theorem doHashPartial_eq (str : Path) (sz : Nat) :
    hashing.doHashPartial str sz = hashing.doHash (partialString str sz) :=
  hashing.continueHashPartial_doHash [] str sz

end HashFunction

theorem hash32_6_16_step_toNat (h : UInt32) (d : Byte) :
    (hash32_6_16.step h d).toNat = (d.toUInt32.toNat + 65599 * h.toNat) % 2 ^ 32 := by
  have six : (6 : UInt32).toNat % 32 = 6 := rfl
  have sixteen : (16 : UInt32).toNat % 32 = 16 := rfl
  have bound := h.toNat_lt
  simp only [hash32_6_16, UInt32.toNat_sub, UInt32.toNat_add, UInt32.toNat_shiftLeft, six,
    sixteen, Nat.shiftLeft_eq]
  omega

/-- The factor of a hash is odd, so that two hashes stay different. -/
theorem hash32_6_16_step_injective (d : Byte) :
    Function.Injective fun h => hash32_6_16.step h d := by
  intro one two same
  have equal : d.toUInt32.toNat + 65599 * one.toNat ≡ d.toUInt32.toNat + 65599 * two.toNat
      [MOD 2 ^ 32] := by
    rw [Nat.ModEq, ← hash32_6_16_step_toNat, ← hash32_6_16_step_toNat]
    exact congrArg UInt32.toNat same
  have cancelled := (equal.add_left_cancel' _).cancel_left_of_coprime (by decide)
  exact UInt32.toNat_inj.mp (cancelled.eq_of_lt_of_lt one.toNat_lt two.toNat_lt)

/-- What follows two strings leaves it open whether their hashes are the same. -/
theorem hash32_6_16_doHash_append (one two : Path) (rest : Path) :
    hash32_6_16.doHash (one ++ rest) = hash32_6_16.doHash (two ++ rest) ↔
      hash32_6_16.doHash one = hash32_6_16.doHash two := by
  simp only [HashFunction.doHash_eq, List.foldl_append]
  generalize one.foldl hash32_6_16.step hash32_6_16.seed = first
  generalize two.foldl hash32_6_16.step hash32_6_16.seed = second
  induction rest generalizing first second with
  | nil => rfl
  | cons d rest inductionHypothesis =>
      rw [List.foldl_cons, List.foldl_cons, inductionHypothesis]
      exact (hash32_6_16_step_injective d).eq_iff

end Metadata
end Mcachefs
