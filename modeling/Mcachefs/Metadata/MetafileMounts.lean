import Mcachefs.Metadata.MetafileRuns

namespace Mcachefs
namespace MetadataMap

open Library Metadata

/-!
# A first mount that ends early

`mcachefs_metadata_format` writes the head first, and a head is all that a later mount asks
for.  If the source cannot be read or the disk is full behind the head, the next mount takes
the file for a formatted one.
-/

variable {Hash : Type} {metafile : Metafile Hash} {image : Image Hash}

theorem map_eq_ok {Error Value Other : Type} {result : Except Error Value} {change : Value -> Other}
    {last : Other} (done : result.map change = .ok last) :
    Exists fun value => result = .ok value ∧ change value = last := by
  cases result with
  | error stop => cases done
  | ok value => exact ⟨value, rfl, Except.ok.inj done⟩

/-- `mcachefs_metadata_do_get` does not write to the file. -/
theorem doGet_file {sys : Sys} {now : Int} {id : Id} {pointer : Option Pointer}
    {next : Metafile Hash} (got : metafile.doGet sys now id = .ok (pointer, next)) :
    next.file = metafile.file := by
  unfold Metafile.doGet at got
  split at got
  · exact congrArg (fun pair => pair.2.file) (Except.ok.inj got).symm
  · simp only at got
    split at got
    · cases got
    · obtain ⟨middle, mapped, same⟩ := map_eq_ok got
      rw [← (Prod.mk.inj same).2]
      split at mapped
      · rw [Metafile.mmapBlock] at mapped
        split at mapped
        · rw [← Except.ok.inj mapped]
          rfl
        · cases mapped
      · rw [← Except.ok.inj mapped]
        rfl

/-- The field `id` of each entry. -/
def Metafile.ids (metafile : Metafile Hash) (id : Id) : Id := (metafile.file.slots id).id

theorem put_ids {sys : Sys} {now : Int} {id : Id} {change : Slot Hash -> Slot Hash}
    {next : Metafile Hash} (keeps : forall slot, (change slot).id = slot.id)
    (done : metafile.put sys now id change = .ok next) : next.ids = metafile.ids := by
  obtain ⟨⟨pointer, middle⟩, got, stored⟩ := bind_eq_ok.mp done
  have file := doGet_file got
  cases pointer with
  | none => cases stored
  | some pointer =>
      simp only [Metafile.write, Metafile.faulty] at stored
      cases placed : middle.place pointer with
      | error fault =>
          rw [placed] at stored
          cases stored
      | ok place =>
          rw [placed] at stored
          obtain rfl := Except.ok.inj stored
          funext other
          simp only [Metafile.ids, ← file]
          by_cases same : other = place
          · rw [same, Function.update_self]
            exact keeps _
          · rw [Function.update_of_ne same]

theorem resetFhs_ids {sys : Sys} {now : Int} (places : List Id) {metafile next : Metafile Hash}
    (done : metafile.resetFhs sys now places = .ok next) : next.ids = metafile.ids := by
  induction places generalizing metafile with
  | nil => exact congrArg Metafile.ids (Except.ok.inj done).symm
  | cons id places inductionHypothesis =>
      obtain ⟨middle, put, rest⟩ := bind_eq_ok.mp done
      refine (inductionHypothesis rest).trans (put_ids ?_ put)
      exact fun slot => rfl

/-- Opening a file with a head that is accepted leaves the ids as they are. -/
theorem openMetafile_ids [Inhabited Hash] {env : Env Hash} {sys : Sys} (reads : sys.reads = true)
    {now : Int} {part : File Hash} (valid : Metafile.Valid part) {next : Metafile Hash}
    (done : Metafile.openMetafile env sys now ⟨some part, 0, 0⟩ = .ok next) (id : Id) :
    next.ids id = (part.slots id).id := by
  obtain ⟨stats, preads⟩ := Bool.and_eq_true_iff.mp reads
  have some : part.size ≠ 0 := (Nat.lt_of_lt_of_le (by decide) valid.1).ne'
  have present : (Option.some part).filter (fun file => file.size ≠ 0) = Option.some part := by
    simp [Option.filter, some]
  obtain ⟨file, opened, mapped⟩ := bind_eq_ok.mp done
  rw [Metafile.openFile] at opened
  simp only [stats, if_true, present, if_pos (And.intro preads valid)] at opened
  split at opened
  · obtain rfl := Except.ok.inj opened
    simp only at mapped
    split at mapped
    · obtain ⟨resized, sized, reset⟩ := bind_eq_ok.mp mapped
      rw [Metafile.resizeMap] at sized
      simp only at sized
      split at sized
      · cases sized
      · obtain rfl := Except.ok.inj sized
        exact congrFun (resetFhs_ids _ reset) id
    · cases mapped
  · cases opened

/-- The mount finds a formatted metafile, with the root alone in use. -/
def FindsFormatted [Inhabited Hash] (env : Env Hash) (again : Sys) (later : Int)
    (file : Option (File Hash)) : Prop :=
  Exists fun next => Exists fun st => Exists fun after =>
    Metafile.openMetafile env again later ⟨file, 0, 0⟩ = .ok next ∧ Mapped next after ∧
      Exists after.Frees ∧ Keeps (Image.format env st) after

section Mounts

variable [Inhabited Hash] (env : Env Hash) {again : Sys} (fine : again.Fine) (later : Int)

include fine

theorem findsFormatted_of_other {file : Option (File Hash)}
    (other : forall part, file = some part -> part.size = 0 ∨ ¬ Metafile.Valid part) :
    FindsFormatted env again later file := by
  obtain ⟨next, opened, st, -, mapped⟩ :=
    (openMetafile_formats env again later 0 fun _ => other).succeeds fun _ failed => failed fine
  exact ⟨next, st, _, opened, mapped, ⟨_, Image.format_frees env st⟩, .refl _⟩

theorem findsFormatted_of_holds {part : File Hash} {st : Stat} (holds : Holds part image)
    {free : List Id} (frees : image.Frees free) (keeps : Keeps (Image.format env st) image) :
    FindsFormatted env again later (some part) := by
  obtain ⟨next, opened, own⟩ :=
    (holds.openMetafile frees env fine.reads later 0).succeeds fun _ left => left.1 fine
  exact ⟨next, st, _, opened, own, ⟨free, frees.resetFh⟩, keeps.trans (.resetFh frees)⟩

/-- An entry that was not written has no id. -/
theorem not_findsFormatted {part : File Hash} (valid : Metafile.Valid part) {missing : Nat}
    (above : rootId ≤ missing) (below : missing < BLOCK_ENTRY_COUNT)
    (blank : (part.slots missing).id = 0) : ¬ FindsFormatted env again later (some part) := by
  rintro ⟨next, st, after, done, mapped, -, -⟩
  have id := openMetafile_ids fine.reads valid done missing
  have inside : missing < after.alloced_nb :=
    below.trans_le (Nat.le_of_dvd (Nat.zero_lt_of_lt mapped.holds.root) mapped.holds.whole)
  rw [Metafile.ids, mapped.holds.slots missing above inside, blank] at id
  exact absurd id (Nat.zero_lt_of_lt above).ne'

/-- A first mount that ends early can be made again exactly if it ended before the head was
written, or after all entries of the first block were. -/
theorem first_mount_again_iff (sys : Sys) (now : Int) {file : Option (File Hash)}
    (exits : Metafile.openMetafile env sys now ⟨none, 0, 0⟩ = .error (.exit file)) :
    FindsFormatted env again later file ↔
      sys.opens = false ∨ sys.pwrites 0 = false ∨
        sys.source ≠ none ∧ forall id : Nat, id < BLOCK_ENTRY_COUNT -> sys.pwrites id = true := by
  have opened : Metafile.openFile env sys none =
      if sys.opens then Metafile.formatFile env sys File.empty else .error (.exit none) := by
    cases stats : sys.stats <;> simp [Metafile.openFile, stats, Option.filter]
  rw [Metafile.openMetafile] at exits
  dsimp only at exits
  rw [opened] at exits
  by_cases opens : sys.opens = true
  · rw [if_pos opens, Metafile.formatFile] at exits
    have formats := File.empty.format_holds env sys
    cases result : File.empty.format env sys with
    | error stop =>
        rw [result] at formats exits
        cases stop with
        | fault fault => exact formats.elim
        | exit left =>
            obtain rfl : left = file := by
              injection Except.error.inj exits
            obtain ⟨part, rfl, ⟨failed, rfl⟩ | ⟨head, formatted, long, why, missing, above, below,
              blank⟩⟩ := formats
            · refine iff_of_true (findsFormatted_of_other env fine later fun part there => ?_)
                (Or.inr (Or.inl failed))
              exact Or.inl (congrArg File.size (Option.some.inj there)).symm
            · have valid : Metafile.Valid part := ⟨long, (congrArg
                (fun head : Head => strcmpEqual head.magic METADATA_MAGIC) formatted).trans
                  formatted_magic⟩
              refine iff_of_false
                (not_findsFormatted env fine later valid above below (congrArg Slot.id blank)) ?_
              rintro (closed | failed | ⟨source, all⟩)
              · exact Bool.false_ne_true (closed.symm.trans opens)
              · exact Bool.false_ne_true (failed.symm.trans head)
              · rcases why with none | ⟨stop, below, failed⟩
                · exact source none
                · exact Bool.false_ne_true (failed.symm.trans (all stop below))
    | ok part =>
        rw [result] at formats exits
        obtain ⟨st, source, holds, all⟩ := formats
        have frees := Image.format_frees env st
        have whole : sys.source ≠ none ∧
            forall id : Nat, id < BLOCK_ENTRY_COUNT -> sys.pwrites id = true :=
          ⟨fun none => Option.some_ne_none st (source.symm.trans none), all⟩
        by_cases fstats : sys.fstats = true
        · dsimp only [bind, Except.bind] at exits
          rw [if_pos fstats] at exits
          obtain ⟨-, stored, after, rfl, held, ⟨free, frees⟩, keeps⟩ :=
            (holds.opened frees sys now 0).exited exits
          exact iff_of_true (findsFormatted_of_holds env fine later held frees keeps)
            (Or.inr (Or.inr whole))
        · obtain rfl : some part = file := by
            dsimp only [bind, Except.bind] at exits
            rw [if_neg fstats] at exits
            injection Except.error.inj exits
          exact iff_of_true (findsFormatted_of_holds env fine later holds frees (.refl _))
            (Or.inr (Or.inr whole))
  · rw [if_neg opens] at exits
    obtain rfl : none = file := by
      injection Except.error.inj exits
    refine iff_of_true (findsFormatted_of_other env fine later fun part there => ?_)
      (Or.inl (Bool.eq_false_iff.mpr opens))
    cases there

end Mounts

/-- The source cannot be reached. -/
def unreachableSource : Sys where
  stats := true
  opens := true
  preads := true
  pwrites _ := true
  fstats := true
  mmapsHead := true
  mmaps _ := true
  source := none

/-- Once mounted without its source, a file system cannot be mounted when the source is back. -/
theorem first_mount_again_unreachable : Exists fun file : Option (File UInt32) =>
    Metafile.openMetafile emptySource unreachableSource 0 ⟨none, 0, 0⟩ = .error (.exit file) ∧
      ¬ FindsFormatted emptySource workingCalls 5 file := by
  refine ⟨_, rfl, fun found => ?_⟩
  rcases (first_mount_again_iff emptySource workingCalls_fine 5 unreachableSource 0 rfl).mp found
    with closed | failed | ⟨source, -⟩
  · exact absurd closed (by decide)
  · exact absurd failed (by decide)
  · exact source rfl

end MetadataMap
end Mcachefs
