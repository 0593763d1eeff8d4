import Mcachefs.Transfer.Backing

namespace Mcachefs
namespace Backing

open Library Transfer

/-!
# When a cached copy can be trusted

The code looks whether there is a cache file.  What it would have to know is in the
history of the backups: which of their requests have ended, and which inodes they have
made, emptied and filled.
-/

/-- All backups of the open file that were asked for have ended. -/
def Served (history : List Record) (fh : Fh) : Prop :=
  forall request, .queued request fh ∈ history ->
    Exists fun copied => .ended request copied ∈ history

/-- The backup has ended, and with its end or later a whole copy has come to the inode. -/
def FilledSince (history : List Record) (request : Nat) (inode : Inode) : Prop :=
  Exists fun later => Exists fun copied => Exists fun earlier =>
    history = later ++ .ended request copied :: earlier ∧
      (copied = some inode ∨ Exists fun other => .ended other (some inode) ∈ later)

/-- A whole copy has come to the inode since any backup that made or emptied it. -/
def Filled (history : List Record) (inode : Inode) : Prop :=
  forall request, .created request inode ∈ history -> FilledSince history request inode

/-- No backup of the open file is left, and what is at its path was filled. -/
def Settled (history : List Record) (cache : Path -> Option Inode) (fh : Fh) (path : Path) :
    Prop :=
  Served history fh ∧ forall inode, cache path = some inode -> Filled history inode

/-- When a step may come that sets the status to `MCACHEFS_FILE_BACKING_DONE`, makes a cache
file or moves one. -/
def BackingState.InTurn (state : BackingState) : Event -> Prop
  | .backfile fh _ => forall file, state.files fh = some file ->
      file.cache_status = .none ∨ file.cache_status = .error ->
      state.fileincache file.path = true -> Settled state.history state.cache fh file.path
  | .openNoCache fh => forall file, state.files fh = some file -> file.cache_status = .none ->
      state.fileincache file.path = true -> Settled state.history state.cache fh file.path
  | .writeback index => forall fh file, state.got[index]? = some fh ->
      state.files fh = some file -> Settled state.history state.cache fh file.path
  | .backup index .create => forall backup file, state.backups[index]? = some backup ->
      backup.stage = .checked -> state.files backup.fh = some file ->
      forall fh other, state.files fh = some other -> other.cache_status = .done ->
        other.path ≠ file.path
  | .backup index .finish => forall backup target file, state.backups[index]? = some backup ->
      backup.stage = .copying target -> state.files backup.fh = some file ->
      Settled (.ended backup.request (some target) :: state.history) state.cache backup.fh file.path
  | .repath fh path => forall file, state.files fh = some file -> file.cache_status = .done ->
      forall inode, state.cache path = some inode -> Filled state.history inode
  | .renameCache path toPath => path ≠ toPath -> forall inode, state.cache path = some inode ->
      ¬ Filled state.history inode -> forall fh file, state.files fh = some file ->
        file.cache_status = .done -> file.path ≠ toPath
  | _ => True

/-! ## The history of the backups -/

section Histories

variable {history : List Record} {request : Nat} {inode : Inode}

theorem FilledSince.ended (filled : FilledSince history request inode) :
    Exists fun copied => .ended request copied ∈ history := by
  obtain ⟨later, copied, earlier, rfl, -⟩ := filled
  exact ⟨copied, List.mem_append_right later List.mem_cons_self⟩

theorem filledSince_cons {record : Record} :
    FilledSince (record :: history) request inode ↔
      record = .ended request (some inode) ∨ FilledSince history request inode ∨
        (Exists fun other => record = .ended other (some inode)) ∧
          Exists fun copied => .ended request copied ∈ history := by
  constructor
  · rintro ⟨later, copied, earlier, whole, filled⟩
    cases later with
    | nil =>
        obtain ⟨rfl, rfl⟩ := List.cons.inj whole
        rcases filled with rfl | ⟨other, member⟩
        · exact Or.inl rfl
        · cases member
    | cons first later =>
        obtain ⟨rfl, rfl⟩ := List.cons.inj whole
        rcases filled with copied | ⟨other, member⟩
        · exact Or.inr (Or.inl ⟨later, _, earlier, rfl, Or.inl copied⟩)
        · rcases List.mem_cons.mp member with same | member
          · exact Or.inr (Or.inr ⟨⟨other, same.symm⟩, copied,
              List.mem_append_right later List.mem_cons_self⟩)
          · exact Or.inr (Or.inl ⟨later, copied, earlier, rfl, Or.inr ⟨other, member⟩⟩)
  · rintro (rfl | ⟨later, copied, earlier, rfl, filled⟩ | ⟨⟨other, rfl⟩, copied, member⟩)
    · exact ⟨[], _, history, rfl, Or.inl rfl⟩
    · exact ⟨record :: later, copied, earlier, rfl, filled.imp_right
        fun ⟨other, member⟩ => ⟨other, List.mem_cons_of_mem _ member⟩⟩
    · obtain ⟨later, earlier, rfl⟩ := List.append_of_mem member
      exact ⟨_ :: later, copied, earlier, rfl, Or.inr ⟨other, List.mem_cons_self⟩⟩

/-- Neither a new request nor a backup of another inode changes what was filled. -/
theorem filled_cons {record : Record} (made : forall request, record ≠ .created request inode)
    (goesOn : forall request copied, record ≠ .ended request copied) :
    Filled (record :: history) inode ↔ Filled history inode := by
  have same : forall request, FilledSince (record :: history) request inode ↔
      FilledSince history request inode := by
    intro request
    rw [filledSince_cons]
    refine ⟨?_, fun filled => Or.inr (Or.inl filled)⟩
    rintro (ended | filled | ⟨⟨other, ended⟩, -⟩)
    · exact absurd ended (goesOn _ _)
    · exact filled
    · exact absurd ended (goesOn _ _)
  refine ⟨fun filled request member => (same request).mp (filled request
    (List.mem_cons_of_mem _ member)), fun filled request member => (same request).mpr ?_⟩
  exact filled request ((List.mem_cons.mp member).resolve_left fun first =>
    made request first.symm)

/-- A backup that ends without a copy into the inode changes nothing for the inode. -/
theorem filled_cons_ended {copied : Option Inode} (other : some inode ≠ copied) :
    Filled (.ended request copied :: history) inode ↔ Filled history inode := by
  have since : forall number, FilledSince (.ended request copied :: history) number inode ↔
      FilledSince history number inode := by
    intro number
    rw [filledSince_cons]
    refine ⟨?_, fun filled => Or.inr (Or.inl filled)⟩
    rintro (equal | filled | ⟨⟨_, equal⟩, -⟩)
    · exact absurd (Record.ended.inj equal).2.symm other
    · exact filled
    · exact absurd (Record.ended.inj equal).2.symm other
  refine forall_congr' fun number => ?_
  rw [since, List.mem_cons]
  simp only [reduceCtorEq, false_or]

end Histories

def Record.request : Record -> Nat
  | .queued request _ | .created request _ | .ended request _ => request

/-- The history tells of each backup what has come of it. -/
structure Noted (state : BackingState) : Prop where
  numbered : forall record, record ∈ state.history -> record.request < state.requests
  distinct : (state.backups.map Backup.request).Nodup
  queued : forall backup, backup ∈ state.backups ->
    .queued backup.request backup.fh ∈ state.history
  running : forall backup copied, backup ∈ state.backups ->
    .ended backup.request copied ∉ state.history
  /-- A request that was taken has ended, or its backup is there. -/
  served : forall request fh, .queued request fh ∈ state.history ->
    (Exists fun copied => .ended request copied ∈ state.history) ∨
      Exists fun backup => backup ∈ state.backups ∧ backup.request = request ∧ backup.fh = fh
  made : forall backup inode, backup ∈ state.backups ->
    (.created backup.request inode ∈ state.history ↔ backup.made = some inode)
  created : forall request inode, .created request inode ∈ state.history ->
    (Exists fun copied => .ended request copied ∈ state.history) ∨
      Exists fun backup => backup ∈ state.backups ∧ backup.request = request
  early : forall backup, backup ∈ state.backups ->
    backup.stage = .queued ∨ backup.stage = .taken ∨ backup.stage = .checked -> backup.made = none
  filled : forall inode, Filled state.history inode ↔ ¬ state.Partial inode

namespace Noted

variable {state next : BackingState}

theorem start (cached : List Path) : Noted (BackingState.start cached) where
  numbered record member := by cases member
  distinct := List.nodup_nil
  queued backup member := by cases member
  running backup copied member := by cases member
  served request fh member := by cases member
  made backup inode member := by cases member
  created request inode member := by cases member
  early backup member := by cases member
  filled inode := by
    refine iff_of_true (fun request member => by cases member) ?_
    rintro (broken | ⟨backup, member, -⟩)
    · cases broken
    · cases member

/-- The backups are one of them and those around it. -/
theorem mem_around {before after : List Backup} {backup other : Backup} :
    other ∈ before ++ backup :: after ↔ other = backup ∨ other ∈ before ++ after :=
  List.perm_middle.mem_iff.trans List.mem_cons

/-- What the history is about is what the files are found to be. -/
theorem settled_iff (noted : Noted state) (fh : Fh) (path : Path) :
    Settled state.history state.cache fh path ↔ state.Finished fh path := by
  have served : Served state.history fh ↔
      forall backup, backup ∈ state.backups -> backup.fh ≠ fh := by
    constructor
    · rintro served backup member rfl
      obtain ⟨copied, ended⟩ := served backup.request (noted.queued backup member)
      exact noted.running backup copied member ended
    · intro none request asked
      rcases noted.served request fh asked with ended | ⟨backup, member, -, same⟩
      · exact ended
      · exact absurd same (none backup member)
  exact and_congr served (forall_congr' fun inode => imp_congr_right fun _ => noted.filled inode)

/-- The backups and what is broken are as they were. -/
theorem frame (noted : Noted state) (backups : next.backups = state.backups)
    (requests : next.requests = state.requests) (history : next.history = state.history)
    (broken : next.broken = state.broken) : Noted next := by
  obtain ⟨files, cache, inodes, _, _, _, _, asked, got⟩ := next
  subst backups requests history broken
  exact ⟨noted.numbered, noted.distinct, noted.queued, noted.running, noted.served, noted.made,
    noted.created, noted.early, noted.filled⟩

/-- The request of a backup is no other backup's. -/
theorem apart (noted : Noted state) {before after : List Backup} {backup : Backup}
    (whole : state.backups = before ++ backup :: after) {other : Backup}
    (member : other ∈ before ++ after) : other.request ≠ backup.request := by
  have distinct := noted.distinct
  rw [whole, List.map_append, List.map_cons, List.perm_middle.nodup_iff, List.nodup_cons] at distinct
  intro same
  refine distinct.1 (same ▸ ?_)
  rw [← List.map_append]
  exact List.mem_map_of_mem member

/-- The queue takes a request. -/
theorem queue (noted : Noted state) {fh : Fh}
    (backups : next.backups = state.backups ++ [⟨state.requests, fh, .queued, none⟩])
    (requests : next.requests = state.requests + 1)
    (history : next.history = .queued state.requests fh :: state.history)
    (broken : next.broken = state.broken) : Noted next := by
  have fresh : forall record, record ∈ state.history -> record.request ≠ state.requests :=
    fun record member => (noted.numbered record member).ne
  have parts : forall inode, next.Partial inode ↔ state.Partial inode := by
    intro inode
    simp [BackingState.Partial, broken, backups]
  refine ⟨fun record member => ?_, ?_, fun backup member => ?_, fun backup copied member ended => ?_,
    fun request other asked => ?_, fun backup inode member => ?_, fun request inode made => ?_,
    fun backup member stage => ?_, fun inode => ?_⟩
  · rw [requests]
    rw [history] at member
    rcases List.mem_cons.mp member with rfl | member
    · exact Nat.lt_succ_self _
    · exact (noted.numbered record member).trans (Nat.lt_succ_self _)
  · rw [backups, List.map_append, List.perm_append_comm.nodup_iff]
    refine List.nodup_cons.mpr ⟨fun member => ?_, noted.distinct⟩
    obtain ⟨backup, member, same⟩ := List.mem_map.mp member
    exact fresh _ (noted.queued backup member) same
  · rw [backups] at member
    rw [history]
    rcases List.mem_append.mp member with member | member
    · exact List.mem_cons_of_mem _ (noted.queued backup member)
    · rw [List.mem_singleton.mp member]
      exact List.mem_cons_self
  · rw [history] at ended
    rw [backups] at member
    have ended := (List.mem_cons.mp ended).resolve_left nofun
    rcases List.mem_append.mp member with member | member
    · exact noted.running backup copied member ended
    · rw [List.mem_singleton.mp member] at ended
      exact fresh _ ended rfl
  · rw [history] at asked ⊢
    rw [backups]
    rcases List.mem_cons.mp asked with same | asked
    · obtain ⟨rfl, rfl⟩ := Record.queued.inj same
      exact Or.inr ⟨_, List.mem_append_right _ List.mem_cons_self, rfl, rfl⟩
    · refine (noted.served request other asked).imp ?_ ?_
      · exact fun ⟨copied, ended⟩ => ⟨copied, List.mem_cons_of_mem _ ended⟩
      · exact fun ⟨backup, member, same⟩ => ⟨backup, List.mem_append_left _ member, same⟩
  · have skip : .created backup.request inode ∈ next.history ↔
        .created backup.request inode ∈ state.history := by
      rw [history, List.mem_cons]
      exact ⟨fun member => member.resolve_left nofun, Or.inr⟩
    rw [backups] at member
    rw [skip]
    rcases List.mem_append.mp member with member | member
    · exact noted.made backup inode member
    · rw [List.mem_singleton.mp member]
      exact iff_of_false (fun made => fresh _ made rfl) nofun
  · rw [history] at made ⊢
    rw [backups]
    refine (noted.created request inode ((List.mem_cons.mp made).resolve_left nofun)).imp ?_ ?_
    · exact fun ⟨copied, ended⟩ => ⟨copied, List.mem_cons_of_mem _ ended⟩
    · exact fun ⟨backup, member, same⟩ => ⟨backup, List.mem_append_left _ member, same⟩
  · rw [backups] at member
    rcases List.mem_append.mp member with member | member
    · exact noted.early backup member stage
    · rw [List.mem_singleton.mp member]
  · rw [history, filled_cons (fun _ same => by cases same) (fun _ _ same => by cases same), parts]
    exact noted.filled inode

/-- An inode holds a part of a copy from before, or for one of the backups. -/
theorem partial_iff {before after : List Backup} {backup : Backup}
    (whole : state.backups = before ++ backup :: after) (inode : Inode) :
    state.Partial inode ↔ state.broken inode = true ∨ backup.made = some inode ∨
      Exists fun other => other ∈ before ++ after ∧ other.made = some inode := by
  unfold BackingState.Partial
  rw [whole]
  refine or_congr Iff.rfl ⟨?_, ?_⟩
  · rintro ⟨other, member, made⟩
    rcases mem_around.mp member with rfl | member
    · exact Or.inl made
    · exact Or.inr ⟨other, member, made⟩
  · rintro (made | ⟨other, member, made⟩)
    · exact ⟨backup, mem_around.mpr (Or.inl rfl), made⟩
    · exact ⟨other, mem_around.mpr (Or.inr member), made⟩

/-- A backup goes on, and may have created its cache file. -/
theorem replace (noted : Noted state) {before after : List Backup} {backup moved : Backup}
    (records : List Record) (whole : state.backups = before ++ backup :: after)
    (backups : next.backups = before ++ moved :: after)
    (request : moved.request = backup.request) (file : moved.fh = backup.fh)
    (requests : next.requests = state.requests) (history : next.history = records ++ state.history)
    (own : forall record, record ∈ records ->
      Exists fun inode => record = .created backup.request inode)
    (made : forall inode, .created backup.request inode ∈ next.history ↔ moved.made = some inode)
    (early : moved.stage = .queued ∨ moved.stage = .taken ∨ moved.stage = .checked ->
      moved.made = none)
    (filled : forall inode, Filled next.history inode ↔ ¬ next.Partial inode) : Noted next := by
  have known : backup ∈ state.backups := whole ▸ mem_around.mpr (Or.inl rfl)
  have old : forall record, (forall inode, record ≠ .created backup.request inode) ->
      (record ∈ next.history ↔ record ∈ state.history) := by
    intro record other
    rw [history, List.mem_append]
    refine ⟨fun member => member.resolve_left fun new => ?_, Or.inr⟩
    obtain ⟨inode, same⟩ := own record new
    exact other inode same
  have either : forall other, other ∈ next.backups ->
      other = moved ∨ other ∈ before ++ after ∧ other ∈ state.backups := by
    intro other member
    rw [backups] at member
    exact (mem_around.mp member).imp_right fun others =>
      ⟨others, whole ▸ mem_around.mpr (Or.inr others)⟩
  have still : forall other, other ∈ state.backups -> Exists fun after => after ∈ next.backups ∧
      after.request = other.request ∧ after.fh = other.fh := by
    intro other member
    rw [whole] at member
    rw [backups]
    rcases mem_around.mp member with rfl | others
    · exact ⟨moved, mem_around.mpr (Or.inl rfl), request, file⟩
    · exact ⟨other, mem_around.mpr (Or.inr others), rfl, rfl⟩
  refine ⟨fun record member => ?_, ?_, fun other member => ?_, fun other copied member => ?_,
    fun number fh asked => ?_, fun other inode member => ?_, fun number inode was => ?_,
    fun other member stage => ?_, filled⟩
  · rw [requests]
    rw [history] at member
    rcases List.mem_append.mp member with new | member
    · obtain ⟨inode, rfl⟩ := own record new
      exact noted.numbered (.queued backup.request backup.fh) (noted.queued backup known)
    · exact noted.numbered record member
  · have distinct := noted.distinct
    rw [whole] at distinct
    rw [backups]
    simpa [request] using distinct
  · rw [old _ fun _ same => by cases same]
    rcases either other member with rfl | ⟨-, member⟩
    · rw [request, file]
      exact noted.queued backup known
    · exact noted.queued other member
  · rw [old _ fun _ same => by cases same]
    rcases either other member with rfl | ⟨-, member⟩
    · rw [request]
      exact noted.running backup copied known
    · exact noted.running other copied member
  · rw [old _ fun _ same => by cases same] at asked
    refine (noted.served number fh asked).imp ?_ ?_
    · exact fun ⟨copied, ended⟩ => ⟨copied, (old _ fun _ same => by cases same).mpr ended⟩
    · rintro ⟨other, member, rfl, rfl⟩
      exact still other member
  · rcases either other member with rfl | ⟨others, member⟩
    · rw [request]
      exact made inode
    · rw [old _ fun _ same => noted.apart whole others (Record.created.inj same).1]
      exact noted.made other inode member
  · rcases List.mem_append.mp (history ▸ was) with new | was
    · obtain ⟨inode, same⟩ := own _ new
      exact Or.inr ⟨moved, backups ▸ mem_around.mpr (Or.inl rfl),
        request.trans (Record.created.inj same).1.symm⟩
    · refine (noted.created number inode was).imp ?_ ?_
      · exact fun ⟨copied, ended⟩ => ⟨copied, (old _ fun _ same => by cases same).mpr ended⟩
      · rintro ⟨other, member, rfl⟩
        obtain ⟨after, member, same, -⟩ := still other member
        exact ⟨after, member, same⟩
  · rcases either other member with rfl | ⟨-, member⟩
    · exact early stage
    · exact noted.early other member stage

/-- A backup goes on with a stage of its copy. -/
theorem setStage (noted : Noted state) {index : Nat} {backup : Backup} {stage : Stage}
    (inside : state.backups[index]? = some backup)
    (backups : next.backups = state.backups.set index { backup with stage := stage })
    (early : stage = .queued ∨ stage = .taken ∨ stage = .checked -> backup.made = none)
    (requests : next.requests = state.requests) (history : next.history = state.history)
    (broken : next.broken = state.broken) : Noted next := by
  have known := List.mem_of_getElem? inside
  obtain ⟨before, after, whole, -, moved⟩ := exists_around inside
  rw [moved] at backups
  refine noted.replace [] whole backups rfl rfl requests history nofun
    (fun inode => ?_) early fun inode => ?_
  · rw [history]
    exact noted.made backup inode known
  · rw [history, noted.filled, partial_iff whole, partial_iff backups, broken]

/-- `mcachefs_createfile_cache` makes or empties an inode. -/
theorem create (noted : Noted state) {index : Nat} {backup : Backup} (path : Path)
    (inside : state.backups[index]? = some backup) (stage : backup.stage = .checked) :
    Noted (state.create index backup path) := by
  have known := List.mem_of_getElem? inside
  have none := noted.early backup known (Or.inr (Or.inr stage))
  obtain ⟨before, after, whole, -, moved⟩ := exists_around inside
  have created : forall (next : BackingState) (inode : Inode),
      next.backups = before ++ { backup with stage := .created, made := some inode } :: after ->
      next.requests = state.requests ->
      next.history = .created backup.request inode :: state.history ->
      next.broken = state.broken -> Noted next := by
    intro next inode backups requests history broken
    refine noted.replace [.created backup.request inode] whole backups rfl rfl requests history
      (fun record member => ⟨inode, List.mem_singleton.mp member⟩) (fun other => ?_)
      (fun early => by simp at early) fun other => ?_
    · rw [history, List.mem_cons, noted.made backup other known, none]
      simp [eq_comm]
    · by_cases same : other = inode
      · subst same
        refine iff_of_false (fun filled => ?_) (not_not_intro
          ((partial_iff backups other).mpr (Or.inr (Or.inl rfl))))
        rw [history] at filled
        obtain ⟨copied, ended⟩ := (filled backup.request List.mem_cons_self).ended
        exact noted.running backup copied known ((List.mem_cons.mp ended).resolve_left nofun)
      · have away : some inode ≠ some other := fun equal => same (Option.some.inj equal).symm
        rw [history, filled_cons (fun _ equal => same (Record.created.inj equal).2.symm)
          (fun _ _ equal => by cases equal), noted.filled, partial_iff whole, partial_iff backups,
          broken, none]
        simp only [away, reduceCtorEq, false_or]
  unfold BackingState.create
  cases state.cache path with
  | some inode => exact created _ inode (moved _) rfl rfl rfl
  | none => exact created _ state.inodes (moved _) rfl rfl rfl

/-- With a whole copy an inode is filled, unless another backup is left that has made or emptied
it. -/
theorem filled_copied (noted : Noted state) {before after : List Backup} {backup : Backup}
    (whole : state.backups = before ++ backup :: after) (inode : Inode) :
    Filled (.ended backup.request (some inode) :: state.history) inode ↔
      ¬ Exists fun other => other ∈ before ++ after ∧ other.made = some inode := by
  constructor
  · rintro filled ⟨other, others, made⟩
    have member : other ∈ state.backups := whole ▸ mem_around.mpr (Or.inr others)
    have record := (noted.made other inode member).mpr made
    obtain ⟨copied, ended⟩ := (filled other.request (List.mem_cons_of_mem _ record)).ended
    rcases List.mem_cons.mp ended with same | ended
    · exact noted.apart whole others (Record.ended.inj same).1
    · exact noted.running other copied member ended
  · intro none request made
    have made := (List.mem_cons.mp made).resolve_left nofun
    rw [filledSince_cons]
    rcases noted.created request inode made with ended | ⟨other, member, rfl⟩
    · exact Or.inr (Or.inr ⟨⟨_, rfl⟩, ended⟩)
    · rcases mem_around.mp (whole ▸ member) with rfl | others
      · exact Or.inl rfl
      · exact absurd ⟨other, others, (noted.made other inode member).mp made⟩ none

/-- What is filled after the end of a backup. -/
theorem filled_ended (noted : Noted state) {before after : List Backup} {backup : Backup}
    {copied : Option Inode} (whole : state.backups = before ++ backup :: after)
    (backups : next.backups = before ++ after)
    (broken : next.broken = state.brokenAfter backup copied) (inode : Inode) :
    Filled (.ended backup.request copied :: state.history) inode ↔ ¬ next.Partial inode := by
  have parts : next.Partial inode ↔ state.brokenAfter backup copied inode = true ∨
      Exists fun other => other ∈ before ++ after ∧ other.made = some inode := by
    unfold BackingState.Partial
    rw [broken, backups]
  rw [parts]
  by_cases same : some inode = copied
  · subst same
    rw [noted.filled_copied whole]
    simp only [BackingState.brokenAfter, if_true, Bool.false_eq_true, false_or]
  · rw [filled_cons_ended same, noted.filled, partial_iff whole]
    simp only [BackingState.brokenAfter, if_neg same, Bool.or_eq_true, decide_eq_true_eq,
      or_assoc]

/-- A backup ends, after a whole copy or without one. -/
theorem ended (noted : Noted state) {index : Nat} {backup : Backup} {copied : Option Inode}
    (inside : state.backups[index]? = some backup)
    (backups : next.backups = state.backups.eraseIdx index)
    (requests : next.requests = state.requests)
    (history : next.history = .ended backup.request copied :: state.history)
    (broken : next.broken = state.brokenAfter backup copied) : Noted next := by
  have known := List.mem_of_getElem? inside
  obtain ⟨before, after, whole, erased, -⟩ := exists_around inside
  rw [erased] at backups
  have still : forall other, other ∈ next.backups -> other ∈ state.backups := by
    intro other member
    rw [backups] at member
    exact whole ▸ mem_around.mpr (Or.inr member)
  have old : forall record, (forall copied, record ≠ .ended backup.request copied) ->
      (record ∈ next.history ↔ record ∈ state.history) := by
    intro record other
    rw [history, List.mem_cons]
    exact ⟨fun member => member.resolve_left (other copied), Or.inr⟩
  -- The backup of a request that was running has ended now, or runs on.
  have either : forall (request : Nat) (file : Backup -> Prop),
      ((Exists fun copied => .ended request copied ∈ state.history) ∨
        Exists fun other => other ∈ state.backups ∧ other.request = request ∧ file other) ->
      (Exists fun copied => .ended request copied ∈ next.history) ∨
        Exists fun other => other ∈ next.backups ∧ other.request = request ∧ file other := by
    rintro request file (⟨copied, ended⟩ | ⟨other, member, rfl, suits⟩)
    · exact Or.inl ⟨copied, history ▸ List.mem_cons_of_mem _ ended⟩
    · rcases mem_around.mp (whole ▸ member) with rfl | others
      · exact Or.inl ⟨copied, history ▸ List.mem_cons_self⟩
      · exact Or.inr ⟨other, backups ▸ others, rfl, suits⟩
  refine ⟨fun record member => ?_, ?_, fun other member => ?_, fun other copied member => ?_,
    fun request fh asked => ?_, fun other inode member => ?_, fun request inode made => ?_,
    fun other member stage => ?_, fun inode => ?_⟩
  · rw [requests]
    rw [history] at member
    rcases List.mem_cons.mp member with rfl | member
    · exact noted.numbered (.queued backup.request backup.fh) (noted.queued backup known)
    · exact noted.numbered record member
  · have distinct := noted.distinct
    rw [whole, List.map_append, List.map_cons, List.perm_middle.nodup_iff] at distinct
    rw [backups, List.map_append]
    exact (List.nodup_cons.mp distinct).2
  · exact (old _ fun _ same => by cases same).mpr (noted.queued other (still other member))
  · have apart := noted.apart whole (backups ▸ member)
    rw [old _ fun _ same => apart (Record.ended.inj same).1]
    exact noted.running other copied (still other member)
  · rw [old _ fun _ same => by cases same] at asked
    exact either request (fun other => other.fh = fh) (noted.served request fh asked)
  · rw [old _ fun _ same => by cases same]
    exact noted.made other inode (still other member)
  · rw [old _ fun _ same => by cases same] at made
    refine (either request (fun _ => True) ?_).imp_right
      fun ⟨other, member, same, _⟩ => ⟨other, member, same⟩
    exact (noted.created request inode made).imp_right
      fun ⟨other, member, same⟩ => ⟨other, member, same, trivial⟩
  · exact noted.early other (still other member) stage
  · rw [history]
    exact noted.filled_ended whole backups broken inode

theorem backfile (noted : Noted state) (fh : Fh) (accepted : Bool) :
    Noted (state.backfile fh accepted) := by
  unfold BackingState.backfile
  cases held : state.files fh with
  | none => exact noted
  | some file =>
      simp only
      split
      · exact noted
      · split
        · rw [setStatus_eq held]
          exact noted.frame rfl rfl rfl rfl
        · rw [setStatus_eq held]
          split
          · exact noted.queue rfl rfl rfl rfl
          · exact noted.frame rfl rfl rfl rfl

theorem backupStep (noted : Noted state) {index : Nat} {backup : Backup} {file : BackedFile}
    {kind : BackupStep} (inside : state.backups[index]? = some backup)
    (held : state.files backup.fh = some file) :
    Noted (state.backupStep index backup file kind) := by
  have known := List.mem_of_getElem? inside
  have without (stage : backup.stage = .taken ∨ backup.stage = .checked) :
      Noted (state.endBackup index backup) := by
    have nothing := noted.early backup known (Or.inr stage)
    refine noted.ended inside rfl rfl rfl (funext fun inode => ?_)
    simp [BackingState.endBackup, BackingState.brokenAfter, nothing]
  have failed : Noted ((state.setStatus backup.fh .error).setStage index backup .failed) := by
    rw [setStatus_eq held]
    exact noted.setStage inside rfl (fun early => by simp at early) rfl rfl rfl
  cases kind with
  | take =>
      simp only [BackingState.backupStep]
      split
      · next stage =>
          have none := noted.early backup known (Or.inl stage)
          split
          · rw [setStatus_eq held]
            exact noted.setStage inside rfl (fun _ => none) rfl rfl rfl
          · exact noted.setStage inside rfl (fun _ => none) rfl rfl rfl
      · exact noted
  | abandon =>
      simp only [BackingState.backupStep]
      split
      · next stage => exact without stage
      · exact noted
  | check =>
      simp only [BackingState.backupStep]
      split
      · next stage =>
          split
          · exact without (Or.inl stage)
          · exact noted.setStage inside rfl
              (fun _ => noted.early backup known (Or.inr (Or.inl stage))) rfl rfl rfl
      · exact noted
  | create =>
      simp only [BackingState.backupStep]
      split
      · next stage => exact noted.create file.path inside stage
      · exact noted
  | openTarget =>
      simp only [BackingState.backupStep]
      split
      · unfold BackingState.openTarget
        simp only
        split
        · exact noted.setStage inside rfl (fun early => by simp at early) rfl rfl rfl
        · exact noted.setStage inside rfl (fun early => by simp at early) rfl rfl rfl
      · exact noted
  | finish =>
      simp only [BackingState.backupStep]
      split
      · next target stage =>
          unfold BackingState.finish
          rw [setStatus_eq held]
          exact noted.ended inside rfl rfl rfl rfl
      · exact noted
  | fail =>
      simp only [BackingState.backupStep]
      split
      · exact failed
      · exact failed
      · exact noted
  | unlinkFailed =>
      simp only [BackingState.backupStep]
      split
      · exact noted.ended inside rfl rfl rfl rfl
      · exact noted

theorem step (noted : Noted state) (event : Event) : Noted (state.step event) := by
  cases event with
  | openFile fh path =>
      simp only [BackingState.step]
      split
      · exact noted
      · exact noted.frame rfl rfl rfl rfl
  | backfile fh accepted => exact noted.backfile fh accepted
  | openNoCache fh =>
      simp only [BackingState.step, BackingState.openNoCache]
      cases held : state.files fh with
      | none => exact noted
      | some file =>
          simp only
          split
          · rw [setStatus_eq held]
            exact noted.frame rfl rfl rfl rfl
          · exact noted
  | backup index kind =>
      simp only [BackingState.step]
      cases inside : state.backups[index]? with
      | none => exact noted
      | some backup =>
          simp only
          cases held : state.files backup.fh with
          | none => exact noted
          | some file => exact noted.backupStep inside held
  | askWriteback path =>
      simp only [BackingState.step]
      split
      · exact noted.frame rfl rfl rfl rfl
      · exact noted
  | getWriteback index fh =>
      simp only [BackingState.step]
      cases state.asked[index]? with
      | none => exact noted
      | some path =>
          simp only [BackingState.getWriteback]
          split
          · exact noted.frame rfl rfl rfl rfl
          · split
            · exact noted.frame rfl rfl rfl rfl
            · exact noted
  | writeback index =>
      simp only [BackingState.step]
      cases state.got[index]? with
      | none => exact noted
      | some fh =>
          simp only [BackingState.setStatus]
          split
          · exact noted.frame rfl rfl rfl rfl
          · exact noted.frame rfl rfl rfl rfl
  | openBacking fh asked_wr =>
      simp only [BackingState.step]
      split
      · exact noted
      · exact noted.frame rfl rfl rfl rfl
  | unlinkCache path => exact noted.frame rfl rfl rfl rfl
  | repath fh path =>
      simp only [BackingState.step]
      split
      · exact noted
      · exact noted.frame rfl rfl rfl rfl
  | renameCache path toPath =>
      simp only [BackingState.step, BackingState.renameCache]
      split
      · exact noted
      · exact noted.frame rfl rfl rfl rfl
  | remove fh =>
      simp only [BackingState.step]
      split
      · exact noted
      · exact noted.frame rfl rfl rfl rfl

/-- By the history a step is in turn exactly if it finds finished what it takes for finished. -/
theorem inTurn_iff (noted : Noted state) (event : Event) :
    state.InTurn event ↔ state.TrustsFinished event := by
  cases event with
  | backfile fh accepted =>
      simp only [BackingState.InTurn, BackingState.TrustsFinished, noted.settled_iff]
  | openNoCache fh =>
      simp only [BackingState.InTurn, BackingState.TrustsFinished, noted.settled_iff]
  | writeback index =>
      simp only [BackingState.InTurn, BackingState.TrustsFinished, noted.settled_iff]
  | backup index kind =>
      cases kind with
      | finish =>
          simp only [BackingState.InTurn, BackingState.TrustsFinished]
          refine forall_congr' fun backup => forall_congr' fun target => forall_congr' fun file =>
            forall_congr' fun inside => forall_congr' fun stage => forall_congr' fun held => ?_
          have after : Noted (state.finish index backup target) := by
            have step : Noted (state.backupStep index backup file .finish) :=
              noted.backupStep inside held
            simpa only [BackingState.backupStep, stage] using step
          have settled := after.settled_iff backup.fh file.path
          simp only [BackingState.finish, setStatus_eq held] at settled
          refine settled.trans (and_congr Iff.rfl ?_)
          refine forall_congr' fun inode => imp_congr_right fun _ => ?_
          unfold BackingState.Partial
          rw [not_or, Bool.not_eq_true]
          refine and_congr Iff.rfl ⟨fun none other member made => none ⟨other, member, made⟩, ?_⟩
          rintro none ⟨other, member, made⟩
          exact none other member made
      | _ => exact Iff.rfl
  | repath fh path =>
      simp only [BackingState.InTurn, BackingState.TrustsFinished, noted.filled]
  | renameCache path toPath =>
      simp only [BackingState.InTurn, BackingState.TrustsFinished, noted.filled, not_not]
  | _ => exact Iff.rfl

end Noted

/-! ## Runs -/

namespace BackingState

/-- The steps, none of which fails. -/
def take (state : BackingState) (event : Event) : Except Empty BackingState :=
  .ok (state.step event)

/-- From any complete cache files, every open file with the status
`MCACHEFS_FILE_BACKING_DONE` has a complete copy throughout a run exactly when each step
of the run comes in turn. -/
theorem done_is_complete_iff (cached : List Path) (events : List Event) :
    Throughout take DoneIsComplete (fun _ => False) (start cached) events ↔
      EachStep take InTurn (start cached) events := by
  have complete : forall state, Sound state ∧ Noted state -> state.DoneIsComplete :=
    fun state both => both.1.complete
  refine throughout_iff_eachStep complete ?_ ?_ ?_ events ⟨.start cached, .start cached⟩
  · rintro state event next ⟨sound, noted⟩ inTurn taken
    obtain rfl := Except.ok.inj taken
    exact ⟨Sound.step sound ((noted.inTurn_iff event).mp inTurn), noted.step event⟩
  · rintro state event fault
    exact fault.elim
  · rintro state event ⟨-, noted⟩ outOfTurn
    exact ⟨_, rfl, fun good => outOfTurn ((noted.inTurn_iff event).mpr (trusts_of_done good))⟩

/-- The journal still has an fsync entry for a file of a name that another file
has got meanwhile.  The write-back that the entry asks for comes while that
file is being copied. -/
theorem writeback_during_copy :
    ¬ Throughout take DoneIsComplete (fun _ => False) (start [])
      [.openFile 1 [102], .backfile 1 true, .backup 0 .take, .backup 0 .check,
        .backup 0 .create, .askWriteback [102], .getWriteback 0 1, .writeback 0] := by
  intro throughout
  obtain ⟨-, -, -, -, -, -, -, -, done⟩ := throughout
  exact (done 1 _ rfl rfl).1 _ (List.mem_singleton.mpr rfl) rfl

end BackingState

end Backing
end Mcachefs
