import Mcachefs.Metadata.HardLinks
import Mathlib.Data.List.Cycle

namespace Mcachefs
namespace HardLinks

open Library LinkState

/-!
# Attributes of hard links

The entries of the names of one file have a copy of its attributes each.  What
changes the attributes of one of them has to call
`mcachefs_metadata_notify_update`, which copies them round the ring; the
callbacks for truncate and utime do not.
-/

namespace LinkState

/-- Change the attributes of an entry and copy them to the other entries. -/
def changeAndNotify (fuel : Nat) (change : Stat -> Stat) (mdata : Id) (state : LinkState) :
    Except Fault LinkState :=
  match state.entries mdata with
  | none => .error .nullPointer
  | some entry =>
      let entry := { entry with st := change entry.st }
      notifyUpdate fuel mdata entry (state.setEntry mdata entry)

/-- Change the attributes of an entry alone. -/
def changeOnly (change : Stat -> Stat) (mdata : Id) (state : LinkState) :
    Except Fault LinkState :=
  match state.entries mdata with
  | none => .error .nullPointer
  | some entry => .ok (state.setEntry mdata { entry with st := change entry.st })

/-- The section of `mcachefs_chmod` under the metadata lock. -/
def chmod (fuel : Nat) (mode : UInt32) (mdata : Id) (state : LinkState) : Except Fault LinkState :=
  state.changeAndNotify fuel (chmodStat mode) mdata

/-- The section of `mcachefs_chown` under the metadata lock. -/
def chown (fuel : Nat) (uid gid : UInt32) (mdata : Id) (state : LinkState) :
    Except Fault LinkState :=
  state.changeAndNotify fuel (chownStat uid gid) mdata

/-- The section of `mcachefs_truncate` under the metadata lock. -/
def truncate (size : Int) (mdata : Id) (state : LinkState) : Except Fault LinkState :=
  state.changeOnly (truncateStat size) mdata

/-- The section of `mcachefs_utime` under the metadata lock. -/
def utime (actime modtime : Int) (mdata : Id) (state : LinkState) : Except Fault LinkState :=
  state.changeOnly (utimeStat actime modtime) mdata

/-- `mcachefs_file_update_metadata` for an open file of the entry. -/
def fileUpdateMetadata (fuel : Nat) (now size : Int) (modified : Bool) (mdata : Id)
    (state : LinkState) : Except Fault LinkState :=
  state.changeAndNotify fuel (updateStat now size modified) mdata

end LinkState

/-- A call that changes attributes. -/
inductive Attribute
  | chmod (mode : UInt32)
  | chown (uid gid : UInt32)
  | truncate (size : Int)
  | utime (actime modtime : Int)
  | updateMetadata (now size : Int) (modified : Bool)
  deriving DecidableEq, Repr

/-- Such a call on one of these entries. -/
structure AttributeCall (ids : List Id) where
  mdata : Id
  member : mdata ∈ ids
  kind : Attribute

/-- The call on a store; `fuel` is for the loop round the ring. -/
def attributeStep (fuel : Nat) (ids : List Id) (state : LinkState) (call : AttributeCall ids) :
    Except Fault LinkState :=
  match call.kind with
  | .chmod mode => state.chmod fuel mode call.mdata
  | .chown uid gid => state.chown fuel uid gid call.mdata
  | .truncate size => state.truncate size call.mdata
  | .utime actime modtime => state.utime actime modtime call.mdata
  | .updateMetadata now size modified => state.fileUpdateMetadata fuel now size modified call.mdata

/-- Regular files whose ids `hardlink` form one cycle, and that each know how
many they are. -/
structure FileRing (state : LinkState) (ids : List Id) : Prop where
  nodup : ids.Nodup
  nonzero : (0 : Id) ∉ ids
  entries : forall id, id ∈ ids -> Exists fun entry => state.entries id = some entry ∧
    entry.st.isReg = true ∧ entry.st.st_nlink = ids.length
  links : 1 < ids.length -> Cycle.Chain
    (fun one two => (state.entries one).map LinkEntry.hardlink = some two) ids

/-- All of them have the same attributes. -/
def SharedStat (ids : List Id) (state : LinkState) : Prop :=
  forall one two, one ∈ ids -> two ∈ ids ->
    (state.entries one).map LinkEntry.st = (state.entries two).map LinkEntry.st

/-- The calls that leave the other entries of the ring alone, truncate and
utime, change nothing either, or there are no others. -/
def NothingToCopy (ids : List Id) (state : LinkState) (call : AttributeCall ids) : Prop :=
  match call.kind with
  | .truncate size => ids.length = 1 ∨
      (state.entries call.mdata).map (fun entry => entry.st.st_size) = some size
  | .utime actime modtime => ids.length = 1 ∨
      (state.entries call.mdata).map (fun entry => (entry.st.st_atime, entry.st.st_mtime)) =
        some (actime, modtime)
  | _ => True

/-! ## One call -/

variable {state next : LinkState} {ids rest : List Id} {mdata id : Id} {st : Stat} {fuel : Nat}
  {change : Stat -> Stat}

/-- The attributes of these entries are replaced. -/
def LinkState.shareStat (state : LinkState) (st : Stat) (ids : List Id) : LinkState :=
  { state with entries := fun id =>
      if id ∈ ids then (state.entries id).map fun entry => { entry with st := st }
      else state.entries id }

theorem setEntry_hardlink {entry : LinkEntry} (found : state.entries id = some entry) (other : Id) :
    ((state.setEntry id { entry with st := st }).entries other).map LinkEntry.hardlink =
      (state.entries other).map LinkEntry.hardlink := by
  by_cases same : other = id
  · subst same
    simp [LinkState.setEntry, found]
  · simp [LinkState.setEntry, same]

theorem shareStat_congr {others : List Id} (same : forall id, id ∈ others ↔ id ∈ ids) :
    state.shareStat st others = state.shareStat st ids := by
  unfold LinkState.shareStat
  simp only [same]

theorem setEntry_shareStat {entry : LinkEntry} (found : state.entries id = some entry) :
    (state.setEntry id { entry with st := st }).shareStat st ids = state.shareStat st (id :: ids) := by
  unfold LinkState.shareStat LinkState.setEntry
  congr 1
  funext other
  by_cases same : other = id
  · subst same
    simp [found]
  · simp [same]

/-- The loop copies the attributes to every entry from `next` on until it is
back at the one it began with. -/
theorem notifyLoop_ok {first : Id} (fuelled : rest.length < fuel)
    (nonzero : forall id, id ∈ first :: rest -> id ≠ 0) (apart : mdata ∉ rest)
    (links : List.IsChain
      (fun one two => (state.entries one).map LinkEntry.hardlink = some two)
      ((first :: rest) ++ [mdata])) :
    state.notifyLoop mdata st fuel first = .ok (state.shareStat st (first :: rest)) := by
  induction rest generalizing first fuel state with
  | nil =>
      obtain ⟨fuel, rfl⟩ : Exists fun less => fuel = less + 1 := ⟨fuel - 1, by omega⟩
      have back := (List.isChain_cons_cons.mp links).1
      obtain ⟨entry, found, hardlink⟩ := Option.map_eq_some_iff.mp back
      have none : (state.setEntry first { entry with st := st }).shareStat st [] =
          state.setEntry first { entry with st := st } := by
        simp [LinkState.shareStat]
      rw [notifyLoop, if_neg (nonzero first List.mem_cons_self), found]
      simp only [if_pos hardlink]
      rw [← setEntry_shareStat found, none]
  | cons second rest inductionHypothesis =>
      obtain ⟨fuel, rfl⟩ : Exists fun less => fuel = less + 1 := ⟨fuel - 1, by omega⟩
      obtain ⟨here, later⟩ := List.isChain_cons_cons.mp links
      obtain ⟨entry, found, hardlink⟩ := Option.map_eq_some_iff.mp here
      have goesOn : entry.hardlink ≠ mdata := fun equal =>
        apart (hardlink ▸ equal ▸ List.mem_cons_self)
      rw [notifyLoop, if_neg (nonzero first List.mem_cons_self), found]
      simp only [if_neg goesOn]
      subst hardlink
      rw [← setEntry_shareStat found]
      refine inductionHypothesis ?_ (fun id member => nonzero id (List.mem_cons_of_mem _ member))
        (fun member => apart (List.mem_cons_of_mem _ member)) (later.imp fun one two link => ?_)
      · rw [List.length_cons] at fuelled
        omega
      · rw [setEntry_hardlink found]
        exact link

/-- The other entries of the ring, in the order of the links. -/
theorem FileRing.others (ring : FileRing state ids) (member : mdata ∈ ids) :
    Exists fun rest => (mdata :: rest).Nodup ∧ ids.length = rest.length + 1 ∧
      (forall id, id ∈ mdata :: rest ↔ id ∈ ids) ∧
      (rest ≠ [] -> List.IsChain
        (fun one two => (state.entries one).map LinkEntry.hardlink = some two)
        (mdata :: (rest ++ [mdata]))) := by
  obtain ⟨before, after, rfl⟩ := List.append_of_mem member
  have rotated : (mdata :: after) ++ before ~r before ++ mdata :: after := List.isRotated_append
  refine ⟨after ++ before, ?_, ?_, fun id => ?_, fun some => ?_⟩
  · exact rotated.nodup_iff.mpr ring.nodup
  · simp
    omega
  · exact rotated.mem_iff
  · have many : 1 < (before ++ mdata :: after).length := by
      have length := List.length_pos_of_ne_nil some
      simp at length ⊢
      omega
    have chain := ring.links many
    rw [← Cycle.coe_eq_coe.mpr rotated] at chain
    exact chain

/-- What keeps the type of a file and its count of links. -/
structure KeepsLinks (change : Stat -> Stat) : Prop where
  type : forall st, (change st).isReg = st.isReg
  count : forall st, (change st).st_nlink = st.st_nlink

/-- A change that is copied round the ring reaches all of its entries. -/
theorem changeAndNotify_ok (ring : FileRing state ids) (member : mdata ∈ ids)
    (keeps : KeepsLinks change) (fuelled : ids.length ≤ fuel) :
    Exists fun st => state.changeAndNotify fuel change mdata = .ok (state.shareStat st ids) ∧
      st.isReg = true ∧ st.st_nlink = ids.length := by
  obtain ⟨entry, found, regular, count⟩ := ring.entries mdata member
  obtain ⟨rest, nodup, length, same, links⟩ := ring.others member
  have regular := (keeps.type entry.st).trans regular
  have count := (keeps.count entry.st).trans count
  refine ⟨change entry.st, ?_, regular, count⟩
  rw [← shareStat_congr same, changeAndNotify, found]
  simp only [notifyUpdate, regular, count]
  rcases rest with _ | ⟨first, rest⟩
  · rw [if_pos (by simp [length]), ← setEntry_shareStat found]
    simp [LinkState.shareStat]
  · have chain := links (List.cons_ne_nil _ _)
    obtain ⟨link, chain⟩ := List.isChain_cons_cons.mp chain
    have hardlink : entry.hardlink = first := by
      rw [found] at link
      exact Option.some.inj link
    have nonzero : forall id, id ∈ first :: rest -> id ≠ 0 := by
      rintro id inside rfl
      exact ring.nonzero ((same 0).mp (List.mem_cons_of_mem _ inside))
    subst hardlink
    have many : ¬(¬True ∨ ids.length ≤ 1) := by
      rw [length, List.length_cons]
      simp
    rw [if_neg many, if_neg (nonzero _ List.mem_cons_self),
      ← setEntry_shareStat found]
    refine notifyLoop_ok ?_ nonzero ?_ (chain.imp fun one two link => ?_)
    · rw [length, List.length_cons] at fuelled
      omega
    · exact fun inside => (List.nodup_cons.mp nodup).1 (List.mem_cons_of_mem _ inside)
    · rw [setEntry_hardlink found]
      exact link

/-- A ring stays a ring when its attributes are replaced, and shares them. -/
theorem shareStat_ring (ring : FileRing state ids) (regular : st.isReg = true)
    (count : st.st_nlink = ids.length) :
    FileRing (state.shareStat st ids) ids ∧ SharedStat ids (state.shareStat st ids) := by
  have replaced : forall id, id ∈ ids -> Exists fun entry : LinkEntry =>
      (state.shareStat st ids).entries id = some { entry with st := st } := by
    intro id member
    obtain ⟨entry, found, -⟩ := ring.entries id member
    exact ⟨entry, by simp [LinkState.shareStat, member, found]⟩
  refine ⟨⟨ring.nodup, ring.nonzero, fun id member => ?_, fun many => ?_⟩,
    fun one two memberOne memberTwo => ?_⟩
  · obtain ⟨entry, found⟩ := replaced id member
    exact ⟨_, found, regular, count⟩
  · refine (ring.links many).imp fun one two link => ?_
    simp only [LinkState.shareStat]
    split
    · rw [Option.map_map]
      exact link
    · exact link
  · obtain ⟨first, foundOne⟩ := replaced one memberOne
    obtain ⟨second, foundTwo⟩ := replaced two memberTwo
    rw [foundOne, foundTwo]
    rfl

/-- A change of one entry keeps the ring. -/
theorem changeOnly_ok (ring : FileRing state ids) (member : mdata ∈ ids)
    (keeps : KeepsLinks change) :
    Exists fun entry => state.entries mdata = some entry ∧
      state.changeOnly change mdata =
        .ok (state.setEntry mdata { entry with st := change entry.st }) ∧
      FileRing (state.setEntry mdata { entry with st := change entry.st }) ids := by
  obtain ⟨entry, found, regular, count⟩ := ring.entries mdata member
  refine ⟨entry, found, by rw [changeOnly, found], ring.nodup, ring.nonzero, fun id inside => ?_,
    fun many => ?_⟩
  · by_cases same : id = mdata
    · subst same
      exact ⟨_, Function.update_self .., (keeps.type entry.st).trans regular,
        (keeps.count entry.st).trans count⟩
    · obtain ⟨other, foundOther, rest⟩ := ring.entries id inside
      exact ⟨other, (Function.update_of_ne same _ _).trans foundOther, rest⟩
  · refine (ring.links many).imp fun one two link => ?_
    rw [setEntry_hardlink found]
    exact link

/-- The others keep their attributes, so that the ring shares them afterwards
exactly if there are none or nothing changed. -/
theorem changeOnly_shared_iff {entry : LinkEntry} (ring : FileRing state ids)
    (shared : SharedStat ids state) (member : mdata ∈ ids) (found : state.entries mdata = some entry)
    {changed : Stat} :
    SharedStat ids (state.setEntry mdata { entry with st := changed }) ↔
      ids.length = 1 ∨ entry.st = changed := by
  constructor
  · intro after
    obtain ⟨rest, nodup, length, same, -⟩ := ring.others member
    rcases rest with _ | ⟨other, rest⟩
    · exact .inl length
    · right
      have inside : other ∈ ids := (same other).mp (by simp)
      have apart : other ≠ mdata := by
        rintro rfl
        simp at nodup
      have before := shared mdata other member inside
      have now := after mdata other member inside
      simp only [LinkState.setEntry, Function.update_self, Function.update_of_ne apart] at now
      rw [← before, found] at now
      exact (Option.some.inj now).symm
  · rintro (alone | nothing)
    · obtain ⟨rest, -, length, same, -⟩ := ring.others member
      have none : rest = [] := List.length_eq_zero_iff.mp (by omega)
      subst none
      intro one two memberOne memberTwo
      rw [List.mem_singleton.mp ((same one).mpr memberOne),
        List.mem_singleton.mp ((same two).mpr memberTwo)]
    · have unchanged : state.setEntry mdata { entry with st := changed } = state := by
        rw [← nothing, LinkState.setEntry]
        congr 1
        exact (congrArg (Function.update state.entries mdata) found.symm).trans
          (Function.update_eq_self _ _)
      rw [unchanged]
      exact shared

/-! ## Runs -/

theorem keepsLinks_chmod (mode : UInt32) : KeepsLinks (chmodStat mode) where
  type st := by simp only [Stat.isReg, chmodStat, chmodMode_type]
  count _ := rfl

theorem keepsLinks_chown (uid gid : UInt32) : KeepsLinks (chownStat uid gid) :=
  ⟨fun _ => rfl, fun _ => rfl⟩

theorem keepsLinks_truncate (size : Int) : KeepsLinks (truncateStat size) :=
  ⟨fun _ => rfl, fun _ => rfl⟩

theorem keepsLinks_utime (actime modtime : Int) : KeepsLinks (utimeStat actime modtime) :=
  ⟨fun _ => rfl, fun _ => rfl⟩

theorem keepsLinks_update (now size : Int) (modified : Bool) :
    KeepsLinks (updateStat now size modified) :=
  ⟨fun _ => rfl, fun _ => rfl⟩

/-- A call that copies the attributes leads to a ring that shares them. -/
theorem notified (ring : FileRing state ids) (member : mdata ∈ ids) (keeps : KeepsLinks change)
    (fuelled : ids.length ≤ fuel) :
    Exists fun next => state.changeAndNotify fuel change mdata = .ok next ∧
      FileRing next ids ∧ SharedStat ids next := by
  obtain ⟨st, result, regular, count⟩ := changeAndNotify_ok ring member keeps fuelled
  obtain ⟨after, shared⟩ := shareStat_ring ring regular count
  exact ⟨_, result, after, shared⟩

/-- A call that does not leads to a ring that shares them exactly if there was
nothing to copy. -/
theorem unnotified (ring : FileRing state ids) (shared : SharedStat ids state)
    (member : mdata ∈ ids) (keeps : KeepsLinks change) :
    Exists fun next => state.changeOnly change mdata = .ok next ∧ FileRing next ids ∧
      (SharedStat ids next ↔ ids.length = 1 ∨ forall entry, state.entries mdata = some entry ->
        entry.st = change entry.st) := by
  obtain ⟨entry, found, result, after⟩ := changeOnly_ok ring member keeps
  refine ⟨_, result, after, (changeOnly_shared_iff ring shared member found).trans ?_⟩
  simp [found]

/-- What a call on an entry of a ring does. -/
theorem attributeStep_ok (fuelled : ids.length ≤ fuel) (ring : FileRing state ids)
    (shared : SharedStat ids state) (call : AttributeCall ids) :
    Exists fun next => attributeStep fuel ids state call = .ok next ∧ FileRing next ids ∧
      (SharedStat ids next ↔ NothingToCopy ids state call) := by
  obtain ⟨mdata, member, kind⟩ := call
  cases kind with
  | chmod mode =>
      obtain ⟨next, result, after, shared⟩ := notified ring member (keepsLinks_chmod mode) fuelled
      exact ⟨next, result, after, iff_of_true shared trivial⟩
  | chown uid gid =>
      obtain ⟨next, result, after, shared⟩ := notified ring member (keepsLinks_chown uid gid) fuelled
      exact ⟨next, result, after, iff_of_true shared trivial⟩
  | updateMetadata now size modified =>
      obtain ⟨next, result, after, shared⟩ :=
        notified ring member (keepsLinks_update now size modified) fuelled
      exact ⟨next, result, after, iff_of_true shared trivial⟩
  | truncate size =>
      obtain ⟨next, result, after, shared⟩ :=
        unnotified ring shared member (keepsLinks_truncate size)
      obtain ⟨entry, found, -⟩ := ring.entries mdata member
      refine ⟨next, result, after, shared.trans (or_congr_right ?_)⟩
      simp only [found, truncateStat, Option.some.injEq, forall_eq', Option.map_some]
      exact ⟨fun same => congrArg Stat.st_size same, fun same => by rw [← same]⟩
  | utime actime modtime =>
      obtain ⟨next, result, after, shared⟩ :=
        unnotified ring shared member (keepsLinks_utime actime modtime)
      obtain ⟨entry, found, -⟩ := ring.entries mdata member
      refine ⟨next, result, after, shared.trans (or_congr_right ?_)⟩
      simp only [found, utimeStat, Option.some.injEq, forall_eq', Option.map_some, Prod.mk.injEq]
      exact ⟨fun same => ⟨congrArg Stat.st_atime same, congrArg Stat.st_mtime same⟩,
        fun same => by rw [← same.1, ← same.2]⟩

/-- The entries of a ring share their attributes throughout exactly the runs in
which no truncate and no utime of one of several entries changes anything. -/
theorem sharedStat_iff (fuelled : ids.length ≤ fuel) (ring : FileRing state ids)
    (shared : SharedStat ids state) (calls : List (AttributeCall ids)) :
    Throughout (attributeStep fuel ids) (SharedStat ids) (fun _ => False) state calls ↔
      EachStep (attributeStep fuel ids) (NothingToCopy ids) state calls := by
  have enough : forall state, FileRing state ids ∧ SharedStat ids state -> SharedStat ids state :=
    fun _ both => both.2
  refine throughout_iff_eachStep enough ?_ ?_ ?_ calls ⟨ring, shared⟩
  · rintro state call next ⟨ring, shared⟩ nothing result
    obtain ⟨after, same, still, iff⟩ := attributeStep_ok fuelled ring shared call
    rw [same] at result
    cases result
    exact ⟨still, iff.mpr nothing⟩
  · rintro state call fault ⟨ring, shared⟩ - result
    obtain ⟨after, same, -⟩ := attributeStep_ok fuelled ring shared call
    rw [same] at result
    cases result
  · rintro state call ⟨ring, shared⟩ something
    obtain ⟨after, same, -, iff⟩ := attributeStep_ok fuelled ring shared call
    exact ⟨after, same, fun bad => something (iff.mp bad)⟩

/-- Two names of one regular file. -/
def twoNames : LinkState :=
  let st := { Stat.zero with st_mode := S_IFREG ||| 0o644, st_nlink := 2 }
  { init with entries := fun id =>
      if id = 1 then some ⟨st, 2, 0⟩ else if id = 2 then some ⟨st, 1, 0⟩ else none }

theorem twoNames_ring : FileRing twoNames [1, 2] where
  nodup := by decide
  nonzero := by decide
  entries id member := by
    rcases List.mem_pair.mp member with rfl | rfl
    · exact ⟨_, rfl, by decide, rfl⟩
    · exact ⟨_, rfl, by decide, rfl⟩
  links _ := by
    rw [Cycle.chain_coe_cons]
    exact .cons_cons rfl (.cons_cons rfl (.singleton 1))

theorem twoNames_shared : SharedStat [1, 2] twoNames := by
  intro one two memberOne memberTwo
  rcases List.mem_pair.mp memberOne with rfl | rfl <;>
    rcases List.mem_pair.mp memberTwo with rfl | rfl <;> rfl

theorem sharedStat_twoNames : Throughout (attributeStep 2 [1, 2]) (SharedStat [1, 2])
    (fun _ => False) twoNames [⟨1, by simp, .chmod 0o600⟩, ⟨2, by simp, .truncate 0⟩] :=
  (sharedStat_iff le_rfl twoNames_ring twoNames_shared _).mpr ⟨trivial, .inr rfl, trivial⟩

/-- A truncate leaves the other name with the old size. -/
theorem truncate_of_twoNames : FileRing twoNames [1, 2] ∧ SharedStat [1, 2] twoNames ∧
    Exists fun next => attributeStep 2 [1, 2] twoNames ⟨1, by simp, .truncate 5⟩ = .ok next ∧
      ¬ SharedStat [1, 2] next := by
  refine ⟨twoNames_ring, twoNames_shared, _, rfl, fun shared => ?_⟩
  have same := congrArg (Option.map Stat.st_size) (shared 1 2 (by simp) (by simp))
  exact absurd same (by decide)

end HardLinks
end Mcachefs
