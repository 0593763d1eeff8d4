import Mcachefs.Lowlevel.Lookups
import Mcachefs.Metadata.ShownStart

namespace Mcachefs
namespace Lowlevel

open Library Metadata Journal

/-!
# The callbacks that read

`mcachefs_getattr`, `mcachefs_readdir` and `mcachefs_readlink` change the metadata too:
each looks a path up, and a lookup reads directories of the source.
-/

def EINVAL : Int := 22

/-- `fuse_fill_dir_t`: it is given the entries one by one, and a result that is not `0` says
that there is no room for this one. -/
abbrev Filler := List (Component × Stat) -> Component × Stat -> Int

/-- What `mcachefs_readlink` gets from the file systems. -/
structure LinkAnswers where
  /-- `mcachefs_makepath_cache` gets its memory. -/
  makepath : Bool
  /-- `readlink` of the cache and of the source. -/
  backing : Option Path
  real : Except Errno Path

namespace Mount

variable {Hash : Type} [DecidableEq Hash] [Inhabited Hash] (env : Env Hash) (mount : Mount Hash)

/-- `mcachefs_metadata_getattr`, which gives a directory without a size that of a block. -/
def getattr (path : Path) : Except Fault ((Int × Option Stat) × Mount Hash) := do
  let (mdata, fs) ← metadata (mount.fs.findLocked env path)
  if mdata = 0 then .ok ((-ENOENT, none), { mount with fs := fs })
  else
    let st := (fs.entries mdata).st
    let stbuf := if st.isDir ∧ st.st_size = 0 then { st with st_size := 2 ^ 12 } else st
    .ok ((0, some stbuf), { mount with fs := fs })

omit [DecidableEq Hash] [Inhabited Hash] in
/-- The loop of `mcachefs_readdir` over the children, with what has been listed before. -/
def readdirLoop (filler : Filler) (fs : Fs Hash) : (fuel : Nat) -> (mchild : Id) ->
    List (Component × Stat) -> Except Metadata.Fault (Int × List (Component × Stat))
  | 0, _, _ => .error .fuel
  | fuel + 1, mchild, listed =>
      if mchild = 0 then .ok (0, listed)
      else
        let de := ((fs.entries mchild).d_name, (fs.entries mchild).st)
        let res := filler listed de
        if res ≠ 0 then .ok (res, listed)
        else readdirLoop filler fs fuel (fs.next mchild) (listed ++ [de])

/-- The attributes that `mcachefs_readdir` gives `.` and `..`. -/
def dotStat : Stat := { Stat.zero with st_mode := S_IFDIR }

/-- `mcachefs_readdir`, with the entries that had room. -/
def readdir (filler : Filler) (path : Path) :
    Except Fault ((Int × List (Component × Stat)) × Mount Hash) :=
  let res := filler [] (dot, dotStat)
  if res ≠ 0 then .ok ((res, []), mount)
  else
    let res := filler [(dot, dotStat)] (dotdot, dotStat)
    if res ≠ 0 then .ok ((res, [(dot, dotStat)]), mount)
    else do
      let listed := [(dot, dotStat), (dotdot, dotStat)]
      let (mfather, fs) ← metadata (mount.fs.findLocked env path)
      if mfather = 0 then .ok ((-ENOENT, listed), { mount with fs := fs })
      else do
        let (mchild, fs) ← metadata (fs.getChild env mfather)
        let ended ← metadata (readdirLoop filler fs env.fuel mchild listed)
        .ok (ended, { mount with fs := fs })

/-- `mcachefs_readlink`; what it copies to the cache is outside. -/
def readlink (answers : LinkAnswers) (path : Path) :
    Except Fault ((Int × Option Path) × Mount Hash) := do
  let (mdata, fs) ← metadata (mount.fs.findLocked env path)
  let mount := { mount with fs := fs }
  if mdata = 0 then .ok ((-ENOENT, none), mount)
  else if (fs.entries mdata).st.isLnk = false then .ok ((-EINVAL, none), mount)
  else if answers.makepath = false then .ok ((-ENOMEM, none), mount)
  else
    match answers.backing, answers.real with
    | some target, _ => .ok ((0, some target), mount)
    | none, .ok target => .ok ((0, some target), mount)
    | none, .error errno => .ok ((-errno.value, none), mount)

end Mount

section Readdir

variable {Hash : Type} {filler : Filler} {fs : Fs Hash} {mchild : Id} {res : Int}
  {listed all : List (Component × Stat)} {fuel : Nat}

end Readdir

/-! ## What is seen of a namespace -/

section Seen

variable {Hash : Type} [DecidableEq Hash] [Inhabited Hash] {env : Env Hash} {st : Stat}
  {strings : Path -> Prop} {space : Namespace Component UInt32} {mount next : Mount Hash}
  {names : List Component} {name : Component} {path : Path} {res : Int}

theorem getattr_populated {result : Int × Option Stat} (isTree : IsTree mount.fs)
    (got : mount.getattr env path = .ok (result, next)) :
    Populated env mount.fs next.fs ∧ next.journal = mount.journal := by
  obtain ⟨⟨mdata, fs⟩, lookup, got⟩ := bind_eq_ok.mp got
  rw [metadata_eq_ok] at lookup
  have populated := (findLocked_populated isTree lookup).1
  simp only at got
  split at got
  · obtain ⟨-, rfl⟩ := Prod.mk.inj (Except.ok.inj got)
    exact ⟨populated, rfl⟩
  · obtain ⟨-, rfl⟩ := Prod.mk.inj (Except.ok.inj got)
    exact ⟨populated, rfl⟩

theorem readlink_populated {answers : LinkAnswers} {result : Int × Option Path}
    (isTree : IsTree mount.fs) (got : mount.readlink env answers path = .ok (result, next)) :
    Populated env mount.fs next.fs ∧ next.journal = mount.journal := by
  obtain ⟨⟨mdata, fs⟩, lookup, got⟩ := bind_eq_ok.mp got
  rw [metadata_eq_ok] at lookup
  have populated := (findLocked_populated isTree lookup).1
  have last : next = { mount with fs := fs } := by
    simp only at got
    split at got
    · exact (Prod.mk.inj (Except.ok.inj got)).2.symm
    · split at got
      · exact (Prod.mk.inj (Except.ok.inj got)).2.symm
      · split at got
        · exact (Prod.mk.inj (Except.ok.inj got)).2.symm
        · split at got <;> exact (Prod.mk.inj (Except.ok.inj got)).2.symm
  rw [last]
  exact ⟨populated, rfl⟩

/-- How a list of the children ends: it was given up early, or it has gone on from a lookup
that has found the directory. -/
theorem readdir_cases {filler : Filler} {listed : List (Component × Stat)}
    (result : mount.readdir env filler path = .ok ((res, listed), next)) :
    res ≠ 0 ∧ next = mount ∨
      Exists fun mfather => Exists fun fs =>
        mount.fs.findLocked env path = .ok (mfather, fs) ∧
          (mfather = 0 ∧ res = -ENOENT ∧ next = { mount with fs := fs } ∨
            mfather ≠ 0 ∧ Exists fun mchild => Exists fun last =>
              fs.getChild env mfather = .ok (mchild, last) ∧ next = { mount with fs := last } ∧
                Mount.readdirLoop filler last env.fuel mchild
                  [(dot, Mount.dotStat), (dotdot, Mount.dotStat)] = .ok (res, listed)) := by
  unfold Mount.readdir at result
  simp only at result
  split at result
  · next full =>
      obtain ⟨both, rfl⟩ := Prod.mk.inj (Except.ok.inj result)
      exact Or.inl ⟨(Prod.mk.inj both).1 ▸ full, rfl⟩
  · split at result
    · next full =>
        obtain ⟨both, rfl⟩ := Prod.mk.inj (Except.ok.inj result)
        exact Or.inl ⟨(Prod.mk.inj both).1 ▸ full, rfl⟩
    · obtain ⟨⟨mfather, fs⟩, lookup, result⟩ := bind_eq_ok.mp result
      rw [metadata_eq_ok] at lookup
      refine Or.inr ⟨mfather, fs, lookup, ?_⟩
      simp only at result
      split at result
      · next none =>
          obtain ⟨both, rfl⟩ := Prod.mk.inj (Except.ok.inj result)
          exact Or.inl ⟨none, (Prod.mk.inj both).1.symm, rfl⟩
      · next present =>
          obtain ⟨⟨mchild, last⟩, read, result⟩ := bind_eq_ok.mp result
          rw [metadata_eq_ok] at read
          obtain ⟨ended, loop, result⟩ := bind_eq_ok.mp result
          rw [metadata_eq_ok] at loop
          obtain ⟨rfl, rfl⟩ := Prod.mk.inj (Except.ok.inj result)
          exact Or.inr ⟨present, mchild, last, read, rfl, loop⟩

theorem readdir_populated {filler : Filler} {result : Int × List (Component × Stat)}
    (isTree : IsTree mount.fs) (listing : mount.readdir env filler path = .ok (result, next)) :
    Populated env mount.fs next.fs ∧ next.journal = mount.journal := by
  rcases readdir_cases listing with ⟨-, rfl⟩ | ⟨mfather, fs, lookup, ends⟩
  · exact ⟨.refl, rfl⟩
  · obtain ⟨populated, known⟩ := findLocked_populated isTree lookup
    rcases ends with ⟨-, -, rfl⟩ | ⟨present, mchild, last, read, rfl, -⟩
    · exact ⟨populated, rfl⟩
    · exact ⟨.step populated (known present) read, rfl⟩

end Seen

end Lowlevel
end Mcachefs
