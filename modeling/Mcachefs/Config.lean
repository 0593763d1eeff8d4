import Mcachefs.VopsFile

namespace Mcachefs

open Library VopsFile

/-!
# The cache prefix

`mcachefs_config_set_cache_prefix` takes the mountpoint off the string it is given, keeps
a copy on the heap and takes a last separator off the copy.  The copy has the bytes of the
string and its NUL; `none` is a read behind that NUL.
-/

/-- The fields of `struct mcachefs_config` that the setter touches. -/
structure Config where
  mountpoint : Path
  cachePrefix : Option (List Byte)
deriving DecidableEq

/-- `trim_last_separator`, which looks at `mp[1]` before `mp[0]`. -/
def trimLastSeparator : (path : List Byte) -> Option (List Byte)
  | [] => none
  | [_] => none
  | here :: next :: path =>
      if next = 0 then some ((if here = slash then 0 else here) :: next :: path)
      else (trimLastSeparator (next :: path)).map (here :: ·)

/-- `mcachefs_config_set_cache_prefix`. -/
def Config.setCachePrefix (config : Config) : (given : Option Path) -> Option Config
  | none => some config
  | some given =>
      let mountpoint := config.mountpoint
      let stripped :=
        if strncmpEqual given mountpoint mountpoint.length then given.drop mountpoint.length
        else given
      (trimLastSeparator (stripped ++ [0])).map fun trimmed =>
        { config with cachePrefix := some trimmed }

/-- `mcachefs_config_get_cache_prefix`, as its reader sees it. -/
def Config.getCachePrefix (config : Config) : Option Path :=
  config.cachePrefix.map cString

/-- A call that the parse of a virtual file makes; the other setters are for other fields. -/
def Config.call (config : Config) : SetterCall -> Option Config
  | .setInt _ _ => some config
  | .setString .setCachePrefix value => config.setCachePrefix value

/-- The release of a handle on `/.mcachefs/cache_prefix` that was open for writing. -/
def Config.releaseCachePrefix (config : Config) (file : Contents) : Option Config :=
  match releaseMfile (ascii "/.mcachefs/cache_prefix") file true with
  | .error _ => none
  | .ok none => some config
  | .ok (some call) => config.call call

/-! ## Trimming -/

/-- One separator at the end of a text is taken off. -/
def Trimmed (text stored : Path) : Prop :=
  stored ++ [slash] = text ∨ stored = text ∧ ¬ [slash] <:+ text

instance (text stored : Path) : Decidable (Trimmed text stored) := by
  unfold Trimmed
  infer_instance

theorem Trimmed.cons {letter : Byte} {text stored : Path} (present : text ≠ [])
    (trimmed : Trimmed text stored) : Trimmed (letter :: text) (letter :: stored) := by
  rcases trimmed with shorter | ⟨same, plain⟩
  · exact Or.inl (congrArg (letter :: ·) shorter)
  · refine Or.inr ⟨congrArg (letter :: ·) same, fun ends => ?_⟩
    rcases List.suffix_cons_iff.mp ends with whole | inside
    · exact present (List.cons.inj whole).2.symm
    · exact plain inside

/-- At most one byte goes. -/
theorem Trimmed.length {text stored : Path} (trimmed : Trimmed text stored) :
    stored.length = text.length - (if [slash] <:+ text then 1 else 0) := by
  rcases trimmed with shorter | ⟨same, plain⟩
  · rw [if_pos ⟨stored, shorter⟩, ← shorter, List.length_append]
    rfl
  · rw [if_neg plain, same]
    rfl

/-- A string that is not empty is trimmed inside its copy. -/
theorem trimLastSeparator_append {text : Path} (present : text ≠ [])
    (noNul : (0 : Byte) ∉ text) :
    Exists fun trimmed => trimLastSeparator (text ++ [0]) = some trimmed ∧
      Trimmed text (cString trimmed) := by
  induction text with
  | nil => exact absurd rfl present
  | cons here text inductionHypothesis =>
      have solid : here ≠ 0 := fun zero => noNul (zero ▸ List.mem_cons_self)
      cases text with
      | nil =>
          refine ⟨_, if_pos rfl, ?_⟩
          by_cases separator : here = slash
          · rw [separator]
            exact Or.inl (by decide)
          · refine Or.inr ⟨by simp [cString, separator, solid], fun ends => ?_⟩
            obtain ⟨before, same⟩ := ends
            have single : [slash] = [here] :=
              List.append_inj_right' (show before ++ [slash] = [] ++ [here] from same) rfl
            exact separator (List.cons.inj single).1.symm
      | cons next text =>
          have rest : (0 : Byte) ∉ next :: text := fun member =>
            noNul (List.mem_cons_of_mem _ member)
          have other : next ≠ 0 := fun zero => rest (zero ▸ List.mem_cons_self)
          obtain ⟨trimmed, result, shorter⟩ := inductionHypothesis (List.cons_ne_nil _ _) rest
          have whole : trimLastSeparator (here :: next :: text ++ [0]) =
              some (here :: trimmed) := by
            rw [List.cons_append, List.cons_append, trimLastSeparator, if_neg other,
              ← List.cons_append, result]
            rfl
          have seen : cString (here :: trimmed) = here :: cString trimmed := by
            simp [cString, solid]
          exact ⟨_, whole, seen ▸ shorter.cons (List.cons_ne_nil _ _)⟩

/-! ## What is stored -/

/-- The mountpoint goes when a whole component ends behind it, and then a last separator. -/
def Config.Stores (config : Config) (given : Path) (next : Option Config) : Prop :=
  Exists fun after => next = some after ∧
    Exists fun stored => after.getCachePrefix = some stored ∧
      Trimmed (if Below config.mountpoint given then given.drop config.mountpoint.length
        else given) stored

/-- A string with something left behind the mountpoint, at the end of a component. -/
def Strippable (mountpoint given : Path) : Prop :=
  given ≠ [] ∧ given ≠ mountpoint ∧
    (mountpoint <+: given -> mountpoint = [] ∨ mountpoint ++ [slash] <+: given)

instance (mountpoint given : Path) : Decidable (Strippable mountpoint given) :=
  inferInstanceAs (Decidable (_ ∧ _ ∧ (_ -> _)))

variable {config : Config} {given : Path}

/-- The setter leaves the copy when there is nothing in it. -/
theorem setCachePrefix_eq_none (stripped : given = config.mountpoint ∨ given = []) :
    config.setCachePrefix (some given) = none := by
  rcases stripped with same | empty
  · subst same
    simp [Config.setCachePrefix, strncmpEqual, trimLastSeparator]
  · subst empty
    have nothing : (if strncmpEqual [] config.mountpoint config.mountpoint.length then
        List.drop config.mountpoint.length [] else []) = ([] : Path) := by
      simp
    simp only [Config.setCachePrefix, nothing]
    rfl

theorem setCachePrefix_trimmed {stripped : Path} (present : stripped ≠ [])
    (noNul : (0 : Byte) ∉ stripped)
    (strips : (if config.mountpoint <+: given then given.drop config.mountpoint.length
      else given) = stripped) :
    Exists fun after => config.setCachePrefix (some given) = some after ∧
      Exists fun stored => after.getCachePrefix = some stored ∧ Trimmed stripped stored := by
  obtain ⟨trimmed, result, shorter⟩ := trimLastSeparator_append present noNul
  simp only [Config.setCachePrefix, strncmpEqual_length_iff, strips, result]
  exact ⟨_, rfl, _, rfl, shorter⟩

/-- The same string cannot be trimmed to what is left of it behind a mountpoint. -/
theorem Trimmed.whole {before after stored : Path} (present : after ≠ [])
    (part : Trimmed after stored) (whole : Trimmed (before ++ after) stored) : before = [] := by
  have ends : [slash] <:+ before ++ after ↔ [slash] <:+ after := by
    have long : [slash].length ≤ after.length := List.length_pos_of_ne_nil present
    constructor
    · exact fun ends => List.suffix_of_suffix_length_le ends (List.suffix_append _ _) long
    · exact fun ends => ends.trans (List.suffix_append _ _)
  have partLength := part.length
  have wholeLength := whole.length
  simp only [ends, List.length_append] at wholeLength
  have positive := List.length_pos_of_ne_nil present
  apply List.eq_nil_of_length_eq_zero
  by_cases final : [slash] <:+ after
  · rw [if_pos final] at partLength wholeLength
    omega
  · rw [if_neg final] at partLength wholeLength
    omega

theorem setCachePrefix_stores_iff (noNul : (0 : Byte) ∉ given) :
    config.Stores given (config.setCachePrefix (some given)) ↔
      Strippable config.mountpoint given := by
  by_cases nothing : given = config.mountpoint ∨ given = []
  · rw [setCachePrefix_eq_none nothing]
    constructor
    · rintro ⟨_, result, _⟩
      cases result
    · rintro ⟨present, other, _⟩
      exact absurd nothing (not_or.mpr ⟨other, present⟩)
  obtain ⟨other, present⟩ := not_or.mp nothing
  by_cases based : config.mountpoint <+: given
  · have ⟨rest, whole⟩ := based
    have behind : given.drop config.mountpoint.length = rest := by
      rw [← whole, List.drop_left]
    have left : rest ≠ [] := by
      intro empty
      rw [empty, List.append_nil] at whole
      exact other whole.symm
    have noNul : (0 : Byte) ∉ rest := fun member => noNul (whole ▸ List.mem_append_right _ member)
    obtain ⟨after, result, stored, seen, trimmed⟩ :=
      setCachePrefix_trimmed left noNul ((if_pos based).trans behind)
    by_cases below : Below config.mountpoint given
    · constructor
      · exact fun _ => ⟨present, other, fun _ => Or.inr (below.resolve_left other)⟩
      · intro _
        exact ⟨after, result, stored, seen, by rw [if_pos below, behind]; exact trimmed⟩
    · constructor
      · rintro ⟨again, sameResult, found, sameSeen, kept⟩
        obtain rfl : after = again := Option.some.inj (result.symm.trans sameResult)
        obtain rfl : stored = found := Option.some.inj (seen.symm.trans sameSeen)
        rw [if_neg below, ← whole] at kept
        exact ⟨present, other, fun _ => Or.inl (trimmed.whole left kept)⟩
      · rintro ⟨-, -, ends⟩
        have root := (ends based).resolve_right fun inside => below (Or.inr inside)
        have all : given = rest := by rw [← whole, root, List.nil_append]
        exact ⟨after, result, stored, seen, by rw [if_neg below, all]; exact trimmed⟩
  · obtain ⟨after, result, stored, seen, trimmed⟩ :=
      @setCachePrefix_trimmed config given _ present noNul (if_neg based)
    have outside : ¬ Below config.mountpoint given := fun below => based below.isPrefix
    constructor
    · exact fun _ => ⟨present, other, fun isPrefix => absurd isPrefix based⟩
    · exact fun _ => ⟨after, result, stored, seen, by rw [if_neg outside]; exact trimmed⟩

/-- The line of the virtual file reaches the setter as it was written. -/
theorem releaseCachePrefix_eq {file : Contents} {buffer : List Byte}
    (contents : file.contents = some buffer) (ended : Ended buffer) :
    config.releaseCachePrefix file = config.setCachePrefix (some (seenLine buffer)) := by
  have found : vopsProcFind (ascii "/.mcachefs/cache_prefix") =
      some ⟨ascii "cache_prefix", none, some .setCachePrefix, none⟩ := by
    rfl
  have read := readString_of_mem (mem_cleanupFirstLine.mpr ended)
  rw [cString_cleanupFirstLine] at read
  have parsed : releaseMfile (ascii "/.mcachefs/cache_prefix") file true =
      .ok (some (.setString .setCachePrefix (some (seenLine buffer)))) := by
    simp only [releaseMfile, if_true, vopsParse, found, VopsProc.parse, vopsParseString,
      contents, Option.map_some, reading, read]
    rfl
  simp only [Config.releaseCachePrefix, parsed]
  rfl

theorem not_mem_seenLine (buffer : List Byte) : (0 : Byte) ∉ seenLine buffer := by
  intro member
  have line := List.mem_takeWhile_imp member
  exact absurd line (by decide)

/-- Set directly or through `/.mcachefs/cache_prefix`, a prefix is stored inside its copy
and without anything but the mountpoint and a last separator exactly when it is neither
empty nor the mountpoint, and the mountpoint is not the beginning of a longer component. -/
theorem setCachePrefix_iff (config : Config) :
    (forall given, (0 : Byte) ∉ given ->
      (config.Stores given (config.setCachePrefix (some given)) ↔
        Strippable config.mountpoint given)) ∧
    (forall file buffer, file.contents = some buffer -> Ended buffer ->
      (config.Stores (seenLine buffer) (config.releaseCachePrefix file) ↔
        Strippable config.mountpoint (seenLine buffer))) := by
  constructor
  · intro given noNul
    exact setCachePrefix_stores_iff noNul
  · intro file buffer contents ended
    rw [releaseCachePrefix_eq contents ended]
    exact setCachePrefix_stores_iff (not_mem_seenLine buffer)

theorem setCachePrefix_mounted :
    Config.Stores ⟨ascii "/mnt", none⟩ (ascii "/mnt/a/")
      (Config.setCachePrefix ⟨ascii "/mnt", none⟩ (some (ascii "/mnt/a/"))) ∧
    Config.Stores ⟨ascii "/mnt", none⟩ (ascii "/mnt/a/")
      (Config.releaseCachePrefix ⟨ascii "/mnt", none⟩
        (Contents.empty.writes [⟨ascii "/mnt/a/" ++ [10], 0, some fun _ => 0⟩])) := by
  obtain ⟨direct, written⟩ := setCachePrefix_iff ⟨ascii "/mnt", none⟩
  constructor
  · exact (direct (ascii "/mnt/a/") (by decide)).mpr (by decide +kernel)
  · have line : seenLine (ascii "/mnt/a/" ++ [10]) = ascii "/mnt/a/" := by decide +kernel
    have stores := (written (Contents.empty.writes [⟨ascii "/mnt/a/" ++ [10], 0, some fun _ => 0⟩])
      (ascii "/mnt/a/" ++ [10]) (by decide +kernel) (Or.inl (by decide))).mpr
        (by rw [line]; decide +kernel)
    rw [line] at stores
    exact stores

/-- The empty string, the mountpoint itself, and a sibling whose name goes on where the
mountpoint ends. -/
theorem setCachePrefix_misses :
    ¬ Config.Stores ⟨ascii "/mnt", none⟩ []
      (Config.setCachePrefix ⟨ascii "/mnt", none⟩ (some [])) ∧
    ¬ Config.Stores ⟨ascii "/mnt", none⟩ (ascii "/mnt")
      (Config.setCachePrefix ⟨ascii "/mnt", none⟩ (some (ascii "/mnt"))) ∧
    ¬ Config.Stores ⟨ascii "/mnt", none⟩ (ascii "/mnt2/a")
      (Config.setCachePrefix ⟨ascii "/mnt", none⟩ (some (ascii "/mnt2/a"))) := by
  refine ⟨?_, ?_, ?_⟩
  · rintro ⟨after, result, -⟩
    cases result
  · rintro ⟨after, result, -⟩
    have none : Config.setCachePrefix ⟨ascii "/mnt", none⟩ (some (ascii "/mnt")) = none := by
      decide +kernel
    rw [none] at result
    cases result
  · rintro ⟨after, result, stored, seen, trimmed⟩
    have stripped : Config.setCachePrefix ⟨ascii "/mnt", none⟩ (some (ascii "/mnt2/a")) =
        some ⟨ascii "/mnt", some (ascii "2/a" ++ [0])⟩ := by
      decide +kernel
    obtain rfl := Option.some.inj (stripped.symm.trans result)
    obtain rfl : ascii "2/a" = stored := by
      refine Eq.trans ?_ (Option.some.inj seen)
      decide +kernel
    exact absurd trimmed (by decide +kernel)

end Mcachefs
