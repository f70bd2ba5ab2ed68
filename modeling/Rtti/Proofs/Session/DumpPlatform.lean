import Rtti.CommandLine
import Rtti.Proofs.Session.Independence
import Rtti.Proofs.Text.Endings

/-!
# The platform of a minidump

A dump stands in with the name of its file only where it names no image.  Where
it names images, the platform is told by one of their names: by an executable,
if there is one, and else by the first image, whatever its name ends in.  So a
dump is taken for one from Windows exactly if `Minidump.NamesWindows` holds
(`Session.detect_minidump`).

Names are trimmed before they are classified, which no ending of Windows is lost
by (`Platform.EndsAsWindows.trim`): an executable counts as one, and so does the
file of a dump, whatever blanks stand before its name.
-/

namespace Rtti

/-! ## Platforms of names -/

namespace Platform

/-- The name ends like that of an image from Windows. -/
def EndsAsWindows (name : String) : Prop :=
  ∃ ending ∈ windowsEndings, Text.endsIn (Text.lower name) ending = true

instance (name : String) : Decidable (EndsAsWindows name) :=
  inferInstanceAs (Decidable (∃ ending ∈ windowsEndings, _))

variable {name : String}

theorem any_windowsEndings_iff :
    windowsEndings.any (Text.endsIn (Text.lower name)) = true ↔ EndsAsWindows name :=
  List.any_eq_true

theorem spelled_of_mem_windowsEndings {ending : String} (hending : ending ∈ windowsEndings) :
    ending.toList ≠ [] ∧ ∀ c ∈ ending.toList, Text.isBlank c = false := by
  have hspelled : (windowsEndings.all fun ending =>
      !ending.toList.isEmpty && ending.toList.all fun c => !Text.isBlank c) = true := by decide
  simpa using List.all_eq_true.mp hspelled ending hending

/-- No ending of Windows is lost when a name is trimmed. -/
theorem EndsAsWindows.trim (hends : EndsAsWindows name) : EndsAsWindows (Text.trim name) := by
  obtain ⟨ending, hending, hends⟩ := hends
  obtain ⟨hne, hbare⟩ := spelled_of_mem_windowsEndings hending
  exact ⟨ending, hending, Text.endsIn_lower_trim hends hne hbare⟩

theorem EndsAsWindows.isEmpty_eq_false (hends : EndsAsWindows name) : name.isEmpty = false := by
  obtain ⟨ending, hending, hends⟩ := hends
  by_contra hempty
  rw [Bool.not_eq_false, String.isEmpty_iff] at hempty
  obtain ⟨front, back, hnil, hback⟩ := Text.endsIn_lower_iff.mp (hempty ▸ hends)
  have : back = [] := (List.append_eq_nil_iff.mp hnil.symm).2
  exact (spelled_of_mem_windowsEndings hending).1 (by rw [← hback, this, List.map_nil])

theorem ofImageName_of_endsAsWindows (hends : EndsAsWindows (Text.trim name)) :
    ofImageName name = .ok windows := by
  simp only [ofImageName, hends.isEmpty_eq_false, any_windowsEndings_iff.mpr hends,
    Bool.false_eq_true, if_false, if_true]

theorem ofImageName_of_not_endsAsWindows (hnot : ¬EndsAsWindows (Text.trim name)) :
    ofImageName name =
      if (Text.trim name).isEmpty then .error (.unsupportedPlatform "empty process image name")
      else .ok linux := by
  simp only [ofImageName, mt any_windowsEndings_iff.mp hnot, Bool.false_eq_true, if_false]

end Platform

/-! ## Platforms of dumps -/

namespace Minidump

/-- One of the images of the dump is an executable. -/
def NamesExecutable (dump : Minidump) : Prop :=
  ∃ name ∈ dump.modules, Text.endsIn (Text.lower name) ".exe" = true

/-- The images of the dump tell that it was taken on Windows: one of them is an
executable, or the first of them ends like an image from Windows.  A dump that
names no image is taken for one from Windows. -/
def NamesWindows (dump : Minidump) : Prop :=
  dump.NamesExecutable ∨ ∀ first ∈ dump.modules.head?, Platform.EndsAsWindows (Text.trim first)

instance (dump : Minidump) : Decidable dump.NamesExecutable :=
  inferInstanceAs (Decidable (∃ name ∈ dump.modules, _))

instance (dump : Minidump) : Decidable dump.NamesWindows :=
  inferInstanceAs (Decidable (_ ∨ _))

variable {dump : Minidump} {file : String}

theorem imageName?_of_namesExecutable (hexecutable : dump.NamesExecutable) :
    ∃ name, dump.imageName? = some name ∧ Platform.EndsAsWindows name := by
  cases hfind : dump.modules.find? fun name => Text.endsIn (Text.lower name) ".exe" with
  | none =>
    obtain ⟨name, hmem, hends⟩ := hexecutable
    exact absurd hends (List.find?_eq_none.mp hfind name hmem)
  | some name =>
    have hends := List.find?_some hfind
    exact ⟨name, by rw [imageName?, hfind, Option.some_or], ".exe", by decide, hends⟩

theorem imageName?_of_not_namesExecutable (hnone : ¬dump.NamesExecutable) :
    dump.imageName? = dump.modules.head? := by
  have hfind : (dump.modules.find? fun name => Text.endsIn (Text.lower name) ".exe") = none :=
    List.find?_eq_none.mpr fun name hmem hends => hnone ⟨name, hmem, hends⟩
  rw [imageName?, hfind, Option.none_or]

theorem endsAsWindows_of_isMinidump (hfile : CommandLine.isMinidump file = true) :
    Platform.EndsAsWindows file := by
  obtain ⟨ending, hending, hends⟩ := List.any_eq_true.mp hfile
  have hsubset : [".dmp", ".mdmp"] ⊆ Platform.windowsEndings := by decide
  exact ⟨ending, hsubset hending, hends⟩

/-- A dump that names Windows is known by a name that does, if only by that of
its file. -/
theorem ofImageName_of_namesWindows (hfile : CommandLine.isMinidump file = true)
    (hwindows : dump.NamesWindows) :
    ∃ name, dump.imageName?.or (some file) = some name ∧
      Platform.ofImageName name = .ok .windows := by
  by_cases hexecutable : dump.NamesExecutable
  · obtain ⟨name, himage, hends⟩ := imageName?_of_namesExecutable hexecutable
    exact ⟨name, by rw [himage, Option.some_or],
      Platform.ofImageName_of_endsAsWindows hends.trim⟩
  · rw [imageName?_of_not_namesExecutable hexecutable]
    cases hhead : dump.modules.head? with
    | none =>
      have hends := endsAsWindows_of_isMinidump hfile
      exact ⟨file, rfl, Platform.ofImageName_of_endsAsWindows hends.trim⟩
    | some first =>
      have hends := (hwindows.resolve_left hexecutable) first hhead
      exact ⟨first, rfl, Platform.ofImageName_of_endsAsWindows hends⟩

/-- A dump that does not name Windows is known by its first image. -/
theorem imageName?_of_not_namesWindows (hnot : ¬dump.NamesWindows) :
    ∃ first, dump.modules.head? = some first ∧ dump.imageName? = some first ∧
      ¬Platform.EndsAsWindows (Text.trim first) := by
  obtain ⟨hexecutable, hfirst⟩ := not_or.mp hnot
  push Not at hfirst
  obtain ⟨first, hhead, hforeign⟩ := hfirst
  exact ⟨first, hhead, by rw [imageName?_of_not_namesExecutable hexecutable, hhead], hforeign⟩

theorem exists_of_parse_modules (bytes : List UInt8) (names : List String)
    (hnames : (parse bytes).toOption.map (·.modules) = some names) :
    ∃ dump, parse bytes = .ok dump ∧ dump.modules = names := by
  cases hparse : parse bytes with
  | error fault => simp [hparse, Except.toOption] at hnames
  | ok dump => exact ⟨dump, rfl, by simpa [hparse, Except.toOption] using hnames⟩

end Minidump

theorem Snapshot.imageName_ofBlocks (width : PointerWidth) (imageName : Option String)
    (blocks : List Block) : (ofBlocks width imageName blocks).imageName = imageName := by
  have hfold (blocks : List Block) : ∀ s : Snapshot,
      (blocks.foldl (fun s block => s.addRegion block.base block.bytes) s).imageName =
        s.imageName := by
    induction blocks with
    | nil => exact fun s => rfl
    | cons block rest ih => exact fun s => ih (s.addRegion block.base block.bytes)
  exact hfold _ _

/-! ## Sessions on dumps -/

namespace Session

variable {path file : String}

theorem detect_of_imageName {target : Target} {name : String}
    (hname : target.imageName = some name) (undecorate : Msvc.Undecorator) (limits : Limits) :
    detect target undecorate limits =
      (Platform.ofImageName name).map fun platform =>
        { target, platform, decoder := ⟨.bound platform.abi, limits⟩, undecorate } := by
  simp only [detect, hname, start_eq_ok]
  cases Platform.ofImageName name <;> rfl

/-- What a session on a dump from a file named as a minidump is opened for.  If
the dump names Windows, it is opened for Windows and decodes by the ABI of
Microsoft.  Otherwise the first image decides: the session is opened for Linux,
or not at all if the name of that image is blank. -/
theorem detect_minidump (hfile : Minidump.fileName? path = some file)
    (hminidump : CommandLine.isMinidump file = true) (dump : Minidump)
    (undecorate : Msvc.Undecorator) (limits : Limits) :
    let target := (dump.snapshot (Minidump.fileName? path)).target
    let opened (platform : Platform) (abi : Abi) : Session :=
      { target, platform, decoder := ⟨.bound abi, limits⟩, undecorate }
    (dump.NamesWindows → detect target undecorate limits = .ok (opened .windows .msvc)) ∧
      (¬dump.NamesWindows → ∃ first, dump.modules.head? = some first ∧
        detect target undecorate limits =
          if (Text.trim first).isEmpty then
            .error (.unsupportedPlatform "empty process image name")
          else .ok (opened .linux .itanium)) := by
  intro target opened
  have himage : target.imageName = dump.imageName?.or (some file) := by
    rw [← hfile]
    exact Snapshot.imageName_ofBlocks _ _ _
  constructor
  · intro hwindows
    obtain ⟨name, hname, hplatform⟩ := Minidump.ofImageName_of_namesWindows hminidump hwindows
    rw [detect_of_imageName (himage.trans hname), hplatform]
    rfl
  · intro hnot
    obtain ⟨first, hhead, hname, hforeign⟩ := Minidump.imageName?_of_not_namesWindows hnot
    refine ⟨first, hhead, ?_⟩
    rw [detect_of_imageName (himage.trans (by rw [hname, Option.some_or])),
      Platform.ofImageName_of_not_endsAsWindows hforeign]
    split <;> rfl

/-- The file of a dump from a process of 64 bits with two images. -/
def twoImagesDump (first second : String) : List UInt8 :=
  let word := Word.toBytes 4
  let text (s : String) := word (2 * s.length) ++ s.toList.flatMap fun c => [c.toUInt8, 0]
  let image (base path : Nat) :=
    Word.toBytes 8 base ++ word 0x1000 ++ List.replicate 8 0 ++ word path ++ List.replicate 84 0
  word 0x504D444D ++ word 0xA793 ++ word 4 ++ word 32 ++ List.replicate 16 0 ++
    word 7 ++ word 32 ++ word 80 ++ word 16 ++ word 64 ++ word 112 ++
    word 9 ++ word 32 ++ word 176 ++ word 4 ++ word 220 ++ word 208 ++
    -- the system, the one region, and where its bytes are
    word 9 ++ List.replicate 28 0 ++
    word 16 ++ word 48 ++ Word.toBytes 8 1 ++ Word.toBytes 8 0x400000 ++ List.replicate 40 0 ++
    Word.toBytes 8 1 ++ Word.toBytes 8 428 ++ Word.toBytes 8 0x400000 ++ Word.toBytes 8 8 ++
    -- the images, the bytes of the region, and the names of the images
    word 2 ++ image 0x400000 436 ++ image 0x70000000 (440 + 2 * first.length) ++
    List.replicate 8 0x11 ++ text first ++ text second

/-- A screen saver as the first image makes Linux of a dump from Windows. -/
theorem detect_minidump_saver :
    (∃ dump session, Minidump.parse (twoImagesDump "game.exe" "ntdll.dll") = .ok dump ∧
      detect (dump.snapshot (Minidump.fileName? "dumps/crash.dmp")).target
        CommandLine.undecorator {} = .ok session ∧ session.abi = .msvc) ∧
    ∃ dump session, Minidump.parse (twoImagesDump "saver.scr" "ntdll.dll") = .ok dump ∧
      detect (dump.snapshot (Minidump.fileName? "dumps/crash.dmp")).target
        CommandLine.undecorator {} = .ok session ∧ session.abi = .itanium := by
  have hfile : Minidump.fileName? "dumps/crash.dmp" = some "crash.dmp" := by decide
  have hending : CommandLine.isMinidump "crash.dmp" = true := by decide
  constructor
  · obtain ⟨dump, hdump, hmodules⟩ :=
      Minidump.exists_of_parse_modules (twoImagesDump "game.exe" "ntdll.dll")
        ["game.exe", "ntdll.dll"] (by decide +kernel)
    have hnames : dump.NamesWindows := by
      rw [Minidump.NamesWindows, Minidump.NamesExecutable, hmodules]
      decide
    exact ⟨dump, _, hdump,
      (detect_minidump hfile hending dump CommandLine.undecorator {}).1 hnames, rfl⟩
  · obtain ⟨dump, hdump, hmodules⟩ :=
      Minidump.exists_of_parse_modules (twoImagesDump "saver.scr" "ntdll.dll")
        ["saver.scr", "ntdll.dll"] (by decide +kernel)
    have hforeign : ¬dump.NamesWindows := by
      rw [Minidump.NamesWindows, Minidump.NamesExecutable, hmodules]
      decide
    obtain ⟨first, hfirst, hdetect⟩ :=
      (detect_minidump hfile hending dump CommandLine.undecorator {}).2 hforeign
    rw [hmodules] at hfirst
    cases hfirst
    exact ⟨dump, _, hdump, hdetect, rfl⟩

end Session

end Rtti
