/-
# The files of a run of the driver

`fractal-cpp` compiles each input to an object in the directory for temporary files, named after
the last part of the input's path, and gives the objects to `fractal-ld`.  Here a file has
a content, so that an object is known by what it has been compiled from; without the
contents the run is one of `Driver`.
-/

import FractalCdt.Toolchain.Driver

namespace FractalCdt.Toolchain.Driver

/-! ## Contents -/

/-- What was at a path when the run began, an ABI, or what something is compiled to. -/
inductive Content
  | source (path : String)
  | abi
  | object (compiled : Content)
  deriving DecidableEq

/-- A stage of the run has made it. -/
def Content.IsMade (content : Content) : Prop := ∀ origin, content ≠ .source origin

theorem isMade_abi : Content.abi.IsMade := fun _ => by simp

theorem isMade_object (compiled : Content) : (Content.object compiled).IsMade := fun _ => by simp

/-- The path of a file ends in the name of the file. -/
def NamesFile (path : String) : Prop :=
  path.toList.getLast? ≠ none ∧ path.toList.getLast? ≠ some '/'

instance (path : String) : Decidable (NamesFile path) := inferInstanceAs (Decidable (_ ∧ _))

theorem namesFile_append {s t : String} (ht : NamesFile t) : NamesFile (s ++ t) := by
  obtain ⟨c, hc⟩ := Option.ne_none_iff_exists'.mp ht.1
  rw [NamesFile, String.toList_append, List.getLast?_append, hc, Option.some_or, ← hc]
  exact ht

theorem namesFile_replaceExtension {path ext : String} (hext : NamesFile ext) :
    NamesFile (replaceExtension path ext) := by
  rw [replaceExtension]
  split <;> exact namesFile_append hext

/-- The files that a run finds. -/
structure Found where
  present : String → Bool
  named : ∀ path, present path = true → NamesFile path

/-- Files with their contents; none of what was there before has been moved. -/
structure Disk where
  files : String → Option Content
  named : ∀ path, files path ≠ none → NamesFile path
  kept : ∀ path origin, files path = some (.source origin) → origin = path

namespace Disk

def initial (found : Found) : Disk where
  files path := if found.present path then some (.source path) else none
  named path h := by
    by_cases hpresent : found.present path
    · exact found.named path hpresent
    · exact absurd (if_neg hpresent) h
  kept path origin h := by
    by_cases hpresent : found.present path
    · rw [if_pos hpresent] at h
      cases h
      rfl
    · rw [if_neg hpresent] at h
      cases h

def write (d : Disk) (path : String) (content : Content) (hpath : NamesFile path)
    (hcontent : content.IsMade) : Disk where
  files p := if p = path then some content else d.files p
  named p h := by
    by_cases hp : p = path
    · rw [hp]
      exact hpath
    · rw [if_neg hp] at h
      exact d.named p h
  kept p origin h := by
    by_cases hp : p = path
    · rw [if_pos hp] at h
      exact absurd (Option.some.inj h) (hcontent origin)
    · rw [if_neg hp] at h
      exact d.kept p origin h

/-- `llvm::sys::fs::remove`. -/
def remove (d : Disk) (path : String) : Disk where
  files p := if p = path then none else d.files p
  named p h := by
    by_cases hp : p = path
    · exact absurd (if_pos hp) h
    · rw [if_neg hp] at h
      exact d.named p h
  kept p origin h := by
    by_cases hp : p = path
    · rw [if_pos hp] at h
      cases h
    · rw [if_neg hp] at h
      exact d.kept p origin h

end Disk

/-! ## The options of the linker -/

/-- An option of `fractal-ld`; what is not an option is an input. -/
inductive LdOption
  | input (path : String)
  | libraryPath (dir : String)
  | library (name : String)
  | output (path : String)

/-- The command line of `fractal-cpp` as far as the linker gets to see it.  An output that is not
given is empty. -/
structure CommandLine where
  inputFilenameOpt : List Input
  inputs_ne : inputFilenameOpt ≠ []
  cOpt : Bool
  LOpt : List String
  lOpt : List String
  oOpt : String

structure LinkOptions extends Options where
  ldOptions : List LdOption

section Driver

variable (env : Environment) (installDir : String) (cl : CommandLine)

/-- The object file of an input that is going to be linked. -/
def linkObject (input : Input) : String := tmpFile env input ++ ".o"

def abiFile (input : Input) : String := replaceExtension input.path ".abi"

theorem namesFile_linkObject (input : Input) : NamesFile (linkObject env input) :=
  namesFile_append (by decide)

theorem namesFile_abiFile (input : Input) : NamesFile (abiFile input) :=
  namesFile_replaceExtension (by decide)

/-- The output file, and what `CreateOptions` puts behind the libraries for it. -/
def outputOptions : List Input → String × List LdOption
  | [input] =>
      let outputFn := replaceExtension (filename input.path) ".wasm"
      (outputFn, [.input (env.tempDirectory ++ "/" ++ filename input.path ++ ".o"),
        .output outputFn])
  | _ => ("a.out", [.input "a.out", .output "a.out"])

/-- `CreateOptions`. -/
def createOptions : LinkOptions :=
  let inputs := cl.inputFilenameOpt
  let libraries := .libraryPath (installDir ++ "/../lib") ::
    (cl.LOpt.map .libraryPath ++ cl.lOpt.map .library)
  let output := if cl.oOpt = "" then outputOptions env inputs else (cl.oOpt, [.output cl.oOpt])
  { inputs := inputs
    inputs_ne := cl.inputs_ne
    link := !cl.cOpt
    outputFn := output.1
    ldOptions := libraries ++ output.2 }

/-! ## The run up to the linker -/

/-- `generate`, which reads the input and may write an ABI. -/
def generate (d : Disk) (input : Input) : Disk :=
  if input.generated = .abi then
    d.write (abiFile input) .abi (namesFile_abiFile input) isMade_abi
  else d

/-- What clang is given: a file in the directory for temporary files comes first. -/
def compiledPath (d : Disk) (input : Input) : String :=
  if (d.files (tmpFile env input)).isSome then tmpFile env input else input.path

/-- clang writes the object, and the file that may have come first is removed. -/
def clang (d : Disk) (input : Input) (content : Content) : Disk :=
  (d.write (linkObject env input) (.object content) (namesFile_linkObject env input)
    (isMade_object content)).remove (tmpFile env input)

/-- A turn of the loop over the inputs when nothing is only compiled; `none` if a stage fails. -/
def compileInput (d : Disk) (input : Input) : Option Disk :=
  if input.generated = .fails ∨ input.compiled = false ∨ env.found .clang = false ∨
    d.files input.path = none then none
  else
    ((generate d input).files (compiledPath env (generate d input) input)).map
      (clang env (generate d input) input)

/-- The options and the files with which `fractal-cpp` runs `fractal-ld`, if it comes to it and
no stage fails. -/
def linkerRun (d : Disk) : Option (List LdOption × Disk) :=
  let opts := createOptions env installDir cl
  if opts.link ∧ env.found .fractalLd then
    (opts.inputs.foldlM (compileInput env) d).map fun after =>
      ((opts.inputs.map (linkObject env)).foldl (fun options object => .input object :: options)
        opts.ldOptions, after)
  else none

end Driver

/-! ## The driver without contents -/

/-- Which files there are, and which of them the run has written. -/
def Disk.world (d : Disk) : World where
  files path := (d.files path).map fun
    | .source _ => .earlier
    | _ => .thisRun
  failed := false

section World

variable {env : Environment} {opts : Options} {d d' : Disk} {input : Input} {inputs : List Input}

theorem Disk.write_world {path : String} {content : Content} {hpath : NamesFile path}
    {hcontent : content.IsMade} :
    (d.write path content hpath hcontent).world = d.world.write path := by
  rw [World.write, Disk.world]
  congr 1
  funext p
  by_cases hp : p = path
  · cases content with
    | source origin => exact absurd rfl (hcontent origin)
    | abi => simp [Disk.write, hp]
    | object compiled => simp [Disk.write, hp]
  · simp [Disk.write, Disk.world, hp]

theorem Disk.remove_world {path : String} : (d.remove path).world = d.world.remove path := by
  rw [World.remove, Disk.world]
  congr 1
  funext p
  by_cases hp : p = path
  · simp [Disk.remove, hp]
  · simp [Disk.remove, Disk.world, hp]

theorem objectFile_of_link (hlink : opts.link = true) :
    objectFile env opts input = linkObject env input := if_pos hlink

/-- What a turn that gets through does, and what it needs. -/
theorem compileInput_spec (h : compileInput env d input = some d') :
    (input.generated ≠ .fails ∧ input.compiled = true ∧ env.found .clang = true ∧
      d.files input.path ≠ none) ∧
    ∃ content,
      (generate d input).files (compiledPath env (generate d input) input) = some content ∧
      d' = clang env (generate d input) input content := by
  rw [compileInput] at h
  split at h
  case isTrue => cases h
  case isFalse hstages =>
    simp only [not_or] at hstages
    obtain ⟨content, hcontent, hd'⟩ := Option.map_eq_some_iff.mp h
    exact ⟨⟨hstages.1, by simpa using hstages.2.1, by simpa using hstages.2.2.1, hstages.2.2.2⟩,
      content, hcontent, hd'.symm⟩

theorem generate_world : (generate d input).world =
    if input.generated = .abi then d.world.write (abiFile input) else d.world := by
  rw [generate]
  split
  · exact Disk.write_world
  · rfl

theorem afterInput_world (hlink : opts.link = true) (h : compileInput env d input = some d') :
    afterInput env opts d.world input = d'.world := by
  obtain ⟨⟨-, hcompiled, -, -⟩, content, -, rfl⟩ := compileInput_spec h
  rw [clang, Disk.remove_world, Disk.write_world, generate_world, afterInput,
    objectFile_of_link hlink, hcompiled]
  rfl

/-- A run whose stages all succeed is one of the driver, with the same objects. -/
theorem compileAll_world (hlink : opts.link = true)
    (h : inputs.foldlM (compileInput env) d = some d') :
    compileAll env opts inputs d.world = (some (inputs.map (linkObject env)), d'.world) := by
  induction inputs generalizing d with
  | nil =>
      cases h
      rfl
  | cons input inputs ih =>
      obtain ⟨d₁, hfirst, hrest⟩ := Option.bind_eq_some_iff.mp h
      obtain ⟨⟨hgenerated, -, hfound, -⟩, -⟩ := compileInput_spec hfirst
      have hworld := afterInput_world hlink hfirst
      have hloop := ih hrest
      rw [← hworld] at hloop
      rw [compileAll, if_neg hgenerated]
      simp only [execSubprogram, hfound, if_true]
      rw [show (runs _ _ _).remove _ = afterInput env opts d.world input from rfl, hloop,
        objectFile_of_link hlink]
      rfl

end World

end FractalCdt.Toolchain.Driver
