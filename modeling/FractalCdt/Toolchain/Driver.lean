/-
# The compiler driver

`fractal-cpp` runs clang for each input and then `fractal-ld`, which runs `wasm-ld` and
`fractal-pp`.  A subprogram that is found counts as run, whatever it returns; after that
only the existence of the output file is looked at.  `honest_iff` says for which runs a
status of zero can be relied on.
-/

import Mathlib.Data.Int.Notation
import Mathlib.Data.List.Basic
import Mathlib.Data.List.DropRight

namespace FractalCdt.Toolchain.Driver

/-! ## Files -/

inductive Origin
  | earlier
  | thisRun
  deriving DecidableEq

/-- The files, and whether a stage of the run has failed. -/
structure World where
  files : String → Option Origin
  failed : Bool

namespace World

def exists? (w : World) (path : String) : Bool := (w.files path).isSome

def write (w : World) (path : String) : World :=
  { w with files := fun p => if p = path then some .thisRun else w.files p }

/-- `llvm::sys::fs::remove`. -/
def remove (w : World) (path : String) : World :=
  { w with files := fun p => if p = path then none else w.files p }

def removeAll (w : World) (paths : List String) : World := paths.foldl remove w

def fail (w : World) : World := { w with failed := true }

end World

/-- `llvm::sys::path::filename`. -/
def filename (path : String) : String :=
  if path.toList.getLast? = some '/' then (if path.toList.all (· = '/') then "/" else ".")
  else String.ofList (path.toList.rtakeWhile (· ≠ '/'))

/-- `replace_extension`. -/
def replaceExtension (path ext : String) : String :=
  if '.' ∈ path.toList then String.ofList ((path.toList.rdropWhile (· ≠ '.')).dropLast) ++ ext
  else path ++ ext

/-! ## Stages -/

/-- What becomes of `generate`: it ends with an error, or writes an ABI if there is one. -/
inductive Generated
  | fails
  | nothing
  | abi
  deriving DecidableEq

/-- An input with what its stages come to. -/
structure Input where
  path : String
  generated : Generated
  compiled : Bool

inductive Program
  | clang
  | fractalLd
  | wasmLd
  | fractalPp

/-- What the run meets: the directory for temporary files, the programs that can be found,
whether `fractal-pp` exists, and whether the last two programs succeed. -/
structure Environment where
  tempDirectory : String
  found : Program → Bool
  ppExists : Bool
  linked : Bool
  processed : Bool

/-- The options; there is at least one input. -/
structure Options where
  inputs : List Input
  inputs_ne : inputs ≠ []
  link : Bool
  outputFn : String

/-- `exec_subprogram`, which does not look at what the program returns.  A program that
cannot be found is a stage that has failed. -/
def execSubprogram (found : Bool) (run : World → World) (w : World) : Bool × World :=
  if found then (true, run w) else (false, w.fail)

/-- A program that writes its output, or fails and writes nothing. -/
def runs (output : String) (succeeds : Bool) (w : World) : World :=
  if succeeds then w.write output else w.fail

/-! ## The driver -/

section Driver

variable (env : Environment) (opts : Options)

def tmpFile (input : Input) : String := env.tempDirectory ++ "/" ++ filename input.path

/-- The object file of an input. -/
def objectFile (input : Input) : String :=
  if opts.link then tmpFile env input ++ ".o"
  else if opts.outputFn = "" then "a.out" else opts.outputFn

/-- The loop over the inputs: the object files, or `none` where the driver returns -1.  An
exception that is not a `runtime_error` ends it with another status than zero. -/
def compileAll : List Input → World → Option (List String) × World
  | [], w => (some [], w)
  | input :: inputs, w =>
      if input.generated = .fails then (none, w.fail)
      else
        let w := if input.generated = .abi then w.write (replaceExtension input.path ".abi") else w
        let compiled := execSubprogram (env.found .clang)
          (runs (objectFile env opts input) input.compiled) w
        let w := compiled.2.remove (tmpFile env input)
        if compiled.1 then
          let rest := compileAll inputs w
          (rest.1.map fun outputs => objectFile env opts input :: outputs, rest.2)
        else (none, w)

/-- `main` of `fractal-ld`. -/
def fractalLd (outputFn : String) (w : World) : ℤ × World :=
  let linked := execSubprogram (env.found .wasmLd) (runs outputFn env.linked) w
  if !linked.1 then (-1, linked.2)
  else if !linked.2.exists? outputFn then (-1, linked.2)
  else if !env.ppExists then (-1, linked.2)
  else
    let processed := execSubprogram (env.found .fractalPp) (runs outputFn env.processed) linked.2
    if !processed.1 then (-1, processed.2)
    else if !processed.2.exists? outputFn then (-1, processed.2)
    else (0, processed.2)

/-- `fractal-ld` as a stage, which fails with its status. -/
def runsLinker (outputFn : String) (w : World) : World :=
  let linked := fractalLd env outputFn w
  if linked.1 = 0 then linked.2 else linked.2.fail

/-- `main` of `fractal-cpp`, with the files at its end. -/
def fractalCpp (files : String → Option Origin) : ℤ × World :=
  let compiled := compileAll env opts opts.inputs ⟨files, false⟩
  match compiled.1 with
  | none => (-1, compiled.2)
  | some outputs =>
      if opts.link then
        let linked := execSubprogram (env.found .fractalLd)
          (runsLinker env opts.outputFn) compiled.2
        let w := linked.2.removeAll outputs
        if !linked.1 then (-1, w)
        else if !w.exists? opts.outputFn then (-1, w)
        else (0, w)
      else (0, compiled.2)

/-- The output file. -/
def target : String :=
  if opts.link then opts.outputFn else if opts.outputFn = "" then "a.out" else opts.outputFn

/-- A status of zero means that no stage has failed and that the output file is there and has
been written by this run. -/
def Honest (files : String → Option Origin) : Prop :=
  (fractalCpp env opts files).1 = 0 →
    (fractalCpp env opts files).2.failed = false ∧
      (fractalCpp env opts files).2.files (target opts) = some .thisRun

/-- A file of the output's name is there when the linker starts: it was there before, or it is an
ABI of this run, and no temporary file of its name has been removed since. -/
def leftBehind (outputFn : String) : List Input → Bool → Bool
  | [], present => present
  | input :: inputs, present =>
      leftBehind outputFn inputs ((present || (input.generated = .abi ∧
        replaceExtension input.path ".abi" = outputFn)) && tmpFile env input ≠ outputFn)

/-- `wasm-ld` writes the output. -/
def links : Bool := env.found .wasmLd && env.linked

/-- Something ends the run with an error, or no stage that is run can go wrong unnoticed. -/
def Safe (files : String → Option Origin) : Prop :=
  (∃ input ∈ opts.inputs, input.generated = .fails) ∨ env.found .clang = false ∨
    if opts.link then
      env.found .fractalLd = false ∨ opts.outputFn ∈ opts.inputs.map (objectFile env opts) ∨
        (links env = false ∧ leftBehind env opts.outputFn opts.inputs
          (files opts.outputFn).isSome = false) ∨
        ((∀ input ∈ opts.inputs, input.compiled = true) ∧ links env = true ∧ env.ppExists = true ∧
          env.found .fractalPp = true ∧ env.processed = true)
    else
      (∀ input ∈ opts.inputs, input.compiled = true) ∧
        ∀ input ∈ opts.inputs.getLast?, tmpFile env input ≠ target opts

end Driver

/-! ## The files after a stage -/

section Files

variable {w : World} {path p : String}

theorem World.write_files :
    (w.write path).files p = if p = path then some .thisRun else w.files p := rfl

theorem World.remove_files : (w.remove path).files p = if p = path then none else w.files p := rfl

theorem World.removeAll_files {paths : List String} :
    (w.removeAll paths).files p = if p ∈ paths then none else w.files p := by
  induction paths generalizing w with
  | nil => rfl
  | cons path paths ih =>
      show ((w.remove path).removeAll paths).files p = _
      rw [ih, remove_files]
      by_cases hp : p = path
      · simp [hp]
      · simp [hp]

theorem World.removeAll_failed {paths : List String} : (w.removeAll paths).failed = w.failed := by
  induction paths generalizing w with
  | nil => rfl
  | cons path paths ih => exact ih

theorem runs_failed {succeeds : Bool} :
    (runs path succeeds w).failed = false ↔ w.failed = false ∧ succeeds = true := by
  cases succeeds <;> simp [runs, World.fail, World.write]

theorem runs_files {succeeds : Bool} : (runs path succeeds w).files p =
    if succeeds = true ∧ p = path then some .thisRun else w.files p := by
  cases succeeds <;> simp [runs, World.fail, World.write]

end Files

/-! ## The loop over the inputs -/

section Compile

variable (env : Environment) (opts : Options) {inputs : List Input} {w : World} {p : String}

/-- The world after an input, if clang is found. -/
def afterInput (w : World) (input : Input) : World :=
  (runs (objectFile env opts input) input.compiled
    (if input.generated = .abi then w.write (replaceExtension input.path ".abi") else w)).remove
      (tmpFile env input)

theorem compileAll_eq (hgenerated : ∀ input ∈ inputs, input.generated ≠ .fails)
    (hfound : env.found .clang = true) : compileAll env opts inputs w =
      (some (inputs.map (objectFile env opts)), inputs.foldl (afterInput env opts) w) := by
  induction inputs generalizing w with
  | nil => rfl
  | cons input inputs ih =>
      obtain ⟨hfirst, hrest⟩ := List.forall_mem_cons.mp hgenerated
      rw [compileAll, if_neg hfirst]
      simp only [execSubprogram, hfound, if_true, ih hrest]
      rfl

/-- The driver returns -1 from the loop when an ABI cannot be generated or clang is not found. -/
theorem compileAll_fst_eq_none (hne : inputs ≠ [])
    (h : (∃ input ∈ inputs, input.generated = .fails) ∨ env.found .clang = false) :
    (compileAll env opts inputs w).1 = none := by
  induction inputs generalizing w with
  | nil => exact absurd rfl hne
  | cons input inputs ih =>
      rw [compileAll]
      by_cases hfails : input.generated = .fails
      · rw [if_pos hfails]
      · rw [if_neg hfails]
        cases hfound : env.found .clang with
        | false => simp [execSubprogram]
        | true =>
            obtain ⟨other, hother, hgenerated⟩ := h.resolve_right (by simp [hfound])
            have hmem : other ∈ inputs := by
              rcases List.mem_cons.mp hother with rfl | hmem
              · exact absurd hgenerated hfails
              · exact hmem
            have hrest := fun w => @ih w (List.ne_nil_of_mem hmem) (.inl ⟨other, hmem, hgenerated⟩)
            simp only [execSubprogram, if_true, hrest, Option.map_none]

theorem foldl_afterInput_failed : (inputs.foldl (afterInput env opts) w).failed = false ↔
    w.failed = false ∧ ∀ input ∈ inputs, input.compiled = true := by
  induction inputs generalizing w with
  | nil => simp
  | cons input inputs ih =>
      have hfirst : (afterInput env opts w input).failed = false ↔
          w.failed = false ∧ input.compiled = true := by
        show (runs _ _ _).failed = false ↔ _
        rw [runs_failed]
        split <;> rfl
      rw [List.foldl_cons, ih, hfirst, List.forall_mem_cons, and_assoc]

theorem afterInput_files_of_ne {input : Input} (hp : p ≠ objectFile env opts input) :
    ((afterInput env opts w input).files p).isSome =
      (((w.files p).isSome || (input.generated = .abi ∧ replaceExtension input.path ".abi" = p)) &&
        tmpFile env input ≠ p) := by
  rw [afterInput, World.remove_files, runs_files]
  by_cases htmp : tmpFile env input = p
  · simp [htmp]
  · rw [if_neg (Ne.symm htmp), if_neg fun h => hp h.2]
    by_cases habi : input.generated = .abi
    · by_cases hname : replaceExtension input.path ".abi" = p
      · simp [habi, hname, htmp, World.write_files]
      · simp [habi, hname, Ne.symm hname, htmp, World.write_files]
    · simp [habi, htmp]

theorem foldl_afterInput_files (hp : p ∉ inputs.map (objectFile env opts)) :
    ((inputs.foldl (afterInput env opts) w).files p).isSome =
      leftBehind env p inputs (w.files p).isSome := by
  induction inputs generalizing w with
  | nil => rfl
  | cons input inputs ih =>
      rw [List.map_cons, List.mem_cons, not_or] at hp
      rw [List.foldl_cons, ih hp.2, afterInput_files_of_ne env opts hp.1, leftBehind]

end Compile

/-! ## The linker -/

section Link

variable (env : Environment) {outputFn : String} {w : World}

/-- What `wasm-ld` leaves is what the rest of the linker starts with. -/
theorem fractalLd_eq : fractalLd env outputFn w =
    let linked := if links env then w.write outputFn else w.fail
    if env.found .wasmLd = true ∧ (linked.files outputFn).isSome = true ∧ env.ppExists = true then
      if env.found .fractalPp then (0, runs outputFn env.processed linked) else (-1, linked.fail)
    else (-1, linked) := by
  have hprocessed : ∀ w : World, (w.files outputFn).isSome = true →
      ((runs outputFn env.processed w).files outputFn).isSome = true := by
    intro w hw
    rw [runs_files]
    split
    · rfl
    · exact hw
  rw [fractalLd, links]
  cases env.found .wasmLd with
  | false => rfl
  | true =>
      generalize hw' : (if true && env.linked then w.write outputFn else w.fail) = w'
      have hlinked : execSubprogram true (runs outputFn env.linked) w = (true, w') := by
        rw [← hw']
        rfl
      simp only [hlinked, World.exists?]
      cases hexists : (w'.files outputFn).isSome with
      | false => rfl
      | true =>
          cases env.ppExists with
          | false => rfl
          | true =>
              cases env.found .fractalPp with
              | false => rfl
              | true => simp [execSubprogram, hprocessed w' hexists]

/-- `fractal-pp` writes the output, if the linker comes to it and it succeeds. -/
theorem runsLinker_eq : runsLinker env outputFn w =
    let linked := if links env then w.write outputFn else w.fail
    if (env.found .wasmLd = true ∧ (linked.files outputFn).isSome = true ∧ env.ppExists = true) ∧
      env.found .fractalPp = true ∧ env.processed = true then linked.write outputFn
    else linked.fail := by
  rw [runsLinker, fractalLd_eq]
  generalize (if links env then w.write outputFn else w.fail) = linked
  by_cases hreaches : env.found .wasmLd = true ∧ (linked.files outputFn).isSome = true ∧
      env.ppExists = true
  · simp only [hreaches, true_and, and_self]
    cases env.found .fractalPp with
    | false => rfl
    | true => cases env.processed <;> rfl
  · simp only [hreaches, false_and, if_false]
    rfl

theorem runsLinker_files : (runsLinker env outputFn w).files outputFn =
    if links env = true ∨ ((w.files outputFn).isSome = true ∧ env.found .wasmLd = true ∧
      env.ppExists = true ∧ env.found .fractalPp = true ∧ env.processed = true) then some .thisRun
    else w.files outputFn := by
  rw [runsLinker_eq]
  cases hlinks : links env with
  | true =>
      simp only [if_true, true_or]
      split <;> simp [World.write_files, World.fail]
  | false =>
      simp only [Bool.false_eq_true, if_false, false_or]
      split_ifs with hwrites hleft hleft
      · simp [World.write_files]
      · exact absurd ⟨hwrites.1.2.1, hwrites.1.1, hwrites.1.2.2, hwrites.2⟩ hleft
      · exact absurd ⟨⟨hleft.2.1, hleft.1, hleft.2.2.1⟩, hleft.2.2.2⟩ hwrites
      · rfl

theorem runsLinker_failed : (runsLinker env outputFn w).failed = false ↔ w.failed = false ∧
    links env = true ∧ env.ppExists = true ∧ env.found .fractalPp = true ∧
      env.processed = true := by
  rw [runsLinker_eq]
  cases hlinks : links env with
  | true =>
      rw [links, Bool.and_eq_true] at hlinks
      simp only [if_true, hlinks.1, World.write_files, Option.isSome_some, true_and]
      split_ifs with hwrites
      · simp [World.write, hwrites]
      · exact ⟨fun h => absurd h (by simp [World.fail]), fun h => absurd h.2 hwrites⟩
  | false =>
      simp only [Bool.false_eq_true, if_false, false_and, and_false, iff_false]
      split_ifs <;> simp [World.fail, World.write]

end Link

/-! ## The status -/

section Status

variable (env : Environment) (opts : Options) (files : String → Option Origin)

/-- The world when every input has been through its stages. -/
def compiledWorld : World := opts.inputs.foldl (afterInput env opts) ⟨files, false⟩

/-- Nothing ends the loop over the inputs. -/
def Proceeds : Prop :=
  (∀ input ∈ opts.inputs, input.generated ≠ .fails) ∧ env.found .clang = true

variable {env opts files}

theorem fractalCpp_of_not_proceeds (h : ¬ Proceeds env opts) :
    (fractalCpp env opts files).1 = -1 := by
  have hstops : (∃ input ∈ opts.inputs, input.generated = .fails) ∨ env.found .clang = false := by
    by_contra hnone
    push Not at hnone
    exact h ⟨hnone.1, by simpa using hnone.2⟩
  rw [fractalCpp]
  simp only [compileAll_fst_eq_none env opts opts.inputs_ne hstops]

theorem fractalCpp_of_not_link (h : Proceeds env opts) (hlink : opts.link = false) :
    fractalCpp env opts files = (0, compiledWorld env opts files) := by
  rw [fractalCpp]
  simp only [compileAll_eq env opts h.1 h.2, hlink]
  rfl

theorem fractalCpp_of_link (h : Proceeds env opts) (hlink : opts.link = true)
    (hfound : env.found .fractalLd = true) : fractalCpp env opts files =
      let w := (runsLinker env opts.outputFn (compiledWorld env opts files)).removeAll
        (opts.inputs.map (objectFile env opts))
      (if w.exists? opts.outputFn then 0 else -1, w) := by
  rw [fractalCpp]
  simp only [compileAll_eq env opts h.1 h.2, hlink, hfound, execSubprogram, if_true]
  rw [compiledWorld]
  cases World.exists? _ opts.outputFn <;> rfl

theorem compiledWorld_failed : (compiledWorld env opts files).failed = false ↔
    ∀ input ∈ opts.inputs, input.compiled = true := by
  rw [compiledWorld, foldl_afterInput_failed]
  simp

/-- Without linking, each input is compiled to the output file, and what is left of it is what
the last one leaves. -/
theorem compiledWorld_target (hlink : opts.link = false)
    (hcompiled : ∀ input ∈ opts.inputs, input.compiled = true) :
    (compiledWorld env opts files).files (target opts) = some .thisRun ↔
      ∀ input ∈ opts.inputs.getLast?, tmpFile env input ≠ target opts := by
  obtain ⟨first, last, hinputs⟩ : ∃ first last, opts.inputs = first ++ [last] :=
    ⟨_, _, (List.dropLast_append_getLast opts.inputs_ne).symm⟩
  have hlast : last.compiled = true := hcompiled last (by simp [hinputs])
  have hobject : objectFile env opts last = target opts := by simp [objectFile, target, hlink]
  rw [compiledWorld, hinputs, List.foldl_append, List.foldl_cons, List.foldl_nil, afterInput,
    World.remove_files, runs_files, hobject, hlast]
  by_cases htmp : target opts = tmpFile env last
  · simp [htmp]
  · simp [htmp, Ne.symm htmp]

theorem fractalCpp_fst_of_not_found (h : Proceeds env opts) (hlink : opts.link = true)
    (hfound : env.found .fractalLd = false) : (fractalCpp env opts files).1 = -1 := by
  rw [fractalCpp]
  simp only [compileAll_eq env opts h.1 h.2, hlink, hfound, execSubprogram]
  rfl

/-- A status of zero after linking means that the output file is there, and not that it has been
written. -/
theorem fractalCpp_fst_eq_zero_iff (h : Proceeds env opts) (hlink : opts.link = true)
    (hfound : env.found .fractalLd = true)
    (hout : opts.outputFn ∉ opts.inputs.map (objectFile env opts)) :
    (fractalCpp env opts files).1 = 0 ↔ links env = true ∨
      leftBehind env opts.outputFn opts.inputs (files opts.outputFn).isSome = true := by
  rw [fractalCpp_of_link h hlink hfound]
  simp only [World.exists?, World.removeAll_files, if_neg hout, runsLinker_files]
  have hleft : ((compiledWorld env opts files).files opts.outputFn).isSome =
      leftBehind env opts.outputFn opts.inputs (files opts.outputFn).isSome :=
    foldl_afterInput_files env opts hout
  split_ifs with hwrites hpresent hpresent
  · refine iff_of_true rfl ?_
    rw [← hleft]
    exact hwrites.imp_right fun hstale => hstale.1
  · exact absurd rfl hpresent
  · exact iff_of_true rfl (.inr (hleft ▸ hpresent))
  · refine iff_of_false (by decide) ?_
    rintro (hlinks | hstale)
    · exact hwrites (.inl hlinks)
    · exact hpresent (hleft ▸ hstale)

theorem honest_of_link (h : Proceeds env opts) (hlink : opts.link = true)
    (hfound : env.found .fractalLd = true)
    (hout : opts.outputFn ∉ opts.inputs.map (objectFile env opts)) :
    Honest env opts files ↔
      (links env = false ∧
        leftBehind env opts.outputFn opts.inputs (files opts.outputFn).isSome = false) ∨
      ((∀ input ∈ opts.inputs, input.compiled = true) ∧ links env = true ∧ env.ppExists = true ∧
        env.found .fractalPp = true ∧ env.processed = true) := by
  have hfailed : (fractalCpp env opts files).2.failed = false ↔
      (∀ input ∈ opts.inputs, input.compiled = true) ∧ links env = true ∧ env.ppExists = true ∧
        env.found .fractalPp = true ∧ env.processed = true := by
    rw [fractalCpp_of_link h hlink hfound]
    simp only [World.removeAll_failed, runsLinker_failed, compiledWorld_failed]
  have hwritten : links env = true →
      (fractalCpp env opts files).2.files (target opts) = some .thisRun := by
    intro hlinks
    rw [fractalCpp_of_link h hlink hfound, target, if_pos hlink]
    simp only [World.removeAll_files, if_neg hout, runsLinker_files, if_pos (Or.inl hlinks)]
  rw [Honest, fractalCpp_fst_eq_zero_iff h hlink hfound hout, hfailed]
  constructor
  · intro hhonest
    by_cases hzero : links env = true ∨
        leftBehind env opts.outputFn opts.inputs (files opts.outputFn).isSome = true
    · exact .inr (hhonest hzero).1
    · rw [not_or, Bool.not_eq_true, Bool.not_eq_true] at hzero
      exact .inl hzero
  · rintro (⟨hlinks, hleft⟩ | hall) hzero
    · simp [hlinks, hleft] at hzero
    · exact ⟨hall, hwritten hall.2.1⟩

variable (env opts files) in
theorem honest_iff : Honest env opts files ↔ Safe env opts files := by
  by_cases h : Proceeds env opts
  · have hproceeds : ¬ ((∃ input ∈ opts.inputs, input.generated = .fails) ∨
        env.found .clang = false) := by
      rintro (⟨input, hinput, hfails⟩ | hmissing)
      · exact h.1 input hinput hfails
      · rw [h.2] at hmissing
        exact Bool.noConfusion hmissing
    rw [Safe, ← or_assoc, or_iff_right hproceeds]
    cases hlink : opts.link with
    | true =>
        rw [if_pos rfl]
        cases hfound : env.found .fractalLd with
        | false =>
            refine iff_of_true (fun hzero => ?_) (.inl rfl)
            rw [fractalCpp_fst_of_not_found h hlink hfound] at hzero
            exact absurd hzero (by decide)
        | true =>
            by_cases hout : opts.outputFn ∈ opts.inputs.map (objectFile env opts)
            · refine iff_of_true (fun hzero => ?_) (.inr (.inl hout))
              rw [fractalCpp_of_link h hlink hfound] at hzero
              simp [World.exists?, World.removeAll_files, hout] at hzero
            · rw [honest_of_link h hlink hfound hout]
              simp [hout]
    | false =>
        have hstatus : (fractalCpp env opts files).1 = 0 := by
          rw [fractalCpp_of_not_link h hlink]
        rw [if_neg Bool.false_ne_true, Honest, imp_iff_right hstatus,
          fractalCpp_of_not_link h hlink, compiledWorld_failed]
        exact and_congr_right fun hcompiled => compiledWorld_target hlink hcompiled
  · have hstops : (fractalCpp env opts files).1 = -1 := fractalCpp_of_not_proceeds h
    refine iff_of_true (fun hzero => ?_) ?_
    · rw [hstops] at hzero
      exact absurd hzero (by decide)
    · by_contra hsafe
      rw [Safe, not_or, not_or] at hsafe
      refine h ⟨fun input hinput hfails => hsafe.1 ⟨input, hinput, hfails⟩, ?_⟩
      simpa using hsafe.2.1

/-- `fractal-cpp -c` with a compiler that fails reports success. -/
theorem not_forall_honest : ¬ ∀ (env : Environment) (opts : Options)
    (files : String → Option Origin), Honest env opts files := by
  intro h
  have hbad := h ⟨"/tmp", fun _ => true, true, true, true⟩
    ⟨[⟨"hello.cpp", .abi, false⟩], List.cons_ne_nil _ _, false, "hello.o"⟩ (fun _ => none)
  exact absurd (hbad rfl).1 (by decide)

end Status

end FractalCdt.Toolchain.Driver
