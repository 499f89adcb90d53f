/-
# The objects that are linked

A file in the directory for temporary files with the name of an input is compiled in its place, and
without `-o` the options of the linker have an input of their own.  `objects_linked_iff` says when
the linker is given the object of each input and no other file.
-/

import FractalCdt.Math.Trailing
import FractalCdt.Toolchain.Contents
import Mathlib.Data.List.Forall2
import Mathlib.Data.List.Nodup

namespace FractalCdt.Toolchain.Driver

open FractalCdt.Math

/-! ## What is linked -/

/-- The files on the command line of the linker. -/
def inputsOf (options : List LdOption) : List String :=
  options.filterMap fun
    | .input path => some path
    | _ => none

/-- The file is the object of the input and of no other file. -/
def IsObjectOf (d : Disk) (input : Input) (object : String) : Prop :=
  d.files object = some (.object (.source input.path))

/-- The linker is given one object for each input, in some order. -/
def LinksEach (inputs : List Input) (options : List LdOption) (d : Disk) : Prop :=
  ∃ objects, objects.Perm (inputsOf options) ∧ objects.Nodup ∧
    List.Forall₂ (IsObjectOf d) inputs objects

/-- The linker is given one object for each input, in the order of the inputs. -/
def LinksInOrder (inputs : List Input) (options : List LdOption) (d : Disk) : Prop :=
  (inputsOf options).Nodup ∧ List.Forall₂ (IsObjectOf d) inputs (inputsOf options)

section Condition

variable (env : Environment) (cl : CommandLine)

/-- An input and one behind it leave each other's files alone. -/
structure Apart (earlier later : Input) : Prop where
  filename_ne : filename earlier.path ≠ filename later.path
  object_ne : filename later.path ≠ filename earlier.path ++ ".o"
  abi_earlier : earlier.generated = .abi →
    abiFile earlier ≠ later.path ∧ abiFile earlier ≠ tmpFile env later
  abi_later : later.generated = .abi → abiFile later ≠ linkObject env earlier

/-- The ABI of an input leaves the input alone. -/
def AbiApart (input : Input) : Prop :=
  input.generated = .abi → abiFile input ≠ input.path ∧ abiFile input ≠ tmpFile env input

/-- An output is given, inputs leave each other alone, and no file with the name of an input waits
in the directory for temporary files, the input itself apart. -/
structure Settled (found : Found) : Prop where
  output : cl.oOpt ≠ ""
  pairwise : cl.inputFilenameOpt.Pairwise (Apart env)
  each : ∀ input ∈ cl.inputFilenameOpt, AbiApart env input ∧
    (tmpFile env input = input.path ∨ found.present (tmpFile env input) = false)

end Condition

/-! ## Names in the directory for temporary files -/

section Names

variable {env : Environment} {input : Input} {path : String}

theorem filename_append {dir name : String} (hname : name ≠ "") (hslash : '/' ∉ name.toList) :
    filename (dir ++ "/" ++ name) = name := by
  have htext : (dir ++ "/" ++ name).toList = dir.toList ++ '/' :: name.toList := by simp
  have hne : name.toList ≠ [] := by simpa using hname
  have hlast : ¬ (dir.toList ++ '/' :: name.toList).getLast? = some '/' := by
    rw [List.getLast?_append_of_ne_nil _ (List.cons_ne_nil '/' _),
      List.getLast?_cons_of_ne_nil hne]
    exact fun hmem => hslash (List.mem_of_getLast? hmem)
  rw [filename, htext, if_neg hlast, rtakeWhile_append_cons (by decide), String.ofList_toList]
  intro c hc
  exact decide_eq_true fun h => hslash (h ▸ hc)

theorem slash_not_mem_filename (h : NamesFile path) :
    filename path ≠ "" ∧ '/' ∉ (filename path).toList := by
  rw [filename, if_neg h.2]
  obtain ⟨front, c, hpath⟩ : ∃ front c, path.toList = front ++ [c] := by
    rcases List.eq_nil_or_concat' path.toList with hnil | hconcat
    · exact absurd (by rw [hnil]; rfl) h.1
    · exact hconcat
  have hc : decide (c ≠ '/') = true := by
    have hlast := h.2
    rw [hpath, List.getLast?_concat] at hlast
    exact decide_eq_true fun hslash => hlast (congrArg some hslash)
  constructor
  · rw [hpath, List.rtakeWhile_concat, if_pos hc]
    simp
  · rw [String.toList_ofList]
    intro hmem
    exact absurd (List.mem_rtakeWhile_imp hmem) (by decide)

theorem filename_tmpFile (h : NamesFile input.path) :
    filename (tmpFile env input) = filename input.path :=
  filename_append (slash_not_mem_filename h).1 (slash_not_mem_filename h).2

theorem filename_linkObject (h : NamesFile input.path) :
    filename (linkObject env input) = filename input.path ++ ".o" := by
  obtain ⟨-, hslash⟩ := slash_not_mem_filename h
  rw [linkObject, tmpFile, String.append_assoc]
  apply filename_append
  · exact fun hempty => absurd (congrArg String.length hempty) (by simp)
  · rw [String.toList_append, List.mem_append]
    exact fun hmem => hmem.elim hslash (by decide)

theorem tmpFile_inj {other : Input} :
    tmpFile env input = tmpFile env other ↔ filename input.path = filename other.path :=
  String.append_right_inj _

theorem tmpFile_eq_linkObject_iff {later : Input} : tmpFile env later = linkObject env input ↔
    filename later.path = filename input.path ++ ".o" := by
  have hobject : linkObject env input =
      env.tempDirectory ++ "/" ++ (filename input.path ++ ".o") := String.append_assoc
  rw [hobject]
  exact String.append_right_inj _

end Names

/-! ## One turn -/

/-- Nothing stands in for the input: its path has what was there at the beginning, and there is no
other file of its name in the directory for temporary files. -/
def Clear (env : Environment) (d : Disk) (input : Input) : Prop :=
  (∀ content, d.files input.path = some content → content = .source input.path) ∧
    (tmpFile env input = input.path ∨ d.files (tmpFile env input) = none)

section Turn

variable {env : Environment} {d d' : Disk} {input later : Input} {content : Content} {p : String}

theorem generate_files : (generate d input).files p =
    if input.generated = .abi ∧ p = abiFile input then some .abi else d.files p := by
  rw [generate]
  by_cases habi : input.generated = .abi
  · rw [if_pos habi]
    simp [Disk.write, habi]
  · rw [if_neg habi, if_neg fun h => habi h.1]

theorem clang_files : (clang env d input content).files p =
    if p = tmpFile env input then none
    else if p = linkObject env input then some (.object content) else d.files p := rfl

theorem linkObject_ne_tmpFile : linkObject env input ≠ tmpFile env input := by
  intro h
  have hlength := congrArg String.length h
  rw [linkObject, String.length_append] at hlength
  exact absurd hlength (by simp)

theorem generate_files_of_apart (hp : input.generated = .abi → abiFile input ≠ p) :
    (generate d input).files p = d.files p := by
  rw [generate_files, if_neg]
  rintro ⟨habi, rfl⟩
  exact hp habi rfl

theorem generate_files_abiFile (h : input.generated = .abi) :
    (generate d input).files (abiFile input) = some .abi := by
  rw [generate_files, if_pos ⟨h, rfl⟩]

theorem generate_files_of_ne_abi (h : (generate d input).files p ≠ some .abi) :
    (input.generated = .abi → abiFile input ≠ p) ∧ (generate d input).files p = d.files p := by
  have hapart : input.generated = .abi → abiFile input ≠ p := by
    rintro habi rfl
    exact h (generate_files_abiFile habi)
  exact ⟨hapart, generate_files_of_apart hapart⟩

/-- The object is that of the input when nothing stands in for the input. -/
theorem compileInput_object (h : compileInput env d input = some d') :
    IsObjectOf d' input (linkObject env input) ↔ AbiApart env input ∧ Clear env d input := by
  obtain ⟨⟨-, -, -, hexists⟩, content, hcontent, rfl⟩ := compileInput_spec h
  have hobject : IsObjectOf (clang env (generate d input) input content) input
      (linkObject env input) ↔ content = .source input.path := by
    rw [IsObjectOf, clang_files, if_neg linkObject_ne_tmpFile, if_pos rfl]
    simp
  rw [hobject]
  constructor
  · rintro rfl
    have horigin := (generate d input).kept _ _ hcontent
    rw [← horigin] at hcontent
    obtain ⟨habi, hsource⟩ := generate_files_of_ne_abi (by rw [hcontent]; simp)
    rw [hcontent] at hsource
    have hclear : ∀ content, d.files input.path = some content →
        content = .source input.path := by
      intro content hfile
      rw [← hsource] at hfile
      exact (Option.some.inj hfile).symm
    by_cases hwaits : ((generate d input).files (tmpFile env input)).isSome
    · rw [compiledPath, if_pos hwaits] at horigin
      exact ⟨fun hgenerated => ⟨habi hgenerated, horigin ▸ habi hgenerated⟩, hclear,
        .inl horigin.symm⟩
    · rw [Option.not_isSome_iff_eq_none] at hwaits
      obtain ⟨habi', hnone⟩ := generate_files_of_ne_abi (by rw [hwaits]; simp)
      rw [hwaits] at hnone
      exact ⟨fun hgenerated => ⟨habi hgenerated, habi' hgenerated⟩, hclear, .inr hnone.symm⟩
  · rintro ⟨habi, hclear, htmp⟩
    obtain ⟨first, hfirst⟩ := Option.ne_none_iff_exists'.mp hexists
    have hsource : (generate d input).files input.path = some (.source input.path) := by
      rw [generate_files_of_apart fun hgenerated => (habi hgenerated).1, hfirst,
        hclear first hfirst]
    have hpath : compiledPath env (generate d input) input = input.path := by
      rw [compiledPath]
      split
      case isTrue hwaits =>
        refine htmp.resolve_right fun hnone => ?_
        rw [generate_files_of_apart fun hgenerated => (habi hgenerated).2, hnone] at hwaits
        cases hwaits
      case isFalse => rfl
    rw [hpath, hsource] at hcontent
    exact (Option.some.inj hcontent).symm

/-- A turn leaves alone what is neither its ABI nor its object, nor the file that it removes. -/
theorem compileInput_files (h : compileInput env d input = some d')
    (htmp : p ≠ tmpFile env input) (hobject : p ≠ linkObject env input)
    (habi : input.generated = .abi → abiFile input ≠ p) : d'.files p = d.files p := by
  obtain ⟨-, content, -, rfl⟩ := compileInput_spec h
  rw [clang_files, if_neg htmp, if_neg hobject, generate_files_of_apart habi]

theorem compileInput_named (h : compileInput env d input = some d') : NamesFile input.path := by
  obtain ⟨⟨-, -, -, hexists⟩, -⟩ := compileInput_spec h
  exact d.named _ hexists

theorem compileInput_linkObject (h : compileInput env d input = some d') :
    ∃ content, d'.files (linkObject env input) = some (.object content) := by
  obtain ⟨-, content, -, rfl⟩ := compileInput_spec h
  rw [clang_files, if_neg linkObject_ne_tmpFile, if_pos rfl]
  exact ⟨content, rfl⟩

theorem compileInput_abiFile (h : compileInput env d input = some d')
    (habi : input.generated = .abi) (htmp : abiFile input ≠ tmpFile env input)
    (hobject : abiFile input ≠ linkObject env input) :
    d'.files (abiFile input) = some .abi := by
  obtain ⟨-, content, -, rfl⟩ := compileInput_spec h
  rw [clang_files, if_neg htmp, if_neg hobject, generate_files_abiFile habi]

/-- An input of another name has neither its path nor its place in the directory for temporary
files where the turn removes a file. -/
theorem ne_tmpFile_of_filename_ne (hnamed : NamesFile input.path)
    (hname : filename input.path ≠ filename later.path) :
    later.path ≠ tmpFile env input ∧ tmpFile env later ≠ tmpFile env input := by
  constructor
  · intro heq
    rw [heq, filename_tmpFile hnamed] at hname
    exact hname rfl
  · exact fun heq => hname (tmpFile_inj.mp heq).symm

/-- What the turn has made does not stand where a clear input is looked for. -/
theorem apart_of_clear (h : compileInput env d input = some d')
    (hname : filename input.path ≠ filename later.path) (hclear : Clear env d' later) :
    (later.path ≠ linkObject env input ∧ tmpFile env later ≠ linkObject env input) ∧
      (input.generated = .abi →
        abiFile input ≠ later.path ∧ abiFile input ≠ tmpFile env later) := by
  obtain ⟨hpath, htmp⟩ := @ne_tmpFile_of_filename_ne env _ _ (compileInput_named h) hname
  have hmade : ∀ content, content.IsMade → d'.files later.path ≠ some content := by
    intro content hcontent hfile
    exact hcontent _ (hclear.1 content hfile)
  -- A file of the later input's name would have to be the input itself.
  have hwaits : ∀ content, content.IsMade → d'.files (tmpFile env later) ≠ some content := by
    intro content hcontent hfile
    rcases hclear.2 with heq | hnone
    · exact hmade content hcontent (heq ▸ hfile)
    · rw [hnone] at hfile
      cases hfile
  obtain ⟨compiled, hobject⟩ := compileInput_linkObject h
  have hpath' : later.path ≠ linkObject env input := fun heq =>
    hmade _ (isMade_object compiled) (heq ▸ hobject)
  have htmp' : tmpFile env later ≠ linkObject env input := fun heq =>
    hwaits _ (isMade_object compiled) (heq ▸ hobject)
  refine ⟨⟨hpath', htmp'⟩, fun habi => ⟨fun heq => ?_, fun heq => ?_⟩⟩
  · rw [← heq] at hpath hpath'
    exact hmade _ isMade_abi (heq ▸ compileInput_abiFile h habi hpath hpath')
  · rw [← heq] at htmp htmp'
    exact hwaits _ isMade_abi (heq ▸ compileInput_abiFile h habi htmp htmp')

/-- An input that has its turn later is clear if it was before, and the turn leaves it alone. -/
theorem clear_iff_of_compileInput (h : compileInput env d input = some d')
    (hname : filename input.path ≠ filename later.path) :
    Clear env d' later ↔ Clear env d later ∧
      filename later.path ≠ filename input.path ++ ".o" ∧
      (input.generated = .abi →
        abiFile input ≠ later.path ∧ abiFile input ≠ tmpFile env later) := by
  have hnamed := compileInput_named h
  obtain ⟨hpath, htmp⟩ := @ne_tmpFile_of_filename_ne env _ _ hnamed hname
  have hsame : later.path ≠ linkObject env input ∧ tmpFile env later ≠ linkObject env input →
      (input.generated = .abi →
        abiFile input ≠ later.path ∧ abiFile input ≠ tmpFile env later) →
      (Clear env d' later ↔ Clear env d later) := by
    intro hobject habi
    rw [Clear, Clear, compileInput_files h hpath hobject.1 fun hgenerated => (habi hgenerated).1,
      compileInput_files h htmp hobject.2 fun hgenerated => (habi hgenerated).2]
  constructor
  · intro hclear
    obtain ⟨hobject, habi⟩ := apart_of_clear h hname hclear
    exact ⟨(hsame hobject habi).mp hclear, mt tmpFile_eq_linkObject_iff.mpr hobject.2, habi⟩
  · rintro ⟨hclear, hname', habi⟩
    have hpath' : later.path ≠ linkObject env input := by
      intro heq
      rw [heq, filename_linkObject hnamed] at hname'
      exact hname' rfl
    exact (hsame ⟨hpath', mt tmpFile_eq_linkObject_iff.mp hname'⟩ habi).mpr hclear

/-- What was no object before a turn is one after it only if the turn has compiled it. -/
theorem compileInput_ne_object (h : compileInput env d input = some d')
    (hp : p ≠ linkObject env input) (hbefore : ∀ compiled, d.files p ≠ some (.object compiled)) :
    ∀ compiled, d'.files p ≠ some (.object compiled) := by
  intro compiled
  obtain ⟨-, content, -, rfl⟩ := compileInput_spec h
  rw [clang_files, if_neg hp, generate_files]
  split_ifs
  · simp
  · simp
  · exact hbefore compiled

/-- A source that has been compiled was the input or what came first. -/
theorem compileInput_eq_object (h : compileInput env d input = some d') {origin : String}
    (hobject : d'.files p = some (.object (.source origin))) :
    d.files p = some (.object (.source origin)) ∨
      p = linkObject env input ∧ (origin = input.path ∨ origin = tmpFile env input) := by
  obtain ⟨-, content, hcontent, rfl⟩ := compileInput_spec h
  rw [clang_files] at hobject
  split_ifs at hobject with htmp hlink
  · cases hobject
    rw [(generate d input).kept _ _ hcontent, compiledPath]
    refine .inr ⟨hlink, ?_⟩
    split
    · exact .inr rfl
    · exact .inl rfl
  · rw [(generate_files_of_ne_abi (by rw [hobject]; simp)).2] at hobject
    exact .inl hobject

end Turn

/-! ## The run -/

section Run

variable {env : Environment} {inputs : List Input} {d d' : Disk} {input : Input} {p : String}

theorem foldlM_files (h : inputs.foldlM (compileInput env) d = some d')
    (hp : ∀ y ∈ inputs, p ≠ tmpFile env y ∧ p ≠ linkObject env y ∧
      (y.generated = .abi → abiFile y ≠ p)) : d'.files p = d.files p := by
  induction inputs generalizing d with
  | nil =>
      cases h
      rfl
  | cons input inputs ih =>
      obtain ⟨d₁, hfirst, hrest⟩ := Option.bind_eq_some_iff.mp h
      obtain ⟨⟨htmp, hobject, habi⟩, hp⟩ := List.forall_mem_cons.mp hp
      rw [ih hrest hp, compileInput_files hfirst htmp hobject habi]

theorem foldlM_ne_object (h : inputs.foldlM (compileInput env) d = some d')
    (hp : ∀ y ∈ inputs, p ≠ linkObject env y)
    (hbefore : ∀ compiled, d.files p ≠ some (.object compiled)) :
    ∀ compiled, d'.files p ≠ some (.object compiled) := by
  induction inputs generalizing d with
  | nil =>
      cases h
      exact hbefore
  | cons input inputs ih =>
      obtain ⟨d₁, hfirst, hrest⟩ := Option.bind_eq_some_iff.mp h
      obtain ⟨hobject, hp⟩ := List.forall_mem_cons.mp hp
      exact ih hrest hp (compileInput_ne_object hfirst hobject hbefore)

/-- An object does not outlive an ABI that is written over it. -/
theorem foldlM_ne_object_of_abi (h : inputs.foldlM (compileInput env) d = some d')
    (hp : ∀ y ∈ inputs, p ≠ linkObject env y)
    (habi : ∃ y ∈ inputs, y.generated = .abi ∧ abiFile y = p) :
    ∀ compiled, d'.files p ≠ some (.object compiled) := by
  induction inputs generalizing d with
  | nil =>
      obtain ⟨y, hy, -⟩ := habi
      cases hy
  | cons input inputs ih =>
      obtain ⟨d₁, hfirst, hrest⟩ := Option.bind_eq_some_iff.mp h
      obtain ⟨hobject, hothers⟩ := List.forall_mem_cons.mp hp
      obtain ⟨y, hy, hgenerated, rfl⟩ := habi
      rcases List.mem_cons.mp hy with rfl | hy
      · apply foldlM_ne_object hrest hothers
        intro compiled
        obtain ⟨-, content, -, hd₁⟩ := compileInput_spec hfirst
        rw [hd₁, clang_files, if_neg hobject, generate_files_abiFile hgenerated]
        split <;> simp
      · exact ih hrest hothers ⟨y, hy, hgenerated, rfl⟩

theorem foldlM_eq_object (h : inputs.foldlM (compileInput env) d = some d') {origin : String}
    (hobject : d'.files p = some (.object (.source origin))) :
    d.files p = some (.object (.source origin)) ∨
      ∃ z ∈ inputs, p = linkObject env z ∧ (origin = z.path ∨ origin = tmpFile env z) := by
  induction inputs generalizing d with
  | nil =>
      cases h
      exact .inl hobject
  | cons input inputs ih =>
      obtain ⟨d₁, hfirst, hrest⟩ := Option.bind_eq_some_iff.mp h
      rcases ih hrest with hbefore | ⟨z, hz, hlink⟩
      · rcases compileInput_eq_object hfirst hbefore with hbefore | hlink
        · exact .inl hbefore
        · exact .inr ⟨input, List.mem_cons_self, hlink⟩
      · exact .inr ⟨z, List.mem_cons_of_mem input hz, hlink⟩

/-- The object of the first input stays what it is when the inputs behind it leave it alone. -/
theorem isObjectOf_first_iff {d₁ : Disk} (hfirst : compileInput env d input = some d₁)
    (hrest : inputs.foldlM (compileInput env) d₁ = some d')
    (hobject : ∀ y ∈ inputs, linkObject env input ≠ linkObject env y)
    (htmp : ∀ y ∈ inputs, linkObject env input ≠ tmpFile env y) :
    IsObjectOf d' input (linkObject env input) ↔ (AbiApart env input ∧ Clear env d input) ∧
      ∀ y ∈ inputs, y.generated = .abi → abiFile y ≠ linkObject env input := by
  have hsame : (∀ y ∈ inputs, y.generated = .abi → abiFile y ≠ linkObject env input) →
      d'.files (linkObject env input) = d₁.files (linkObject env input) := by
    intro habi
    exact foldlM_files hrest fun y hy => ⟨htmp y hy, hobject y hy, habi y hy⟩
  rw [← compileInput_object hfirst]
  constructor
  · intro hlinked
    have habi : ∀ y ∈ inputs, y.generated = .abi → abiFile y ≠ linkObject env input := by
      intro y hy hgenerated heq
      exact foldlM_ne_object_of_abi hrest hobject ⟨y, hy, hgenerated, heq⟩ _ hlinked
    rw [IsObjectOf, hsame habi] at hlinked
    exact ⟨hlinked, habi⟩
  · rintro ⟨hlinked, habi⟩
    rw [IsObjectOf, hsame habi]
    exact hlinked

theorem foldlM_named (h : inputs.foldlM (compileInput env) d = some d') :
    ∀ y ∈ inputs, NamesFile y.path := by
  induction inputs generalizing d with
  | nil => simp
  | cons input inputs ih =>
      obtain ⟨d₁, hfirst, hrest⟩ := Option.bind_eq_some_iff.mp h
      exact List.forall_mem_cons.mpr ⟨compileInput_named hfirst, ih hrest⟩

/-- With different names, each object is that of its input when the inputs are clear and leave each
other alone. -/
theorem foldlM_isObjectOf_iff (h : inputs.foldlM (compileInput env) d = some d')
    (hnames : (inputs.map fun input => filename input.path).Nodup) :
    (∀ input ∈ inputs, IsObjectOf d' input (linkObject env input)) ↔
      inputs.Pairwise (Apart env) ∧
        ∀ input ∈ inputs, AbiApart env input ∧ Clear env d input := by
  induction inputs generalizing d with
  | nil => simp
  | cons input inputs ih =>
      obtain ⟨d₁, hfirst, hrest⟩ := Option.bind_eq_some_iff.mp h
      obtain ⟨hname, hnames⟩ := List.nodup_cons.mp hnames
      have hne : ∀ y ∈ inputs, filename input.path ≠ filename y.path := by
        intro y hy heq
        exact hname (List.mem_map.mpr ⟨y, hy, heq.symm⟩)
      have hobject : ∀ y ∈ inputs, linkObject env input ≠ linkObject env y := by
        intro y hy heq
        exact hne y hy (tmpFile_inj.mp ((String.append_left_inj _).mp heq))
      have hclear := fun y hy => clear_iff_of_compileInput hfirst (hne y hy)
      rw [List.forall_mem_cons, List.forall_mem_cons, List.pairwise_cons, ih hrest hnames]
      constructor
      · rintro ⟨hlinked, hpairwise, hothers⟩
        have htmp : ∀ y ∈ inputs, linkObject env input ≠ tmpFile env y := by
          intro y hy heq
          exact ((hclear y hy).mp (hothers y hy).2).2.1 (tmpFile_eq_linkObject_iff.mp heq.symm)
        obtain ⟨hfirst, habi⟩ := (isObjectOf_first_iff hfirst hrest hobject htmp).mp hlinked
        refine ⟨⟨fun y hy => ?_, hpairwise⟩, hfirst, fun y hy => ?_⟩
        · obtain ⟨-, hname, habi'⟩ := (hclear y hy).mp (hothers y hy).2
          exact ⟨hne y hy, hname, habi', habi y hy⟩
        · exact ⟨(hothers y hy).1, ((hclear y hy).mp (hothers y hy).2).1⟩
      · rintro ⟨⟨hapart, hpairwise⟩, hown, hothers⟩
        have htmp : ∀ y ∈ inputs, linkObject env input ≠ tmpFile env y := by
          intro y hy heq
          exact (hapart y hy).object_ne (tmpFile_eq_linkObject_iff.mp heq.symm)
        refine ⟨(isObjectOf_first_iff hfirst hrest hobject htmp).mpr
          ⟨hown, fun y hy => (hapart y hy).abi_later⟩, hpairwise, fun y hy => ?_⟩
        refine ⟨(hothers y hy).1, (hclear y hy).mpr ⟨(hothers y hy).2, ?_⟩⟩
        exact ⟨(hapart y hy).object_ne, (hapart y hy).abi_earlier⟩

end Run

/-! ## The command line of the linker -/

section CommandLine

variable {env : Environment} {installDir : String} {cl : CommandLine} {found : Found}
  {options : List LdOption} {after : Disk}

theorem inputsOf_append (first second : List LdOption) :
    inputsOf (first ++ second) = inputsOf first ++ inputsOf second := List.filterMap_append

/-- The objects come in front, the last one first. -/
theorem inputsOf_foldl (objects : List String) (options : List LdOption) :
    inputsOf (objects.foldl (fun options object => .input object :: options) options) =
      objects.reverse ++ inputsOf options := by
  induction objects generalizing options with
  | nil => rfl
  | cons object objects ih =>
      rw [List.foldl_cons, ih, List.reverse_cons, List.append_assoc, List.singleton_append]
      rfl

theorem length_inputsOf_outputOptions (inputs : List Input) :
    (inputsOf (outputOptions env inputs).2).length = 1 := by
  unfold outputOptions
  split <;> rfl

/-- Without an output, `CreateOptions` has an input of its own. -/
theorem length_inputsOf_ldOptions :
    (inputsOf (createOptions env installDir cl).ldOptions).length =
      if cl.oOpt = "" then 1 else 0 := by
  have hlibraries : ∀ (f : String → LdOption), (∀ name path, f name ≠ .input path) →
      ∀ names : List String, inputsOf (names.map f) = [] := by
    intro f hf names
    rw [inputsOf, List.filterMap_eq_nil_iff]
    intro option hoption
    obtain ⟨name, -, rfl⟩ := List.mem_map.mp hoption
    cases hname : f name with
    | input path => exact absurd hname (hf name path)
    | _ => rfl
  have hldOptions : inputsOf (createOptions env installDir cl).ldOptions =
      inputsOf (if cl.oOpt = "" then outputOptions env cl.inputFilenameOpt
        else (cl.oOpt, [.output cl.oOpt])).2 := by
    rw [createOptions, inputsOf_append]
    show inputsOf (cl.LOpt.map .libraryPath ++ cl.lOpt.map .library) ++ _ = _
    rw [inputsOf_append, hlibraries _ (by simp), hlibraries _ (by simp)]
    rfl
  rw [hldOptions]
  split
  · exact length_inputsOf_outputOptions cl.inputFilenameOpt
  · rfl

theorem linkerRun_spec
    (h : linkerRun env installDir cl (Disk.initial found) = some (options, after)) :
    cl.inputFilenameOpt.foldlM (compileInput env) (Disk.initial found) = some after ∧
      inputsOf options = (cl.inputFilenameOpt.map (linkObject env)).reverse ++
        inputsOf (createOptions env installDir cl).ldOptions := by
  rw [linkerRun] at h
  split at h
  case isTrue =>
    obtain ⟨disk, hdisk, hoptions⟩ := Option.map_eq_some_iff.mp h
    cases hoptions
    exact ⟨hdisk, inputsOf_foldl _ _⟩
  case isFalse => cases h

theorem clear_initial {input : Input} : Clear env (Disk.initial found) input ↔
    (tmpFile env input = input.path ∨ found.present (tmpFile env input) = false) := by
  have hsource : ∀ path content, (Disk.initial found).files path = some content →
      content = .source path := by
    intro path content hfile
    obtain ⟨-, heq⟩ := Option.ite_none_right_eq_some.mp hfile
    exact (Option.some.inj heq).symm
  have hnone : (Disk.initial found).files (tmpFile env input) = none ↔
      found.present (tmpFile env input) = false := by
    show (if found.present (tmpFile env input) = true then _ else none) = none ↔ _
    cases found.present (tmpFile env input) <;> simp
  rw [Clear, hnone]
  exact and_iff_right fun content hfile => hsource _ content hfile

theorem settled_iff : Settled env cl found ↔ cl.oOpt ≠ "" ∧
    cl.inputFilenameOpt.Pairwise (Apart env) ∧ ∀ input ∈ cl.inputFilenameOpt,
      AbiApart env input ∧ Clear env (Disk.initial found) input := by
  simp only [clear_initial]
  exact ⟨fun h => ⟨h.output, h.pairwise, h.each⟩, fun h => ⟨h.1, h.2.1, h.2.2⟩⟩

/-- What is an object of an input has been compiled for the input. -/
theorem eq_linkObject_of_isObjectOf
    (hrun : cl.inputFilenameOpt.foldlM (compileInput env) (Disk.initial found) = some after)
    (hdistinct : (cl.inputFilenameOpt.map fun input => input.path).Nodup)
    (hnames : (cl.inputFilenameOpt.map fun input => filename input.path).Nodup) :
    ∀ input ∈ cl.inputFilenameOpt, ∀ object, IsObjectOf after input object →
      object = linkObject env input := by
  intro input hinput object hobject
  rcases foldlM_eq_object hrun hobject with hbefore | ⟨z, hz, rfl, hpath | htmp⟩
  · cases (Option.ite_none_right_eq_some.mp hbefore).2
  · rw [List.inj_on_of_nodup_map hdistinct hinput hz hpath]
  · have hname := congrArg filename htmp
    rw [filename_tmpFile (foldlM_named hrun z hz)] at hname
    rw [List.inj_on_of_nodup_map hnames hinput hz hname]

theorem names_nodup_iff {inputs : List Input} : (inputs.map (linkObject env)).Nodup ↔
    (inputs.map fun input => filename input.path).Nodup := by
  have hmap : inputs.map (linkObject env) = (inputs.map fun input => filename input.path).map
      fun name => env.tempDirectory ++ "/" ++ name ++ ".o" := by
    rw [List.map_map]
    rfl
  rw [hmap]
  apply List.nodup_map_iff
  intro name name' heq
  exact (String.append_right_inj _).mp ((String.append_left_inj _).mp heq)

theorem eq_map_of_forall₂ {α β : Type} {R : α → β → Prop} {f : α → β} {l : List α} {l' : List β}
    (h : List.Forall₂ R l l') (hf : ∀ a ∈ l, ∀ b, R a b → b = f a) : l' = l.map f := by
  induction h with
  | nil => rfl
  | cons hhead _ ih =>
      obtain ⟨hfirst, hrest⟩ := List.forall_mem_cons.mp hf
      rw [List.map_cons, ← hfirst _ hhead, ← ih hrest]

theorem length_le_one_of_reverse_eq {α : Type} {l : List α} (hnodup : l.Nodup)
    (h : l.reverse = l) : l.length ≤ 1 := by
  cases l with
  | nil => exact Nat.zero_le 1
  | cons a l =>
      rcases List.eq_nil_or_concat' l with rfl | ⟨front, b, rfl⟩
      · exact le_rfl
      · rw [← List.cons_append, List.reverse_concat, List.cons_append, List.cons.injEq] at h
        exact absurd (h.1 ▸ List.mem_append_right front List.mem_cons_self)
          (List.nodup_cons.mp hnodup).1

theorem settled_of_linksEach
    (hdistinct : (cl.inputFilenameOpt.map fun input => input.path).Nodup)
    (h : linkerRun env installDir cl (Disk.initial found) = some (options, after))
    (hlinks : LinksEach cl.inputFilenameOpt options after) :
    Settled env cl found ∧ ∀ objects, List.Forall₂ (IsObjectOf after) cl.inputFilenameOpt objects →
      objects = cl.inputFilenameOpt.map (linkObject env) := by
  obtain ⟨hrun, hinputs⟩ := linkerRun_spec h
  obtain ⟨objects, hperm, hnodup, hforall⟩ := hlinks
  have hlength := hperm.length_eq
  rw [← hforall.length_eq, hinputs, List.length_append, List.length_reverse, List.length_map,
    length_inputsOf_ldOptions] at hlength
  have houtput : cl.oOpt ≠ "" := by
    intro hempty
    rw [if_pos hempty] at hlength
    omega
  have hnames : (cl.inputFilenameOpt.map fun input => filename input.path).Nodup := by
    have hall := hperm.nodup_iff.mp hnodup
    rw [hinputs] at hall
    exact names_nodup_iff.mp (List.nodup_reverse.mp hall.of_append_left)
  have hmap : ∀ objects, List.Forall₂ (IsObjectOf after) cl.inputFilenameOpt objects →
      objects = cl.inputFilenameOpt.map (linkObject env) := fun objects hobjects =>
    eq_map_of_forall₂ hobjects (eq_linkObject_of_isObjectOf hrun hdistinct hnames)
  rw [hmap objects hforall, List.forall₂_map_right_iff, List.forall₂_same] at hforall
  exact ⟨settled_iff.mpr ⟨houtput, (foldlM_isObjectOf_iff hrun hnames).mp hforall⟩, hmap⟩

theorem isObjectOf_of_settled
    (h : linkerRun env installDir cl (Disk.initial found) = some (options, after))
    (hsettled : Settled env cl found) :
    (cl.inputFilenameOpt.map (linkObject env)).Nodup ∧
      List.Forall₂ (IsObjectOf after) cl.inputFilenameOpt
        (cl.inputFilenameOpt.map (linkObject env)) ∧
      inputsOf options = (cl.inputFilenameOpt.map (linkObject env)).reverse := by
  obtain ⟨hrun, hinputs⟩ := linkerRun_spec h
  obtain ⟨houtput, hpairwise, heach⟩ := settled_iff.mp hsettled
  have hnames : (cl.inputFilenameOpt.map fun input => filename input.path).Nodup :=
    List.pairwise_map.mpr (hpairwise.imp fun hapart => hapart.filename_ne)
  have hlength := @length_inputsOf_ldOptions env installDir cl
  rw [if_neg houtput] at hlength
  rw [List.eq_nil_of_length_eq_zero hlength, List.append_nil] at hinputs
  refine ⟨names_nodup_iff.mpr hnames, ?_, hinputs⟩
  rw [List.forall₂_map_right_iff, List.forall₂_same]
  exact (foldlM_isObjectOf_iff hrun hnames).mpr ⟨hpairwise, heach⟩

/-- The linker is given the right objects when the inputs are settled, and since they come in
reverse, in their order only if there is one. -/
theorem objects_linked_iff
    (hdistinct : (cl.inputFilenameOpt.map fun input => input.path).Nodup)
    (h : linkerRun env installDir cl (Disk.initial found) = some (options, after)) :
    (LinksEach cl.inputFilenameOpt options after ↔ Settled env cl found) ∧
      (LinksInOrder cl.inputFilenameOpt options after ↔
        Settled env cl found ∧ cl.inputFilenameOpt.length = 1) := by
  refine ⟨⟨fun hlinks => (settled_of_linksEach hdistinct h hlinks).1, fun hsettled => ?_⟩,
    ⟨?_, ?_⟩⟩
  · obtain ⟨hnodup, hforall, hinputs⟩ := isObjectOf_of_settled h hsettled
    exact ⟨_, hinputs ▸ (List.reverse_perm _).symm, hnodup, hforall⟩
  · rintro ⟨hnodup, hforall⟩
    obtain ⟨hsettled, hmap⟩ := settled_of_linksEach hdistinct h
      ⟨inputsOf options, List.Perm.refl _, hnodup, hforall⟩
    obtain ⟨hobjects, -, hinputs⟩ := isObjectOf_of_settled h hsettled
    have hreverse := hmap _ hforall
    rw [hinputs] at hreverse
    have hle := length_le_one_of_reverse_eq hobjects hreverse
    rw [List.length_map] at hle
    exact ⟨hsettled, le_antisymm hle (List.length_pos_iff.mpr cl.inputs_ne)⟩
  · rintro ⟨hsettled, hone⟩
    obtain ⟨hnodup, hforall, hinputs⟩ := isObjectOf_of_settled h hsettled
    have hreverse : (cl.inputFilenameOpt.map (linkObject env)).reverse =
        cl.inputFilenameOpt.map (linkObject env) := by
      obtain ⟨input, hinput⟩ := List.length_eq_one_iff.mp hone
      rw [hinput]
      rfl
    rw [LinksInOrder, hinputs, hreverse]
    exact ⟨hnodup, hforall⟩

/-- Two inputs with an output, and nothing in the directory for temporary files. -/
theorem objects_linked_iff_two :
    let env : Environment := ⟨"/tmp", fun _ => true, true, true, true⟩
    let cl : CommandLine := ⟨[⟨"src/a.cpp", .abi, true⟩, ⟨"src/b.cpp", .nothing, true⟩],
      List.cons_ne_nil _ _, false, [], [], "out.wasm"⟩
    let found : Found := ⟨fun path => path = "src/a.cpp" ∨ path = "src/b.cpp", by
      intro path hpath
      rcases of_decide_eq_true hpath with rfl | rfl <;> decide⟩
    ∃ options after, (LinksEach cl.inputFilenameOpt options after ↔ Settled env cl found) ∧
      (LinksInOrder cl.inputFilenameOpt options after ↔
        Settled env cl found ∧ cl.inputFilenameOpt.length = 1) :=
  ⟨_, _, @objects_linked_iff _ "/usr/bin" _ _ _ _ (by decide) rfl⟩

/-- One input without an output: its object is linked twice. -/
theorem not_forall_linksEach : ¬ ∀ (env : Environment) (installDir : String) (cl : CommandLine)
    (found : Found) (options : List LdOption) (after : Disk),
    (cl.inputFilenameOpt.map fun input => input.path).Nodup →
    linkerRun env installDir cl (Disk.initial found) = some (options, after) →
      LinksEach cl.inputFilenameOpt options after := by
  intro h
  obtain ⟨objects, hperm, hnodup, -⟩ := h ⟨"/tmp", fun _ => true, true, true, true⟩ "/usr/bin"
    ⟨[⟨"hello.cpp", .abi, true⟩], List.cons_ne_nil _ _, false, [], [], ""⟩
    ⟨fun path => path = "hello.cpp", fun path hpath => of_decide_eq_true hpath ▸ by decide⟩
    _ _ (by decide) rfl
  exact absurd (hperm.nodup_iff.mp hnodup) (by decide)

end CommandLine

end FractalCdt.Toolchain.Driver
