/-
# The name at the end of a spelled type

A spelled type is a qualification and a name: a word, a word with template arguments, or the
words of a built-in type.  `get_base_type_name` looks for the end of the qualification from
behind.  It steps over template arguments and over the words `long`, `signed` and `unsigned`;
such a word is one only after a space or at the start, so that it does not know the first
word of a built-in type behind a `::`, which the language does not have.
-/

import FractalCdt.AbiGen.Spelling

namespace FractalCdt.AbiGen

/-! ## Spelled types -/

/-- Text whose angle brackets are in balance. -/
inductive Balanced : List Char → Prop
  | nil : Balanced []
  | char {c : Char} : c ≠ '<' → c ≠ '>' → Balanced [c]
  | brackets {s : List Char} : Balanced s → Balanced ('<' :: s ++ ['>'])
  | append {s t : List Char} : Balanced s → Balanced t → Balanced (s ++ t)

/-- What does not end a name: an identifier, for one. -/
structure Word where
  chars : List Char
  chars_ne : chars ≠ []
  isWordChar : ∀ c ∈ chars, IsWordChar c

/-- The template arguments without the brackets around them. -/
structure Arguments where
  chars : List Char
  balanced : Balanced chars

def Arguments.text (args : Arguments) : List Char := '<' :: args.chars ++ ['>']

/-- The name of a type. -/
inductive Base
  | named (name : Word)
  | template (name : Word) (args : Arguments)
  | builtIn (prefixs : List { s : String // s ∈ validPrefixs }) (last : Word)

/-- The words of a built-in type but the last, with the spaces behind them. -/
def prefixsText (prefixs : List { s : String // s ∈ validPrefixs }) : List Char :=
  prefixs.flatMap fun s => s.val.toList ++ [' ']

def Base.text : Base → List Char
  | named name => name.chars
  | template name args => name.chars ++ args.text
  | builtIn prefixs last => prefixsText prefixs ++ last.chars

/-- The last word of a qualification that ends in a space. -/
structure QualifyingWord where
  chars : List Char
  chars_ne : chars ≠ []
  no_space : ' ' ∉ chars
  not_mem : String.ofList chars ∉ validPrefixs

/-- What stands in front of the name. -/
inductive Qualification
  | nothing
  | scope (front : List Char)
  | word (front : Option (List Char)) (last : QualifyingWord)

def Qualification.text : Qualification → List Char
  | nothing => []
  | scope front => front ++ [':', ':']
  | word none last => last.chars ++ [' ']
  | word (some front) last => front ++ ' ' :: last.chars ++ [' ']

/-- The name that is found: it is all of it, but behind a `::` not the first of several words. -/
def Base.found : Qualification → Base → Base
  | .scope _, builtIn (_ :: prefixs) last => builtIn prefixs last
  | _, b => b

/-! ## Words in front of a space -/

/-- The word that ends here; the text is given from its end. -/
def lastWord (before : List Char) : List Char := (before.takeWhile (· ≠ ' ')).reverse

/-- A word starts here. -/
def AtWordStart (before : List Char) : Prop := ∀ c ∈ before.head?, c = ' '

theorem lastWord_reverse_append {word before : List Char} (hword : ' ' ∉ word)
    (hbefore : AtWordStart before) : lastWord (word.reverse ++ before) = word := by
  have hspaces : ∀ c ∈ word.reverse, decide (c ≠ ' ') = true := by
    intro c hc
    exact decide_eq_true fun h => hword (h ▸ List.mem_reverse.mp hc)
  rw [lastWord, List.takeWhile_append_of_pos hspaces]
  cases before with
  | nil => simp
  | cons c before =>
      obtain rfl : c = ' ' := hbefore c rfl
      simp

theorem no_space_of_mem_validPrefixs : ∀ s ∈ validPrefixs, ' ' ∉ s.toList := by
  decide

/-- The test of the loop on a word without a space. -/
theorem endsIn_iff {before : List Char} {s : String} (hs : ' ' ∉ s.toList) :
    (s.toList.reverse.isPrefixOf before ∧
      ((before.drop s.length).head?.all fun c => c = ' ')) ↔ lastWord before = s.toList := by
  have hlength : s.length = s.toList.reverse.length := by
    rw [List.length_reverse, String.length_toList]
  constructor
  · rintro ⟨hends, hstart⟩
    obtain ⟨rest, rfl⟩ := List.isPrefixOf_iff_prefix.mp hends
    rw [hlength, List.drop_left] at hstart
    apply lastWord_reverse_append hs
    intro c hc
    rw [hc] at hstart
    exact of_decide_eq_true hstart
  · intro hword
    have hreverse : before.takeWhile (· ≠ ' ') = s.toList.reverse := by
      rw [← hword, lastWord, List.reverse_reverse]
    have hsplit : s.toList.reverse ++ before.dropWhile (· ≠ ' ') = before := by
      rw [← hreverse, List.takeWhile_append_dropWhile]
    rw [← hsplit]
    refine ⟨List.isPrefixOf_iff_prefix.mpr (List.prefix_append _ _), ?_⟩
    rw [hlength, List.drop_left]
    have hhead := List.head?_dropWhile_not (fun c => decide (c ≠ ' ')) before
    cases hrest : (before.dropWhile (· ≠ ' ')).head? with
    | none => rfl
    | some c =>
        rw [hrest] at hhead
        simpa using hhead

theorem prefixLength_eq (before : List Char) : prefixLength before =
    if String.ofList (lastWord before) ∈ validPrefixs then some (lastWord before).length
    else none := by
  rw [prefixLength]
  generalize hfind : validPrefixs.find? _ = found
  split
  case isTrue hmem =>
    cases found with
    | none =>
        have hends := List.find?_eq_none.mp hfind _ hmem
        rw [decide_eq_true_iff, endsIn_iff (no_space_of_mem_validPrefixs _ hmem)] at hends
        exact absurd String.toList_ofList.symm hends
    | some s =>
        have hends := List.find?_some hfind
        rw [decide_eq_true_iff,
          endsIn_iff (no_space_of_mem_validPrefixs s (List.mem_of_find?_eq_some hfind))] at hends
        rw [hends, Option.map_some, String.length_toList]
  case isFalse hmem =>
    cases found with
    | none => rfl
    | some s =>
        have hs := List.mem_of_find?_eq_some hfind
        have hends := List.find?_some hfind
        rw [decide_eq_true_iff, endsIn_iff (no_space_of_mem_validPrefixs s hs)] at hends
        rw [hends, String.ofList_toList] at hmem
        exact absurd hs hmem

/-! ## Steps of the scan -/

section Scan

variable {before seen : List Char} {nested : ℤ}

theorem scanBase_skip (word : List Char) :
    scanBase (word ++ before) word.length nested seen =
      scanBase before 0 nested (word.reverse ++ seen) := by
  induction word generalizing seen with
  | nil => rfl
  | cons c word ih =>
      rw [List.cons_append, List.length_cons, scanBase, ih, List.reverse_cons, List.append_assoc,
        List.singleton_append]

/-- Brackets are passed over when what they enclose is. -/
theorem scanBase_brackets {s : List Char} (hnested : 0 ≤ nested) (hbefore : before ≠ [])
    (hinside : ∀ {before seen : List Char}, before ≠ [] →
      scanBase (s.reverse ++ before) 0 (nested + 1) seen =
        scanBase before 0 (nested + 1) (s ++ seen)) :
    scanBase (('<' :: s ++ ['>']).reverse ++ before) 0 nested seen =
      scanBase before 0 nested ('<' :: s ++ ['>'] ++ seen) := by
  have htext : ('<' :: s ++ ['>']).reverse ++ before = '>' :: (s.reverse ++ '<' :: before) := by
    simp
  have hne : s.reverse ++ '<' :: before ≠ [] := by simp
  have hopened : scanBase ('>' :: (s.reverse ++ '<' :: before)) 0 nested seen =
      scanBase (s.reverse ++ '<' :: before) 0 (nested + 1) ('>' :: seen) := by
    rw [scanBase, if_neg hne]
    simp only [if_true, show ¬ ('>' = ':' ∧ nested + 1 = 0) by omega,
      show ¬ ('>' = ' ' ∧ nested + 1 = 0) by omega, if_false]
  have hclosed : ∀ seen, scanBase ('<' :: before) 0 (nested + 1) seen =
      scanBase before 0 nested ('<' :: seen) := by
    intro seen
    have hcolon : ¬ '<' = ':' := by decide
    have hspace : ¬ '<' = ' ' := by decide
    have hclose : ¬ '<' = '>' := by decide
    rw [scanBase, if_neg hbefore]
    simp only [hclose, hcolon, hspace, if_true, if_false, false_and, Int.add_sub_cancel]
  rw [htext, hopened, hinside (List.cons_ne_nil '<' before), hclosed]
  simp

/-- Within brackets everything is passed over. -/
theorem scanBase_balanced {s : List Char} (hs : Balanced s) (hnested : 0 < nested)
    (hbefore : before ≠ []) :
    scanBase (s.reverse ++ before) 0 nested seen = scanBase before 0 nested (s ++ seen) := by
  induction hs generalizing before seen nested with
  | nil => rfl
  | @char c hopen hclose =>
      rw [List.reverse_singleton, List.singleton_append, scanBase, if_neg hbefore]
      simp only [hopen, hclose, if_false, hnested.ne', and_false]
      rfl
  | brackets _ ih =>
      exact scanBase_brackets hnested.le hbefore fun hne => ih (by omega) hne
  | @append s t _ _ ihs iht =>
      have hne : s.reverse ++ before ≠ [] := by simp [hbefore]
      rw [List.reverse_append, List.append_assoc, iht hnested hne, ihs hnested hbefore,
        List.append_assoc]

theorem scanBase_arguments (args : Arguments) (hbefore : before ≠ []) :
    scanBase (args.text.reverse ++ before) 0 0 seen = scanBase before 0 0 (args.text ++ seen) :=
  scanBase_brackets le_rfl hbefore fun hne => scanBase_balanced args.balanced (by decide) hne

/-- A word of a built-in type is stepped over, to what is in front of it. -/
theorem scanBase_builtInWord (s : { s : String // s ∈ validPrefixs })
    (hbefore : AtWordStart before) :
    scanBase (' ' :: (s.val.toList.reverse ++ before)) 0 0 seen =
      scanBase before 0 0 (s.val.toList ++ ' ' :: seen) := by
  have hword := lastWord_reverse_append (no_space_of_mem_validPrefixs s.val s.property) hbefore
  have hlength : prefixLength (s.val.toList.reverse ++ before) =
      some s.val.toList.reverse.length := by
    rw [prefixLength_eq, hword, String.ofList_toList, if_pos s.property, List.length_reverse]
  have hne : s.val.toList.reverse ++ before ≠ [] := by
    have hchars : ∀ s ∈ validPrefixs, s.toList ≠ [] := by decide
    simp [hchars s.val s.property]
  rw [scanBase, if_neg hne]
  simp only [show ¬ ' ' = '>' by decide, show ¬ ' ' = '<' by decide, show ¬ ' ' = ':' by decide,
    if_false, false_and, if_true, and_self, hlength]
  rw [scanBase_skip, List.reverse_reverse]

/-- Behind another word the scan ends. -/
theorem scanBase_space (hbefore : before ≠ [])
    (hword : String.ofList (lastWord before) ∉ validPrefixs) :
    scanBase (' ' :: before) 0 0 seen = some seen := by
  rw [scanBase, if_neg hbefore]
  simp only [show ¬ ' ' = '>' by decide, show ¬ ' ' = '<' by decide, show ¬ ' ' = ':' by decide,
    if_false, false_and, if_true, and_self, prefixLength_eq, if_neg hword]

theorem scanBase_prefixs (prefixs : List { s : String // s ∈ validPrefixs })
    (hbefore : AtWordStart before) :
    scanBase ((prefixsText prefixs).reverse ++ before) 0 0 seen =
      scanBase before 0 0 (prefixsText prefixs ++ seen) := by
  induction prefixs generalizing before with
  | nil => rfl
  | cons s prefixs ih =>
      have htext : prefixsText (s :: prefixs) = s.val.toList ++ ' ' :: prefixsText prefixs := by
        simp [prefixsText]
      have hspace : AtWordStart (' ' :: (s.val.toList.reverse ++ before)) := by
        simp [AtWordStart]
      rw [htext, List.reverse_append, List.reverse_cons, List.append_assoc, List.append_assoc,
        List.singleton_append, ih hspace, scanBase_builtInWord s hbefore, List.append_assoc,
        List.cons_append]

theorem Word.scanBase_chars (w : Word) (hbefore : before ≠ []) :
    scanBase (w.chars.reverse ++ before) 0 0 seen = scanBase before 0 0 (w.chars ++ seen) := by
  have hchars : ∀ c ∈ w.chars.reverse, IsWordChar c := fun c hc =>
    w.isWordChar c (List.mem_reverse.mp hc)
  rw [scanBase_word hchars hbefore, List.reverse_reverse]

theorem Word.scanBase_chars_nil (w : Word) : scanBase w.chars.reverse 0 0 seen = none :=
  scanBase_word_nil fun c hc => w.isWordChar c (List.mem_reverse.mp hc)

/-- The name is passed over, up to what is in front of it. -/
theorem Base.scanBase_text (b : Base) (hbefore : before ≠ [])
    (hstart : ∀ s prefixs last, b = builtIn (s :: prefixs) last → AtWordStart before) :
    scanBase (b.text.reverse ++ before) 0 0 [] = scanBase before 0 0 b.text := by
  cases b with
  | named name => rw [text, name.scanBase_chars hbefore, List.append_nil]
  | template name args =>
      have hname : name.chars.reverse ++ before ≠ [] := by simp [hbefore]
      rw [text, List.reverse_append, List.append_assoc, scanBase_arguments args hname,
        name.scanBase_chars hbefore, List.append_nil]
  | builtIn prefixs last =>
      have hrest : (prefixsText prefixs).reverse ++ before ≠ [] := by simp [hbefore]
      rw [text, List.reverse_append, List.append_assoc, last.scanBase_chars hrest, List.append_nil]
      cases prefixs with
      | nil => rfl
      | cons s prefixs => exact scanBase_prefixs _ (hstart s prefixs last rfl)

/-- A name that nothing qualifies is passed over to its start. -/
theorem Base.scanBase_text_nil (b : Base) : scanBase b.text.reverse 0 0 [] = none := by
  cases b with
  | named name => exact name.scanBase_chars_nil
  | template name args =>
      have hname : name.chars.reverse ≠ [] := by simp [name.chars_ne]
      rw [text, List.reverse_append, scanBase_arguments args hname]
      exact name.scanBase_chars_nil
  | builtIn prefixs last =>
      rw [text, List.reverse_append]
      cases prefixs with
      | nil =>
          show scanBase (last.chars.reverse ++ []) 0 0 [] = none
          rw [List.append_nil, last.scanBase_chars_nil]
      | cons s prefixs =>
          have hrest : (prefixsText (s :: prefixs)).reverse ≠ [] := by simp [prefixsText]
          have hstart : AtWordStart [] := by simp [AtWordStart]
          rw [last.scanBase_chars hrest, ← List.append_nil (prefixsText _).reverse,
            scanBase_prefixs _ hstart]
          rfl

end Scan

/-! ## The name that is found -/

section BaseName

variable {before : List Char}

theorem baseTypeName_of_scanBase {text name : List Char}
    (h : scanBase text.reverse 0 0 [] = some name) :
    baseTypeName (String.ofList text) = String.ofList name := by
  rw [baseTypeName, String.toList_ofList, h]

/-- What ends in a space is a qualification when the word in front of the space is none of a
built-in type. -/
theorem baseTypeName_of_space (b : Base) {front : List Char} (hfront : front ≠ [])
    (hword : String.ofList (lastWord front.reverse) ∉ validPrefixs) :
    baseTypeName (String.ofList (front ++ ' ' :: b.text)) = String.ofList b.text := by
  have hne : front.reverse ≠ [] := by simp [hfront]
  have hstart : AtWordStart (' ' :: front.reverse) := by simp [AtWordStart]
  apply baseTypeName_of_scanBase
  rw [List.reverse_append, List.reverse_cons, List.append_assoc, List.singleton_append,
    b.scanBase_text (List.cons_ne_nil ' ' _) fun _ _ _ _ => hstart, scanBase_space hne hword]

theorem baseTypeName_of_scope (b : Base) (front : List Char)
    (hb : ∀ s prefixs last, b ≠ .builtIn (s :: prefixs) last) :
    baseTypeName (String.ofList (front ++ [':', ':'] ++ b.text)) = String.ofList b.text := by
  apply baseTypeName_of_scanBase
  have hreverse : (front ++ [':', ':'] ++ b.text).reverse =
      b.text.reverse ++ ':' :: ':' :: front.reverse := by simp
  rw [hreverse, b.scanBase_text (List.cons_ne_nil ':' _) fun s prefixs last h =>
    absurd h (hb s prefixs last)]
  rfl

/-- Behind a `::` no word is one of a built-in type. -/
theorem lastWord_scope (s : { s : String // s ∈ validPrefixs }) (front : List Char) :
    String.ofList (lastWord (front ++ [':', ':'] ++ s.val.toList).reverse) ∉ validPrefixs := by
  have hcolon : ∀ t ∈ validPrefixs, ':' ∉ t.toList := by decide
  intro hmem
  apply hcolon _ hmem
  have hspaces : ∀ c ∈ s.val.toList.reverse ++ [':'], decide (c ≠ ' ') = true := by
    intro c hc
    apply decide_eq_true
    rintro rfl
    rcases List.mem_append.mp hc with hc | hc
    · exact no_space_of_mem_validPrefixs s.val s.property (List.mem_reverse.mp hc)
    · exact absurd (List.mem_singleton.mp hc) (by decide)
  have hreverse : (front ++ [':', ':'] ++ s.val.toList).reverse =
      (s.val.toList.reverse ++ [':']) ++ ':' :: front.reverse := by simp
  rw [String.toList_ofList, lastWord, hreverse, List.takeWhile_append_of_pos hspaces]
  simp

/-- Behind a `::` the first of several words is taken for a qualification. -/
theorem baseTypeName_of_scope_builtIn (front : List Char) (s : { s : String // s ∈ validPrefixs })
    (prefixs : List { s : String // s ∈ validPrefixs }) (last : Word) :
    baseTypeName (String.ofList
      (front ++ [':', ':'] ++ (Base.builtIn (s :: prefixs) last).text)) =
      String.ofList (Base.builtIn prefixs last).text := by
  have htext : front ++ [':', ':'] ++ (Base.builtIn (s :: prefixs) last).text =
      front ++ [':', ':'] ++ s.val.toList ++ ' ' :: (Base.builtIn prefixs last).text := by
    simp [prefixsText, Base.text]
  have hfront : front ++ [':', ':'] ++ s.val.toList ≠ [] := by simp
  rw [htext, baseTypeName_of_space _ hfront (lastWord_scope s front)]

theorem baseTypeName_of_word (b : Base) (front : Option (List Char)) (last : QualifyingWord) :
    baseTypeName (String.ofList ((Qualification.word front last).text ++ b.text)) =
      String.ofList b.text := by
  have hword : ∀ before : List Char, AtWordStart before.reverse →
      String.ofList (lastWord (before ++ last.chars).reverse) ∉ validPrefixs := by
    intro before hbefore
    rw [List.reverse_append, lastWord_reverse_append last.no_space hbefore]
    exact last.not_mem
  cases front with
  | none =>
      have htext : (Qualification.word none last).text ++ b.text = last.chars ++ ' ' :: b.text := by
        simp [Qualification.text]
      rw [htext]
      exact baseTypeName_of_space b last.chars_ne (hword [] (by simp [AtWordStart]))
  | some front =>
      have htext : (Qualification.word (some front) last).text ++ b.text =
          front ++ [' '] ++ last.chars ++ ' ' :: b.text := by
        simp [Qualification.text]
      rw [htext]
      exact baseTypeName_of_space b (by simp) (hword (front ++ [' ']) (by simp [AtWordStart]))

/-- The scan finds the name, whatever qualifies it. -/
theorem baseTypeName_spelled (q : Qualification) (b : Base) :
    baseTypeName (String.ofList (q.text ++ b.text)) = String.ofList (b.found q).text := by
  cases q with
  | nothing =>
      show baseTypeName (String.ofList b.text) = String.ofList b.text
      rw [baseTypeName, String.toList_ofList, b.scanBase_text_nil]
  | scope front =>
      cases b with
      | named name => exact baseTypeName_of_scope (.named name) front (by simp)
      | template name args => exact baseTypeName_of_scope (.template name args) front (by simp)
      | builtIn prefixs last =>
          cases prefixs with
          | nil => exact baseTypeName_of_scope (.builtIn [] last) front (by simp)
          | cons s prefixs => exact baseTypeName_of_scope_builtIn front s prefixs last
  | word front last =>
      rw [baseTypeName_of_word]
      cases b <;> rfl

/-- Of `ns::unsigned int` the scan finds `int`. -/
theorem not_forall_baseTypeName : ¬ ∀ (q : Qualification) (b : Base),
    baseTypeName (String.ofList (q.text ++ b.text)) = String.ofList b.text := by
  intro h
  have hbad := h (.scope ['n', 's'])
    (.builtIn [⟨"unsigned", by decide⟩] ⟨['i', 'n', 't'], by simp, by simp [IsWordChar]⟩)
  exact absurd hbad (by decide)

end BaseName

end FractalCdt.AbiGen
