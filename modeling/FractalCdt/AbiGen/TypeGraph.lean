/-
# Types over the declarations of a program

A record is known by its declaration, so that it can refer to itself, and class templates
have instances.  `add_type` follows the declarations and inserts structs and typedefs on
its way, until it returns, crashes or recurses for ever; `addType_eq` says that its walk is
the list of what the type mentions, unfolded.
-/

import FractalCdt.AbiGen.Registry
import FractalCdt.AbiGen.Spelling
import FractalCdt.Math.Unfolding

namespace FractalCdt.AbiGen

open FractalCdt.Math FractalCdt.Codec

/-! ## Spelled types -/

/-- The templates the generator has branches for. -/
def libraryTemplates : List String :=
  ["ignore", "binary_extension", "vector", "set", "deque", "list", "optional", "map", "pair",
    "tuple"]

/-- The name of any other class template. -/
def TemplateName : Type := { name : Ident // name.val ∉ libraryTemplates }

/-- A type as it is spelled.  `written` is an instance of a class template that comes in
for a template parameter: clang has no template specialization there, only the class, and
prints it with its arguments. -/
inductive QualType (D : Type)
  | scalar (q : Qualifier) (s : Scalar)
  | record (q : Qualifier) (d : D)
  | template (q : Qualifier) (name : TemplateName) (d : D) (args : List (QualType D))
  | written (q : Qualifier) (d : D) (args : List (QualType D))
  | alias (q : Qualifier) (name : Ident) (target : QualType D)
  | sequence (q : Qualifier) (c : Container) (t : QualType D)
  | optional (q : Qualifier) (t : QualType D)
  | map (q : Qualifier) (k v : QualType D)
  | pair (q : Qualifier) (a b : QualType D)
  | tuple (q : Qualifier) (args : List (QualType D))

/-- The classes of a program.  The instances of a class template are classes of their own,
under the template's name; `library` is the class that a scalar or a type made with a library
template stands for, if it is one. -/
structure Declarations (D : Type) where
  name : D → Ident
  bases : D → List (QualType D × D)
  fields : D → List (String × QualType D)
  library : QualType D → Option D
  library_name : ∀ q s d, library (.scalar q s) = some d → s ≠ .string → (name d).val = s.spelling

/-- No class at all. -/
def noDeclarations : Declarations Empty where
  name := nofun
  bases := nofun
  fields := nofun
  library _ := none
  library_name := nofun

namespace Declarations

variable {D : Type} (Γ : Declarations D)

mutual

/-- `getAsString`. -/
def text : QualType D → String
  | .scalar q s => if s.isKeyword then s.spelling else q.text ++ s.spelling
  | .record q d => q.text ++ (Γ.name d).val
  | .template q name _ args => templateText q name.val.val (texts args)
  | .written q d args => templateText q (Γ.name d).val (texts args)
  | .alias q name _ => q.text ++ name.val
  | .sequence q c t => templateText q c.text [text t]
  | .optional q t => templateText q "optional" [text t]
  | .map q k v => templateText q "map" [text k, text v]
  | .pair q a b => templateText q "pair" [text a, text b]
  | .tuple q args => templateText q "tuple" (texts args)

def texts : List (QualType D) → List String
  | [] => []
  | t :: ts => text t :: texts ts

end

/-- `_translate_type(const clang::QualType &type)`. -/
def translateText (t : QualType D) : String := translateTypeName (baseTypeName (Γ.text t))

mutual

/-- `translate_type`. -/
def translateType : QualType D → String
  | .sequence _ _ t =>
      let s := translateType t
      if s = "int8" then "bytes" else s ++ "[]"
  | .optional _ t => translateType t ++ "?"
  | .map _ k v => replaceInName ("pair_" ++ translateType k ++ "_" ++ translateType v ++ "[]")
  | .pair _ a b => replaceInName ("pair_" ++ translateType a ++ "_" ++ translateType b)
  | .tuple _ args => replaceInName ("tuple_" ++ "_".intercalate (args.map Γ.translateText))
  | .template _ name _ args =>
      translateTypeName
        (replaceInName (name.val.val ++ "_" ++ "_".intercalate (translateTypes args)))
  | .scalar q s => Γ.translateText (.scalar q s)
  | .record q d => Γ.translateText (.record q d)
  | .written q d args => Γ.translateText (.written q d args)
  | .alias q name target => Γ.translateText (.alias q name target)

def translateTypes : List (QualType D) → List String
  | [] => []
  | t :: ts => translateType t :: translateTypes ts

end

/-- `is_builtin_type(const clang::QualType &t)`. -/
def isBuiltin (t : QualType D) : Bool := isBuiltinType (Γ.translateType t)

/-- What `get_template_name` appends for an argument.  `get_template_argument` makes a type
argument of every argument, so that `getAsExpr` gives the address of a type, which is never
null.  The statement class that `dyn_cast` reads there is the low byte of the type's own
address, a multiple of 16, and no cast has such a number. -/
def templateArgument (_ : QualType D) : String := ""

/-- `get_template_name`. -/
def templateName (name : TemplateName) (args : List (QualType D)) : String :=
  translateTypeName (replaceInName (name.val.val ++ "_" ++ String.join (args.map templateArgument)))

/-- `is_aliasing`, of an alias that is no builtin.  With a qualifier, the name is compared with
itself. -/
def isAliasing (q : Qualifier) (name : Ident) (target : QualType D) : Bool :=
  !q.isElaborated && name.val != Γ.translateType target

/-- `getAsCXXRecordDecl`. -/
def decl? : QualType D → Option D
  | .record _ d => some d
  | .template _ _ d _ => some d
  | .written _ d _ => some d
  | .alias _ _ target => decl? target
  | t => Γ.library t

end Declarations

/-! ## What is inserted -/

/-- What is inserted into the sets of the ABI, a struct or typedef by what it is made of.  A
struct of a declaration has the given name, or that of the declaration if it is empty. -/
inductive Insertion (D : Type)
  | extension
  | struct (d : D) (rname : String)
  | keyValue (k v : QualType D)
  | pair (a b : QualType D)
  | tuple (args : List (QualType D))
  | params (name : String) (parameters : List (String × QualType D))
  | typedef (name : Ident) (target : QualType D)
  | action (a : AbiAction)
  | table (t : AbiTable)

/-- The declaration of a struct. -/
def Insertion.decl? {D : Type} : Insertion D → Option D
  | struct d _ => some d
  | _ => none

def Insertion.action? {D : Type} : Insertion D → Option AbiAction
  | action a => some a
  | _ => none

def extensionStruct : AbiStruct := ⟨"extension", "", [⟨"type", "uint16"⟩, ⟨"data", "bytes"⟩]⟩

def tupleFieldName (i : ℕ) : String := "field_" ++ toString i

namespace Declarations

variable {D : Type} (Γ : Declarations D)

/-- `ret.base`. -/
def baseName (d : D) : String :=
  match Γ.bases d with
  | [(type, _)] => Γ.translateType type
  | _ => ""

/-- `ret.fields`. -/
def abiFields (d : D) : List AbiField :=
  (Γ.fields d).map fun field =>
    if field.1 = "transaction_extensions" then ⟨"transaction_extensions", "extension[]"⟩
    else ⟨field.1, Γ.translateType field.2⟩

/-- `name.substr(0, name.length() - 2)`. -/
def keyValueName (k v : QualType D) : String :=
  String.ofList ((Γ.translateType (.map ⟨none, []⟩ k v)).toList.rdrop 2)

/-- The struct of a declaration. -/
def structOf (d : D) (rname : String) : AbiStruct :=
  ⟨if rname = "" then (Γ.name d).val else rname, Γ.baseName d, Γ.abiFields d⟩

/-- What is inserted itself. -/
def entry : Insertion D → Entry
  | .extension => .struct extensionStruct
  | .struct d rname => .struct (Γ.structOf d rname)
  | .keyValue k v =>
      .struct ⟨Γ.keyValueName k v, "", [⟨"key", Γ.translateType k⟩, ⟨"value", Γ.translateType v⟩]⟩
  | .pair a b => .struct ⟨Γ.translateType (.pair ⟨none, []⟩ a b), "",
      [⟨"first", Γ.translateType a⟩, ⟨"second", Γ.translateType b⟩]⟩
  | .tuple args => .struct ⟨Γ.translateType (.tuple ⟨none, []⟩ args), "",
      args.mapIdx fun i t => ⟨tupleFieldName i, Γ.translateType t⟩⟩
  | .params name parameters =>
      .struct ⟨name, "", parameters.map fun param => ⟨param.1, Γ.translateType param.2⟩⟩
  | .typedef name target => .typedef ⟨name.val, Γ.translateType target⟩
  | .action a => .action a
  | .table t => .table t

def structs (xs : List (Insertion D)) : List AbiStruct := xs.filterMap fun x => (Γ.entry x).struct?

/-- `_abi.structs` after the insertions. -/
def stored (xs : List (Insertion D)) : NameSet AbiStruct AbiStruct.name :=
  (Γ.structs xs).foldl NameSet.insert .empty

/-! ## The walk -/

/-- The first test of `add_type`. -/
def unlessBuiltin (t : QualType D) (walk : Walk (Insertion D)) : Walk (Insertion D) :=
  if Γ.isBuiltin t then .nil else walk

section Walk

variable (members : D → Walk (Insertion D))

/-- `add_struct`, where `members` walks the base and the fields. -/
def addStructWith (d : D) (rname : String) : Walk (Insertion D) :=
  (members d).andThen (.one (.struct d rname))

/-- The last branch of `add_type`. -/
def addRecordWith : Option D → Walk (Insertion D)
  | some d => addStructWith members d ""
  | none => .nil

mutual

/-- `add_type`.  `add_tuple` follows a null pointer unless the type is spelled with a
qualifier. -/
def addTypeWith : QualType D → Walk (Insertion D)
  | .scalar q s =>
      Γ.unlessBuiltin (.scalar q s) (addRecordWith members (Γ.decl? (.scalar q s)))
  | .record q d => Γ.unlessBuiltin (.record q d) (addRecordWith members (Γ.decl? (.record q d)))
  | .template q name d args =>
      Γ.unlessBuiltin (.template q name d args) (addStructWith members d (templateName name args))
  | .written q d args =>
      Γ.unlessBuiltin (.written q d args) (addRecordWith members (Γ.decl? (.written q d args)))
  | .alias q name target =>
      Γ.unlessBuiltin (.alias q name target)
        (if Γ.isAliasing q name target then
          (Γ.unlessBuiltin target (addTypeWith target)).andThen (.one (.typedef name target))
        else addRecordWith members (Γ.decl? (.alias q name target)))
  | .sequence q c t => Γ.unlessBuiltin (.sequence q c t) (addTypeWith t)
  | .optional q t => Γ.unlessBuiltin (.optional q t) (addTypeWith t)
  | .map q k v =>
      Γ.unlessBuiltin (.map q k v)
        (Walk.inOrder
          [addTypeWith k, addTypeWith v, addTypeWith k, addTypeWith v, .one (.keyValue k v)])
  | .pair q a b =>
      Γ.unlessBuiltin (.pair q a b)
        (Walk.inOrder
          [addTypeWith a, addTypeWith b, addTypeWith a, addTypeWith b, .one (.pair a b)])
  | .tuple q args =>
      Γ.unlessBuiltin (.tuple q args)
        (if q.isElaborated then (addTypesWith args).andThen (.one (.tuple args)) else .failed)

/-- `add_type` for one type after another. -/
def addTypesWith : List (QualType D) → Walk (Insertion D)
  | [] => .nil
  | t :: ts => (addTypeWith t).andThen (addTypesWith ts)

end

/-- The body of the loop over the fields. -/
def addFieldWith (field : String × QualType D) : Walk (Insertion D) :=
  if field.1 = "transaction_extensions" then .one .extension else Γ.addTypeWith members field.2

/-- A base is walked if it is the only one. -/
def addBaseWith : List (QualType D × D) → Walk (Insertion D)
  | [(_, d)] => addStructWith members d ""
  | _ => .nil

end Walk

/-- What `add_struct` does before it inserts the struct itself, down to a depth of calls. -/
def members : ℕ → D → Walk (Insertion D)
  | 0, _ => .cutOff
  | n + 1, d => (addBaseWith (members n) (Γ.bases d)).andThen
      (Walk.inOrder ((Γ.fields d).map (Γ.addFieldWith (members n))))

/-- `add_struct(const clang::CXXRecordDecl *, const std::string &)`. -/
def addStruct (n : ℕ) (d : D) (rname : String) : Walk (Insertion D) :=
  addStructWith (Γ.members n) d rname

/-- `add_type`. -/
def addType (n : ℕ) (t : QualType D) : Walk (Insertion D) := Γ.addTypeWith (Γ.members n) t

def addTypes (n : ℕ) (ts : List (QualType D)) : Walk (Insertion D) :=
  Γ.addTypesWith (Γ.members n) ts

/-! ## What a type mentions -/

/-- What the last branch of `add_type` inserts itself. -/
def structsOf : Option D → List (Option (Insertion D))
  | some d => [some (.struct d "")]
  | none => []

mutual

/-- What `add_type` inserts, without what is inside of the declarations, and `none` where it
crashes. -/
def mentions : QualType D → List (Option (Insertion D))
  | .scalar q s => if Γ.isBuiltin (.scalar q s) then [] else structsOf (Γ.decl? (.scalar q s))
  | .record q d => if Γ.isBuiltin (.record q d) then [] else structsOf (Γ.decl? (.record q d))
  | .template q name d args =>
      if Γ.isBuiltin (.template q name d args) then []
      else [some (.struct d (templateName name args))]
  | .written q d args =>
      if Γ.isBuiltin (.written q d args) then [] else structsOf (Γ.decl? (.written q d args))
  | .alias q name target =>
      if Γ.isBuiltin (.alias q name target) then []
      else if Γ.isAliasing q name target then
        (if Γ.isBuiltin target then [] else mentions target) ++ [some (.typedef name target)]
      else structsOf (Γ.decl? (.alias q name target))
  | .sequence q c t => if Γ.isBuiltin (.sequence q c t) then [] else mentions t
  | .optional q t => if Γ.isBuiltin (.optional q t) then [] else mentions t
  | .map q k v =>
      if Γ.isBuiltin (.map q k v) then []
      else mentions k ++ (mentions v ++ (mentions k ++ (mentions v ++ [some (.keyValue k v)])))
  | .pair q a b =>
      if Γ.isBuiltin (.pair q a b) then []
      else mentions a ++ (mentions b ++ (mentions a ++ (mentions b ++ [some (.pair a b)])))
  | .tuple q args =>
      if Γ.isBuiltin (.tuple q args) then []
      else if q.isElaborated then mentionsAll args ++ [some (.tuple args)] else [none]

def mentionsAll : List (QualType D) → List (Option (Insertion D))
  | [] => []
  | t :: ts => mentions t ++ mentionsAll ts

end

/-- What `add_struct` inserts before the struct itself, without what is inside of other
declarations. -/
def baseMentions : List (QualType D × D) → List (Option (Insertion D))
  | [(_, d)] => [some (.struct d "")]
  | _ => []

def fieldMentions (field : String × QualType D) : List (Option (Insertion D)) :=
  if field.1 = "transaction_extensions" then [some .extension] else Γ.mentions field.2

def inside (d : D) : List (Option (Insertion D)) :=
  baseMentions (Γ.bases d) ++ (Γ.fields d).flatMap Γ.fieldMentions

/-! ## The walk unfolds what is mentioned -/

section Walk

variable (sub : D → Walk (Insertion D))

theorem expand_single {x : Insertion D} (hx : x.decl? = none) :
    expand Insertion.decl? sub [some x] = .one x :=
  expand_singleton.trans (step_eq_one hx)

theorem expand_struct (d : D) (rname : String) :
    expand Insertion.decl? sub [some (.struct d rname)] = addStructWith sub d rname :=
  expand_singleton.trans (step_eq_sub rfl)

theorem expand_structsOf (d : Option D) :
    expand Insertion.decl? sub (structsOf d) = addRecordWith sub d := by
  cases d with
  | none => rfl
  | some d => exact expand_struct sub d ""

theorem expand_unlessBuiltin (t : QualType D) (xs : List (Option (Insertion D))) :
    expand Insertion.decl? sub (if Γ.isBuiltin t then [] else xs) =
      Γ.unlessBuiltin t (expand Insertion.decl? sub xs) := by
  rw [unlessBuiltin]
  split <;> rfl

mutual

theorem addTypeWith_eq : (t : QualType D) →
    Γ.addTypeWith sub t = expand Insertion.decl? sub (Γ.mentions t)
  | .scalar q s => by
      rw [addTypeWith, mentions, expand_unlessBuiltin, expand_structsOf]
  | .record q d => by
      rw [addTypeWith, mentions, expand_unlessBuiltin, expand_structsOf]
  | .template q name d args => by
      rw [addTypeWith, mentions, expand_unlessBuiltin, expand_struct]
  | .written q d args => by
      rw [addTypeWith, mentions, expand_unlessBuiltin, expand_structsOf]
  | .alias q name target => by
      rw [addTypeWith, mentions, expand_unlessBuiltin, addTypeWith_eq target]
      split
      · rw [expand_append, expand_unlessBuiltin, expand_single sub rfl]
      · rw [expand_structsOf]
  | .sequence q c t => by
      rw [addTypeWith, mentions, expand_unlessBuiltin, addTypeWith_eq t]
  | .optional q t => by
      rw [addTypeWith, mentions, expand_unlessBuiltin, addTypeWith_eq t]
  | .map q k v => by
      have hend : expand Insertion.decl? sub [some (.keyValue k v)] = .one (.keyValue k v) :=
        expand_single sub rfl
      rw [addTypeWith, mentions, expand_unlessBuiltin, addTypeWith_eq k, addTypeWith_eq v]
      simp only [expand_append, hend, Walk.inOrder_cons, Walk.inOrder_nil, Walk.andThen_nil]
  | .pair q a b => by
      have hend : expand Insertion.decl? sub [some (.pair a b)] = .one (.pair a b) :=
        expand_single sub rfl
      rw [addTypeWith, mentions, expand_unlessBuiltin, addTypeWith_eq a, addTypeWith_eq b]
      simp only [expand_append, hend, Walk.inOrder_cons, Walk.inOrder_nil, Walk.andThen_nil]
  | .tuple q args => by
      rw [addTypeWith, mentions, expand_unlessBuiltin, addTypesWith_eq args]
      split
      · rw [expand_append, expand_single sub rfl]
      · rfl

theorem addTypesWith_eq : (ts : List (QualType D)) →
    Γ.addTypesWith sub ts = expand Insertion.decl? sub (Γ.mentionsAll ts)
  | [] => rfl
  | t :: ts => by
      rw [addTypesWith, mentionsAll, expand_append, addTypeWith_eq t, addTypesWith_eq ts]

end

theorem addFieldWith_eq (field : String × QualType D) :
    Γ.addFieldWith sub field = expand Insertion.decl? sub (Γ.fieldMentions field) := by
  rw [addFieldWith, fieldMentions]
  split
  · exact (expand_single sub rfl).symm
  · exact Γ.addTypeWith_eq sub field.2

theorem addBaseWith_eq (bases : List (QualType D × D)) :
    addBaseWith sub bases = expand Insertion.decl? sub (baseMentions bases) := by
  match bases with
  | [] => rfl
  | [(_, d)] => exact (expand_struct sub d "").symm
  | _ :: _ :: _ => rfl

end Walk

variable {Γ} {n : ℕ} {d : D} {t : QualType D} {ts : List (QualType D)}

theorem mentions_of_builtin (h : Γ.isBuiltin t = true) : Γ.mentions t = [] := by
  cases t <;> rw [mentions, if_pos h]

/-- What is inserted for a list of insertions and what is inside of their declarations. -/
def walk (Γ : Declarations D) (n : ℕ) (xs : List (Option (Insertion D))) : Walk (Insertion D) :=
  expand Insertion.decl? (unfold Insertion.decl? Γ.inside n) xs

/-- Following the declarations is unfolding them. -/
theorem members_eq (n : ℕ) : Γ.members n = unfold Insertion.decl? Γ.inside n := by
  induction n with
  | zero => rfl
  | succ n ih =>
      funext d
      have hfields : ∀ fields : List (String × QualType D),
          Walk.inOrder (fields.map (Γ.addFieldWith (Γ.members n))) =
            expand Insertion.decl? (Γ.members n) (fields.flatMap Γ.fieldMentions) := by
        intro fields
        induction fields with
        | nil => rfl
        | cons field fields ih =>
            rw [List.map_cons, Walk.inOrder_cons, List.flatMap_cons, expand_append,
              addFieldWith_eq, ih]
      rw [members, unfold, inside, ← ih, expand_append, addBaseWith_eq, hfields]

theorem addType_eq : Γ.addType n t = Γ.walk n (Γ.mentions t) := by
  rw [addType, addTypeWith_eq, members_eq, walk]

theorem addTypes_eq : Γ.addTypes n ts = Γ.walk n (Γ.mentionsAll ts) := by
  rw [addTypes, addTypesWith_eq, members_eq, walk]

theorem addStruct_eq {rname : String} :
    Γ.addStruct n d rname = Γ.walk n [some (.struct d rname)] := by
  rw [addStruct, ← expand_struct, members_eq, walk]

/-! ## Names of types -/

theorem translateType_scalar (q : Qualifier) (s : Scalar) :
    Γ.translateType (.scalar q s) = translateTypeName s.spelling := by
  have hbase : baseTypeName (Γ.text (.scalar q s)) = s.spelling := by
    rw [text]
    by_cases hkeyword : s.isKeyword
    · rw [if_pos hkeyword]
      revert hkeyword
      cases s <;> decide
    · rw [if_neg hkeyword, baseTypeName_qualified q]
      refine List.all_iff_forall_prop.mp ?_
      revert hkeyword
      cases s <;> decide
  exact congrArg translateTypeName hbase

theorem translateType_record (q : Qualifier) (d : D) :
    Γ.translateType (.record q d) = translateTypeName (Γ.name d).val := by
  have hbase : baseTypeName (Γ.text (.record q d)) = (Γ.name d).val := by
    rw [text, baseTypeName_qualified q (Γ.name d).isWordChar]
  exact congrArg translateTypeName hbase

theorem translateType_alias (q : Qualifier) (name : Ident) (target : QualType D) :
    Γ.translateType (.alias q name target) = translateTypeName name.val := by
  have hbase : baseTypeName (Γ.text (.alias q name target)) = name.val := by
    rw [text, baseTypeName_qualified q name.isWordChar]
  exact congrArg translateTypeName hbase

/-- A map is an array of its entries. -/
theorem translateType_map (q : Qualifier) (k v : QualType D) :
    Γ.translateType (.map q k v) = Γ.keyValueName k v ++ "[]" := by
  have hmap : ∀ q, Γ.translateType (.map q k v) =
      replaceInName ("pair_" ++ Γ.translateType k ++ "_" ++ Γ.translateType v) ++ "[]" := fun q =>
    replaceInName_append _ "[]"
  rw [keyValueName, hmap, hmap]
  generalize replaceInName ("pair_" ++ Γ.translateType k ++ "_" ++ Γ.translateType v) = n
  have hname : (n ++ "[]").toList.rdrop 2 = n.toList := by
    rw [String.toList_append]
    exact List.rdrop_append_length
  rw [hname, String.ofList_toList]

/-- An entry of a map is named like the pair of its parts. -/
theorem keyValueName_eq (q : Qualifier) (k v : QualType D) :
    Γ.keyValueName k v = Γ.translateType (.pair q k v) := by
  have hmap := Γ.translateType_map q k v
  have hpair : Γ.translateType (.map q k v) = Γ.translateType (.pair q k v) ++ "[]" :=
    replaceInName_append _ "[]"
  exact (String.append_left_inj _).mp (hmap.symm.trans hpair)

/-! ## What is stored -/

section Stored

variable {xs : List (Insertion D)} {x : Insertion D} {s s' : AbiStruct}

/-- The insertion is a struct of the name. -/
def isCalled (Γ : Declarations D) (name : String) (x : Insertion D) : Bool :=
  (Γ.entry x).struct?.any fun s => s.name = name

theorem mem_structs_iff : s ∈ Γ.structs xs ↔ ∃ x ∈ xs, (Γ.entry x).struct? = some s :=
  List.mem_filterMap

theorem mem_stored_iff :
    s ∈ (Γ.stored xs).elems ↔ (Γ.structs xs).find? (·.name = s.name) = some s :=
  NameSet.mem_foldl_insert_empty

/-- The first insertion of a name is the one that is stored. -/
theorem mem_stored_iff_find? : s ∈ (Γ.stored xs).elems ↔
    ∃ x, xs.find? (Γ.isCalled s.name) = some x ∧ (Γ.entry x).struct? = some s := by
  rw [mem_stored_iff, structs, List.find?_filterMap]
  exact Option.bind_eq_some_iff

/-- One struct of a name is stored. -/
theorem eq_of_mem_stored (hs : s ∈ (Γ.stored xs).elems) (hs' : s' ∈ (Γ.stored xs).elems)
    (hname : s.name = s'.name) : s = s' := by
  have hfind := mem_stored_iff.mp hs
  rw [hname, mem_stored_iff.mp hs'] at hfind
  exact (Option.some.inj hfind).symm

theorem exists_stored (hs : s ∈ Γ.structs xs) :
    ∃ s' ∈ (Γ.stored xs).elems, s'.name = s.name := by
  obtain ⟨s', hfind, hname⟩ := @exists_find?_name _ AbiStruct.name _ _ hs
  exact ⟨s', mem_stored_iff.mpr hfind, hname⟩

theorem mem_structs_of_stored (hs : s ∈ (Γ.stored xs).elems) : s ∈ Γ.structs xs :=
  List.mem_of_find?_eq_some (mem_stored_iff.mp hs)

end Stored

/-! ## What a walk that returns has done -/

/-- The walk of the insertions returns at some depth. -/
def Ends (Γ : Declarations D) (xs : List (Option (Insertion D))) : Prop :=
  ∀ x ∈ xs, Complete Insertion.decl? Γ.inside x

/-- The insertion is among those of the list and those inside of their declarations. -/
def Inserts (Γ : Declarations D) (xs : List (Option (Insertion D))) (x : Insertion D) : Prop :=
  ComesUp Insertion.decl? Γ.inside xs (some x)

/-- The struct is the first one of its name, when the declarations are followed in order. -/
def IsFirst (Γ : Declarations D) (xs : List (Option (Insertion D))) (s : AbiStruct) : Prop :=
  ∃ x, FirstWith Insertion.decl? Γ.inside (Γ.isCalled s.name) xs x ∧ (Γ.entry x).struct? = some s

section Returns

variable {xs ys : List (Option (Insertion D))}

theorem ends_append : Γ.Ends (xs ++ ys) ↔ Γ.Ends xs ∧ Γ.Ends ys := List.forall_mem_append

theorem ends_cons {x : Option (Insertion D)} :
    Γ.Ends (x :: xs) ↔ Complete Insertion.decl? Γ.inside x ∧ Γ.Ends xs := List.forall_mem_cons

theorem ends_nil : Γ.Ends [] := nofun

/-- What is no struct of a declaration has nothing inside of it. -/
theorem complete_of_leaf {x : Insertion D} (hx : x.decl? = none) :
    Complete Insertion.decl? Γ.inside (some x) :=
  complete_some_iff.mpr fun d hd => by cases hx.symm.trans hd

theorem complete_struct_iff {rname : String} :
    Complete Insertion.decl? Γ.inside (some (.struct d rname)) ↔ Γ.Ends (Γ.inside d) := by
  rw [complete_some_iff]
  simp [Insertion.decl?, Ends]

theorem ends_mentionsAll_iff : Γ.Ends (Γ.mentionsAll ts) ↔ ∀ t ∈ ts, Γ.Ends (Γ.mentions t) := by
  induction ts with
  | nil => exact iff_of_true ends_nil nofun
  | cons t ts ih => rw [mentionsAll, ends_append, List.forall_mem_cons, ih]

theorem exists_walk_returns_iff : (∃ n, (Γ.walk n xs).Returns) ↔ Γ.Ends xs :=
  exists_expand_returns_iff

theorem mem_items_walk_iff (h : (Γ.walk n xs).Returns) {x : Insertion D} :
    x ∈ (Γ.walk n xs).items ↔ Γ.Inserts xs x :=
  mem_items_iff_of_returns h

theorem mem_stored_walk_iff (h : (Γ.walk n xs).Returns) {s : AbiStruct} :
    s ∈ (Γ.stored (Γ.walk n xs).items).elems ↔ Γ.IsFirst xs s := by
  rw [mem_stored_iff_find?, IsFirst]
  simp only [walk, find?_items_iff h]

end Returns

end Declarations

end FractalCdt.AbiGen
