/-
# The entry fix-up pass

The pass puts a call of `__wasm_call_ctors` in front of the entry block and a call
of `__cxa_finalize` in front of every return of an entry function.  A function is
its list of blocks, and instructions, branches and operands are those of any
machine, so the executions below are those of any control-flow graph: they may
return, end in another way, run on forever or stop in an instruction that does not
complete.  The rewritten function contains the original one.  It enters through the
constructor call and leaves, when the original is about to return, through the
finalizer call.
-/

import FractalCdt.Math.Trace
import Mathlib.Data.Int.Notation

namespace FractalCdt.Toolchain

open FractalCdt.Math

/-! ## Functions -/

/-- An instruction other than a terminator. -/
inductive Inst (ι : Type)
  /-- A call, of a function without result, with constant arguments. -/
  | call (callee : String) (args : List ℤ)
  | other (i : ι)
  deriving DecidableEq

/-- The last instruction of a block.  A `jump` (`br`, `switch`, `indirectbr`, `invoke`)
names the blocks it may go to by their positions. -/
inductive Terminator (β ο : Type)
  | ret (value : ο)
  | jump (b : β) (successors : List ℕ)
  | resume (value : ο)
  | unreachable
  deriving DecidableEq

def Terminator.successors {β ο : Type} : Terminator β ο → List ℕ
  | .jump _ successors => successors
  | _ => []

/-- `isa<ReturnInst>`. -/
def Terminator.isReturn {β ο : Type} : Terminator β ο → Bool
  | .ret _ => true
  | _ => false

structure BasicBlock (ι β ο : Type) where
  insts : List (Inst ι)
  terminator : Terminator β ο
  deriving DecidableEq

/-- The definition of a function; no branch leads back to its entry block. -/
structure Function (ι β ο : Type) where
  name : String
  attributes : List String
  entryBlock : BasicBlock ι β ο
  others : List (BasicBlock ι β ο)
  successors_mem : ∀ bb ∈ entryBlock :: others, ∀ l ∈ bb.terminator.successors,
    0 < l ∧ l < (entryBlock :: others).length

variable {ι β ο ρ μ ν : Type}

def Function.blocks (F : Function ι β ο) : List (BasicBlock ι β ο) := F.entryBlock :: F.others

/-! ## The pass -/

def wasmCtorCall : Inst ι := .call "__wasm_call_ctors" []

/-- For now just call with null. -/
def wasmDtorCall : Inst ι := .call "__cxa_finalize" [0]

namespace BasicBlock

def insertFront (bb : BasicBlock ι β ο) (inst : Inst ι) : BasicBlock ι β ο :=
  { bb with insts := inst :: bb.insts }

def insertBeforeTerminator (bb : BasicBlock ι β ο) (inst : Inst ι) : BasicBlock ι β ο :=
  { bb with insts := bb.insts ++ [inst] }

/-- The body of the loop over the blocks. -/
def finalizeReturn (bb : BasicBlock ι β ο) : BasicBlock ι β ο :=
  if bb.terminator.isReturn then bb.insertBeforeTerminator wasmDtorCall else bb

@[simp]
theorem insertFront_terminator (bb : BasicBlock ι β ο) (inst : Inst ι) :
    (bb.insertFront inst).terminator = bb.terminator := rfl

@[simp]
theorem finalizeReturn_terminator (bb : BasicBlock ι β ο) :
    bb.finalizeReturn.terminator = bb.terminator := by
  rw [finalizeReturn]
  split
  · rfl
  · rfl

end BasicBlock

namespace Function

def isEntry (F : Function ι β ο) : Bool :=
  F.attributes.contains "ftl_wasm_entry" || F.name == "apply"

/-- The function with both calls inserted. -/
def bracket (F : Function ι β ο) : Function ι β ο where
  name := F.name
  attributes := F.attributes
  entryBlock := (F.entryBlock.insertFront wasmCtorCall).finalizeReturn
  others := F.others.map BasicBlock.finalizeReturn
  successors_mem := by
    intro bb hbb l hl
    rw [List.mem_cons, List.mem_map] at hbb
    simp only [List.length_cons, List.length_map]
    rcases hbb with rfl | ⟨bb, hbb, rfl⟩
    · rw [BasicBlock.finalizeReturn_terminator, BasicBlock.insertFront_terminator] at hl
      exact F.successors_mem F.entryBlock List.mem_cons_self l hl
    · rw [BasicBlock.finalizeReturn_terminator] at hl
      exact F.successors_mem bb (List.mem_cons_of_mem _ hbb) l hl

/-- The pass: the function it leaves and whether it has changed it. -/
def runOnFunction (F : Function ι β ο) : Function ι β ο × Bool :=
  if F.isEntry then (F.bracket, true) else (F, false)

end Function

/-! ## Executions -/

/-- What the instructions of a function do to its registers and to the memory. -/
structure Machine (ι β ο ρ μ ν : Type) where
  /-- The linked functions: how a call can leave the memory, if it comes back at all. -/
  linked : String → List ℤ → μ → μ → Prop
  /-- An instruction may depend on the block control has come from. -/
  exec : ι → Option ℕ → ρ × μ → ρ × μ → Prop
  /-- A jump picks one of its successors. -/
  jump : β → ρ × μ → ℕ → ρ × μ → Prop
  value : ο → ρ → ν

/-- The C library's `__cxa_finalize` has an empty body. -/
def cxaFinalize (_dso : List ℤ) (mem : μ) : μ := mem

/-- How a call can leave the memory. -/
def Machine.call (M : Machine ι β ο ρ μ ν) (callee : String) (args : List ℤ) (mem mem' : μ) :
    Prop :=
  if callee = "__cxa_finalize" then mem' = cxaFinalize args mem
  else M.linked callee args mem mem'

/-- How an instruction can leave the registers and the memory. -/
def Machine.perform (M : Machine ι β ο ρ μ ν) :
    Inst ι → Option ℕ → ρ × μ → ρ × μ → Prop
  | .call callee args, _, (regs, mem), (regs', mem') => regs' = regs ∧ M.call callee args mem mem'
  | .other i, came, state, state' => M.exec i came state state'

/-- A point of an execution: the block control has come from, the one it is in, what
is still to be done there, and the registers and the memory. -/
structure Point (ι β ο ρ μ : Type) where
  came : Option ℕ
  here : ℕ
  rest : List (Inst ι)
  terminator : Terminator β ο
  state : ρ × μ

inductive Event (ι β : Type)
  | inst (i : Inst ι)
  | jump (b : β)

/-- How an execution can end. -/
inductive Outcome (ν : Type)
  | returned (value : ν)
  | resumed (value : ν)
  | unreachable

/-- The beginning of a block. -/
def BasicBlock.enter (bb : BasicBlock ι β ο) (came : Option ℕ) (here : ℕ) (state : ρ × μ) :
    Point ι β ο ρ μ :=
  ⟨came, here, bb.insts, bb.terminator, state⟩

namespace Function

def start (F : Function ι β ο) (state : ρ × μ) : Point ι β ο ρ μ :=
  F.entryBlock.enter none 0 state

inductive Step (M : Machine ι β ο ρ μ ν) (F : Function ι β ο) :
    Point ι β ο ρ μ → Event ι β → Point ι β ο ρ μ → Prop
  | inst {came here i rest t state state'} :
      M.perform i came state state' →
      Step M F ⟨came, here, i :: rest, t, state⟩ (.inst i) ⟨came, here, rest, t, state'⟩
  | jump {came here b successors k l state state'} {bb : BasicBlock ι β ο} :
      M.jump b state k state' → successors[k]? = some l → F.blocks[l]? = some bb →
      Step M F ⟨came, here, [], .jump b successors, state⟩ (.jump b)
        (bb.enter (some here) l state')

end Function

namespace Point

/-- The instruction that is due. -/
def due (p : Point ι β ο ρ μ) : Option (Event ι β) :=
  match p.rest, p.terminator with
  | inst :: _, _ => some (.inst inst)
  | [], .jump b _ => some (.jump b)
  | [], _ => none

/-- How the execution has ended, where nothing is left but the terminator. -/
def outcome (M : Machine ι β ο ρ μ ν) (p : Point ι β ο ρ μ) : Option (Outcome ν) :=
  match p.rest, p.terminator with
  | [], .ret v => some (.returned (M.value v p.state.1))
  | [], .resume v => some (.resumed (M.value v p.state.1))
  | [], .unreachable => some .unreachable
  | _, _ => none

end Point

namespace Function

variable (M : Machine ι β ο ρ μ ν) (F : Function ι β ο)

/-- An execution that performs the trace and ends, leaving the memory. -/
def Ends (regs : ρ) (mem : μ) (tr : List (Event ι β)) (o : Outcome ν) (mem' : μ) : Prop :=
  ∃ p, Steps (Step M F) (F.start (regs, mem)) tr p ∧ p.outcome M = some o ∧ p.state.2 = mem'

/-- An execution that performs one instruction after another without an end. -/
def RunsOn (regs : ρ) (mem : μ) (es : ℕ → Event ι β) : Prop :=
  Forever (Step M F) (F.start (regs, mem)) es

/-- An execution whose last instruction, after the trace, does not complete. -/
def HangsIn (regs : ρ) (mem : μ) (tr : List (Event ι β)) (e : Event ι β) : Prop :=
  ∃ p, Steps (Step M F) (F.start (regs, mem)) tr p ∧ p.due = some e ∧ Blocked (Step M F) p

/-- The executions of `F'` are those of `F` between the two calls. -/
structure BracketedBy (F' : Function ι β ο) : Prop where
  returns : ∀ regs mem tr v mem', F'.Ends M regs mem tr (.returned v) mem' ↔
    ∃ mem₁ body mem₂, M.call "__wasm_call_ctors" [] mem mem₁ ∧
      F.Ends M regs mem₁ body (.returned v) mem₂ ∧ M.call "__cxa_finalize" [0] mem₂ mem' ∧
      tr = .inst wasmCtorCall :: body ++ [.inst wasmDtorCall]
  leaves : ∀ regs mem tr o mem', (∀ v, o ≠ .returned v) → (F'.Ends M regs mem tr o mem' ↔
    ∃ mem₁ body, M.call "__wasm_call_ctors" [] mem mem₁ ∧ F.Ends M regs mem₁ body o mem' ∧
      tr = .inst wasmCtorCall :: body)
  runsOn : ∀ regs mem es, F'.RunsOn M regs mem es ↔
    ∃ mem₁ body, M.call "__wasm_call_ctors" [] mem mem₁ ∧ F.RunsOn M regs mem₁ body ∧
      es = consSeq (.inst wasmCtorCall) body
  hangsIn : ∀ regs mem tr e, F'.HangsIn M regs mem tr e ↔
    (tr = [] ∧ e = .inst wasmCtorCall ∧ ∀ mem₁, ¬ M.call "__wasm_call_ctors" [] mem mem₁) ∨
    ∃ mem₁ body, M.call "__wasm_call_ctors" [] mem mem₁ ∧ F.HangsIn M regs mem₁ body e ∧
      tr = .inst wasmCtorCall :: body

end Function

/-! ## The original inside the rewritten function -/

namespace Point

/-- Nothing but a return is left. -/
def AtReturn (p : Point ι β ο ρ μ) : Prop := p.rest = [] ∧ p.terminator.isReturn

/-- The point of the rewritten function that corresponds to a point of the original. -/
def bracket (p : Point ι β ο ρ μ) : Point ι β ο ρ μ :=
  { p with rest := p.rest ++ if p.terminator.isReturn then [wasmDtorCall] else [] }

/-- The finalizer call, after which only the return is left. -/
def Finalizes (M : Machine ι β ο ρ μ ν) (p : Point ι β ο ρ μ) (e : Event ι β)
    (q : Point ι β ο ρ μ) : Prop :=
  p.AtReturn ∧ e = .inst wasmDtorCall ∧
    ∃ mem', M.call "__cxa_finalize" [0] p.state.2 mem' ∧ q = { p with state := (p.state.1, mem') }

end Point

theorem BasicBlock.bracket_enter (bb : BasicBlock ι β ο) (came : Option ℕ) (here : ℕ)
    (state : ρ × μ) :
    (bb.enter came here state).bracket = bb.finalizeReturn.enter came here state := by
  unfold BasicBlock.enter Point.bracket BasicBlock.finalizeReturn
  by_cases hret : bb.terminator.isReturn
  · simp [hret, BasicBlock.insertBeforeTerminator]
  · simp [hret]

namespace Function

variable {M : Machine ι β ο ρ μ ν} {F : Function ι β ο}

theorem step_inst_iff {came : Option ℕ} {here : ℕ} {i : Inst ι} {rest : List (Inst ι)}
    {t : Terminator β ο} {state : ρ × μ} {e : Event ι β} {q : Point ι β ο ρ μ} :
    Step M F ⟨came, here, i :: rest, t, state⟩ e q ↔
      e = .inst i ∧ ∃ state', M.perform i came state state' ∧
        q = ⟨came, here, rest, t, state'⟩ := by
  constructor
  · intro h
    cases h with
    | inst h => exact ⟨rfl, _, h, rfl⟩
  · rintro ⟨rfl, state', h, rfl⟩
    exact .inst h

theorem step_terminator_iff {came : Option ℕ} {here : ℕ} {t : Terminator β ο} {state : ρ × μ}
    {e : Event ι β} {q : Point ι β ο ρ μ} :
    Step M F ⟨came, here, [], t, state⟩ e q ↔
      ∃ b successors k l state' bb, t = .jump b successors ∧ e = .jump b ∧
        M.jump b state k state' ∧ successors[k]? = some l ∧ F.blocks[l]? = some bb ∧
        q = bb.enter (some here) l state' := by
  constructor
  · intro h
    cases h with
    | jump hjump hl hbb => exact ⟨_, _, _, _, _, _, rfl, rfl, hjump, hl, hbb, rfl⟩
  · rintro ⟨b, successors, k, l, state', bb, rfl, rfl, hjump, hl, hbb, rfl⟩
    exact .jump hjump hl hbb

/-- No jump leads to the entry block, so the constructor call is never reached again. -/
theorem blocks_bracket_getElem? {l : ℕ} (hl : 0 < l) :
    F.bracket.blocks[l]? = F.blocks[l]?.map BasicBlock.finalizeReturn := by
  cases l with
  | zero => exact absurd hl (Nat.lt_irrefl 0)
  | succ l => simp [blocks, bracket]

/-- The successors of the block at hand are blocks other than the entry. -/
def Inside (p : Point ι β ο ρ μ) : Prop := ∀ l ∈ p.terminator.successors, 0 < l

theorem inside_enter {bb : BasicBlock ι β ο} (hbb : bb ∈ F.blocks) (came : Option ℕ) (here : ℕ)
    (state : ρ × μ) : Inside (bb.enter came here state) := by
  intro l hl
  exact (F.successors_mem bb hbb l hl).1

theorem inside_of_step {p q : Point ι β ο ρ μ} {e : Event ι β} (hp : Inside p)
    (hstep : Step M F p e q) : Inside q := by
  cases hstep with
  | inst _ => exact hp
  | jump _ _ hbb => exact inside_enter (List.mem_of_getElem? hbb) _ _ _

/-- At a point with the finalizer call due, that call is the only step. -/
theorem step_bracket_of_atReturn {p : Point ι β ο ρ μ} {e : Event ι β} {q : Point ι β ο ρ μ}
    (hret : p.AtReturn) : Step M F.bracket p.bracket e q ↔ p.Finalizes M e q := by
  obtain ⟨came, here, rest, t, regs, mem⟩ := p
  obtain ⟨rfl, hreturn⟩ := hret
  rw [Point.bracket, if_pos hreturn, List.nil_append, wasmDtorCall, step_inst_iff]
  constructor
  · rintro ⟨rfl, ⟨regs', mem'⟩, ⟨rfl, hcall⟩, rfl⟩
    exact ⟨⟨rfl, hreturn⟩, rfl, mem', hcall, rfl⟩
  · rintro ⟨-, rfl, mem', hcall, rfl⟩
    exact ⟨rfl, (regs, mem'), ⟨rfl, hcall⟩, rfl⟩

/-- Elsewhere the rewritten function takes the step of the original. -/
theorem step_bracket_of_not_atReturn {p : Point ι β ο ρ μ} {e : Event ι β} {q : Point ι β ο ρ μ}
    (hp : Inside p) (hret : ¬ p.AtReturn) :
    Step M F.bracket p.bracket e q ↔ ∃ p', Step M F p e p' ∧ p'.bracket = q := by
  obtain ⟨came, here, rest, t, state⟩ := p
  cases rest with
  | cons i rest =>
      simp only [Point.bracket, List.cons_append, step_inst_iff]
      constructor
      · rintro ⟨rfl, state', hperform, rfl⟩
        exact ⟨_, ⟨rfl, state', hperform, rfl⟩, rfl⟩
      · rintro ⟨p', ⟨rfl, state', hperform, rfl⟩, rfl⟩
        exact ⟨rfl, state', hperform, rfl⟩
  | nil =>
      have hreturn : ¬ t.isReturn := fun h => hret ⟨rfl, h⟩
      simp only [Point.bracket, hreturn, Bool.false_eq_true, if_false, List.append_nil,
        step_terminator_iff]
      constructor
      · rintro ⟨b, successors, k, l, state', bb', rfl, rfl, hjump, hl, hbb, rfl⟩
        rw [blocks_bracket_getElem? (hp l (List.mem_of_getElem? hl)), Option.map_eq_some_iff] at hbb
        obtain ⟨bb, hbb, rfl⟩ := hbb
        exact ⟨_, ⟨b, successors, k, l, state', bb, rfl, rfl, hjump, hl, hbb, rfl⟩,
          bb.bracket_enter _ _ _⟩
      · rintro ⟨p', ⟨b, successors, k, l, state', bb, rfl, rfl, hjump, hl, hbb, rfl⟩, rfl⟩
        refine ⟨b, successors, k, l, state', bb.finalizeReturn, rfl, rfl, hjump, hl, ?_,
          bb.bracket_enter _ _ _⟩
        rw [blocks_bracket_getElem? (hp l (List.mem_of_getElem? hl)), hbb, Option.map_some]

theorem not_step_of_atReturn {p : Point ι β ο ρ μ} (hret : p.AtReturn) :
    Blocked (Step M F) p := by
  obtain ⟨came, here, rest, t, state⟩ := p
  obtain ⟨rfl, hreturn⟩ := hret
  intro e q hstep
  obtain ⟨b, successors, k, l, state', bb, rfl, -⟩ := step_terminator_iff.mp hstep
  exact absurd hreturn (by simp [Terminator.isReturn])

/-- The rewritten function contains the original and leaves it by the finalizer call. -/
theorem embeds_bracket (M : Machine ι β ο ρ μ ν) (F : Function ι β ο) :
    Embeds (Step M F) (Step M F.bracket) Inside Point.bracket (Point.Finalizes M) where
  step_iff := by
    intro p e q hp
    by_cases hret : p.AtReturn
    · rw [step_bracket_of_atReturn hret]
      constructor
      · exact .inr
      · rintro (⟨p', hstep, -⟩ | hfinal)
        · exact absurd hstep (not_step_of_atReturn hret e p')
        · exact hfinal
    · rw [step_bracket_of_not_atReturn hp hret]
      constructor
      · exact .inl
      · rintro (hstep | hfinal)
        · exact hstep
        · exact absurd hfinal.1 hret
  preserved := fun _ _ _ => inside_of_step
  blocked := by
    rintro p e q ⟨⟨hrest, hreturn⟩, -, mem', -, rfl⟩
    exact not_step_of_atReturn ⟨hrest, hreturn⟩

theorem inside_start (state : ρ × μ) : Inside (F.start state) :=
  inside_enter List.mem_cons_self none 0 state

theorem start_bracket (F : Function ι β ο) (state : ρ × μ) :
    F.bracket.start state = { (F.start state).bracket with
      rest := wasmCtorCall :: (F.start state).bracket.rest } := by
  rw [start, start, BasicBlock.bracket_enter]
  unfold bracket BasicBlock.enter BasicBlock.finalizeReturn
  by_cases hret : F.entryBlock.terminator.isReturn
  · simp [hret, BasicBlock.insertBeforeTerminator, BasicBlock.insertFront]
  · simp [hret, BasicBlock.insertFront]

/-- The rewritten function begins with the constructor call and then is where the
original begins. -/
theorem step_start_bracket_iff {regs : ρ} {mem : μ} {e : Event ι β} {q : Point ι β ο ρ μ} :
    Step M F.bracket (F.bracket.start (regs, mem)) e q ↔ e = .inst wasmCtorCall ∧
      ∃ mem₁, M.call "__wasm_call_ctors" [] mem mem₁ ∧ q = (F.start (regs, mem₁)).bracket := by
  rw [start_bracket, step_inst_iff]
  constructor
  · rintro ⟨rfl, ⟨regs', mem₁⟩, ⟨rfl, hcall⟩, rfl⟩
    exact ⟨rfl, mem₁, hcall, rfl⟩
  · rintro ⟨rfl, mem₁, hcall, rfl⟩
    exact ⟨rfl, (regs, mem₁), ⟨rfl, hcall⟩, rfl⟩

/-- A run of the rewritten function has done nothing, or the constructor call and a
run of the original, or both calls and a run of the original up to its return. -/
theorem steps_start_bracket_iff {regs : ρ} {mem : μ} {tr : List (Event ι β)}
    {q : Point ι β ο ρ μ} :
    Steps (Step M F.bracket) (F.bracket.start (regs, mem)) tr q ↔
      (tr = [] ∧ q = F.bracket.start (regs, mem)) ∨
      ∃ mem₁ body p, M.call "__wasm_call_ctors" [] mem mem₁ ∧
        Steps (Step M F) (F.start (regs, mem₁)) body p ∧
        ((tr = .inst wasmCtorCall :: body ∧ q = p.bracket) ∨
          (tr = .inst wasmCtorCall :: body ++ [.inst wasmDtorCall] ∧
            p.Finalizes M (.inst wasmDtorCall) q)) := by
  cases tr with
  | nil =>
      rw [steps_nil_iff]
      constructor
      · rintro rfl
        exact .inl ⟨rfl, rfl⟩
      · rintro (⟨-, rfl⟩ | ⟨mem₁, body, p, -, -, ⟨htr, -⟩ | ⟨htr, -⟩⟩)
        · rfl
        · exact absurd htr (by simp)
        · exact absurd htr (by simp)
  | cons e tr =>
      rw [steps_cons_iff]
      constructor
      · rintro ⟨q', hfirst, hrest⟩
        obtain ⟨rfl, mem₁, hcall, rfl⟩ := step_start_bracket_iff.mp hfirst
        rcases ((embeds_bracket M F).steps_iff (inside_start _)).mp hrest with
          ⟨p, hrun, rfl⟩ | ⟨body, p, e, hrun, hfinal, rfl⟩
        · exact .inr ⟨mem₁, tr, p, hcall, hrun, .inl ⟨rfl, rfl⟩⟩
        · obtain rfl := hfinal.2.1
          exact .inr ⟨mem₁, body, p, hcall, hrun, .inr ⟨rfl, hfinal⟩⟩
      · rintro (⟨htr, -⟩ | ⟨mem₁, body, p, hcall, hrun, ⟨htr, rfl⟩ | ⟨htr, hfinal⟩⟩)
        · exact absurd htr (by simp)
        · obtain ⟨rfl, rfl⟩ := List.cons.inj htr
          exact ⟨_, step_start_bracket_iff.mpr ⟨rfl, mem₁, hcall, rfl⟩,
            (embeds_bracket M F).steps_emb (inside_start _) hrun⟩
        · obtain ⟨rfl, rfl⟩ := List.cons.inj htr
          refine ⟨_, step_start_bracket_iff.mpr ⟨rfl, mem₁, hcall, rfl⟩, ?_⟩
          exact ((embeds_bracket M F).steps_iff (inside_start _)).mpr
            (.inr ⟨body, p, _, hrun, hfinal, rfl⟩)

end Function

/-! ## How executions end -/

namespace Point

variable {M : Machine ι β ο ρ μ ν} {p : Point ι β ο ρ μ}

theorem atReturn_iff : p.AtReturn ↔ ∃ v, p.outcome M = some (.returned v) := by
  obtain ⟨came, here, rest, t, state⟩ := p
  cases rest with
  | cons i rest => simp [AtReturn, outcome]
  | nil => cases t <;> simp [AtReturn, outcome, Terminator.isReturn]

theorem outcome_bracket_of_atReturn (hret : p.AtReturn) : p.bracket.outcome M = none := by
  obtain ⟨came, here, rest, t, state⟩ := p
  obtain ⟨rfl, hreturn⟩ := hret
  rw [bracket, if_pos hreturn]
  rfl

theorem bracket_of_not_atReturn (hret : ¬ p.AtReturn) :
    p.bracket.outcome M = p.outcome M ∧ p.bracket.due = p.due := by
  obtain ⟨came, here, rest, t, state⟩ := p
  cases rest with
  | cons i rest => exact ⟨rfl, rfl⟩
  | nil =>
      have hreturn : ¬ t.isReturn := fun h => hret ⟨rfl, h⟩
      rw [bracket, if_neg hreturn]
      exact ⟨rfl, rfl⟩

theorem due_of_atReturn (hret : p.AtReturn) : p.due = none := by
  obtain ⟨came, here, rest, t, state⟩ := p
  obtain ⟨rfl, hreturn⟩ := hret
  cases t with
  | ret v => rfl
  | jump b successors => exact absurd hreturn (by simp [Terminator.isReturn])
  | resume v => rfl
  | unreachable => rfl

/-- A return reads its value from the registers, which the finalizer does not touch. -/
theorem outcome_of_finalizes {e : Event ι β} {q : Point ι β ο ρ μ} (h : p.Finalizes M e q) :
    q.outcome M = p.outcome M := by
  obtain ⟨-, -, mem', -, rfl⟩ := h
  rfl

end Point

theorem Machine.call_cxa_finalize (M : Machine ι β ο ρ μ ν) (args : List ℤ) (mem : μ) :
    M.call "__cxa_finalize" args mem mem := by
  rw [Machine.call, if_pos rfl]
  rfl

namespace Function

variable {M : Machine ι β ο ρ μ ν} {F : Function ι β ο}

theorem ends_bracket_iff {regs : ρ} {mem : μ} {tr : List (Event ι β)} {o : Outcome ν} {mem' : μ} :
    F.bracket.Ends M regs mem tr o mem' ↔
      ∃ mem₁ body mem₂, M.call "__wasm_call_ctors" [] mem mem₁ ∧ F.Ends M regs mem₁ body o mem₂ ∧
        (((∀ v, o ≠ .returned v) ∧ tr = .inst wasmCtorCall :: body ∧ mem' = mem₂) ∨
          ((∃ v, o = .returned v) ∧ tr = .inst wasmCtorCall :: body ++ [.inst wasmDtorCall] ∧
            M.call "__cxa_finalize" [0] mem₂ mem')) := by
  constructor
  · rintro ⟨q, hsteps, hout, rfl⟩
    rcases steps_start_bracket_iff.mp hsteps with
      ⟨-, rfl⟩ | ⟨mem₁, body, p, hcall, hrun, ⟨htr, rfl⟩ | ⟨htr, hfinal⟩⟩
    · rw [start_bracket] at hout
      exact absurd hout (by simp [Point.outcome])
    · by_cases hret : p.AtReturn
      · rw [Point.outcome_bracket_of_atReturn hret] at hout
        exact absurd hout (by simp)
      · rw [(Point.bracket_of_not_atReturn hret).1] at hout
        refine ⟨mem₁, body, p.state.2, hcall, ⟨p, hrun, hout, rfl⟩, .inl ⟨?_, htr, rfl⟩⟩
        rintro v rfl
        exact hret (Point.atReturn_iff.mpr ⟨v, hout⟩)
    · rw [Point.outcome_of_finalizes hfinal] at hout
      obtain ⟨hret, -, mem', hdtor, rfl⟩ := hfinal
      obtain ⟨v, hv⟩ := (@Point.atReturn_iff _ _ _ _ _ _ M p).mp hret
      refine ⟨mem₁, body, p.state.2, hcall, ⟨p, hrun, hout, rfl⟩, .inr ⟨⟨v, ?_⟩, htr, hdtor⟩⟩
      exact Option.some.inj (hout.symm.trans hv)
  · rintro ⟨mem₁, body, mem₂, hcall, ⟨p, hrun, hout, rfl⟩, hcase⟩
    rcases hcase with ⟨hne, htr, rfl⟩ | ⟨⟨v, rfl⟩, htr, hdtor⟩
    · have hret : ¬ p.AtReturn := by
        intro hret
        obtain ⟨v, hv⟩ := (@Point.atReturn_iff _ _ _ _ _ _ M p).mp hret
        exact hne v (Option.some.inj (hout.symm.trans hv))
      refine ⟨p.bracket, ?_, ((Point.bracket_of_not_atReturn hret).1).trans hout, rfl⟩
      exact steps_start_bracket_iff.mpr (.inr ⟨mem₁, body, p, hcall, hrun, .inl ⟨htr, rfl⟩⟩)
    · have hfinal : p.Finalizes M (.inst wasmDtorCall) { p with state := (p.state.1, mem') } :=
        ⟨Point.atReturn_iff.mpr ⟨v, hout⟩, rfl, mem', hdtor, rfl⟩
      refine ⟨_, ?_, (Point.outcome_of_finalizes hfinal).trans hout, rfl⟩
      exact steps_start_bracket_iff.mpr (.inr ⟨mem₁, body, p, hcall, hrun, .inr ⟨htr, hfinal⟩⟩)

theorem runsOn_bracket_iff {regs : ρ} {mem : μ} {es : ℕ → Event ι β} :
    F.bracket.RunsOn M regs mem es ↔
      ∃ mem₁ body, M.call "__wasm_call_ctors" [] mem mem₁ ∧ F.RunsOn M regs mem₁ body ∧
        es = consSeq (.inst wasmCtorCall) body := by
  rw [RunsOn, forever_iff]
  constructor
  · rintro ⟨q, hfirst, hrest⟩
    obtain ⟨hes, mem₁, hcall, rfl⟩ := step_start_bracket_iff.mp hfirst
    refine ⟨mem₁, _, hcall, ((embeds_bracket M F).forever_iff (inside_start _)).mp hrest, ?_⟩
    funext n
    cases n with
    | zero => exact hes
    | succ n => rfl
  · rintro ⟨mem₁, body, hcall, hrun, rfl⟩
    refine ⟨_, step_start_bracket_iff.mpr ⟨rfl, mem₁, hcall, rfl⟩, ?_⟩
    exact ((embeds_bracket M F).forever_iff (inside_start _)).mpr hrun

theorem hangsIn_bracket_iff {regs : ρ} {mem : μ} {tr : List (Event ι β)} {e : Event ι β} :
    F.bracket.HangsIn M regs mem tr e ↔
      (tr = [] ∧ e = .inst wasmCtorCall ∧ ∀ mem₁, ¬ M.call "__wasm_call_ctors" [] mem mem₁) ∨
      ∃ mem₁ body, M.call "__wasm_call_ctors" [] mem mem₁ ∧ F.HangsIn M regs mem₁ body e ∧
        tr = .inst wasmCtorCall :: body := by
  constructor
  · rintro ⟨q, hsteps, hdue, hblocked⟩
    rcases steps_start_bracket_iff.mp hsteps with
      ⟨rfl, rfl⟩ | ⟨mem₁, body, p, hcall, hrun, ⟨rfl, rfl⟩ | ⟨-, hfinal⟩⟩
    · refine .inl ⟨rfl, ?_, ?_⟩
      · rw [start_bracket] at hdue
        exact (Option.some.inj hdue).symm
      · intro mem₁ hcall
        exact hblocked _ _ (step_start_bracket_iff.mpr ⟨rfl, mem₁, hcall, rfl⟩)
    · rw [(embeds_bracket M F).blocked_iff
        ((embeds_bracket M F).inv_of_steps (inside_start _) hrun)]
        at hblocked
      have hret : ¬ p.AtReturn := fun hret =>
        hblocked.2 _ _ ⟨hret, rfl, _, M.call_cxa_finalize [0] p.state.2, rfl⟩
      rw [(Point.bracket_of_not_atReturn (M := M) hret).2] at hdue
      exact .inr ⟨mem₁, body, hcall, ⟨p, hrun, hdue, hblocked.1⟩, rfl⟩
    · obtain ⟨hret, -, mem', -, rfl⟩ := hfinal
      have hdone := Point.due_of_atReturn (p := { p with state := (p.state.1, mem') }) hret
      exact absurd (hdue.symm.trans hdone) (by simp)
  · rintro (⟨rfl, rfl, hstuck⟩ | ⟨mem₁, body, hcall, ⟨p, hrun, hdue, hblocked⟩, rfl⟩)
    · refine ⟨_, .refl _, ?_, ?_⟩
      · rw [start_bracket]
        rfl
      · intro e q hstep
        obtain ⟨-, mem₁, hcall, -⟩ := step_start_bracket_iff.mp hstep
        exact hstuck mem₁ hcall
    · have hret : ¬ p.AtReturn := fun hret =>
        absurd (hdue.symm.trans (Point.due_of_atReturn hret)) (by simp)
      refine ⟨p.bracket, steps_start_bracket_iff.mpr
        (.inr ⟨mem₁, body, p, hcall, hrun, .inl ⟨rfl, rfl⟩⟩),
        ((Point.bracket_of_not_atReturn (M := M) hret).2).trans hdue, ?_⟩
      rw [(embeds_bracket M F).blocked_iff
        ((embeds_bracket M F).inv_of_steps (inside_start _) hrun)]
      exact ⟨hblocked, fun e q hfinal => hret hfinal.1⟩

theorem bracketedBy_bracket (M : Machine ι β ο ρ μ ν) (F : Function ι β ο) :
    F.BracketedBy M F.bracket where
  returns := by
    intro regs mem tr v mem'
    rw [ends_bracket_iff]
    constructor
    · rintro ⟨mem₁, body, mem₂, hcall, hrun, ⟨hne, -⟩ | ⟨-, htr, hdtor⟩⟩
      · exact absurd rfl (hne v)
      · exact ⟨mem₁, body, mem₂, hcall, hrun, hdtor, htr⟩
    · rintro ⟨mem₁, body, mem₂, hcall, hrun, hdtor, htr⟩
      exact ⟨mem₁, body, mem₂, hcall, hrun, .inr ⟨⟨v, rfl⟩, htr, hdtor⟩⟩
  leaves := by
    intro regs mem tr o mem' hne
    rw [ends_bracket_iff]
    constructor
    · rintro ⟨mem₁, body, mem₂, hcall, hrun, ⟨-, htr, rfl⟩ | ⟨⟨v, rfl⟩, -⟩⟩
      · exact ⟨mem₁, body, hcall, hrun, htr⟩
      · exact absurd rfl (hne v)
    · rintro ⟨mem₁, body, hcall, hrun, htr⟩
      exact ⟨mem₁, body, mem', hcall, hrun, .inl ⟨hne, htr, rfl⟩⟩
  runsOn := fun _ _ _ => runsOn_bracket_iff
  hangsIn := fun _ _ _ _ => hangsIn_bracket_iff

/-- The pass brackets the executions of an entry function, on any machine, and
leaves every other function as it is. -/
theorem runOnFunction_brackets (M : Machine ι β ο ρ μ ν) (F : Function ι β ο) :
    (F.name = "apply" ∨ "ftl_wasm_entry" ∈ F.attributes →
      F.BracketedBy M F.runOnFunction.1 ∧ F.runOnFunction.2 = true) ∧
    (¬ (F.name = "apply" ∨ "ftl_wasm_entry" ∈ F.attributes) → F.runOnFunction = (F, false)) := by
  have hentry : F.isEntry ↔ F.name = "apply" ∨ "ftl_wasm_entry" ∈ F.attributes := by
    simp [isEntry, or_comm]
  rw [runOnFunction]
  constructor
  · intro h
    rw [if_pos (hentry.mpr h)]
    exact ⟨bracketedBy_bracket M F, rfl⟩
  · intro h
    exact if_neg fun hpos => h (hentry.mp hpos)

/-- `apply` with a loop on block 1, a return and an unreachable exit. -/
def sampleEntry : Function String Unit ℤ where
  name := "apply"
  attributes := []
  entryBlock := ⟨[], .jump () [1, 3]⟩
  others := [⟨[.other "receive"], .jump () [1, 2]⟩, ⟨[], .ret 7⟩, ⟨[], .unreachable⟩]
  successors_mem := by decide

example : sampleEntry.runOnFunction.1.blocks =
    [⟨[.call "__wasm_call_ctors" []], .jump () [1, 3]⟩, ⟨[.other "receive"], .jump () [1, 2]⟩,
      ⟨[.call "__cxa_finalize" [0]], .ret 7⟩, ⟨[], .unreachable⟩] := by decide

/-- Constructors write 1, an instruction adds 1 and a jump goes to either successor. -/
def sampleMachine : Machine String Unit ℤ Unit ℕ ℤ where
  linked _ _ _ mem' := mem' = 1
  exec _ _ state state' := state' = ((), state.2 + 1)
  jump _ state k state' := k < 2 ∧ state' = state
  value v _ := v

theorem sampleEntry_brackets :
    sampleEntry.BracketedBy sampleMachine sampleEntry.runOnFunction.1 ∧
      sampleEntry.runOnFunction.2 = true :=
  (runOnFunction_brackets sampleMachine sampleEntry).1 (.inl rfl)

end Function

end FractalCdt.Toolchain
