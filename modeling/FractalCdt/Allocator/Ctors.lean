/-
# The constructors of a contract

`apply` begins with `__wasm_call_ctors`, which calls the init functions of all
object files by priority.  The constructor of the allocator is one of them, of
the default priority and from the object linked last, so every initialiser of
the user's objects up to that priority runs against the zeroed allocator, whose
first block is the null pointer.
-/

import FractalCdt.Allocator.Dsmalloc
import FractalCdt.Math.StableSort

namespace FractalCdt.Allocator

open FractalCdt.Math

/-- What an init function does in a run, as far as the heap is concerned: it asks
for blocks and writes bytes into blocks that have been returned. -/
inductive Event
  | malloc (req : Request)
  | write (block : ℕ) (offset : BitVec 32) (value : Byte)

inductive Op
  /-- The constructor of `_dsmalloc`. -/
  | construct
  | event (e : Event)

/-- The heap of a running contract; `constructed` records what has run. -/
structure Process where
  ledger : Ledger
  constructed : Bool

/-- Write into a returned block, inside its bounds. -/
def Ledger.write (s : Ledger) (block : ℕ) (offset : BitVec 32) (value : Byte) : Ledger :=
  match s.blocks[block]? with
  | none => s
  | some b =>
      if offset < b.size then
        { s with machine.mem := s.machine.mem.store (b.start + offset) [value] }
      else s

def Op.exec : Op → StateT Process (Except Fault) Addr
  | .construct => fun s =>
      let m := s.ledger.machine
      .ok (0, { s with
        ledger.machine.malloc := .construct m.mem m.pages
        constructed := true })
  | .event (.malloc req) => fun s => do
      let (p, ledger) ← (serve req).run s.ledger
      return (p, { s with ledger })
  | .event (.write block offset value) => fun s =>
      .ok (0, { s with ledger := s.ledger.write block offset value })

/-! ## The order of the init functions -/

/-- An init function: the allocator's own, or one of the user's. -/
inductive FunctionSymbol
  | dsmalloc
  | user (run : List Event)

structure WasmInitEntry where
  Sym : FunctionSymbol
  Priority : ℕ

/-- `Writer::calculateInitFunctions`; `std::stable_sort` by priority. -/
def calculateInitFunctions (ObjectFiles : List (List WasmInitEntry)) : List WasmInitEntry :=
  ObjectFiles.flatten.insertionSort fun L R => L.Priority ≤ R.Priority

/-- The operations of an init function. -/
def FunctionSymbol.ops : FunctionSymbol → List Op
  | .dsmalloc => [.construct]
  | .user run => run.map .event

/-- The body of `__wasm_call_ctors`, as `Writer::createCtorFunction` writes it. -/
def callCtors (InitFunctions : List WasmInitEntry) : List Op :=
  InitFunctions.flatMap fun F => F.Sym.ops

/-- The init function of `libftl_malloc`: `UINT16_MAX` is the default priority. -/
def mallocInit : WasmInitEntry := ⟨.dsmalloc, 65535⟩

/-- An init function of the user's objects. -/
structure InitFunc where
  run : List Event
  Priority : ℕ

def InitFunc.entry (F : InitFunc) : WasmInitEntry := ⟨.user F.run, F.Priority⟩

/-- What an entry of the user's does. -/
def WasmInitEntry.events (E : WasmInitEntry) : List Event :=
  match E.Sym with
  | .dsmalloc => []
  | .user run => run

/-- A contract as it is linked: `fractal-ld` puts a stack of 8192 bytes first. -/
structure Linked extends Start where
  stack : 8192 ≤ (heapBase mem).toNat

/-- A contract, what its init functions do in a run and what its action does
afterwards. -/
structure Program where
  linked : Linked
  objects : List (List InitFunc)
  body : List Event

namespace Program

variable (prog : Program)

/-- The user's objects come first, `libftl_malloc` last. -/
def initFunctions : List WasmInitEntry :=
  calculateInitFunctions (prog.objects.map (List.map InitFunc.entry) ++ [[mallocInit]])

/-- The run of `apply`. -/
def ops : List Op := callCtors prog.initFunctions ++ prog.body.map .event

/-- The instance before anything has run. -/
def process : Process :=
  ⟨⟨⟨prog.linked.mem, prog.linked.pages, .zeroed⟩, []⟩, false⟩

def entries : List WasmInitEntry := (prog.objects.map (List.map InitFunc.entry)).flatten

/-- The user's init functions that are called before the constructor. -/
def early : List WasmInitEntry :=
  (prog.entries.filter (·.Priority ≤ 65535)).insertionSort fun L R => L.Priority ≤ R.Priority

/-- The run up to the constructor. -/
def opening : List Op := callCtors (prog.early ++ [mallocInit])

/-- The user's init functions that are called after it. -/
def late : List WasmInitEntry :=
  (prog.entries.filter (¬ ·.Priority ≤ 65535)).insertionSort fun L R => L.Priority ≤ R.Priority

theorem initFunctions_eq : prog.initFunctions = prog.early ++ mallocInit :: prog.late := by
  have : IsTrans WasmInitEntry fun L R => L.Priority ≤ R.Priority :=
    ⟨fun _ _ _ => le_trans⟩
  rw [initFunctions, calculateInitFunctions, List.flatten_append, List.flatten_singleton]
  exact insertionSort_append_singleton _ prog.entries mallocInit

theorem exists_of_mem_entries {E : WasmInitEntry} (h : E ∈ prog.entries) :
    ∃ object ∈ prog.objects, ∃ F ∈ object, E = F.entry := by
  obtain ⟨entries, hentries, hE⟩ := List.mem_flatten.mp h
  obtain ⟨object, hobject, rfl⟩ := List.mem_map.mp hentries
  obtain ⟨F, hF, rfl⟩ := List.mem_map.mp hE
  exact ⟨object, hobject, F, hF, rfl⟩

theorem ops_of_mem_entries {E : WasmInitEntry} (h : E ∈ prog.entries) :
    E.Sym.ops = E.events.map .event := by
  obtain ⟨object, -, F, -, rfl⟩ := prog.exists_of_mem_entries h
  rfl

theorem callCtors_user {Es : List WasmInitEntry} (h : ∀ E ∈ Es, E ∈ prog.entries) :
    callCtors Es = (Es.flatMap WasmInitEntry.events).map .event := by
  rw [callCtors, List.map_flatMap]
  exact List.flatMap_congr fun E hE => prog.ops_of_mem_entries (h E hE)

theorem mem_entries_of_mem_early {E : WasmInitEntry} (h : E ∈ prog.early) :
    E ∈ prog.entries ∧ E.Priority ≤ 65535 := by
  rwa [early, List.mem_insertionSort, List.mem_filter, decide_eq_true_iff] at h

theorem mem_entries_of_mem_late {E : WasmInitEntry} (h : E ∈ prog.late) : E ∈ prog.entries := by
  rw [late, List.mem_insertionSort, List.mem_filter] at h
  exact h.1

theorem opening_eq :
    prog.opening = (prog.early.flatMap WasmInitEntry.events).map .event ++ [.construct] := by
  have hearly := prog.callCtors_user fun E hE => (prog.mem_entries_of_mem_early hE).1
  rw [callCtors] at hearly
  rw [opening, callCtors, List.flatMap_append, hearly]
  rfl

/-- The constructor runs between the init functions of the user's objects up to
the default priority and all that comes later. -/
theorem ops_eq : prog.ops = (prog.early.flatMap WasmInitEntry.events).map .event ++
    .construct :: (prog.late.flatMap WasmInitEntry.events ++ prog.body).map .event := by
  rw [ops, initFunctions_eq, callCtors, List.flatMap_append, List.flatMap_cons]
  have hearly := prog.callCtors_user fun E hE => (prog.mem_entries_of_mem_early hE).1
  have hlate := prog.callCtors_user fun E hE => prog.mem_entries_of_mem_late hE
  rw [callCtors] at hearly hlate
  rw [hearly, hlate, List.map_append, List.append_assoc]
  rfl

end Program

/-! ## What a run must keep to -/

/-- A request gets a block that is not null, from the heap base on, apart from all
before; the constructor reads a word that no block reaches. -/
def SoundOp (base : Addr) (s : Process) (op : Op) (p : Addr) (_ : Process) : Prop :=
  match op with
  | .construct =>
      heapBase s.ledger.machine.mem = base ∧ ∀ b ∈ s.ledger.blocks, b.extent.Apart ⟨0, 4⟩
  | .event (.malloc req) =>
      req.size ≠ 0 → p ≠ 0 ∧ base ≤ p ∧
        ∀ b ∈ s.ledger.blocks, (Block.extent ⟨p, req.size⟩).Apart b.extent
  | .event (.write _ _ _) => True

/-- A request that is served finds the constructor run, unless it is for no
bytes. -/
def NotEarly (s : Process) (op : Op) (_ : Addr) (_ : Process) : Prop :=
  match op with
  | .event (.malloc req) => req.size ≠ 0 → s.constructed = true
  | _ => True

/-- Nothing has been allocated yet. -/
structure Fresh (linked : Linked) (s : Process) : Prop where
  blocks_eq : s.ledger.blocks = []
  mem_eq : s.ledger.machine.mem = linked.mem
  pages_eq : s.ledger.machine.pages = linked.pages
  malloc_eq : s.ledger.machine.malloc = .zeroed
  not_constructed : s.constructed = false

theorem Sane.write {h : Addr} {s : Ledger} (hsane : Sane h s) (block : ℕ) (offset : BitVec 32)
    (value : Byte) : Sane h (s.write block offset value) := by
  unfold Ledger.write
  split
  · exact hsane
  · split
    · exact ⟨⟨hsane.roomy.aligned, hsane.roomy.below, hsane.roomy.nextPage_eq,
        hsane.roomy.pages_le⟩, hsane.above, hsane.stacked⟩
    · exact hsane

section Runs

variable {linked : Linked} {s s' : Process} {p : Addr}

theorem exec_malloc_of_run {req : Request} {m' : Machine}
    (hmalloc : (malloc req).run s.ledger.machine = .ok (p, m')) :
    (Op.event (.malloc req)).exec.run s = .ok (p, ⟨⟨m',
      if req.size = 0 then s.ledger.blocks else ⟨p, req.size⟩ :: s.ledger.blocks⟩,
      s.constructed⟩) :=
  congrArg (· >>= _) (run_serve hmalloc)

theorem exec_event_constructed {e : Event} (hrun : (Op.event e).exec.run s = .ok (p, s')) :
    s'.constructed = s.constructed := by
  cases e with
  | write block offset value =>
      cases hrun
      rfl
  | malloc req =>
      obtain ⟨⟨p', ledger'⟩, -, hprocess⟩ := exists_of_bind_eq_ok hrun
      cases hprocess
      rfl

/-- Once the constructor has run, every event keeps the heap sane. -/
theorem exec_event_of_sane {e : Event} (hsane : Sane linked.h s.ledger)
    (hrun : (Op.event e).exec.run s = .ok (p, s')) :
    Sane linked.h s'.ledger ∧ SoundOp linked.h s (.event e) p s' := by
  cases e with
  | write block offset value =>
      cases hrun
      exact ⟨hsane.write block offset value, trivial⟩
  | malloc req =>
      obtain ⟨⟨p', ledger'⟩, hserve, hprocess⟩ := exists_of_bind_eq_ok hrun
      cases hprocess
      obtain ⟨hsane', hserved⟩ := hsane.serve hserve
      refine ⟨hsane', ?_⟩
      intro hsize
      have hptr : p = s.ledger.machine.malloc.lastPtr := by
        rcases serve_cases hserve with ⟨hzero, -⟩ | ⟨-, hptr⟩
        · exact absurd hzero hsize
        · exact hptr
      have habove : linked.h.toNat ≤ p.toNat := by
        rw [hptr]
        exact hsane.above
      have hstack : 8192 ≤ linked.h.toNat := linked.stack
      have hne : p ≠ 0 := by
        intro hnull
        rw [hnull] at habove
        exact absurd (hstack.trans habove) (by decide)
      exact ⟨hne, habove, (hserved.block hne).apart⟩

/-- Before the constructor has run, a request that is served gets the null
pointer. -/
theorem soundOp_event_iff_notEarly {e : Event} (hfresh : Fresh linked s)
    (hrun : (Op.event e).exec.run s = .ok (p, s')) :
    (SoundOp linked.h s (.event e) p s' ↔ NotEarly s (.event e) p s') ∧
      (NotEarly s (.event e) p s' → Fresh linked s') := by
  cases e with
  | write block offset value =>
      cases hrun
      refine ⟨Iff.rfl, fun _ => ?_⟩
      have hsame : s.ledger.write block offset value = s.ledger := by
        rw [Ledger.write, hfresh.blocks_eq]
        rfl
      rw [hsame]
      exact hfresh
  | malloc req =>
      obtain ⟨⟨p', ledger'⟩, hserve, hprocess⟩ := exists_of_bind_eq_ok hrun
      cases hprocess
      rcases serve_cases hserve with ⟨hzero, rfl⟩ | ⟨hsize, rfl⟩
      · refine ⟨iff_of_true (fun h => absurd hzero h) (fun h => absurd hzero h), fun _ => ?_⟩
        exact hfresh
      · have hearly : ¬ NotEarly s (.event (.malloc req)) s.ledger.machine.malloc.lastPtr
            { s with ledger := ledger' } := by
          intro h
          exact Bool.false_ne_true (hfresh.not_constructed.symm.trans (h hsize))
        refine ⟨iff_of_false ?_ hearly, fun h => absurd h hearly⟩
        intro h
        rw [hfresh.malloc_eq] at h
        exact (h hsize).1 rfl

/-- From a fresh process, the constructor reads a heap base that no block reaches. -/
theorem soundOp_construct (hfresh : Fresh linked s) : SoundOp linked.h s .construct p s' := by
  refine ⟨?_, ?_⟩
  · rw [hfresh.mem_eq]
    rfl
  · rw [hfresh.blocks_eq]
    nofun

/-- It turns a fresh process into a sane one, if the heap base is in the memory. -/
theorem sane_construct (hbelow : linked.h.toNat < 65536 * linked.pages) (hfresh : Fresh linked s)
    (hrun : Op.construct.exec.run s = .ok (p, s')) : Sane linked.h s'.ledger := by
  cases hrun
  have hledger := linked.toStart.sane hbelow
  rw [Start.ledger] at hledger
  rw [← hfresh.mem_eq, ← hfresh.pages_eq, ← hfresh.blocks_eq] at hledger
  exact hledger

/-- After the constructor, every run is sound. -/
theorem along_sound (hsane : Sane linked.h s.ledger) (es : List Event) :
    Along Op.exec (SoundOp linked.h) (es.map .event) s := by
  rw [along_map]
  apply along_of_invariant fun s : Process => Sane linked.h s.ledger
  · intro s e p s' hsane hrun
    exact (exec_event_of_sane hsane hrun).1
  · intro s e p s' hsane hrun
    exact (exec_event_of_sane hsane hrun).2
  · exact hsane

/-- After the constructor, no request is early. -/
theorem along_notEarly (hconstructed : s.constructed = true) (es : List Event) :
    Along Op.exec NotEarly (es.map .event) s := by
  rw [along_map]
  apply along_of_invariant fun s : Process => s.constructed = true
  · intro s e p s' hconstructed hrun
    exact (exec_event_constructed hrun).trans hconstructed
  · intro s e p s' hconstructed _
    cases e with
    | write block offset value => trivial
    | malloc req => exact fun _ => hconstructed
  · exact hconstructed

/-- From a fresh process, a run through the constructor is sound exactly when no request is
served before it, if what follows the constructor is sound. -/
theorem along_construct_iff {early late : List Event} (hfresh : Fresh linked s)
    (hlate : ∀ {s s' : Process} {p}, Fresh linked s → Op.construct.exec.run s = .ok (p, s') →
      Along Op.exec (SoundOp linked.h) (late.map .event) s') :
    Along Op.exec (SoundOp linked.h) (early.map .event ++ .construct :: late.map .event) s ↔
      Along Op.exec NotEarly (early.map .event ++ .construct :: late.map .event) s := by
  induction early generalizing s with
  | nil =>
      have hrun : Op.construct.exec.run s = .ok (0, _) := rfl
      rw [List.map_nil, List.nil_append, along_cons_of_ok hrun, along_cons_of_ok hrun]
      exact iff_of_true ⟨soundOp_construct hfresh, hlate hfresh hrun⟩
        ⟨trivial, along_notEarly rfl late⟩
  | cons e early ih =>
      rw [List.map_cons, List.cons_append]
      cases hrun : (Op.event e).exec.run s with
      | error fault => exact iff_of_true (along_cons_of_error hrun) (along_cons_of_error hrun)
      | ok out =>
          obtain ⟨p, s'⟩ := out
          obtain ⟨hiff, hfresh'⟩ := soundOp_event_iff_notEarly hfresh hrun
          rw [along_cons_of_ok hrun, along_cons_of_ok hrun, hiff]
          exact and_congr_right fun hnot => ih (hfresh' hnot)

end Runs

namespace Program

variable (prog : Program)

theorem fresh_process : Fresh prog.linked prog.process := ⟨rfl, rfl, rfl, rfl, rfl⟩

/-- A contract runs soundly up to the constructor of the allocator exactly when no request is
served before it.  So it does from then on, if the heap base lies below the end of the memory. -/
theorem sound_iff :
    (Along Op.exec (SoundOp prog.linked.h) prog.opening prog.process ↔
      Along Op.exec NotEarly prog.opening prog.process) ∧
    (prog.linked.h.toNat < 65536 * prog.linked.pages →
      (Along Op.exec (SoundOp prog.linked.h) prog.ops prog.process ↔
        Along Op.exec NotEarly prog.ops prog.process)) := by
  rw [opening_eq, ops_eq]
  exact ⟨@along_construct_iff _ _ _ [] prog.fresh_process fun _ _ => trivial,
    fun hbelow => along_construct_iff prog.fresh_process fun hfresh hrun =>
      along_sound (sane_construct hbelow hfresh hrun) _⟩

/-- It is enough that the init functions up to the default priority ask for no
bytes. -/
theorem notEarly_of_quiet
    (hquiet : ∀ object ∈ prog.objects, ∀ F ∈ object, F.Priority ≤ 65535 →
      ∀ req, .malloc req ∈ F.run → req.size = 0) :
    Along Op.exec NotEarly prog.ops prog.process := by
  rw [ops_eq]
  have hevents : ∀ req, .malloc req ∈ prog.early.flatMap WasmInitEntry.events → req.size = 0 := by
    intro req hreq
    obtain ⟨E, hE, hmem⟩ := List.mem_flatMap.mp hreq
    obtain ⟨hentry, hpriority⟩ := prog.mem_entries_of_mem_early hE
    obtain ⟨object, hobject, F, hF, rfl⟩ := prog.exists_of_mem_entries hentry
    exact hquiet object hobject F hF hpriority req hmem
  generalize prog.early.flatMap WasmInitEntry.events = early at hevents
  generalize prog.process = s
  induction early generalizing s with
  | nil =>
      have hrun : Op.construct.exec.run s = .ok (0, _) := rfl
      rw [List.map_nil, List.nil_append, along_cons_of_ok hrun]
      exact ⟨trivial, along_notEarly rfl _⟩
  | cons e early ih =>
      rw [List.map_cons, List.cons_append]
      cases hrun : (Op.event e).exec.run s with
      | error fault => exact along_cons_of_error hrun
      | ok out =>
          obtain ⟨p, s'⟩ := out
          rw [along_cons_of_ok hrun]
          refine ⟨?_, ih (fun req hreq => hevents req (List.mem_cons_of_mem _ hreq)) s'⟩
          cases e with
          | write block offset value => trivial
          | malloc req => exact fun hsize => absurd (hevents req List.mem_cons_self) hsize

end Program

/-! ## One initialiser of priority 101 -/

/-- One page with the heap base at 8192, one initialiser of an early priority and
an action that asks for eight bytes. -/
def Sample.withInit (run : List Event) : Program where
  linked := {
    mem := Mem.store (fun _ => 0) 0 [0, 32, 0, 0]
    pages := 1
    pages_le := by decide
    aligned := by decide
    inside := by decide
    stack := by decide }
  objects := [[⟨run, 101⟩]]
  body := [.malloc ⟨8, true⟩]

/-- An initialiser that asks for no bytes leaves the action's block sound. -/
theorem sound_quiet :
    let prog := Sample.withInit [.malloc ⟨0, true⟩, .write 0 0 1]
    Along Op.exec (SoundOp prog.linked.h) prog.ops prog.process := by
  intro prog
  refine (prog.sound_iff.2 (by decide)).mpr (prog.notEarly_of_quiet ?_)
  intro object hobject F hF _ req hreq
  rw [List.mem_singleton.mp hobject, List.mem_singleton] at hF
  rw [hF] at hreq
  rcases List.mem_cons.mp hreq with hfirst | hrest
  · cases hfirst
    rfl
  · cases List.mem_singleton.mp hrest

/-- Against the zeroed allocator of a one-page contract, eight bytes are served. -/
theorem Sample.run_malloc_zeroed (mem : Mem) :
    (malloc ⟨8, true⟩).run ⟨mem, 1, .zeroed⟩ = .ok (0, ⟨mem, 2, ⟨0, 8, 1⟩⟩) := by
  have hne : (8 : BitVec 32) ≠ 0 := by decide
  have hadvance : Dsmalloc.zeroed.advance 8 8 = (⟨0, 8, 1⟩, 1) := by decide
  have hgrown : Machine.advanced ⟨mem, 1, .zeroed⟩ 8 = ⟨mem, 2, ⟨0, 8, 1⟩⟩ := by
    rw [Machine.advanced, hadvance]
    rfl
  rw [run_malloc hne, hgrown, if_pos ⟨rfl, by dsimp only; omega⟩]
  rfl

/-- An initialiser that asks for eight bytes gets the null pointer. -/
theorem not_sound_early :
    ¬ ∀ prog : Program, Along Op.exec (SoundOp prog.linked.h) prog.ops prog.process := by
  obtain ⟨linked, hpages⟩ : ∃ linked : Linked, linked.pages = 1 :=
    ⟨(Sample.withInit []).linked, rfl⟩
  rw [not_forall]
  refine ⟨⟨linked, [[⟨[.malloc ⟨8, true⟩], 101⟩]], []⟩, ?_⟩
  have hops : Program.ops ⟨linked, [[⟨[.malloc ⟨8, true⟩], 101⟩]], []⟩ =
      [.event (.malloc ⟨8, true⟩), .construct] := rfl
  have hprocess : Program.process ⟨linked, [[⟨[.malloc ⟨8, true⟩], 101⟩]], []⟩ =
      ⟨⟨⟨linked.mem, 1, .zeroed⟩, []⟩, false⟩ := by
    rw [← hpages]
    rfl
  have hrun := @exec_malloc_of_run ⟨⟨⟨linked.mem, 1, .zeroed⟩, []⟩, false⟩ _ _ _
    (Sample.run_malloc_zeroed linked.mem)
  have hne : (8 : BitVec 32) ≠ 0 := by decide
  rw [hops, hprocess, along_cons_of_ok hrun]
  exact fun hsound => (hsound.1 hne).1 rfl

end FractalCdt.Allocator
