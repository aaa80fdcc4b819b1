import RiceVM.Limbo.Confinement

/-!
The entry point of a module: which function the header and the exports name, what describes its
frame, and where the initialisers of module-level variables go that are not constants.
-/
namespace RiceVM.Limbo.Flow

/-- A module-level variable declaration. Its initialiser, when it has one that is no constant, is
an assignment to each of the names. -/
structure GlobalDecl where
  names : List String
  init : Option (String → Shape)

/-- The initialisers to generate, each with the place of its declaration. -/
def pendingGlobalInits : List GlobalDecl → Nat → List (Nat × Shape)
  | [], _ => []
  | decl :: decls, n =>
    (match decl.init with
      | some code => (decl.names.filter (· ≠ "nil")).map fun name => (n, code name)
      | none => []) ++ pendingGlobalInits decls (n + 1)

/-- The declarations whose initialiser is to run. -/
def initialised : List GlobalDecl → Nat → List Nat
  | [], _ => []
  | decl :: decls, n => (if decl.init.isSome then [n] else []) ++ initialised decls (n + 1)

/-- A function, with the size its frame grows to when its code is generated after the given
initialisers. -/
structure Func extends FuncDecl where
  frameSize : List Shape → Nat

structure ExportEntry where
  pc : Int
  frameType : Int
  name : String
  deriving DecidableEq

/-- The compiler's state between two functions. -/
structure Compiler where
  gen : Gen
  pending : List Shape
  funcFrames : List Nat := []
  exports : List ExportEntry := []

/-- Function frames are described from the type with this index on. -/
def firstFuncType : Nat := 2

def genFuncEntry (f : Func) (c : Compiler) : Except String Compiler := do
  let gen ← genFunc f.fullName (f.stmts c.pending) c.gen
  let taken := if f.name = "init" then c.pending else []
  let entry : ExportEntry := ⟨c.gen.pc, firstFuncType + c.funcFrames.length, "init"⟩
  .ok {
    gen
    pending := f.leaves c.pending
    funcFrames := c.funcFrames ++ [f.frameSize taken]
    exports := if f.name = "init" then c.exports ++ [entry] else c.exports }

def genFuncEntries : List Func → Compiler → Except String Compiler
  | [], c => .ok c
  | f :: funcs, c => do genFuncEntries funcs (← genFuncEntry f c)

structure Module where
  code : List Instr
  exports : List ExportEntry
  /-- The sizes of the type descriptors, up to the last of a function's frame. -/
  types : List Nat
  entryPc : Int
  entryType : Int

/-- The size of the two reserved descriptors. -/
def opaqueRecordSize : Nat := 48

def compileModule (decls : List GlobalDecl) (funcs : List Func) : Except String Module := do
  let c ← genFuncEntries funcs {
    gen := { funcTable := funcs.map fun f => (f.fullName, none) }
    pending := (pendingGlobalInits decls 0).map (·.2) }
  if c.pending.isEmpty then do
    let gen ← patchCalls c.gen.pendingCallFixups c.gen
    let (entryPc, entryType) := match c.exports.head? with
      | some e => (e.pc, e.frameType)
      | none => (-1, -1)
    .ok {
      code := gen.code
      exports := c.exports
      types := List.replicate firstFuncType opaqueRecordSize ++ c.funcFrames
      entryPc
      entryType }
  else .error "module has no `init` function"

/-! ### What the entry point should be -/

/-- The module's own `init`. -/
def FuncDecl.IsEntry (f : FuncDecl) : Prop := f.qualifier = none ∧ f.name = "init"

instance (f : FuncDecl) : Decidable f.IsEntry := inferInstanceAs (Decidable (_ ∧ _))

/-- The initialisers that belong at the start of a function. -/
def FuncDecl.ownInits (inits : List Shape) (f : FuncDecl) : List Shape :=
  if f.IsEntry then inits else []

/-- Functions generated in order, each from given statements, with the stretch of code of each. -/
def genBodies : List (String × List Stmt) → Gen → Except String (Gen × List (Nat × Nat))
  | [], g => .ok (g, [])
  | (name, stmts) :: bodies, g => do
    let g' ← genFunc name stmts g
    let (g'', spans) ← genBodies bodies g'
    .ok (g'', (g.pc, g'.pc) :: spans)

/-- The header, the export and the frame's descriptor are those of the module's own `init`, and
the instruction at the entry is its own; or they are of no function where there is none. The code
is that of the functions with the initialisers at the start of that `init` and of no other
function, one of each declaration and in their order. -/
structure EntersInit (decls : List GlobalDecl) (funcs : List Func) (m : Module) : Prop where
  code : ∃ g g' spans,
    genBodies (funcs.map fun f => (f.fullName,
      (f.ownInits ((pendingGlobalInits decls 0).map (·.2))).map .expr ++ f.body))
      { funcTable := funcs.map fun f => (f.fullName, none) } = .ok (g, spans) ∧
    patchCalls g.pendingCallFixups g = .ok g' ∧ m.code = g'.code ∧
    ∀ (i pc hi : Nat) (f : Func), funcs[i]? = some f → spans[i]? = some (pc, hi) → f.IsEntry →
      pc < hi ∧ m.entryPc = pc ∧ m.entryType = (firstFuncType + i : Nat) ∧
      m.exports = [⟨pc, (firstFuncType + i : Nat), "init"⟩] ∧
      m.types[firstFuncType + i]? = some (f.frameSize ((pendingGlobalInits decls 0).map (·.2)))
  absent : (∀ f ∈ funcs, ¬ f.IsEntry) → m.entryPc = -1 ∧ m.entryType = -1 ∧ m.exports = []
  once : (∃ f ∈ funcs, f.IsEntry) → (pendingGlobalInits decls 0).map (·.1) = initialised decls 0

/-! ### What the compiler does -/

/-- The initialisers each function takes. -/
def takenBy : List Shape → List Func → List (List Shape)
  | _, [] => []
  | pending, f :: funcs =>
    (if f.name = "init" then pending else []) :: takenBy (f.leaves pending) funcs

/-- The exports of functions whose frames are described from the type `n` on. -/
def exportsFrom : Nat → List Func → List Nat → List ExportEntry
  | n, f :: funcs, pc :: entries =>
    (if f.name = "init" then [⟨pc, n, "init"⟩] else []) ++ exportsFrom (n + 1) funcs entries
  | _, _, _ => []

def bodyOf (f : Func) (inits : List Shape) : String × List Stmt :=
  (f.fullName, inits.map .expr ++ f.body)

section

variable {funcs : List Func} {c c' : Compiler}

/-- One function after another: what is generated, exported and described. -/
theorem genFuncEntries_spec (h : genFuncEntries funcs c = .ok c') :
    ∃ spans, spans.length = funcs.length ∧
      genBodies (List.zipWith bodyOf funcs (takenBy c.pending funcs)) c.gen =
        .ok (c'.gen, spans) ∧
      c'.exports = c.exports ++
        exportsFrom (firstFuncType + c.funcFrames.length) funcs (spans.map (·.1)) ∧
      c'.funcFrames =
        c.funcFrames ++ List.zipWith Func.frameSize funcs (takenBy c.pending funcs) := by
  induction funcs generalizing c with
  | nil =>
      cases h
      exact ⟨[], rfl, rfl, (List.append_nil _).symm, (List.append_nil _).symm⟩
  | cons f funcs ih =>
      obtain ⟨c₁, hf, hrest⟩ := bind_eq_ok.mp h
      obtain ⟨g, hgen, hok⟩ := bind_eq_ok.mp hf
      cases hok
      obtain ⟨spans, hlength, hbodies, hexports, hframes⟩ := ih hrest
      have hstmts : bodyOf f (if f.name = "init" then c.pending else []) =
          (f.fullName, f.stmts c.pending) := by
        unfold bodyOf FuncDecl.stmts
        split <;> rfl
      refine ⟨(c.gen.pc, g.pc) :: spans, congrArg (· + 1) hlength, ?_, ?_, ?_⟩
      · rw [takenBy, List.zipWith_cons_cons, hstmts]
        simp only [genBodies]
        exact bind_eq_ok.mpr ⟨g, hgen, bind_eq_ok.mpr ⟨_, hbodies, rfl⟩⟩
      · rw [hexports, List.map_cons, exportsFrom, List.length_append, List.length_singleton, ← Nat.add_assoc]
        split <;> simp
      · rw [hframes, takenBy, List.zipWith_cons_cons, List.append_assoc, List.singleton_append]

theorem length_exportsFrom {n : Nat} {entries : List Nat} (h : entries.length = funcs.length) :
    (exportsFrom n funcs entries).length = funcs.countP (·.name = "init") := by
  induction funcs generalizing n entries with
  | nil => rfl
  | cons f funcs ih =>
      obtain ⟨pc, entries, rfl⟩ := List.exists_cons_of_length_eq_add_one h
      have hrest := ih (n := n + 1) (Nat.succ.inj h)
      rw [exportsFrom, List.length_append, hrest, List.countP_cons]
      split <;> simp_all [Nat.add_comm]

theorem no_init_of_countP (h : funcs.countP (·.name = "init") = 0) (f : Func) (hf : f ∈ funcs) :
    f.name ≠ "init" := by
  have := List.countP_eq_zero.mp h f hf
  simpa using this

/-- Where one function is named `init`, it alone is exported. -/
theorem exportsFrom_of_init {n i : Nat} {entries : List Nat} {f : Func} {pc : Nat}
    (hlength : entries.length = funcs.length) (hcount : funcs.countP (·.name = "init") ≤ 1)
    (hf : funcs[i]? = some f) (hpc : entries[i]? = some pc) (hname : f.name = "init") :
    exportsFrom n funcs entries = [⟨pc, (n + i : Nat), "init"⟩] := by
  induction funcs generalizing n i entries with
  | nil => cases hf
  | cons g funcs ih =>
      obtain ⟨pc', entries, rfl⟩ := List.exists_cons_of_length_eq_add_one hlength
      have hlen : entries.length = funcs.length := Nat.succ.inj hlength
      rw [List.countP_cons] at hcount
      cases i with
      | zero =>
          cases hf
          cases hpc
          have hzero : funcs.countP (·.name = "init") = 0 := by
            simpa [hname] using hcount
          have hnil : exportsFrom (n + 1) funcs entries = [] :=
            List.length_eq_zero_iff.mp ((length_exportsFrom hlen).trans hzero)
          rw [exportsFrom, if_pos hname, hnil]
          rfl
      | succ i =>
          rw [List.getElem?_cons_succ] at hf hpc
          have hmem : f ∈ funcs := List.mem_of_getElem? hf
          have hpos : 0 < funcs.countP (·.name = "init") :=
            List.countP_pos_iff.mpr ⟨f, hmem, decide_eq_true hname⟩
          have hg : g.name ≠ "init" := fun hg => by
            simp [hg] at hcount
            exact absurd hname (by simpa using hcount f hmem)
          have hrest := ih (n := n + 1) hlen (by omega) hf hpc
          rw [exportsFrom, if_neg hg, hrest, List.nil_append]
          congr 2
          omega

/-- Where every function named `init` is the module's own, it takes the initialisers and no other
does. -/
theorem takenBy_eq (pending : List Shape)
    (hown : ∀ f ∈ funcs, f.name = "init" → f.qualifier = none)
    (hcount : funcs.countP (·.name = "init") ≤ 1) :
    takenBy pending funcs = funcs.map (·.ownInits pending) := by
  induction funcs generalizing pending with
  | nil => rfl
  | cons f funcs ih =>
      rw [List.countP_cons] at hcount
      have hrest := ih (f.leaves pending) (fun f hf => hown f (List.mem_cons_of_mem _ hf))
        (by omega)
      rw [takenBy, hrest, List.map_cons]
      by_cases hname : f.name = "init"
      · have hentry : f.IsEntry := ⟨hown f List.mem_cons_self hname, hname⟩
        have hzero : funcs.countP (·.name = "init") = 0 := by
          simpa [hname] using hcount
        rw [if_pos hname, FuncDecl.ownInits, if_pos hentry]
        refine congrArg _ (List.map_congr_left fun g hg => ?_)
        have hg : ¬ g.IsEntry := fun h => no_init_of_countP hzero g hg h.2
        rw [FuncDecl.ownInits, FuncDecl.ownInits, if_neg hg, if_neg hg]
      · have hentry : ¬ f.IsEntry := fun h => hname h.2
        rw [if_neg hname, FuncDecl.ownInits, if_neg hentry, FuncDecl.leaves, if_neg hname]

theorem zipWith_bodyOf (inits : List Shape) :
    List.zipWith bodyOf funcs (funcs.map (·.ownInits inits)) =
      funcs.map fun f => (f.fullName, (f.ownInits inits).map .expr ++ f.body) := by
  induction funcs with
  | nil => rfl
  | cons f funcs ih => rw [List.map_cons, List.zipWith_cons_cons, ih, List.map_cons, bodyOf]

theorem length_genBodies {bodies : List (String × List Stmt)} {g g' : Gen}
    {spans : List (Nat × Nat)} (h : genBodies bodies g = .ok (g', spans)) :
    spans.length = bodies.length := by
  induction bodies generalizing g spans with
  | nil =>
      cases h
      rfl
  | cons body bodies ih =>
      obtain ⟨g₁, -, hrest⟩ := bind_eq_ok.mp h
      obtain ⟨⟨g₂, spans⟩, hbodies, hok⟩ := bind_eq_ok.mp hrest
      cases hok
      exact congrArg (· + 1) (ih hbodies)

/-- A function has code of its own unless its statements have none and the code before it ends
as a function does. -/
theorem genFunc_grows {name : String} {stmts : List Stmt} {g g' : Gen}
    (h : genFunc name stmts g = .ok g') (hfresh : Fresh g) :
    g.pc < g'.pc ↔ (finishAll stmts = .silent → g.code = []) := by
  rw [genFunc] at h
  obtain ⟨g₁, hs, hok⟩ := bind_eq_ok.mp h
  cases hok
  have hends := genStmts_ends stmts hs
  cases hfinish : finishAll stmts with
  | silent =>
      rw [hfinish] at hends
      have hcode : g₁.code = g.code := hends
      rcases hfresh.2 with hnil | hexit
      · simp [Gen.pc, Gen.emit, hcode, hnil, endsInExit]
      · simp [Gen.pc, hcode, hexit, endsInExit_ne_nil hexit]
  | goesOn | leaves | overruns =>
      rw [hfinish] at hends
      have hlt : g.pc < g₁.pc := hends.1
      refine iff_of_true (Nat.lt_of_lt_of_le hlt ?_) (fun heq => by cases heq)
      split
      · exact Nat.le_refl _
      · simp [Gen.pc, Gen.emit]

theorem genBodies_grow {bodies : List (String × List Stmt)} {g g' : Gen}
    {spans : List (Nat × Nat)} (h : genBodies bodies g = .ok (g', spans)) (hfresh : Fresh g) :
    ∀ (i lo hi : Nat) (name : String) (stmts : List Stmt), bodies[i]? = some (name, stmts) →
      spans[i]? = some (lo, hi) →
      (lo < hi ↔ (finishAll stmts = .silent → i = 0 ∧ g.code = [])) := by
  induction bodies generalizing g spans with
  | nil => simp
  | cons body bodies ih =>
      obtain ⟨g₁, hf, hrest⟩ := bind_eq_ok.mp h
      obtain ⟨⟨g₂, spans⟩, hbodies, hok⟩ := bind_eq_ok.mp hrest
      cases hok
      obtain ⟨-, hopen, hexit, -⟩ := genFunc_spec hf hfresh
      intro i lo hi name stmts hi' hspan
      cases i with
      | zero =>
          cases hi'
          cases hspan
          simpa using genFunc_grows hf hfresh
      | succ i =>
          refine (ih hbodies ⟨hopen, .inr hexit⟩ i lo hi name stmts hi' hspan).trans ?_
          simp [endsInExit_ne_nil hexit]

/-- Two functions named `init` are one where there is at most one. -/
theorem eq_of_countP_le_one (hcount : funcs.countP (·.name = "init") ≤ 1) {f g : Func}
    (hf : f ∈ funcs) (hg : g ∈ funcs) (hfname : f.name = "init") (hgname : g.name = "init") :
    f = g := by
  rw [List.countP_eq_length_filter] at hcount
  have hf : f ∈ funcs.filter (·.name = "init") := by simp [hf, hfname]
  have hg : g ∈ funcs.filter (·.name = "init") := by simp [hg, hgname]
  match hfilter : funcs.filter (·.name = "init") with
  | [] =>
      rw [hfilter] at hf
      cases hf
  | [only] =>
      rw [hfilter] at hf hg
      exact (List.mem_singleton.mp hf).trans (List.mem_singleton.mp hg).symm
  | _ :: _ :: _ =>
      rw [hfilter] at hcount
      exact absurd hcount (by simp)

end

/-! ### One initialiser a declaration -/

theorem le_of_mem_pending {decls : List GlobalDecl} {n : Nat} {p : Nat × Shape}
    (h : p ∈ pendingGlobalInits decls n) : n ≤ p.1 := by
  induction decls generalizing n with
  | nil => cases h
  | cons decl decls ih =>
      rcases List.mem_append.mp h with hhead | htail
      · cases hinit : decl.init with
        | none =>
            rw [hinit] at hhead
            cases hhead
        | some code =>
            rw [hinit] at hhead
            obtain ⟨_, -, rfl⟩ := List.mem_map.mp hhead
            exact Nat.le_refl _
      · exact Nat.le_of_succ_le (ih htail)

theorem le_of_mem_initialised {decls : List GlobalDecl} {n k : Nat}
    (h : k ∈ initialised decls n) : n ≤ k := by
  induction decls generalizing n with
  | nil => cases h
  | cons decl decls ih =>
      rcases List.mem_append.mp h with hhead | htail
      · split at hhead
        · exact Nat.le_of_eq (List.mem_singleton.mp hhead).symm
        · cases hhead
      · exact Nat.le_of_succ_le (ih htail)

/-- The names a declaration's initialiser is run for. -/
def GlobalDecl.runs (decl : GlobalDecl) : Nat := (decl.names.filter (· ≠ "nil")).length

theorem map_fst_pending (decl : GlobalDecl) (decls : List GlobalDecl) (n : Nat) :
    (pendingGlobalInits (decl :: decls) n).map (·.1) =
      (if decl.init.isSome then List.replicate decl.runs n else []) ++
        (pendingGlobalInits decls (n + 1)).map (·.1) := by
  rw [pendingGlobalInits, List.map_append]
  cases decl.init with
  | none => rfl
  | some code =>
      rw [List.map_map]
      exact congrArg (· ++ _) List.map_const'

/-- Each initialiser is run once, in order, when every declaration that has one gives it to one
name. -/
theorem once_iff (decls : List GlobalDecl) (n : Nat) :
    (pendingGlobalInits decls n).map (·.1) = initialised decls n ↔
      ∀ d ∈ decls, d.init.isSome → d.runs = 1 := by
  induction decls generalizing n with
  | nil => simp [pendingGlobalInits, initialised]
  | cons decl decls ih =>
      rw [map_fst_pending, initialised, List.forall_mem_cons, ← ih (n + 1)]
      by_cases hinit : decl.init.isSome
      · rw [if_pos hinit, if_pos hinit]
        refine ⟨fun h => ?_, fun ⟨hone, hrest⟩ => ?_⟩
        · have hcount := congrArg (List.count n) h
          have hpending : ((pendingGlobalInits decls (n + 1)).map (·.1)).count n = 0 :=
            List.count_eq_zero.mpr fun hmem => by
              obtain ⟨p, hp, rfl⟩ := List.mem_map.mp hmem
              exact absurd (le_of_mem_pending hp) (by omega)
          have hinits : (initialised decls (n + 1)).count n = 0 :=
            List.count_eq_zero.mpr fun hmem =>
              absurd (le_of_mem_initialised hmem) (by omega)
          rw [List.count_append, List.count_append, hpending, hinits, List.count_replicate_self,
            List.count_singleton_self] at hcount
          have hone : decl.runs = 1 := hcount
          rw [hone] at h
          exact ⟨fun _ => hone, List.append_cancel_left h⟩
        · rw [hone hinit, hrest]
          rfl
      · simp [hinit]

/-! ### When it enters `init` -/

end RiceVM.Limbo.Flow
