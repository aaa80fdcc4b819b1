import RiceVM.Limbo.Closing

/-!
Where the code of each function of a module can lead, once the whole module is generated and its
calls are patched.
-/
namespace RiceVM.Limbo.Flow

open Backpatch Patchable

/-- The statements each function's code is generated from. -/
def bodies : List Shape → List FuncDecl → List (List Stmt)
  | _, [] => []
  | inits, f :: funcs => f.stmts inits :: bodies (f.leaves inits) funcs

/-- What is expected of a function's stretch of the code: control cannot leave it, and nothing in
it is left to be patched. -/
structure StaysInside (code : List Instr) (lo hi : Nat) : Prop where
  closed : Closed code lo hi
  calls : ∀ j, lo ≤ j → j < hi → code[j]? ≠ some (.call none)

/-! ### One function -/

section

variable {g g₁ g' : Gen} {f : Finish}

theorem endsInExit_ne_nil {code : List Instr} (h : endsInExit code = true) : code ≠ [] := by
  rintro rfl
  cases h

theorem pending_nil {j : Nat} (h : Pending [] j) : False := by
  obtain ⟨_, hmem, -⟩ := h
  cases hmem

theorem Grown.nil {lo : Nat} {frames : List LoopFrame} (h : Grown lo [] frames) : frames = [] := by
  cases h
  rfl

/-- A stretch whose last instruction leaves the function is closed unless a jump goes past it. -/
theorem closed_iff_of_ends (hw : Whole g g') (hopen : g'.loopStack = []) (h : Ends g g' f)
    (hexit : endsInExit g'.code = true) : Closed g'.code g.pc g'.pc ↔ f = .leaves := by
  have hregion : ∀ (j : Nat) (i : Instr), g.pc ≤ j → g'.code[j]? = some i →
      Settled g.pc g'.pc False i.jump := fun j i hj hi =>
    (hw.region.2 j i hj hi).mono (Nat.le_refl _) (Nat.le_refl _) fun hhole =>
      hhole.elim id fun hp => pending_nil (hopen ▸ hp)
  cases f with
  | silent =>
      have hpc : g'.pc = g.pc := congrArg List.length h
      refine ⟨fun hc => ?_, fun heq => by cases heq⟩
      have := (hc.reach _ .entry).2
      omega
  | goesOn =>
      have := h.2
      rw [hexit] at this
      cases this
  | leaves =>
      refine ⟨fun _ => rfl, fun _ => ?_⟩
      obtain ⟨last, hlast, hleaves⟩ : ∃ last, g'.code.getLast? = some last ∧ last.isExit := by
        rw [endsInExit] at hexit
        cases hlast : g'.code.getLast? with
        | none => simp [hlast] at hexit
        | some last => exact ⟨last, rfl, by simpa [hlast] using hexit⟩
      refine closed_of_last ?_ ?_ h.1 (?_ : _ = some last) ?_
      · intro j i hj _ hi hhole
        have := hregion j i hj hi
        change i.jump = .hole at hhole
        rw [hhole] at this
        exact this
      · intro j i pc hj _ hi htarget
        have hsettled := hregion j i hj hi
        change i.jump = .target pc at htarget
        rw [htarget] at hsettled
        refine ⟨hsettled.1, Nat.lt_of_le_of_ne hsettled.2 fun heq => h.2.2 j i hj hi ?_⟩
        rw [htarget, heq]
        rfl
      · rw [← hlast, List.getLast?_eq_getElem?]
        rfl
      · change last.falls = false
        cases last <;> first | rfl | cases hleaves
  | overruns =>
      refine ⟨fun hc => absurd ?_ h.2.2, fun heq => by cases heq⟩
      intro j i hj hi htarget
      have hlt := (List.getElem?_eq_some_iff.mp hi).1
      have := (hc.target j i _ hj hlt hi htarget).2
      exact Nat.lt_irrefl _ this

/-- What holds of the code before and after each function: it is empty, or its last instruction
leaves the function before. -/
def Fresh (g : Gen) : Prop := g.loopStack = [] ∧ (g.code = [] ∨ endsInExit g.code = true)

theorem genFunc_spec {name : String} {stmts : List Stmt} (h : genFunc name stmts g = .ok g')
    (hfresh : Fresh g) :
    Whole g g' ∧ g'.loopStack = [] ∧ endsInExit g'.code = true ∧
      (Closed g'.code g.pc g'.pc ↔
        finishAll stmts ≠ .overruns ∧ (finishAll stmts = .silent → g.code = [])) := by
  rw [genFunc] at h
  obtain ⟨g₁, hs, hok⟩ := bind_eq_ok.mp h
  cases hok
  have hw := genStmts_whole stmts hs
  have hends := genStmts_ends stmts hs
  have hopen : g₁.loopStack = [] := Grown.nil (hfresh.1 ▸ hw.frames)
  by_cases hexit : endsInExit g₁.code = true
  · simp only [if_pos hexit]
    refine ⟨⟨hw.1, hw.2, fun hg => (hw.3 hg).congr rfl rfl⟩, hopen, hexit, ?_⟩
    refine (closed_iff_of_ends hw hopen hends hexit).trans ?_
    cases hfinish : finishAll stmts with
    | leaves => simp
    | overruns => simp
    | silent =>
        rw [hfinish] at hends
        have hcode : g₁.code = g.code := hends
        simp [← hcode, endsInExit_ne_nil hexit]
    | goesOn =>
        rw [hfinish] at hends
        exact absurd hends.2 (by simp [hexit])
  · simp only [if_neg hexit]
    have hret := hw.emit (i := .ret) trivial rfl
    have hleaves := hends.andThen hw ((Emits.refl g₁ _).emit (i := .ret) trivial rfl)
      (Ends.exit rfl rfl)
    have hlast : endsInExit (g₁.emit .ret).code = true := endsInExit_append _ _
    refine ⟨⟨hret.1, hret.2, fun hg => (hret.3 hg).congr rfl rfl⟩, hopen, hlast, ?_⟩
    refine iff_of_true ((closed_iff_of_ends hret hopen hleaves hlast).mpr rfl) ⟨?_, ?_⟩
    · intro hfinish
      rw [hfinish] at hends
      exact hexit hends.2.1
    · intro hfinish
      rw [hfinish] at hends
      have hcode : g₁.code = g.code := hends
      exact hfresh.2.resolve_right (hcode ▸ hexit)

end

/-! ### The functions of a module -/

theorem genFuncs_spec {inits rest : List Shape} {funcs : List FuncDecl} {g g' : Gen}
    {spans : List (Nat × Nat)} (h : genFuncs inits funcs g = .ok (g', spans, rest))
    (hfresh : Fresh g) :
    Whole g g' ∧ spans.length = funcs.length ∧
      ∀ (k lo hi : Nat) (stmts : List Stmt), (bodies inits funcs)[k]? = some stmts →
        spans[k]? = some (lo, hi) → hi ≤ g'.pc ∧ (Closed g'.code lo hi ↔
          finishAll stmts ≠ .overruns ∧ (finishAll stmts = .silent → k = 0 ∧ g.code = [])) := by
  induction funcs generalizing inits g spans with
  | nil =>
      cases h
      exact ⟨Emits.refl _ _, rfl, by simp [bodies]⟩
  | cons f funcs ih =>
      rw [genFuncs] at h
      obtain ⟨g₁, hf, hrest⟩ := bind_eq_ok.mp h
      obtain ⟨⟨g₂, spans', rest'⟩, hfs, hok⟩ := bind_eq_ok.mp hrest
      cases hok
      obtain ⟨hw, hopen, hexit, hclosed⟩ := genFunc_spec hf hfresh
      obtain ⟨hws, hlength, hspans⟩ := ih hfs ⟨hopen, .inr hexit⟩
      refine ⟨hw.andThen hws, by simp [hlength], fun k lo hi stmts hk hspan => ?_⟩
      cases k with
      | zero =>
          cases hk
          cases hspan
          refine ⟨hws.le, ?_⟩
          have htake : g'.code.take g₁.pc = g₁.code :=
            (List.prefix_iff_eq_take.mp hws.region.1).symm
          have hflow : (g'.code.take g₁.pc).map flow = (g₁.code.take g₁.pc).map flow := by
            rw [htake, Gen.pc, List.take_length]
          simpa using (Closed.congr_iff hflow).trans hclosed
      | succ k =>
          obtain ⟨hle, hiff⟩ := hspans k lo hi stmts hk hspan
          refine ⟨hle, hiff.trans ?_⟩
          simp [endsInExit_ne_nil hexit]

/-- Patching the calls changes nothing but the callee of each that is recorded. -/
theorem patchCalls_spec {fixups : List (Nat × String)} {g g' : Gen}
    (h : patchCalls fixups g = .ok g')
    (hcalls : ∀ idx name, (idx, name) ∈ fixups → ∃ callee, g.code[idx]? = some (.call callee)) :
    g'.code.map flow = g.code.map flow ∧
      ∀ idx : Nat, g'.code[idx]? = some (.call none) →
        g.code[idx]? = some (.call none) ∧ ∀ name, (idx, name) ∉ fixups := by
  induction fixups generalizing g with
  | nil =>
      cases h
      exact ⟨rfl, fun idx hidx => ⟨hidx, by simp⟩⟩
  | cons fixup fixups ih =>
      obtain ⟨at_, callee⟩ := fixup
      rw [patchCalls] at h
      split at h
      · cases h
      · next pc _ =>
          obtain ⟨c, hc⟩ := hcalls at_ callee List.mem_cons_self
          have hstill : ∀ idx name, (idx, name) ∈ fixups →
              ∃ callee, (g.patch at_ pc).code[idx]? = some (.call callee) := by
            intro idx name hmem
            obtain ⟨c', hc'⟩ := hcalls idx name (List.mem_cons_of_mem _ hmem)
            rw [Gen.patch, getElem?_patch, hc']
            split
            · exact ⟨some pc, rfl⟩
            · exact ⟨c', rfl⟩
          obtain ⟨hflow, hpatched⟩ := ih h hstill
          refine ⟨hflow.trans ?_, fun idx hidx => ?_⟩
          · refine List.ext_getElem? fun j => ?_
            rw [List.getElem?_map, List.getElem?_map, Gen.patch, getElem?_patch]
            split
            · next heq =>
                rw [heq, hc]
                rfl
            · rfl
          · obtain ⟨hnone, hnot⟩ := hpatched idx hidx
            rw [Gen.patch, getElem?_patch] at hnone
            split at hnone
            · next heq =>
                rw [heq, hc] at hnone
                cases hnone
            · next hne =>
                refine ⟨hnone, fun name hmem => ?_⟩
                rcases List.mem_cons.mp hmem with heq | hmem
                · exact hne (congrArg Prod.fst heq)
                · exact hnot name hmem

/-- The code of each function stays inside unless its last statement is an `if` whose last branch
leaves the function, or the function has no code of its own and is not the first. -/
theorem control_stays_inside_iff {inits : List Shape} {funcs : List FuncDecl} {code : List Instr}
    {spans : List (Nat × Nat)} (h : compile inits funcs = .ok (code, spans)) :
    spans.length = funcs.length ∧
      ∀ (k lo hi : Nat) (stmts : List Stmt), (bodies inits funcs)[k]? = some stmts →
        spans[k]? = some (lo, hi) → (StaysInside code lo hi ↔
          finishAll stmts ≠ .overruns ∧ (finishAll stmts = .silent → k = 0)) := by
  obtain ⟨⟨g, spans', left⟩, hfuncs, hrest⟩ := bind_eq_ok.mp h
  simp only at hrest
  split at hrest
  · obtain ⟨g', hcalls, hok⟩ := bind_eq_ok.mp hrest
    cases hok
    obtain ⟨hw, hlength, hspans⟩ := genFuncs_spec hfuncs ⟨rfl, .inl rfl⟩
    have hrecorded : CallsRecorded g := hw.calls ⟨by simp, by simp⟩
    obtain ⟨hflow, hpatched⟩ := patchCalls_spec hcalls hrecorded.isCall
    refine ⟨hlength, fun k lo hi stmts hk hspan => ?_⟩
    obtain ⟨-, hiff⟩ := hspans k lo hi stmts hk hspan
    have hclosed : Closed g'.code lo hi ↔ Closed g.code lo hi := Closed.congr_iff (by
      rw [List.map_take, List.map_take, hflow])
    rw [and_iff_left rfl] at hiff
    refine (Iff.intro (fun hin => hin.closed) fun hc => ⟨hc, fun j _ _ hj => ?_⟩).trans
      (hclosed.trans hiff)
    obtain ⟨hnone, hnot⟩ := hpatched j hj
    obtain ⟨name, hmem⟩ := hrecorded.recorded j hnone
    exact hnot name hmem
  · cases hrest

/-- `init() { while(c) if(d) break; }` -/
theorem breaking_loop_stays_inside :
    ∃ code, compile [] [⟨none, "init", [.while .step (.ifThen .step (.break none))]⟩] =
      .ok (code, [(0, 7)]) ∧ StaysInside code 0 7 :=
  have hcode : compile [] [⟨none, "init", [.while .step (.ifThen .step (.break none))]⟩] =
      .ok ([.step, .branch (some 6), .step, .branch (some 5), .jmp (some 6), .jmp (some 0), .ret],
        [(0, 7)]) := rfl
  ⟨_, hcode, ((control_stays_inside_iff hcode).2 0 0 7 _ rfl rfl).mpr (by decide)⟩

/-- `f(c: int) { if(c) return; }  init() { f(0); }`: when `c` is zero, `f` goes on as `init`. -/
theorem last_branch_leaves_function :
    ∃ code, compile [] [⟨none, "f", [.ifThen .step (.ret .nil)]⟩,
        ⟨none, "init", [.expr (.seq .step (.seq .step (.call "f")))]⟩] =
      .ok (code, [(0, 3), (3, 7)]) ∧ Reach code 0 3 ∧ ¬ StaysInside code 0 3 := by
  have hreach : Reach
      [Instr.step, .branch (some 3), .ret, .step, .step, .call (some 0), .ret] 0 3 :=
    .jump (.next .entry rfl rfl) rfl rfl
  exact ⟨_, rfl, hreach, fun hin => absurd (hin.closed.reach 3 hreach).2 (Nat.lt_irrefl 3)⟩

end RiceVM.Limbo.Flow
