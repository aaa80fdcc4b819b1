import RiceVM.Format

/-!
A call of `print` stores its arguments where the formatter reads them, as long as the compiler
sizes each argument by its type and the list fits the built-in's frame.
-/
namespace RiceVM
open Limbo

/-- What a directive takes from the argument list. -/
inductive ArgType where
  | word | big | real | str | ref
  deriving DecidableEq, Repr

namespace ArgType

def ofTy : Ty → Option ArgType
  | .basic .int | .basic .byte => some .word
  | .basic .big => some .big
  | .basic .real => some .real
  | .basic .string => some .str
  | .ref _ => some .ref
  | _ => none

def size : ArgType → Nat
  | .big | .real => 8
  | .word | .str | .ref => 4

theorem size_ofTy {ty : Ty} {t : ArgType} (h : ofTy ty = some t) :
    t.size = (typeNumKind ty).byteSize := by
  unfold ofTy at h
  split at h <;> cases h <;> rfl

end ArgType

/-- The argument a verb takes; none at all goes with an unknown conversion. -/
def Verb.takes : Verb → Option (List ArgType)
  | .percent | .lastError | .other _ | .missing => some []
  | .str => some [.str]
  | .dec | .char | .hex _ | .oct => some [.word]
  | .real _ => some [.real]
  | .big _ conv => if conv ∈ [some 'd', some 'x', some 'X', some 'o'] then some [.big] else none
  | .unsigned conv => if conv ∈ [some 'd', some 'x'] then some [.word] else none

/-- The arguments a format takes, in order. -/
def formatTakes : List Piece → Option (List ArgType)
  | [] => some []
  | .literal _ :: rest => formatTakes rest
  | .directive _ _ precision verb :: rest =>
    let star := if precision = .argument then [ArgType.word] else []
    verb.takes.bind fun value => (formatTakes rest).map fun more => star ++ value ++ more

/-- The arguments a call takes: the descriptor, the format, and the format's own. -/
def Printer.takes (p : Printer) (fmt : String) : Option (List ArgType) :=
  (formatTakes (pieces fmt)).map fun more =>
    (if p = .fprint then [.ref] else []) ++ .str :: more

/-- An argument of a call: its expression, its type, and the compiler's tables where it is
evaluated. -/
structure Arg where
  scope : Scope
  expr : Expr
  ty : Ty

def Arg.slot (a : Arg) : ArgSlot := genArgValue a.scope a.expr

/-- Where a call in a frame at `frameBase` stores each argument that moves as one value. -/
def storedFrom (frameBase off : Nat) : List Arg → List (Option Span)
  | [] => []
  | a :: args =>
    let start := alignArg off a.slot.align
    (if a.slot.tuple.isNone then some ⟨frameBase + start, a.slot.size⟩ else none) ::
      storedFrom frameBase (start + a.slot.size) args

/-- Each argument is read where it was stored and as wide, and lies inside the frame. -/
def InStep (p : Printer) (frameBase : Nat) (fmt : String) (args : List Arg) : Prop :=
  storedFrom frameBase argStart args = (p.reads frameBase fmt).map some ∧
    ∀ sp ∈ (storeArgs argStart (args.map Arg.slot)).1, sp.stop ≤ p.frameSize

/-- The compiler takes an argument to be as wide as its type says. -/
def Arg.SizedByType (a : Arg) : Prop :=
  tupleFieldsOf a.scope a.expr = none ∧
    (inferNumKind a.scope a.expr).byteSize = (typeNumKind a.ty).byteSize

/-- The width and alignment of arguments of the given types. -/
def typeShapes (tys : List Ty) : List (Nat × Nat) :=
  tys.map fun ty => ((typeNumKind ty).byteSize, (typeNumKind ty).byteSize)

def Span.shift (base : Nat) (s : Span) : Span := ⟨base + s.off, s.size⟩

theorem alignArg_four {off : Nat} (h : 4 ∣ off) : alignArg off 4 = off := by
  change (off + 4 - 1) / 4 * 4 = off
  omega

theorem alignVararg_eq (frameBase off : Nat) :
    alignVararg frameBase (frameBase + off) = frameBase + alignArg off 8 := by
  change frameBase + off + (8 - (frameBase + off - frameBase) % 8) % 8 =
    frameBase + (off + 8 - 1) / 8 * 8
  omega

theorem four_dvd_alignArg (off : Nat) : 4 ∣ alignArg off 8 := by
  change 4 ∣ (off + 8 - 1) / 8 * 8
  omega

/-- The frame offsets of arguments that a format takes. -/
def takenShapes (tys : List ArgType) : List (Nat × Nat) := tys.map fun t => (t.size, t.size)

theorem Verb.read_eq (frameBase : Nat) {off : Nat} (h4 : 4 ∣ off) {v : Verb}
    {tys : List ArgType} (h : v.takes = some tys) :
    let read := v.read frameBase (frameBase + off)
    let placed := placeSpans off (takenShapes tys)
    read.1.toList = placed.1.map (Span.shift frameBase) ∧ read.2 = frameBase + placed.2 ∧
      4 ∣ placed.2 := by
  cases v with
  | percent | lastError | other | missing =>
      cases h
      exact ⟨rfl, rfl, h4⟩
  | str | dec | char | hex | oct =>
      cases h
      simp only [read, takenShapes, List.map_cons, List.map_nil, placeSpans, ArgType.size,
        alignArg_four h4, Span.shift, Option.toList_some]
      exact ⟨trivial, by omega, by omega⟩
  | real =>
      cases h
      have := four_dvd_alignArg off
      simp only [read, takenShapes, List.map_cons, List.map_nil, placeSpans, ArgType.size,
        alignVararg_eq, Span.shift, Option.toList_some]
      exact ⟨trivial, by omega, by omega⟩
  | big unsigned conv =>
      simp only [takes, Option.ite_none_right_eq_some, Option.some.injEq] at h
      obtain ⟨hconv, rfl⟩ := h
      have := four_dvd_alignArg off
      simp only [read, if_pos hconv, takenShapes, List.map_cons, List.map_nil, placeSpans,
        ArgType.size, alignVararg_eq, Span.shift, Option.toList_some]
      exact ⟨trivial, by omega, by omega⟩
  | unsigned conv =>
      simp only [takes, Option.ite_none_right_eq_some, Option.some.injEq] at h
      obtain ⟨hconv, rfl⟩ := h
      simp only [read, if_pos hconv, takenShapes, List.map_cons, List.map_nil, placeSpans,
        ArgType.size, alignArg_four h4, Span.shift, Option.toList_some]
      exact ⟨trivial, by omega, by omega⟩

/-- The formatter reads its arguments where arguments of the types it takes are placed. -/
theorem formatReads_eq (frameBase : Nat) (ps : List Piece) {off : Nat} (h4 : 4 ∣ off)
    {tys : List ArgType} (h : formatTakes ps = some tys) :
    formatReads frameBase (frameBase + off) ps =
      (placeSpans off (takenShapes tys)).1.map (Span.shift frameBase) := by
  induction ps generalizing off tys with
  | nil =>
      cases h
      rfl
  | cons p ps ih =>
      cases p with
      | literal c => exact ih h4 h
      | directive flags width precision verb =>
          simp only [formatTakes, Option.bind_eq_some_iff, Option.map_eq_some_iff] at h
          obtain ⟨value, hvalue, more, hmore, rfl⟩ := h
          by_cases hstar : precision = .argument
          · subst hstar
            obtain ⟨hread, hnext, hdvd⟩ := @Verb.read_eq frameBase (off + 4) (by omega) _ _ hvalue
            rw [← Nat.add_assoc] at hread hnext
            have hshapes : takenShapes ([.word] ++ value ++ more) =
                (4, 4) :: (takenShapes value ++ takenShapes more) := by
              simp [takenShapes, ArgType.size]
            rw [if_pos rfl, hshapes, placeSpans, alignArg_four h4, (placeSpans_append _ _ _).1,
              List.map_cons, List.map_append, ← hread, ← ih hdvd hmore, ← hnext]
            rfl
          · obtain ⟨hread, hnext, hdvd⟩ := Verb.read_eq frameBase h4 hvalue
            have hshapes : takenShapes ([] ++ value ++ more) =
                takenShapes value ++ takenShapes more := by
              simp [takenShapes]
            rw [if_neg hstar, hshapes, (placeSpans_append _ _ _).1, List.map_append, ← hread,
              ← ih hdvd hmore, ← hnext]
            cases precision with
            | argument => exact absurd rfl hstar
            | none | digits p => rfl

theorem Printer.reads_eq (p : Printer) (frameBase : Nat) {fmt : String} {tys : List ArgType}
    (h : p.takes fmt = some tys) :
    p.reads frameBase fmt =
      (placeSpans argStart (takenShapes tys)).1.map (Span.shift frameBase) := by
  obtain ⟨more, hmore, rfl⟩ := Option.map_eq_some_iff.mp h
  by_cases hp : p = .fprint
  · subst hp
    have hreads := @formatReads_eq frameBase (pieces fmt) 40 (by decide) _ hmore
    simp only [reads, fmtOffset, if_true, Nat.add_assoc, hreads]
    rfl
  · have hfmt : p.fmtOffset = 32 := by
      cases p with
      | fprint => exact absurd rfl hp
      | print | sprint | aprint => rfl
    have hreads := @formatReads_eq frameBase (pieces fmt) 36 (by decide) _ hmore
    simp only [reads, hfmt, if_neg hp, Nat.add_assoc, hreads]
    rfl

/-- The argument types a call is well typed at fix the widths the formatter expects. -/
theorem takenShapes_eq {args : List Arg} {tys : List ArgType}
    (h : args.map (fun a => ArgType.ofTy a.ty) = tys.map some) :
    takenShapes tys = typeShapes (args.map (·.ty)) := by
  induction args generalizing tys with
  | nil =>
      cases tys with
      | nil => rfl
      | cons => simp at h
  | cons a args ih =>
      cases tys with
      | nil => simp at h
      | cons t tys =>
          simp only [List.map_cons, List.cons.injEq] at h
          have hrest := ih h.2
          have hsize := ArgType.size_ofTy h.1
          simp only [takenShapes, typeShapes, List.map_cons, List.map_map] at hrest ⊢
          rw [hrest, hsize]

theorem Arg.slot_of_sized {a : Arg} (h : a.SizedByType) :
    a.slot.tuple = none ∧ a.slot.size = (typeNumKind a.ty).byteSize ∧
      a.slot.align = (typeNumKind a.ty).byteSize := by
  simp only [slot, genArgValue, h.1, ArgSlot.size]
  exact ⟨trivial, h.2, h.2⟩

theorem Arg.sized_of_slot {a : Arg} (htuple : a.slot.tuple.isNone)
    (hsize : a.slot.size = (typeNumKind a.ty).byteSize) : a.SizedByType := by
  unfold slot genArgValue at htuple hsize
  cases h : tupleFieldsOf a.scope a.expr with
  | some fields => simp [h] at htuple
  | none =>
      simp only [h, ArgSlot.size] at hsize
      exact ⟨h, hsize⟩

/-- Stores meet reads exactly where every argument is sized by its type. -/
theorem storedFrom_eq_iff (frameBase off : Nat) (args : List Arg) :
    storedFrom frameBase off args =
        ((placeSpans off (typeShapes (args.map (·.ty)))).1.map (Span.shift frameBase)).map some ↔
      ∀ a ∈ args, a.SizedByType := by
  induction args generalizing off with
  | nil => simp [storedFrom, typeShapes, placeSpans]
  | cons a args ih =>
      simp only [storedFrom, typeShapes, List.map_cons, placeSpans, List.cons.injEq,
        List.forall_mem_cons]
      constructor
      · rintro ⟨hhead, hrest⟩
        simp only [Option.ite_none_right_eq_some, Option.some.injEq, Span.shift,
          Span.mk.injEq] at hhead
        have hsized := Arg.sized_of_slot hhead.1 hhead.2.2
        obtain ⟨-, hsize, halign⟩ := Arg.slot_of_sized hsized
        rw [hsize, halign] at hrest
        exact ⟨hsized, (ih _).mp hrest⟩
      · rintro ⟨hsized, hrest⟩
        obtain ⟨htuple, hsize, halign⟩ := Arg.slot_of_sized hsized
        rw [hsize, halign, htuple]
        exact ⟨rfl, (ih _).mpr hrest⟩

theorem storeArgs_of_sized {args : List Arg} (h : ∀ a ∈ args, a.SizedByType) (off : Nat) :
    storeArgs off (args.map Arg.slot) = placeSpans off (typeShapes (args.map (·.ty))) := by
  rw [storeArgs_eq, typeShapes, List.map_map, List.map_map]
  congr 1
  refine List.map_congr_left fun a ha => ?_
  obtain ⟨-, hsize, halign⟩ := Arg.slot_of_sized (h a ha)
  simp only [Function.comp_apply, hsize, halign]

/-- A call of a built-in that formats its arguments, well typed for its format string, is in
step with the formatter exactly when each argument is sized by its type and the arguments of
those types end inside the built-in's frame. -/
theorem inStep_iff (p : Printer) (frameBase : Nat) (fmt : String) (args : List Arg)
    {tys : List ArgType} (htakes : p.takes fmt = some tys)
    (htys : args.map (fun a => ArgType.ofTy a.ty) = tys.map some) :
    InStep p frameBase fmt args ↔
      (∀ a ∈ args, a.SizedByType) ∧
        (placeSpans argStart (typeShapes (args.map (·.ty)))).2 ≤ p.frameSize := by
  have hne : typeShapes (args.map (·.ty)) ≠ [] := by
    obtain ⟨more, -, rfl⟩ := Option.map_eq_some_iff.mp htakes
    rw [← takenShapes_eq htys]
    cases p <;> simp [takenShapes]
  rw [InStep, p.reads_eq frameBase htakes, takenShapes_eq htys, storedFrom_eq_iff]
  refine and_congr_right fun hsized => ?_
  rw [storeArgs_of_sized hsized]
  exact placeSpans_inside_iff argStart p.frameSize hne

/-- `sys->print(fmt, x)` with `x` a variable of type big. -/
def printBig : List Arg :=
  let scope : Scope := { locals := [("x", 40, .word, .big)] }
  [⟨scope, .stringLit "%d %bd", .basic .string⟩, ⟨scope, .intLit 7, .basic .int⟩,
    ⟨scope, .ident "x", .basic .big⟩]

theorem inStep_printBig : InStep .print 96 "%d %bd" printBig :=
  (inStep_iff .print 96 "%d %bd" printBig rfl rfl).mpr ⟨by
    simp only [printBig, List.forall_mem_cons]
    exact ⟨⟨rfl, rfl⟩, ⟨rfl, rfl⟩, ⟨rfl, rfl⟩, by simp⟩, by decide⟩

/-- `sys->print("%bd", hd l)` with `l` a list of big: the compiler stores a word. -/
def printHead : List Arg :=
  let scope : Scope := { locals := [("l", 40, .ptr, .word)] }
  [⟨scope, .stringLit "%bd", .basic .string⟩, ⟨scope, .hd (.ident "l"), .basic .big⟩]

theorem printHead_not_inStep : ¬ InStep .print 0 "%bd" printHead := by
  intro h
  have hstored : storedFrom 0 argStart printHead = [some ⟨32, 4⟩, some ⟨36, 4⟩] := rfl
  have hreads : Printer.print.reads 0 "%bd" = [⟨32, 4⟩, ⟨40, 8⟩] := rfl
  have := hstored.symm.trans (h.1.trans (congrArg (List.map some) hreads))
  simp at this

end RiceVM
