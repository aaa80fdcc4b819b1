import RiceVM.Limbo.Compound
import Mathlib.Data.Fintype.Basic

/-!
When `lv op= e`, `++` and `--` mean their expansion.
-/
namespace RiceVM.Limbo.Compound

variable {ω : Type}

/-! ### The expansion -/

namespace Lvalue

def ty : Lvalue ω → BasicType
  | .var _ ty _ _ | .element _ _ ty _ _ _ | .field _ _ ty _ _ => ty

/-- The width it is read and written at. -/
def width : Lvalue ω → Width
  | .element _ _ elem _ _ _ => elemWidth elem
  | .var _ ty _ _ | .field _ _ ty _ _ => kindWidth (slotKind ty)

/-- Evaluate its parts, once, and find it. -/
def locate (idxFirst : Bool) (m : Mem ω) : Lvalue ω → Option (Place × Mem ω × List Event)
  | .var slot _ _ _ => some (.slot slot, m, [])
  | .element arr idx elem _ _ _ =>
    let first := (if idxFirst then idx else arr).run m
    let second := (if idxFirst then arr else idx).run first.2.1
    let arrVal := if idxFirst then second.1 else first.1
    let idxVal := if idxFirst then first.1 else second.1
    (elemAddress second.2.1 elem arrVal idxVal).map fun a =>
      (.heap a.1 a.2, second.2.1, first.2.2 ++ second.2.2)
  | .field obj off _ _ _ =>
    let r := obj.run m
    some (.heap (r.1.setWidth 32) off, r.2.1, r.2.2)

end Lvalue

/-- `lv = lv op e`. -/
def expandAssign (p : Prims ω) (op : AssignOp) (lv : Lvalue ω) (e : Term ω) (m : Mem ω) :
    Option (Mem ω × List Event) := do
  let r := e.run m
  let (place, m, seen) ← lv.locate true r.2.1
  let old := m.load lv.width place
  if lv.ty = .string then
    let s := p.concat old r.1 m
    some (s.2.store .word s.1 place, r.2.2 ++ seen)
  else
    let v ← apply p op (slotKind lv.ty) old r.1
    some (m.store lv.width v place, r.2.2 ++ seen)

/-- `lv = lv + 1`, or `lv = lv - 1`, and its value: the new one of a prefix form. -/
def expandIncDec (p : Prims ω) (isPrefix inc : Bool) (lv : Lvalue ω) (m : Mem ω) :
    Option (BitVec 64 × Mem ω × List Event) := do
  let (place, m, seen) ← lv.locate false m
  let old := m.load lv.width place
  let kind := slotKind lv.ty
  let one := if kind = .word then 1 else p.convert .word kind 1
  let v ← apply p (if inc then .add else .sub) kind old one
  some (if isPrefix then v else old, m.store lv.width v place, seen)

/-! ### Statements -/

/-- What is assigned to and what the compiler finds about it, but for what is evaluated. Of a field
it may find another offset than the field has. -/
inductive Shape where
  | var (ty : BasicType) (asString : Bool) (kind : NumKind)
  | element (elem : BasicType) (asArray : Bool) (known : BasicType)
  | field (ty : BasicType) (kind : NumKind) (placed : Bool)
  deriving DecidableEq, Repr

def Lvalue.shape : Lvalue ω → Shape
  | .var _ ty found kind => .var ty (decide (found = .ptr)) kind
  | .element _ _ elem found _ known => .element elem (decide (found = .array)) (knownElem known)
  | .field _ off ty info estimated =>
    .field ty (foundField info estimated).2 (decide ((foundField info estimated).1 = off))

def Shape.ty : Shape → BasicType
  | .var ty _ _ | .element ty _ _ | .field ty _ _ => ty

def Shape.isVar : Shape → Bool
  | .var .. => true
  | _ => false

/-- What becomes of the value of `++` or `--`: nothing, or it is stored somewhere, or in the
variable itself. -/
inductive Use where
  | unused
  | elsewhere
  | itself
  deriving DecidableEq, Repr

/-- The slots of the frame from `next` on are not in use. -/
def Use.Goes (use : Use) (dst : Option Dst) (next : Nat) (lv : Lvalue ω) : Prop :=
  match use, dst with
  | .unused, none => True
  | .elsewhere, some (.temp n) => n < next
  | .elsewhere, some (.local off) =>
    ∀ slot ty found kind, lv = .var slot ty found kind → slot ≠ .frame off
  | .itself, some (.local off) => ∃ ty found kind, lv = .var (.frame off) ty found kind
  | _, _ => False

inductive Statement where
  | compound (op : AssignOp) (shape : Shape)
  /-- `++` or `--`, whose value may be used. -/
  | incDec (isPrefix inc : Bool) (use : Use) (shape : Shape)
  deriving DecidableEq, Repr

def AssignOp.isShift : AssignOp → Bool
  | .lshift | .rshift => true
  | _ => false

def AssignOp.inTable : AssignOp → Bool
  | .add | .sub | .mul | .div => true
  | _ => false

/-- The right side has the type of the left, but for a shift. -/
def rhsKind (op : AssignOp) (ty : BasicType) : NumKind :=
  if op.isShift then .word else slotKind ty

/-- The memory with the value stored in a variable, or the value. -/
def received (w : Width) (dst : Option Dst) (v : BitVec 64) (m : Mem ω) : BitVec 64 × Mem ω :=
  match dst with
  | none => (0, m)
  | some (.temp _) => (v, m)
  | some (.local off) => (0, m.store w v (.slot (.frame off)))

/-- What a state holds of it. -/
def taken (dst : Option Dst) (s : State ω) : BitVec 64 :=
  match dst with
  | some (.temp n) => s.temps n
  | _ => 0

namespace Statement

def WellTyped : Statement → Prop
  | .compound op shape =>
    (shape.ty = .string → op = .add) ∧ (shape.ty = .real → op.inTable)
  | .incDec _ _ use shape => shape.ty ≠ .string ∧ (use = .itself → shape.isVar)

/-- The code does what the expansion does, whatever the operands and the state. The parser makes no
difference between a prefix form and a postfix one. -/
def Means : Statement → Prop
  | .compound op shape => ∀ (ω : Type) (p : Prims ω) (lv : Lvalue ω) (e : Term ω) (next : Nat)
      (s : State ω), lv.shape = shape → e.kind = rhsKind op shape.ty →
      (run p (genCompoundAssign op e next lv) s).map (fun s' => (s'.mem, s'.trace)) =
        (expandAssign p op lv e s.mem).map fun r => (r.1, s.trace ++ r.2)
  | .incDec isPrefix inc use shape => ∀ (ω : Type) (p : Prims ω) (lv : Lvalue ω) (dst : Option Dst)
      (next : Nat) (s : State ω), lv.shape = shape → use.Goes dst next lv →
      (run p (genIncDec inc dst next lv) s).map (fun s' => (taken dst s', s'.mem, s'.trace)) =
        (expandIncDec p isPrefix inc lv s.mem).map fun r =>
          ((received lv.width dst r.1 r.2.1).1, (received lv.width dst r.1 r.2.1).2,
            s.trace ++ r.2.2)

/-- The tables and the branches of the generator cover the statement, and what the compiler finds
about the lvalue is so. -/
def Covered : Statement → Prop
  | .compound op (.var ty asString kind) =>
    if ty = .string then asString = true
    else op.inTable ∧ ¬ (asString ∧ op = .add) ∧ kind = slotKind ty
  | .compound op (.element elem _ known) =>
    op.inTable ∧ elem ≠ .byte ∧ elem ≠ .string ∧ slotKind known = slotKind elem
  | .compound _ (.field ..) => False
  | .incDec isPrefix _ use (.var ty _ kind) =>
    kind = slotKind ty ∧ (use ≠ .unused → isPrefix = decide (use = .itself))
  | .incDec isPrefix _ use (.element elem asArray known) =>
    (use ≠ .unused → isPrefix = false ∧ known ≠ .byte) ∧ asArray ∧ elem ≠ .byte ∧
      slotKind known = slotKind elem
  | .incDec isPrefix _ use (.field ty kind placed) =>
    (use ≠ .unused → isPrefix = false) ∧ placed ∧ kind = slotKind ty

instance : DecidablePred WellTyped
  | .compound op shape =>
    inferInstanceAs (Decidable ((shape.ty = .string → op = .add) ∧ (shape.ty = .real → op.inTable)))
  | .incDec _ _ use shape =>
    inferInstanceAs (Decidable (shape.ty ≠ .string ∧ (use = .itself → shape.isVar)))

instance : DecidablePred Covered
  | .compound op (.var ty asString kind) => inferInstanceAs (Decidable (if ty = .string then
    asString = true else op.inTable ∧ ¬ (asString ∧ op = .add) ∧ kind = slotKind ty))
  | .compound op (.element elem _ known) => inferInstanceAs
    (Decidable (op.inTable ∧ elem ≠ .byte ∧ elem ≠ .string ∧ slotKind known = slotKind elem))
  | .compound _ (.field ..) => inferInstanceAs (Decidable False)
  | .incDec isPrefix _ use (.var ty _ kind) => inferInstanceAs
    (Decidable (kind = slotKind ty ∧ (use ≠ .unused → isPrefix = decide (use = .itself))))
  | .incDec isPrefix _ use (.element elem asArray known) => inferInstanceAs
    (Decidable ((use ≠ .unused → isPrefix = false ∧ known ≠ .byte) ∧ asArray ∧ elem ≠ .byte ∧
      slotKind known = slotKind elem))
  | .incDec isPrefix _ use (.field ty kind placed) => inferInstanceAs
    (Decidable ((use ≠ .unused → isPrefix = false) ∧ placed ∧ kind = slotKind ty))

end Statement

/-! ### Covered statements -/

variable {p : Prims ω}

@[simp] theorem run_nil (s : State ω) : run p [] s = some s := rfl

@[simp] theorem run_cons (i : Instr ω) (code : List (Instr ω)) (s : State ω) :
    run p (i :: code) s = (exec p s i).bind (run p code) := rfl

theorem genExprToKind_same {t : Term ω} {kind : NumKind} (h : t.kind = kind) (dst next : Nat) :
    genExprToKind t dst kind next = [.eval t dst] := if_pos h

theorem compoundOpcode_table {op : AssignOp} (h : op.inTable) (kind : NumKind) :
    compoundOpcode op kind = (op, kind) := by
  cases op <;> first | rfl | cases h

theorem rhsKind_table {op : AssignOp} (h : op.inTable) (ty : BasicType) :
    rhsKind op ty = slotKind ty := by
  cases op <;> first | rfl | cases h

theorem compound_var {op : AssignOp} {ty : BasicType} {asString : Bool} {kind : NumKind}
    (htyped : ty = .string → op = .add)
    (h : (Statement.compound op (.var ty asString kind)).Covered) :
    (Statement.compound op (.var ty asString kind)).Means := by
  intro ω p lv e next s hshape he
  cases lv with
  | var slot ty' found' kind' =>
      cases hshape
      simp only [Statement.Covered] at h
      by_cases hstring : ty = .string
      · have hop := htyped hstring
        subst hstring hop
        have hfound := of_decide_eq_true ((if_pos rfl).mp h)
        subst hfound
        simp [genCompoundAssign, exec, State.setTemp, State.place, expandAssign, Lvalue.locate,
          Lvalue.ty, Lvalue.width, slotKind, typeNumKind, kindWidth]
      · rw [if_neg hstring] at h
        obtain ⟨htable, hnot, rfl⟩ := h
        have hfound : ¬ (found' = .ptr ∧ op = .add) := fun hand =>
          hnot ⟨decide_eq_true hand.1, hand.2⟩
        have hkind : e.kind = slotKind ty := he.trans (rhsKind_table htable ty)
        have hcode : genCompoundAssign op e next (.var slot ty found' (slotKind ty)) =
            [.eval e next, .arith op (slotKind ty) (.temp next) (.slot slot)] := by
          rw [genCompoundAssign, if_neg hfound, genExprToKind_same hkind,
            compoundOpcode_table htable]
          rfl
        rw [hcode]
        simp [exec, State.setTemp, State.place, State.read, expandAssign, Lvalue.locate, Lvalue.ty,
          hstring, Lvalue.width, Option.map_bind, Option.bind_assoc]
  | element | field => cases hshape

theorem compound_element {op : AssignOp} {elem known : BasicType} {asArray : Bool}
    (htable : op.inTable) (hbyte : elem ≠ .byte) (hstring : elem ≠ .string)
    (hknown : slotKind known = slotKind elem) :
    (Statement.compound op (.element elem asArray known)).Means := by
  intro ω p lv e next s hshape he
  cases lv with
  | element arr idx elem' found' home known' =>
      cases hshape
      have hkind : e.kind = slotKind elem := he.trans (rhsKind_table htable elem)
      have hcode : genCompoundAssign op e next (.element arr idx elem found' home known') =
          [.eval e next, .eval idx (next + 2), .eval arr (next + 3),
            .ind elem (next + 3) (next + 4) (next + 2),
            .arith op (slotKind elem) (.temp next) (.elem (next + 4))] := by
        rw [genCompoundAssign, hknown, genExprToKind_same hkind, compoundOpcode_table htable]
        rfl
      have hwidth : elemWidth elem = kindWidth (slotKind elem) := by
        cases elem <;> first | rfl | exact absurd rfl hbyte
      rw [hcode]
      simp [exec, State.setTemp, State.place, State.read, expandAssign, Lvalue.locate, Lvalue.ty,
        hstring, Lvalue.width, Option.map_bind, Option.bind_assoc, Option.bind_map, hwidth]
  | var | field => cases hshape

/-! ### The old value and the update -/

namespace Mem

variable (m : Mem ω)

theorem load_store_local {place : Place} {off : Nat} (h : place ≠ .slot (.frame off)) (w w' : Width)
    (v : BitVec 64) : (m.store w v (.slot (.frame off))).load w' place = m.load w' place := by
  cases place with
  | slot slot =>
      have hne : slot ≠ .frame off := fun heq => h (heq ▸ rfl)
      simp only [store, load, Function.update_of_ne hne]
  | heap id off' => rfl

theorem store_inside {id : BitVec 32} {off : Nat} {w : Width} {v : BitVec 64}
    (h : off + w.bytes ≤ (m.heap id).length) : m.store w v (.heap id off) =
      let bytes := (m.heap id).take off ++ (toBytes w.bytes v ++ (m.heap id).drop (off + w.bytes))
      { m with heap := Function.update m.heap id bytes } :=
  if_pos h

theorem store_outside {id : BitVec 32} {off : Nat} {w : Width} {v : BitVec 64}
    (h : ¬ off + w.bytes ≤ (m.heap id).length) : m.store w v (.heap id off) = m := if_neg h

theorem store_store_local {place : Place} {off : Nat} (h : place ≠ .slot (.frame off))
    (w w' : Width) (v v' : BitVec 64) :
    (m.store w v (.slot (.frame off))).store w' v' place =
      (m.store w' v' place).store w v (.slot (.frame off)) := by
  cases place with
  | slot slot =>
      have hne : slot ≠ .frame off := fun heq => h (heq ▸ rfl)
      simp only [store, Function.update_of_ne hne, Function.update_of_ne hne.symm,
        Function.update_comm hne]
  | heap id off' =>
      by_cases hin : off' + w'.bytes ≤ (m.heap id).length
      · rw [store_inside m hin, store_inside (m.store w v (.slot (.frame off))) hin]
        rfl
      · rw [store_outside m hin, store_outside (m.store w v (.slot (.frame off))) hin]

/-- A later store of the same width is the one that stays. -/
theorem store_store_same (slot : Slot) (w : Width) (v v' : BitVec 64) :
    (m.store w v (.slot slot)).store w v' (.slot slot) = m.store w v' (.slot slot) := by
  simp only [store, Function.update_self, Function.update_idem]
  congr 2
  ext i hi
  simp only [BitVec.getElem_or, BitVec.getElem_and, BitVec.getElem_not]
  cases w.mask[i] <;> simp

end Mem

/-- What `emitIncDec` does: the slots before `next` stay as they are. -/
theorem emitIncDec_run (target : Operand) (kind : NumKind) (place : Place) (inc : Bool)
    {next : Nat} {s : State ω}
    (hplace : ∀ f : Nat → BitVec 64, (∀ n < next, f n = s.temps n) →
      State.place { s with temps := f } target = some place) :
    ∃ f : Nat → BitVec 64, (∀ n < next, f n = s.temps n) ∧
      run p (emitIncDec target kind inc next) s =
        (apply p (if inc then .add else .sub) kind (s.mem.load (kindWidth kind) place)
          (if kind = .word then 1 else p.convert .word kind 1)).map fun v =>
            { s with temps := f, mem := s.mem.store (kindWidth kind) v place } := by
  have hbelow (one : BitVec 64) (n : Nat) (hn : n < next) :
      Function.update (Function.update s.temps next 1#64) (next + 1) one n = s.temps n := by
    rw [Function.update_of_ne (by omega), Function.update_of_ne (by omega)]
  cases kind with
  | word =>
      have hself : s.place target = some place := hplace s.temps fun _ _ => rfl
      refine ⟨s.temps, fun _ _ => rfl, ?_⟩
      simp [emitIncDec, exec, hself, State.read, kindWidth, Option.map_eq_bind, Option.bind_assoc]
  | big =>
      refine ⟨_, hbelow (p.convert .word .big 1), ?_⟩
      simp [emitIncDec, exec, hplace _ (hbelow _), State.setTemp, State.deliver, State.read,
        kindWidth, Option.map_eq_bind, Option.bind_assoc]
  | real =>
      refine ⟨_, hbelow (p.convert .word .real 1), ?_⟩
      simp [emitIncDec, exec, hplace _ (hbelow _), State.setTemp, State.deliver, State.read,
        kindWidth, Option.map_eq_bind, Option.bind_assoc]

/-- Another place than the variable that the value goes to. -/
def Dst.Apart (dst : Option Dst) (place : Place) : Prop :=
  ∀ off, dst = some (.local off) → place ≠ .slot (.frame off)

/-- Reads the old value of the target into `dst` if it is used, and updates it. -/
theorem update_run (target : Operand) (kind : NumKind) (place : Place) {w : Width} (inc : Bool)
    {dst : Option Dst} {next : Nat} {s : State ω} (hdst : ∀ n, dst = some (.temp n) → n < next)
    (hapart : Dst.Apart dst place)
    (hplace : ∀ (f : Nat → BitVec 64) (m : Mem ω),
      (∀ n < next, dst ≠ some (.temp n) → f n = s.temps n) →
      State.place { s with temps := f, mem := m } target = some place)
    (hread : s.read w target = s.mem.load w place) :
    (run p ((dst.map fun d => Instr.mov w target d).toList ++
        emitIncDec target kind inc next) s).map (fun s' => (taken dst s', s'.mem, s'.trace)) =
      (apply p (if inc then .add else .sub) kind (s.mem.load (kindWidth kind) place)
        (if kind = .word then 1 else p.convert .word kind 1)).map fun v =>
          let r := received w dst (s.mem.load w place) (s.mem.store (kindWidth kind) v place)
          (r.1, r.2, s.trace) := by
  cases dst with
  | none =>
      obtain ⟨f, -, hrun⟩ := emitIncDec_run (p := p) target kind place inc (s := s)
        fun f hf => hplace f s.mem fun n hn _ => hf n hn
      simp [hrun, received, taken, Function.comp_def]
  | some d =>
      cases d with
      | temp n =>
          obtain ⟨f, hf, hrun⟩ := emitIncDec_run (p := p) target kind place inc
            (s := s.setTemp n (s.read w target))
            fun f hf => hplace f s.mem fun k hk hne => (hf k hk).trans
              (Function.update_of_ne (fun heq : k = n => hne (by rw [heq])) _ _)
          have hold : f n = s.mem.load w place :=
            (hf n (hdst n rfl)).trans ((Function.update_self _ _ _).trans hread)
          have hmov : run p (.mov w target (.temp n) :: emitIncDec target kind inc next) s =
              run p (emitIncDec target kind inc next) (s.setTemp n (s.read w target)) := rfl
          simp only [Option.map_some, Option.toList_some, List.singleton_append, hmov, hrun]
          simp [received, taken, Function.comp_def, hold, State.setTemp]
      | «local» off =>
          have hne := hapart off rfl
          obtain ⟨f, -, hrun⟩ := emitIncDec_run (p := p) target kind place inc
            (s := { s with mem := s.mem.store w (s.read w target) (.slot (.frame off)) })
            fun f hf => hplace f _ fun k hk _ => hf k hk
          have hmov : run p (.mov w target (.local off) :: emitIncDec target kind inc next) s =
              run p (emitIncDec target kind inc next)
                { s with mem := s.mem.store w (s.read w target) (.slot (.frame off)) } := rfl
          simp only [Option.map_some, Option.toList_some, List.singleton_append, hmov, hrun]
          simp [received, taken, Function.comp_def, hread, Mem.load_store_local _ hne,
            Mem.store_store_local _ hne]

/-! ### Covered uses -/

namespace Use.Goes

variable {use : Use} {dst : Option Dst} {next : Nat} {lv : Lvalue ω}

theorem below (h : use.Goes dst next lv) : ∀ n, dst = some (.temp n) → n < next := by
  rintro n rfl
  cases use with
  | elsewhere => exact h
  | unused | itself => exact h.elim

theorem used (h : use.Goes dst next lv) {d : Dst} (hd : dst = some d) : use ≠ .unused := by
  subst hd
  rintro rfl
  exact h

/-- Only the variable that the value goes to is its own destination. -/
theorem itself_iff {slot : Slot} {ty : BasicType} {found : ValType} {kind : NumKind}
    (h : use.Goes dst next (.var slot ty found kind : Lvalue ω)) :
    use = .itself ↔ dst.bind Dst.slot = some slot := by
  cases use with
  | unused =>
      cases dst with
      | none => simp
      | some d => exact h.elim
  | elsewhere =>
      cases dst with
      | none => exact h.elim
      | some d =>
          cases d with
          | temp n => simp [Dst.slot]
          | «local» off =>
              have hne := h slot ty found kind rfl
              simpa [Dst.slot] using hne.symm
  | itself =>
      cases dst with
      | none => exact h.elim
      | some d =>
          cases d with
          | temp n => exact h.elim
          | «local» off =>
              obtain ⟨_, _, _, heq⟩ := h
              cases heq
              simp [Dst.slot]

end Use.Goes

theorem apart_of_heap (dst : Option Dst) (id : BitVec 32) (off : Nat) :
    Dst.Apart dst (.heap id off) := nofun

/-- The value of a postfix form is the old one, also where it is not used. -/
theorem received_postfix {isPrefix : Bool} {dst : Option Dst}
    (h : ∀ d, dst = some d → isPrefix = false) (w : Width) (v old : BitVec 64) (m : Mem ω) :
    received w dst (if isPrefix then v else old) m = received w dst old m := by
  cases dst with
  | none => rfl
  | some d => rw [h d rfl]; rfl

theorem incDec_var {isPrefix inc : Bool} {use : Use} {ty : BasicType} {asString : Bool}
    {kind : NumKind} (h : (Statement.incDec isPrefix inc use (.var ty asString kind)).Covered) :
    (Statement.incDec isPrefix inc use (.var ty asString kind)).Means := by
  intro ω p lv dst next s hshape hgoes
  obtain ⟨rfl, hvalue⟩ := h
  cases lv with
  | var slot ty' found kind' =>
      cases hshape
      by_cases hself : dst.bind Dst.slot = some slot
      · have huse := hgoes.itself_iff.mpr hself
        subst huse
        have hprefix : isPrefix = true := by simpa using hvalue nofun
        subst hprefix
        cases dst with
        | none => cases hself
        | some d =>
            cases d with
            | temp n => cases hself
            | «local» off =>
                cases hself
                have hself : (some (Dst.local off)).bind Dst.slot = some (.frame off) := rfl
                rw [genIncDec, if_pos hself]
                obtain ⟨f, -, hrun⟩ := @emitIncDec_run _ p (.slot (.frame off)) (slotKind ty)
                  (.slot (.frame off)) inc next s fun _ _ => rfl
                simp [hrun, expandIncDec, Lvalue.locate, Lvalue.ty, Lvalue.width, received, taken,
                  Option.map_eq_bind, Option.bind_assoc, Mem.store_store_same]
                rfl
      · have hpostfix : ∀ d, dst = some d → isPrefix = false := fun d hd => by
          have huse : use ≠ .itself := fun heq => hself (hgoes.itself_iff.mp heq)
          simpa [huse] using hvalue (hgoes.used hd)
        have hapart : Dst.Apart dst (.slot slot) := by
          rintro off rfl heq
          cases heq
          exact hself rfl
        rw [genIncDec, if_neg hself]
        refine (update_run (.slot slot) (slotKind ty) (.slot slot) inc hgoes.below hapart
          (fun _ _ _ => rfl) rfl).trans ?_
        simp [expandIncDec, Lvalue.locate, Lvalue.ty, Lvalue.width, received_postfix hpostfix,
          Option.map_eq_bind, Option.bind_assoc]
        rfl
  | element | field => cases hshape

theorem incDec_element {isPrefix inc : Bool} {use : Use} {elem known : BasicType} {asArray : Bool}
    (h : (Statement.incDec isPrefix inc use (.element elem asArray known)).Covered) :
    (Statement.incDec isPrefix inc use (.element elem asArray known)).Means := by
  intro ω p lv dst next s hshape hgoes
  obtain ⟨hused, harray, hbyte, hknown⟩ := h
  cases lv with
  | element arr idx elem' found home known' =>
      cases hshape
      have hfound : found = .array := of_decide_eq_true harray
      have hpostfix : ∀ d, dst = some d → isPrefix = false := fun d hd =>
        (hused (hgoes.used hd)).1
      have hwidth : elemWidth elem = kindWidth (slotKind elem) := by
        cases elem <;> first | rfl | exact absurd rfl hbyte
      have hreceived (v : BitVec 32 × Nat) (m m' : Mem ω) :
          received (elemWidth (knownElem known')) dst
              (m.load (elemWidth (knownElem known')) (.heap v.1 v.2)) m' =
            received (elemWidth elem) dst (m.load (elemWidth elem) (.heap v.1 v.2)) m' := by
        cases dst with
        | none => rfl
        | some d =>
            have hword :
                elemWidth (knownElem known') = kindWidth (slotKind (knownElem known')) := by
              have hne := (hused (hgoes.used rfl)).2
              cases hk : knownElem known' <;> first | rfl | exact absurd hk hne
            rw [hword, hknown, ← hwidth]
      let first := arr.run s.mem
      let second := idx.run first.2.1
      have hcode (code : List (Instr ω)) : run p ([.eval arr next, .eval idx (next + 1),
          .ind elem next (next + 2) (next + 1)] ++ code) s =
            (elemAddress second.2.1 elem first.1 second.1).bind fun a => run p code
              { temps := Function.update (Function.update s.temps next first.1) (next + 1) second.1
                refs := Function.update s.refs (next + 2) a
                mem := second.2.1
                trace := s.trace ++ first.2.2 ++ second.2.2 } := by
        simp [exec, State.setTemp, first, second, Option.bind_assoc]
      rw [genIncDec, if_pos hfound, List.append_assoc, hcode]
      cases haddress : elemAddress second.2.1 elem first.1 second.1 with
      | none => simp [expandIncDec, Lvalue.locate, first, second, haddress] at *
      | some a =>
          simp only [first, second] at haddress
          have hbelow : ∀ n, dst = some (.temp n) → n < next + 3 := fun n hn =>
            (hgoes.below n hn).trans (by omega)
          refine (update_run (.elem (next + 2)) (slotKind (knownElem known')) (.heap a.1 a.2) inc
            hbelow (apart_of_heap dst a.1 a.2) (fun f m _ => by simp [State.place])
            (by simp [State.read, State.place])).trans ?_
          simp [expandIncDec, Lvalue.locate, Lvalue.ty, Lvalue.width, received_postfix hpostfix,
            hreceived, hknown, hwidth, Option.map_eq_bind, Option.bind_assoc, first, second,
            haddress]
          rfl
  | var | field => cases hshape

theorem incDec_field {isPrefix inc : Bool} {use : Use} {ty : BasicType} {kind : NumKind}
    {placed : Bool}
    (h : (Statement.incDec isPrefix inc use (.field ty kind placed)).Covered) :
    (Statement.incDec isPrefix inc use (.field ty kind placed)).Means := by
  intro ω p lv dst next s hshape hgoes
  obtain ⟨hused, hplaced, rfl⟩ := h
  cases lv with
  | field obj off ty' info estimated =>
      obtain ⟨rfl, hkind, rfl⟩ := Shape.field.injEq .. ▸ hshape
      have hfound : foundField info estimated = (off, slotKind ty') :=
        Prod.ext (of_decide_eq_true hplaced) hkind
      have hpostfix : ∀ d, dst = some d → isPrefix = false := fun d hd => hused (hgoes.used hd)
      let s₁ : State ω := { s.setTemp next (obj.run s.mem).1 with
        mem := (obj.run s.mem).2.1, trace := s.trace ++ (obj.run s.mem).2.2 }
      have hbelow : ∀ n, dst = some (.temp n) → n < next + 1 := fun n hn =>
        (hgoes.below n hn).trans (by omega)
      have hrun := update_run (.field next off) (slotKind ty')
        (.heap (((obj.run s.mem).1).setWidth 32) off) (p := p) (s := s₁)
        (w := kindWidth (slotKind ty')) inc hbelow (apart_of_heap dst _ _)
        (fun f m hf => by
          have hrec := hf next (by omega) fun heq => absurd (hgoes.below next heq) (by omega)
          simp [State.place, hrec, s₁, State.setTemp])
        (by simp [State.read, State.place, s₁, State.setTemp])
      rw [genIncDec, hfound]
      refine hrun.trans ?_
      simp [expandIncDec, Lvalue.locate, Lvalue.ty, Lvalue.width, received_postfix hpostfix,
        Option.map_eq_bind, Option.bind_assoc, s₁]
      rfl
  | var | element => cases hshape

/-! ### The other statements -/

/-- Strings and reals that come out as 9. -/
def nines : Prims Unit where
  concat _ _ m := (9, m)
  real _ _ _ := 9
  convert _ _ v := v

def const (kind : NumKind) (v : BitVec 64) : Term Unit := ⟨kind, fun m => (v, m, [])⟩

/-- Variables are `v`, and objects hold it twice. -/
def holding (v : BitVec 64) : State Unit where
  temps _ := 0
  refs _ := (0, 0)
  mem := ⟨fun _ => v, fun _ => toBytes 8 v ++ toBytes 8 v, ()⟩
  trace := []

/-- A field of this kind. -/
def typeOf : NumKind → BasicType
  | .word => .int
  | .big => .big
  | .real => .real

def sample : Shape → Lvalue Unit
  | .var ty asString kind => .var (.frame 0) ty (if asString then .ptr else .word) kind
  | .element elem asArray known =>
    .element (const .word 1) (const .word 0) elem (if asArray then .array else .word) none
      (some known)
  | .field ty kind placed =>
    .field (const .word 1) 0 ty (some (if placed then 0 else 8, typeOf kind)) 0

theorem shape_sample (shape : Shape) : (sample shape).shape = shape := by
  cases shape with
  | var ty asString kind => cases asString <;> rfl
  | element elem asArray known => cases asArray <;> rfl
  | field ty kind placed => cases placed <;> cases kind <;> rfl

def Use.sample : Use → Option Dst
  | .unused => none
  | .elsewhere => some (.temp 0)
  | .itself => some (.local 0)

/-- The variable and the object that are assigned to. -/
def leftIn (m : Mem Unit) : BitVec 64 × List (BitVec 8) := (m.vars (.frame 0), m.heap 1)

namespace Statement

/-- The code does what the expansion does, from memory that holds `v`. -/
def AgreesFrom (v : BitVec 64) : Statement → Prop
  | .compound op shape =>
    (run nines (genCompoundAssign op (const (rhsKind op shape.ty) 3) 0 (sample shape))
        (holding v)).map (fun s => leftIn s.mem) =
      (expandAssign nines op (sample shape) (const (rhsKind op shape.ty) 3) (holding v).mem).map
        fun r => leftIn r.1
  | .incDec isPrefix inc use shape =>
    (run nines (genIncDec inc use.sample 1 (sample shape)) (holding v)).map
        (fun s => (taken use.sample s, leftIn s.mem)) =
      (expandIncDec nines isPrefix inc (sample shape) (holding v).mem).map fun r =>
        let r := received (sample shape).width use.sample r.1 r.2.1
        (r.1, leftIn r.2)

instance (v : BitVec 64) : DecidablePred (AgreesFrom v)
  | .compound op shape => inferInstanceAs (Decidable (
    (run nines (genCompoundAssign op (const (rhsKind op shape.ty) 3) 0 (sample shape))
        (holding v)).map (fun s => leftIn s.mem) =
      (expandAssign nines op (sample shape) (const (rhsKind op shape.ty) 3) (holding v).mem).map
        fun r => leftIn r.1))
  | .incDec isPrefix inc use shape => inferInstanceAs (Decidable (
    (run nines (genIncDec inc use.sample 1 (sample shape)) (holding v)).map
        (fun s => (taken use.sample s, leftIn s.mem)) =
      (expandIncDec nines isPrefix inc (sample shape) (holding v).mem).map fun r =>
        let r := received (sample shape).width use.sample r.1 r.2.1
        (r.1, leftIn r.2)))

theorem Means.agreesFrom : ∀ {st : Statement}, st.Means → st.WellTyped → ∀ v, st.AgreesFrom v
  | .compound op shape, h, _, v => by
      have hrun := congrArg (Option.map fun r => leftIn r.1)
        (h Unit nines (sample shape) (const (rhsKind op shape.ty) 3) 0 (holding v)
          (shape_sample shape) rfl)
      simpa [AgreesFrom, Function.comp_def] using hrun
  | .incDec isPrefix inc use shape, h, htyped, v => by
      have hgoes : use.Goes use.sample 1 (sample shape) := by
        cases use with
        | unused => trivial
        | elsewhere => exact Nat.one_pos
        | itself =>
            cases shape with
            | var ty asString kind => exact ⟨_, _, _, rfl⟩
            | element | field => cases htyped.2 rfl
      have hrun := congrArg (Option.map fun r => (r.1, leftIn r.2.1))
        (h Unit nines (sample shape) use.sample 1 (holding v) (shape_sample shape) hgoes)
      simpa [AgreesFrom, Function.comp_def] using hrun

/-- Words whose parts come out differently: the low half carries, or the low byte does. -/
def starts : List (BitVec 64) := [0x5ffffffff, 0x500000000, 0x580000100, 0x500000109, 0x500000005]

end Statement

instance : Fintype AssignOp :=
  ⟨{.add, .sub, .mul, .div, .mod, .and, .or, .xor, .lshift, .rshift}, by rintro (_ | _) <;> decide⟩

instance : Fintype BasicType := ⟨{.int, .byte, .big, .real, .string}, by rintro (_ | _) <;> decide⟩

instance : Fintype NumKind := ⟨{.word, .big, .real}, by rintro (_ | _) <;> decide⟩

instance : Fintype Use := ⟨{.unused, .elsewhere, .itself}, by rintro (_ | _) <;> decide⟩

theorem covered_of_agrees : ∀ st : Statement, st.WellTyped →
    (Statement.starts.all fun v => decide (st.AgreesFrom v)) → st.Covered
  | .compound op (.var ty asString kind) => by
      revert op ty asString kind
      decide +kernel
  | .compound op (.element elem asArray known) => by
      revert op elem asArray known
      decide +kernel
  | .compound op (.field ty kind placed) => by
      revert op ty kind placed
      decide +kernel
  | .incDec isPrefix inc use (.var ty asString kind) => by
      revert isPrefix inc use ty asString kind
      decide +kernel
  | .incDec isPrefix inc use (.element elem asArray known) => by
      revert isPrefix inc use elem asArray known
      decide +kernel
  | .incDec isPrefix inc use (.field ty kind placed) => by
      revert isPrefix inc use ty kind placed
      decide +kernel

theorem covered_of_means {st : Statement} (h : st.Means) (htyped : st.WellTyped) : st.Covered :=
  covered_of_agrees st htyped
    (List.all_eq_true.mpr fun v _ => decide_eq_true (h.agreesFrom htyped v))

end RiceVM.Limbo.Compound
