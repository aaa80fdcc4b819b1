import RiceVM.Limbo.Selection

/-!
How an operand shows its type to the compiler. Whatever shows nothing is taken for a word.
-/
namespace RiceVM.Limbo

/-- The class given to an element or a field of a recorded type: a string is taken for a word. -/
def Ty.memberClass : Ty → ValType
  | .basic _ => .word
  | .array _ => .array
  | _ => .ptr

/-- The operators whose width is that of their operands. -/
def BinOp.isArithmetic (op : BinOp) : Bool := !op.isEquality && !op.isOrder && !op.isLogical

variable (s : Scope)

/-- The forms that are taken for a pointer, which a string is too, or for an array. -/
inductive Looks : ValType → Expr → Prop
  | string (v : String) : Looks .ptr (.stringLit v)
  | nil : Looks .ptr .nil
  /-- The head of any list. -/
  | hd (e : Expr) : Looks .ptr (.hd e)
  | tl (e : Expr) : Looks .ptr (.tl e)
  | load (ty : Ty) (e : Expr) : Looks .ptr (.load ty e)
  | cons (h t : Expr) : Looks .ptr (.cons h t)
  | chanAlloc (ty : Ty) : Looks .ptr (.chanAlloc ty)
  | listLit (es : List Expr) : Looks .ptr (.listLit es)
  | arrayAlloc (n : Expr) (ty : Ty) : Looks .array (.arrayAlloc n ty)
  | arrayLit (n : Option Expr) (es : List Expr) (ty : Option Ty) :
      Looks .array (.arrayLit n es ty)
  /-- A sum goes by its left operand. -/
  | add {l r : Expr} (h : Looks .ptr l) : Looks .ptr (.binary l .add r)
  | var {c : ValType} {x : String} {kind : NumKind} (h : s.lookupVar x = some (c, kind)) :
      Looks c (.ident x)
  | const {c : ValType} {x : String} {v : ConstVal} (h : s.lookupVar x = none)
      (hv : s.consts x = some v) (hc : v.valType = c) : Looks c (.ident x)
  | assign {c : ValType} {l r : Expr} (h : Looks c r) : Looks c (.assign l r)
  | declAssign {c : ValType} {xs : List String} {r : Expr} (h : Looks c r) :
      Looks c (.declAssign xs r)
  | compoundAssign {c : ValType} {l r : Expr} {op : BinOp} (h : Looks c r) :
      Looks c (.compoundAssign l op r)
  | postInc {c : ValType} {e : Expr} (h : Looks c e) : Looks c (.postInc e)
  | postDec {c : ValType} {e : Expr} (h : Looks c e) : Looks c (.postDec e)
  | field {c : ValType} {e : Expr} {f : String} {ty : Ty}
      (h : fieldTypeForExpr s e f = some ty) (hc : ty.memberClass = c) : Looks c (.dot e f)
  | elem {c : ValType} {e i : Expr} {ty : Ty} (h : arrayElemTypeForExpr s e = some ty)
      (hc : ty.memberClass = c) : Looks c (.index e i)
  | moduleCall {c : ValType} {x f : String} {args : List Expr}
      (h : moduleCallValType s x f = c) : Looks c (.call (.modQual (.ident x) f) args)
  | method {c : ValType} {e : Expr} {f : String} {args : List Expr} {ty : Ty}
      (h : methodRet s e f = some ty) (hc : ty.storage = c) : Looks c (.call (.dot e f) args)
  | cast {c : ValType} {ty : Ty} (e : Expr) (hc : ty.storage = c) : Looks c (.cast ty e)

/-- Is something in an operand of arithmetic seen to be `k` wide? -/
inductive Shows (k : NumKind) : Expr → Prop
  | int {v : Big} (h : isWide v = true) (hk : k = .big) : Shows k (.intLit v)
  | real {bits : Big} (hk : k = .real) : Shows k (.realLit bits)
  | var {x : String} {ty : ValType} (h : s.lookupVar x = some (ty, k)) : Shows k (.ident x)
  | const {x : String} {v : ConstVal} (h : s.lookupVar x = none) (hc : s.consts x = some v)
      (hk : v.numKind = k) : Shows k (.ident x)
  | assign {l r : Expr} (h : Shows k r) : Shows k (.assign l r)
  | declAssign {xs : List String} {r : Expr} (h : Shows k r) : Shows k (.declAssign xs r)
  | compoundAssign {l r : Expr} {op : BinOp} (h : Shows k r) : Shows k (.compoundAssign l op r)
  | postInc {e : Expr} (h : Shows k e) : Shows k (.postInc e)
  | postDec {e : Expr} (h : Shows k e) : Shows k (.postDec e)
  | cast {ty : Ty} (e : Expr) (hty : typeNumKind ty = k) : Shows k (.cast ty e)
  | unary {op : UnaryOp} {e : Expr} (h : Shows k e) : Shows k (.unary op e)
  | left {l r : Expr} {op : BinOp} (hop : op.isArithmetic = true) (h : Shows k l) :
      Shows k (.binary l op r)
  | right {l r : Expr} {op : BinOp} (hop : op.isArithmetic = true) (h : Shows k r) :
      Shows k (.binary l op r)
  | call {f g : String} {args : List Expr} (h : s.funcTable.find? (·.1 = f) = some (g, k)) :
      Shows k (.call (.ident f) args)
  | moduleCall {x f : String} {args : List Expr} (h : moduleCallNumKind s x f = k) :
      Shows k (.call (.modQual (.ident x) f) args)
  | method {e : Expr} {f : String} {args : List Expr} {ty : Ty} (h : methodRet s e f = some ty)
      (hty : typeNumKind ty = k) : Shows k (.call (.dot e f) args)
  | elem {e i : Expr} {b : BasicType} (h : arrayElemBasicForExpr s e = some b)
      (hb : typeNumKind (.basic b) = k) : Shows k (.index e i)
  | recv {x : String} {ty : Ty} (h : s.localChanElem x = some ty) (hty : typeNumKind ty = k) :
      Shows k (.recv (.ident x))
  | field {e : Expr} {f : String} {ty : Ty} (h : fieldTypeForExpr s e f = some ty)
      (hty : typeNumKind ty = k) : Shows k (.dot e f)

variable {s}

theorem map_getD_eq {α β : Type} {o : Option α} {f : α → β} {c d : β} (hc : c ≠ d)
    (h : (o.map f).getD d = c) : ∃ a, o = some a ∧ f a = c := by
  cases o with
  | none => exact absurd h.symm hc
  | some a => exact ⟨a, rfl, h⟩

theorem inferExprType_dot (e : Expr) (f : String) :
    inferExprType s (.dot e f) = ((fieldTypeForExpr s e f).map (·.memberClass)).getD .word := by
  cases h : fieldTypeForExpr s e f with
  | none => simp [inferExprType, h]
  | some ty => cases ty <;> simp [inferExprType, h, Ty.memberClass]

theorem inferExprType_index (e i : Expr) :
    inferExprType s (.index e i) = ((arrayElemTypeForExpr s e).map (·.memberClass)).getD .word := by
  cases h : arrayElemTypeForExpr s e with
  | none => simp [inferExprType, h]
  | some ty => cases ty <;> simp [inferExprType, h, Ty.memberClass]

theorem inferExprType_method (e : Expr) (f : String) (args : List Expr) :
    inferExprType s (.call (.dot e f) args) = ((methodRet s e f).map (·.storage)).getD .word := by
  cases h : methodRet s e f with
  | none => simp [inferExprType, h]
  | some ty =>
      cases ty with
      | basic b => cases b <;> simp [inferExprType, h, Ty.storage]
      | _ => simp [inferExprType, h, Ty.storage]

theorem inferExprType_cast (ty : Ty) (e : Expr) : inferExprType s (.cast ty e) = ty.storage := by
  cases ty with
  | basic b => cases b <;> rfl
  | _ => rfl

theorem Looks.infer {c : ValType} {e : Expr} (h : Looks s c e) : inferExprType s e = c := by
  induction h with
  | string | nil | hd | tl | load | cons | chanAlloc | listLit | arrayAlloc | arrayLit => rfl
  | add _ ih => rw [inferExprType_add, ih, if_pos rfl]
  | var h => simp [inferExprType, h]
  | const h hv hc => simp [inferExprType, h, hv, hc]
  | assign _ ih | declAssign _ ih | compoundAssign _ ih | postInc _ ih | postDec _ ih => exact ih
  | field h hc => simp [inferExprType_dot, h, hc]
  | elem h hc => simp [inferExprType_index, h, hc]
  | moduleCall h => exact h
  | method h hc => simp [inferExprType_method, h, hc]
  | cast e hc => rw [inferExprType_cast, hc]

theorem looks_of_infer {c : ValType} (hc : c ≠ .word) :
    ∀ e : Expr, inferExprType s e = c → Looks s c e
  | .stringLit v, h => by
      cases h
      exact .string v
  | .nil, h => by
      cases h
      exact .nil
  | .hd e, h => by
      cases h
      exact .hd e
  | .tl e, h => by
      cases h
      exact .tl e
  | .load ty e, h => by
      cases h
      exact .load ty e
  | .cons e e', h => by
      cases h
      exact .cons e e'
  | .chanAlloc ty, h => by
      cases h
      exact .chanAlloc ty
  | .listLit es, h => by
      cases h
      exact .listLit es
  | .arrayAlloc n ty, h => by
      cases h
      exact .arrayAlloc n ty
  | .arrayLit n es ty, h => by
      cases h
      exact .arrayLit n es ty
  | .assign l r, h => .assign (looks_of_infer hc r h)
  | .declAssign xs r, h => .declAssign (looks_of_infer hc r h)
  | .compoundAssign l op r, h => .compoundAssign (looks_of_infer hc r h)
  | .postInc e, h => .postInc (looks_of_infer hc e h)
  | .postDec e, h => .postDec (looks_of_infer hc e h)
  | .ident x, h => by
      rw [inferExprType] at h
      split at h
      · next ty kind hx =>
          subst h
          exact .var hx
      · next hx =>
          obtain ⟨v, hv, hclass⟩ := map_getD_eq hc h
          exact .const hx hv hclass
  | .binary l op r, h => by
      cases op with
      | add =>
          rw [inferExprType_add] at h
          split at h
          · next hl =>
              subst h
              exact .add (looks_of_infer hc l hl)
          · exact absurd h.symm hc
      | _ => exact absurd h.symm hc
  | .dot e f, h => by
      rw [inferExprType_dot] at h
      obtain ⟨ty, hty, hclass⟩ := map_getD_eq hc h
      exact .field hty hclass
  | .index e i, h => by
      rw [inferExprType_index] at h
      obtain ⟨ty, hty, hclass⟩ := map_getD_eq hc h
      exact .elem hty hclass
  | .call callee args, h => by
      cases callee with
      | dot e f =>
          rw [inferExprType_method] at h
          obtain ⟨ty, hty, hclass⟩ := map_getD_eq hc h
          exact .method hty hclass
      | modQual m f =>
          cases m with
          | ident x => exact .moduleCall h
          | _ => exact absurd h.symm hc
      | _ => exact absurd h.symm hc
  | .cast ty e, h => .cast e (inferExprType_cast ty e ▸ h)
  | .intLit _, h | .realLit _, h | .charLit _, h | .unary _ _, h | .modQual _ _, h
  | .slice _ _ _, h | .tuple _, h | .recv _, h | .send _ _, h | .refAlloc _ _, h
  | .tupleDeclAssign _ _, h | .len _, h | .tagof _, h => absurd h.symm hc

theorem inferExprType_iff {c : ValType} (hc : c ≠ .word) {e : Expr} :
    inferExprType s e = c ↔ Looks s c e :=
  ⟨looks_of_infer hc e, Looks.infer⟩

/-! ### Widths -/

theorem NumKind.max_choice (a b : NumKind) : a.max b = a ∨ a.max b = b := by
  cases a <;> cases b <;> simp [NumKind.max]

theorem inferNumKind_binary {op : BinOp} (hop : op.isArithmetic = true) (l r : Expr) :
    inferNumKind s (.binary l op r) = (inferNumKind s l).max (inferNumKind s r) := by
  cases op <;> first | rfl | cases hop

/-- An operand is at least as wide as anything seen in it. -/
theorem Shows.le {k : NumKind} {e : Expr} (h : Shows s k e) :
    k.max (inferNumKind s e) = inferNumKind s e := by
  have hself (k : NumKind) : k.max k = k := by cases k <;> rfl
  induction h with
  | int h hk => simp [inferNumKind, h, hk, hself]
  | real hk => simp [inferNumKind, hk, hself]
  | var h => simp [inferNumKind, h, hself]
  | const h hv hk => simp [inferNumKind, h, hv, hk, hself]
  | assign _ ih | declAssign _ ih | compoundAssign _ ih | postInc _ ih | postDec _ ih
  | unary _ ih => exact ih
  | cast e hty => simp [inferNumKind, hty, hself]
  | @left l r op hop _ ih =>
      rw [inferNumKind_binary hop]
      cases k <;> cases hl : inferNumKind s l <;> cases inferNumKind s r <;>
        first | rfl | simp [hl, NumKind.max] at ih
  | @right l r op hop _ ih =>
      rw [inferNumKind_binary hop]
      cases k <;> cases inferNumKind s l <;> cases hr : inferNumKind s r <;>
        first | rfl | simp [hr, NumKind.max] at ih
  | call h => simp [inferNumKind, h, hself]
  | moduleCall h => simp [inferNumKind, h, hself]
  | method h hty => simp [inferNumKind, h, hty, hself]
  | elem h hb => simp [inferNumKind, h, hb, hself]
  | recv h hty => simp [inferNumKind, h, hty, hself]
  | field h hty => simp [inferNumKind, h, hty, hself]

theorem shows_of_infer {k : NumKind} (hk : k ≠ .word) :
    ∀ e : Expr, inferNumKind s e = k → Shows s k e
  | .intLit v, h => by
      rw [inferNumKind] at h
      split at h
      · next hv => exact .int hv h.symm
      · exact absurd h.symm hk
  | .realLit bits, h => .real h.symm
  | .ident x, h => by
      rw [inferNumKind] at h
      split at h
      · next ty kind hx =>
          subst h
          exact .var hx
      · next hx =>
          obtain ⟨v, hv, hkind⟩ := map_getD_eq hk h
          exact .const hx hv hkind
  | .assign l r, h => .assign (shows_of_infer hk r h)
  | .declAssign xs r, h => .declAssign (shows_of_infer hk r h)
  | .compoundAssign l op r, h => .compoundAssign (shows_of_infer hk r h)
  | .postInc e, h => .postInc (shows_of_infer hk e h)
  | .postDec e, h => .postDec (shows_of_infer hk e h)
  | .cast ty e, h => .cast e h
  | .unary op e, h => .unary (shows_of_infer hk e h)
  | .binary l op r, h => by
      by_cases hop : op.isArithmetic = true
      · rw [inferNumKind_binary hop] at h
        rcases NumKind.max_choice (inferNumKind s l) (inferNumKind s r) with hl | hr
        · exact .left hop (shows_of_infer hk l (hl.symm.trans h))
        · exact .right hop (shows_of_infer hk r (hr.symm.trans h))
      · cases op <;> first | exact absurd h.symm hk | exact absurd rfl hop
  | .call callee args, h => by
      cases callee with
      | ident f =>
          obtain ⟨entry, hf, rfl⟩ := map_getD_eq hk h
          exact .call hf
      | dot e f =>
          obtain ⟨ty, hm, hkind⟩ := map_getD_eq hk h
          exact .method hm hkind
      | modQual m f =>
          cases m with
          | ident x => exact .moduleCall h
          | _ => exact absurd h.symm hk
      | _ => exact absurd h.symm hk
  | .index e i, h => by
      obtain ⟨b, hb, hkind⟩ := map_getD_eq hk h
      exact .elem hb hkind
  | .recv chan, h => by
      cases chan with
      | ident x =>
          obtain ⟨ty, hx, hkind⟩ := map_getD_eq hk h
          exact .recv hx hkind
      | _ => exact absurd h.symm hk
  | .dot e f, h => by
      obtain ⟨ty, hf, hkind⟩ := map_getD_eq hk h
      exact .field hf hkind
  | .stringLit _, h | .nil, h | .charLit _, h | .modQual _ _, h | .slice _ _ _, h | .tuple _, h
  | .cons _ _, h | .send _ _, h | .load _ _, h | .arrayAlloc _ _, h | .arrayLit _ _ _, h
  | .chanAlloc _, h | .listLit _, h | .refAlloc _ _, h | .tupleDeclAssign _ _, h | .hd _, h
  | .tl _, h | .len _, h | .tagof _, h => absurd h.symm hk

/-- The width an operand is taken to have: the widest seen in it, or else a word. -/
def WidthIs (s : Scope) (e : Expr) : NumKind → Prop
  | .real => Shows s .real e
  | .big => Shows s .big e ∧ ¬ Shows s .real e
  | .word => ¬ Shows s .big e ∧ ¬ Shows s .real e

theorem inferNumKind_iff {k : NumKind} {e : Expr} : inferNumKind s e = k ↔ WidthIs s e k := by
  have hbig : Shows s .big e → inferNumKind s e ≠ .word := fun h heq => by
    have := h.le
    rw [heq] at this
    cases this
  have hreal : Shows s .real e → inferNumKind s e = .real := fun h => by
    have := h.le
    cases hk : inferNumKind s e <;> rw [hk] at this <;> first | rfl | cases this
  cases k with
  | real => exact ⟨shows_of_infer (by simp) e, hreal⟩
  | big =>
      constructor
      · intro h
        refine ⟨shows_of_infer (by simp) e h, fun hr => ?_⟩
        rw [hreal hr] at h
        cases h
      · rintro ⟨hb, hr⟩
        cases hk : inferNumKind s e with
        | word => exact absurd hk (hbig hb)
        | big => rfl
        | real => exact absurd (shows_of_infer (by simp) e hk) hr
  | word =>
      constructor
      · intro h
        refine ⟨fun hb => hbig hb h, fun hr => ?_⟩
        rw [hreal hr] at h
        cases h
      · rintro ⟨hb, hr⟩
        cases hk : inferNumKind s e with
        | word => rfl
        | big => exact absurd (shows_of_infer (by simp) e hk) hb
        | real => exact absurd (shows_of_infer (by simp) e hk) hr

end RiceVM.Limbo
