import RiceVM.Limbo.Printing

/-!
What each branch of the expression parser reads, once the parts of the branch are read.
-/
namespace RiceVM.Limbo.Syntax

open Exec

@[simp] theorem ahead_zero_cons (t : TokenKind) (ts : List TokenKind) : ahead 0 (t :: ts) = t := rfl

@[simp] theorem peek_cons (t : TokenKind) (ts : List TokenKind) :
    peek (t :: ts) = .ok t (t :: ts) := rfl

@[simp] theorem at_apply (kind : TokenKind) (ts : List TokenKind) :
    at_ kind ts = .ok ((ahead 0 ts).sameKind kind) ts := rfl

section prefixes

variable {ts rest : List TokenKind} {e : Expr}

/-- An atom is read by itself. -/
theorem parsePrefix_atom {t : TokenKind} (h : ∀ n, parsePrefix (n + 1) (t :: ts) = .ok e ts) :
    Returns parsePrefix (t :: ts) e ts :=
  Returns.step (k := fun _ => pure e) h (.of_eq fun _ => rfl)

/-- A prefix operator reads its operand above every infix operator. -/
theorem parsePrefix_operator {t : TokenKind} (wrap : Expr → Expr)
    (h : ∀ n, parsePrefix (n + 1) (t :: ts) =
      (do return wrap (← parseExprBp n unaryBp)) ts)
    (hoperand : Returns (parseExprBp · unaryBp) ts e rest) :
    Returns parsePrefix (t :: ts) (wrap e) rest :=
  .step h (.map hoperand rfl)

theorem parsePrefix_paren (h : Returns (parseExprBp · 0) ts e (.rparen :: rest)) :
    Returns parsePrefix (.lparen :: ts) e rest :=
  .step (fun _ => rfl) (h.bind (.of_eq fun _ => rfl))

theorem parsePrefix_tuple {elems : List Expr} {rest' : List TokenKind}
    (h : Returns (parseExprBp · 0) ts e (.comma :: rest))
    (helems : Returns parseTupleRest (.comma :: rest) elems (.rparen :: rest')) :
    Returns parsePrefix (.lparen :: ts) (.tuple (e :: elems)) rest' :=
  .step (fun _ => rfl) (h.bind (.congr (fun _ => rfl) (helems.map rfl)))

theorem parsePrefix_cast {t : TokenKind} (b : BasicType)
    (h : ∀ n ts, parsePrefix (n + 1) (b.token :: ts) = parseCast n b ts)
    (ht : endsTypeName t = false)
    (hoperand : Returns (parseExprBp · unaryBp) (t :: ts) e rest) :
    Returns parsePrefix (b.token :: t :: ts) (.cast (.basic b) e) rest := by
  refine .step (fun n => h n _) (.step (k := fun n => do
    return .cast (.basic b) (← parseExprBp n unaryBp)) (fun n => ?_) (hoperand.map rfl))
  rw [parseCast, bind_apply, peek_cons]
  simp only [ht, Bool.false_eq_true, if_false]

theorem parsePrefix_arrayCast {ty : Ty} {mid : List TokenKind}
    (hty : Returns parseType ts ty mid)
    (hoperand : Returns (parseExprBp · unaryBp) mid e rest) :
    Returns parsePrefix (.array :: .of :: ts) (.cast (.array ty) e) rest :=
  .step (fun _ => rfl) (hty.bind (hoperand.map rfl))

end prefixes

section lists

variable {ts mid rest : List TokenKind} {e : Expr} {es : List Expr}

theorem parseTupleRest_end : Returns parseTupleRest (.comma :: .rparen :: ts) [] (.rparen :: ts) :=
  .step (k := fun _ => pure []) (fun _ => rfl) (.of_eq fun _ => rfl)

theorem parseTupleRest_stop :
    Returns parseTupleRest (.rparen :: ts) [] (.rparen :: ts) :=
  .step (k := fun _ => pure []) (fun _ => rfl) (.of_eq fun _ => rfl)

theorem parseTupleRest_cons {t : TokenKind} (ht : t.sameKind .rparen = false)
    (h : Returns (parseExprBp · 0) (t :: ts) e mid) (hrest : Returns parseTupleRest mid es rest) :
    Returns parseTupleRest (.comma :: t :: ts) (e :: es) rest := by
  refine .step (k := fun n => do
    let elem ← parseExprBp n 0
    return elem :: (← parseTupleRest n)) (fun n => ?_) (h.bind (hrest.map rfl))
  exact congrFun (if_neg (ne_true_of_eq_false ht)) _

/-- The tokens at which an expression list ends. -/
def endsList (t : TokenKind) : Bool :=
  t.sameKind .rparen || t.sameKind .rbracket || t.sameKind .rbrace

/-- The tokens that qualify an initialiser. -/
def qualifies (t : TokenKind) : Bool :=
  t.sameKind .fatArrow || (t.sameKind .or || t.sameKind .to)

theorem parseInitExpr_of {t : TokenKind} (ht : qualifies t = false)
    (h : Returns (parseExprBp · 0) ts e (t :: rest)) : Returns parseInitExpr ts e (t :: rest) := by
  refine .step (fun n => rfl) (h.bind (.step (k := fun _ => pure e) (fun n => ?_)
    (.of_eq fun _ => rfl)))
  obtain ⟨harrow, hor⟩ : t.sameKind .fatArrow = false ∧
      (t.sameKind .or || t.sameKind .to) = false := by
    simpa only [qualifies, Bool.or_eq_false_iff] using ht
  exact (congrFun (if_neg (ne_true_of_eq_false harrow)) _).trans
    (congrFun (if_neg (ne_true_of_eq_false hor)) _)

theorem parseExprListRest_stop {t : TokenKind} (ht : t.sameKind .comma = false) :
    Returns parseExprListRest (t :: ts) [] (t :: ts) :=
  .step (k := fun _ => pure []) (fun _ => congrFun (if_neg (ne_true_of_eq_false ht)) _)
    (.of_eq fun _ => rfl)

theorem parseExprListRest_cons {t : TokenKind} (ht : endsList t = false)
    (h : Returns parseInitExpr (t :: ts) e mid) (hrest : Returns parseExprListRest mid es rest) :
    Returns parseExprListRest (.comma :: t :: ts) (e :: es) rest := by
  refine .step (k := fun n => do
    let expr ← parseInitExpr n
    return expr :: (← parseExprListRest n)) (fun n => ?_) (h.bind (hrest.map rfl))
  exact congrFun (if_neg (ne_true_of_eq_false ht)) _

theorem parseExprList_nil {t : TokenKind} (ht : endsList t = true) :
    Returns parseExprList (t :: ts) [] (t :: ts) :=
  .step (k := fun _ => pure []) (fun _ => congrFun (if_pos ht) _) (.of_eq fun _ => rfl)

theorem parseExprList_cons {t : TokenKind} (ht : endsList t = false)
    (h : Returns parseInitExpr (t :: ts) e mid) (hrest : Returns parseExprListRest mid es rest) :
    Returns parseExprList (t :: ts) (e :: es) rest := by
  refine .step (k := fun n => do
    let expr ← parseInitExpr n
    return expr :: (← parseExprListRest n)) (fun n => ?_) (h.bind (hrest.map rfl))
  exact congrFun (if_neg (ne_true_of_eq_false ht)) _

end lists

section subscripts

variable {ts mid rest : List TokenKind} {lhs e : Expr} {hi : Option Expr}

theorem parseBound_none : Returns parseBound (.rbracket :: ts) none (.rbracket :: ts) :=
  .step (k := fun _ => pure none) (fun _ => rfl) (.of_eq fun _ => rfl)

theorem parseBound_some {t : TokenKind} (ht : t.sameKind .rbracket = false)
    (h : Returns (parseExprBp · 0) (t :: ts) e rest) :
    Returns parseBound (t :: ts) (some e) rest :=
  .step (k := fun n => do return some (← parseExprBp n 0))
    (fun _ => congrFun (if_neg (ne_true_of_eq_false ht)) _) (h.map rfl)

theorem parseSubscript_to (h : Returns parseBound ts hi (.rbracket :: rest)) :
    Returns (parseSubscript · lhs) (.colon :: ts) (.slice lhs none hi) rest :=
  .step (fun _ => rfl) (h.map rfl)

theorem parseSubscript_from {t : TokenKind} (ht : t.sameKind .colon = false)
    (hlo : Returns (parseExprBp · 0) (t :: ts) e (.colon :: mid))
    (hhi : Returns parseBound mid hi (.rbracket :: rest)) :
    Returns (parseSubscript · lhs) (t :: ts) (.slice lhs (some e) hi) rest :=
  .step (fun _ => congrFun (if_neg (ne_true_of_eq_false ht)) _)
    (hlo.bind (.congr (fun _ => rfl) (hhi.map rfl)))

theorem parseSubscript_index {t : TokenKind} (ht : t.sameKind .colon = false)
    (h : Returns (parseExprBp · 0) (t :: ts) e (.rbracket :: rest)) :
    Returns (parseSubscript · lhs) (t :: ts) (.index lhs e) rest :=
  .step (fun _ => congrFun (if_neg (ne_true_of_eq_false ht)) _) (h.bind (.of_eq fun _ => rfl))

end subscripts

section operators

variable {m : Nat} {ts mid rest : List TokenKind} {lhs rhs out : Expr}

theorem parseExprBp_of {e : Expr} (hfirst : Returns parsePrefix ts e mid)
    (h : Returns (parseOperators · m e) mid out rest) : Returns (parseExprBp · m) ts out rest :=
  .step (fun _ => rfl) (hfirst.bind h)

theorem parseOperators_call {args : List Expr}
    (hargs : Returns parseExprList ts args (.rparen :: mid))
    (h : Returns (parseOperators · m (.call lhs args)) mid out rest) :
    Returns (parseOperators · m lhs) (.lparen :: ts) out rest :=
  .step (fun _ => rfl) (hargs.bind (.congr (fun _ => rfl) h))

theorem parseOperators_dot {member : String}
    (h : Returns (parseOperators · m (.dot lhs member)) ts out rest) :
    Returns (parseOperators · m lhs) (.dot :: .ident member :: ts) out rest :=
  .step (fun _ => rfl) h

theorem parseOperators_modQual {member : String}
    (h : Returns (parseOperators · m (.modQual lhs member)) ts out rest) :
    Returns (parseOperators · m lhs) (.arrow :: .ident member :: ts) out rest :=
  .step (fun _ => rfl) h

theorem parseOperators_subscript {e : Expr} (he : Returns (parseSubscript · lhs) ts e mid)
    (h : Returns (parseOperators · m e) mid out rest) :
    Returns (parseOperators · m lhs) (.lbracket :: ts) out rest :=
  .step (fun _ => rfl) (he.bind h)

theorem parseOperators_inc (h : Returns (parseOperators · m (.postInc lhs)) ts out rest) :
    Returns (parseOperators · m lhs) (.inc :: ts) out rest :=
  .step (fun _ => rfl) h

theorem parseOperators_dec (h : Returns (parseOperators · m (.postDec lhs)) ts out rest) :
    Returns (parseOperators · m lhs) (.dec :: ts) out rest :=
  .step (fun _ => rfl) h

/-- The left binding power of an infix operator, by its precedence. -/
def leftBp (prec : Nat) : Nat := if prec = 12 then 26 else 2 * prec + 1

/-- The binding power at which the right operand of an operator is read. -/
def rightBp (prec : Nat) : Nat :=
  if prec = prefixPrec then unaryBp else if rightAssoc prec then 2 * prec + 1 else 2 * prec + 2

theorem parseOperators_binOp (op : BinOp) (hm : m ≤ leftBp op.prec)
    (hrhs : Returns (parseExprBp · (rightBp op.prec)) ts rhs mid)
    (h : Returns (parseOperators · m (.binary lhs op rhs)) mid out rest) :
    Returns (parseOperators · m lhs) (op.token :: ts) out rest := by
  refine .step (k := fun n => do
    let rhs ← parseExprBp n (rightBp op.prec)
    parseOperators n m (.binary lhs op rhs)) (fun n => ?_) (hrhs.bind h)
  cases op <;> exact congrFun (if_neg (Nat.not_lt.mpr hm)) _

theorem parseOperators_assign (hm : m ≤ 1) (hrhs : Returns (parseExprBp · 1) ts rhs mid)
    (h : Returns (parseOperators · m (.assign lhs rhs)) mid out rest) :
    Returns (parseOperators · m lhs) (.assign :: ts) out rest :=
  .step (fun _ => congrFun (if_neg (Nat.not_lt.mpr hm)) _) (hrhs.bind h)

theorem parseOperators_compoundAssign {op : BinOp} {t : TokenKind} (ht : op.assignToken = some t)
    (hm : m ≤ 1) (hrhs : Returns (parseExprBp · 1) ts rhs mid)
    (h : Returns (parseOperators · m (.compoundAssign lhs op rhs)) mid out rest) :
    Returns (parseOperators · m lhs) (t :: ts) out rest := by
  refine .step (k := fun n => do
    let rhs ← parseExprBp n 1
    parseOperators n m (.compoundAssign lhs op rhs)) (fun n => ?_) (hrhs.bind h)
  cases op <;> cases ht <;> exact congrFun (if_neg (Nat.not_lt.mpr hm)) _

theorem parseOperators_declAssign {name : String} (hm : m ≤ 1)
    (hrhs : Returns (parseExprBp · 1) ts rhs mid)
    (h : Returns (parseOperators · m (.declAssign [name] rhs)) mid out rest) :
    Returns (parseOperators · m (.ident name)) (.colonEq :: ts) out rest :=
  .step (fun _ => congrFun (if_neg (Nat.not_lt.mpr hm)) _) (hrhs.bind h)

theorem parseOperators_tupleDeclAssign {elems : List Expr} {names : List String} (hm : m ≤ 1)
    (helems : elems.mapM declaredName = some names)
    (hrhs : Returns (parseExprBp · 1) ts rhs mid)
    (h : Returns (parseOperators · m (.tupleDeclAssign names rhs)) mid out rest) :
    Returns (parseOperators · m (.tuple elems)) (.colonEq :: ts) out rest := by
  have hassign (rhs : Expr) : assignment (.tuple elems) rhs .decl =
      .ok (.tupleDeclAssign names rhs) := by
    simp only [assignment, helems]
  refine .step (k := fun n => do
    let rhs ← parseExprBp n 1
    parseOperators n m (← ofExcept (assignment (.tuple elems) rhs .decl)))
    (fun _ => congrFun (if_neg (Nat.not_lt.mpr hm)) _) (hrhs.bind (.congr (fun n => ?_) h))
  rw [hassign]
  rfl

theorem parseOperators_send (hm : m ≤ 1) (hrhs : Returns (parseExprBp · 1) ts rhs mid)
    (h : Returns (parseOperators · m (.send lhs rhs)) mid out rest) :
    Returns (parseOperators · m lhs) (.chanSend :: ts) out rest :=
  .step (fun _ => congrFun (if_neg (Nat.not_lt.mpr hm)) _) (hrhs.bind h)

theorem parseOperators_cons (hm : m ≤ consBp) (hrhs : Returns (parseExprBp · consBp) ts rhs mid)
    (h : Returns (parseOperators · m (.cons lhs rhs)) mid out rest) :
    Returns (parseOperators · m lhs) (.colonColon :: ts) out rest :=
  .step (fun _ => congrFun (if_neg (Nat.not_lt.mpr hm)) _) (hrhs.bind h)

/-! ### Where an expression stops -/

/-- No operator at the head of `ts` is taken at `m`, nor at any tighter binding power. -/
def StopsAt (m : Nat) (ts : List TokenKind) : Prop :=
  ∀ m', m ≤ m' → ∀ lhs, Returns (parseOperators · m' lhs) ts lhs ts

theorem StopsAt.mono {m' : Nat} (h : StopsAt m ts) (hm : m ≤ m') : StopsAt m' ts :=
  fun _ hm' => h _ (Nat.le_trans hm hm')

theorem stopsAt_of
    (hstop : ∀ m', m ≤ m' → ∀ n lhs, parseOperators (n + 1) m' lhs ts = .ok lhs ts) :
    StopsAt m ts := fun m' hm lhs =>
  .step (k := fun _ => pure lhs) (fun n => hstop m' hm n lhs) (.of_eq fun _ => rfl)

theorem stopsAt_binOp (op : BinOp) (hm : leftBp op.prec < m) : StopsAt m (op.token :: ts) :=
  stopsAt_of fun _ hm' _ _ => by
    have hlt := Nat.lt_of_lt_of_le hm hm'
    cases op <;> exact congrFun (if_pos hlt) _

theorem stopsAt_cons (hm : consBp < m) : StopsAt m (.colonColon :: ts) :=
  stopsAt_of fun _ hm' _ _ => congrFun (if_pos (Nat.lt_of_lt_of_le hm hm')) _

theorem stopsAt_assign (hm : 1 < m) : StopsAt m (.assign :: ts) :=
  stopsAt_of fun _ hm' _ _ => congrFun (if_pos (Nat.lt_of_lt_of_le hm hm')) _

theorem stopsAt_colonEq (hm : 1 < m) : StopsAt m (.colonEq :: ts) :=
  stopsAt_of fun _ hm' _ _ => congrFun (if_pos (Nat.lt_of_lt_of_le hm hm')) _

theorem stopsAt_compoundAssign {op : BinOp} {t : TokenKind} (ht : op.assignToken = some t)
    (hm : 1 < m) : StopsAt m (t :: ts) :=
  stopsAt_of fun _ hm' _ _ => by
    have hlt := Nat.lt_of_lt_of_le hm hm'
    cases op <;> cases ht <;> exact congrFun (if_pos hlt) _

theorem stopsAt_send (hm : 1 < m) : StopsAt m (.chanSend :: ts) :=
  stopsAt_of fun _ hm' _ _ => congrFun (if_pos (Nat.lt_of_lt_of_le hm hm')) _

/-- The operators that go on an expression: infix, assignment and postfix. -/
def operatorTokens : List TokenKind :=
  [.orOr, .andAnd, .colonColon, .pipe, .caret, .amp, .eq, .neq, .lt, .gt, .leq, .geq, .lshift,
    .rshift, .plus, .minus, .star, .slash, .percent, .power, .assign, .colonEq, .plusEq, .minusEq,
    .starEq, .slashEq, .percentEq, .ampEq, .pipeEq, .caretEq, .lshiftEq, .rshiftEq, .chanSend,
    .lparen, .dot, .arrow, .lbracket, .inc, .dec]

/-- Do the tokens go on an expression? A send may be spelled with a space, `<- =`. -/
def continues : List TokenKind → Bool
  | .chanRecv :: .assign :: _ => true
  | t :: _ => t ∈ operatorTokens
  | [] => false

theorem stopsAt_of_continues (h : continues ts = false) : StopsAt m ts := by
  refine stopsAt_of fun m' _ n lhs => ?_
  cases ts with
  | nil => rfl
  | cons t ts =>
      cases t
      case chanRecv =>
        cases ts with
        | nil => rfl
        | cons t ts => cases t <;> first | rfl | exact absurd h (by simp [continues])
      all_goals first | rfl | exact absurd h (by simp [continues, operatorTokens])

end operators

end RiceVM.Limbo.Syntax
