import RiceVM.Limbo.ParseRules

/-!
The expression parser reads back what is printed. An operand read at some binding power hands its
operand on to the loop over operators, so the induction is on trees and its statement about that
loop.
-/
namespace RiceVM.Limbo.Syntax

open Exec

/-! ### Types -/

/-- The types a cast may name. -/
inductive Ty.Castable : Ty → Prop
  | basic (b : BasicType) : Castable (.basic b)
  | array {elem : Ty} : Castable elem → Castable (.array elem)
  | list {elem : Ty} : Castable elem → Castable (.list elem)
  | chan {elem : Ty} : Castable elem → Castable (.chan elem)
  | ref {target : Ty} : Castable target → Castable (.ref target)
  | tuple {first second : Ty} {fields : List Ty} : Castable first → Castable second →
      (∀ field ∈ fields, Castable field) → Castable (.tuple (first :: second :: fields))
  | named (name : QualName) : Castable (.named name)

/-- No token at the head of `ts` goes on a type's name. -/
structure TypeEnds (ts : List TokenKind) : Prop where
  lbracket : (ahead 0 ts).sameKind .lbracket = false
  arrow : (ahead 0 ts).sameKind .arrow = false
  dot : (ahead 0 ts).sameKind .dot = false

theorem skipTypeParams_of {ts : List TokenKind} (h : TypeEnds ts) :
    skipTypeParams ts = .ok () ts := by
  rw [skipTypeParams, bind_apply, at_apply]
  exact congrFun (if_neg (ne_true_of_eq_false h.lbracket)) _

theorem parseType_named (name : QualName) {ts : List TokenKind} (h : TypeEnds ts) :
    Returns parseType (printType (.named name) ++ ts) (.named name) ts := by
  obtain ⟨_ | qualifier, name⟩ := name
  · refine .step (k := fun _ => pure (.named ⟨none, name⟩)) (fun n => ?_) (.of_eq fun _ => rfl)
    show ((skipTypeParams >>= fun _ => _) : Parser Ty) ts = _
    rw [bind_ok (skipTypeParams_of h)]
    simp only [bind_apply, at_apply, h.arrow, h.dot, pure_apply, Bool.or_self,
      Bool.false_eq_true, if_false]
  · refine .step (k := fun _ => pure (.named ⟨some qualifier, name⟩)) (fun n => ?_)
      (.of_eq fun _ => rfl)
    show ((skipTypeParams >>= fun _ => _) : Parser Ty) ts = _
    rw [bind_ok (skipTypeParams_of h)]

theorem parseTypes_stop {ts : List TokenKind} :
    Returns parseTypes (.rparen :: ts) [] (.rparen :: ts) :=
  .step (k := fun _ => pure []) (fun _ => rfl) (.of_eq fun _ => rfl)

theorem parseTypes_cons {ts mid rest : List TokenKind} {ty : Ty} {tys : List Ty}
    (h : Returns parseType ts ty mid) (htypes : Returns parseTypes mid tys rest) :
    Returns parseTypes (.comma :: ts) (ty :: tys) rest :=
  .step (fun _ => rfl) (h.bind (htypes.map rfl))

theorem parseType_tuple {ts mid rest : List TokenKind} {ty : Ty} {tys : List Ty}
    (h : Returns parseType ts ty (.comma :: mid))
    (htypes : Returns parseTypes (.comma :: mid) tys (.rparen :: rest)) :
    Returns parseType (.lparen :: ts) (.tuple (ty :: tys)) rest :=
  .step (fun _ => rfl) (h.bind (.congr (fun _ => rfl) (htypes.map rfl)))

theorem parseType_basic (b : BasicType) (ts : List TokenKind) :
    Returns parseType (b.token :: ts) (.basic b) ts :=
  .step (k := fun _ => pure (.basic b)) (fun _ => by cases b <;> rfl) (.of_eq fun _ => rfl)

theorem parseTypes_print {tys : List Ty} (ts : List TokenKind) (hne : tys ≠ [])
    (htypes : ∀ ty ∈ tys, ∀ ts, TypeEnds ts → Returns parseType (printType ty ++ ts) ty ts) :
    Returns parseTypes (.comma :: (printTypes tys ++ .rparen :: ts)) tys (.rparen :: ts) := by
  induction tys with
  | nil => exact absurd rfl hne
  | cons ty tys ih =>
      have hty := htypes ty List.mem_cons_self
      cases tys with
      | nil => exact parseTypes_cons (hty _ ⟨rfl, rfl, rfl⟩) parseTypes_stop
      | cons next tys =>
          have htail := ih (List.cons_ne_nil _ _)
            (fun ty hmem => htypes ty (List.mem_cons_of_mem _ hmem))
          simp only [printTypes, List.append_assoc, List.cons_append]
          exact parseTypes_cons (hty _ ⟨rfl, rfl, rfl⟩) htail

/-- A castable type is read back, whatever follows it that cannot go on its name. -/
theorem parseType_print {ty : Ty} (hty : ty.Castable) :
    ∀ ts, TypeEnds ts → Returns parseType (printType ty ++ ts) ty ts := by
  induction hty with
  | basic b => intro ts _; exact parseType_basic b ts
  | array _ ih | list _ ih | chan _ ih | ref _ ih =>
      intro ts hts
      exact .step (fun _ => rfl) ((ih ts hts).map rfl)
  | named name => intro ts hts; exact parseType_named name hts
  | @tuple first second fields _ _ _ ihFirst ihSecond ih =>
      intro ts _
      have hfields := parseTypes_print ts (List.cons_ne_nil second fields) fun ty hmem => by
        cases hmem with
        | head => exact ihSecond
        | tail _ hmem => exact ih ty hmem
      simp only [printType, printTypes, List.append_assoc, List.cons_append, List.nil_append]
      exact parseType_tuple (ihFirst _ ⟨rfl, rfl, rfl⟩) hfields

/-! ### Expressions -/

/-- The expressions over the infix, assignment, send, prefix and postfix operators. -/
inductive Operators : Expr → Prop
  | intLit (v : Big) : Operators (.intLit v)
  | realLit (bits : Big) : Operators (.realLit bits)
  | stringLit (s : String) : Operators (.stringLit s)
  | charLit (v : Word) : Operators (.charLit v)
  | nil : Operators .nil
  | ident (name : String) : Operators (.ident name)
  | tuple {elem : Expr} {elems : List Expr} : Operators elem → (∀ e ∈ elems, Operators e) →
      Operators (.tuple (elem :: elems))
  | binary {lhs rhs : Expr} (op : BinOp) : Operators lhs → Operators rhs →
      Operators (.binary lhs op rhs)
  | cons {head tail : Expr} : Operators head → Operators tail → Operators (.cons head tail)
  | assign {lhs rhs : Expr} : Operators lhs → Operators rhs → Operators (.assign lhs rhs)
  | compoundAssign {lhs rhs : Expr} {op : BinOp} {t : TokenKind} : op.assignToken = some t →
      Operators lhs → Operators rhs → Operators (.compoundAssign lhs op rhs)
  | declAssign {rhs : Expr} (name : String) : Operators rhs → Operators (.declAssign [name] rhs)
  | tupleDeclAssign {rhs : Expr} (name : String) (names : List String) : Operators rhs →
      Operators (.tupleDeclAssign (name :: names) rhs)
  | send {chan value : Expr} : Operators chan → Operators value → Operators (.send chan value)
  | unary {inner : Expr} (op : UnaryOp) : Operators inner → Operators (.unary op inner)
  | hd {inner : Expr} : Operators inner → Operators (.hd inner)
  | tl {inner : Expr} : Operators inner → Operators (.tl inner)
  | len {inner : Expr} : Operators inner → Operators (.len inner)
  | tagof {inner : Expr} : Operators inner → Operators (.tagof inner)
  | recv {chan : Expr} : Operators chan → Operators (.recv chan)
  | cast {inner : Expr} (b : BasicType) : Operators inner → Operators (.cast (.basic b) inner)
  | arrayCast {inner : Expr} {elem : Ty} : elem.Castable → Operators inner →
      Operators (.cast (.array elem) inner)
  | call {callee : Expr} {args : List Expr} : Operators callee → (∀ e ∈ args, Operators e) →
      Operators (.call callee args)
  | dot {inner : Expr} (member : String) : Operators inner → Operators (.dot inner member)
  | modQual {module : Expr} (member : String) : Operators module →
      Operators (.modQual module member)
  | index {arr idx : Expr} : Operators arr → Operators idx → Operators (.index arr idx)
  | slice {arr : Expr} {lo hi : Option Expr} : Operators arr → (∀ e ∈ lo, Operators e) →
      (∀ e ∈ hi, Operators e) → Operators (.slice arr lo hi)
  | postInc {inner : Expr} : Operators inner → Operators (.postInc inner)
  | postDec {inner : Expr} : Operators inner → Operators (.postDec inner)

/-- The tokens a printed expression may start with. -/
def starts : TokenKind → Bool
  | .intLit _ | .realLit _ | .stringLit _ | .charLit _ | .nil | .ident _ | .lparen | .minus
  | .bang | .tilde | .ref | .hd | .tl | .len | .tagof | .chanRecv | .int | .byte | .big | .real
  | .string_ | .array => true
  | _ => false

/-- No expression starts with a token that ends a list, a bound, a type or a type's name. -/
theorem starts_spec {t : TokenKind} (h : starts t = true) :
    endsTypeName t = false ∧ endsList t = false ∧ t.sameKind .rparen = false ∧
      t.sameKind .rbracket = false ∧ t.sameKind .colon = false ∧ TypeEnds [t] := by
  cases t <;> first | exact ⟨rfl, rfl, rfl, rfl, rfl, rfl, rfl, rfl⟩ | cases h

/-- The first token of what is printed. -/
def StartsWell (ts : List TokenKind) : Prop := ∃ t rest, ts = t :: rest ∧ starts t = true

theorem StartsWell.append {ts : List TokenKind} (h : StartsWell ts) (more : List TokenKind) :
    StartsWell (ts ++ more) := by
  obtain ⟨t, rest, rfl, ht⟩ := h
  exact ⟨t, rest ++ more, rfl, ht⟩

theorem StartsWell.paren {ts : List TokenKind} (h : StartsWell ts) (prec : Nat) (e : Expr) :
    StartsWell (paren prec e ts) := by
  rw [Syntax.paren]
  split
  · exact ⟨.lparen, _, rfl, rfl⟩
  · exact h

theorem startsWell_print {e : Expr} (he : Operators e) : StartsWell (print e) := by
  induction he with
  | intLit | realLit | stringLit | charLit | nil | ident => exact ⟨_, _, rfl, rfl⟩
  | tuple _ _ _ _ => exact ⟨.lparen, _, rfl, rfl⟩
  | tupleDeclAssign name names _ _ => exact ⟨.lparen, _, rfl, rfl⟩
  | declAssign name _ _ => exact ⟨.ident name, _, rfl, rfl⟩
  | unary op _ _ => exact ⟨op.token, _, rfl, by cases op <;> rfl⟩
  | hd | tl | len | tagof | recv => exact ⟨_, _, rfl, rfl⟩
  | cast b _ _ => exact ⟨b.token, _, rfl, by cases b <;> rfl⟩
  | arrayCast _ _ _ => exact ⟨.array, _, rfl, rfl⟩
  | binary op _ _ ih _ => exact (ih.paren _ _).append _
  | cons _ _ ih _ | assign _ _ ih _ | send _ _ ih _ => exact (ih.paren _ _).append _
  | compoundAssign _ _ _ ih _ => exact ((ih.paren _ _).append _).append _
  | dot _ _ ih | modQual _ _ ih | postInc _ ih | postDec _ ih => exact (ih.paren _ _).append _
  | call _ _ ih _ | index _ _ ih _ => exact ((ih.paren _ _).append _).append _
  | slice _ _ _ ih _ _ => exact (((ih.paren _ _).append _).append _).append _

theorem prec_binOp_le (op : BinOp) : op.prec ≤ 12 := by cases op <;> decide

theorem Expr.prec_le (e : Expr) : e.prec ≤ postfixPrec := by
  cases e with
  | binary lhs op rhs => exact Nat.le_trans (prec_binOp_le op) (by decide)
  | _ => simp only [Expr.prec, prefixPrec, postfixPrec]; decide

theorem Expr.prec_eq_of_le {e : Expr} (h : prefixPrec ≤ e.prec) :
    e.prec = prefixPrec ∨ e.prec = postfixPrec := by
  have := e.prec_le
  unfold prefixPrec postfixPrec at *
  omega

/-! An infix operator's binding powers lie between those of its neighbours in precedence. -/

section powers

variable {prec : Nat}

theorem le_leftPrec : prec ≤ leftPrec prec := by
  unfold leftPrec
  split <;> omega

theorem le_leftBp : 2 * prec + 1 ≤ leftBp prec := by
  unfold leftBp
  split <;> omega

theorem rightBp_le (h : prec ≤ 12) : rightBp prec ≤ 2 * rightPrec prec + 1 := by
  unfold rightBp rightPrec prefixPrec
  split <;> split <;> omega

theorem leftBp_lt_rightBp : ∀ prec ≤ 12, ∀ other ≤ 13, leftPrec prec ≤ other →
    leftBp prec < rightBp other := by decide

theorem rightBp_mono : ∀ prec ≤ 12, ∀ other ≤ 13, rightPrec prec ≤ other →
    rightBp prec ≤ rightBp other := by decide

end powers

/-- What may follow a printed expression: nothing that its last operand would take. -/
def Follows (e : Expr) (ts : List TokenKind) : Prop :=
  e.prec = postfixPrec ∨ StopsAt (rightBp e.prec) ts

/-- At any binding power that takes it, a printed expression is handed on to the operators that
follow it. -/
def Reads (e : Expr) : Prop :=
  ∀ (m : Nat) (ts rest : List TokenKind) (out : Expr), m ≤ 2 * e.prec + 1 → Follows e ts →
    Returns (parseOperators · m e) ts out rest → Returns (parseExprBp · m) (print e ++ ts) out rest

theorem Follows.of_stopsAt {e : Expr} {ts : List TokenKind} (h : ∀ m, StopsAt m ts) :
    Follows e ts := .inr (h _)

/-- A token that cannot go on an expression. -/
theorem stopsAt_token {t : TokenKind} {ts : List TokenKind} (h : continues (t :: ts) = false)
    (m : Nat) : StopsAt m (t :: ts) := stopsAt_of_continues h

namespace Reads

variable {e : Expr} {m : Nat} {ts rest : List TokenKind} {out : Expr}

/-- On its own, up to a token that cannot go on it. -/
theorem whole (h : Reads e) (hts : ∀ m, StopsAt m ts) :
    Returns (parseExprBp · 0) (print e ++ ts) e ts :=
  h _ _ _ _ (Nat.zero_le _) (.of_stopsAt hts) (hts 0 0 (Nat.le_refl _) e)

/-- An operand, in parentheses where it needs them. -/
theorem operand (h : Reads e) (prec : Nat) (hm : m ≤ 2 * prec + 1)
    (hts : prec ≤ e.prec → Follows e ts) (hout : Returns (parseOperators · m e) ts out rest) :
    Returns (parseExprBp · m) (paren prec e (print e) ++ ts) out rest := by
  rw [paren]
  split
  next hprec =>
    have hinner : Returns (parseExprBp · 0) (print e ++ .rparen :: ts) e (.rparen :: ts) :=
      h.whole fun m => stopsAt_token rfl m
    rw [List.append_assoc, List.cons_append, List.singleton_append]
    exact parseExprBp_of (parsePrefix_paren hinner) hout
  next hprec =>
    have hprec := Nat.le_of_not_lt hprec
    exact h _ _ _ _ (by omega) (hts hprec) hout

/-- The operand of a prefix operator. -/
theorem prefixed (h : Reads e) (hts : StopsAt unaryBp ts) :
    Returns (parseExprBp · unaryBp) (paren prefixPrec e (print e) ++ ts) e ts := by
  refine h.operand prefixPrec (by decide) (fun hprec => ?_) (hts _ (Nat.le_refl _) e)
  rcases e.prec_eq_of_le hprec with heq | heq
  · exact .inr (by rw [heq]; exact hts)
  · exact .inl heq

/-- The operand of a postfix operator. -/
theorem postfixed (h : Reads e) (hm : m ≤ 2 * postfixPrec + 1)
    (hout : Returns (parseOperators · m e) ts out rest) :
    Returns (parseExprBp · m) (paren postfixPrec e (print e) ++ ts) out rest :=
  h.operand postfixPrec hm (fun hprec => .inl (Nat.le_antisymm e.prec_le hprec)) hout

/-- An infix operator between its operands. `hrule` is what the parser does at its token. -/
theorem between {lhs rhs built : Expr} {prec : Nat} {t : TokenKind} (hlhs : Reads lhs)
    (hrhs : Reads rhs) (hprec : built.prec = prec) (hle : prec ≤ 12)
    (hstop : ∀ {m ts}, leftBp prec < m → StopsAt m (t :: ts))
    (hrule : ∀ {m ts mid rest out}, m ≤ leftBp prec →
      Returns (parseExprBp · (rightBp prec)) ts rhs mid →
      Returns (parseOperators · m built) mid out rest →
      Returns (parseOperators · m lhs) (t :: ts) out rest)
    (hm : m ≤ 2 * built.prec + 1) (hts : Follows built ts)
    (hout : Returns (parseOperators · m built) ts out rest) :
    Returns (parseExprBp · m)
      ((paren (leftPrec prec) lhs (print lhs) ++ t :: paren (rightPrec prec) rhs (print rhs)) ++ ts)
      out rest := by
  have hts : StopsAt (rightBp prec) ts := by
    rcases hts with h | h
    · rw [hprec, postfixPrec] at h
      omega
    · rwa [hprec] at h
  rw [List.append_assoc, List.cons_append]
  have hleft : leftPrec prec ≤ lhs.prec →
      Follows lhs (t :: (paren (rightPrec prec) rhs (print rhs) ++ ts)) := fun h => by
    rcases Nat.lt_or_ge lhs.prec postfixPrec with hlt | hge
    · exact .inr (hstop (leftBp_lt_rightBp prec hle _ (Nat.le_of_lt_succ hlt) h))
    · exact .inl (Nat.le_antisymm lhs.prec_le hge)
  have hright : rightPrec prec ≤ rhs.prec → Follows rhs ts := fun h => by
    rcases Nat.lt_or_ge rhs.prec postfixPrec with hlt | hge
    · exact .inr (hts.mono (rightBp_mono prec hle _ (Nat.le_of_lt_succ hlt) h))
    · exact .inl (Nat.le_antisymm rhs.prec_le hge)
  rw [hprec] at hm
  refine hlhs.operand (leftPrec prec) (Nat.le_trans hm ?_) hleft (hrule ?_
    (hrhs.operand (rightPrec prec) (rightBp_le hle) hright (hts _ (Nat.le_refl _) rhs)) hout)
  · exact Nat.succ_le_succ (Nat.mul_le_mul_left 2 le_leftPrec)
  · exact Nat.le_trans hm le_leftBp

end Reads

/-- What is read and starts as expressions do. -/
def Printed (e : Expr) : Prop := Reads e ∧ StartsWell (print e)

namespace Printed

variable {e : Expr} {ts rest : List TokenKind}

/-- In a list or a bound, where the token that follows goes on no expression. -/
theorem item {t : TokenKind} (h : Printed e) (ht : continues (t :: ts) = false) :
    Returns (parseExprBp · 0) (print e ++ t :: ts) e (t :: ts) :=
  Reads.whole h.1 (stopsAt_token ht)

theorem initExpr {t : TokenKind} (h : Printed e) (ht : continues (t :: ts) = false)
    (hqualifies : qualifies t = false) :
    Returns parseInitExpr (print e ++ t :: ts) e (t :: ts) :=
  parseInitExpr_of hqualifies (h.item ht)

/-- A comma or a closing parenthesis follows each element of a list. -/
theorem more_cases (es : List Expr) (ts : List TokenKind) :
    ∃ t rest, printMore es ++ .rparen :: ts = t :: rest ∧ continues (t :: rest) = false ∧
      qualifies t = false := by
  cases es with
  | nil => exact ⟨.rparen, ts, rfl, rfl, rfl⟩
  | cons e es => exact ⟨.comma, _, rfl, rfl, rfl⟩

theorem listRest {es : List Expr} (hes : ∀ e ∈ es, Printed e) :
    Returns parseExprListRest (printMore es ++ .rparen :: ts) es (.rparen :: ts) := by
  induction es with
  | nil => exact parseExprListRest_stop rfl
  | cons e es ih =>
      have he := hes e List.mem_cons_self
      have htail := ih fun e hmem => hes e (List.mem_cons_of_mem _ hmem)
      obtain ⟨t, first, heq, ht⟩ := he.2
      obtain ⟨_, hend, _⟩ := starts_spec ht
      obtain ⟨next, rest, hmore, hcontinues, hqualifies⟩ := more_cases es ts
      have hinit : Returns parseInitExpr (print e ++ next :: rest) e (next :: rest) :=
        he.initExpr hcontinues hqualifies
      rw [printMore, List.cons_append, List.append_assoc, hmore]
      rw [hmore] at htail
      rw [heq] at hinit ⊢
      exact parseExprListRest_cons hend hinit htail

theorem list {es : List Expr} (hes : ∀ e ∈ es, Printed e) :
    Returns parseExprList (printList es ++ .rparen :: ts) es (.rparen :: ts) := by
  cases es with
  | nil => exact parseExprList_nil rfl
  | cons e es =>
      have he := hes e List.mem_cons_self
      have htail : Returns parseExprListRest (printMore es ++ .rparen :: ts) es (.rparen :: ts) :=
        listRest fun e hmem => hes e (List.mem_cons_of_mem _ hmem)
      obtain ⟨t, first, heq, ht⟩ := he.2
      obtain ⟨_, hend, _⟩ := starts_spec ht
      obtain ⟨next, rest, hmore, hcontinues, hqualifies⟩ := more_cases es ts
      have hinit : Returns parseInitExpr (print e ++ next :: rest) e (next :: rest) :=
        he.initExpr hcontinues hqualifies
      rw [printList, List.append_assoc, hmore]
      rw [hmore] at htail
      rw [heq] at hinit ⊢
      exact parseExprList_cons hend hinit htail

theorem tupleMore {es : List Expr} (hes : ∀ e ∈ es, Printed e) :
    Returns parseTupleRest (printMore es ++ .rparen :: ts) es (.rparen :: ts) := by
  induction es with
  | nil => exact parseTupleRest_stop
  | cons e es ih =>
      have he := hes e List.mem_cons_self
      have htail := ih fun e hmem => hes e (List.mem_cons_of_mem _ hmem)
      obtain ⟨t, first, heq, ht⟩ := he.2
      obtain ⟨_, _, hend, _⟩ := starts_spec ht
      obtain ⟨next, rest, hmore, hcontinues, _⟩ := more_cases es ts
      have hitem : Returns (parseExprBp · 0) (print e ++ next :: rest) e (next :: rest) :=
        he.item hcontinues
      rw [printMore, List.cons_append, List.append_assoc, hmore]
      rw [hmore] at htail
      rw [heq] at hitem ⊢
      exact parseTupleRest_cons hend hitem htail

/-- A tuple, which ends in a comma when it has one element. -/
theorem tuple {e : Expr} {es : List Expr} (he : Printed e) (hes : ∀ e ∈ es, Printed e) :
    Returns parsePrefix (print (.tuple (e :: es)) ++ ts) (.tuple (e :: es)) ts := by
  have helems : Returns parseTupleRest (.comma :: (printList es ++ .rparen :: ts)) es
      (.rparen :: ts) := by
    cases es with
    | nil => exact parseTupleRest_end
    | cons next es =>
        have hmore : Returns parseTupleRest (printMore (next :: es) ++ .rparen :: ts) (next :: es)
          (.rparen :: ts) := tupleMore hes
        simpa only [printMore, printList, List.cons_append, List.append_assoc] using hmore
  have hfirst : Returns (parseExprBp · 0) (print e ++ .comma :: (printList es ++ .rparen :: ts)) e
      (.comma :: (printList es ++ .rparen :: ts)) := he.item rfl
  have hwhole := parsePrefix_tuple hfirst helems
  simpa only [print, List.cons_append, List.append_assoc, List.nil_append] using hwhole

theorem bound {hi : Option Expr} (h : ∀ e ∈ hi, Printed e) :
    Returns parseBound (printBound hi ++ .rbracket :: ts) hi (.rbracket :: ts) := by
  cases hi with
  | none => exact parseBound_none
  | some e =>
      have he := h e rfl
      have hitem : Returns (parseExprBp · 0) (print e ++ .rbracket :: ts) e (.rbracket :: ts) :=
        he.item rfl
      obtain ⟨t, first, heq, ht⟩ := he.2
      obtain ⟨_, _, _, hend, _⟩ := starts_spec ht
      rw [printBound]
      rw [heq] at hitem ⊢
      exact parseBound_some hend hitem

theorem subscript {lhs : Expr} {lo hi : Option Expr} (hlo : ∀ e ∈ lo, Printed e)
    (hhi : ∀ e ∈ hi, Printed e) :
    Returns (parseSubscript · lhs)
      (printBound lo ++ .colon :: (printBound hi ++ .rbracket :: ts)) (.slice lhs lo hi) ts := by
  cases lo with
  | none => exact parseSubscript_to (bound hhi)
  | some e =>
      have he := hlo e rfl
      have hitem : Returns (parseExprBp · 0)
          (print e ++ .colon :: (printBound hi ++ .rbracket :: ts)) e
          (.colon :: (printBound hi ++ .rbracket :: ts)) := he.item rfl
      obtain ⟨t, first, heq, ht⟩ := he.2
      obtain ⟨_, _, _, _, hend, _⟩ := starts_spec ht
      rw [printBound]
      rw [heq] at hitem ⊢
      exact parseSubscript_from hend hitem (bound hhi)

end Printed

/-! ### The round trip -/

/-- A name that a tuple declares, as the element it is parsed from. -/
def nameExpr (name : String) : Expr := if name = "nil" then .nil else .ident name

theorem print_nameExpr (name : String) : print (nameExpr name) = [nameToken name] := by
  unfold nameExpr nameToken
  split <;> rfl

theorem printNames_eq (names : List String) :
    printNames names = printList (names.map nameExpr) := by
  induction names with
  | nil => rfl
  | cons name names ih =>
      cases names with
      | nil => simp [printNames, printList, printMore, print_nameExpr]
      | cons next names =>
          rw [printNames, ih]
          · simp only [List.map_cons, printList, printMore, print_nameExpr, List.cons_append,
              List.nil_append]
          · exact List.cons_ne_nil _ _

theorem mapM_declaredName (names : List String) :
    (names.map nameExpr).mapM declaredName = some names := by
  induction names with
  | nil => rfl
  | cons name names ih =>
      have hname : declaredName (nameExpr name) = some name := by
        unfold nameExpr
        split
        next heq => rw [heq]; rfl
        next => rfl
      simp [hname, ih]

theorem reads_atom {e : Expr} {t : TokenKind} (heq : print e = [t])
    (h : ∀ n ts, parsePrefix (n + 1) (t :: ts) = .ok e ts) : Reads e := by
  intro m ts rest out _ _ hout
  rw [heq]
  exact parseExprBp_of (parsePrefix_atom fun n => h n ts) hout

theorem printed_nameExpr (name : String) : Printed (nameExpr name) := by
  unfold nameExpr
  split
  · exact ⟨reads_atom rfl fun _ _ => rfl, .nil, [], rfl, rfl⟩
  · exact ⟨reads_atom rfl fun _ _ => rfl, .ident name, [], rfl, rfl⟩

/-- A prefix operator before its operand. -/
theorem reads_prefixed {inner : Expr} {t : TokenKind} (wrap : Expr → Expr) (hinner : Reads inner)
    (hprec : (wrap inner).prec = prefixPrec)
    (heq : print (wrap inner) = t :: paren prefixPrec inner (print inner))
    (h : ∀ n ts, parsePrefix (n + 1) (t :: ts) = (do return wrap (← parseExprBp n unaryBp)) ts) :
    Reads (wrap inner) := by
  intro m ts rest out _ hts hout
  have hts : StopsAt unaryBp ts := by
    rcases hts with hts | hts
    · exact absurd (hprec.symm.trans hts) (by decide)
    · rwa [hprec] at hts
  rw [heq, List.cons_append]
  exact parseExprBp_of (parsePrefix_operator wrap (fun n => h n _) (hinner.prefixed hts)) hout

/-- A postfix operator after its operand. `hrule` is what the parser does at its tokens. -/
theorem reads_postfixed {inner e : Expr} {after : List TokenKind} (hinner : Reads inner)
    (hprec : e.prec = postfixPrec) (heq : print e = paren postfixPrec inner (print inner) ++ after)
    (hrule : ∀ {m ts rest out}, Returns (parseOperators · m e) ts out rest →
      Returns (parseOperators · m inner) (after ++ ts) out rest) : Reads e := by
  intro m ts rest out hm _ hout
  rw [hprec] at hm
  rw [heq, List.append_assoc]
  exact hinner.postfixed hm (hrule hout)

/-- An assignment operator or a send between its operands. -/
theorem reads_assignment {lhs rhs e : Expr} {t : TokenKind} (hlhs : Reads lhs) (hrhs : Reads rhs)
    (hprec : e.prec = 0)
    (heq : print e = paren (leftPrec 0) lhs (print lhs) ++ t :: paren (rightPrec 0) rhs (print rhs))
    (hstop : ∀ {m ts}, 1 < m → StopsAt m (t :: ts))
    (hrule : ∀ {m ts mid rest out}, m ≤ 1 → Returns (parseExprBp · 1) ts rhs mid →
      Returns (parseOperators · m e) mid out rest →
      Returns (parseOperators · m lhs) (t :: ts) out rest) : Reads e := by
  intro m ts rest out hm hts hout
  rw [heq]
  exact hlhs.between hrhs hprec (by decide) hstop hrule hm hts hout

theorem reads_tuple {e : Expr} {es : List Expr} (he : Printed e) (hes : ∀ e ∈ es, Printed e) :
    Reads (.tuple (e :: es)) := by
  intro m ts rest out _ _ hout
  exact parseExprBp_of (Printed.tuple he hes) hout

theorem TypeEnds.of_starts {t : TokenKind} (ts : List TokenKind) (h : starts t = true) :
    TypeEnds (t :: ts) :=
  have hends := (starts_spec h).2.2.2.2.2
  ⟨hends.lbracket, hends.arrow, hends.dot⟩

/-- A cast before its operand. -/
theorem reads_cast (ty : Ty) {inner : Expr} (hinner : Reads inner)
    (hstarts : StartsWell (print inner))
    (h : ∀ {t ts rest}, starts t = true → Returns (parseExprBp · unaryBp) (t :: ts) inner rest →
      Returns parsePrefix (printType ty ++ t :: ts) (.cast ty inner) rest) :
    Reads (.cast ty inner) := by
  intro m ts rest out _ hts hout
  have hts : StopsAt unaryBp ts := by
    rcases hts with hts | hts
    · cases hts
    · exact hts
  have hoperand := hinner.prefixed hts
  obtain ⟨t, first, heq, ht⟩ := (hstarts.paren prefixPrec inner).append ts
  rw [print, List.append_assoc, heq]
  rw [heq] at hoperand
  exact parseExprBp_of (h ht hoperand) hout

theorem reads_print {e : Expr} (he : Operators e) : Reads e := by
  induction he with
  | intLit | realLit | stringLit | charLit | nil | ident => exact reads_atom rfl fun _ _ => rfl
  | tuple helem helems ihElem ihElems =>
      exact reads_tuple ⟨ihElem, startsWell_print helem⟩
        fun e hmem => ⟨ihElems e hmem, startsWell_print (helems e hmem)⟩
  | tupleDeclAssign name names _ ih =>
      have htuple : Reads (.tuple ((name :: names).map nameExpr)) :=
        reads_tuple (printed_nameExpr name) fun e hmem => by
          obtain ⟨n, _, rfl⟩ := List.mem_map.mp hmem
          exact printed_nameExpr n
      refine reads_assignment htuple ih rfl ?_ stopsAt_colonEq
        fun hm => parseOperators_tupleDeclAssign hm (mapM_declaredName _)
      simp [print, paren, Expr.prec, leftPrec, postfixPrec, rightAssoc, printNames_eq,
        print_nameExpr]
  | declAssign name _ ih =>
      have hname : Reads (.ident name) := reads_atom rfl fun _ _ => rfl
      exact reads_assignment hname ih rfl rfl stopsAt_colonEq parseOperators_declAssign
  | unary op _ ih => exact reads_prefixed (.unary op) ih rfl rfl (by cases op <;> intros <;> rfl)
  | hd _ ih => exact reads_prefixed .hd ih rfl rfl fun _ _ => rfl
  | tl _ ih => exact reads_prefixed .tl ih rfl rfl fun _ _ => rfl
  | len _ ih => exact reads_prefixed .len ih rfl rfl fun _ _ => rfl
  | tagof _ ih => exact reads_prefixed .tagof ih rfl rfl fun _ _ => rfl
  | recv _ ih => exact reads_prefixed .recv ih rfl rfl fun _ _ => rfl
  | cast b hinner ih =>
      exact reads_cast (.basic b) ih (startsWell_print hinner) fun ht hoperand =>
        parsePrefix_cast b (by cases b <;> intros <;> rfl) (starts_spec ht).1 hoperand
  | @arrayCast inner elem helem hinner ih =>
      exact reads_cast (.array elem) ih (startsWell_print hinner) fun ht hoperand =>
        parsePrefix_arrayCast (parseType_print helem _ (.of_starts _ ht)) hoperand
  | binary op _ _ ihLhs ihRhs =>
      intro m ts rest out
      exact ihLhs.between ihRhs rfl (prec_binOp_le op) (stopsAt_binOp op) (parseOperators_binOp op)
  | cons _ _ ihHead ihTail =>
      intro m ts rest out
      exact ihHead.between ihTail rfl (by decide) stopsAt_cons parseOperators_cons
  | assign _ _ ihLhs ihRhs =>
      exact reads_assignment ihLhs ihRhs rfl rfl stopsAt_assign parseOperators_assign
  | send _ _ ihChan ihValue =>
      exact reads_assignment ihChan ihValue rfl rfl stopsAt_send parseOperators_send
  | compoundAssign ht _ _ ihLhs ihRhs =>
      refine reads_assignment ihLhs ihRhs rfl ?_ (stopsAt_compoundAssign ht)
        (parseOperators_compoundAssign ht)
      simp only [print, ht, Option.toList_some, List.append_assoc, List.singleton_append]
  | dot member _ ih => exact reads_postfixed ih rfl rfl parseOperators_dot
  | modQual member _ ih => exact reads_postfixed ih rfl rfl parseOperators_modQual
  | postInc _ ih => exact reads_postfixed ih rfl rfl parseOperators_inc
  | postDec _ ih => exact reads_postfixed ih rfl rfl parseOperators_dec
  | call _ hargs ih ihArgs =>
      refine reads_postfixed ih rfl (List.append_assoc ..) fun {m ts rest out} hout => ?_
      rw [List.append_assoc, List.cons_append, List.singleton_append]
      exact parseOperators_call
        (Printed.list fun e hmem => ⟨ihArgs e hmem, startsWell_print (hargs e hmem)⟩) hout
  | @index arr idx _ hidx ih ihIdx =>
      refine reads_postfixed ih rfl (List.append_assoc ..) fun {m ts rest out} hout => ?_
      have hitem : Returns (parseExprBp · 0) (print idx ++ .rbracket :: ts) idx (.rbracket :: ts) :=
        Printed.item ⟨ihIdx, startsWell_print hidx⟩ rfl
      obtain ⟨t, first, heq, ht⟩ := startsWell_print hidx
      obtain ⟨_, _, _, _, hcolon, _⟩ := starts_spec ht
      rw [List.append_assoc, List.cons_append, List.singleton_append]
      rw [heq] at hitem ⊢
      exact parseOperators_subscript (parseSubscript_index hcolon hitem) hout
  | @slice arr lo hi _ hlo hhi ih ihLo ihHi =>
      refine reads_postfixed ih rfl (by rw [print, List.append_assoc, List.append_assoc])
        fun {m ts rest out} hout => ?_
      have hsub : Returns (parseSubscript · arr)
          (printBound lo ++ .colon :: (printBound hi ++ .rbracket :: ts)) (.slice arr lo hi) ts :=
        Printed.subscript (fun e hmem => ⟨ihLo e hmem, startsWell_print (hlo e hmem)⟩)
          fun e hmem => ⟨ihHi e hmem, startsWell_print (hhi e hmem)⟩
      have hafter := parseOperators_subscript hsub hout
      simpa only [List.append_assoc, List.cons_append, List.nil_append] using hafter

/-- Printed with the fewest parentheses, an expression is read back whole, and the parser stops at
the first token that cannot go on an expression. -/
theorem parseExpr_print {e : Expr} (he : Operators e) {rest : List TokenKind}
    (hrest : continues rest = false) : Returns parseExpr (print e ++ rest) e rest :=
  (reads_print he).whole fun _ => stopsAt_of_continues hrest

/-- `x = (a ** b) ** -c`, as it is printed. -/
example : print (.assign (.ident "x") (.binary (.binary (.ident "a") .power (.ident "b")) .power
    (.unary .neg (.ident "c")))) =
    [.ident "x", .assign, .lparen, .ident "a", .power, .ident "b", .rparen, .power, .minus,
      .ident "c"] := rfl

theorem parseExpr_print_power :
    Returns parseExpr (print (.assign (.ident "x") (.binary (.binary (.ident "a") .power
      (.ident "b")) .power (.unary .neg (.ident "c")))) ++ [.semicolon])
      (.assign (.ident "x") (.binary (.binary (.ident "a") .power (.ident "b")) .power
        (.unary .neg (.ident "c")))) [.semicolon] :=
  parseExpr_print (.assign (.ident "x") (.binary .power (.binary .power (.ident "a") (.ident "b"))
    (.unary .neg (.ident "c")))) rfl

end RiceVM.Limbo.Syntax
