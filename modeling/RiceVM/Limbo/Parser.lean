import RiceVM.Limbo.Token
import RiceVM.Limbo.Syntax
import RiceVM.Lib.Exec

/-!
The parser's cursor, and its parsers of types and of expressions. The functions that call each
other take fuel, of which a call needs no more than a fixed amount for every token left.
-/
namespace RiceVM.Limbo.Syntax

open Exec

/-- What an error says; its position is left out. -/
inductive ParseError where
  /-- `expected {kind}, got {got}` -/
  | expected (kind got : TokenKind)
  /-- `expected identifier, got {got}` -/
  | expectedIdent (got : TokenKind)
  /-- `expected type, got {got}` -/
  | expectedType (got : TokenKind)
  /-- `unexpected token in expression: {got}` -/
  | unexpected (got : TokenKind)
  /-- `tuple := elements must be identifiers` -/
  | tupleNames
  /-- `left side of := must be identifier or tuple` -/
  | declTarget

/-- A parser, over the tokens left before the final `eof`. -/
abbrev Parser := Exec (List TokenKind) ParseError

/-- The token `n` places ahead of the cursor. -/
def ahead (n : Nat) (ts : List TokenKind) : TokenKind := (ts[n]?).getD .eof

def peek : Parser TokenKind := do return ahead 0 (← get)

def at_ (kind : TokenKind) : Parser Bool := do return (ahead 0 (← get)).sameKind kind

def atOffset (n : Nat) (kind : TokenKind) : Parser Bool := do
  return (ahead n (← get)).sameKind kind

/-- Step over a token; the cursor stays where it is at the final `eof`. -/
def advance : Parser Unit := modify List.tail

def expect (kind : TokenKind) : Parser Unit := do
  if ← at_ kind then advance else throw (.expected kind (← peek))

def expectIdent : Parser String := do
  match ← peek with
  | .ident name => do advance; return name
  | got => throw (.expectedIdent got)

/-- Step over tokens up to one of a kind, and over that one. -/
def skipPast (kind : TokenKind) : Parser Unit :=
  modify fun ts => (ts.dropWhile (!·.sameKind kind)).tail

/-- Step over a `[T1, T2]` type parameter list. -/
def skipTypeParams : Parser Unit := do
  if ← at_ .lbracket then advance; skipPast .rbracket

/-- Does a comma start a new group of parameters? -/
def paramTypeNext : List TokenKind → Bool
  | .ident _ :: .comma :: ts | .nil :: .comma :: ts => paramTypeNext ts
  | .ident _ :: .colon :: _ | .nil :: .colon :: _ => false
  | _ => true

/-- A parameter's name, and whether it is `nil`. -/
def parseParamName : Parser (String × Bool) := do
  if ← at_ .nil then do advance; return ("nil", true)
  else return (← expectIdent, false)

/-- Further names of a group of parameters. -/
def parseParamNames : Nat → Parser (List String)
  | 0 => diverge
  | n + 1 => do
    if (← at_ .comma) && !paramTypeNext (← get).tail then do
      advance
      let (name, _) ← parseParamName
      return name :: (← parseParamNames n)
    else return []

/-- The `raises` and `for` clauses of a signature, which are stepped over. -/
def skipClauses : Parser Unit := do
  if (← at_ .raise) || (← peek) = .ident "raises" then do
    advance
    if ← at_ .lparen then do advance; skipPast .rparen
    else if ← at_ (.ident "") then advance
  if ← at_ .for then do
    advance
    if ← at_ .lbrace then do advance; skipPast .rbrace

mutual

def parseType : Nat → Parser Ty
  | 0 => diverge
  | n + 1 => do
    match ← peek with
    | .int => do advance; return .basic .int
    | .byte => do advance; return .basic .byte
    | .big => do advance; return .basic .big
    | .real => do advance; return .basic .real
    | .string_ => do advance; return .basic .string
    | .array => do advance; expect .of; return .array (← parseType n)
    | .list => do advance; expect .of; return .list (← parseType n)
    | .chan => do advance; expect .of; return .chan (← parseType n)
    | .ref => do advance; return .ref (← parseType n)
    | .fn => return .func (← parseFuncSig n "")
    | .lparen => do
      advance
      let first ← parseType n
      if ← at_ .comma then do
        let types ← parseTypes n
        expect .rparen
        return .tuple (first :: types)
      else do
        expect .rparen
        return first
    | .ident name => do
      advance
      skipTypeParams
      if (← at_ .arrow) || (← at_ .dot) then do
        advance
        let member ← expectIdent
        skipTypeParams
        return .named ⟨some name, member⟩
      else return .named ⟨none, name⟩
    | .self_ => do advance; parseType n
    | got => throw (.expectedType got)

/-- The types after the first in a parenthesised list. -/
def parseTypes : Nat → Parser (List Ty)
  | 0 => diverge
  | n + 1 => do
    if ← at_ .comma then do
      advance
      let ty ← parseType n
      return ty :: (← parseTypes n)
    else return []

/-- A signature, which may start with `fn` or directly with its parameters. -/
def parseFuncSig : Nat → String → Parser FuncSig
  | 0, _ => diverge
  | n + 1, name => do
    if ← at_ .fn then do advance; skipTypeParams
    expect .lparen
    let params ← if ← at_ .star then do advance; pure [] else do
      let params ← parseParams n
      if (← at_ .comma) && (← atOffset 1 .star) then do advance; advance
      pure params
    expect .rparen
    let ret ← if ← at_ .colon then do advance; pure (some (← parseType n)) else pure none
    skipClauses
    return .mk name params ret

def parseParams : Nat → Parser (List Param)
  | 0 => diverge
  | n + 1 => do
    if ← at_ .rparen then return [] else parseParamGroups n

def parseParamGroups : Nat → Parser (List Param)
  | 0 => diverge
  | n + 1 => do
    if ← at_ .star then do advance; return []
    else do
      let (name, isNil) ← parseParamName
      let names ← parseParamNames n
      expect .colon
      let isSelf ← at_ .self_
      if isSelf then advance
      let param := .mk (name :: names) (← parseType n) isSelf isNil
      if ← at_ .comma then do
        advance
        if ← at_ .rparen then return [param]
        else return param :: (← parseParamGroups n)
      else return [param]

end

/-! ### Expressions -/

/-- The binding powers of an infix operator to its left and to its right. -/
def infixBindingPower : TokenKind → Option (Nat × Nat × BinOp)
  | .orOr => some (3, 4, .logOr)
  | .andAnd => some (5, 6, .logAnd)
  -- 7 is `consBp`.
  | .pipe => some (9, 10, .or)
  | .caret => some (11, 12, .xor)
  | .amp => some (13, 14, .and)
  | .eq => some (15, 16, .eq)
  | .neq => some (15, 16, .neq)
  | .lt => some (17, 18, .lt)
  | .gt => some (17, 18, .gt)
  | .leq => some (17, 18, .leq)
  | .geq => some (17, 18, .geq)
  | .lshift => some (19, 20, .lshift)
  | .rshift => some (19, 20, .rshift)
  | .plus => some (21, 22, .add)
  | .minus => some (21, 22, .sub)
  | .star => some (23, 24, .mul)
  | .slash => some (23, 24, .div)
  | .percent => some (23, 24, .mod)
  | .power => some (26, 25, .power)
  | _ => none

/-- The binding power of `::` to either side. -/
def consBp : Nat := 7

/-- The binding power of the operand of a prefix operator or a cast. -/
def unaryBp : Nat := 27

inductive AssignKind where
  | simple
  | compound (op : BinOp)
  | decl

/-- The right binding power of an assignment operator. -/
def assignBindingPower : TokenKind → Option (Nat × AssignKind)
  | .assign => some (1, .simple)
  | .colonEq => some (1, .decl)
  | .plusEq => some (1, .compound .add)
  | .minusEq => some (1, .compound .sub)
  | .starEq => some (1, .compound .mul)
  | .slashEq => some (1, .compound .div)
  | .percentEq => some (1, .compound .mod)
  | .ampEq => some (1, .compound .and)
  | .pipeEq => some (1, .compound .or)
  | .caretEq => some (1, .compound .xor)
  | .lshiftEq => some (1, .compound .lshift)
  | .rshiftEq => some (1, .compound .rshift)
  | _ => none

/-- The name an element of a tuple declares. -/
def declaredName : Expr → Option String
  | .ident name => some name
  | .nil => some "nil"
  | _ => none

/-- An assignment of a kind, once both of its sides are parsed. -/
def assignment (lhs rhs : Expr) : AssignKind → Except ParseError Expr
  | .simple => .ok (.assign lhs rhs)
  | .compound op => .ok (.compoundAssign lhs op rhs)
  | .decl =>
    match lhs with
    | .ident name => .ok (.declAssign [name] rhs)
    | .tuple elems =>
      match elems.mapM declaredName with
      | some names => .ok (.tupleDeclAssign names rhs)
      | none => .error .tupleNames
    | _ => .error .declTarget

/-- The tokens after which a basic type is a name and not a cast. -/
def endsTypeName : TokenKind → Bool
  | .rbracket | .comma | .rparen | .fatArrow | .semicolon | .rbrace => true
  | _ => false

/-- How a basic type is shown where it stands for a name. -/
def typeName : BasicType → String
  | .int => "Basic(Int)"
  | .byte => "Basic(Byte)"
  | .big => "Basic(Big)"
  | .real => "Basic(Real)"
  | .string => "Basic(String)"

/-- The tokens after those of a brace group that is open `depth` times. -/
def skipBraces : Nat → List TokenKind → List TokenKind
  | 0, ts => ts
  | _, [] => []
  | depth + 1, .lbrace :: ts => skipBraces (depth + 2) ts
  | depth + 1, .rbrace :: ts => skipBraces depth ts
  | depth + 1, _ :: ts => skipBraces (depth + 1) ts

/-- Does the cursor stand where an expression list ends? -/
def atListEnd : Parser Bool := do
  return (← at_ .rparen) || (← at_ .rbracket) || (← at_ .rbrace)

/-- Does the cursor stand on a send, `<-=` or `<-` and `=`? -/
def atSend : Parser Bool := do
  return (← at_ .chanSend) || (← at_ .chanRecv) && (← atOffset 1 .assign)

mutual

/-- An expression whose operators bind at least as strongly as `minBp`. -/
def parseExprBp : Nat → Nat → Parser Expr
  | 0, _ => diverge
  | n + 1, minBp => do
    let lhs ← parsePrefix n
    parseOperators n minBp lhs

/-- The postfix and infix operators that follow an operand. -/
def parseOperators : Nat → Nat → Expr → Parser Expr
  | 0, _, _ => diverge
  | n + 1, minBp, lhs => do
    match ← peek with
    | .lparen => do
      advance
      let args ← parseExprList n
      expect .rparen
      parseOperators n minBp (.call lhs args)
    | .dot => do advance; parseOperators n minBp (.dot lhs (← expectIdent))
    | .arrow => do advance; parseOperators n minBp (.modQual lhs (← expectIdent))
    | .lbracket => do advance; parseOperators n minBp (← parseSubscript n lhs)
    | .inc => do advance; parseOperators n minBp (.postInc lhs)
    | .dec => do advance; parseOperators n minBp (.postDec lhs)
    | t =>
      match infixBindingPower t with
      | some (leftBp, rightBp, op) =>
        if leftBp < minBp then return lhs
        else do
          advance
          let rhs ← parseExprBp n rightBp
          parseOperators n minBp (.binary lhs op rhs)
      | none =>
        match assignBindingPower t with
        | some (rightBp, kind) =>
          if 1 < minBp then return lhs
          else do
            advance
            let rhs ← parseExprBp n rightBp
            parseOperators n minBp (← ofExcept (assignment lhs rhs kind))
        | none => do
          if ← atSend then
            if 1 < minBp then return lhs
            else do
              if ← at_ .chanRecv then advance
              advance
              let rhs ← parseExprBp n 1
              parseOperators n minBp (.send lhs rhs)
          else if ← at_ .colonColon then
            if consBp < minBp then return lhs
            else do
              advance
              let rhs ← parseExprBp n consBp
              parseOperators n minBp (.cons lhs rhs)
          else return lhs

/-- What follows a `[`: an index, or the bounds of a slice. -/
def parseSubscript : Nat → Expr → Parser Expr
  | 0, _ => diverge
  | n + 1, lhs => do
    if ← at_ .colon then do
      advance
      let hi ← parseBound n
      expect .rbracket
      return .slice lhs none hi
    else do
      let idx ← parseExprBp n 0
      if ← at_ .colon then do
        advance
        let hi ← parseBound n
        expect .rbracket
        return .slice lhs (some idx) hi
      else do
        expect .rbracket
        return .index lhs idx

/-- The upper bound of a slice, which may be absent. -/
def parseBound : Nat → Parser (Option Expr)
  | 0 => diverge
  | n + 1 => do if ← at_ .rbracket then return none else return some (← parseExprBp n 0)

def parsePrefix : Nat → Parser Expr
  | 0 => diverge
  | n + 1 => do
    match ← peek with
    | .intLit v => do advance; return .intLit v
    | .realLit bits => do advance; return .realLit bits
    | .stringLit s => do advance; return .stringLit s
    | .charLit v => do advance; return .charLit v
    | .nil => do advance; return .nil
    | .ident name => do advance; return .ident name
    | .iota => do advance; return .ident "iota"
    -- A step before the value is read is parsed as one after.
    | .inc => do advance; return .postInc (← parseExprBp n unaryBp)
    | .dec => do advance; return .postDec (← parseExprBp n unaryBp)
    | .plus => do advance; parseExprBp n unaryBp
    | .star => do
      advance
      if ← at_ .fatArrow then return .ident "*"
      else return .unary .ref (← parseExprBp n unaryBp)
    | .minus => do advance; return .unary .neg (← parseExprBp n unaryBp)
    | .bang => do advance; return .unary .not (← parseExprBp n unaryBp)
    | .tilde => do advance; return .unary .bitNot (← parseExprBp n unaryBp)
    | .hd => do advance; return .hd (← parseExprBp n unaryBp)
    | .tl => do advance; return .tl (← parseExprBp n unaryBp)
    | .len => do advance; return .len (← parseExprBp n unaryBp)
    | .tagof => do advance; return .tagof (← parseExprBp n unaryBp)
    | .ref => do advance; return .unary .ref (← parseExprBp n unaryBp)
    | .chanRecv => do advance; return .recv (← parseExprBp n unaryBp)
    | .array => do
      advance
      if ← at_ .lbracket then do
        advance
        let size ← if ← at_ .rbracket then pure none else pure (some (← parseExprBp n 0))
        expect .rbracket
        expect .of
        if ← at_ .lbrace then do
          advance
          let elems ← parseArrayElemList n
          expect .rbrace
          return .arrayLit size elems none
        else return .arrayAlloc (size.getD (.intLit 0)) (← parseType n)
      else do
        expect .of
        let ty ← parseType n
        return .cast (.array ty) (← parseExprBp n unaryBp)
    | .chan => do
      advance
      if ← at_ .lbracket then do
        advance
        -- The size of a buffered channel is dropped.
        let _ ← parseExprBp n 0
        expect .rbracket
      expect .of
      return .chanAlloc (← parseType n)
    | .list => do
      advance
      expect .of
      expect .lbrace
      let elems ← parseExprList n
      expect .rbrace
      return .listLit elems
    | .load => do
      advance
      let module ← expectIdent
      return .load (.named ⟨none, module⟩) (← parseExprBp n 2)
    | .lparen => do
      advance
      let first ← parseExprBp n 0
      if ← at_ .comma then do
        let elems ← parseTupleRest n
        expect .rparen
        return .tuple (first :: elems)
      else do
        expect .rparen
        return first
    | .int => do advance; parseCast n .int
    | .byte => do advance; parseCast n .byte
    | .big => do advance; parseCast n .big
    | .real => do advance; parseCast n .real
    | .string_ => do advance; parseCast n .string
    | .lbrace => do
      -- A brace group where an expression should stand is stepped over.
      modify fun ts => skipBraces 1 ts.tail
      return .nil
    | got => throw (.unexpected got)

/-- What follows the name of a basic type in an expression. -/
def parseCast : Nat → BasicType → Parser Expr
  | 0, _ => diverge
  | n + 1, b => do
    if endsTypeName (← peek) then return .ident (typeName b)
    else return .cast (.basic b) (← parseExprBp n unaryBp)

/-- The elements after the first of a tuple. -/
def parseTupleRest : Nat → Parser (List Expr)
  | 0 => diverge
  | n + 1 => do
    if ← at_ .comma then do
      advance
      if ← at_ .rparen then return []
      else do
        let elem ← parseExprBp n 0
        return elem :: (← parseTupleRest n)
    else return []

def parseArrayElemList : Nat → Parser (List ArrayElem)
  | 0 => diverge
  | n + 1 => do
    if ← at_ .rbrace then return []
    else do
      let elem ← parseArrayElem n
      return elem :: (← parseArrayElemRest n)

def parseArrayElemRest : Nat → Parser (List ArrayElem)
  | 0 => diverge
  | n + 1 => do
    if ← at_ .comma then do
      advance
      if ← at_ .rbrace then return []
      else do
        let elem ← parseArrayElem n
        return elem :: (← parseArrayElemRest n)
    else return []

def parseArrayElem : Nat → Parser ArrayElem
  | 0 => diverge
  | n + 1 => do
    if ← at_ .star then do
      advance
      expect .fatArrow
      return .mk (some .wildcard) (← parseExprBp n 0)
    else do
      let first ← parseExprBp n 0
      if (← at_ .to) || (← at_ .or) || (← at_ .fatArrow) then do
        let sels ← parseSelectors n first
        expect .fatArrow
        return .mk (some (.selectors sels)) (← parseExprBp n 0)
      else return .mk none first

/-- The selectors of an array element, from the one that starts with `lo`. -/
def parseSelectors : Nat → Expr → Parser (List (Expr × Option Expr))
  | 0, _ => diverge
  | n + 1, lo => do
    let hi ← if ← at_ .to then do advance; pure (some (← parseExprBp n 0)) else pure none
    if ← at_ .or then do
      advance
      let next ← parseExprBp n 0
      return (lo, hi) :: (← parseSelectors n next)
    else return [(lo, hi)]

/-- An expression that qualifiers may precede, which are dropped. -/
def parseInitExpr : Nat → Parser Expr
  | 0 => diverge
  | n + 1 => do
    let expr ← parseExprBp n 0
    parseQualifiers n expr

def parseQualifiers : Nat → Expr → Parser Expr
  | 0, _ => diverge
  | n + 1, expr => do
    if ← at_ .fatArrow then do advance; parseExprBp n 0
    else if (← at_ .or) || (← at_ .to) then do
      advance
      let _ ← parseExprBp n 0
      parseQualifiers n expr
    else return expr

def parseExprList : Nat → Parser (List Expr)
  | 0 => diverge
  | n + 1 => do
    if ← atListEnd then return []
    else do
      let expr ← parseInitExpr n
      return expr :: (← parseExprListRest n)

def parseExprListRest : Nat → Parser (List Expr)
  | 0 => diverge
  | n + 1 => do
    if ← at_ .comma then do
      advance
      if ← atListEnd then return []
      else do
        let expr ← parseInitExpr n
        return expr :: (← parseExprListRest n)
    else return []

end

def parseExpr (n : Nat) : Parser Expr := parseExprBp n 0

end RiceVM.Limbo.Syntax
