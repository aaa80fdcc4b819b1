import RiceVM.Core

/-!
Tokens of Limbo, and the parser's cursor over them. The lexer ends a file's tokens with one `eof`,
which the cursor never leaves: it is the list of the tokens before that one, and reads as `eof`
when it is empty.
-/
namespace RiceVM.Limbo

inductive TokenKind where
  | intLit (v : Big)
  /-- A real, by its bits. -/
  | realLit (bits : Big)
  | stringLit (s : String)
  | charLit (v : Word)
  | ident (name : String)
  | adt | alt | array | big | break | byte | case | chan | con | continue | cyclic | do | else
  | exception | exit | fn | for | hd | if | implement | import | include | int | len | list | load
  | module | nil | of | or | pick | real | ref | return | self_ | spawn | string_ | tagof | tl | to
  | type | while | raise | iota
  | plus | minus | star | slash | percent | power | amp | pipe | caret | tilde | bang
  | lshift | rshift | eq | neq | lt | gt | leq | geq | andAnd | orOr | colonColon | arrow
  | chanRecv | chanSend | assign | colonEq | plusEq | minusEq | starEq | slashEq | percentEq
  | ampEq | pipeEq | caretEq | lshiftEq | rshiftEq | inc | dec
  | lparen | rparen | lbracket | rbracket | lbrace | rbrace
  | comma | dot | semicolon | colon | fatArrow
  | eof
  deriving DecidableEq, Repr

/-- Are two tokens of one kind, whatever they carry? -/
def TokenKind.sameKind (a b : TokenKind) : Bool := a.ctorIdx == b.ctorIdx

end RiceVM.Limbo
