import LineBasic.Literal
import LineBasic.Text.Letter

/-!
# Tokens

* `Keyword` : the reserved words; `Keyword.ofText?` recognises their upper-case spelling.
* `TokenKind` : what a token is.
* `Token` : a kind with its text, its place and the constant it carries.
* `Token.describe` : how a diagnostic names a token.
-/

namespace LineBasic

/-- The reserved words. -/
inductive Keyword where
  | letWord | dimWord | ifWord | thenWord | elseWord | elseIfWord | endWord | whileWord | doWord
  | wendWord | loopWord | untilWord | forWord | toWord | stepWord | nextWord | exitWord
  | continueWord | defunWord | subWord | functionWord | returnWord | andWord | orWord | notWord
  | modWord | asWord | useWord
  deriving DecidableEq, Repr, Inhabited

namespace Keyword

/-- Every reserved word, once. -/
def all : List Keyword :=
  [letWord, dimWord, ifWord, thenWord, elseWord, elseIfWord, endWord, whileWord, doWord, wendWord,
    loopWord, untilWord, forWord, toWord, stepWord, nextWord, exitWord, continueWord, defunWord,
    subWord, functionWord, returnWord, andWord, orWord, notWord, modWord, asWord, useWord]

/-- The spelling of a reserved word. -/
def text : Keyword → String
  | letWord => "LET" | dimWord => "DIM" | ifWord => "IF" | thenWord => "THEN"
  | elseWord => "ELSE" | elseIfWord => "ELSEIF" | endWord => "END" | whileWord => "WHILE"
  | doWord => "DO" | wendWord => "WEND" | loopWord => "LOOP" | untilWord => "UNTIL"
  | forWord => "FOR" | toWord => "TO" | stepWord => "STEP" | nextWord => "NEXT"
  | exitWord => "EXIT" | continueWord => "CONTINUE" | defunWord => "DEFUN" | subWord => "SUB"
  | functionWord => "FUNCTION" | returnWord => "RETURN" | andWord => "AND" | orWord => "OR"
  | notWord => "NOT" | modWord => "MOD" | asWord => "AS" | useWord => "USE"

/-- The reserved word with this exact spelling. -/
def ofText? (s : String) : Option Keyword := all.find? fun k => k.text = s

theorem mem_all (k : Keyword) : k ∈ all := by cases k <;> decide

theorem ofText?_text (k : Keyword) : ofText? k.text = some k := by cases k <;> decide

end Keyword

/-- What a token is. -/
inductive TokenKind where
  | leftParen | rightParen | leftBrace | rightBrace | comma
  | minus | plus | slash | backslash | star | caret
  | equal | notEqual | greater | greaterEqual | less | lessEqual
  | name | integer | decimal | text
  | word (k : Keyword)
  | newline | finish
  deriving DecidableEq, Repr, Inhabited

namespace TokenKind

/-- The kind of a reserved word. -/
def isKeyword : TokenKind → Bool
  | word _ => true
  | _ => false

/-- The kinds that end a line. -/
def endsLine : TokenKind → Bool
  | newline => true
  | finish => true
  | _ => false

end TokenKind

/-- A token: lines count from the start line of the text, columns from zero. -/
structure Token where
  kind : TokenKind
  lexeme : String
  line : Nat
  column : Nat
  value : Literal
  deriving DecidableEq, Repr, Inhabited

/-- How a diagnostic names a token. -/
def Token.describe (t : Token) : String :=
  match t.kind with
  | .newline => "end of line"
  | .finish => "end of input"
  | _ => "'" ++ t.lexeme ++ "'"

/-- Why a text is no sequence of tokens. -/
inductive LexFault where
  | illegalCharacter (c : Char)
  | unterminatedString
  | invalidNumber (lexeme : String)
  deriving DecidableEq, Repr

/-- The wording of a lexical fault. -/
def LexFault.message : LexFault → String
  | .illegalCharacter c => "Illegal character: \"" ++ String.singleton c ++ "\""
  | .unterminatedString => "unterminated string"
  | .invalidNumber lexeme => "invalid number literal " ++ lexeme

/-- A lexical fault and where it is. -/
structure LexError where
  fault : LexFault
  line : Nat
  column : Nat
  deriving DecidableEq, Repr

end LineBasic
