import LineBasic.Token
import LineBasic.Number.Reading

/-!
# Scanning

A text is cut into pieces: tokens, blanks and comments. `piece` looks at the start of the text and
says what stands there and how long it is; `scanFrom` takes the pieces one after another and keeps
the position.

* `Piece`, `piece` : the piece at the start of a text.
* `Scan` : the tokens up to the end or to the first fault.
* `scan` : the tokens of a text that starts on a given line.
-/

namespace LineBasic

/-- What stands at the start of a text. A piece is one character longer than its `extra`. -/
inductive Piece where
  | blank (extra : Nat)
  | token (kind : TokenKind) (extra : Nat) (value : Literal)
  | fault (f : LexFault)
  deriving DecidableEq, Repr

namespace Piece

/-- The quote around strings. -/
def quote : Char := '\x22'

/-- The mark before a comment. -/
def commentMark : Char := '\x27'

/-- A token without a constant. -/
def plain (kind : TokenKind) (extra : Nat) : Piece := .token kind extra .nothing

/-- A string after its opening quote: it ends at the next quote, which is on the same line. -/
def string (rest : List Char) : Piece :=
  let body := rest.takeWhile fun c => c ≠ quote && c ≠ '\n'
  match rest.drop body.length with
  | c :: _ =>
    if c = quote then .token .text (body.length + 1) (.text (String.ofList body))
    else .fault .unterminatedString
  | [] => .fault .unterminatedString

/-- A number that starts with the digit `c`: a point makes it a decimal. -/
def number (c : Char) (rest : List Char) : Piece :=
  let whole := rest.takeWhile Text.isDigit
  match rest.drop whole.length with
  | '.' :: r =>
    let fraction := r.takeWhile Text.isDigit
    .token .decimal (whole.length + 1 + fraction.length)
      (.float (Binary64.ofDigits (c :: whole) fraction 0).toBits)
  | _ =>
    match Integer.read? (c :: whole) with
    | some n => .token .integer whole.length (.int n)
    | none => .fault (.invalidNumber (String.ofList (c :: whole)))

/-- A name or a reserved word that starts with `c`. -/
def name (c : Char) (rest : List Char) : Piece :=
  let more := rest.takeWhile Text.isNamePart
  match Keyword.ofText? (Text.upperCase (String.ofList (c :: more))) with
  | some k => plain (.word k) more.length
  | none => plain .name more.length

/-- A sign that starts with `<`. -/
def lessSign : List Char → Piece
  | '=' :: _ => plain .lessEqual 1
  | '>' :: _ => plain .notEqual 1
  | _ => plain .less 0

/-- A sign that starts with `>`. -/
def greaterSign : List Char → Piece
  | '=' :: _ => plain .greaterEqual 1
  | _ => plain .greater 0

/-- The kind of a sign of one character. -/
def sign? (c : Char) : Option TokenKind :=
  if c = '(' then some .leftParen
  else if c = ')' then some .rightParen
  else if c = '\x7b' then some .leftBrace
  else if c = '\x7d' then some .rightBrace
  else if c = ',' then some .comma
  else if c = '-' then some .minus
  else if c = '+' then some .plus
  else if c = '*' then some .star
  else if c = '/' then some .slash
  else if c = '\\' then some .backslash
  else if c = '^' then some .caret
  else if c = '=' then some .equal
  else if c = '\n' then some .newline
  else none

end Piece

/-- The piece at the start of the text `c :: rest`. -/
def piece (c : Char) (rest : List Char) : Piece :=
  match Piece.sign? c with
  | some kind => Piece.plain kind 0
  | none =>
    if c = '<' then Piece.lessSign rest
    else if c = '>' then Piece.greaterSign rest
    else if c = Piece.commentMark then .blank (rest.takeWhile fun d => d ≠ '\n').length
    else if c = Piece.quote then Piece.string rest
    else if c = ' ' || c = '\t' || c = '\r' then .blank 0
    else if Text.isDigit c then Piece.number c rest
    else if Text.isNameStart c then Piece.name c rest
    else .fault (.illegalCharacter c)

/-- A place in a text. -/
structure Position where
  line : Nat
  column : Nat
  deriving DecidableEq, Repr

/-- The place after a token of a kind and a length. -/
def Position.after (p : Position) (kind : TokenKind) (length : Nat) : Position :=
  if kind = .newline then ⟨p.line + 1, 0⟩ else ⟨p.line, p.column + length⟩

/-- The tokens of a text up to its end or its first fault, and the line reached. -/
structure Scan where
  tokens : List Token
  line : Nat
  error : Option LexError
  deriving DecidableEq, Repr

/-- A scan with one more token in front. -/
def Scan.cons (t : Token) (s : Scan) : Scan := { s with tokens := t :: s.tokens }

/-- Names and reserved words are kept in upper case, all else as it stands. -/
def lexemeOf (kind : TokenKind) (text : List Char) : String :=
  match kind with
  | .name => Text.upperCase (String.ofList text)
  | .word _ => Text.upperCase (String.ofList text)
  | _ => String.ofList text

/-- The tokens of the text from a position on. -/
def scanFrom (p : Position) (cs : List Char) : Scan :=
  match cs with
  | [] => ⟨[⟨.finish, "", p.line, p.column, .nothing⟩], p.line, none⟩
  | c :: rest =>
    match piece c rest with
    | .blank n => scanFrom ⟨p.line, p.column + n + 1⟩ (rest.drop n)
    | .token kind n value =>
      (scanFrom (p.after kind (n + 1)) (rest.drop n)).cons
        ⟨kind, lexemeOf kind (c :: rest.take n), p.line, p.column, value⟩
    | .fault f => ⟨[], p.line, some ⟨f, p.line, p.column⟩⟩
termination_by cs.length
decreasing_by all_goals (simp only [List.length_drop, List.length_cons]; omega)

/-- The tokens of a text whose first line has the number `line`. -/
def scan (line : Nat) (source : String) : Scan := scanFrom ⟨line, 0⟩ source.toList

end LineBasic
