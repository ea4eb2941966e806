import Mathlib.Data.List.OfFn
import LineBasic.Proofs.Words
import LineBasic.Grammar.Expression

/-!
# Printing expressions

A formula is an expression as one writes it down. It is printed with the parentheses that its
operators require: an operand stands in parentheses if it binds less tightly than its place
demands. All operators between two operands group from the left, so on their right an operand
has to bind more tightly.

The levels, from loose to tight: 0 conditionals, 1 `AND` and `OR`, 2 `NOT`, 3 comparisons, 4 `AS`, 5
sums, 6 products, 7 powers, 8 the minus sign, 9 all that needs no operator.

* `Formula` : integers, decimal numbers, strings, names, calls, arrays, and operators on formulas.
* `Formula.node` : the tree of a formula.
* `Formula.words` : the words of a formula in a place that demands a level.
  `Formula.print` : its text.
* `Formula.depth` : how many levels of the grammar its text opens inside each other.
-/

namespace LineBasic

/-! ### The parts of formulas -/

/-- A name in upper case that is not reserved. -/
structure Identifier where
  text : String
  isName : Text.isName text = true
  upper : Text.upperCase text = text

/-- A number that is written with a point. It stands for the number that its text is read as. -/
structure DecimalText where
  whole : List Char
  fraction : List Char
  nonempty : whole ≠ []
  digits : ∀ c ∈ whole ++ fraction, Text.isDigit c = true

/-- A string that can stand in quotes. -/
structure QuotedText where
  text : String
  plain : ∀ c ∈ text.toList, c ≠ Piece.quote ∧ c ≠ '\n'

namespace Operator

/-- How tightly an operator between two operands binds. -/
def tightness? : Operator → Option Nat
  | and => some 1
  | or => some 1
  | equal => some 3
  | notEqual => some 3
  | greater => some 3
  | less => some 3
  | greaterEqual => some 3
  | lessEqual => some 3
  | convert => some 4
  | plus => some 5
  | minus => some 5
  | times => some 6
  | divide => some 6
  | floorDivide => some 6
  | modulo => some 6
  | power => some 7
  | _ => none

/-- The kind of the sign of an operator between two operands. -/
def sign : Operator → TokenKind
  | and => .word .andWord
  | or => .word .orWord
  | equal => .equal
  | notEqual => .notEqual
  | greater => .greater
  | less => .less
  | greaterEqual => .greaterEqual
  | lessEqual => .lessEqual
  | convert => .word .asWord
  | plus => .plus
  | minus => .minus
  | times => .star
  | divide => .slash
  | floorDivide => .backslash
  | modulo => .word .modWord
  | power => .caret
  | _ => .finish

end Operator

/-- An operator between two operands, with its level. -/
structure Connective where
  op : Operator
  level : Nat
  tight : op.tightness? = some level

/-- The sign of an operator. -/
def Connective.word (s : Connective) : Word := .plain s.op.sign s.op.symbol

theorem Connective.scans (s : Connective) : s.word.Scans := by
  obtain ⟨op, level, tight⟩ := s
  cases op with
  | and => exact Word.scans_keyword .andWord
  | or => exact Word.scans_keyword .orWord
  | equal => exact Word.scans_sign (c := '=') rfl rfl rfl
  | notEqual => exact Word.scans_notEqual
  | greater => exact Word.scans_greater
  | less => exact Word.scans_less
  | greaterEqual => exact Word.scans_greaterEqual
  | lessEqual => exact Word.scans_lessEqual
  | convert => exact Word.scans_keyword .asWord
  | plus => exact Word.scans_sign (c := '+') rfl rfl rfl
  | minus => exact Word.scans_sign (c := '-') rfl rfl rfl
  | times => exact Word.scans_sign (c := '*') rfl rfl rfl
  | divide => exact Word.scans_sign (c := '/') rfl rfl rfl
  | floorDivide => exact Word.scans_sign (c := '\\') rfl rfl rfl
  | modulo => exact Word.scans_keyword .modWord
  | power => exact Word.scans_sign (c := '^') rfl rfl rfl
  | _ => cases tight

/-! ### Formulas -/

/-- An expression as one writes it down. -/
inductive Formula where
  | integer (n : Int64) (nonneg : 0 ≤ n)
  | decimal (d : DecimalText)
  | quoted (q : QuotedText)
  | name (x : Identifier)
  | call (f : Identifier) (count : Nat) (few : count ≤ Rule.itemLimit) (args : Fin count → Formula)
  | array (count : Nat) (few : count ≤ Rule.itemLimit) (items : Fin count → Formula)
  | negate (e : Formula)
  | not (e : Formula)
  | binary (s : Connective) (left right : Formula)
  | choose (guard yes no : Formula)

namespace Formula

/-- The tree of a formula. -/
def node : Formula → Node
  | integer n _ => .literal (.int n)
  | decimal d => .literal (.float (Binary64.ofDigits d.whole d.fraction 0).toBits)
  | quoted q => .literal (.text q.text)
  | name x => .ofName x.text
  | call f _ _ args => .call f.text (List.ofFn fun i => (args i).node)
  | array _ _ items => .array (List.ofFn fun i => (items i).node)
  | negate e => .operation .negate [e.node]
  | not e => .operation .not [e.node]
  | binary s left right => .operation s.op [left.node, right.node]
  | choose guard yes no => .operation .choose [guard.node, yes.node, no.node]

/-- How tightly a formula binds. -/
def level : Formula → Nat
  | choose .. => 0
  | not _ => 2
  | binary s _ _ => s.level
  | negate _ => 8
  | _ => 9

/-! ### Words of formulas -/

/-- What a formula of a level becomes in a place that demands another one: words in
parentheses, if it is too loose. -/
def enclose (place level : Nat) (ws : List Word) : List Word :=
  if level < place then .plain .leftParen "(" :: (ws ++ [.plain .rightParen ")"]) else ws

/-- Words between commas. -/
def separated : List (List Word) → List Word
  | [] => []
  | [ws] => ws
  | ws :: more => ws ++ .plain .comma "," :: separated more

/-- The words of a formula that stands by itself. -/
def bare : Formula → List Word
  | integer n _ => [.integer n]
  | decimal d => [.decimal d.whole d.fraction]
  | quoted q => [.quoted q.text]
  | name x => [.name x.text]
  | call f _ _ args => .name f.text :: .plain .leftParen "(" ::
      (separated (List.ofFn fun i => (args i).bare) ++ [.plain .rightParen ")"])
  | array _ _ items => .plain .leftBrace "\x7b" ::
      (separated (List.ofFn fun i => (items i).bare) ++ [.plain .rightBrace "\x7d"])
  | negate e => .plain .minus "-" :: enclose 8 e.level e.bare
  | not e => .keyword .notWord :: enclose 2 e.level e.bare
  | binary s left right =>
    enclose s.level left.level left.bare ++ s.word :: enclose (s.level + 1) right.level right.bare
  | choose guard yes no => .keyword .ifWord ::
      (guard.bare ++ .keyword .thenWord :: (yes.bare ++ .keyword .elseWord :: no.bare))

/-- The words of a formula in a place that demands a level. -/
def words (place : Nat) (e : Formula) : List Word := enclose place e.level e.bare

/-- The text of a formula, with a space between each two words. -/
def print (e : Formula) : String := " ".intercalate (e.bare.map Word.text)

/-! ### Levels of the grammar that are open at once -/

/-- Parentheses open one more level. -/
def deepen (place level depth : Nat) : Nat := if level < place then depth + 1 else depth

/-- The largest of some numbers. -/
def largest (ns : List Nat) : Nat := ns.foldr max 0

/-- How many levels the words of a formula open inside the one that they stand in:
parentheses, arguments, elements, the parts of a conditional, and the operands of `NOT` and of
the minus sign open one each. -/
def depth : Formula → Nat
  | call _ _ _ args => largest (List.ofFn fun i => (args i).depth + 1)
  | array _ _ items => largest (List.ofFn fun i => (items i).depth + 1)
  | negate e => deepen 8 e.level e.depth + 1
  | not e => deepen 2 e.level e.depth + 1
  | binary s left right =>
    max (deepen s.level left.level left.depth) (deepen (s.level + 1) right.level right.depth)
  | choose guard yes no => max guard.depth (max yes.depth no.depth) + 1
  | _ => 0

/-- The same in a place that demands a level. -/
def depthIn (place : Nat) (e : Formula) : Nat := deepen place e.level e.depth

variable {e : Formula} {place : Nat}

theorem words_of_le (h : place ≤ e.level) : e.words place = e.bare := if_neg (Nat.not_lt.2 h)

theorem words_of_lt (h : e.level < place) :
    e.words place = .plain .leftParen "(" :: (e.bare ++ [.plain .rightParen ")"]) := if_pos h

theorem depthIn_of_le (h : place ≤ e.level) : e.depthIn place = e.depth := if_neg (Nat.not_lt.2 h)

theorem depthIn_of_lt (h : e.level < place) : e.depthIn place = e.depth + 1 := if_pos h

/-! ### All words are scanned -/

theorem forall_mem_separated {P : Word → Prop} (comma : P (.plain .comma ","))
    {wss : List (List Word)} (h : ∀ ws ∈ wss, ∀ w ∈ ws, P w) : ∀ w ∈ separated wss, P w := by
  induction wss with
  | nil => simp [separated]
  | cons ws more ih =>
    have hws := h ws (.head _)
    have hmore := ih fun ws' hws' => h ws' (.tail _ hws')
    cases more with
    | nil => exact hws
    | cons ws' more =>
      intro w hw
      rcases List.mem_append.1 hw with hw | hw
      · exact hws w hw
      · rcases List.mem_cons.1 hw with rfl | hw
        · exact comma
        · exact hmore w hw

theorem forall_mem_enclose {P : Word → Prop} (left : P (.plain .leftParen "("))
    (right : P (.plain .rightParen ")")) {place level : Nat} {ws : List Word} (h : ∀ w ∈ ws, P w) :
    ∀ w ∈ enclose place level ws, P w := by
  unfold enclose
  split
  · simpa [left, or_imp, forall_and, right] using h
  · exact h

theorem scans_leftParen : (Word.plain .leftParen "(").Scans :=
  Word.scans_sign (c := '(') rfl rfl rfl

theorem scans_rightParen : (Word.plain .rightParen ")").Scans :=
  Word.scans_sign (c := ')') rfl rfl rfl

theorem scans_bare (e : Formula) : ∀ w ∈ e.bare, w.Scans := by
  have hcomma : (Word.plain .comma ",").Scans := Word.scans_sign (c := ',') rfl rfl rfl
  have hminus : (Word.plain .minus "-").Scans := Word.scans_sign (c := '-') rfl rfl rfl
  have hleft : (Word.plain .leftBrace "\x7b").Scans :=
    Word.scans_sign (c := '\x7b') rfl rfl rfl
  have hright : (Word.plain .rightBrace "\x7d").Scans :=
    Word.scans_sign (c := '\x7d') rfl rfl rfl
  have hname (x : Identifier) : (Word.name x.text).Scans := Word.scans_name x.isName x.upper
  have henclose {place level : Nat} {ws : List Word} (h : ∀ w ∈ ws, w.Scans) :
      ∀ w ∈ enclose place level ws, w.Scans := forall_mem_enclose scans_leftParen scans_rightParen h
  have hitems {count : Nat} {items : Fin count → Formula} (h : ∀ i, ∀ w ∈ (items i).bare, w.Scans) :
      ∀ w ∈ separated (List.ofFn fun i => (items i).bare), w.Scans :=
    forall_mem_separated hcomma (List.forall_mem_ofFn_iff.2 h)
  induction e with
  | integer n nonneg => exact List.forall_mem_singleton.2 (Word.scans_integer nonneg)
  | decimal d =>
    obtain ⟨whole, fraction, nonempty, digits⟩ := d
    refine List.forall_mem_singleton.2 (Word.scans_decimal nonempty (fun c hc => ?_) fun c hc => ?_)
    · exact digits c (List.mem_append_left _ hc)
    · exact digits c (List.mem_append_right _ hc)
  | quoted q => exact List.forall_mem_singleton.2 (Word.scans_quoted q.plain)
  | name x => exact List.forall_mem_singleton.2 (hname x)
  | call f count few args ih =>
    have hclose :=
      List.forall_mem_append.2 ⟨hitems ih, List.forall_mem_singleton.2 scans_rightParen⟩
    exact List.forall_mem_cons.2 ⟨hname f, List.forall_mem_cons.2 ⟨scans_leftParen, hclose⟩⟩
  | array count few items ih =>
    have hclose := List.forall_mem_append.2 ⟨hitems ih, List.forall_mem_singleton.2 hright⟩
    exact List.forall_mem_cons.2 ⟨hleft, hclose⟩
  | negate e ih => exact List.forall_mem_cons.2 ⟨hminus, henclose ih⟩
  | not e ih => exact List.forall_mem_cons.2 ⟨Word.scans_keyword .notWord, henclose ih⟩
  | binary s left right ihl ihr =>
    exact List.forall_mem_append.2 ⟨henclose ihl, List.forall_mem_cons.2 ⟨s.scans, henclose ihr⟩⟩
  | choose guard yes no ihg ihy ihn =>
    simp only [bare, List.forall_mem_cons, List.forall_mem_append]
    exact ⟨Word.scans_keyword .ifWord, ihg, Word.scans_keyword .thenWord, ihy,
      Word.scans_keyword .elseWord, ihn⟩

end Formula
end LineBasic
