/-!
# Syntax faults

* `Expectation` : what a rule of the grammar wanted to see next.
* `SyntaxFault` : why a line is no statement, or has no place where it stands;
  `SyntaxFault.message` is its wording.
-/

namespace LineBasic

/-- What a rule of the grammar wanted to see next. -/
inductive Expectation where
  | letName | letEqual
  | dimName | dimSizeClose | dimAs | dimType
  | elementClose | elementEqual
  | ifThen | elseIfThen
  | endOfWhat
  | forName | forEqual | forTo
  | closureName (word : String)
  | defunName | defunOpen | defunEqual
  | loopKind (word : String)
  | moduleName
  | argumentsClose | groupClose | elementsClose
  | chooseThen | chooseElse
  | parameterName | parametersClose
  deriving DecidableEq, Repr

/-- The wording of an expectation. -/
def Expectation.message : Expectation → String
  | letName => "Expect variable name after LET."
  | letEqual => "Expect '=' after variable name."
  | dimName => "Expect variable name after DIM."
  | dimSizeClose => "Expect ')' after array size."
  | dimAs => "Expect AS after DIM declaration."
  | dimType => "Expect type name after AS."
  | elementClose => "Expect ')' after index."
  | elementEqual => "Expect '=' after array element."
  | ifThen => "Expect THEN after IF condition."
  | elseIfThen => "Expect THEN after ELSEIF condition."
  | endOfWhat => "Expect IF, WHILE, FOR, SUB or FUNCTION after END."
  | forName => "Expect loop variable after FOR."
  | forEqual => "Expect '=' after loop variable."
  | forTo => "Expect TO after FOR start value."
  | closureName word => "Expect " ++ word ++ " name."
  | defunName => "Expect DEFUN name."
  | defunOpen => "Expect '(' after DEFUN name."
  | defunEqual => "Expect '=' after DEFUN parameters."
  | loopKind word => "Expect WHILE, DO or FOR after " ++ word ++ "."
  | moduleName => "Expect module name after USE."
  | argumentsClose => "Expect ')' after arguments."
  | groupClose => "Expect ')' after expression."
  | elementsClose => "Expect '\x7d' after elements."
  | chooseThen => "Expect THEN in conditional expression."
  | chooseElse => "Expect ELSE in conditional expression."
  | parameterName => "Expect parameter name."
  | parametersClose => "Expect ')' after parameters."

/-- Why a line is no statement, or has no place where it stands. -/
inductive SyntaxFault where
  | expected (what : Expectation)
  /-- No expression starts with the described token. -/
  | noExpression (found : String)
  /-- The described token follows a complete statement. -/
  | trailing (found : String)
  | tooDeep
  | tooManyArguments
  | tooManyParameters
  | duplicateParameter (name : String)
  /-- A branch after the last one of its chain. -/
  | branchAfterElse (word : String)
  | branchWithoutIf (word : String)
  /-- A closing statement whose construct is not the innermost open one. -/
  | closerWithout (closer opener : String)
  | counterMismatch (named counter : String)
  | returnOutside
  | returnValueInSub
  | jumpOutside (word loop : String)
  | circularUse (name : String)
  /-- The text ends inside a construct. -/
  | unclosed (opener closer : String)
  deriving DecidableEq, Repr

/-- The wording of a fault. -/
def SyntaxFault.message : SyntaxFault → String
  | expected what => what.message
  | noExpression found => "Expect expression, found " ++ found ++ "."
  | trailing found => "Unexpected " ++ found ++ " after statement."
  | tooDeep => "Too much nesting in expression."
  | tooManyArguments => "Can't have more than 255 arguments."
  | tooManyParameters => "Can't have more than 255 parameters."
  | duplicateParameter name => "Duplicate parameter " ++ name ++ "."
  | branchAfterElse word => word ++ " after ELSE"
  | branchWithoutIf word => word ++ " without IF"
  | closerWithout closer opener => closer ++ " without " ++ opener
  | counterMismatch named counter =>
    "NEXT " ++ named ++ " does not match FOR " ++ counter
  | returnOutside => "RETURN without FUNCTION or SUB"
  | returnValueInSub => "RETURN value without FUNCTION"
  | jumpOutside word loop => word ++ " " ++ loop ++ " without " ++ loop
  | circularUse name => "circular USE of " ++ name
  | unclosed opener closer => opener ++ " without " ++ closer

end LineBasic
