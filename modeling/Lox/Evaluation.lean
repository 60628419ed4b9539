/-
  Lox.Evaluation — the value of an expression.

  Operands are evaluated from left to right, and each is evaluated in full before it is
  judged: the callee and all arguments before the call is checked, the object of a
  property assignment before the value. A call is handed on to `enter`, which runs it.

  Each expression takes a level of the host's stack, a call two of them. The room is the
  number of levels that are left.
-/

import Lox.Machine
import Lox.Operator
import Lox.Scope.Resolution

namespace Lox

/-- Runs a call whose callee and number of arguments have been checked, in the room that
is left. The lexeme is the closing parenthesis of the call. -/
abbrev Enter := Nat → Lexeme → Value → List Value → Eval Value

namespace Eval

/-- The left operand decides. -/
def isDecided (op : Lexeme) (left : Value) : Bool :=
  if op.text = Keyword.or_.text then left.isTruthy else !left.isTruthy

/-- The number of parameters of what can be called. -/
def arity? (room : Nat) : Value → Eval (Option Nat)
  | .clock => return some 0
  | .function id => do return some (← deref (← get).closures[id]?).routine.params.length
  | .class_ k => do
    match ← needs 2 room (findMethod initName k) with
    | some method => return some method.routine.params.length
    | none => return some 0
  | _ => return none

def checkCall (room : Nat) (paren : Lexeme) (callee : Value) (count : Nat) : Eval Unit := do
  match ← arity? room callee with
  | none => fail paren .notCallable
  | some expected => if count = expected then return () else fail paren (.wrongArity expected count)

/-- A field hides a method of the same name. -/
def property (room : Nat) (object : Value) (name : Lexeme) : Eval Value :=
  match object with
  | .instance_ id => do
    let i ← deref (← get).instances[id]?
    match i.fields.get? name.text with
    | some value => return value
    | none =>
      match ← needs 2 room (findMethod name.text i.class_) with
      | some method => needs 3 room (boundMethod method id)
      | none => fail name (.undefinedProperty name.text)
  | _ => fail name .noProperties

/-- The instance whose field is to be set. -/
def fieldOwner (object : Value) (name : Lexeme) : Eval Nat :=
  match object with
  | .instance_ id => return id
  | _ => fail name .noFields

/-- A method of the superclass, bound to the instance one environment inside of it. -/
def superMethod (room : Nat) (keyword : Reference) (method : Lexeme) : Eval Value := needs 2 room do
  match ← distance? keyword with
  | none => throw (.fault (.unresolvedSlot keyword.slot))
  | some d =>
    let parent ← readAt d superName
    let receiver ← readAt (d - 1) thisName
    match parent, receiver with
    | .class_ k, .instance_ id =>
      match ← findMethod method.text k with
      | some found => boundMethod found id
      | none => fail method (.undefinedProperty method.text)
    | _, _ => throw (.fault .superNotClass)

def binary (room : Nat) (op : Lexeme) (left right : Value) : Eval Value := deeper room fun room =>
  needs (Operator.binaryLevels op left right) room do
    let m ← get
    ofOperator room (Operator.binary m.display op left right)

mutual

def expr (enter : Enter) (room : Nat) (e : Expr) : Eval Value := deeper room fun room =>
  match e with
  | .literal value => return value.value
  | .group inner => expr enter room inner
  | .unary op operand => do ofOperator room (Operator.unary op (← expr enter room operand))
  | .binary left op right => do
    let a ← expr enter room left
    let b ← expr enter room right
    binary room op a b
  | .logical left op right => do
    let a ← expr enter room left
    if isDecided op a then return a else expr enter room right
  | .ternary cond yes no => do
    if (← expr enter room cond).isTruthy then expr enter room yes else expr enter room no
  | .ref target => read room target
  | .assign target value => do
    let v ← expr enter room value
    assign room target v
    return v
  | .call callee paren args => deeper room fun room => do
    let f ← expr enter room callee
    let values ← exprs enter room args
    checkCall room paren f values.length
    enter room paren f values
  | .get object name => do property room (← expr enter room object) name
  | .set object name value => do
    let id ← fieldOwner (← expr enter room object) name
    let v ← expr enter room value
    setField id name.text v
    return v
  | .this keyword => read room keyword
  | .super keyword method => superMethod room keyword method

def exprs (enter : Enter) (room : Nat) (es : List Expr) : Eval (List Value) :=
  match es with
  | [] => return []
  | e :: rest => do
    let v ← expr enter room e
    return v :: (← exprs enter room rest)

end

theorem expr_zero (enter : Enter) (e : Expr) : expr enter 0 e = throw .outOfStack := by cases e <;> rfl

/-- An expression that may be absent; its value is then nil. -/
def exprOpt (enter : Enter) (room : Nat) : Option Expr → Eval Value
  | none => return .nil
  | some e => expr enter room e

end Eval

end Lox
