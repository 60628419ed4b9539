/-
  Lox.Proofs.Scope.Binding — the errors in the declarations of a program, said without walking
  it with a resolver.

  A block is a local scope, and so is a routine, its parameters and its body together
  (`Stmt.scopes` lists those of a statement). In a scope a name belongs to its first
  declaration; a later one is a duplicate. From its declaration on the name is read by the
  variables behind it, in the scope and in the scopes inside of it, unless one of those has
  declared the name by then: `Stmt.reads` are the names that a statement reads in the scope
  that it stands in or beyond. An assignment reads nothing, and the initializer of a
  variable that is declared there cannot read it.

  `LocalScope.errors` are the errors of one scope by these rules: duplicates, variables that
  are read in their own initializer, and declarations that nothing reads. Parameters may
  be duplicates, but they need not be read.
-/

import Lox.Proofs.Scope.Walk

namespace Lox

open Resolver

/-! ## Names that are read -/

namespace Expr

mutual

/-- The variables of an expression, in the order of the walk. -/
def refs : Expr → List Lexeme
  | .literal _ => []
  | .group inner => inner.refs
  | .unary _ operand => operand.refs
  | .binary left _ right => left.refs ++ right.refs
  | .logical left _ right => left.refs ++ right.refs
  | .ternary cond yes no => cond.refs ++ (yes.refs ++ no.refs)
  | .ref target => [target.name]
  | .assign _ value => value.refs
  | .call callee _ args => callee.refs ++ refsAll args
  | .get object _ => object.refs
  | .set object _ value => value.refs ++ object.refs
  | .this _ => []
  | .super _ _ => []

def refsAll : List Expr → List Lexeme
  | [] => []
  | e :: rest => e.refs ++ refsAll rest

end

def refsOpt (e : Option Expr) : List Lexeme := e.elim [] refs

def reads (e : Expr) : List String := e.refs.map (·.text)

def readsOpt (e : Option Expr) : List String := (refsOpt e).map (·.text)

end Expr

namespace Stmt

mutual

/-- The names of the variables of a statement that are not declared in a scope inside of it. -/
def reads : Stmt → List String
  | .expr e => e.reads
  | .print_ e => e.reads
  | .var _ init => Expr.readsOpt init
  | .block body => escaping [] body
  | .cond test yes no => test.reads ++ (yes.reads ++ readsOpt no)
  | .loop test body step => test.reads ++ (body.reads ++ Expr.readsOpt step)
  | .break_ _ => []
  | .continue_ _ => []
  | .fun_ routine => routineReads routine
  | .return_ _ value => Expr.readsOpt value
  | .class_ _ superclass methods => superclass.elim [] (fun parent => [parent.name.text]) ++ methodReads methods

/-- The names that the statements of a scope read beyond it; it has declared `seen` before them. -/
def escaping (seen : List String) : List Stmt → List String
  | [] => []
  | s :: rest => s.reads.filter (· ∉ seen ++ declared s) ++ escaping (seen ++ declared s) rest

def readsOpt : Option Stmt → List String
  | none => []
  | some s => s.reads

def routineReads : Routine → List String
  | ⟨_, params, body⟩ => escaping (params.map (·.text)) body

def methodReads : List Routine → List String
  | [] => []
  | m :: rest => routineReads m ++ methodReads rest

end

def readsAll : List Stmt → List String
  | [] => []
  | s :: rest => s.reads ++ readsAll rest

/-- The names read by a declaration itself from where its own name may be read. -/
def readsBack : Stmt → List String
  | .var _ _ => []
  | s => s.reads

end Stmt

/-! ## Local scopes -/

/-- The parameters and the statements of one scope. -/
structure LocalScope where
  params : List Lexeme
  body : List Stmt

namespace Stmt

mutual

/-- The local scopes inside of a statement. -/
def scopes : Stmt → List LocalScope
  | .block body => ⟨[], body⟩ :: scopesAll body
  | .cond _ yes no => yes.scopes ++ scopesOpt no
  | .loop _ body _ => body.scopes
  | .fun_ routine => routineScopes routine
  | .class_ _ _ methods => methodScopes methods
  | _ => []

def scopesAll : List Stmt → List LocalScope
  | [] => []
  | s :: rest => s.scopes ++ scopesAll rest

def scopesOpt : Option Stmt → List LocalScope
  | none => []
  | some s => s.scopes

def routineScopes : Routine → List LocalScope
  | ⟨_, params, body⟩ => ⟨params, body⟩ :: scopesAll body

def methodScopes : List Routine → List LocalScope
  | [] => []
  | m :: rest => routineScopes m ++ methodScopes rest

end

end Stmt

/-! ## Errors of a scope

Each rule is about a list of declarations or statements behind others, which have declared
the names `seen` in the same scope. -/

/-- The names that an earlier declaration has. -/
def duplicates (seen : List String) : List Lexeme → List Lexeme
  | [] => []
  | name :: rest => [name].filter (·.text ∈ seen) ++ duplicates (seen ++ [name.text]) rest

/-- The variables of an initializer that have the name that is declared there for the first time. -/
def Stmt.ownReads (seen : List String) : Stmt → List Lexeme
  | .var name init => if name.text ∈ seen then [] else (Expr.refsOpt init).filter (·.text = name.text)
  | _ => []

def ownReadsAll (seen : List String) : List Stmt → List Lexeme
  | [] => []
  | s :: rest => s.ownReads seen ++ ownReadsAll (seen ++ declared s) rest

/-- The names that are declared for the first time and not read from there on. -/
def unread (seen : List String) : List Stmt → List Lexeme
  | [] => []
  | s :: rest =>
    s.declares?.toList.filter (fun name => name.text ∉ seen ∧ name.text ∉ s.readsBack ++ Stmt.readsAll rest) ++
      unread (seen ++ declared s) rest

namespace LocalScope

/-- The names that are declared in a scope, in their order. -/
def declarations (scope : LocalScope) : List Lexeme := scope.params ++ scope.body.filterMap Stmt.declares?

def paramNames (scope : LocalScope) : List String := scope.params.map (·.text)

def errors (scope : LocalScope) : List Diagnostic :=
  (duplicates [] scope.declarations).map (·.faulty .duplicate) ++
    ((ownReadsAll scope.paramNames scope.body).map (·.faulty .ownInitializer) ++
      (unread scope.paramNames scope.body).map fun name => name.faulty (.unused name.text))

end LocalScope

/-- A fault of a declaration. -/
def BindingFault.isDeclarational : BindingFault → Bool
  | .unused _ | .duplicate | .ownInitializer => true
  | _ => false

end Lox
