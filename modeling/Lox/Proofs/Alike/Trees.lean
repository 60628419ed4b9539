/-
  Lox.Proofs.Alike.Trees — two texts that say the same thing: the same statements and
  expressions, with other lines, slots or local names.

  Each local scope has a `Spelling`, which says how its names are written in the second
  text; names of the first text that are in use stay apart. The second text may have scopes
  of its own (`Layer.added`), in which nothing is declared: those of blocks around a single
  statement. What else may differ is left to a `Likeness`: how two names have to agree where
  an error would point at them, and which references lead to the same declaration.
  `Alike Λ scopes site site'` is by recursion on the text; nothing in it depends on a
  machine, so a text stays alike when more is known (`Alike.mono`), and moving the lines or
  slots of the second one keeps them alike (`Alike.shift`).
-/

import Lox.Proofs.Scope.Lexical
import Lox.Proofs.Tree.Parts
import Lox.Proofs.Tree.Shift

namespace Lox

/-! ## Spellings -/

/-- How the names of a scope are written in the second text. -/
structure Spelling where
  text : String → String
  /-- The names that the first text may use. -/
  Used : String → Prop
  injective : ∀ a b, Used a → Used b → text a = text b → a = b
  this : Used thisName ∧ text thisName = thisName
  super : Used superName ∧ text superName = superName

namespace Spelling

/-- Names are written as they are. -/
def plain : Spelling := ⟨id, fun _ => True, fun _ _ _ _ h => h, ⟨trivial, rfl⟩, ⟨trivial, rfl⟩⟩

/-- A name and how the second text writes it. -/
def Writes (s : Spelling) (a a' : Lexeme) : Prop := s.Used a.text ∧ a'.text = s.text a.text

def WritesAll (s : Spelling) (as as' : List Lexeme) : Prop :=
  (∀ a ∈ as, s.Used a.text) ∧ as'.map (·.text) = as.map fun a => s.text a.text

theorem WritesAll.length {s : Spelling} {as as' : List Lexeme} (h : s.WritesAll as as') : as'.length = as.length := by
  simpa using congrArg List.length h.2

end Spelling

/-! ## Scopes around a place -/

/-- A scope around a place in the second text. -/
inductive Layer where
  /-- It is in both texts. -/
  | shared (s : Spelling)
  /-- It is in the second text alone. -/
  | added

/-- How the innermost scope spells its names, if both texts have it; the global one spells
them as they are. -/
def innermost : List Layer → Option Spelling
  | [] => some .plain
  | .shared s :: _ => some s
  | .added :: _ => none

/-- The innermost scope declares the names. -/
def Declares (scopes : List Layer) (a a' : Lexeme) : Prop := ∃ s, innermost scopes = some s ∧ s.Writes a a'

theorem Declares.isSome {scopes : List Layer} {a a' : Lexeme} (h : Declares scopes a a') :
    (innermost scopes).isSome := by
  obtain ⟨s, hs, -⟩ := h
  rw [hs]
  rfl

/-- The scope so many scopes out in the first text is the one so many scopes out in the second. -/
inductive Meets : List Layer → Nat → Nat → Spelling → Prop
  | here {s : Spelling} {ss : List Layer} : Meets (.shared s :: ss) 0 0 s
  | outer {s t : Spelling} {ss : List Layer} {d d' : Nat} : Meets ss d d' s → Meets (.shared t :: ss) (d + 1) (d' + 1) s
  | past {s : Spelling} {ss : List Layer} {d d' : Nat} : Meets ss d d' s → Meets (.added :: ss) d (d' + 1) s

/-- Where all scopes are shared, one meets itself. -/
theorem meets_map {α : Type} (f : α → Spelling) {xs : List α} {x : α} {d : Nat} (h : xs[d]? = some x) :
    Meets (xs.map fun a => .shared (f a)) d d (f x) := by
  induction xs generalizing d with
  | nil => cases h
  | cons first rest ih =>
    cases d with
    | zero =>
      cases h
      exact .here
    | succ d => exact .outer (ih h)

/-! ## Alike texts -/

/-- What may differ between two runs that do the same. -/
structure Likeness where
  /-- Two places that an error may point at. -/
  place : Lexeme → Lexeme → Prop
  /-- Two references to the same declaration. -/
  reference : List Layer → Reference → Reference → Prop
  /-- The second text may have blocks of its own. -/
  boxes : Prop
  /-- The second text may go deeper on the stack, as it does in a block of its own. -/
  deeper : Prop
  deeper_of_boxes : boxes → deeper

/-- A name that is not bound to a declaration, and that errors point at. -/
def Likeness.Names (Λ : Likeness) (a a' : Lexeme) : Prop := a'.text = a.text ∧ Λ.place a a'

/-- A reference, at which errors point too. -/
def Likeness.Refers (Λ : Likeness) (scopes : List Layer) (r r' : Reference) : Prop :=
  Λ.reference scopes r r' ∧ Λ.place r.name r'.name

/-- Two parts of programs that do the same in scopes that are paired. -/
inductive Alike (Λ : Likeness) : List Layer → Site → Site → Prop
  | nil {ss : List Layer} : Alike Λ ss (.stmts []) (.stmts [])
  | cons {ss : List Layer} {s s' : Stmt} {rest rest' : List Stmt} : Alike Λ ss (.stmt s) (.stmt s') →
      Alike Λ ss (.stmts rest) (.stmts rest') → Alike Λ ss (.stmts (s :: rest)) (.stmts (s' :: rest'))
  | effect {ss : List Layer} {e e' : Expr} : Alike Λ ss (.expr e) (.expr e') →
      Alike Λ ss (.stmt (.expr e)) (.stmt (.expr e'))
  | printed {ss : List Layer} {e e' : Expr} : Alike Λ ss (.expr e) (.expr e') →
      Alike Λ ss (.stmt (.print_ e)) (.stmt (.print_ e'))
  | var {ss : List Layer} {name name' : Lexeme} : Declares ss name name' →
      Alike Λ ss (.stmt (.var name none)) (.stmt (.var name' none))
  | varInit {ss : List Layer} {name name' : Lexeme} {e e' : Expr} : Declares ss name name' →
      Alike Λ ss (.expr e) (.expr e') → Alike Λ ss (.stmt (.var name (some e))) (.stmt (.var name' (some e')))
  | block {ss : List Layer} {s : Spelling} {body body' : List Stmt} :
      Alike Λ (.shared s :: ss) (.stmts body) (.stmts body') → Alike Λ ss (.stmt (.block body)) (.stmt (.block body'))
  | boxed {ss : List Layer} {s s' : Stmt} : Λ.boxes → Alike Λ (.added :: ss) (.stmt s) (.stmt s') →
      Alike Λ ss (.stmt s) (.stmt (.block [s']))
  | cond {ss : List Layer} {e e' : Expr} {yes yes' : Stmt} : Alike Λ ss (.expr e) (.expr e') →
      Alike Λ ss (.stmt yes) (.stmt yes') → Alike Λ ss (.stmt (.cond e yes none)) (.stmt (.cond e' yes' none))
  | condElse {ss : List Layer} {e e' : Expr} {yes yes' no no' : Stmt} : Alike Λ ss (.expr e) (.expr e') →
      Alike Λ ss (.stmt yes) (.stmt yes') → Alike Λ ss (.stmt no) (.stmt no') →
      Alike Λ ss (.stmt (.cond e yes (some no))) (.stmt (.cond e' yes' (some no')))
  | loop {ss : List Layer} {e e' : Expr} {body body' : Stmt} : Alike Λ ss (.expr e) (.expr e') →
      Alike Λ ss (.stmt body) (.stmt body') → Alike Λ ss (.stmt (.loop e body none)) (.stmt (.loop e' body' none))
  | loopStep {ss : List Layer} {e e' step step' : Expr} {body body' : Stmt} : Alike Λ ss (.expr e) (.expr e') →
      Alike Λ ss (.stmt body) (.stmt body') → Alike Λ ss (.expr step) (.expr step') →
      Alike Λ ss (.stmt (.loop e body (some step))) (.stmt (.loop e' body' (some step')))
  /-- A step at the end of the body, in a block with it. -/
  | stepped {ss : List Layer} {e e' step step' : Expr} {body body' : Stmt} : Λ.deeper → body.NeverContinues →
      Alike Λ ss (.expr e) (.expr e') → Alike Λ (.added :: ss) (.stmt body) (.stmt body') →
      Alike Λ (.added :: ss) (.expr step) (.expr step') →
      Alike Λ ss (.stmt (.loop e body (some step))) (.stmt (.loop e' (.block [body', .expr step']) none))
  | break_ {ss : List Layer} {keyword keyword' : Lexeme} :
      Alike Λ ss (.stmt (.break_ keyword)) (.stmt (.break_ keyword'))
  | continue_ {ss : List Layer} {keyword keyword' : Lexeme} :
      Alike Λ ss (.stmt (.continue_ keyword)) (.stmt (.continue_ keyword'))
  | fun_ {ss : List Layer} {f f' : Routine} : Declares ss f.name f'.name →
      Alike Λ ss (.routine .function f) (.routine .function f') → Alike Λ ss (.stmt (.fun_ f)) (.stmt (.fun_ f'))
  | returned {ss : List Layer} {keyword keyword' : Lexeme} :
      Alike Λ ss (.stmt (.return_ keyword none)) (.stmt (.return_ keyword' none))
  | returnedValue {ss : List Layer} {keyword keyword' : Lexeme} {e e' : Expr} : Alike Λ ss (.expr e) (.expr e') →
      Alike Λ ss (.stmt (.return_ keyword (some e))) (.stmt (.return_ keyword' (some e')))
  | class_ {ss : List Layer} {receiver : Spelling} {name name' : Lexeme} {ms ms' : List Routine} :
      Declares ss name name' → name'.text = name.text → Alike Λ (.shared receiver :: ss) (.methods ms) (.methods ms') →
      Alike Λ ss (.stmt (.class_ name none ms)) (.stmt (.class_ name' none ms'))
  | subclass {ss : List Layer} {receiver superclass : Spelling} {name name' : Lexeme} {target target' : Reference}
      {ms ms' : List Routine} : Declares ss name name' → name'.text = name.text →
      Alike Λ ss (.parent name target) (.parent name' target') →
      Alike Λ (.shared receiver :: .shared superclass :: ss) (.methods ms) (.methods ms') →
      Alike Λ ss (.stmt (.class_ name (some target) ms)) (.stmt (.class_ name' (some target') ms'))
  | parent {ss : List Layer} {name name' : Lexeme} {target target' : Reference} : Λ.Refers ss target target' →
      Alike Λ ss (.parent name target) (.parent name' target')
  | noMethod {ss : List Layer} : Alike Λ ss (.methods []) (.methods [])
  | method {ss : List Layer} {m m' : Routine} {rest rest' : List Routine} :
      Alike Λ ss (.routine (methodContext m) m) (.routine (methodContext m') m') →
      Alike Λ ss (.methods rest) (.methods rest') → Alike Λ ss (.methods (m :: rest)) (.methods (m' :: rest'))
  | routine {ss : List Layer} {s : Spelling} {context context' : RoutineContext} {name name' : Lexeme}
      {params params' : List Lexeme} {body body' : List Stmt} : name'.text = name.text →
      s.WritesAll params params' → Alike Λ (.shared s :: ss) (.stmts body) (.stmts body') →
      Alike Λ ss (.routine context ⟨name, params, body⟩) (.routine context' ⟨name', params', body'⟩)
  | noExpr {ss : List Layer} : Alike Λ ss (.exprs []) (.exprs [])
  | moreExprs {ss : List Layer} {e e' : Expr} {es es' : List Expr} : Alike Λ ss (.expr e) (.expr e') →
      Alike Λ ss (.exprs es) (.exprs es') → Alike Λ ss (.exprs (e :: es)) (.exprs (e' :: es'))
  | literal {ss : List Layer} {value : Literal} : Alike Λ ss (.expr (.literal value)) (.expr (.literal value))
  | group {ss : List Layer} {e e' : Expr} : Alike Λ ss (.expr e) (.expr e') →
      Alike Λ ss (.expr (.group e)) (.expr (.group e'))
  | unary {ss : List Layer} {op op' : Lexeme} {e e' : Expr} : Λ.Names op op' → Alike Λ ss (.expr e) (.expr e') →
      Alike Λ ss (.expr (.unary op e)) (.expr (.unary op' e'))
  | binary {ss : List Layer} {op op' : Lexeme} {a a' b b' : Expr} : Λ.Names op op' → Alike Λ ss (.expr a) (.expr a') →
      Alike Λ ss (.expr b) (.expr b') → Alike Λ ss (.expr (.binary a op b)) (.expr (.binary a' op' b'))
  | logical {ss : List Layer} {op op' : Lexeme} {a a' b b' : Expr} : Λ.Names op op' → Alike Λ ss (.expr a) (.expr a') →
      Alike Λ ss (.expr b) (.expr b') → Alike Λ ss (.expr (.logical a op b)) (.expr (.logical a' op' b'))
  | ternary {ss : List Layer} {a a' b b' c c' : Expr} : Alike Λ ss (.expr a) (.expr a') → Alike Λ ss (.expr b)
    (.expr b') →
      Alike Λ ss (.expr c) (.expr c') → Alike Λ ss (.expr (.ternary a b c)) (.expr (.ternary a' b' c'))
  | ref {ss : List Layer} {target target' : Reference} : Λ.Refers ss target target' →
      Alike Λ ss (.expr (.ref target)) (.expr (.ref target'))
  | assign {ss : List Layer} {target target' : Reference} {e e' : Expr} : Λ.Refers ss target target' →
      Alike Λ ss (.expr e) (.expr e') → Alike Λ ss (.expr (.assign target e)) (.expr (.assign target' e'))
  | call {ss : List Layer} {f f' : Expr} {paren paren' : Lexeme} {es es' : List Expr} : Λ.Names paren paren' →
      Alike Λ ss (.expr f) (.expr f') → Alike Λ ss (.exprs es) (.exprs es') →
      Alike Λ ss (.expr (.call f paren es)) (.expr (.call f' paren' es'))
  | get {ss : List Layer} {o o' : Expr} {name name' : Lexeme} : Λ.Names name name' → Alike Λ ss (.expr o) (.expr o') →
      Alike Λ ss (.expr (.get o name)) (.expr (.get o' name'))
  | set {ss : List Layer} {o o' v v' : Expr} {name name' : Lexeme} : Λ.Names name name' →
      Alike Λ ss (.expr o) (.expr o') → Alike Λ ss (.expr v) (.expr v') →
      Alike Λ ss (.expr (.set o name v)) (.expr (.set o' name' v'))
  | this {ss : List Layer} {keyword keyword' : Reference} : Λ.Refers ss keyword keyword' →
      Alike Λ ss (.expr (.this keyword)) (.expr (.this keyword'))
  | super {ss : List Layer} {keyword keyword' : Reference} {method method' : Lexeme} : keyword.name.text = superName →
      Λ.Refers ss keyword keyword' → Λ.Names method method' →
      Alike Λ ss (.expr (.super keyword method)) (.expr (.super keyword' method'))

/-! ## The second text moved -/

namespace Shift

variable (g : Shift)

def site : Site → Site
  | .stmts ss => .stmts (g.stmts ss)
  | .stmt s => .stmt (g.stmt s)
  | .exprs es => .exprs (g.exprs es)
  | .expr e => .expr (g.expr e)
  | .parent name target => .parent (g.lexeme name) (g.reference target)
  | .routine context r => .routine context (g.routine r)
  | .methods ms => .methods (g.routines ms)

theorem writesAll {s : Spelling} {as as' : List Lexeme} (h : s.WritesAll as as') :
    s.WritesAll as (as'.map g.lexeme) := by
  refine ⟨h.1, ?_⟩
  rw [List.map_map]
  exact h.2

end Shift

variable {Λ Λ' : Likeness} {ss : List Layer} {site site' : Site}

theorem Alike.parts {context context' : RoutineContext} {f f' : Routine}
    (h : Alike Λ ss (.routine context f) (.routine context' f')) :
    f'.name.text = f.name.text ∧ ∃ s, s.WritesAll f.params f'.params ∧
      Alike Λ (.shared s :: ss) (.stmts f.body) (.stmts f'.body) := by
  cases h with
  | routine hn hw hb => exact ⟨hn, _, hw, hb⟩

/-- Less asked of the two texts. -/
theorem Alike.mono (h : Alike Λ ss site site') (hp : ∀ a a', Λ.place a a' → Λ'.place a a')
    (hr : ∀ ss r r', Λ.reference ss r r' → Λ'.reference ss r r') (hb : Λ.boxes → Λ'.boxes)
    (hd : Λ.deeper → Λ'.deeper) : Alike Λ' ss site site' := by
  have names {a a' : Lexeme} (h : Λ.Names a a') : Λ'.Names a a' := ⟨h.1, hp _ _ h.2⟩
  have refers {ss : List Layer} {r r' : Reference} (h : Λ.Refers ss r r') : Λ'.Refers ss r r' :=
    ⟨hr _ _ _ h.1, hp _ _ h.2⟩
  induction h with
  | nil => exact .nil
  | cons _ _ ih ih' => exact .cons ih ih'
  | effect _ ih => exact .effect ih
  | printed _ ih => exact .printed ih
  | var hn => exact .var hn
  | varInit hn _ ih => exact .varInit hn ih
  | block _ ih => exact .block ih
  | boxed hboxes _ ih => exact .boxed (hb hboxes) ih
  | cond _ _ ih ih' => exact .cond ih ih'
  | condElse _ _ _ ih ih' ih'' => exact .condElse ih ih' ih''
  | loop _ _ ih ih' => exact .loop ih ih'
  | loopStep _ _ _ ih ih' ih'' => exact .loopStep ih ih' ih''
  | stepped hdeeper hn _ _ _ ih ih' ih'' => exact .stepped (hd hdeeper) hn ih ih' ih''
  | break_ => exact .break_
  | continue_ => exact .continue_
  | fun_ hn _ ih => exact .fun_ hn ih
  | returned => exact .returned
  | returnedValue _ ih => exact .returnedValue ih
  | class_ hn ht _ ih => exact .class_ hn ht ih
  | subclass hn ht _ _ ih ih' => exact .subclass hn ht ih ih'
  | parent h => exact .parent (refers h)
  | noMethod => exact .noMethod
  | method _ _ ih ih' => exact .method ih ih'
  | routine hn hw _ ih => exact .routine hn hw ih
  | noExpr => exact .noExpr
  | moreExprs _ _ ih ih' => exact .moreExprs ih ih'
  | literal => exact .literal
  | group _ ih => exact .group ih
  | unary hn _ ih => exact .unary (names hn) ih
  | binary hn _ _ ih ih' => exact .binary (names hn) ih ih'
  | logical hn _ _ ih ih' => exact .logical (names hn) ih ih'
  | ternary _ _ _ ih ih' ih'' => exact .ternary ih ih' ih''
  | ref h => exact .ref (refers h)
  | assign h _ ih => exact .assign (refers h) ih
  | call hn _ _ ih ih' => exact .call (names hn) ih ih'
  | get hn _ ih => exact .get (names hn) ih
  | set hn _ _ ih ih' => exact .set (names hn) ih ih'
  | this h => exact .this (refers h)
  | super hk h hn => exact .super hk (refers h) (names hn)

/-- The second text moved, and more or less asked of the two. -/
theorem Alike.shift (g : Shift) (h : Alike Λ ss site site') (hp : ∀ a a', Λ.place a a' → Λ'.place a (g.lexeme a'))
    (hr : ∀ ss r r', Λ.reference ss r r' → Λ'.reference ss r (g.reference r')) (hb : Λ.boxes → Λ'.boxes)
    (hd : Λ.deeper → Λ'.deeper) : Alike Λ' ss site (g.site site') := by
  have names {a a' : Lexeme} (h : Λ.Names a a') : Λ'.Names a (g.lexeme a') := ⟨h.1, hp _ _ h.2⟩
  have refers {ss : List Layer} {r r' : Reference} (h : Λ.Refers ss r r') : Λ'.Refers ss r (g.reference r') :=
    ⟨hr _ _ _ h.1, hp _ _ h.2⟩
  induction h with
  | nil => exact .nil
  | cons _ _ ih ih' => exact .cons ih ih'
  | effect _ ih => exact .effect ih
  | printed _ ih => exact .printed ih
  | var hn => exact .var hn
  | varInit hn _ ih => exact .varInit hn ih
  | block _ ih => exact .block ih
  | boxed hboxes _ ih => exact .boxed (hb hboxes) ih
  | cond _ _ ih ih' => exact .cond ih ih'
  | condElse _ _ _ ih ih' ih'' => exact .condElse ih ih' ih''
  | loop _ _ ih ih' => exact .loop ih ih'
  | loopStep _ _ _ ih ih' ih'' => exact .loopStep ih ih' ih''
  | stepped hdeeper hn _ _ _ ih ih' ih'' => exact .stepped (hd hdeeper) hn ih ih' ih''
  | break_ => exact .break_
  | continue_ => exact .continue_
  | @fun_ ss f f' hn _ ih =>
    obtain ⟨name, params, body⟩ := f'
    exact .fun_ hn ih
  | returned => exact .returned
  | returnedValue _ ih => exact .returnedValue ih
  | class_ hn ht _ ih => exact .class_ hn ht ih
  | subclass hn ht _ _ ih ih' => exact .subclass hn ht ih ih'
  | parent h => exact .parent (refers h)
  | noMethod => exact .noMethod
  | @method ss m m' rest rest' _ _ ih ih' =>
    obtain ⟨name, params, body⟩ := m'
    exact .method ih ih'
  | routine hn hw _ ih => exact .routine hn (g.writesAll hw) ih
  | noExpr => exact .noExpr
  | moreExprs _ _ ih ih' => exact .moreExprs ih ih'
  | literal => exact .literal
  | group _ ih => exact .group ih
  | unary hn _ ih => exact .unary (names hn) ih
  | binary hn _ _ ih ih' => exact .binary (names hn) ih ih'
  | logical hn _ _ ih ih' => exact .logical (names hn) ih ih'
  | ternary _ _ _ ih ih' ih'' => exact .ternary ih ih' ih''
  | ref h => exact .ref (refers h)
  | assign h _ ih => exact .assign (refers h) ih
  | call hn _ _ ih ih' => exact .call (names hn) ih ih'
  | get hn _ ih => exact .get (names hn) ih
  | set hn _ _ ih ih' => exact .set (names hn) ih ih'
  | this h => exact .this (refers h)
  | super hk h hn => exact .super hk (refers h) (names hn)

end Lox
