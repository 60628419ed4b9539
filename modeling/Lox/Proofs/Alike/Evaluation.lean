/-
  Lox.Proofs.Alike.Evaluation — alike texts do the same on machines that are kin
  (`together_program`).

  By induction on the calls that may still be open, and for each number of them on the two
  texts: an expression or a statement is in step with the other one wherever the
  environments around them correspond (`inStep_of_alike`), if calls are; and a call is, if
  the bodies of alike routines are with one call less. The rooms on the stack go down in
  step as well, but for the levels that a block of the second text alone takes.
-/

import Lox.Proofs.Alike.Effects
import Lox.Proofs.Run.Stepped

namespace Lox

variable {α β : Type} {Λ : Likeness} {before : Array String} {π π₁ : Pairing} {m m' m₁ m₁' : Machine} {ss : List Layer}
  {s : Spelling} {k k' n room room' : Nat} {host : Host}

open Eval

/-- Two actions do the same wherever environments of these scopes are around. -/
def InStep (Λ : Likeness) (before : Array String) (ss : List Layer) (a a' : Eval α) : Prop :=
  ∀ π m m', Kin Λ before π m m' → Around π m m' m.current m'.current ss → Together Λ before π m m' a a' Same

/-- Calls do the same on machines that are kin. -/
def Enters (Λ : Likeness) (before : Array String) (enter : Enter) : Prop :=
  ∀ room room' paren paren' callee values π m m', Λ.Rooms room room' → Λ.Names paren paren' → Kin Λ before π m m' →
    Together Λ before π m m' (enter room paren callee values) (enter room' paren' callee values) Same

/-- Two parts of texts do the same, in whichever rooms. -/
def SitesInStep (Λ : Likeness) (before : Array String) (host : Host) (enter : Enter) (ss : List Layer)
    (site site' : Site) : Prop :=
  ∀ room room', Λ.Rooms room room' →
    match site, site' with
    | .stmts a, .stmts a' => InStep Λ before ss (stmts host enter room a) (stmts host enter room' a')
    | .stmt a, .stmt a' => InStep Λ before ss (stmt host enter room a) (stmt host enter room' a')
    | .exprs a, .exprs a' => InStep Λ before ss (exprs enter room a) (exprs enter room' a')
    | .expr a, .expr a' => InStep Λ before ss (expr enter room a) (expr enter room' a')
    | .parent _ r, .parent _ r' => InStep Λ before ss (superclassValue room r) (superclassValue room' r')
    | _, _ => True

/-! ## One action after the other -/

theorem InStep.pure (v : α) : InStep Λ before ss (Pure.pure v) (Pure.pure v) := fun _ _ _ hk _ => .pure hk rfl

/-- What the first actions give, the next ones may use. -/
theorem InStep.bind {a a' : Eval α} {f f' : α → Eval β} (h : InStep Λ before ss a a')
    (hf : ∀ v, InStep Λ before ss (f v) (f' v)) : InStep Λ before ss (a >>= f) (a' >>= f') := by
  intro π m m' hk ha
  refine (h _ _ _ hk ha).bind fun π₁ m₁ m₁' v v' hp hv => ?_
  cases hv
  exact hf v _ _ _ hp.kin (hp.around ha)

theorem InStep.map {a a' : Eval α} (h : InStep Λ before ss a a') (f : α → β) :
    InStep Λ before ss (do return f (← a)) (do return f (← a')) :=
  h.bind fun v => .pure (f v)

theorem inStep_define {name name' : Lexeme} (hn : Declares ss name name') (v : Value) :
    InStep Λ before ss (define name.text v) (define name'.text v) := fun _ _ _ hk ha => together_define hk ha hn v

theorem inStep_printValue (hroom : Λ.Rooms room room') (v : Value) :
    InStep Λ before ss (printValue room v) (printValue room' v) := fun _ _ _ hk _ => together_printValue hroom hk v

theorem inStep_echo (hroom : Λ.Rooms room room') (v : Value) : InStep Λ before ss (echo room v) (echo room' v) :=
  fun _ _ _ hk _ => together_echo hroom hk v

/-! ## The stack -/

theorem inStep_deeper {p p' : Nat → Eval α} (hroom : Λ.Rooms room room')
    (h : ∀ left left', Λ.Rooms left left' → InStep Λ before ss (p left) (p' left')) :
    InStep Λ before ss (deeper room p) (deeper room' p') := fun π m m' hk ha =>
  .deeper hroom hk fun left left' hleft => h left left' hleft π m m' hk ha

theorem InStep.needs {a a' : Eval α} (h : InStep Λ before ss a a') (hroom : Λ.Rooms room room') (levels : Nat) :
    InStep Λ before ss (Eval.needs levels room a) (Eval.needs levels room' a') := fun π m m' hk ha =>
  .needs hroom hk (h π m m' hk ha) levels

/-- The second text takes a level more. -/
theorem inStep_deeperAlone {a : Eval α} {p' : Nat → Eval α} (hd : Λ.deeper) (hroom : Λ.Rooms room room')
    (h : ∀ left', Λ.Rooms room left' → InStep Λ before ss a (p' left')) : InStep Λ before ss a (deeper room' p') :=
  fun π m m' hk ha => .deeperAlone hd hroom fun left' hleft => h left' hleft π m m' hk ha

/-! ## Loops and new environments -/

theorem inStep_test {enter : Enter} {e e' : Expr} (h : InStep Λ before ss (expr enter room e) (expr enter room' e')) :
    InStep Λ before ss (Eval.test enter room e) (Eval.test enter room' e') := h.map _

/-- The rounds of a loop are in step, by induction on how many are left. -/
theorem inStep_rounds {test test' : Eval Bool} {body body' : Eval Completion} {step step' : Eval Value}
    (ht : InStep Λ before ss test test') (hb : InStep Λ before ss body body') (hs : InStep Λ before ss step step')
    (n : Nat) :
    InStep Λ before ss (rounds test body step n) (rounds test' body' step' n) := by
  induction n with
  | zero => exact fun _ _ _ hk _ => together_fault hk trivial
  | succ n ih =>
    have again : InStep Λ before ss (do let _ ← step; rounds test body step n)
        (do let _ ← step'; rounds test' body' step' n) := hs.bind fun _ => ih
    refine ht.bind fun yes => ?_
    cases yes with
    | false => exact .pure _
    | true =>
      refine hb.bind fun done => ?_
      cases done with
      | broken => exact .pure _
      | returned v => exact .pure _
      | normal | continued => exact again

/-- An action that is in step, each machine in an environment of its own. -/
theorem InStep.inside {a a' : Eval α} (h : InStep Λ before ss a a') (hk : Kin Λ before π m m')
    (ha : Around π m m' k k' ss) :
    Together Λ before π m m' (Eval.inside k a) (Eval.inside k' a') Same := by
  have hin : Kin Λ before π { m with current := k } { m' with current := k' } ∧
      Paired π m m' π { m with current := k } { m' with current := k' } :=
    hk.others rfl rfl rfl rfl rfl rfl rfl rfl hk.instances hk.output hk.ticks
  exact Together.inside (h _ _ _ hin.1 (hin.2.around ha)) fun _ _ _ _ _ _ hv => hv

/-- What is in step with some statements in a new environment is in step with the block of them. -/
theorem inStep_inNew {enter : Enter} {a : Eval Completion} {body' : List Stmt}
    (h : InStep Λ before (.added :: ss) a (stmts host enter room' body')) :
    InStep Λ before ss a (do
      let env ← newEnvironment ∅ (← get).current
      Eval.inside env (stmts host enter room' body')) := by
  intro π m m' hk ha
  have hpush := hk.pushAlone ∅ m'.current
  have hpassed : Passed Λ before π m m' π m { m' with store := m'.store.push ∅ (some m'.current) } :=
    ⟨hpush.1, hpush.2, rfl, rfl, rfl, rfl⟩
  have hin : Kin Λ before π m { m' with store := m'.store.push ∅ (some m'.current), current := m'.store.size } ∧
      Paired π m { m' with store := m'.store.push ∅ (some m'.current) } π m
        { m' with store := m'.store.push ∅ (some m'.current), current := m'.store.size } :=
    hpush.1.others rfl rfl rfl rfl rfl rfl rfl rfl hk.instances hk.output hk.ticks
  have hlink : (m'.store.push ∅ (some m'.current)).outer? m'.store.size = some m'.current :=
    (Store.outer?_push ..).trans (if_pos rfl)
  have hbody := h π _ _ hin.1 ⟨m'.current, hlink, hin.2.around (hpush.2.around ha)⟩
  exact hbody.insideAlone.later hpassed rfl rfl

/-- The block takes two levels that the first text does not take. -/
theorem inStep_boxed {enter : Enter} {a : Eval Completion} {body' : List Stmt} (hd : Λ.deeper)
    (hroom : Λ.Rooms room room')
    (h : ∀ left', Λ.Rooms room left' → InStep Λ before (.added :: ss) a (stmts host enter left' body')) :
    InStep Λ before ss a (stmt host enter room' (.block body')) :=
  inStep_deeperAlone hd hroom fun _ houter => inStep_deeperAlone hd houter fun left' hleft =>
    inStep_inNew (h left' hleft)

/-- A body with its step behind it is in step with a list of both, in which the step is a statement. -/
theorem InStep.stepped {enter : Enter} {a : Eval Completion} {b : Eval Value} {body' : Stmt} {step' : Expr}
    (hd : Λ.deeper) (hroom : Λ.Rooms room room') (h : InStep Λ before ss a (stmt host enter room' body'))
    (hs : ∀ left', Λ.Rooms room left' → InStep Λ before ss b (expr enter left' step')) :
    InStep Λ before ss (stepped a b) (stmts host enter room' [body', .expr step']) := by
  refine h.bind fun done => ?_
  cases done with
  | normal =>
    have hlast : InStep Λ before ss (do let _ ← b; return Completion.normal) (stmt host enter room' (.expr step')) :=
      inStep_deeperAlone hd hroom fun left' hleft => (hs left' hleft).map _
    rw [← stmts_single] at hlast
    exact hlast
  | broken | continued | returned => exact .pure _

/-! ## Classes -/

/-- A method is in both tables or in neither. -/
theorem methodTable_both {ms ms' : List Routine} {e e' : Nat} (ha : Around π m m' e e' ss)
    (h : Alike Λ (.shared s :: ss) (.methods ms) (.methods ms')) (x : String) :
    BothOr (AlikeMethod Λ π m m') ((methodTable e ms).get? x) ((methodTable e' ms').get? x) := by
  have general : ∀ (ms ms' : List Routine) (t t' : Bindings Closure),
      Alike Λ (.shared s :: ss) (.methods ms) (.methods ms') →
      (∀ x, BothOr (AlikeMethod Λ π m m') (t.get? x) (t'.get? x)) →
      ∀ x, BothOr (AlikeMethod Λ π m m')
        ((ms.foldl (fun table f => table.set f.name.text ⟨f, e, f.isInit⟩) t).get? x)
        ((ms'.foldl (fun table f => table.set f.name.text ⟨f, e', f.isInit⟩) t').get? x) := by
    intro ms
    induction ms with
    | nil =>
      intro ms' t t' h ht
      cases h
      exact ht
    | cons f rest ih =>
      intro ms' t t' h ht
      cases h with
      | @method _ _ f' _ rest' hf hrest =>
        refine ih rest' _ _ hrest fun y => ?_
        have hname := hf.parts.1
        have hinit : f'.isInit = f.isInit := by
          unfold Routine.isInit
          rw [hname]
        rw [Bindings.get?_set, Bindings.get?_set, hname]
        split
        · exact ⟨hinit, s, ss, _, _, ha, hf⟩
        · exact ht y
  exact general ms ms' ∅ ∅ h (fun _ => trivial) x

/-- The environment for `super` is made on both sides, or on neither. -/
theorem together_methodEnv {s : Spelling} (hk : Kin Λ before π m m') (ha : Around π m m' m.current m'.current ss)
    (parent : Option Nat) : Together Λ before π m m' (methodEnv parent) (methodEnv parent) fun π₁ m₁ m₁' e e' =>
      Around π₁ m₁ m₁' e e' (parent.elim ss fun _ => .shared s :: ss) ∧
        ∀ x, (m.store.cell m.current x).isSome → (m₁.store.cell m₁.current x).isSome := by
  cases parent with
  | none => exact .get (.pure hk ⟨ha, fun _ h => h⟩)
  | some k =>
    have htable := Spelled.single s.super.1 (.class_ k)
    rw [s.super.2] at htable
    have hpush := hk.push htable m.current m'.current
    refine .of_ok rfl rfl ⟨hpush.1, hpush.2, rfl, rfl, rfl, rfl⟩ ⟨ha.push hpush.2 (if_pos rfl) ?_ ?_, fun x hx => ?_⟩
    · exact (Store.outer?_push ..).trans (if_pos rfl)
    · exact (Store.outer?_push ..).trans (if_pos rfl)
    · obtain ⟨v, hv⟩ := Option.isSome_iff_exists.mp hx
      have hlt := Store.cell_lt hv
      show ((m.store.push _ _).cell m.current x).isSome
      rw [Store.cell_push, if_neg (Nat.ne_of_lt hlt)]
      exact hx

/-- A name that the current environment has is assigned there, in any room. -/
theorem together_assignHere {name name' : Lexeme} (room room' : Nat) (hk : Kin Λ before π m m')
    (ha : Around π m m' m.current m'.current ss)
    (hn : Declares ss name name') (hx : (m.store.cell m.current name.text).isSome) (v : Value) :
    Together Λ before π m m' (do assignIn room (← get).current name v) (do assignIn room' (← get).current name' v)
      Same := by
  obtain ⟨s, hs, hused, htext⟩ := hn
  have hhead := ha.head hk hs
  have hx' : (m'.store.cell m'.current name'.text).isSome := by
    rw [htext, hk.cell hhead hused]
    exact hx
  refine .get (.get ?_)
  unfold Store.holder
  rw [Store.holder?_self hx, Store.holder?_self hx']
  have hstore := together_store hk hhead hused v
  rw [← htext] at hstore
  exact hstore

/-- The superclasses that two classes name are the same, if they name any. -/
theorem together_superclass {superclass superclass' : Option Reference} (hk : Kin Λ before π m m')
    (ha : Around π m m' m.current m'.current ss)
    (h : BothOr (fun r r' => InStep Λ before ss (superclassValue room r) (superclassValue room' r')) superclass
    superclass') :
    Together Λ before π m m' (superclass.mapM (superclassValue room)) (superclass'.mapM (superclassValue room'))
      fun _ _ _ parent parent' => parent' = parent ∧ parent.isSome = superclass.isSome := by
  rcases h.cases with ⟨rfl, rfl⟩ | ⟨r, r', rfl, rfl, hvalue⟩
  · exact .pure hk ⟨rfl, rfl⟩
  · refine (hvalue _ _ _ hk ha).bind fun _ _ _ _ _ hp hv => .pure hp.kin ?_
    cases hv
    exact ⟨rfl, rfl⟩

/-- A name that has just been defined is in the current environment. -/
theorem together_defined {name name' : Lexeme} (hk : Kin Λ before π m m') (ha : Around π m m' m.current m'.current ss)
    (hn : Declares ss name name') (v : Value) : Together Λ before π m m' (define name.text v) (define name'.text v)
      fun _ m₁ _ _ _ => (m₁.store.cell m₁.current name.text).isSome := by
  obtain ⟨s, hs, hused, htext⟩ := hn
  have hhead := ha.head hk hs
  have hd := hk.define hhead hused v
  have hlt := (hk.lt hhead).1
  refine .of_ok rfl rfl (?_ : Passed Λ before π m m' π _ _) ?_
  · rw [htext]
    exact ⟨hd.1, hd.2, rfl, rfl, rfl, rfl⟩
  · show ((m.store.define m.current name.text v).cell m.current name.text).isSome
    rw [Store.cell_define, if_pos ⟨rfl, rfl, hlt⟩]
    rfl

/-- A class is declared on both sides, with methods that are alike. -/
theorem together_declareClass {name name' : Lexeme} {superclass superclass' : Option Reference} {ms ms' : List Routine}
    {receiver : Spelling} (outer : Spelling) (hroom : Λ.Rooms room room') (hk : Kin Λ before π m m')
    (ha : Around π m m' m.current m'.current ss) (hn : Declares ss name name') (htext : name'.text = name.text)
    (hparent : BothOr (fun r r' => InStep Λ before ss (superclassValue room r) (superclassValue room' r')) superclass
    superclass')
    (hms : Alike Λ (.shared receiver :: superclass.elim ss fun _ => .shared outer :: ss) (.methods ms) (.methods ms')) :
    Together Λ before π m m' (declareClass room name superclass ms) (declareClass room' name' superclass' ms')
      Same := by
  refine (together_superclass hk ha hparent).bind fun π₁ m₁ m₁' _ parent hp hpar => ?_
  obtain ⟨rfl, hpar⟩ := hpar
  have ha₁ := hp.around ha
  refine .deeper hroom hp.kin fun left left' _ => ?_
  refine (together_defined hp.kin ha₁ hn .nil).bind fun π₂ m₂ m₂' _ _ hp₂ hx => ?_
  have ha₂ := hp₂.around ha₁
  refine (together_methodEnv (s := outer) hp₂.kin ha₂ parent).bind fun π₃ m₃ m₃' e e' hp₃ he => ?_
  have hms' : Alike Λ (.shared receiver :: parent.elim ss fun _ => .shared outer :: ss) (.methods ms)
    (.methods ms') := by
    cases parent <;> cases superclass <;> first | exact hms | cases hpar
  have hclass : AlikeClass Λ π₃ m₃ m₃' ⟨name.text, parent, methodTable e ms⟩
      ⟨name'.text, parent, methodTable e' ms'⟩ := ⟨htext, rfl, methodTable_both he.1 hms'⟩
  have hnew := hp₃.kin.newClass hclass
  have hmade : Together Λ before π₃ m₃ m₃' (newClass ⟨name.text, parent, methodTable e ms⟩)
      (newClass ⟨name'.text, parent, methodTable e' ms'⟩)
      fun _ m₄ _ v v' => v' = v ∧ (m₄.store.cell m₄.current name.text).isSome := by
    refine .of_ok rfl rfl ⟨hnew.1, hnew.2, rfl, rfl, rfl, rfl⟩ ⟨?_, he.2 _ hx⟩
    rw [size_eq hp₃.kin.classes]
  refine hmade.bind fun π₄ m₄ m₄' _ v hp₄ hv => ?_
  obtain ⟨rfl, hx₄⟩ := hv
  exact together_assignHere left left' hp₄.kin (hp₄.around (hp₃.around ha₂)) hn hx₄ _

/-! ## Expressions and statements -/

theorem inStep_assign {r r' : Reference} (hroom : Λ.Rooms room room') (hr : Λ.Refers ss r r') (v : Value) :
    InStep Λ before ss (assign room r v) (assign room' r' v) := fun _ _ _ hk ha => together_assign hroom hk ha hr v

theorem inStep_checkCall {paren paren' : Lexeme} (hroom : Λ.Rooms room room') (hn : Λ.Names paren paren')
    (callee : Value) (count : Nat) :
    InStep Λ before ss (checkCall room paren callee count) (checkCall room' paren' callee count) :=
  fun _ _ _ hk _ => together_checkCall hroom hk hn callee count

theorem inStep_fieldOwner {name name' : Lexeme} (hn : Λ.Names name name') (object : Value) :
    InStep Λ before ss (fieldOwner object name) (fieldOwner object name') :=
  fun _ _ _ hk _ => together_fieldOwner hk hn object

theorem inStep_setField (id : Nat) (name : String) (v : Value) :
    InStep Λ before ss (setField id name v) (setField id name v) := fun _ _ _ hk _ => together_setField hk id name v

/-- A block on both sides, each with an environment of its own. -/
theorem inStep_block {enter : Enter} {body body' : List Stmt} (hroom : Λ.Rooms room room')
    (h : ∀ left left', Λ.Rooms left left' →
      InStep Λ before (.shared s :: ss) (stmts host enter left body) (stmts host enter left' body')) :
    InStep Λ before ss (stmt host enter room (.block body)) (stmt host enter room' (.block body')) := by
  refine inStep_deeper hroom fun _ _ houter => inStep_deeper houter fun left left' hleft => ?_
  intro π m m' hk ha
  refine .get ((together_newEnvironment hk ha (.empty s)).bind fun π₁ m₁ m₁' k k' hp hk' => ?_)
  exact (h _ _ hleft).inside hp.kin hk'

/-- A loop with a step, and the same loop with its step behind the body: the first one runs its
step as a part of the body, too, for the body is never left by `continue`. -/
theorem inStep_stepped {enter : Enter} {e e' step step' : Expr} {body body' : Stmt} (hd : Λ.deeper)
    (hnever : body.NeverContinues) (hroom : Λ.Rooms room room')
    (ht : ∀ left left', Λ.Rooms left left' → InStep Λ before ss (expr enter left e) (expr enter left' e'))
    (hb : ∀ left left', Λ.Rooms left left' →
      InStep Λ before (.added :: ss) (stmt host enter left body) (stmt host enter left' body'))
    (hs : ∀ left left', Λ.Rooms left left' →
      InStep Λ before (.added :: ss) (expr enter left step) (expr enter left' step')) :
    InStep Λ before ss (stmt host enter room (.loop e body (some step)))
      (stmt host enter room' (.loop e' (.block [body', .expr step']) none)) := by
  refine inStep_deeper hroom fun _ _ houter => inStep_deeper houter fun left left' hleft => ?_
  have hends : ∀ m m', stmt host enter left body m ≠ .ok .continued m' := fun m m' hm =>
    (contains_of_continued body hm).elim hnever
  have hbody :=
    inStep_boxed hd hleft fun inner hinner => (hb _ _ hinner).stepped hd hinner fun _ hlast => hs _ _ hlast
  have hrounds := inStep_rounds (inStep_test (ht _ _ hleft)) hbody (.pure .nil) host.rounds
  rw [← rounds_stepped hends] at hrounds
  exact hrounds

/-- Functions that are alike are made in environments that correspond. -/
theorem inStep_fun {enter : Enter} {f f' : Routine} (hroom : Λ.Rooms room room')
    (hn : Declares ss f.name f'.name) (hf : Alike Λ ss (.routine .function f) (.routine .function f')) :
    InStep Λ before ss (stmt host enter room (.fun_ f)) (stmt host enter room' (.fun_ f')) := by
  refine inStep_deeper hroom fun left left' hleft => InStep.needs ?_ hleft 1
  intro π m m' hk ha
  have hc : AlikeFunction Λ π m m' ⟨f, m.current, false⟩ ⟨f', m'.current, false⟩ := ⟨rfl, ss, _, _, hn.isSome, ha, hf⟩
  refine .get ((together_newFunction hk hc).bind fun π₁ m₁ m₁' v v' hp hv => ?_)
  cases hv
  exact (inStep_define hn v).map (fun _ => Completion.normal) _ _ _ hp.kin (hp.around ha)

/-- A class on both sides, without a superclass or with one on both. -/
theorem inStep_class {enter : Enter} {name name' : Lexeme} {superclass superclass' : Option Reference}
    {ms ms' : List Routine} (hroom : Λ.Rooms room room')
    (h : ∀ left left', Λ.Rooms left left' →
      InStep Λ before ss (declareClass left name superclass ms) (declareClass left' name' superclass' ms')) :
    InStep Λ before ss (stmt host enter room (.class_ name superclass ms))
      (stmt host enter room' (.class_ name' superclass' ms')) :=
  inStep_deeper hroom fun _ _ houter => inStep_deeper houter fun _ _ hleft =>
    (h _ _ hleft).map fun _ => Completion.normal

/-- Parts of texts that are alike are in step, by one case for each form of them. -/
theorem inStep_of_alike (host : Host) {enter : Enter} (henter : Enters Λ before enter) {site site' : Site}
    (h : Alike Λ ss site site') : SitesInStep Λ before host enter ss site site' := by
  induction h with
  | nil => exact fun _ _ _ => .pure _
  | cons _ _ ih ih' =>
    intro room room' hroom
    refine (ih _ _ hroom).bind fun done => ?_
    cases done with
    | normal => exact ih' _ _ hroom
    | broken | continued | returned => exact .pure _
  | effect _ ih =>
    exact fun _ _ hroom => inStep_deeper hroom fun _ _ hleft => (ih _ _ hleft).map fun _ => Completion.normal
  | printed _ ih =>
    exact fun _ _ hroom => inStep_deeper hroom fun _ _ hleft =>
      (ih _ _ hleft).bind fun v => (inStep_printValue hleft v).map fun _ => Completion.normal
  | var hn =>
    exact fun _ _ hroom => inStep_deeper hroom fun _ _ hleft =>
      ((inStep_define hn .nil).needs hleft 1).map fun _ => Completion.normal
  | varInit hn _ ih =>
    exact fun _ _ hroom => inStep_deeper hroom fun _ _ hleft =>
      (ih _ _ hleft).bind fun v => ((inStep_define hn v).needs hleft 1).map fun _ => Completion.normal
  | block _ ih => exact fun _ _ hroom => inStep_block hroom ih
  | @boxed ss st st' hb _ ih =>
    refine fun room room' hroom => inStep_boxed (Λ.deeper_of_boxes hb) hroom fun left' hleft => ?_
    rw [stmts_single]
    exact ih _ _ hleft
  | cond _ _ ih ih' =>
    refine fun _ _ hroom => inStep_deeper hroom fun left left' hleft => (inStep_test (ih _ _ hleft)).bind fun yes => ?_
    cases yes with
    | true => exact ih' _ _ hleft
    | false => exact .pure _
  | condElse _ _ _ ih ih' ih'' =>
    refine fun _ _ hroom => inStep_deeper hroom fun left left' hleft => (inStep_test (ih _ _ hleft)).bind fun yes => ?_
    cases yes with
    | true => exact ih' _ _ hleft
    | false => exact ih'' _ _ hleft
  | loop _ _ ih ih' =>
    exact fun _ _ hroom => inStep_deeper hroom fun _ _ houter => inStep_deeper houter fun _ _ hleft =>
      inStep_rounds (inStep_test (ih _ _ hleft)) (ih' _ _ hleft) (.pure _) host.rounds
  | loopStep _ _ _ ih ih' ih'' =>
    exact fun _ _ hroom => inStep_deeper hroom fun _ _ houter => inStep_deeper houter fun _ _ hleft =>
      inStep_rounds (inStep_test (ih _ _ hleft)) (ih' _ _ hleft) (ih'' _ _ hleft) host.rounds
  | stepped hd hn _ _ _ ih ih' ih'' => exact fun _ _ hroom => inStep_stepped hd hn hroom ih ih' ih''
  | break_ | continue_ => exact fun _ _ hroom => inStep_deeper hroom fun _ _ _ => .pure _
  | fun_ hn hf _ => exact fun _ _ hroom => inStep_fun hroom hn hf
  | returned => exact fun _ _ hroom => inStep_deeper hroom fun _ _ hleft => (InStep.pure _).needs hleft 1
  | returnedValue _ ih =>
    exact fun _ _ hroom => inStep_deeper hroom fun _ _ hleft =>
      (ih _ _ hleft).bind fun v => (InStep.pure (Completion.returned v)).needs hleft 1
  | class_ hn htext hms _ =>
    exact fun _ _ hroom => inStep_class hroom fun left left' hleft _ _ _ hk ha =>
      together_declareClass .plain hleft hk ha hn htext trivial hms
  | @subclass ss receiver outer name name' target target' ms ms' hn htext _ hms ih _ =>
    exact fun _ _ hroom => inStep_class hroom fun left left' hleft _ _ _ hk ha =>
      together_declareClass outer hleft hk ha hn htext (ih _ _ hleft) hms
  | parent hr => exact fun _ _ hroom _ _ _ hk ha => together_superclassValue hroom hk ha hr
  | noMethod | method | routine => exact fun _ _ _ => trivial
  | noExpr => exact fun _ _ _ => .pure _
  | moreExprs _ _ ih ih' => exact fun _ _ hroom => (ih _ _ hroom).bind fun v => (ih' _ _ hroom).map (v :: ·)
  | literal => exact fun _ _ hroom => inStep_deeper hroom fun _ _ _ => .pure _
  | group _ ih => exact fun _ _ hroom => inStep_deeper hroom fun _ _ hleft => ih _ _ hleft
  | unary hn _ ih =>
    exact fun _ _ hroom => inStep_deeper hroom fun _ _ hleft =>
      (ih _ _ hleft).bind fun v _ _ _ hk _ => together_operator hleft hk hn (alike_unary hn.1 v)
  | binary hn _ _ ih ih' =>
    exact fun _ _ hroom => inStep_deeper hroom fun _ _ hleft =>
      (ih _ _ hleft).bind fun a => (ih' _ _ hleft).bind fun b _ _ _ hk _ => together_binary hleft hk hn a b
  | @logical ss op op' a a' b b' hn _ _ ih ih' =>
    refine fun _ _ hroom => inStep_deeper hroom fun left left' hleft => (ih _ _ hleft).bind fun v => ?_
    have hdecided : isDecided op' v = isDecided op v := by
      unfold isDecided
      rw [hn.1]
    rw [hdecided]
    cases isDecided op v with
    | true => exact .pure _
    | false => exact ih' _ _ hleft
  | ternary _ _ _ ih ih' ih'' =>
    refine fun _ _ hroom => inStep_deeper hroom fun left left' hleft => (ih _ _ hleft).bind fun v => ?_
    cases v.isTruthy with
    | true => exact ih' _ _ hleft
    | false => exact ih'' _ _ hleft
  | ref hr => exact fun _ _ hroom => inStep_deeper hroom fun _ _ hleft _ _ _ hk ha => together_read hleft hk ha hr
  | assign hr _ ih =>
    exact fun _ _ hroom => inStep_deeper hroom fun _ _ hleft =>
      (ih _ _ hleft).bind fun v => (inStep_assign hleft hr v).map fun _ => v
  | @call ss f f' paren paren' es es' hn _ _ ih ih' =>
    refine fun _ _ hroom => inStep_deeper hroom fun _ _ houter => inStep_deeper houter fun left left' hleft => ?_
    refine (ih _ _ hleft).bind fun callee => (ih' _ _ hleft).bind fun vs => ?_
    exact (inStep_checkCall hleft hn callee vs.length).bind fun _ _ _ _ hk _ => henter _ _ _ _ _ _ _ _ _ hleft hn hk
  | get hn _ ih =>
    exact fun _ _ hroom => inStep_deeper hroom fun _ _ hleft =>
      (ih _ _ hleft).bind fun v _ _ _ hk _ => together_property hleft hk hn v
  | @set ss o o' e e' name name' hn _ _ ih ih' =>
    refine fun _ _ hroom => inStep_deeper hroom fun left left' hleft => (ih _ _ hleft).bind fun object => ?_
    refine (inStep_fieldOwner hn object).bind fun id => (ih' _ _ hleft).bind fun v => ?_
    rw [hn.1]
    exact (inStep_setField id name.text v).map fun _ => v
  | this hr => exact fun _ _ hroom => inStep_deeper hroom fun _ _ hleft _ _ _ hk ha => together_read hleft hk ha hr
  | super hname hr hn =>
    exact fun _ _ hroom => inStep_deeper hroom fun _ _ hleft _ _ _ hk ha => together_superMethod hleft hk ha hname hr hn

/-! ## Calls -/

theorem spelled_arguments {params params' : List Lexeme} (values : List Value) {t t' : Bindings Value}
    (h : s.WritesAll params params') (ht : Spelled s t t') :
    Spelled s (Eval.arguments params values t) (Eval.arguments params' values t') := by
  induction params generalizing params' values t t' with
  | nil =>
    cases params' with
    | nil => exact ht
    | cons p' rest' => cases h.2
  | cons p rest ih =>
    cases params' with
    | nil => cases h.2
    | cons p' rest' =>
      cases values with
      | nil => exact ht
      | cons v values =>
        obtain ⟨hp, hrest⟩ := List.cons.inj h.2
        refine ih values ⟨fun a ha => h.1 a (List.mem_cons_of_mem _ ha), hrest⟩ ?_
        rw [show p'.text = s.text p.text from hp]
        exact ht.set (h.1 p (List.mem_cons_self ..)) v

theorem together_call (henter : Enters Λ before (invoke host n)) (hroom : Λ.Rooms room room') (hk : Kin Λ before π m m')
    {c c' : Closure} (hc : AlikeFunction Λ π m m' c c') (values : List Value) :
    Together Λ before π m m' (call (stmts host (invoke host n)) room c values)
      (call (stmts host (invoke host n)) room' c' values) Same := by
  obtain ⟨hinit, ss, context, context', hinner, ha, halike⟩ := hc
  obtain ⟨-, s, hparams, hbody⟩ := halike.parts
  refine .deeper hroom hk fun outer outer' houter => .deeper houter hk fun left left' hleft => ?_
  have hstep : InStep Λ before (.shared s :: ss) (stmts host (invoke host n) left c.routine.body)
      (stmts host (invoke host n) left' c'.routine.body) :=
    inStep_of_alike host henter hbody _ _ hleft
  have htable := spelled_arguments values hparams (.empty s)
  refine (together_newEnvironment hk ha htable).bind fun π₁ m₁ m₁' k k' hp hk' => ?_
  refine (hstep.inside hp.kin hk').bind fun π₂ m₂ m₂' done done' hp' hd => ?_
  cases hd
  rw [hinit]
  split
  · -- The receiver is read where the closure is from.
    have hread : InStep Λ before ss (readAt 0 thisName) (readAt 0 thisName) := by
      intro π m m' hk ha
      obtain ⟨t, ht⟩ := Option.isSome_iff_exists.mp hinner
      have hvalue := together_ofExcept hk (like_valueIn hk (ha.head hk ht) t.this.1)
      rw [t.this.2] at hvalue
      exact .get hvalue
    exact .needs houter hp'.kin (hread.inside hp'.kin ((hp.trans hp').paired.around ha)) 2
  · cases done <;> exact .pure hp'.kin rfl

theorem together_enterCall (henter : Enters Λ before (invoke host n)) (hroom : Λ.Rooms room room')
    (hk : Kin Λ before π m m') {paren paren' : Lexeme} (hn : Λ.Names paren paren') (callee : Value)
    (values : List Value) :
    Together Λ before π m m' (enterCall host (stmts host (invoke host n)) room paren callee values)
      (enterCall host (stmts host (invoke host n)) room' paren' callee values) Same := by
  cases callee with
  | clock => exact .needs hroom hk (together_readClock host hk) 2
  | function id =>
    refine .get ((together_deref hk (hk.functions id)).bind fun π₁ m₁ m₁' c c' hp hc => ?_)
    exact together_call henter hroom hp.kin (hc.later hp.paired) values
  | class_ k =>
    refine .deeper hroom hk fun outer outer' houter => .deeper houter hk fun left left' hleft => ?_
    refine (together_newInstance hk k).bind fun π₁ m₁ m₁' id id' hp hid => ?_
    cases hid
    refine (together_findMethod hp.kin initName k).bind fun π₂ m₂ m₂' found found' hp' hfound => ?_
    cases found <;> cases found'
    · exact .pure hp'.kin rfl
    · exact hfound.elim
    · exact hfound.elim
    · refine (Together.needs hleft hp'.kin (together_bindThis hp'.kin hfound id) 1).bind fun π₃ m₃ m₃' c c' hp'' hc =>
      ?_
      exact (together_call henter houter hp''.kin hc values).map fun _ _ _ _ _ _ _ => rfl
  | _ => exact .fail hk hn.2 _

theorem enters_invoke (n : Nat) : Enters Λ before (invoke host n) := by
  induction n with
  | zero => exact fun _ _ _ _ _ _ _ _ _ _ hn hk => .fail hk hn.2 _
  | succ n ih =>
    exact fun _ _ _ _ callee values _ _ _ hroom hn hk =>
      (together_enterCall ih hroom hk hn callee values).catchStack hn.2

/-! ## Programs -/

theorem inStep_globalValue (x : String) : InStep Λ before ss (globalValue x) (globalValue x) := fun _ m m' hk _ => by
  refine .get (.pure hk ?_)
  show ((m'.store.values? globalEnv).bind _).getD _ = _
  rw [hk.globalValues]

theorem inStep_stmt {st st' : Stmt} (h : Alike Λ ss (.stmt st) (.stmt st')) (room : Nat) :
    InStep Λ before ss (stmt host (invoke host n) room st) (stmt host (invoke host n) room st') :=
  inStep_of_alike host (enters_invoke n) h _ _ (.same Λ room)

/-- A variable of the program itself, its value printed. -/
theorem inStep_declared {name name' : Lexeme} {st st' : Stmt} (h : Alike Λ [] (.stmt st) (.stmt st'))
    (hn : Declares [] name name') (room : Nat) :
    InStep Λ before []
      (do let _ ← stmt host (invoke host n) room st; echo room (← globalValue name.text))
      (do let _ ← stmt host (invoke host n) room st'; echo room (← globalValue name'.text)) := by
  obtain ⟨s, hs, -, htext⟩ := hn
  cases hs
  rw [show name'.text = name.text from htext]
  exact (inStep_stmt h room).bind fun _ => (inStep_globalValue name.text).bind (inStep_echo (.same Λ room))

/-- At a prompt there are no blocks of the second text alone: the value of a statement is
printed only outside of blocks. -/
theorem inStep_topLevel (interactive : Bool) (hi : interactive = true → ¬ Λ.boxes) {st st' : Stmt}
    (h : Alike Λ [] (.stmt st) (.stmt st')) :
    InStep Λ before [] (topLevel host interactive st) (topLevel host interactive st') := by
  have silent : InStep Λ before [] (do let _ ← stmt host (invoke host host.calls) host.stack st)
      (do let _ ← stmt host (invoke host host.calls) host.stack st') := (inStep_stmt h host.stack).bind fun _ => .pure _
  cases interactive with
  | false => exact silent
  | true =>
    cases h with
    | @effect _ e e' he =>
      have hvalue : InStep Λ before [] (expr (invoke host host.calls) host.stack e)
        (expr (invoke host host.calls) host.stack e') :=
        inStep_of_alike host (enters_invoke host.calls) he _ _ (.same Λ host.stack)
      exact hvalue.bind (inStep_echo (.same Λ host.stack))
    | boxed hb => exact absurd hb (hi rfl)
    | var hn => exact inStep_declared (.var hn) hn host.stack
    | varInit hn he => exact inStep_declared (.varInit hn he) hn host.stack
    | _ => exact silent

theorem together_program (host : Host) (interactive : Bool) (hi : interactive = true → ¬ Λ.boxes) {p p' : List Stmt}
    (h : Alike Λ [] (.stmts p) (.stmts p')) :
    InStep Λ before [] (p.forM (topLevel host interactive)) (p'.forM (topLevel host interactive)) := by
  induction p generalizing p' with
  | nil =>
    cases h
    exact .pure _
  | cons st rest ih =>
    cases h with
    | cons hs hrest => exact (inStep_topLevel interactive hi hs).bind fun _ => ih hrest

end Lox
