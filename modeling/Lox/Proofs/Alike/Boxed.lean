/-
  Lox.Proofs.Alike.Boxed — a program with blocks around parts of it is alike to the program
  (`alike_of_wraps`).

  At the same place of both programs the open scopes are the same but for some in which
  nothing is declared (`Gaps`). So a name selects the same scope in both, further out in
  the second one, and the two tables find the same (`same_of_entries`); a receiver is one
  scope further in than its superclass in both (`Meets.inner`).
-/

import Lox.Proofs.Alike.Machines
import Lox.Proofs.Box.Walk
import Lox.Proofs.Run.Lookup

namespace Lox

open Resolver Opened

/-! ## Open scopes with others between them -/

/-- The second scopes are the first ones and, at the marks, some in which nothing is declared. -/
inductive Gaps : List Bool → List Opened → List Opened → Prop
  | nil : Gaps [] [] []
  | shared {o o' : Opened} {fs : List Bool} {os os' : List Opened} : o'.names = o.names → Gaps fs os os' →
      Gaps (false :: fs) (o :: os) (o' :: os')
  | added {o' : Opened} {fs : List Bool} {os os' : List Opened} : o'.names = [] → Gaps fs os os' →
      Gaps (true :: fs) os (o' :: os')

/-- The scopes of the second text, names as they are. -/
def padding (fs : List Bool) : List Layer := fs.map fun added => if added then .added else .shared .plain

variable {fs : List Bool} {os os' : List Opened} {x : String} {d d' : Nat} {D D' : Distances} {target : Reference}

namespace Gaps

theorem declare (h : Gaps fs os os') (hf : IsShared fs) (xs : List String) :
    Gaps fs (declare xs os) (declare xs os') := by
  cases h with
  | nil => exact .nil
  | added => cases hf
  | shared hn hrest => exact .shared (congrArg (· ++ _) hn) hrest

theorem begin_ (h : Gaps fs os os') (hf : IsShared fs) (x : String) : Gaps fs (begin_ x os) (begin_ x os') := by
  cases h with
  | nil => exact .nil
  | added => cases hf
  | shared hn hrest => exact .shared (congrArg (· ++ _) hn) hrest

theorem ofClass (h : Gaps fs os os') (superclass : Option Reference) (ms ms' : List Routine) :
    Gaps (Beside.ofClass superclass fs) (ofClass superclass ms os) (ofClass superclass ms' os') := by
  cases superclass with
  | none => exact .shared rfl h
  | some parent => exact .shared rfl (.shared rfl h)

/-- A name selects the same scope. -/
theorem select (h : Gaps fs os os') (hd : select? x (namesOf os) = some d) :
    ∃ d', select? x (namesOf os') = some d' ∧ Meets (padding fs) d d' .plain := by
  induction h generalizing d with
  | nil => cases hd
  | @shared o o' fs os os' hn _ ih =>
    simp only [namesOf, List.map_cons, select?, hn] at hd ⊢
    split at hd
    next hx =>
      cases hd
      exact ⟨0, if_pos hx, .here⟩
    next hx =>
      obtain ⟨i, hi, rfl⟩ := Option.map_eq_some_iff.mp hd
      obtain ⟨i', hi', hmeets⟩ := ih hi
      refine ⟨i' + 1, ?_, .outer hmeets⟩
      rw [if_neg hx]
      exact congrArg _ hi'
  | @added o' fs os os' hn _ ih =>
    obtain ⟨i', hi', hmeets⟩ := ih hd
    refine ⟨i' + 1, ?_, .past hmeets⟩
    simp only [namesOf, List.map_cons, select?, hn]
    show Option.map (· + 1) (select? x (namesOf os')) = _
    rw [hi']
    rfl

/-- A name that no scope has is in no padding scope either. -/
theorem select_none (h : Gaps fs os os') (hd : select? x (namesOf os) = none) : select? x (namesOf os') = none := by
  induction h with
  | nil => rfl
  | @shared o o' fs os os' hn _ ih =>
    simp only [namesOf, List.map_cons, select?, hn] at hd ⊢
    split at hd
    next => cases hd
    next hx =>
      rw [if_neg hx]
      exact congrArg _ (ih (Option.map_eq_none_iff.mp hd))
  | @added o' fs os os' hn _ ih =>
    simp only [namesOf, List.map_cons, select?, hn]
    show Option.map (· + 1) (select? x (namesOf os')) = _
    rw [ih hd]
    rfl

theorem isShared_of_names {o : Opened} (h : Gaps fs os os') (ho : os'[d]? = some o) (hn : o.names ≠ []) :
    (padding fs)[d]? = some (.shared .plain) := by
  induction h generalizing d with
  | nil => cases ho
  | shared _ _ ih =>
    cases d with
    | zero => rfl
    | succ d => exact ih ho
  | added hnone _ ih =>
    cases d with
    | zero =>
      cases ho
      exact absurd hnone hn
    | succ d => exact ih ho

end Gaps

/-! ## One scope further in -/

variable {ss : List Layer} {s t : Spelling}

/-- Only scopes of the second text alone are passed on the way to the innermost of the first. -/
theorem Meets.passed (h : Meets ss 0 (d' + 1) s) : ss[d']? = some .added := by
  induction ss generalizing d' with
  | nil => cases h
  | cons layer ss ih =>
    cases h with
    | past hrest =>
      cases d' with
      | zero => rfl
      | succ d' => exact ih hrest

theorem Meets.inner (h : Meets ss (d + 1) (d' + 1) s) (ht : ss[d']? = some (.shared t)) : Meets ss d d' t := by
  induction ss generalizing d d' with
  | nil => cases h
  | cons layer ss ih =>
    cases h with
    | outer hrest =>
      cases d' with
      | zero =>
        cases ht
        cases hrest
        exact .here
      | succ d' =>
        cases d with
        | zero =>
          have hadded := hrest.passed
          have hshared : ss[d']? = some (.shared t) := ht
          rw [hadded] at hshared
          cases hshared
        | succ d => exact .outer (ih hrest ht)
    | past hrest =>
      cases d' with
      | zero => cases hrest
      | succ d' => exact .past (ih hrest ht)

/-! ## References -/

theorem declares_padding (hf : IsShared fs) (a : Lexeme) : Declares (padding fs) a a := by
  cases fs with
  | nil => exact ⟨.plain, rfl, trivial, rfl⟩
  | cons f fs =>
    cases hf
    exact ⟨.plain, rfl, trivial, rfl⟩

/-- Two entries lead to scopes that are the same but for the padding. -/
theorem same_of_entries (hg : Gaps fs os os') (h : IsEntry D[target.slot]? os target.name.text)
    (h' : IsEntry D'[target.slot]? os' target.name.text) (hn : target.name.text ≠ superName) :
    SameDistance D D' (padding fs) target target := by
  unfold SameDistance
  unfold IsEntry at h h'
  cases hd : D[target.slot]? with
  | none =>
    rw [hd] at h
    have hnone := hg.select_none ((isGlobal_iff os _).mpr h)
    cases hd' : D'[target.slot]? with
    | none => exact ⟨rfl, rfl⟩
    | some d' =>
      rw [hd'] at h'
      obtain ⟨i', -, hi'⟩ := h'
      rw [(selects_iff os' _ i').mpr hi'] at hnone
      cases hnone
  | some d =>
    rw [hd] at h
    obtain ⟨i, rfl, hi⟩ := h
    obtain ⟨i', hi', hmeets⟩ := hg.select ((selects_iff os _ i).mpr hi)
    have hentry : D'[target.slot]? = some (i' : Int) := by
      cases hd' : D'[target.slot]? with
      | none =>
        rw [hd'] at h'
        rw [(isGlobal_iff os' _).mpr h'] at hi'
        cases hi'
      | some d' =>
        rw [hd'] at h'
        obtain ⟨j, rfl, hj⟩ := h'
        rw [(selects_iff os' _ j).mpr hj, Option.some.injEq] at hi'
        rw [hi']
    exact ⟨i', .plain, hentry, hmeets, ⟨trivial, rfl⟩, fun h => absurd h hn⟩

theorem selects_meet (hg : Gaps fs os os') (h : Selects os x d) (h' : Selects os' x d') :
    Meets (padding fs) d d' .plain := by
  obtain ⟨i', hi', hmeets⟩ := hg.select ((selects_iff os x d).mpr h)
  rw [(selects_iff os' x d').mpr h', Option.some.injEq] at hi'
  rwa [hi']

theorem same_of_receiver (hg : Gaps fs os os') (hn : target.name.text = thisName)
    (hd : D[target.slot]? = some (d : Int))
    (hd' : D'[target.slot]? = some (d' : Int)) (h : Selects os thisName d) (h' : Selects os' thisName d') :
    SameDistance D D' (padding fs) target target := by
  unfold SameDistance
  rw [hd]
  exact ⟨d', .plain, hd', selects_meet hg h h', ⟨trivial, rfl⟩, fun h => absurd (hn.symm.trans h) this_ne_super⟩

/-- A superclass is one scope further out than the receiver in both. -/
theorem same_of_superclass (hg : Gaps fs os os') (hd : D[target.slot]? = some ((d + 1 : Nat) : Int))
    (hd' : D'[target.slot]? = some ((d' + 1 : Nat) : Int)) (h : Selects os superName (d + 1))
    (h' : Selects os' superName (d' + 1)) (hr : IsReceiver os' d') : SameDistance D D' (padding fs) target target := by
  obtain ⟨superclass, methods, hr⟩ := hr
  have hmeets := selects_meet hg h h'
  have hinner := hmeets.inner (hg.isShared_of_names hr (by simp))
  unfold SameDistance
  rw [hd]
  refine ⟨_, .plain, hd', hmeets, ⟨trivial, rfl⟩, fun _ => ⟨.plain, ?_⟩⟩
  have hpred : ∀ i : Nat, Distances.hops (((i + 1 : Nat) : Int) - 1) = i := by
    intro i
    unfold Distances.hops
    omega
  rw [hpred, hpred]
  exact hinner

/-! ## Texts -/

/-- The same places; references that find the same, where the second text may have more
blocks, and if `boxes` holds around statements of the program itself. It goes deeper on the
stack in them. -/
def wrapped (boxes : Prop) (D D' : Distances) : Likeness := ⟨Eq, SameDistance D D', boxes, True, fun _ => trivial⟩

/-- Two accepted programs, and tables in which each finds its own distances. -/
structure BothTabled (p p' : List Stmt) (D D' : Distances) : Prop where
  accepted : Accepted p
  accepted' : Accepted p'
  table : ∀ x ∈ Stmt.slotsAll p, D[x]? = (resolve p).distances[x]?
  table' : ∀ x ∈ Stmt.slotsAll p', D'[x]? = (resolve p').distances[x]?

variable {boxes : Prop} {p p' : List Stmt} {r r' : Resolver}

theorem names_self (a : Lexeme) : (wrapped boxes D D').Names a a := ⟨rfl, rfl⟩

theorem BothTabled.at (h : BothTabled p p' D D') {site site' : Site} (hw : Within p site r os)
    (hw' : Within p' site' r' os') {x : Int} (hx : x ∈ site.slots) (hx' : x ∈ site'.slots) :
    D[x]? = (resolve p).distances[x]? ∧ D'[x]? = (resolve p').distances[x]? :=
  ⟨h.table x (within_slots hw x hx), h.table' x (within_slots hw' x hx')⟩

mutual

/-- Expressions are the same, and so are their entries but for the padding. -/
theorem alike_expr (h : BothTabled p p' D D') : ∀ (e : Expr) {fs : List Bool} {r r' : Resolver} {os os' : List Opened},
    Gaps fs os os' → Within p (.expr e) r os → Within p' (.expr e) r' os' →
    Alike (wrapped boxes D D') (padding fs) (.expr e) (.expr e)
  | .literal _, _, _, _, _, _, _, _, _ => .literal
  | .group inner, _, _, _, _, _, hg, hw, hw' => .group (alike_expr h inner hg (.group hw) (.group hw'))
  | .unary _ operand, _, _, _, _, _, hg, hw, hw' =>
    .unary (names_self _) (alike_expr h operand hg (.operand hw) (.operand hw'))
  | .binary left _ right, _, _, _, _, _, hg, hw, hw' =>
    .binary (names_self _) (alike_expr h left hg (.left hw) (.left hw'))
      (alike_expr h right hg (.right hw) (.right hw'))
  | .logical left _ right, _, _, _, _, _, hg, hw, hw' =>
    .logical (names_self _) (alike_expr h left hg (.logicalLeft hw) (.logicalLeft hw'))
      (alike_expr h right hg (.logicalRight hw) (.logicalRight hw'))
  | .ternary cond yes no, _, _, _, _, _, hg, hw, hw' =>
    .ternary (alike_expr h cond hg (.ternaryTest hw) (.ternaryTest hw'))
      (alike_expr h yes hg (.ternaryYes hw) (.ternaryYes hw')) (alike_expr h no hg (.ternaryNo hw) (.ternaryNo hw'))
  | .ref target, _, _, _, _, _, hg, hw, hw' => by
    obtain ⟨ht, ht'⟩ := h.at hw hw' (List.mem_singleton_self _) (List.mem_singleton_self _)
    have hname : target.name.IsPlain := (resolved h.accepted hw).tidy
    exact .ref ⟨same_of_entries hg (ht ▸ (table_of_ref h.accepted hw).1) (ht' ▸ (table_of_ref h.accepted' hw').1)
      hname.2, rfl⟩
  | .assign target value, _, _, _, _, _, hg, hw, hw' => by
    have hm : target.slot ∈ (Expr.assign target value).slots := List.mem_append_right _ (List.mem_singleton_self _)
    obtain ⟨ht, ht'⟩ := h.at hw hw' hm hm
    have hname : target.name.IsPlain := (resolved h.accepted hw).tidy.1
    exact .assign ⟨same_of_entries hg (ht ▸ table_of_assign h.accepted hw) (ht' ▸ table_of_assign h.accepted' hw')
      hname.2, rfl⟩
      (alike_expr h value hg (.value hw) (.value hw'))
  | .call callee _ args, _, _, _, _, _, hg, hw, hw' =>
    .call (names_self _) (alike_expr h callee hg (.callee hw) (.callee hw'))
      (alike_exprs h args hg (.arguments hw) (.arguments hw'))
  | .get object _, _, _, _, _, _, hg, hw, hw' => .get (names_self _) (alike_expr h object hg (.object hw) (.object hw'))
  | .set object _ value, _, _, _, _, _, hg, hw, hw' =>
    .set (names_self _) (alike_expr h object hg (.setObject hw) (.setObject hw'))
      (alike_expr h value hg (.setValue hw) (.setValue hw'))
  | .this keyword, _, _, _, _, _, hg, hw, hw' => by
    obtain ⟨ht, ht'⟩ := h.at hw hw' (List.mem_singleton_self _) (List.mem_singleton_self _)
    obtain ⟨d, hd, hsel, -⟩ := table_of_this h.accepted hw
    obtain ⟨d', hd', hsel', -⟩ := table_of_this h.accepted' hw'
    exact .this ⟨same_of_receiver hg (resolved h.accepted hw).tidy (ht.trans hd) (ht'.trans hd') hsel hsel', rfl⟩
  | .super keyword _, _, _, _, _, _, hg, hw, hw' => by
    obtain ⟨ht, ht'⟩ := h.at hw hw' (List.mem_singleton_self _) (List.mem_singleton_self _)
    obtain ⟨d, hd, hsel, -⟩ := table_of_super h.accepted hw
    obtain ⟨d', hd', hsel', hr, -⟩ := table_of_super h.accepted' hw'
    exact .super (resolved h.accepted hw).tidy
      ⟨same_of_superclass hg (ht.trans hd) (ht'.trans hd') hsel hsel' hr, rfl⟩ (names_self _)

theorem alike_exprs (h : BothTabled p p' D D') : ∀ (es : List Expr) {fs : List Bool} {r r' : Resolver}
    {os os' : List Opened}, Gaps fs os os' → Within p (.exprs es) r os → Within p' (.exprs es) r' os' →
    Alike (wrapped boxes D D') (padding fs) (.exprs es) (.exprs es)
  | [], _, _, _, _, _, _, _, _ => .noExpr
  | e :: rest, _, _, _, _, _, hg, hw, hw' =>
    .moreExprs (alike_expr h e hg (.argument hw) (.argument hw'))
      (alike_exprs h rest hg (.nextArguments hw) (.nextArguments hw'))

end

/-- A wrapped tree is alike, by one case for each rule of wrapping. -/
theorem alike_of_wraps (h : BothTabled p p' D D') {site site' : Site} (hb : Wraps boxes site site') (hf : site.Fits fs)
    (hg : Gaps fs os os') (hw : Within p site r os) (hw' : Within p' site' r' os') :
    Alike (wrapped boxes D D') (padding fs) site site' := by
  induction hb generalizing fs r r' os os' with
  | nil => exact .nil
  | @cons s s' rest rest' hs _ ih ih' =>
    -- A boxed statement declares nothing, and any other what it declares in the first text.
    have hdeclared : declared s' = declared s := by
      unfold declared
      rw [hs.declares]
    have hnext := Within.next hw'
    rw [hdeclared] at hnext
    exact .cons (ih (Or.inr hf) hg (.first hw) (.first hw')) (ih' hf (hg.declare hf (declared s)) (.next hw) hnext)
  | effect => exact .effect (alike_expr h _ hg (.effect hw) (.effect hw'))
  | printed => exact .printed (alike_expr h _ hg (.printed hw) (.printed hw'))
  | @var name init =>
    have hshared := fits_declaring hf rfl
    cases init with
    | none => exact .var (declares_padding hshared name)
    | some e =>
      exact .varInit (declares_padding hshared name)
        (alike_expr h e (hg.begin_ hshared name.text) (.init hw) (.init hw'))
  | @block body body' _ ih =>
    have hinner : Gaps (false :: fs) (⟨.block body, []⟩ :: os) (⟨.block body', []⟩ :: os') := .shared rfl hg
    exact .block (ih (isShared_cons fs) hinner (.block hw) (.block hw'))
  | @cond e yes yes' _ ih =>
    have hyes := (resolved h.accepted hw).tidy.2.1.2
    exact .cond (alike_expr h e hg (.condTest hw) (.condTest hw')) (ih (Or.inl hyes) hg (.condYes hw) (.condYes hw'))
  | @condElse e yes yes' no no' _ _ ih ih' =>
    obtain ⟨-, hyes, hno⟩ := (resolved h.accepted hw).tidy
    exact .condElse (alike_expr h e hg (.condTest hw) (.condTest hw'))
      (ih (Or.inl hyes.2) hg (.condYes hw) (.condYes hw'))
      (ih' (Or.inl hno.2) hg (.condNo hw) (.condNo hw'))
  | @loop e body body' step _ ih =>
    have hbody := ih (Or.inl (resolved h.accepted hw).tidy.2.1.2) hg (.loopBody hw) (.loopBody hw')
    have htest : Alike (wrapped boxes D D') (padding fs) (.expr e) (.expr e) :=
      alike_expr h e hg (.loopTest hw) (.loopTest hw')
    cases step with
    | none => exact .loop htest hbody
    | some x => exact .loopStep htest hbody (alike_expr h x hg (.loopStep hw) (.loopStep hw'))
  | break_ => exact .break_
  | continue_ => exact .continue_
  | @fun_ f f' hr ih =>
    have hshared := fits_declaring hf rfl
    have hname : f'.name = f.name := hr.parts.2.1
    have hbody := Within.fun_ hw'
    rw [hname] at hbody
    refine .fun_ ?_ (ih trivial (hg.declare hshared [f.name.text]) (.fun_ hw) hbody)
    rw [hname]
    exact declares_padding hshared f.name
  | @returned keyword value =>
    cases value with
    | none => exact .returned
    | some e => exact .returnedValue (alike_expr h e hg (.returned hw) (.returned hw'))
  | @class_ name superclass ms ms' _ ih =>
    have hshared := fits_declaring hf rfl
    have hmethods :=
      ih trivial ((hg.declare hshared [name.text]).ofClass superclass ms ms') (.methods hw) (.methods hw')
    cases superclass with
    | none => exact .class_ (declares_padding hshared name) rfl hmethods
    | some target =>
      have hparent := Within.parent hw
      have hparent' := Within.parent hw'
      obtain ⟨ht, ht'⟩ := h.at hparent hparent' (List.mem_singleton_self _) (List.mem_singleton_self _)
      have hname : target.name.IsPlain := (resolved h.accepted hparent).tidy
      have hsame := same_of_entries (hg.begin_ hshared name.text) (ht ▸ (table_of_parent h.accepted hparent).1)
        (ht' ▸ (table_of_parent h.accepted' hparent').1) hname.2
      exact .subclass (declares_padding hshared name) rfl (.parent ⟨hsame, rfl⟩) hmethods
  | noMethod => exact .noMethod
  | @method m m' rest rest' hr _ ih ih' =>
    have hcontext : methodContext m' = methodContext m := by
      unfold methodContext Routine.isInit
      rw [hr.parts.2.1]
    have hmethod := Within.method hw'
    rw [hcontext] at hmethod
    have hbody := ih trivial hg (.method hw) hmethod
    refine .method ?_ (ih' trivial hg (.nextMethod hw) (.nextMethod hw'))
    rw [hcontext]
    exact hbody
  | @routine context name params body body' _ ih =>
    have hinner : Gaps (false :: fs) (ofRoutine ⟨name, params, body⟩ :: os) (ofRoutine ⟨name, params, body'⟩ :: os') :=
      .shared rfl hg
    exact .routine rfl ⟨fun _ _ => trivial, rfl⟩ (ih (isShared_cons fs) hinner (.body hw) (.body hw'))
  | box hb hs _ ih => exact .boxed hb (ih (Or.inl hs) (.added rfl hg) hw (.first (.block hw')))
  | @step e step body body' hn hs ih =>
    have hnone := (resolved h.accepted hw).tidy.2.1.2
    have hbody := ih (Or.inl hnone) (.added rfl hg) (.loopBody hw) (.first (.block (.loopBody hw')))
    -- The body declares nothing, so there is nothing in the scope of the step either.
    have hstep := Within.effect (.first (.next (.block (.loopBody hw'))))
    have hdeclared : declared body' = [] := by
      unfold declared
      rw [hs.declares, hnone]
      rfl
    rw [hdeclared] at hstep
    exact .stepped trivial hn (alike_expr h e hg (.loopTest hw) (.loopTest hw')) hbody
      (alike_expr h step (.added rfl hg) (.loopStep hw) hstep)

end Lox
