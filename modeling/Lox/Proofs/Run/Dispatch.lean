/-
  Lox.Proofs.Run.Dispatch — `super` is fixed by the class that declares the method, and
  `this` by the receiver (`receivers_fixed`).

  The environment of a `super` was made when the class statement around it was executed,
  and so were the methods declared in it. No other class has methods there, and neither
  the class nor the environment changes until the end of the session, so the class of a
  receiver's method is the one that this statement made (`class_of_env`). A `super` reads
  its superclass, whatever class the receiver is an instance of, and binds what it finds to
  the receiver that `this` stands for (`super_dispatches`).
-/

import Lox.Proofs.Run.Receivers

namespace Lox

open Eval Session

variable {host : Host} {interactive : Bool} {sources : List String} {m m' : Machine} {n room k d : Nat} {v : Value}

/-! ## The class around a `super` -/

theorem final_assignIn_classes (room env : Nat) (name : Lexeme) (v : Value) (m : Machine) :
    (final (assignIn room env name v) m).classes = m.classes := by
  show (final (orFail room (m.store.holder env name) >>= _) m).classes = m.classes
  cases m.store.holder env name with
  | ok k => rfl
  | error fault => cases room <;> rfl

/-- A class statement whose superclass is a class makes one class. -/
theorem done_class {name : Lexeme} {target : Reference} {methods : List Routine} {parent : Nat} (host : Host) (n : Nat)
    (h : superclassValue (room - 2) target m = .ok parent m') :
    (Moment.done host ⟨n, room, .stmt (.class_ name (some target) methods), m⟩).classes =
      m.classes.push ⟨name.text, some parent, methodTable m.store.size methods⟩ := by
  have hsame : m' = m := (final_ok h).symm.trans (final_superclassValue (room - 2) target m)
  subst hsame
  obtain ⟨left, hleft, -⟩ := of_deeper_ok h
  obtain ⟨room, rfl⟩ : ∃ k, room = k + 2 := ⟨room - 2, by omega⟩
  have hroom : room = left + 1 := hleft
  have hparent : ((some target).mapM (superclassValue room) : Eval (Option Nat)) m' = .ok (some parent) m' :=
    bind_ok h _
  have hdeclare : Moment.done host ⟨n, room + 2, .stmt (.class_ name (some target) methods), m'⟩ =
      final (declareClass room name (some target) methods) m' := final_then fun _ _ => rfl
  rw [hdeclare, declareClass, final_bind_ok hparent, hroom]
  have hsize : (m'.store.define m'.current name.text .nil).size = m'.store.size := Store.size_define ..
  refine (final_assignIn_classes _ _ _ _ _).trans ?_
  show m'.classes.push ⟨name.text, some parent, methodTable (m'.store.define m'.current name.text .nil).size methods⟩
    = _
  rw [hsize]

/-- The class with methods in an environment is the one that the environment was made for. -/
theorem class_of_env {className : Lexeme} {target : Reference} {methods : List Routine} {f : Routine} {m₀ m₁ : Machine}
    {n₀ room₀ parent found env : Nat}
    (hM₀ : Occurs host interactive sources ⟨n₀, room₀, .stmt (.class_ className (some target) methods), m₀⟩)
    (hok : superclassValue (room₀ - 2) target m₀ = .ok found m₁) (henv : env = m₀.store.size) (hf : f ∈ methods)
    (hm : Seen host interactive sources m) (hin : m.HasMethodIn env)
    (hparent : m.HasOnly env superName (.class_ parent)) :
    ∃ c, (Moment.done host ⟨n₀, room₀, .stmt (.class_ className (some target) methods), m₀⟩).classes[m₀.classes.size]?
      = some c ∧
      m.classes[m₀.classes.size]? = some c ∧ c.superclass = some parent ∧
      ∀ x f, c.methods.get? x = some f → f.env = env := by
  have hmade : (Moment.done host ⟨n₀, room₀, .stmt (.class_ className (some target) methods),
    m₀⟩).classes[m₀.classes.size]? =
      some ⟨className.text, some found, methodTable env methods⟩ := by
    rw [done_class host n₀ hok, henv]
    simp
  have hlast := seen_sealed (seen_last host interactive sources)
  have hmade' := (seen_grows (.done hM₀)).classes _ _ hmade
  have hparent' := (seen_grows hm).only _ _ _ (Or.inr rfl) hparent
  obtain ⟨method, hmethod⟩ : ∃ method, (methodTable env methods).get? f.name.text = some method := methodTable_some hf
  have hmethodEnv := (methodTable_get hmethod).2
  -- At the end of the session both are classes with methods in the environment, so they are one class.
  obtain ⟨j, c, x, g, hc, hg, hgEnv⟩ := hin
  have hsame := hlast.apart _ j _ c _ x method g _ hmade' ((seen_grows hm).classes j c hc) hmethod hg
    (hmethodEnv.symm ▸ hparent') (hgEnv.trans hmethodEnv.symm)
  subst hsame
  cases Option.some.inj (hmade'.symm.trans ((seen_grows hm).classes _ c hc))
  obtain ⟨env', hdeclares, hall⟩ := hlast.classes _ _ hmade'
  have hfound := hdeclares
  rw [← hall _ _ hmethod, hmethodEnv] at hfound
  have hsuper : found = parent := Value.class_.inj (Machine.HasOnly.same hfound hparent').2
  exact ⟨_, hmade, hc, congrArg some hsuper, fun x f hx => (methodTable_get hx).2⟩

/-- The innermost class statement around a part is the one with this superclass clause and these methods. -/
def InClass (host : Host) (interactive : Bool) (sources : List String) (m : Machine) (site : Site) (target : Reference)
    (methods : List Routine) : Prop :=
  ∃ p r os d, Stands host interactive sources m site p r os ∧ IsSubclass os d target methods ∧ Selects os thisName d

/-- Executing a class statement with this superclass clause and these methods has made the class. -/
def MadeBy (host : Host) (interactive : Bool) (sources : List String) (target : Reference) (methods : List Routine)
    (k : Nat) (c : Class) : Prop :=
  ∃ n room name m, Occurs host interactive sources ⟨n, room, .stmt (.class_ name (some target) methods), m⟩ ∧
    k = m.classes.size ∧
    (Moment.done host ⟨n, room, .stmt (.class_ name (some target) methods), m⟩).classes[k]? = some c

/-- A `super` that is evaluated in a method of the class `k`, with the superclass and the receiver that it reads. -/
structure Dispatches (host : Host) (interactive : Bool) (sources : List String) (n room : Nat) (m : Machine)
    (keyword : Reference) (name : Lexeme) (k : Nat) (c : Class) (parent id : Nat) : Prop where
  declared : ∃ target methods, InClass host interactive sources m (.expr (.super keyword name)) target methods ∧
    MadeBy host interactive sources target methods k c
  class_ : m.classes[k]? = some c
  superclass : c.superclass = some parent
  /-- The receiver is held inside of the environment that the methods of the class are declared in. -/
  environments : ∃ d e env, m.Receives m.current d id ∧ m.store.ancestor? d m.current = some e ∧
    m.store.outer? e = some env ∧ m.HasOnly env superName (.class_ parent) ∧ ∀ x f, c.methods.get? x
      = some f → f.env = env
  /-- Any `this` that is evaluated in the same environment is the receiver. -/
  this : ∀ n' room' keyword' m', Occurs host interactive sources ⟨n', room', .expr (.this keyword'), m'⟩ →
    m'.current = m.current →
    expr (invoke host n') room' (.this keyword') m' = needs 4 room' (pure (.instance_ id)) m'
  lookup : expr (invoke host n) room (.super keyword name) m =
    needs 3 room (match findMethod? m.classes name.text parent with
      | some found => boundMethod found id
      | none => fail name (.undefinedProperty name.text)) m
  bound : ∀ v m', expr (invoke host n) room (.super keyword name) m = .ok v m' → Seen host interactive sources m' ∧
    ∃ found, findMethod? m.classes name.text parent = some found ∧ BindsValue m m' v found id

variable {keyword : Reference} {name : Lexeme}

/-- The environment one further out is the enclosing one. -/
theorem outer?_of_ancestor? {s : Store Value} {e env : Nat} (he : s.ancestor? d k = some e)
    (henv : s.ancestor? (d + 1) k = some env) : s.outer? e = some env := by
  induction d generalizing k with
  | zero =>
    cases he
    obtain ⟨parent, hlink, hparent⟩ := Option.bind_eq_some_iff.mp henv
    cases hparent
    exact hlink
  | succ d ih =>
    obtain ⟨parent, hlink, he⟩ := Option.bind_eq_some_iff.mp he
    simp only [Store.ancestor?, hlink, Option.bind_some] at henv
    exact ih he henv

/-- Any `this` in the environment in which a receiver is found is that receiver. -/
theorem this_of_receives {id n' room' : Nat} {keyword' : Reference} (hseen : Seen host interactive sources m)
    (hreceives : m.Receives m.current d id)
    (hM' : Occurs host interactive sources ⟨n', room', .expr (.this keyword'), m'⟩)
    (hcurrent : m'.current = m.current) :
    expr (invoke host n') room' (.this keyword') m' = needs 4 room' (pure (.instance_ id)) m' := by
  obtain ⟨d', id', hreceives', heval⟩ := this_receives hM'
  have hsame := (hreceives.grows (seen_grows hseen)).unique
    ((hcurrent ▸ hreceives').grows (seen_grows (.begun hM')))
  rw [heval, hsame]

/-- What a `super` gives is a method that has been found in the superclass, bound to the receiver. -/
theorem super_bound {parent id : Nat} (hM : Occurs host interactive sources ⟨n, room, .expr (.super keyword name), m⟩)
    (hlookup : expr (invoke host n) room (.super keyword name) m =
      needs 3 room (match findMethod? m.classes name.text parent with
        | some found => boundMethod found id
        | none => fail name (.undefinedProperty name.text)) m)
    (heval : expr (invoke host n) room (.super keyword name) m = .ok v m') :
    Seen host interactive sources m' ∧
      ∃ found, findMethod? m.classes name.text parent = some found ∧ BindsValue m m' v found id := by
  have hdone : Moment.done host ⟨n, room, .expr (.super keyword name), m⟩ = m' := final_ok heval
  refine ⟨hdone ▸ .done hM, ?_⟩
  rw [hlookup] at heval
  obtain ⟨-, heval⟩ := of_needs_ok heval
  cases hfound : findMethod? m.classes name.text parent with
  | none =>
    rw [hfound] at heval
    cases heval
  | some found =>
    rw [hfound] at heval
    exact ⟨found, rfl, bindsValue_of_boundMethod heval⟩

/-- Wherever `super` is evaluated, its method is looked up in the superclass of the class that
it stands in, and bound to what `this` is there. -/
theorem super_dispatches (hM : Occurs host interactive sources ⟨n, room, .expr (.super keyword name), m⟩) :
    ∃ k c parent id, Dispatches host interactive sources n room m keyword name k c parent id := by
  obtain ⟨before, source, rest, hs, hf⟩ := occurs_fits hM
  obtain ⟨p, r, os, hp, hwithin, hchain⟩ := hf.task
  have hext : (world host interactive sources (before ++ [source])).Extends (world host interactive sources sources) :=
    extends_all hs
  have hresolved := resolved (isProgram_accepted hp) hwithin
  have hseen : Seen host interactive sources m := .begun hM
  have hall := hchain.extends hext
  obtain ⟨d, target, methods, hclass, hd, hthis, -⟩ := class_of_super (isProgram_accepted hp) hwithin
  rw [← hf.tabled.entry hp hwithin (List.mem_singleton_self _)] at hd
  -- The receiver is in `e`, which lies in the environment `env` of the superclass.
  obtain ⟨id, hreceives⟩ := receives_of_chain hresolved.stands.layered hthis ⟨_, _, hclass.receiver⟩ hall hseen
  obtain ⟨e, he, hid⟩ := hreceives.receiver
  obtain ⟨e', he', ⟨M₁, -, hopens₁⟩, -⟩ := hall.ancestor hclass.receiver
  obtain ⟨env, henv, ⟨⟨n₀, room₀, task, m₀⟩, hM₀, hopens₀⟩, hholds⟩ := hall.ancestor hclass.superclass
  obtain ⟨parent, hparent⟩ := hholds.superclass target methods rfl
  have honly := (seen_sealed hseen).only_of_cell (Or.inr rfl) hparent
  have hnested := outer?_of_ancestor? he henv
  -- The class is the one that this environment was made for.
  obtain ⟨f, hfm⟩ := hopens₁.receiver
  obtain ⟨className, ht, found, m₁, hok⟩ := hopens₀.superclass
  cases ht
  have hin : m.HasMethodIn env := by
    obtain ⟨env', hlink, hin⟩ := (seen_sealed hseen).receiver_in hid
    cases Option.some.inj (hnested.symm.trans hlink)
    exact hin
  obtain ⟨c, hmade, hc, hsuperclass, hmethods⟩ := class_of_env hM₀ hok hopens₀.1 hfm hseen hin honly
  have hreceiver : m.store.readAt m.current (((d + 1 : Nat) : Int) - 1) thisName = .ok (.instance_ id) := by
    have hcell : m.store.cell e thisName = some (.instance_ id) := by rw [hid.cell, if_pos rfl]
    rw [show ((d + 1 : Nat) : Int) - 1 = d by omega]
    exact readAt_of_holds he hcell
  have hlookup : expr (invoke host n) room (.super keyword name) m =
      needs 3 room (match findMethod? m.classes name.text parent with
        | some found => boundMethod found id
        | none => fail name (.undefinedProperty name.text)) m := by
    match room with
    | 0 | 1 | 2 => rfl
    | left + 3 =>
      have heval : superMethod (left + 2) keyword name m = _ :=
        superMethod_eq hd (readAt_of_holds henv hparent) hreceiver
      refine heval.trans ?_
      cases findMethod? m.classes name.text parent <;> rfl
  refine ⟨m₀.classes.size, c, parent, id, ⟨target, methods, ?_, n₀, room₀, className, m₀, hM₀, rfl, hmade⟩, hc,
    hsuperclass,
    ⟨d, e, env, hreceives, he, hnested, honly, hmethods⟩, fun n' room' keyword' m' =>
      this_of_receives hseen hreceives, hlookup,
    fun v m' => super_bound hM hlookup⟩
  exact ⟨p, r, os, d, ⟨hext.known p hp, hwithin, scopes_length (isProgram_accepted hp) hwithin, hall, hf.inv.globals.2⟩,
    hclass, hthis⟩

/-! ## Everything together -/

/-- Environments for receivers and superclasses have a single binding that no step changes, a
bound method has an environment of its own for its receiver, and `super` dispatches from the
superclass of the declaring class. -/
theorem receivers_fixed (host : Host) (interactive : Bool) (sources : List String) :
    (∀ m, Seen host interactive sources m → Sealed m) ∧
    (∀ m m', Seen host interactive sources m → Seen host interactive sources m' → Fixed m m') ∧
    (∀ n room e name v m m', Occurs host interactive sources ⟨n, room + 1, .expr (.get e name), m⟩ →
      expr (invoke host n) (room + 1) (.get e name) m = .ok v m' → Seen host interactive sources m' ∧
        ∃ object m₁, expr (invoke host n) room e m = .ok object m₁ ∧ Gets m₁ m' object v name.text) ∧
    (∀ n room room' paren k vs c m m', Occurs host interactive sources ⟨n + 1, room, .enter paren (.class_ k) vs, m⟩ →
      Evaluates host ⟨n + 1, room, .enter paren (.class_ k) vs, m⟩ ⟨n, room', .call c vs, m'⟩ →
      Seen host interactive sources m' ∧
        ∃ found, findMethod? m.classes initName k = some found ∧ Binds m m' c found m.instances.size) ∧
    ∀ n room keyword name m, Occurs host interactive sources ⟨n, room, .expr (.super keyword name), m⟩ →
      ∃ k c parent id, Dispatches host interactive sources n room m keyword name k c parent id := by
  refine ⟨fun m => seen_sealed, fun m m' => fixed_of_seen, ?_, ?_, fun n room keyword name m => super_dispatches⟩
  · intro n room e name v m m' hM heval
    have hdone : Moment.done host ⟨n, room + 1, .expr (.get e name), m⟩ = m' := final_ok heval
    obtain ⟨object, m₁, hobject, hproperty⟩ := of_bind_ok heval
    exact ⟨hdone ▸ .done hM, object, m₁, hobject, gets_of_property hproperty⟩
  · intro n room room' paren k vs c m m' hM he
    have hseen : Seen host interactive sources m' :=
      .begun ((history host interactive sources sources).closed _ _ hM he)
    exact ⟨hseen, binds_of_construct he rfl rfl⟩

/-- A class whose initializer looks up a method of its superclass. -/
def superText : String := "class A \x7b f() \x7b\x7d \x7d class B < A \x7b init() \x7b super.f; \x7d \x7d"

/-- The callee and the closing parenthesis of a program that is one call without arguments. -/
def plainCall? : List Stmt → Option (Reference × Lexeme)
  | [.expr (.call (.ref target) paren [])] => some (target, paren)
  | _ => none

/-- A class by name, with its initializer and the `super` that is all of its body. -/
def initSuper? (room : Nat) (m : Machine) (target : Reference) : Option (Nat × Closure × Reference × Lexeme) :=
  match Eval.read room target m with
  | .ok (.class_ k) _ =>
    match findMethod? m.classes initName k with
    | some ⟨⟨f, [], [.expr (.super keyword name)]⟩, env, isInit⟩ =>
      some (k, ⟨⟨f, [], [.expr (.super keyword name)]⟩, env, isInit⟩, keyword, name)
    | _ => none
  | _ => none

theorem plainCall?_eq {p : List Stmt} {target : Reference} {paren : Lexeme} (h : plainCall? p = some (target, paren)) :
    p = [.expr (.call (.ref target) paren [])] := by
  unfold plainCall? at h
  split at h <;> cases h
  rfl

/-- A class whose initializer only names a method of the superclass. -/
theorem initSuper?_eq {target : Reference} {found : Closure}
    (h : initSuper? room m target = some (k, found, keyword, name)) :
    Eval.read room target m = .ok (.class_ k) m ∧ findMethod? m.classes initName k = some found ∧
      found.routine.params = [] ∧ found.routine.body = [.expr (.super keyword name)] := by
  unfold initSuper? at h
  split at h
  next j m₁ hread =>
    have hsame := (read_ok hread).1
    subst hsame
    split at h
    next hfound =>
      cases h
      exact ⟨hread, hfound, rfl, rfl⟩
    next => cases h
  next => cases h

/-- To call such a class is to come to the `super` in its initializer. -/
theorem reaches_super {target : Reference} {paren : Lexeme} {found : Closure} (hn : host.calls = n + 1)
    (hroom : host.stack = room + 7) (h : initSuper? (room + 3) m target = some (k, found, keyword, name)) :
    ∃ m', Reaches host ⟨host.calls, host.stack, .program false [.expr (.call (.ref target) paren [])], m⟩
      ⟨n, room, .expr (.super keyword name), m'⟩ := by
  obtain ⟨hread, hfound, hparams, hbody⟩ := initSuper?_eq h
  have harity : arity? (room + 4) (.class_ k) m = .ok (some 0) m := by
    rw [arity_class hfound, hparams]
    rfl
  have hcheck : checkCall (room + 4) paren (.class_ k) ([] : List Value).length m = .ok () m := bind_ok harity _
  have hcallee : expr (invoke host host.calls) (room + 4) (.ref target) m = .ok (.class_ k) m := hread
  have hstmt : Reaches host ⟨host.calls, host.stack, .program false [.expr (.call (.ref target) paren [])], m⟩
      ⟨host.calls, room + 7, .stmt (.expr (.call (.ref target) paren [])), m⟩ :=
    hroom ▸ .step .refl (.statement fun h => by cases h)
  have hcall := Reaches.step (.step hstmt .effect) (.entered hcallee rfl hcheck)
  obtain ⟨c, m', hroutine, hconstruct⟩ : ∃ c m', c.routine.body = [.expr (.super keyword name)] ∧
      Evaluates host ⟨host.calls, room + 4, .enter paren (.class_ k) [], m⟩ ⟨n, room + 3, .call c [], m'⟩ := by
    rw [hn]
    exact ⟨{ found with env := m.store.size }, _, hbody, .construct rfl hfound rfl⟩
  have hentered := Reaches.step (.step hcall hconstruct) .body
  rw [hroutine] at hentered
  exact ⟨_, .step (.step hentered .first) .effect⟩

/-- An initializer that names the one of its superclass, called on a new instance. -/
theorem receivers_fixed_super : ∃ n room keyword name m k c parent id, 3 ≤ room ∧
    Occurs (.ofClock fun _ => 0) false [superText, "B();"] ⟨n, room, .expr (.super keyword name), m⟩ ∧
      Dispatches (.ofClock fun _ => 0) false [superText, "B();"] n room m keyword name k c parent id := by
  have hnext : (after (.ofClock fun _ => 0) false [superText]).nextSlot = 2 := by decide +kernel
  have hinteractive : (after (.ofClock fun _ => 0) false [superText]).interactive = false := by decide +kernel
  have hlexical : (tokenize "B();").2 = [] := by decide +kernel
  have herrors : (parse (tokenize "B();").1 2).errors = [] := by decide +kernel
  have hresolved : (resolve (parse (tokenize "B();").1 2).program).errors = [] := by decide +kernel
  have hcall : (plainCall? (parse (tokenize "B();").1 2).program).isSome = true := by decide +kernel
  obtain ⟨⟨target, paren⟩, hcall⟩ := Option.isSome_iff_exists.mp hcall
  have hsuper : ((plainCall? (parse (tokenize "B();").1 2).program).bind fun call =>
      initSuper? 9991 ((after (.ofClock fun _ => 0) false [superText]).begins (.ofClock fun _ => 0)
        (parse (tokenize "B();").1 2).program).machine call.1).isSome = true := by decide +kernel
  rw [hcall] at hsuper
  obtain ⟨⟨k, found, keyword, name⟩, hsuper⟩ := Option.isSome_iff_exists.mp hsuper
  have hcalls : (Host.ofClock fun _ => 0).calls = 9999 + 1 := rfl
  have hroom : (Host.ofClock fun _ => 0).stack = 9988 + 7 := rfl
  generalize Host.ofClock (fun _ => 0) = host at hnext hinteractive hsuper hcalls hroom ⊢
  have hruns : (after host false [superText]).Runs "B();" (parse (tokenize "B();").1 2).program :=
    ⟨hlexical, by rw [hnext]; exact herrors, by rw [hnext], hresolved⟩
  obtain ⟨m, hreach⟩ : ∃ m, Reaches host
      ⟨host.calls, host.stack, .program false [.expr (.call (.ref target) paren [])], _⟩
      ⟨9999, 9988, .expr (.super keyword name), m⟩ := reaches_super hcalls hroom hsuper
  rw [← plainCall?_eq hcall] at hreach
  have hoccurs : Occurs host false [superText, "B();"] ⟨9999, 9988, .expr (.super keyword name), m⟩ := by
    refine ⟨[superText], "B();", [], _, rfl, hruns, ?_⟩
    rw [begins, hinteractive]
    exact hreach
  obtain ⟨-, -, -, -, hdispatches⟩ := receivers_fixed host false [superText, "B();"]
  obtain ⟨k, c, parent, id, h⟩ := hdispatches 9999 9988 keyword name m hoccurs
  exact ⟨9999, 9988, keyword, name, m, k, c, parent, id, by decide, hoccurs, h⟩

end Lox
