/-
  Lox.Proofs.Alike.Effects — the effects of a program on two machines that are kin: each
  of them does the same on both, in rooms on the stack that are the same or, where the
  second text may go deeper, less on its side.
-/

import Lox.Proofs.Alike.Together
import Lox.Proofs.Run.Effects

namespace Lox

variable {α β : Type} {Λ : Likeness} {before : Array String} {π π₁ : Pairing} {m m' m₁ m₁' : Machine} {ss : List Layer}
  {k k' room room' : Nat} {s : Spelling}

open Eval

/-! ## Values and faults -/

/-- The same value, or faults that stop alike texts. -/
def LikeValues (Λ : Likeness) (x x' : Except Fault α) : Prop :=
  (∃ v, x = .ok v ∧ x' = .ok v) ∨ ∃ f f', x = .error f ∧ x' = .error f' ∧ f.Like Λ f'

theorem together_fault {f f' : Fault} {Q : Related α β} (h : Kin Λ before π m m') (hf : f.Like Λ f') :
    Together Λ before π m m' (throw (.fault f)) (throw (.fault f')) Q :=
  have hlike : Stop.Like Λ (.fault f) (.fault f') := hf
  .of_error rfl rfl h hlike

/-- The fault is made one level deeper. -/
theorem together_fails {f f' : Fault} {Q : Related α β} (hroom : Λ.Rooms room room') (h : Kin Λ before π m m')
    (hf : f.Like Λ f') : Together Λ before π m m' (orFail room (.error f)) (orFail room' (.error f')) Q :=
  .needs hroom h (together_fault h hf) 1

theorem together_ofExcept {x x' : Except Fault α} (h : Kin Λ before π m m') (hx : LikeValues Λ x x') :
    Together Λ before π m m' (ofExcept x) (ofExcept x') Same := by
  rcases hx with ⟨v, rfl, rfl⟩ | ⟨f, f', rfl, rfl, hf⟩
  · exact .pure h rfl
  · exact together_fault h hf

theorem together_orFail {x x' : Except Fault α} (hroom : Λ.Rooms room room') (h : Kin Λ before π m m')
    (hx : LikeValues Λ x x') : Together Λ before π m m' (orFail room x) (orFail room' x') Same := by
  rcases hx with ⟨v, rfl, rfl⟩ | ⟨f, f', rfl, rfl, hf⟩
  · exact .pure h rfl
  · exact together_fails hroom h hf

/-! ## Names -/

/-- The innermost scope, if it is shared, is that of the current environments. -/
theorem Around.head (h : Around π m m' k k' ss) (hk : Kin Λ before π m m') (hs : innermost ss = some s) :
    π k = some (k', s) := by
  cases ss with
  | nil =>
    obtain ⟨rfl, rfl⟩ := h
    cases hs
    exact hk.globals
  | cons layer ss =>
    cases layer with
    | shared s₁ =>
      cases hs
      exact h.1
    | added => cases hs

/-- A variable is defined on both sides. -/
theorem together_define {name name' : Lexeme} (h : Kin Λ before π m m') (ha : Around π m m' m.current m'.current ss)
    (hn : Declares ss name name') (v : Value) :
    Together Λ before π m m' (define name.text v) (define name'.text v) Same := by
  obtain ⟨s, hs, hx, htext⟩ := hn
  have hd := h.define (ha.head h hs) hx v
  have hpassed : Passed Λ before π m m' π { m with store := m.store.define m.current name.text v }
      { m' with store := m'.store.define m'.current name'.text v } := by
    rw [htext]
    exact ⟨hd.1, hd.2, rfl, rfl, rfl, rfl⟩
  exact .of_ok rfl rfl hpassed rfl

/-- The last environment has the name itself, or none has it. -/
theorem holder?_root {s : Store Value} (hs : s.outer? k = none) (x : String) :
    s.holder? x k = if (s.cell k x).isSome then some k else none := by
  unfold Store.holder?
  unfold Store.outer? at hs
  unfold Store.cell Store.values? Bindings.contains
  cases he : s.environments[k]? with
  | none => simp
  | some e =>
    rw [he, Option.bind_some] at hs
    simp [hs]

theorem Kin.globalCell (h : Kin Λ before π m m') (x : String) : m'.store.cell globalEnv x = m.store.cell globalEnv x :=
  h.cell h.globals trivial

/-- A global name is found on both machines or on neither. -/
theorem Kin.globalHolder (h : Kin Λ before π m m') (x : String) :
    m'.store.holder? x globalEnv = m.store.holder? x globalEnv := by
  rw [holder?_root h.outermost.1, holder?_root h.outermost.2, h.globalCell]

/-- A name in corresponding environments has the same value or none. -/
theorem like_valueIn {x : String} (h : Kin Λ before π m m') (hk : π k = some (k', s)) (hx : s.Used x) :
    LikeValues Λ (m.store.valueIn k x) (m'.store.valueIn k' (s.text x)) := by
  have hcell := h.cell hk hx
  unfold Store.cell at hcell
  unfold Store.valueIn
  rw [hcell]
  cases (m.store.values? k).bind (·.get? x) with
  | some v => exact Or.inl ⟨v, rfl, rfl⟩
  | none => exact Or.inr ⟨_, _, rfl, rfl, trivial⟩

theorem ancestor_ok {st : Store Value} {d : Int} {e i : Nat} (h : st.ancestor? (Distances.hops d) i = some e) :
    st.ancestor i d = .ok e := by
  unfold Store.ancestor
  rw [h]

/-- A variable is read at its distance on each side. -/
theorem together_readAt {x : String} {d d' : Int} (h : Kin Λ before π m m') (ha : Around π m m' m.current m'.current ss)
    (hs : Meets ss (Distances.hops d) (Distances.hops d') s) (hx : s.Used x) :
    Together Λ before π m m' (readAt d x) (readAt d' (s.text x)) Same := by
  obtain ⟨e, e', he, he', hpair⟩ := ha.ancestor hs
  refine .get (.of_eq (together_ofExcept h (like_valueIn h hpair hx)) ?_ ?_)
  · unfold Store.readAt
    rw [ancestor_ok he]
    rfl
  · unfold Store.readAt
    rw [ancestor_ok he']
    rfl

variable {r r' : Reference}

theorem Kin.same (h : Kin Λ before π m m') (hr : Λ.Refers ss r r') : SameDistance m.distances m'.distances ss r r' :=
  h.distances _ _ _ hr.1

/-- A global variable is read on both sides, or missing on both. -/
theorem like_global {name name' : Lexeme} (h : Kin Λ before π m m') (hn : Λ.Names name name') :
    LikeValues Λ (m.store.read globalEnv name) (m'.store.read globalEnv name') := by
  unfold Store.read Store.holder
  rw [hn.1, h.globalHolder, holder?_root h.outermost.1]
  by_cases hx : (m.store.cell globalEnv name.text).isSome
  · rw [if_pos hx]
    exact like_valueIn h h.globals trivial
  · rw [if_neg hx]
    exact Or.inr ⟨_, _, rfl, rfl, hn.2, rfl⟩

/-- A reference is read at its distance or among the globals. -/
theorem together_read (hroom : Λ.Rooms room room') (h : Kin Λ before π m m')
    (ha : Around π m m' m.current m'.current ss) (hr : Λ.Refers ss r r') :
    Together Λ before π m m' (read room r) (read room' r') Same := by
  have hsame := h.same hr
  unfold SameDistance at hsame
  rcases hroom.cases with ⟨rfl, rfl⟩ | ⟨hd, rfl, left, rfl⟩ | ⟨left', left, rfl, rfl, hleft⟩
  · exact .of_error rfl rfl h trivial
  · exact .escaped hd rfl rfl
  cases hd : m.distances[r.slot]? with
  | some d =>
    rw [hd] at hsame
    obtain ⟨d', s, hd', hs, ⟨hx, htext⟩, -⟩ := hsame
    have hread := together_readAt h ha hs hx
    rw [← htext] at hread
    exact .of_eq (.needs hleft h hread 2) (read_local hd left) (read_local hd' left')
  | none =>
    rw [hd] at hsame
    obtain ⟨hd', htext⟩ := hsame
    exact .of_eq (.deeper hleft h fun _ _ hroom => together_orFail hroom h (like_global h ⟨htext, hr.2⟩))
      (read_global hd left) (read_global hd' left')

theorem together_store {e e' : Nat} {x : String} (h : Kin Λ before π m m') (hk : π e = some (e', s)) (hx : s.Used x)
    (v : Value) :
    Together Λ before π m m' (modify fun m => { m with store := m.store.define e x v })
      (modify fun m => { m with store := m.store.define e' (s.text x) v }) Same := by
  have hd := h.define hk hx v
  exact .of_ok rfl rfl ⟨hd.1, hd.2, rfl, rfl, rfl, rfl⟩ rfl

theorem together_assignGlobal {name name' : Lexeme} (hroom : Λ.Rooms room room') (h : Kin Λ before π m m')
    (hn : Λ.Names name name') (v : Value) :
    Together Λ before π m m' (assignIn room globalEnv name v) (assignIn room' globalEnv name' v) Same := by
  refine .get ?_
  unfold Store.holder
  rw [hn.1, h.globalHolder, holder?_root h.outermost.1]
  by_cases hx : (m.store.cell globalEnv name.text).isSome
  · rw [if_pos hx]
    exact together_store h h.globals trivial v
  · rw [if_neg hx]
    refine (together_fails hroom h ?_ (Q := fun _ _ _ _ _ => False)).bind fun _ _ _ _ _ _ hno => hno.elim
    exact ⟨hn.2, rfl⟩

/-- A reference is assigned to at its distance or among the globals. -/
theorem together_assign (hroom : Λ.Rooms room room') (h : Kin Λ before π m m')
    (ha : Around π m m' m.current m'.current ss) (hr : Λ.Refers ss r r') (v : Value) :
    Together Λ before π m m' (assign room r v) (assign room' r' v) Same := by
  have hsame := h.same hr
  unfold SameDistance at hsame
  cases hd : m.distances[r.slot]? with
  | some d =>
    rw [hd] at hsame
    obtain ⟨d', s, hd', hs, ⟨hx, htext⟩, -⟩ := hsame
    obtain ⟨e, e', he, he', hpair⟩ := ha.ancestor hs
    have hstore := together_store h hpair hx v
    rw [← htext] at hstore
    have hassign : Together Λ before π m m' (assignAt d r.name.text v) (assignAt d' r'.name.text v) Same := by
      refine .get (.of_eq hstore ?_ ?_)
      · rw [ancestor_ok he]
        rfl
      · rw [ancestor_ok he']
        rfl
    exact .of_eq (.needs hroom h hassign 2) (assign_local hd room) (assign_local hd' room')
  | none =>
    rw [hd] at hsame
    exact .of_eq (.deeper hroom h fun _ _ hleft => together_assignGlobal hleft h ⟨hsame.2, hr.2⟩ v)
      (assign_global hd room)
      (assign_global hsame.1 room')

/-! ## Output and objects -/

theorem together_print (h : Kin Λ before π m m') (line : String) :
    Together Λ before π m m' (print line) (print line) Same := by
  have hkin : Kin Λ before π { m with output := m.output.push line } { m' with output := m'.output.push line } ∧
      Paired π m m' π { m with output := m.output.push line } { m' with output := m'.output.push line } :=
    h.others rfl rfl rfl rfl rfl rfl rfl rfl h.instances (by simp [h.output]) h.ticks
  exact .of_ok rfl rfl ⟨hkin.1, hkin.2, rfl, rfl, rfl, rfl⟩ rfl

theorem together_printValue (hroom : Λ.Rooms room room') (h : Kin Λ before π m m') (v : Value) :
    Together Λ before π m m' (printValue room v) (printValue room' v) Same := by
  refine .needs hroom h (.get ?_) _
  rw [h.display]
  exact together_print h _

theorem together_echo (hroom : Λ.Rooms room room') (h : Kin Λ before π m m') (v : Value) :
    Together Λ before π m m' (echo room v) (echo room' v) Same :=
  .deeper hroom h fun _ _ hleft => together_printValue hleft h v

theorem together_readClock (host : Host) (h : Kin Λ before π m m') :
    Together Λ before π m m' (readClock host) (readClock host) Same := by
  have hkin : Kin Λ before π { m with ticks := m.ticks + 1 } { m' with ticks := m'.ticks + 1 } ∧
      Paired π m m' π { m with ticks := m.ticks + 1 } { m' with ticks := m'.ticks + 1 } :=
    h.others rfl rfl rfl rfl rfl rfl rfl rfl h.instances h.output (by simp [h.ticks])
  exact .of_ok rfl rfl ⟨hkin.1, hkin.2, rfl, rfl, rfl, rfl⟩ (by rw [h.ticks]; rfl)

/-- Instances are the same on both machines. -/
theorem Kin.withInstances (h : Kin Λ before π m m') (instances : Array Instance) :
    Passed Λ before π m m' π { m with instances := instances } { m' with instances := instances } := by
  have hkin : Kin Λ before π { m with instances := instances } { m' with instances := instances } ∧
      Paired π m m' π { m with instances := instances } { m' with instances := instances } :=
    h.others rfl rfl rfl rfl rfl rfl rfl rfl rfl h.output h.ticks
  exact ⟨hkin.1, hkin.2, rfl, rfl, rfl, rfl⟩

theorem together_newInstance (h : Kin Λ before π m m') (k : Nat) :
    Together Λ before π m m' (newInstance k) (newInstance k) Same := by
  have hpassed := h.withInstances (m.instances.push ⟨k, ∅⟩)
  have hnew' : newInstance k m' = .ok m.instances.size { m' with instances := m.instances.push ⟨k, ∅⟩ } := by
    unfold newInstance
    rw [h.instances]
  exact .of_ok rfl hnew' hpassed rfl

theorem together_setField (h : Kin Λ before π m m') (id : Nat) (name : String) (v : Value) :
    Together Λ before π m m' (setField id name v) (setField id name v) Same := by
  have hset' : setField id name v m' = .ok () { m' with
      instances := m.instances.modify id fun i => { i with fields := i.fields.set name v } } := by
    rw [← h.instances]
    rfl
  exact .of_ok rfl hset' (h.withInstances _) rfl

theorem together_deref {related : α → α → Prop} {a a' : Option α} (h : Kin Λ before π m m') (ha : BothOr related a a') :
    Together Λ before π m m' (deref a) (deref a') fun _ _ _ => related := by
  cases a <;> cases a'
  · exact together_fault h trivial
  · exact absurd ha id
  · exact absurd ha id
  · exact .pure h ha

theorem findMethod?_none {classes : Array Class} (hk : classes[k]? = none) (x : String) :
    findMethod? classes x k = none := by
  rw [findMethod?, hk]

theorem findMethod?_some {classes : Array Class} {c : Class} (hk : classes[k]? = some c) (x : String) :
    findMethod? classes x k = (c.methods.get? x).or
      (c.superclass.bind fun parent => if parent < k then findMethod? classes x parent else none) := by
  rw [findMethod?, hk]
  cases hm : c.methods.get? x <;> cases hs : c.superclass <;> simp [hm, hs]

/-- A name finds alike methods in classes of one number. -/
theorem findMethod?_both (h : Kin Λ before π m m') (x : String) (k : Nat) :
    BothOr (AlikeMethod Λ π m m') (findMethod? m.classes x k) (findMethod? m'.classes x k) := by
  induction k using Nat.strongRecOn with
  | _ k ih =>
    rcases (h.classes k).cases with ⟨hk, hk'⟩ | ⟨c, c', hk, hk', hc⟩
    · rw [findMethod?_none hk, findMethod?_none hk']
      trivial
    · rw [findMethod?_some hk, findMethod?_some hk', hc.superclass]
      rcases (hc.methods x).cases with ⟨hm, hm'⟩ | ⟨method, method', hm, hm', hmethod⟩ <;> rw [hm, hm']
      · -- Neither has the method itself, so it is looked for in the same superclass.
        cases c.superclass with
        | none => trivial
        | some parent =>
          simp only [Option.none_or, Option.bind_some]
          split
          next hlt => exact ih parent hlt
          next => trivial
      · exact hmethod

theorem together_findMethod (h : Kin Λ before π m m') (x : String) (k : Nat) :
    Together Λ before π m m' (findMethod x k) (findMethod x k) fun π₁ m₁ m₁' => BothOr (AlikeMethod Λ π₁ m₁ m₁') :=
  .get (.pure h (findMethod?_both h x k))

/-- A new environment on both machines, around which there are corresponding ones. -/
theorem together_newEnvironment {t t' : Bindings Value} {e e' : Nat} (h : Kin Λ before π m m')
    (ha : Around π m m' e e' ss) (ht : Spelled s t t') :
    Together Λ before π m m' (newEnvironment t e) (newEnvironment t' e')
      fun π₁ m₁ m₁' k k' => Around π₁ m₁ m₁' k k' (.shared s :: ss) := by
  have hpush := h.push ht e e'
  refine .of_ok rfl rfl ⟨hpush.1, hpush.2, rfl, rfl, rfl, rfl⟩ (ha.push hpush.2 ?_ ?_ ?_)
  · exact if_pos rfl
  · exact (Store.outer?_push ..).trans (if_pos rfl)
  · exact (Store.outer?_push ..).trans (if_pos rfl)

variable {c c' method method' : Closure} {name name' op op' : Lexeme}

theorem together_bindThis (h : Kin Λ before π m m') (hm : AlikeMethod Λ π m m' method method') (id : Nat) :
    Together Λ before π m m' (bindThis method id) (bindThis method' id) fun π₁ m₁ m₁' => AlikeFunction Λ π₁ m₁ m₁' := by
  obtain ⟨hi, receiver, ss, context, context', ha, halike⟩ := hm
  have htable := Spelled.single receiver.this.1 (.instance_ id)
  rw [receiver.this.2] at htable
  exact (together_newEnvironment h ha htable).map fun π₁ m₁ m₁' k k' _ hk => ⟨hi, _, context, context', rfl, hk, halike⟩

theorem together_newFunction (h : Kin Λ before π m m') (hc : AlikeFunction Λ π m m' c c') :
    Together Λ before π m m' (newFunction c) (newFunction c') Same := by
  have hnew := h.newFunction hc
  refine .of_ok rfl rfl ⟨hnew.1, hnew.2, rfl, rfl, rfl, rfl⟩ ?_
  rw [size_eq h.functions]
  rfl

theorem together_boundMethod (h : Kin Λ before π m m') (hm : AlikeMethod Λ π m m' method method') (id : Nat) :
    Together Λ before π m m' (boundMethod method id) (boundMethod method' id) Same :=
  (together_bindThis h hm id).bind fun _ _ _ _ _ hpassed hc => together_newFunction hpassed.kin hc

/-- A method is looked up, and bound to an instance if there is one, in so many levels each. -/
theorem together_foundMethod (hroom : Λ.Rooms room room') (h : Kin Λ before π m m') (hn : Λ.Names name name')
    (levels levels' k id : Nat) :
    Together Λ before π m m'
      (do match ← needs levels room (findMethod name.text k) with
          | some found => needs levels' room (boundMethod found id)
          | none => Eval.fail name (.undefinedProperty name.text))
      (do match ← needs levels room' (findMethod name'.text k) with
          | some found => needs levels' room' (boundMethod found id)
          | none => Eval.fail name' (.undefinedProperty name'.text)) Same := by
  rw [hn.1]
  refine (Together.needs hroom h (together_findMethod h name.text k) levels).bind
    fun π₁ m₁ m₁' found found' hpassed hfound => ?_
  cases found <;> cases found'
  · exact .fail hpassed.kin hn.2 _
  · exact hfound.elim
  · exact hfound.elim
  · exact .needs hroom hpassed.kin (together_boundMethod hpassed.kin hfound id) levels'

/-- A property is looked up on both sides. -/
theorem together_property (hroom : Λ.Rooms room room') (h : Kin Λ before π m m') (hn : Λ.Names name name')
    (object : Value) :
    Together Λ before π m m' (property room object name) (property room' object name') Same := by
  unfold property
  cases object with
  | instance_ id =>
    refine .get ?_
    rw [h.instances]
    cases m.instances[id]? with
    | none => exact together_fault h trivial
    | some i =>
      simp only [deref, pure_bind]
      rw [show i.fields.get? name'.text = i.fields.get? name.text by rw [hn.1]]
      cases i.fields.get? name.text with
      | some v => exact .pure h rfl
      | none => exact together_foundMethod hroom h hn 2 3 i.class_ id
  | _ => exact .fail h hn.2 _

theorem together_fieldOwner (h : Kin Λ before π m m') (hn : Λ.Names name name') (object : Value) :
    Together Λ before π m m' (fieldOwner object name) (fieldOwner object name') Same := by
  cases object with
  | instance_ id => exact .pure h rfl
  | _ => exact .fail h hn.2 _

theorem together_distance (h : Kin Λ before π m m') : Together Λ before π m m' (distance? r) (distance? r')
    fun _ _ _ d d' => d = m.distances[r.slot]? ∧ d' = m'.distances[r'.slot]? :=
  .get (.pure h ⟨rfl, rfl⟩)

/-- A method of the superclass is looked up and bound on both sides. -/
theorem together_superMethod (hroom : Λ.Rooms room room') (h : Kin Λ before π m m')
    (ha : Around π m m' m.current m'.current ss) (hsuper : r.name.text = superName) (hr : Λ.Refers ss r r')
    (hn : Λ.Names name name') :
    Together Λ before π m m' (superMethod room r name) (superMethod room' r' name') Same := by
  have hsame := h.same hr
  unfold SameDistance at hsame
  unfold superMethod
  refine .needs hroom h ((together_distance h).bind fun π₁ m₁ m₁' d d' hpassed hd => ?_) 2
  obtain ⟨rfl, rfl⟩ := hd
  cases hd : m.distances[r.slot]? with
  | none =>
    rw [hd] at hsame
    rw [hsame.1]
    exact together_fault hpassed.kin trivial
  | some d =>
    rw [hd] at hsame
    obtain ⟨d', s, hd', hs, -, hreceiver⟩ := hsame
    obtain ⟨t, ht⟩ := hreceiver hsuper
    rw [hd']
    have hparent := together_readAt hpassed.kin (hpassed.around ha) hs s.super.1
    rw [s.super.2] at hparent
    refine hparent.bind fun π₂ m₂ m₂' parent parent' hpassed' hp => ?_
    cases hp
    have hreceiver := together_readAt hpassed'.kin (hpassed'.around (hpassed.around ha)) ht t.this.1
    rw [t.this.2] at hreceiver
    refine hreceiver.bind fun π₃ m₃ m₃' receiver receiver' hpassed'' hp => ?_
    cases hp
    cases parent <;> cases receiver
    case class_.instance_ k id => exact together_foundMethod hroom hpassed''.kin hn 0 0 k id
    all_goals exact together_fault hpassed''.kin trivial

/-! ## Calls and operators -/

/-- The number of parameters is the same on both sides. -/
theorem together_arity (hroom : Λ.Rooms room room') (h : Kin Λ before π m m') (callee : Value) :
    Together Λ before π m m' (arity? room callee) (arity? room' callee) Same := by
  unfold arity?
  cases callee with
  | function id =>
    refine .get ((together_deref h (h.functions id)).map fun _ _ _ c c' _ hc => ?_)
    obtain ⟨-, ss, context, context', -, -, halike⟩ := hc
    obtain ⟨-, s, hparams, -⟩ := halike.parts
    show some c'.routine.params.length = some c.routine.params.length
    rw [hparams.length]
  | class_ k =>
    refine (Together.needs hroom h (together_findMethod h initName k) 2).bind
      fun π₁ m₁ m₁' found found' hpassed hfound => ?_
    cases found <;> cases found'
    · exact .pure hpassed.kin rfl
    · exact hfound.elim
    · exact hfound.elim
    · obtain ⟨-, receiver, ss, context, context', -, halike⟩ := hfound
      obtain ⟨-, s, hparams, -⟩ := halike.parts
      exact .pure hpassed.kin (congrArg some hparams.length)
  | _ => exact .pure h rfl

/-- A call is refused on both sides or on neither. -/
theorem together_checkCall (hroom : Λ.Rooms room room') (h : Kin Λ before π m m') (hn : Λ.Names op op') (callee : Value)
    (count : Nat) :
    Together Λ before π m m' (checkCall room op callee count) (checkCall room' op' callee count) Same := by
  refine (together_arity hroom h callee).bind fun π₁ m₁ m₁' expected expected' hpassed he => ?_
  cases he
  cases expected with
  | none => exact .fail hpassed.kin hn.2 _
  | some expected =>
    simp only
    split
    · exact .pure hpassed.kin rfl
    · exact .fail hpassed.kin hn.2 _

/-- The same value, or the same cause at either place. -/
def AlikeResult (op op' : Lexeme) (x x' : Except RuntimeError Value) : Prop :=
  (∃ v, x = .ok v ∧ x' = .ok v) ∨ ∃ cause, x = .error ⟨op, cause⟩ ∧ x' = .error ⟨op', cause⟩

/-- An operator acts by its text. -/
theorem alike_unary (hn : op'.text = op.text) (v : Value) :
    AlikeResult op op' (Operator.unary op v) (Operator.unary op' v) := by
  unfold Operator.unary
  rw [hn]
  split
  · exact Or.inl ⟨_, rfl, rfl⟩
  · exact Or.inl ⟨_, rfl, rfl⟩
  · exact Or.inr ⟨_, rfl, rfl⟩

/-- An operator acts by its text. -/
theorem alike_binary (hn : op'.text = op.text) (display : Value → String) (a b : Value) :
    AlikeResult op op' (Operator.binary display op a b) (Operator.binary display op' a b) := by
  unfold Operator.binary
  rw [hn]
  split
  · exact Or.inl ⟨_, rfl, rfl⟩
  · exact Or.inl ⟨_, rfl, rfl⟩
  · exact Or.inl ⟨_, rfl, rfl⟩
  · unfold Operator.sum
    split
    · exact Or.inl ⟨_, rfl, rfl⟩
    · exact Or.inl ⟨_, rfl, rfl⟩
    · exact Or.inl ⟨_, rfl, rfl⟩
    · exact Or.inr ⟨_, rfl, rfl⟩
  · split
    · unfold Operator.arithmetic
      rw [hn]
      split
      case h_3 =>
        split
        · exact Or.inr ⟨_, rfl, rfl⟩
        · exact Or.inl ⟨_, rfl, rfl⟩
      case h_8 => exact Or.inr ⟨_, rfl, rfl⟩
      all_goals exact Or.inl ⟨_, rfl, rfl⟩
    · exact Or.inr ⟨_, rfl, rfl⟩

theorem together_operator {x x' : Except RuntimeError Value} (hroom : Λ.Rooms room room') (h : Kin Λ before π m m')
    (hn : Λ.Names op op') (hx : AlikeResult op op' x x') :
    Together Λ before π m m' (ofOperator room x) (ofOperator room' x') Same := by
  refine together_orFail hroom h ?_
  rcases hx with ⟨v, rfl, rfl⟩ | ⟨cause, rfl, rfl⟩
  · exact Or.inl ⟨v, rfl, rfl⟩
  · exact Or.inr ⟨_, _, rfl, rfl, hn.2, rfl⟩

theorem together_binary (hroom : Λ.Rooms room room') (h : Kin Λ before π m m') (hn : Λ.Names op op') (a b : Value) :
    Together Λ before π m m' (binary room op a b) (binary room' op' a b) Same := by
  have hdisplay : m'.display = m.display := funext h.display
  have hlevels : Operator.binaryLevels op' a b = Operator.binaryLevels op a b := by
    unfold Operator.binaryLevels
    rw [hn.1]
  unfold binary
  rw [hlevels]
  refine .deeper hroom h fun left left' hleft => .needs hleft h (.get ?_) _
  rw [hdisplay]
  exact together_operator hleft h hn (alike_binary hn.1 _ a b)

/-- A superclass is a class on both sides or on neither. -/
theorem together_superclassValue (hroom : Λ.Rooms room room') (h : Kin Λ before π m m')
    (ha : Around π m m' m.current m'.current ss) (hr : Λ.Refers ss r r') :
    Together Λ before π m m' (superclassValue room r) (superclassValue room' r') Same := by
  refine .deeper hroom h fun left left' hleft => (together_read hleft h ha hr).bind fun π₁ m₁ m₁' v v' hpassed hv => ?_
  cases hv
  cases v with
  | class_ k => exact .pure hpassed.kin rfl
  | _ => exact .fail hpassed.kin hr.2 _

end Lox
