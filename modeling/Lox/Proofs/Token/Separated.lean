/-
  Lox.Proofs.Token.Separated — the lexemes of a text, written one behind the other with
  separators between them and perhaps one in front of the end, are tokenized as the tokens of
  the text (`tokenize_separated`).

  A separator is a white character and any white characters and comments behind it. In
  front of a white character every lexeme is the longest one (`fits_before_white`): only a
  string has white characters in it, and a string ends at its quote. So the text that is
  written consists of the tokens and the pieces of the separators.
-/

import Lox.Proofs.Token.Located

namespace Lox

open Piece

/-- White characters and comments; a line comment has its newline with it. -/
inductive Filler where
  | white (c : Char) (isWhite : c ∈ whites)
  | blockComment (body : List Char) (isOpen : ¬ Closes body)
  | lineComment (body : List Char) (isLine : '\n' ∉ body)

/-- White space with any layout behind it. -/
structure Separator where
  first : Char
  isWhite : first ∈ whites
  rest : List Filler

def Filler.text : Filler → List Char
  | white c _ => [c]
  | blockComment body _ => '/' :: '*' :: body ++ ['*', '/']
  | lineComment body _ => '/' :: '/' :: body ++ ['\n']

def Separator.text (s : Separator) : List Char := s.first :: s.rest.flatMap Filler.text

/-- The lexemes of tokens, with the separator `seps n` in front of the last `n` of them, and
`last` in front of the end, where there may be none. -/
def separated (seps : Nat → Separator) (last : Option Separator) : List Token → List Char
  | [] => []
  | [t] => t.text.toList ++ last.elim [] Separator.text
  | t :: u :: ts => t.text.toList ++ ((seps (ts.length + 1)).text ++ separated seps last (u :: ts))

variable {seps : Nat → Separator} {last : Option Separator} {ts : List Token} {ps : List Piece} {rest w : List Char}
  {t : Terminal}

/-! ## A lexeme in front of a white character -/

/-- With white space behind it no lexeme opens a comment. -/
theorem not_comment_before_white (h : Spells t w) (hr : ∀ c ∈ rest.head?, c ∈ whites) : ¬ OpensComment (w ++ rest) := by
  obtain ⟨c, cs, rfl, -⟩ := spells_starts h
  intro hcomment
  obtain rfl : c = '/' := comment_starts hcomment
  have hslash : Symbol.ofChar? '/' = some .slash := rfl
  rcases spells_symbol hslash h with ⟨rfl, -⟩ | ⟨joined, hjoined, -⟩
  · cases rest with
    | nil => simp [OpensComment] at hcomment
    | cons d rest =>
      have hd : d ∈ whites := hr d rfl
      rcases hcomment with hcomment | hcomment
      · obtain rfl : '/' = d := (List.cons_prefix_cons.mp (List.cons_prefix_cons.mp hcomment).2).1
        exact absurd hd (by decide)
      · obtain rfl : '*' = d := (List.cons_prefix_cons.mp (List.cons_prefix_cons.mp hcomment).2).1
        exact absurd hd (by decide)
  · cases hjoined

/-- With white space behind it every lexeme is the longest. -/
theorem longest_before_white (h : Spells t w) (hr : ∀ c ∈ rest.head?, c ∈ whites) : IsLongest w (w ++ rest) := by
  by_cases hstring : ∃ body, t = .string body
  · obtain ⟨body, rfl⟩ := hstring
    cases h with
    | @string body hbody =>
      have htext : '"' :: (body ++ ['"']) ++ rest = '"' :: (body ++ '"' :: rest) := by simp
      rw [htext]
      exact longest_string hbody rest
  · intro t' v hv hpre
    have hv' : ∀ c ∈ v, c ∉ whites := by
      refine spells_not_white hv ?_
      rintro body rfl
      obtain ⟨c, cs, rfl, -⟩ := spells_starts h
      obtain ⟨d, ds, rfl, hd⟩ := spells_starts hv
      obtain rfl : d = '"' := eq_of_beq hd
      obtain rfl : '"' = c := (List.cons_prefix_cons.mp hpre).1
      obtain ⟨inner, -, -, ht⟩ := spells_quote h
      exact hstring ⟨_, ht⟩
    -- What goes on behind the lexeme starts with a white character.
    rw [← Nat.not_lt]
    intro hlt
    obtain ⟨more, rfl⟩ := List.prefix_of_prefix_length_le (List.prefix_append w rest) hpre (Nat.le_of_lt hlt)
    have hmore := (List.prefix_append_right_inj w).mp hpre
    cases more with
    | nil => simp at hlt
    | cons d more =>
      obtain ⟨tail, rfl⟩ := hmore
      exact hv' d (by simp) (hr d rfl)

theorem fits_before_white (h : Spells t w) (hr : ∀ c ∈ rest.head?, c ∈ whites) : (token t).Fits rest := by
  show Spells t t.text.toList ∧ _
  rw [spells_text h]
  exact ⟨h, not_comment_before_white h hr, longest_before_white h hr⟩

/-! ## The pieces of separators -/

def whitePiece (c : Char) : Piece := if c = '\n' then newline else blank c

def Filler.pieces : Filler → List Piece
  | white c _ => [whitePiece c]
  | blockComment body _ => [.blockComment body]
  | lineComment body _ => [.lineComment body, .newline]

def Separator.pieces (s : Separator) : List Piece := whitePiece s.first :: s.rest.flatMap Filler.pieces

def separatedPieces (seps : Nat → Separator) (last : Option Separator) : List Token → List Piece
  | [] => []
  | [t] => token t.terminal :: last.elim [] Separator.pieces
  | t :: u :: ts => token t.terminal :: ((seps (ts.length + 1)).pieces ++ separatedPieces seps last (u :: ts))

theorem text_whitePiece (c : Char) : (whitePiece c).text = [c] := by
  unfold whitePiece
  split
  next h => rw [h]; rfl
  next => rfl

theorem fits_whitePiece {c : Char} (h : c ∈ whites) (rest : List Char) : (whitePiece c).Fits rest := by
  unfold whitePiece
  split
  next => exact trivial
  next hc => exact (List.mem_cons.mp h).resolve_left hc

theorem text_filler (f : Filler) : f.pieces.flatMap Piece.text = f.text := by
  cases f with
  | white c => simp [Filler.pieces, Filler.text, text_whitePiece]
  | blockComment | lineComment => simp [Filler.pieces, Filler.text, Piece.text]

theorem consists_filler (f : Filler) (h : Consists ps) : Consists (f.pieces ++ ps) := by
  cases f with
  | white c hc => exact ⟨fits_whitePiece hc _, h⟩
  | blockComment body hbody => exact ⟨hbody, h⟩
  | lineComment body hbody => exact ⟨⟨hbody, fun c hc => (Option.some.inj hc).symm⟩, trivial, h⟩

theorem consists_fillers (fs : List Filler) (h : Consists ps) : Consists (fs.flatMap Filler.pieces ++ ps) := by
  induction fs with
  | nil => exact h
  | cons f fs ih =>
    rw [List.flatMap_cons, List.append_assoc]
    exact consists_filler f ih

theorem text_separator (s : Separator) : s.pieces.flatMap Piece.text = s.text := by
  unfold Separator.pieces Separator.text
  rw [List.flatMap_cons, text_whitePiece, List.flatMap_assoc]
  simp only [text_filler]
  rfl

theorem consists_separator (s : Separator) (h : Consists ps) : Consists (s.pieces ++ ps) :=
  ⟨fits_whitePiece s.isWhite _, consists_fillers s.rest h⟩

theorem text_last (last : Option Separator) :
    (last.elim [] Separator.pieces).flatMap Piece.text = last.elim [] Separator.text := by
  cases last with
  | none => rfl
  | some s => exact text_separator s

theorem consists_last (last : Option Separator) : Consists (last.elim [] Separator.pieces) := by
  cases last with
  | none => trivial
  | some s =>
    have hs : Consists (s.pieces ++ []) := consists_separator s trivial
    rwa [List.append_nil] at hs

theorem white_last (last : Option Separator) : ∀ c ∈ (last.elim [] Separator.text).head?, c ∈ whites := by
  intro c hc
  cases last with
  | none => cases hc
  | some s =>
    obtain rfl := Option.some.inj hc
    exact s.isWhite

/-! ## The pieces of separated lexemes -/

/-- The pieces of a separated text are the text. -/
theorem text_separated (ts : List Token) :
    (separatedPieces seps last ts).flatMap Piece.text = separated seps last ts := by
  fun_induction separated seps last ts with
  | case1 => rfl
  | case2 t =>
    rw [separatedPieces, List.flatMap_cons, text_last]
    rfl
  | case3 t u ts ih =>
    rw [separatedPieces, List.flatMap_cons, List.flatMap_append, text_separator, ih]
    rfl

/-- Lexemes with separators between them are what the text consists of. -/
theorem consists_separated (h : ∀ t ∈ ts, Spells t.terminal t.text.toList) :
    Consists (separatedPieces seps last ts) := by
  fun_induction separatedPieces seps last ts with
  | case1 => trivial
  | case2 t =>
    refine ⟨fits_before_white (h t (List.mem_cons_self ..)) ?_, consists_last last⟩
    rw [text_last]
    exact white_last last
  | case3 t u ts ih =>
    refine ⟨fits_before_white (h t (List.mem_cons_self ..)) fun c hc => ?_, ?_⟩
    · rw [List.flatMap_append, text_separator] at hc
      obtain rfl := Option.some.inj hc
      exact (seps _).isWhite
    · exact consists_separator _ (ih fun x hx => h x (List.mem_cons_of_mem t hx))

/-! ## Their tokens and errors -/

/-- The terminal of a piece, if it is a token. -/
def Piece.terminals : Piece → List Terminal
  | .token t => [t]
  | _ => []

theorem terminals_behind (before : List Char) (ps : List Piece) :
    (tokensBehind before ps).map (·.terminal) = ps.flatMap Piece.terminals := by
  induction ps generalizing before with
  | nil => rfl
  | cons p ps ih =>
    rw [tokensBehind, List.map_append, ih, List.flatMap_cons]
    cases p <;> rfl

/-- The pieces are neither tokens nor errors. -/
def IsLayout (ps : List Piece) : Prop := ∀ p ∈ ps, p.terminals = [] ∧ ∀ line last, p.faultsAt line last = []

theorem layout_white (c : Char) :
    (whitePiece c).terminals = [] ∧ ∀ line last, (whitePiece c).faultsAt line last = [] := by
  unfold whitePiece
  split <;> exact ⟨rfl, fun _ _ => rfl⟩

theorem layout_separator (s : Separator) : IsLayout s.pieces := by
  refine List.forall_mem_cons.mpr ⟨layout_white _, fun p hp => ?_⟩
  obtain ⟨f, -, hp⟩ := List.mem_flatMap.mp hp
  cases f with
  | white c =>
    obtain rfl := List.mem_singleton.mp hp
    exact layout_white c
  | blockComment body =>
    obtain rfl := List.mem_singleton.mp hp
    exact ⟨rfl, fun _ _ => rfl⟩
  | lineComment body =>
    rcases List.mem_cons.mp hp with rfl | hp
    · exact ⟨rfl, fun _ _ => rfl⟩
    · obtain rfl := List.mem_singleton.mp hp
      exact ⟨rfl, fun _ _ => rfl⟩

theorem layout_last (last : Option Separator) : IsLayout (last.elim [] Separator.pieces) := by
  cases last with
  | none => exact fun p hp => by cases hp
  | some s => exact layout_separator s

theorem IsLayout.terminals (h : IsLayout ps) : ps.flatMap Piece.terminals = [] :=
  List.flatMap_eq_nil_iff.mpr fun p hp => (h p hp).1

/-- Separators have no tokens. -/
theorem terminals_separated (ts : List Token) :
    (separatedPieces seps last ts).flatMap Piece.terminals = ts.map (·.terminal) := by
  fun_induction separatedPieces seps last ts with
  | case1 => rfl
  | case2 t =>
    rw [List.flatMap_cons, (layout_last last).terminals]
    rfl
  | case3 t u ts ih =>
    rw [List.flatMap_cons, List.flatMap_append, (layout_separator _).terminals, ih]
    rfl

/-- Neither lexemes nor separators have errors. -/
theorem faultless_separated (ts : List Token) :
    ∀ p ∈ separatedPieces seps last ts, ∀ line lastLine, p.faultsAt line lastLine = [] := by
  fun_induction separatedPieces seps last ts with
  | case1 => nofun
  | case2 t =>
    intro p hp line lastLine
    rcases List.mem_cons.mp hp with rfl | hp
    · rfl
    · exact (layout_last last p hp).2 line lastLine
  | case3 t u ts ih =>
    intro p hp line lastLine
    rcases List.mem_cons.mp hp with rfl | hp
    · rfl
    · rcases List.mem_append.mp hp with hp | hp
      · exact (layout_separator _ p hp).2 line lastLine
      · exact ih p hp line lastLine

theorem faultsBehind_nil {last : Nat} {before : List Char} (h : ∀ p ∈ ps, ∀ line last, p.faultsAt line last = []) :
    faultsBehind last before ps = [] := by
  induction ps generalizing before with
  | nil => rfl
  | cons p ps ih =>
    rw [faultsBehind, h p (List.mem_cons_self ..), ih fun q hq => h q (List.mem_cons_of_mem p hq)]
    rfl

/-- The lexemes of any text give its tokens back, whatever separates them and stands behind the
last one. -/
theorem tokenize_separated (source : String) (seps : Nat → Separator) (last : Option Separator) :
    let again := tokenize (String.ofList (separated seps last (tokenize source).1.items))
    again.2 = [] ∧ again.1.items.map (·.terminal) = (tokenize source).1.items.map (·.terminal) := by
  obtain ⟨htext, hps⟩ := pieces_iff.mp (Eq.refl (pieces source.toList))
  have hspelled : ∀ t ∈ (tokenize source).1.items, Spells t.terminal t.text.toList := by
    rw [tokenize_pieces htext hps]
    exact fun t ht => mem_tokensBehind hps ht
  generalize (tokenize source).1.items = ts at hspelled ⊢
  have hwritten : (separatedPieces seps last ts).flatMap Piece.text
    = (String.ofList (separated seps last ts)).toList := by
    rw [text_separated, String.toList_ofList]
  have hconsists : Consists (separatedPieces seps last ts) := consists_separated hspelled
  rw [tokenize_pieces hwritten hconsists]
  exact ⟨faultsBehind_nil (faultless_separated ts), (terminals_behind _ _).trans (terminals_separated ts)⟩

end Lox
