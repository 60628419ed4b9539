/-
  Lox.Proofs.Token.Lines — two texts, one behind the other with a newline in between, have
  the tokens and the errors of both, those of the second one on later lines
  (`tokenize_lines`).

  A newline ends every piece but a string and a block comment that are still open. So the
  pieces in front of it are those of the first text (`pieces_newline`), and the scan goes
  on behind it as from its start, but for what it has found and the line it is on.
-/

import Lox.Proofs.Token.Cuts
import Lox.Proofs.Tree.Shift
import Lox.Token.Scan

namespace Lox

namespace Piece

/-- A newline is as good as the end of a text. -/
theorem startsAlike_newline (xs ys : List Char) : StartsAlike xs (xs ++ '\n' :: ys) := by
  match xs with
  | [] => exact ⟨rfl, by cases ys <;> rfl⟩
  | [c] => exact ⟨rfl, Bool.and_false _⟩
  | c :: d :: rest => exact ⟨rfl, rfl⟩

/-- The pieces of two texts, if nothing is left open in the first. -/
theorem pieces_newline {xs : List Char} (h : ∀ piece ∈ pieces xs, piece.isOpen = false) (ys : List Char) :
    pieces (xs ++ '\n' :: ys) = pieces xs ++ newline :: pieces ys := by
  fun_induction pieces xs with
  | case1 =>
    rw [List.nil_append, pieces_cons]
    rfl
  | case2 c cs ih =>
    have hc : (cut c cs).1.isOpen = false := h _ (List.mem_cons_self ..)
    obtain ⟨body, hbody, -, hcut⟩ := cut_alike hc (startsAlike_newline (cut c cs).2 ys)
    have hfirst : cut c (cs ++ '\n' :: ys) = ((cut c cs).1, (cut c cs).2 ++ '\n' :: ys) := by
      conv => lhs; rw [hbody]
      rw [List.append_assoc, hcut]
    rw [List.cons_append, pieces_cons, hfirst, ih fun piece hm => h piece (List.mem_cons_of_mem _ hm)]
    rfl

end Piece

/-! ## The tokens of the pieces -/

/-- The token of a piece that starts on a line, if it is one. -/
def Piece.tokensAt (line : Nat) : Piece → List Token
  | .token terminal => [⟨terminal, line⟩]
  | _ => []

namespace Scan

/-- The tokens of pieces, the first of which is on this line. -/
def tokensFrom : Nat → List Piece → List Token
  | _, [] => []
  | line, p :: ps => p.tokensAt line ++ tokensFrom (line + p.newlines) ps

theorem take_line (s : Scan) (p : Piece) : (s.take p).line = s.line + p.newlines := by
  cases p <;> rfl

theorem take_tokens (s : Scan) (p : Piece) : (s.take p).tokens.toList = s.tokens.toList ++ p.tokensAt s.line := by
  cases p <;> simp [take, pass, accept, report, Piece.tokensAt]

theorem tokens_foldl (ps : List Piece) (s : Scan) :
    (ps.foldl take s).tokens.toList = s.tokens.toList ++ tokensFrom s.line ps := by
  induction ps generalizing s with
  | nil => exact (List.append_nil _).symm
  | cons p ps ih => rw [List.foldl_cons, ih, take_tokens, take_line, List.append_assoc, tokensFrom]

/-! ## Scanning on -/

/-- The scan behind what another one has found. -/
def behind (s : Scan) (n : Nat) (tokens : Array Token) (errors : Array Diagnostic) : Scan :=
  ⟨s.line + n, tokens ++ s.tokens.map (Shift.byLines (· + n)).token,
    errors ++ s.errors.map (Shift.byLines (· + n)).diagnostic⟩

variable {n : Nat} {tokens : Array Token} {errors : Array Diagnostic}

theorem pass_behind (s : Scan) (lines : Nat) :
    (s.behind n tokens errors).pass lines = (s.pass lines).behind n tokens errors := by
  unfold pass behind
  rw [Nat.add_right_comm]

theorem accept_behind (s : Scan) (terminal : Terminal) :
    (s.behind n tokens errors).accept terminal = (s.accept terminal).behind n tokens errors := by
  unfold accept behind
  rw [Array.map_push, Array.append_push]
  rfl

theorem report_behind (s : Scan) (fault : LexicalFault) :
    (s.behind n tokens errors).report fault = (s.report fault).behind n tokens errors := by
  unfold report behind
  rw [Array.map_push, Array.append_push]
  rfl

theorem take_behind (s : Scan) (p : Piece) : (s.behind n tokens errors).take p = (s.take p).behind n tokens errors := by
  cases p with
  | token terminal => rw [take, accept_behind, pass_behind, take]
  | unexpected c => rw [take, report_behind, take]
  | openString body | openComment body => rw [take, pass_behind, report_behind, take]
  | newline | blank c | lineComment body | blockComment body => rw [take, pass_behind, take] <;> nofun

theorem foldl_behind (ps : List Piece) (s : Scan) :
    ps.foldl take (s.behind n tokens errors) = (ps.foldl take s).behind n tokens errors := by
  induction ps generalizing s with
  | nil => rfl
  | cons p ps ih => rw [List.foldl_cons, take_behind, ih, List.foldl_cons]

/-- Behind a newline the scan is as at the start. -/
theorem behind_newline (s : Scan) : s.take .newline = start.behind s.line s.tokens s.errors := by
  simp [take, pass, Piece.newlines, behind, start, Nat.add_comm]

def IsUnterminated (d : Diagnostic) : Prop :=
  d.cause = .lexical .unterminatedString ∨ d.cause = .lexical .unterminatedComment

theorem mem_take_errors {s : Scan} {d : Diagnostic} (h : d ∈ s.errors) (p : Piece) : d ∈ (s.take p).errors := by
  cases p <;> simp [take, pass, accept, report, h]

theorem unterminated_of_open {p : Piece} (h : p.isOpen = true) (s : Scan) :
    ∃ d ∈ (s.take p).errors, IsUnterminated d := by
  cases p with
  | openString body => exact ⟨_, Array.mem_push_self, Or.inl rfl⟩
  | openComment body => exact ⟨_, Array.mem_push_self, Or.inr rfl⟩
  | _ => cases h

/-- What is never closed is reported. -/
theorem unterminated_foldl {ps : List Piece} {s : Scan}
    (h : (∃ d ∈ s.errors, IsUnterminated d) ∨ ∃ p ∈ ps, p.isOpen = true) :
    ∃ d ∈ (ps.foldl take s).errors, IsUnterminated d := by
  induction ps generalizing s with
  | nil =>
    rcases h with h | ⟨p, hp, -⟩
    · exact h
    · cases hp
  | cons p ps ih =>
    rcases h with ⟨d, hd, hu⟩ | ⟨q, hq, ho⟩
    · exact ih (Or.inl ⟨d, mem_take_errors hd p, hu⟩)
    · rcases List.mem_cons.mp hq with rfl | hq
      · exact ih (Or.inl (unterminated_of_open ho s))
      · exact ih (Or.inr ⟨q, hq, ho⟩)

end Scan

open Scan

/-- Without such an error everything is closed. -/
theorem closed_of_tokenize {a : String} (h : ∀ d ∈ (tokenize a).2, ¬ IsUnterminated d) :
    ∀ piece ∈ Piece.pieces a.toList, piece.isOpen = false := by
  intro piece hm
  rw [← Bool.not_eq_true]
  intro ho
  obtain ⟨d, hd, hu⟩ := unterminated_foldl (s := start) (Or.inr ⟨piece, hm, ho⟩)
  refine h d ?_ hu
  simp only [tokenize, scanFrom_eq_foldl, Array.mem_toList_iff]
  exact hd

/-- The second text on lines behind those of the first. -/
def Shift.behindText (a : String) : Shift := .byLines (· + (tokenize a).1.endLine)

/-- Two texts on lines of their own give the tokens and the errors of both, those of the second
one further down. -/
theorem tokenize_lines {a : String} (h : ∀ d ∈ (tokenize a).2, ¬ IsUnterminated d) (b : String) :
    tokenize (a ++ "\n" ++ b) =
      (⟨(tokenize a).1.items ++ ((Shift.behindText a).tokens (tokenize b).1).items,
        ((Shift.behindText a).tokens (tokenize b).1).endLine⟩,
        (tokenize a).2 ++ (tokenize b).2.map (Shift.behindText a).diagnostic) := by
  have hscan : start.scanFrom (a ++ "\n" ++ b).toList =
      (start.scanFrom b.toList).behind (start.scanFrom a.toList).line (start.scanFrom a.toList).tokens
        (start.scanFrom a.toList).errors := by
    have htext : (a ++ "\n" ++ b).toList = a.toList ++ '\n' :: b.toList := by simp
    rw [htext, scanFrom_eq_foldl, scanFrom_eq_foldl, scanFrom_eq_foldl, Piece.pieces_newline (closed_of_tokenize h),
      List.foldl_append, List.foldl_cons, behind_newline, foldl_behind]
  simp only [tokenize, hscan, behind, Shift.behindText, Shift.tokens, Array.toList_append, Array.toList_map,
    Shift.byLines]

end Lox
