/-
  Lox.Proofs.Rename.Runs — the names of local variables and parameters do not matter
  (`renaming_unseen`): a renamed program is accepted when the program is, and a run of it
  from the same session is seen to do the same. Only the name at which an error points may
  be another one, not its line nor its message. Where the new name is an identifier, the
  renamed program is that of a text.
-/

import Lox.Proofs.Alike.Renamed
import Lox.Proofs.Alike.Runs
import Lox.Proofs.Rename.Mirror
import Lox.Proofs.Rename.Program
import Lox.Proofs.Rename.Tokens

namespace Lox

/-- Two runs that print the same and leave the same global names with the same texts; both
without an error, or with errors on the same line and with the same message. -/
structure SameButNames (done done' : Report × Session) : Prop where
  ending : Ending.Like (fun a a' => a'.line = a.line) done.1.ending done'.1.ending
  output : done'.1.output = done.1.output
  globals : done'.2.machine.globals = done.2.machine.globals

/-- On one line; references with the same entry. -/
def sameLines (D : Distances) : Likeness := ⟨fun a a' => a'.line = a.line, SameDistance D D, False, False, id⟩

variable {host : Host} {interactive : Bool} {before : List String} {source : String} {p p' : List Stmt} {ρ : Renaming}
  {w : World} {m : Machine}

open Session

theorem admits_sameLines (ht : Tabled w m) (hp : w.known p) (ρ : Renaming) : Admits (sameLines m.distances) ρ p where
  place _ _ := rfl
  reference _ _ _ hm hs h := h.congr (ht p hp _ hm) (hs ▸ ht p hp _ hm)

theorem allows_sameLines (ht : Tabled w m) (hp : w.known p) : (sameLines m.distances).Allows p :=
  ⟨fun _ => rfl, (admits_sameLines ht hp .trivial).reference⟩

/-- From any state of a session a renamed program runs as the program. -/
theorem renamed_runs (hruns : (after host interactive before).Runs source p) (hρ : ρ.IsPlain)
    (h : Renames ρ [] [] (.stmts p) (.stmts p')) (n n' : Int) (log log' : List Notice) :
    SameButNames ({ after host interactive before with nextSlot := n }.runProgram host log p)
      ({ after host interactive before with nextSlot := n' }.runProgram host log' p') := by
  have hb := begun hruns
  have hsame := resolve_renamed hb.accepted hρ h
  obtain ⟨log₁, hlog₁⟩ := runProgram_resolved host ⟨_, n, _⟩ log hruns.resolved
  obtain ⟨log₂, hlog₂⟩ := runProgram_resolved host ⟨_, n', _⟩ log' (hsame ▸ hruns.resolved)
  rw [hlog₁, hlog₂, hsame]
  have hkin := kin_self (fun q hq => allows_sameLines hb.tabled hq) hb.inv fun _ _ _ h => h
  have halike := alike_of_renames (admits_sameLines hb.tabled hb.known ρ) hρ hb.accepted h .root rfl
  have hlike := execute_alike ⟨_, n, _⟩ ⟨_, n', _⟩ hkin ⟨hb.current, hb.current⟩ rfl (fun _ => id) halike hb.safe log₁
    log₂ False.elim
  exact ⟨hlike.ending, by rw [hlike.output, Array.empty_append], hlike.globals⟩

/-- A text of the renamed program, where the new name is an identifier. -/
theorem text_of_renamed (hruns : (after host interactive before).Runs source p) (hy : IsIdentifier ρ.new)
    (h : Renames ρ [] [] (.stmts p) (.stmts p')) : ∃ text, (tokenize text).2 = [] ∧
      (parse (tokenize text).1 (after host interactive before).nextSlot).errors = [] ∧
      (parse (tokenize text).1 (after host interactive before).nextSlot).program = p' := by
  have hread := Grammar.reads_of_parse hruns.errors
  rw [hruns.program] at hread
  obtain ⟨ts', hts, hread'⟩ := Grammar.reads_renamed hread h
  obtain ⟨text, htext⟩ := tokenize_reworded hy hruns.lexical hts
  have hparse := @Grammar.parse_of_reads _ _ ⟨ts', (tokenize source).1.endLine⟩ _ hread'
  refine ⟨text, ?_, ?_, ?_⟩
  · rw [htext]
  · rw [htext, hparse]
  · rw [htext, hparse]

/-- The names of local variables and parameters do not matter: for every program that a
session accepts, every choice of scopes and every name that is not in use. -/
theorem renaming_unseen (host : Host) (interactive : Bool) (before : List String) (source : String) (p : List Stmt)
    (hruns : (after host interactive before).Runs source p) (ρ : Renaming) (hρ : ρ.IsPlain)
    (hnew : ρ.new ∉ Stmt.namesAll p) (pick : Renaming.Pick) :
    (resolve (ρ.program pick p)).errors = [] ∧
    (∀ n log, SameButNames ((after host interactive before).run host source)
      ({ after host interactive before with nextSlot := n }.runProgram host log (ρ.program pick p))) ∧
    (∀ text, (tokenize text).2 = [] → (parse (tokenize text).1 (after host interactive before).nextSlot).errors = [] →
      (parse (tokenize text).1 (after host interactive before).nextSlot).program = ρ.program pick p →
      (after host interactive before).Runs text (ρ.program pick p) ∧
      SameButNames ((after host interactive before).run host source) ((after host interactive before).run host text)) ∧
    (IsIdentifier ρ.new → ∃ text, (after host interactive before).Runs text (ρ.program pick p) ∧
      SameButNames ((after host interactive before).run host source)
        ((after host interactive before).run host text)) := by
  have hp := (accepted_of_runs hruns).1
  have hrenames := renames_program hp hnew pick
  have hresolved : (resolve (ρ.program pick p)).errors = [] := by rw [resolve_renamed hp hρ hrenames, hruns.resolved]
  obtain ⟨log₁, hrun⟩ := run_program host hruns.lexical hruns.errors
  rw [hruns.program] at hrun
  have hsame {text : String} (hl : (tokenize text).2 = [])
      (he : (parse (tokenize text).1 (after host interactive before).nextSlot).errors = [])
      (htext : (parse (tokenize text).1 (after host interactive before).nextSlot).program = ρ.program pick p) :
      SameButNames ((after host interactive before).run host source)
        ((after host interactive before).run host text) := by
    obtain ⟨log₂, hrun'⟩ := run_program host hl he
    rw [hrun, hrun', htext]
    exact renamed_runs hruns hρ hrenames ..
  refine ⟨hresolved, fun n log => ?_, fun text hl he htext => ?_, fun hy => ?_⟩
  · rw [hrun]
    exact renamed_runs hruns hρ hrenames ..
  · exact ⟨⟨hl, he, htext, hresolved⟩, hsame hl he htext⟩
  · obtain ⟨text, hl, he, htext⟩ := text_of_renamed hruns hy hrenames
    exact ⟨text, ⟨hl, he, htext, hresolved⟩, hsame hl he htext⟩

/-- A block that prints its only variable, as a text and as a program. -/
def printsText (x : String) : String := "\x7b var " ++ x ++ " = nil; print " ++ x ++ "; \x7d"

def prints (name : Lexeme) (target : Reference) : List Stmt :=
  [.block [.var name (some (.literal .nil)), .print_ (.ref target)]]

def prints? : List Stmt → Option (Lexeme × Reference)
  | [.block [.var name (some (.literal .nil)), .print_ (.ref target)]] => some (name, target)
  | _ => none

theorem prints?_some {name : Lexeme} {target : Reference} (h : prints? p = some (name, target)) :
    p = prints name target := by
  unfold prints? at h
  split at h <;> cases h
  rfl

theorem prints_runs (host : Host) (interactive : Bool) :
    (after host interactive []).Runs (printsText "a") (prints ⟨"a", 1⟩ ⟨⟨"a", 1⟩, 0⟩) := by
  have hlexical : (tokenize (printsText "a")).2 = [] := by decide +kernel
  have herrors : (parse (tokenize (printsText "a")).1 0).errors = [] := by decide +kernel
  have hshape : prints? (parse (tokenize (printsText "a")).1 0).program = some (⟨"a", 1⟩, ⟨⟨"a", 1⟩, 0⟩) := by
    decide +kernel
  exact ⟨hlexical, herrors, prints?_some hshape, rfl⟩

/-- A variable of a block, called by another name. -/
theorem renaming_unseen_block : ∃ p, (Session.after (.ofClock fun _ => 0) false []).Runs (printsText "a") p ∧
    "b" ∉ Stmt.namesAll p ∧ IsIdentifier "b" ∧
    SameButNames ((Session.after (.ofClock fun _ => 0) false []).run (.ofClock fun _ => 0) (printsText "a"))
      ((Session.after (.ofClock fun _ => 0) false []).run (.ofClock fun _ => 0) (printsText "b")) := by
  have hlexical' : (tokenize (printsText "b")).2 = [] := by decide +kernel
  have herrors' : (parse (tokenize (printsText "b")).1 0).errors = [] := by decide +kernel
  have hshape' : prints? (parse (tokenize (printsText "b")).1 0).program = some (⟨"b", 1⟩, ⟨⟨"b", 1⟩, 0⟩) := by
    decide +kernel
  generalize Host.ofClock (fun _ => 0) = host
  have hruns : (after host false []).Runs (printsText "a") (prints ⟨"a", 1⟩ ⟨⟨"a", 1⟩, 0⟩) := prints_runs host false
  have hident : IsIdentifier "b" := by unfold IsIdentifier; decide +kernel
  have hnew : "b" ∉ Stmt.namesAll (prints ⟨"a", 1⟩ ⟨⟨"a", 1⟩, 0⟩) := by decide
  have hplain : Renaming.IsPlain ⟨"a", "b"⟩ := ⟨by decide, by decide⟩
  have hrenamed : (⟨"a", "b"⟩ : Renaming).program (fun _ => true) (prints ⟨"a", 1⟩ ⟨⟨"a", 1⟩, 0⟩) =
      prints ⟨"b", 1⟩ ⟨⟨"b", 1⟩, 0⟩ := rfl
  obtain ⟨-, -, htext, -⟩ := renaming_unseen host false [] _ _ hruns _ hplain hnew fun _ => true
  exact ⟨_, hruns, hnew, hident,
    (htext (printsText "b") hlexical' herrors' ((prints?_some hshape').trans hrenamed.symm)).2⟩

end Lox
