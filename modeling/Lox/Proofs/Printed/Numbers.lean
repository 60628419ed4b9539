/-
  Lox.Proofs.Printed.Numbers — the characters of a number's text (`written_plain`): digits,
  a point, an exponent and signs, and a digit or a minus sign first. So no number is printed
  as a name is, and none has a separator in it.
-/

import Lox.Proofs.Printed.Shape
import Lox.Token.Piece

namespace Lox

namespace Number

def IsFinite (x : Float) : Prop := ∃ value, parts x = .finite value

instance (x : Float) : Decidable (IsFinite x) :=
  match h : parts x with
  | .finite value => .isTrue ⟨value, h⟩
  | .nan => .isFalse fun ⟨_, hx⟩ => by rw [h] at hx; cases hx
  | .infinite _ => .isFalse fun ⟨_, hx⟩ => by rw [h] at hx; cases hx

/-- A character of a number's text. -/
def isChar (c : Char) : Bool := Piece.isDigit c || c ∈ ['.', 'e', '+', '-']

/-- How a number's text starts. -/
def isFirst (c : Char) : Bool := Piece.isDigit c || c = '-'

structure Written (text : List Char) : Prop where
  first : text.head?.any isFirst = true
  chars : ∀ c ∈ text, isChar c = true

/-! ## Digits -/

theorem isChar_of_digit {c : Char} (h : Piece.isDigit c = true) : isChar c = true := by
  rw [isChar, h]
  rfl

theorem isFirst_of_digit {c : Char} (h : Piece.isDigit c = true) : isFirst c = true := by
  rw [isFirst, h]
  rfl

theorem digits_repr (n : Nat) : ∀ c ∈ n.repr.toList, Piece.isDigit c = true := by
  intro c hc
  rw [Nat.toList_repr] at hc
  simpa [Char.isDigit, Piece.isDigit, Char.le_def] using Nat.isDigit_of_mem_toDigits (by omega) (by omega) hc

theorem digits_zeros (n : Nat) : ∀ c ∈ (zeros n).toList, Piece.isDigit c = true := by
  intro c hc
  rw [zeros, String.toList_ofList] at hc
  rw [List.eq_of_mem_replicate hc]
  decide

theorem repr_ne_nil (n : Nat) : n.repr.toList ≠ [] := by
  rw [Nat.toList_repr]
  exact Nat.toDigits_ne_nil

/-- A text that starts with a digit. -/
theorem written_cons {c : Char} {cs : List Char} (hc : Piece.isDigit c = true) (h : ∀ d ∈ cs, isChar d = true) :
    Written (c :: cs) :=
  ⟨isFirst_of_digit hc, List.forall_mem_cons.mpr ⟨isChar_of_digit hc, h⟩⟩

theorem written_append {ds cs : List Char} (hd : ∀ c ∈ ds, Piece.isDigit c = true) (hne : ds ≠ [])
    (h : ∀ c ∈ cs, isChar c = true) : Written (ds ++ cs) := by
  cases ds with
  | nil => exact absurd rfl hne
  | cons d ds =>
    refine written_cons (hd d (List.mem_cons_self ..)) (List.forall_mem_append.mpr ⟨fun c hc => ?_, h⟩)
    exact isChar_of_digit (hd c (List.mem_cons_of_mem _ hc))

theorem chars_digits {ds : List Char} (hd : ∀ c ∈ ds, Piece.isDigit c = true) : ∀ c ∈ ds, isChar c = true :=
  fun c hc => isChar_of_digit (hd c hc)

/-! ## Layouts -/

/-- Digits with a point among them or behind them. -/
theorem written_positional {ds : List Char} (hd : ∀ c ∈ ds, Piece.isDigit c = true) (hne : ds ≠ []) (point : Int) :
    Written (Layout.positional ds point).toList := by
  unfold Layout.positional
  split
  · simp only [String.toList_append, String.toList_ofList, List.append_assoc]
    show Written (['0'] ++ '.' :: ((zeros (-point).toNat).toList ++ ds))
    refine written_append (List.forall_mem_singleton.mpr (by decide)) (List.cons_ne_nil _ _) ?_
    refine List.forall_mem_cons.mpr ⟨by decide, ?_⟩
    exact List.forall_mem_append.mpr ⟨chars_digits (digits_zeros _), chars_digits hd⟩
  · rename_i hpoint
    split
    · simp only [String.toList_append, String.toList_ofList, List.append_assoc]
      refine written_append hd hne (List.forall_mem_append.mpr ⟨chars_digits (digits_zeros _), ?_⟩)
      exact List.all_eq_true.mp (by decide)
    · simp only [String.toList_append, String.toList_ofList, List.append_assoc]
      have htaken : ds.take point.toNat ≠ [] := by
        rw [Ne, List.take_eq_nil_iff]
        rintro (hzero | hnil)
        · omega
        · exact hne hnil
      refine written_append (fun c hc => hd c (List.mem_of_mem_take hc)) htaken ?_
      refine List.forall_mem_append.mpr ⟨List.all_eq_true.mp (by decide), ?_⟩
      exact chars_digits fun c hc => hd c (List.mem_of_mem_drop hc)

theorem chars_exponent (layout : Layout) (place : Int) :
    ∀ c ∈ ((if place < 0 then "e-" else "e+") ++ padded layout.exponentWidth place.natAbs).toList, isChar c = true := by
  rw [String.toList_append]
  refine List.forall_mem_append.mpr ⟨?_, ?_⟩
  · split <;> exact List.all_eq_true.mp (by decide)
  · rw [padded, String.toList_append]
    exact List.forall_mem_append.mpr ⟨chars_digits (digits_zeros _), chars_digits (digits_repr _)⟩

/-- Digits with an exponent. -/
theorem written_scientific (layout : Layout) {ds : List Char} (hd : ∀ c ∈ ds, Piece.isDigit c = true) (hne : ds ≠ [])
    (place : Int) : Written (layout.scientific ds place).toList := by
  have hexponent := chars_exponent layout place
  cases ds with
  | nil => exact absurd rfl hne
  | cons d rest =>
    obtain ⟨hfirst, hrest⟩ := List.forall_mem_cons.mp hd
    cases rest with
    | nil =>
      unfold Layout.scientific
      rw [String.toList_append, String.toList_ofList]
      exact written_cons hfirst hexponent
    | cons d' rest =>
      unfold Layout.scientific
      rw [String.toList_append, String.toList_ofList]
      refine written_cons hfirst (List.forall_mem_cons.mpr ⟨by decide, ?_⟩)
      exact List.forall_mem_append.mpr ⟨chars_digits hrest, hexponent⟩

theorem written_render (layout : Layout) (d : Decimal) : Written (layout.render d).toList := by
  unfold Layout.render
  dsimp only
  split
  · exact written_positional (digits_repr _) (repr_ne_nil _) _
  · exact written_scientific layout (digits_repr _) (repr_ne_nil _) _

theorem written_signed (negative : Bool) {text : String} (h : Written text.toList) :
    Written (signed negative text).toList := by
  cases negative with
  | false => exact h
  | true =>
    show Written ("-" ++ text).toList
    rw [String.toList_append]
    exact ⟨rfl, List.forall_mem_cons.mpr ⟨by decide, h.chars⟩⟩

theorem written_repr (n : Nat) : Written n.repr.toList := by
  have h := written_append (digits_repr n) (repr_ne_nil n) fun c hc => absurd hc (List.not_mem_nil (α := Char))
  rwa [List.append_nil] at h

theorem written_text (x : Finite) : Written x.text.toList := by
  refine written_signed x.negative ?_
  split
  · have hrest : ∀ c ∈ ['.', '0'], isChar c = true := List.all_eq_true.mp (by decide)
    exact written_cons (c := '0') (by decide) hrest
  · exact written_render ..

theorem written_plain {x : Float} (h : IsFinite x) : Written (plain x).toList := by
  obtain ⟨value, hvalue⟩ := h
  unfold plain
  simp only [hvalue]
  split
  · exact written_signed _ (written_repr _)
  · exact written_text value

theorem Written.isWord {text : String} (h : Written text.toList) : Printed.IsWord text := by
  refine ⟨?_, fun c hc hsep => ?_⟩
  · rintro rfl
    exact absurd h.first (by decide)
  · have hno : ∀ c ∈ Printed.separators, (!isChar c) = true := List.all_eq_true.mp (by decide)
    simpa [h.chars c hc] using hno c hsep

end Number

end Lox
