import FormalLang.Regex.Language
import Mathlib.Computability.Language

/-!
# Repetition

`L∗` has the words that are put together from any number of words of `L`.  They can be put together
from the front, one word after the other (`kstar_induction`).

Whatever repeats is compared with it: the star of an expression (`Regex.matches_star_iff_mem_kstar`),
the star of a tree of positions, and the tails behind a variable that begins with itself.
-/

namespace FormalLang

open scoped Computability

universe u

variable {α : Type u} {L : Language α} {u v w : List α}

/-- One more word in front. -/
theorem kstar_cons (hu : u ∈ L) (hv : v ∈ L∗) : u ++ v ∈ L∗ :=
  Set.mem_of_mem_of_subset (Language.append_mem_mul hu hv) (mul_kstar_le_kstar (a := L))

/-- One more word at the end. -/
theorem kstar_concat (hu : u ∈ L∗) (hv : v ∈ L) : u ++ v ∈ L∗ :=
  Set.mem_of_mem_of_subset (Language.append_mem_mul hu hv) (kstar_mul_le_kstar (a := L))

/-- **What holds of the empty word**, and stays when a word of the language is put in front, holds of
all repetitions. -/
theorem kstar_induction {P : (w : List α) → w ∈ L∗ → Prop} (nil : P [] (Language.nil_mem_kstar L))
    (cons : ∀ u v (hu : u ∈ L) (hv : v ∈ L∗), P v hv → P (u ++ v) (kstar_cons hu hv))
    (h : w ∈ L∗) : P w h := by
  obtain ⟨parts, rfl, hparts⟩ := Language.mem_kstar.mp h
  induction parts with
  | nil => exact nil
  | cons part parts ih =>
    have hrest : ∀ p ∈ parts, p ∈ L := fun p hp => hparts p (List.mem_cons_of_mem _ hp)
    exact cons part parts.flatten (hparts part List.mem_cons_self)
      (Language.join_mem_kstar hrest) (ih hrest _)

namespace Regex

variable {e : Regex} {w : List Char}

/-- The words of an expression, as a language. -/
def language (e : Regex) : Language Char := {w | Matches e w}

theorem Matches.mem_kstar : ∀ {s : Regex} {w : List Char}, Matches s w → s = .star e →
    w ∈ e.language∗
  | _, _, .starNil, rfl => Language.nil_mem_kstar _
  | _, _, .starCons hu hv, rfl => kstar_cons hu (hv.mem_kstar rfl)

/-- **The star of an expression repeats its words.** -/
theorem matches_star_iff_mem_kstar : Matches (.star e) w ↔ w ∈ e.language∗ := by
  constructor
  · exact fun h => h.mem_kstar rfl
  · intro h
    induction h using kstar_induction with
    | nil => exact .starNil
    | cons _ _ hu _ ih => exact .starCons hu ih

end Regex

end FormalLang
