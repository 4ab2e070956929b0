import FormalLang.Proofs.Grammar.Yield
import Mathlib.Logic.Relation

/-!
# Derivations in their context

A derivation of a part of a form is one of the form, with the rest left alone (`Derives.frame`), so
that derivations of the parts go together (`Derives.append`).

Going back by one replacement, `Expands.goal_cases` says where a goal came from: it was there
before, with a replacement in front of it or behind it, or it stands in the body that was put in.
Everything that is said below about the places of goals in derived forms goes back along a
derivation by these three cases.
-/

namespace FormalLang

/-- A marked element of two lists one after the other is in the first or in the second one. -/
theorem append_eq_append_cons {α : Type} {u v front back : List α} {x : α}
    (h : u ++ v = front ++ x :: back) :
    (∃ mid, u = front ++ x :: mid ∧ back = mid ++ v) ∨
      ∃ mid, front = u ++ mid ∧ v = mid ++ x :: back := by
  rcases List.append_eq_append_iff.mp h with ⟨mid, hfront, hv⟩ | ⟨mid, hu, hback⟩
  · exact .inr ⟨mid, hfront, hv⟩
  · rcases mid with _ | ⟨y, mid⟩
    · exact .inr ⟨[], by simpa using hu.symm, by simpa using hback.symm⟩
    · obtain ⟨rfl, rfl⟩ := List.cons.inj hback
      exact .inl ⟨mid, hu, rfl⟩

namespace Grammar

variable {g : Grammar} {form next last : List Goal}

/-! ## 1. Putting derivations together -/

theorem derives_iff_reflTransGen :
    g.Derives form last ↔ Relation.ReflTransGen g.Expands form last := by
  constructor
  · intro h
    induction h with
    | refl form => exact .refl
    | step first _ ih => exact .head first ih
  · intro h
    induction h using Relation.ReflTransGen.head_induction_on with
    | refl => exact .refl _
    | head first _ ih => exact .step first ih

theorem Derives.trans (h : g.Derives form next) (h' : g.Derives next last) :
    g.Derives form last :=
  derives_iff_reflTransGen.mpr
    ((derives_iff_reflTransGen.mp h).trans (derives_iff_reflTransGen.mp h'))

theorem Expands.derives (h : g.Expands form next) : g.Derives form next := .step h (.refl next)

theorem Expands.frame (front back : List Goal) (h : g.Expands form next) :
    g.Expands (front ++ form ++ back) (front ++ next ++ back) := by
  obtain ⟨before, after, rule⟩ := h
  have hwhole := Expands.replace (g := g) (front ++ before) (after ++ back) rule
  simpa only [List.append_assoc, List.cons_append] using hwhole

/-- **What a part of a form derives can be put in its place.** -/
theorem Derives.frame (front back : List Goal) (h : g.Derives form last) :
    g.Derives (front ++ form ++ back) (front ++ last ++ back) := by
  induction h with
  | refl form => exact .refl _
  | step first _ ih => exact .step (first.frame front back) ih

theorem Derives.append {front front' back back' : List Goal} (h : g.Derives front front')
    (h' : g.Derives back back') : g.Derives (front ++ back) (front' ++ back') := by
  have hfront := h.frame [] back
  have hback := h'.frame front' []
  simp only [List.nil_append, List.append_nil] at hfront hback
  exact hfront.trans hback

/-- A variable derives what one of its bodies derives, and the rest of the form stays. -/
theorem Derives.of_rule {name : String} {body : Body} (rule : body ∈ g.bodiesOf name)
    (h : g.Derives body.goals last) (rest : List Goal) :
    g.Derives (.variable name :: rest) (last ++ rest) := by
  have hrest := h.frame [] rest
  rw [List.nil_append, List.nil_append] at hrest
  exact .step (.replace [] rest rule) hrest

/-- A form vanishes exactly if both of its parts do. -/
theorem derives_append_nil_iff {front back : List Goal} :
    g.Derives (front ++ back) [] ↔ g.Derives front [] ∧ g.Derives back [] := by
  have hyields : ∀ form, g.Derives form [] ↔ g.Yields form [] :=
    fun form => ⟨fun h => h.yields rfl, fun h => h.derives⟩
  rw [hyields, hyields, hyields, yields_append_iff]
  constructor
  · rintro ⟨u, v, huv, hu, hv⟩
    obtain ⟨rfl, rfl⟩ := List.append_eq_nil_iff.mp huv.symm
    exact ⟨hu, hv⟩
  · rintro ⟨hu, hv⟩
    exact ⟨[], [], rfl, hu, hv⟩

/-! ## 2. Where a goal came from -/

/-- **A goal of the next form** was there before the replacement, which was made in front of it or
behind it, or it stands in the body that was put in. -/
theorem Expands.goal_cases {front back : List Goal} {goal : Goal}
    (h : g.Expands form (front ++ goal :: back)) :
    (∃ front', form = front' ++ goal :: back ∧ g.Expands front' front) ∨
      (∃ back', form = front ++ goal :: back' ∧ g.Expands back' back) ∨
      ∃ name body before left right after, body ∈ g.bodiesOf name ∧
        form = before ++ .variable name :: after ∧ body.goals = left ++ goal :: right ∧
          front = before ++ left ∧ back = right ++ after := by
  generalize hnext : front ++ goal :: back = next at h
  obtain @⟨name, body, before, after, rule⟩ := h
  rcases append_eq_append_cons hnext.symm with ⟨mid, hbody, rfl⟩ | ⟨mid, rfl, rfl⟩
  · rcases append_eq_append_cons hbody with ⟨mid', rfl, rfl⟩ | ⟨left, rfl, hgoals⟩
    · refine .inr (.inl ⟨mid' ++ .variable name :: after, by simp, ?_⟩)
      exact .replace mid' after rule
    · exact .inr (.inr ⟨name, body, before, left, mid, after, rule, rfl, hgoals, rfl, rfl⟩)
  · refine .inl ⟨before ++ .variable name :: mid, by simp, ?_⟩
    exact .replace before mid rule

end Grammar

end FormalLang
