import FormalLang.Proofs.Grammar.Forms
import Mathlib.Algebra.BigOperators.Group.List.Basic
import Mathlib.Algebra.GroupWithZero.Nat
import Mathlib.Order.Nat

/-!
# Left recursion

A variable is left recursive if in one or more steps it derives a form that begins with itself,
where what can vanish does not count (`Grammar.LeftRecursive`).  The derivation may replace
variables anywhere in the forms.

What matters are the beginnings only.  A variable is led by those in its bodies that have nothing
before them but what can vanish (`Grammar.LedBy`), and following these links is the same as deriving
forms (`transGen_ledBy_iff`): seen from its end, every step of a derivation has the leading variable
in front already, or brings it in with a body whose head then leads.

So a grammar has no left recursion if every variable is led by variables of a lower rank only
(`not_leftRecursive_of_rank`), and no cycles if every body weighs more than its head
(`not_transGen_expands_self`).
-/

namespace FormalLang.Grammar

variable {g : Grammar} {form next last : List Goal} {head name : String}

/-- **Whether a variable is left recursive**: in one or more steps it derives a form that begins
with itself, looking through what can vanish. -/
def LeftRecursive (g : Grammar) (name : String) : Prop :=
  ∃ before after, Relation.TransGen g.Expands [.variable name] (before ++ .variable name :: after) ∧
    g.Derives before []

/-- Whether a variable has a body in which another one has nothing before it but what can vanish. -/
def LedBy (g : Grammar) (head name : String) : Prop :=
  ∃ body ∈ g.bodiesOf head, ∃ before after, body.goals = before ++ .variable name :: after ∧
    g.Derives before []

/-! ## 1. One or more replacements -/

theorem expands_variable_iff :
    g.Expands [.variable name] next ↔ ∃ body ∈ g.bodiesOf name, next = body.goals := by
  constructor
  · intro h
    generalize hform : [Goal.variable name] = form at h
    obtain @⟨v, body, before, after, rule⟩ := h
    obtain ⟨rfl, hrest⟩ | ⟨-, hnil⟩ := List.append_eq_singleton_iff.mp hform.symm
    · obtain ⟨hname, rfl⟩ := List.cons.inj hrest
      obtain rfl := Goal.variable.inj hname
      exact ⟨body, rule, by simp⟩
    · contradiction
  · rintro ⟨body, rule, rfl⟩
    simpa using Expands.replace [] [] rule

theorem transGen_expands_of_rule {body : Body} (rule : body ∈ g.bodiesOf name) :
    Relation.TransGen g.Expands [.variable name] body.goals :=
  .single (expands_variable_iff.mpr ⟨body, rule, rfl⟩)

theorem transGen_expands_frame (front back : List Goal)
    (h : Relation.TransGen g.Expands form last) :
    Relation.TransGen g.Expands (front ++ form ++ back) (front ++ last ++ back) :=
  h.lift (fun form => front ++ form ++ back) fun _ _ h => h.frame front back

/-! ## 2. Deriving and leading -/

/-- **A derivation of a leading variable, seen from its end.**  Its form has a variable in front,
looking through what can vanish, from which the leading variable is reached. -/
theorem Derives.exists_leading {before after : List Goal} (hvanish : g.Derives before [])
    (h : g.Derives form (before ++ .variable name :: after)) :
    ∃ v front back, form = front ++ .variable v :: back ∧ g.Derives front [] ∧
      Relation.ReflTransGen g.LedBy v name := by
  rw [derives_iff_reflTransGen] at h
  induction h using Relation.ReflTransGen.head_induction_on with
  | refl => exact ⟨name, before, after, rfl, hvanish, .refl⟩
  | head expands _ ih =>
    obtain ⟨v, front, back, rfl, hfront, hled⟩ := ih
    rcases expands.goal_cases with ⟨front', rfl, hstep⟩ | ⟨back', rfl, -⟩ |
      ⟨head, body, outer, left, right, after, rule, rfl, hgoals, rfl, rfl⟩
    · exact ⟨v, front', back, rfl, .step hstep hfront, hled⟩
    · exact ⟨v, front, back', rfl, hfront, hled⟩
    · -- the body that was put in brings the variable, so that its head is led by it
      obtain ⟨houter, hleft⟩ := derives_append_nil_iff.mp hfront
      exact ⟨head, outer, after, rfl, houter, .head ⟨body, rule, left, right, hgoals, hleft⟩ hled⟩

theorem LedBy.exists_transGen (h : g.LedBy head name) :
    ∃ after, Relation.TransGen g.Expands [.variable head] (.variable name :: after) := by
  obtain ⟨body, rule, before, after, hgoals, hvanish⟩ := h
  have hbody := transGen_expands_of_rule rule
  rw [hgoals] at hbody
  refine ⟨after, hbody.trans_left (derives_iff_reflTransGen.mp ?_)⟩
  exact hvanish.append (.refl _)

theorem exists_transGen_of_ledBy (h : Relation.TransGen g.LedBy head name) :
    ∃ after, Relation.TransGen g.Expands [.variable head] (.variable name :: after) := by
  induction h with
  | single led => exact led.exists_transGen
  | tail _ led ih =>
    obtain ⟨behind, hbehind⟩ := ih
    obtain ⟨after, hafter⟩ := led.exists_transGen
    exact ⟨after ++ behind, hbehind.trans (transGen_expands_frame [] behind hafter)⟩

/-- **Following the links from variable to variable is deriving forms** with a variable in front. -/
theorem transGen_ledBy_iff : Relation.TransGen g.LedBy head name ↔ ∃ before after,
    Relation.TransGen g.Expands [.variable head] (before ++ .variable name :: after) ∧
      g.Derives before [] := by
  constructor
  · intro h
    obtain ⟨after, hafter⟩ := exists_transGen_of_ledBy h
    exact ⟨[], after, hafter, .refl []⟩
  · rintro ⟨before, after, h, hvanish⟩
    obtain ⟨next, expands, hnext⟩ := Relation.TransGen.head'_iff.mp h
    obtain ⟨body, rule, rfl⟩ := expands_variable_iff.mp expands
    obtain ⟨v, front, back, hgoals, hfront, hled⟩ :=
      Derives.exists_leading hvanish (derives_iff_reflTransGen.mpr hnext)
    exact .head' ⟨body, rule, front, back, hgoals, hfront⟩ hled

theorem leftRecursive_iff : g.LeftRecursive name ↔ Relation.TransGen g.LedBy name name :=
  transGen_ledBy_iff.symm

/-- **A left recursive variable has a body that comes back to it**, through a left recursive
variable. -/
theorem LeftRecursive.exists_body (h : g.LeftRecursive name) :
    ∃ body ∈ g.bodiesOf name, (∃ behind, g.Derives body.goals (.variable name :: behind)) ∧
      ∃ v, Goal.variable v ∈ body.goals ∧ g.LeftRecursive v := by
  rw [leftRecursive_iff] at h
  obtain ⟨v, led, back⟩ := Relation.TransGen.head'_iff.mp h
  have hv : g.LeftRecursive v := leftRecursive_iff.mpr (.tail' back led)
  obtain ⟨body, rule, before, after, hgoals, hvanish⟩ := led
  have hmem : Goal.variable v ∈ body.goals := by
    rw [hgoals]
    exact List.mem_append_right _ List.mem_cons_self
  have hbody : g.Derives body.goals (.variable v :: after) := by
    rw [hgoals]
    exact hvanish.append (.refl _)
  refine ⟨body, rule, ?_, v, hmem, hv⟩
  rcases Relation.reflTransGen_iff_eq_or_transGen.mp back with rfl | back
  · exact ⟨after, hbody⟩
  · obtain ⟨behind, hbehind⟩ := exists_transGen_of_ledBy back
    have hcycle := derives_iff_reflTransGen.mpr hbehind.to_reflTransGen
    exact ⟨behind ++ after, hbody.trans (hcycle.append (.refl after))⟩

/-! ## 3. Ranks and weights -/

/-- What grows with every step does not come back. -/
theorem not_transGen_self_of_lt {α β : Type} [Preorder β] {r : α → α → Prop} (f : α → β)
    (grows : ∀ a b, r a b → f a < f b) (a : α) : ¬ Relation.TransGen r a a := by
  have hlt : ∀ b, Relation.TransGen r a b → f a < f b := by
    intro b h
    induction h with
    | single h => exact grows _ _ h
    | tail _ h ih => exact ih.trans (grows _ _ h)
  exact fun h => lt_irrefl _ (hlt a h)

/-- **No variable is left recursive** if each is led by variables of a lower rank only. -/
theorem not_leftRecursive_of_rank {rank : String → Nat}
    (lower : ∀ head name, g.LedBy head name → rank name < rank head) (name : String) :
    ¬ g.LeftRecursive name := by
  rw [leftRecursive_iff]
  exact not_transGen_self_of_lt (fun v => OrderDual.toDual (rank v)) lower name

/-- **No form derives itself** in one or more steps if each body weighs more than its head. -/
theorem not_transGen_expands_self {weight : Goal → Nat}
    (heavier : ∀ name, ∀ body ∈ g.bodiesOf name,
      weight (.variable name) < (body.goals.map weight).sum) (form : List Goal) :
    ¬ Relation.TransGen g.Expands form form := by
  refine not_transGen_self_of_lt (fun form : List Goal => (form.map weight).sum) ?_ form
  rintro _ _ ⟨before, after, rule⟩
  have := heavier _ _ rule
  simp only [List.map_append, List.map_cons, List.sum_append, List.sum_cons]
  omega

end FormalLang.Grammar
