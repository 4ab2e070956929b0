import FormalLang.Proofs.Grammar.FirstMeaning
import FormalLang.Proofs.Grammar.Leading
import FormalLang.Proofs.Grammar.Leads

/-!
# Left recursion is detected exactly

The detection follows links from variable to variable: a body is read from the left for as long as
the FIRST sets say that what was read can vanish.  It answers yes exactly if some variable derives,
in one or more steps, a form that begins with itself (`hasLeftRecursion_exact`).

* **A link is `LedBy`** (`mem_leading_iff`), since the FIRST set of a variable has `ε` exactly if
  the variable derives the empty form (`nullableIn_iff`).
* **Following links is deriving forms**, which is `leftRecursive_iff`.  The search visits what is
  reached by one link or more and nothing else (`mem_leaders_iff`).
-/

namespace FormalLang.Grammar

variable {g : Grammar} {first : FirstSets} {head name : String} {form : List Goal}

/-! ## 1. What stands in front -/

/-- Whether a variable stands in a form with nothing before it but what can vanish. -/
def Leads (g : Grammar) (name : String) (form : List Goal) : Prop :=
  ∃ before after, form = before ++ .variable name :: after ∧ g.Derives before []

theorem not_leads_nil : ¬ g.Leads name [] := by
  rintro ⟨before, after, heq, -⟩
  exact absurd heq.symm (List.append_ne_nil_of_right_ne_nil before (List.cons_ne_nil _ _))

/-- The first goal is the variable, or it can vanish and the variable is in front behind it. -/
theorem leads_cons_iff {goal : Goal} : g.Leads name (goal :: form) ↔
    goal = .variable name ∨ g.Derives [goal] [] ∧ g.Leads name form := by
  constructor
  · rintro ⟨before, after, heq, hvanish⟩
    rcases before with _ | ⟨_, before⟩
    · exact .inl (List.cons.inj heq).1
    · obtain ⟨rfl, rfl⟩ := List.cons.inj heq
      rw [← List.singleton_append, derives_append_nil_iff] at hvanish
      exact .inr ⟨hvanish.1, before, after, rfl, hvanish.2⟩
  · rintro (rfl | ⟨hgoal, before, after, rfl, hvanish⟩)
    · exact ⟨[], form, rfl, .refl []⟩
    · refine ⟨goal :: before, after, rfl, ?_⟩
      rw [← List.singleton_append, derives_append_nil_iff]
      exact ⟨hgoal, hvanish⟩

theorem not_derives_terminal_nil {t : Terminal} : ¬ g.Derives [.terminal t] [] := by
  intro h
  have hyields : g.Yields [.terminal t] [] := h.yields rfl
  obtain ⟨_, heq, -⟩ := yields_terminal_cons_iff.mp hyields
  cases heq

/-! ## 2. Links -/

/-- **The FIRST sets know which variables can vanish.** -/
theorem nullableIn_iff (closed : FirstSets.Closed g first)
    (grounded : FirstSets.Grounded g first) :
    nullableIn first name = true ↔ g.Derives [.variable name] [] := by
  have hbegins : nullableIn first name = true ↔ first.Begins [.variable name] .epsilon := by
    rw [FirstSets.begins_variable_cons_iff, FirstSets.begins_nil_iff, nullableIn,
      Option.any_eq_true]
    simp [FirstSets.Has]
  rw [hbegins]
  constructor
  · exact fun h => (FirstSets.derives_of_canBegin (grounded.canBegin_of_begins h)).1 rfl
  · exact fun h => closed.begins_of_derives h .nil

/-- The variables that a body is read for are those in front. -/
theorem mem_leadingOf_iff (closed : FirstSets.Closed g first)
    (grounded : FirstSets.Grounded g first) {body : List Symbol} :
    name ∈ leadingOf first body ↔ g.Leads name (Body.goals body) := by
  induction body with
  | nil => exact ⟨nofun, fun h => absurd h not_leads_nil⟩
  | cons s rest ih =>
    rcases s with t | v | _
    · change name ∈ [] ↔ g.Leads name (.terminal t :: Body.goals rest)
      rw [leads_cons_iff]
      constructor
      · nofun
      · rintro (h | ⟨h, -⟩)
        · cases h
        · exact absurd h not_derives_terminal_nil
    · change name ∈ leadingOf first (.variable v :: rest) ↔
        g.Leads name (.variable v :: Body.goals rest)
      rw [leadingOf, leads_cons_iff, ← nullableIn_iff closed grounded, Goal.variable.injEq, ← ih]
      by_cases hvanish : nullableIn first v
      · rw [if_pos hvanish, List.mem_cons, eq_comm (a := name)]
        exact or_congr_right (and_iff_right hvanish).symm
      · rw [if_neg hvanish, List.mem_singleton, eq_comm (a := name)]
        exact (or_iff_left fun h => hvanish h.1).symm
    · rw [leadingOf]
      exact ih

/-- **A link leads to the variables in front of the bodies.** -/
theorem mem_leading_iff (closed : FirstSets.Closed g first)
    (grounded : FirstSets.Grounded g first) :
    name ∈ g.leading first head ↔ g.LedBy head name := by
  rw [leading, OrderedSet.mem_ofList, List.mem_flatMap]
  exact exists_congr fun body => and_congr_right fun _ => mem_leadingOf_iff closed grounded

/-- **The search follows one link or more.** -/
theorem WellFormed.mem_leaders_iff (wellFormed : g.WellFormed)
    (closed : FirstSets.Closed g first) (grounded : FirstSets.Grounded g first) :
    name ∈ g.leaders first head ↔ Relation.TransGen g.LedBy head name := by
  constructor
  · refine spread_subset (fun v hv w hw => ?_) (fun v hv => ?_) name
    · exact hv.tail ((mem_leading_iff closed grounded).mp hw)
    · exact .single ((mem_leading_iff closed grounded).mp hv)
  · intro h
    induction h with
    | single led => exact subset_spread ((mem_leading_iff closed grounded).mpr led)
    | tail _ led ih =>
      exact wellFormed.leaders_closed _ ih _ ((mem_leading_iff closed grounded).mpr led)

/-! ## 3. Detection -/

/-- In front there may be nothing at all: what can vanish before the variable is made to. -/
theorem leftRecursive_iff_exists : g.LeftRecursive name ↔
    ∃ after, Relation.TransGen g.Expands [.variable name] (.variable name :: after) := by
  constructor
  · intro h
    exact exists_transGen_of_ledBy (leftRecursive_iff.mp h)
  · rintro ⟨after, h⟩
    exact ⟨[], after, h, .refl []⟩

/-- The detection finds no fault, and it answers whether some variable is left recursive. -/
theorem WellFormed.exists_hasLeftRecursion (wellFormed : g.WellFormed) :
    ∃ found, g.hasLeftRecursion = .ok found ∧
      (found = true ↔ ∃ name, g.LeftRecursive name) := by
  obtain ⟨first, hfirst, closed⟩ := FirstSets.exists_ofGrammar_closed wellFormed
  have grounded : FirstSets.Grounded g first := FirstSets.grounded_of_compute hfirst
  refine ⟨_, by rw [hasLeftRecursion, hfirst], ?_⟩
  rw [List.any_eq_true]
  constructor
  · rintro ⟨name, -, hname⟩
    refine ⟨name, leftRecursive_iff.mpr ?_⟩
    exact (wellFormed.mem_leaders_iff closed grounded).mp (of_decide_eq_true hname)
  · rintro ⟨name, h⟩
    have hmem := (wellFormed.mem_leaders_iff closed grounded).mpr (leftRecursive_iff.mp h)
    exact ⟨name, wellFormed.mem_variableNames_of_mem_leaders hmem, decide_eq_true hmem⟩

/-- **Left recursion is detected exactly**, whichever way the grammar was obtained: the answer is
yes if and only if some variable derives, in one or more steps, a form whose first goal it is. -/
theorem hasLeftRecursion_exact (obtained : g.Obtained) :
    ∃ found, g.hasLeftRecursion = .ok found ∧ (found = true ↔ ∃ name after,
      Relation.TransGen g.Expands [.variable name] (.variable name :: after)) := by
  obtain ⟨found, hfound, hexact⟩ := obtained.wellFormed.exists_hasLeftRecursion
  exact ⟨found, hfound, hexact.trans (exists_congr fun name => leftRecursive_iff_exists)⟩

/-- Lists of `a` and `b` around one `c`, with a variable in front of the recursion that vanishes. -/
def behindNullable : Grammar :=
  ⟨"S", [⟨"S", [[.variable "A", .variable "S", .terminal (.named "b")], [.terminal (.named "c")]]⟩,
    ⟨"A", [[.terminal (.named "a")], [.epsilon]]⟩]⟩

theorem behindNullable_obtained : behindNullable.Obtained :=
  @Obtained.read .default "S -> A S b | c\nA -> a | ε".toList _ (by decide)

/-- No body begins with its head, and yet a form does that one of them derives. -/
theorem hasLeftRecursion_exact_behindNullable :
    behindNullable.Obtained ∧ behindNullable.hasLeftRecursion = .ok true ∧
      ∃ name after,
        Relation.TransGen behindNullable.Expands [.variable name] (.variable name :: after) := by
  obtain ⟨found, hfound, hexact⟩ := hasLeftRecursion_exact behindNullable_obtained
  have htrue : behindNullable.hasLeftRecursion = .ok true := by decide
  obtain rfl := Except.ok.inj (hfound.symm.trans htrue)
  exact ⟨behindNullable_obtained, htrue, hexact.mp rfl⟩

end FormalLang.Grammar
