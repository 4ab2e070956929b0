import FormalLang.Proofs.Grammar.Detection
import FormalLang.Proofs.Grammar.FollowMeaning
import FormalLang.Proofs.Grammar.Productive
import FormalLang.Proofs.Predictive.Termination

/-!
# A table leaves no left recursion

Where every variable derives a word and occurs in a form that the start derives, a grammar with a
table has no left recursion (`Parser.hasLeftRecursion_eq_false`).  Nothing else looks at what the
removal of left recursion left behind.

* **A body that comes back to its variable is the only one** (`Faithful.eq_of_derives_self`).  Let
  it derive the variable with something behind.  Whatever another body begins with, the first one
  begins with too, through its variable.  If the other one vanishes, the first one begins with what
  comes behind the variable, and that also follows the variable.  If that vanishes as well, both
  bodies vanish, and some terminal follows the variable because the start derives a form with it
  (`Closed.exists_mem_getD`).
* **So a left recursive variable derives no word.**  Its only body mentions the next variable of the
  cycle.  Words are the least solution of the rules (`Yields.spells`), and no rule gives the first
  word to a variable of a cycle.
-/

namespace FormalLang

variable {g : Grammar} {first : FirstSets} {follow : FollowSets} {t : ParseTable} {name : String}

/-! ## 1. What follows a variable -/

/-- **Some terminal follows a variable** in a form that the start derives, where what comes behind
it yields a word. -/
theorem FollowSets.Closed.exists_mem_getD (closedFirst : FirstSets.Closed g first)
    (closed : FollowSets.Closed g first follow) {before after : List Goal}
    (h : g.Derives [.variable g.start] (before ++ .variable name :: after))
    {word : List Terminal} (hafter : g.Yields after word) : ∃ a, a ∈ follow.getD name := by
  have hbegins := closedFirst.begins_of_yields hafter
  rcases word with _ | ⟨a, word⟩
  · exact ⟨_, closed.mem_of_derives closedFirst h rfl (.inr ⟨hbegins, closed.start⟩)⟩
  · exact ⟨a, closed.mem_of_derives closedFirst h rfl (.inl hbegins)⟩

/-! ## 2. The only body -/

namespace ParseTable

variable (faithful : Faithful g first follow t)

include faithful

/-- Bodies of a variable are the same if one terminal predicts them. -/
theorem Faithful.eq_of_predicts {body body' : Body} {a : Terminal}
    (rule : body ∈ g.bodiesOf name) (rule' : body' ∈ g.bodiesOf name)
    (predicts : Predicts first follow name body a)
    (predicts' : Predicts first follow name body' a) : body = body' := by
  obtain ⟨cell, hcell, rfl⟩ := faithful.cells name body rule a predicts
  obtain ⟨cell', hcell', rfl⟩ := faithful.cells name body' rule' a predicts'
  rw [Option.some.inj (hcell.symm.trans hcell')]

/-- **A body that comes back to its variable is the only one**, if the bodies and what comes behind
the variable yield words and something follows the variable. -/
theorem Faithful.eq_of_derives_self {body body' : Body} {behind : List Goal}
    (rule : body ∈ g.bodiesOf name) (rule' : body' ∈ g.bodiesOf name)
    (hself : g.Derives body.goals (.variable name :: behind)) {w u : List Terminal}
    (hw : g.Yields body'.goals w) (hu : g.Yields behind u) {a : Terminal}
    (ha : a ∈ follow.getD name) : body = body' := by
  have closedFirst := faithful.closedFirst
  have hother := closedFirst.begins_of_yields hw
  have hname := closedFirst.closed name body' rule' _ hother
  rcases w with _ | ⟨b, w⟩
  · -- the other body vanishes: look at what comes behind the variable
    have hbehind := closedFirst.begins_of_yields hu
    have hbody := closedFirst.begins_of_derives hself (.vanish hname hbehind)
    rcases u with _ | ⟨b, u⟩
    · exact faithful.eq_of_predicts rule rule' (.inr ⟨hbody, ha⟩) (.inr ⟨hother, ha⟩)
    · have hform : g.Derives [.variable name] (.variable name :: behind) := by
        have hhead := Grammar.Derives.of_rule rule hself []
        rwa [List.append_nil] at hhead
      have hb : b ∈ follow.getD name :=
        faithful.closed.mem_of_derives closedFirst hform (List.nil_append _).symm (.inl hbehind)
      exact faithful.eq_of_predicts rule rule' (.inl hbody) (.inr ⟨hother, hb⟩)
  · have hbody := closedFirst.begins_of_derives hself (.found hname nofun)
    exact faithful.eq_of_predicts rule rule' (.inl hbody) (.inl hother)

section Useful

variable (wellFormed : g.WellFormed) (productive : g.Productive) (accessible : g.Accessible)

include wellFormed productive accessible

/-- Where variables are of use, something follows each. -/
theorem Faithful.exists_mem_getD (hname : name ∈ g.variableNames) : ∃ a, a ∈ follow.getD name := by
  obtain ⟨before, after, hform⟩ := accessible name hname
  have hstart : g.Declared [.variable g.start] :=
    Grammar.declared_variable_cons_iff.mpr ⟨wellFormed.start_mem, nofun⟩
  have hall := wellFormed.declared_of_derives hform hstart
  obtain ⟨-, hafter⟩ := Grammar.declared_append_iff.mp hall
  obtain ⟨word, hword⟩ :=
    productive.exists_yields (Grammar.declared_variable_cons_iff.mp hafter).2
  exact faithful.closed.exists_mem_getD faithful.closedFirst hform hword

/-- Where variables are of use, a left recursive variable has no body without another left recursive
variable. -/
theorem Faithful.exists_leftRecursive_mem {body : Body} (rule : body ∈ g.bodiesOf name)
    (h : g.LeftRecursive name) : ∃ v, Goal.variable v ∈ body.goals ∧ g.LeftRecursive v := by
  obtain ⟨returning, rule', ⟨behind, hself⟩, hmem⟩ := h.exists_body
  have hname := Grammar.mem_variableNames_of_mem_bodiesOf rule
  have hform := wellFormed.declared_of_derives hself (wellFormed.declared_goals rule')
  obtain ⟨w, hw⟩ := productive.exists_yields (wellFormed.declared_goals rule)
  obtain ⟨u, hu⟩ := productive.exists_yields (Grammar.declared_variable_cons_iff.mp hform).2
  obtain ⟨a, ha⟩ := faithful.exists_mem_getD wellFormed productive accessible hname
  rwa [← faithful.eq_of_derives_self rule' rule hself hw hu ha]

/-- **No variable is left recursive** where variables are of use: a left recursive one derives no
word. -/
theorem Faithful.not_leftRecursive (name : String) : ¬ g.LeftRecursive name := by
  -- words for the variables that are not left recursive are enough for every rule
  have hrespects : g.Respects fun v _ => ¬ g.LeftRecursive v := by
    intro v body rule word hspells hleft
    obtain ⟨u, hmem, hu⟩ :=
      faithful.exists_leftRecursive_mem wellFormed productive accessible rule hleft
    obtain ⟨_, hnot⟩ := hspells.exists_of_mem hmem
    exact hnot hu
  intro hleft
  obtain ⟨body, rule, -⟩ := hleft.exists_body
  obtain ⟨word, hword⟩ := productive.exists_yields (wellFormed.declared_goals rule)
  have hspells := (Grammar.Yields.of_rule rule hword).spells hrespects
  obtain ⟨_, hnot⟩ := hspells.exists_of_mem List.mem_cons_self
  exact hnot hleft

end Useful

end ParseTable

/-! ## 3. Parsers -/

namespace Parser

/-- **A table leaves no left recursion**, whichever way the grammar was obtained, if every variable
derives a word and occurs in a form that the start derives.  A variable that is of no use can be
left recursive in a grammar with a table, if nothing predicts its bodies. -/
theorem hasLeftRecursion_eq_false {p : Parser} (obtained : g.Obtained)
    (productive : g.Productive) (accessible : g.Accessible) (h : ofGrammar g = .ok p) :
    g.hasLeftRecursion = .ok false := by
  have wellFormed := obtained.wellFormed
  obtain ⟨first, follow, faithful⟩ := exists_faithful wellFormed h
  obtain ⟨found, hfound, hexact⟩ := wellFormed.exists_hasLeftRecursion
  cases found with
  | false => exact hfound
  | true =>
    obtain ⟨name, hname⟩ := hexact.mp rfl
    exact absurd hname (faithful.not_leftRecursive wellFormed productive accessible name)

/-- Blocks in which a list that may be empty comes first. -/
def nestedBlocks : Grammar :=
  ⟨"S", [⟨"S", [[.variable "A", .variable "B", .terminal (.named "c")]]⟩,
    ⟨"A", [[.terminal (.named "a"), .variable "A"], [.epsilon]]⟩,
    ⟨"B", [[.terminal (.named "b"), .variable "S", .terminal (.named "d")], [.epsilon]]⟩]⟩

theorem nestedBlocks_obtained : nestedBlocks.Obtained :=
  @Grammar.Obtained.read .default "S -> A B c\nA -> a A | ε\nB -> b S d | ε".toList _ (by decide)

/-- The parser of `nestedBlocks`. -/
def nestedBlocksParser : Parser :=
  ⟨"S", ⟨OrderedMap.ofList
    [(("S", .named "a"), ⟨0, [.variable "A", .variable "B", .terminal (.named "c")]⟩),
      (("S", .named "b"), ⟨0, [.variable "A", .variable "B", .terminal (.named "c")]⟩),
      (("S", .named "c"), ⟨0, [.variable "A", .variable "B", .terminal (.named "c")]⟩),
      (("A", .named "a"), ⟨0, [.terminal (.named "a"), .variable "A"]⟩),
      (("A", .named "b"), ⟨1, [.epsilon]⟩), (("A", .named "c"), ⟨1, [.epsilon]⟩),
      (("B", .named "b"), ⟨0, [.terminal (.named "b"), .variable "S", .terminal (.named "d")]⟩),
      (("B", .named "c"), ⟨1, [.epsilon]⟩)]⟩⟩

theorem nestedBlocks_productive : nestedBlocks.Productive := by
  have ruleS : [.variable "A", .variable "B", .terminal (.named "c")] ∈
    nestedBlocks.bodiesOf "S" := by decide
  have ruleA : [.epsilon] ∈ nestedBlocks.bodiesOf "A" := by decide
  have ruleB : [.epsilon] ∈ nestedBlocks.bodiesOf "B" := by decide
  have hA : nestedBlocks.Yields [.variable "A"] [] := .of_rule ruleA .nil
  have hB : nestedBlocks.Yields [.variable "B"] [] := .of_rule ruleB .nil
  have hS : nestedBlocks.Yields [.variable "S"] [.named "c"] :=
    .of_rule ruleS (hA.append (hB.append (.take .nil)))
  have hnames : nestedBlocks.variableNames = ["S", "A", "B"] := rfl
  intro name hname
  rw [hnames] at hname
  simp only [Grammar.generates_iff_yields]
  rcases List.mem_cons.mp hname with rfl | hname
  · exact ⟨_, hS⟩
  · rcases List.mem_pair.mp hname with rfl | rfl
    · exact ⟨_, hA⟩
    · exact ⟨_, hB⟩

theorem nestedBlocks_accessible : nestedBlocks.Accessible := by
  have ruleS : [.variable "A", .variable "B", .terminal (.named "c")] ∈
    nestedBlocks.bodiesOf "S" := by decide
  have hbody : nestedBlocks.Derives [.variable "S"]
      [.variable "A", .variable "B", .terminal (.named "c")] :=
    (Grammar.Expands.replace [] [] ruleS).derives
  have hnames : nestedBlocks.variableNames = ["S", "A", "B"] := rfl
  intro name hname
  rw [hnames] at hname
  rcases List.mem_cons.mp hname with rfl | hname
  · exact ⟨[], [], .refl _⟩
  · rcases List.mem_pair.mp hname with rfl | rfl
    · exact ⟨[], _, hbody⟩
    · exact ⟨[.variable "A"], _, hbody⟩

theorem hasLeftRecursion_eq_false_nestedBlocks :
    nestedBlocks.Obtained ∧ nestedBlocks.Productive ∧ nestedBlocks.Accessible ∧
      ofGrammar nestedBlocks = .ok nestedBlocksParser ∧
      nestedBlocks.hasLeftRecursion = .ok false := by
  have hparser : ofGrammar nestedBlocks = .ok nestedBlocksParser := by decide
  exact ⟨nestedBlocks_obtained, nestedBlocks_productive, nestedBlocks_accessible, hparser,
    hasLeftRecursion_eq_false nestedBlocks_obtained nestedBlocks_productive
      nestedBlocks_accessible hparser⟩

end Parser

end FormalLang
