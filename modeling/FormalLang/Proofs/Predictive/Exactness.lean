import FormalLang.Proofs.Grammar.Obtained
import FormalLang.Proofs.Predictive.Runs
import FormalLang.Proofs.Predictive.Table

/-!
# The predictive parser is exact

A parser accepts the words that the start variable of its grammar generates, and no others
(`Parser.parse_accepted_iff`).

* **No others.**  Read an accepting run backwards: a matched terminal takes one off the word, and a
  replacement is by a body of the variable, as every cell holds one (`yields_of_accepted`).
* **All of them.**  Follow the leftmost replacements that yield the word.  The body that is used
  next is predicted by the next terminal: it begins with it, or it vanishes, and then the terminal
  begins what is below the variable.  So it is in the cell, and since a cell holds one body, the
  parser replaces the variable by that one (`reaches_of_yields`).

**The invariant** of the second part says that the FOLLOW sets know what is below each variable on
the stack (`Guarded`).  It holds at first because the end of the input follows the start.
-/

namespace FormalLang

/-! ## 1. Accepting runs yield their input -/

namespace ParseTable

variable {g : Grammar} {t : ParseTable}
  (cells : ∀ name a cell, t.get? name a = some cell → cell.body ∈ g.bodiesOf name)

include cells

theorem Runs.yields {c last : Configuration} {steps : List TraceStep} (run : t.Runs c steps last)
    (h : g.Yields last.stack last.input) : g.Yields c.stack c.input := by
  induction run with
  | nil c => exact h
  | matched _ ih => exact .take (ih h)
  | expanded hcell _ ih => exact .expand (cells _ _ _ hcell) (ih h)

/-- **What a run accepts, the stack yields.** -/
theorem yields_of_accepted (n : Nat) {c : Configuration}
    (h : (t.runFrom n c).verdict = .accepted) : g.Yields c.stack c.input := by
  obtain ⟨steps, last, ending, -, run, stops⟩ := exists_runs n (by rw [h]; nofun)
  rw [h] at stops
  obtain ⟨rfl, -⟩ := stops.eq_of_accepted
  exact run.yields cells .nil

end ParseTable

/-! ## 2. The stacks on the way -/

/-- Whether the FOLLOW sets know what can be below each variable of a stack. -/
inductive Guarded (g : Grammar) (follow : FollowSets) : List Goal → Prop where
  | nil : Guarded g follow []
  | skip {t : Terminal} {rest : List Goal} (h : Guarded g follow rest) :
      Guarded g follow (.terminal t :: rest)
  | know {name : String} {rest : List Goal}
      (known : ∀ t word, g.Yields rest (t :: word) → t ∈ follow.getD name)
      (h : Guarded g follow rest) : Guarded g follow (.variable name :: rest)

variable {g : Grammar} {first : FirstSets} {follow : FollowSets}

/-- The first stack is guarded, for the end of the input follows the start. -/
theorem guarded_initial (closed : FollowSets.Closed g first follow) :
    Guarded g follow [.variable g.start, .terminal .endOfInput] := by
  refine .know ?_ (.skip .nil)
  intro t word htail
  obtain ⟨_, heq, -⟩ := Grammar.yields_terminal_cons_iff.mp htail
  obtain ⟨rfl, -⟩ := List.cons.inj heq
  exact closed.start

/-- Replacing a variable keeps its stack guarded, one occurrence in the body after the other. -/
theorem Guarded.bodies (closedFirst : FirstSets.Closed g first)
    (closed : FollowSets.Closed g first follow) {head : String} {body : Body}
    (rule : body ∈ g.bodiesOf head) {rest : List Goal}
    (known : ∀ t word, g.Yields rest (t :: word) → t ∈ follow.getD head)
    (h : Guarded g follow rest) : ∀ {part : List Symbol},
      (∀ name after, Behind name part after → Behind name body after) →
        Guarded g follow (Body.goals part ++ rest)
  | [], _ => h
  | .epsilon :: part, hpart => by
    change Guarded g follow (Body.goals part ++ rest)
    exact Guarded.bodies closedFirst closed rule known h
      fun name after hafter => hpart name after (.there _ hafter)
  | .terminal t :: part, hpart =>
    .skip (Guarded.bodies closedFirst closed rule known h
      fun name after hafter => hpart name after (.there _ hafter))
  | .variable name :: part, hpart => by
    refine .know ?_ (Guarded.bodies closedFirst closed rule known h
      fun name after hafter => hpart name after (.there _ hafter))
    intro t word hyields
    have hbehind : Behind name body part := hpart name part (.here part)
    obtain ⟨u, v, huv, hu, hv⟩ := Grammar.yields_append_iff.mp hyields
    rcases u with _ | ⟨s, u⟩
    · -- what is behind the variable in the body vanishes
      rw [List.nil_append] at huv
      subst huv
      exact closed.heirs head body rule name part hbehind (closedFirst.begins_of_yields hu) t
        (known t word hv)
    · obtain ⟨rfl, -⟩ := List.cons.inj huv
      exact closed.behind head body rule name part hbehind t (closedFirst.begins_of_yields hu)

/-- A body that yields the beginning of what is ahead is predicted. -/
theorem predicts_of_yields (closedFirst : FirstSets.Closed g first) {name : String} {body : Body}
    {rest : List Goal} {a : Terminal} {word : List Terminal}
    (known : ∀ t word, g.Yields rest (t :: word) → t ∈ follow.getD name)
    (h : g.Yields (body.goals ++ rest) (a :: word)) : Predicts first follow name body a := by
  obtain ⟨u, v, huv, hu, hv⟩ := Grammar.yields_append_iff.mp h
  have hbegins := closedFirst.begins_of_yields hu
  rcases u with _ | ⟨s, u⟩
  · rw [List.nil_append] at huv
    subst huv
    exact .inr ⟨hbegins, known a word hv⟩
  · obtain ⟨rfl, -⟩ := List.cons.inj huv
    exact .inl hbegins

/-! ## 3. The parser follows the replacements -/

/-- **The parser works off what yields a part of the input**, if there is more input to come. -/
theorem ParseTable.reaches_of_yields {t : ParseTable} (closedFirst : FirstSets.Closed g first)
    (closed : FollowSets.Closed g first follow)
    (cells : ∀ name, ∀ body ∈ g.bodiesOf name, ∀ a, Predicts first follow name body a →
      ∃ cell, t.get? name a = some cell ∧ cell.body = body)
    {form : List Goal} {word : List Terminal} (h : g.Yields form word) {rest : List Goal}
    {a : Terminal} {later : List Terminal} (hrest : g.Yields rest (a :: later)) :
    Guarded g follow (form ++ rest) →
      ∃ n, t.Reaches n ⟨form ++ rest, word ++ a :: later⟩ ⟨rest, a :: later⟩ := by
  induction h with
  | nil => exact fun _ => ⟨0, .refl _⟩
  | @take s form word _ ih =>
    rintro (_ | hguarded)
    obtain ⟨n, hn⟩ := ih hguarded
    refine ⟨n + 1, .step ?_ hn⟩
    simp only [next?, List.cons_append, choose, if_pos]
    rfl
  | @expand name body form word rule hform ih =>
    rintro (_ | _ | ⟨known, hguarded⟩)
    obtain ⟨b, ahead, hahead⟩ : ∃ b ahead, word ++ a :: later = b :: ahead := by
      cases word with
      | nil => exact ⟨a, later, rfl⟩
      | cons s word => exact ⟨s, word ++ a :: later, rfl⟩
    have hall : g.Yields (body.goals ++ (form ++ rest)) (b :: ahead) := by
      rw [← hahead, ← List.append_assoc]
      exact hform.append hrest
    obtain ⟨cell, hcell, hbody⟩ :=
      cells name body rule b (predicts_of_yields closedFirst known hall)
    have hbodies : Guarded g follow (body.goals ++ (form ++ rest)) :=
      Guarded.bodies closedFirst closed rule known hguarded fun _ _ hafter => hafter
    rw [← List.append_assoc] at hbodies
    obtain ⟨n, hn⟩ := ih hbodies
    refine ⟨n + 1, .step ?_ hn⟩
    rw [hahead]
    simp only [next?, List.cons_append, choose, hcell, perform, hbody, List.append_assoc]

/-! ## 4. Exactness -/

/-- What the first stack yields are the words of the grammar with the end of the input behind. -/
theorem Grammar.yields_initial_iff {word : List Terminal} :
    g.Yields [.variable g.start, .terminal .endOfInput] word ↔
      ∃ u, word = u ++ [.endOfInput] ∧ g.Generates g.start u := by
  constructor
  · intro h
    obtain ⟨u, v, rfl, hu, hv⟩ :=
      @yields_append_iff g [.variable g.start] [.terminal .endOfInput] _ |>.mp h
    obtain ⟨_, rfl, hnil⟩ := yields_terminal_cons_iff.mp hv
    obtain rfl := yields_nil_iff.mp hnil
    exact ⟨u, rfl, generates_iff_yields.mpr hu⟩
  · rintro ⟨u, rfl, hu⟩
    exact (generates_iff_yields.mp hu).append (.take .nil)

namespace Parser

/-- What a parser is made of. -/
theorem ofGrammar_eq_ok {p : Parser} (h : ofGrammar g = .ok p) : p.start = g.start ∧
    ∃ first follow, FirstSets.ofGrammar g = .ok first ∧
      FollowSets.ofGrammar g first = .ok follow ∧
        ParseTable.build g first follow = .ok p.table := by
  unfold ofGrammar at h
  split at h
  · contradiction
  · rename_i first hfirst
    split at h
    · contradiction
    · rename_i follow hfollow
      split at h
      · contradiction
      · rename_i table htable
        obtain rfl := Except.ok.inj h
        exact ⟨rfl, first, follow, hfirst, hfollow, htable⟩

/-- A parser belongs to closed sets of its grammar. -/
theorem exists_closed_of_ofGrammar {p : Parser} (wellFormed : g.WellFormed)
    (h : ofGrammar g = .ok p) : p.start = g.start ∧ ∃ first follow,
      FirstSets.Closed g first ∧ FollowSets.Closed g first follow ∧
        ParseTable.build g first follow = .ok p.table := by
  obtain ⟨hstart, first, follow, hfirst, hfollow, hbuild⟩ := ofGrammar_eq_ok h
  have closedFirst := FirstSets.closed_of_ofGrammar wellFormed hfirst
  exact ⟨hstart, first, follow, closedFirst,
    FollowSets.closed_of_ofGrammar wellFormed closedFirst hfollow, hbuild⟩

/-- **A parser of a grammar in order accepts exactly its words.** -/
theorem accepted_iff_generates {p : Parser} (wellFormed : g.WellFormed)
    (h : ofGrammar g = .ok p) (input : List Char) :
    (p.parse input).verdict = .accepted ↔ g.Generates g.start (tokens input) := by
  obtain ⟨hstart, first, follow, closedFirst, closed, hbuild⟩ :=
    exists_closed_of_ofGrammar wellFormed h
  unfold parse initial
  rw [hstart]
  dsimp only
  constructor
  · intro haccepted
    have hyields := ParseTable.yields_of_accepted (g := g)
      (fun name a cell hcell => ParseTable.mem_bodiesOf_of_build wellFormed.nodup hbuild hcell) _
      haccepted
    obtain ⟨u, hu, hgenerates⟩ := Grammar.yields_initial_iff.mp hyields
    rw [List.append_cancel_right hu]
    exact hgenerates
  · intro hgenerates
    have hend : g.Yields [.terminal .endOfInput] [.endOfInput] := .take .nil
    have hyields := Grammar.generates_iff_yields.mp hgenerates
    obtain ⟨n, hn⟩ := ParseTable.reaches_of_yields closedFirst closed
      (fun name body rule a predicts =>
        ParseTable.exists_cell_of_predicts wellFormed.nodup hbuild rule predicts)
      hyields hend (guarded_initial closed)
    have haccepted : (p.table.runFrom (n + 2)
        ⟨[.variable g.start, .terminal .endOfInput], tokens input ++ [.endOfInput]⟩).verdict =
          .accepted := by
      rw [← List.singleton_append, hn.verdict 2]
      rfl
    rw [ParseTable.verdict_rounds (n := n + 2) (by rw [haccepted]; nofun), haccepted]

/-- **A parser accepts exactly the words of its grammar**, whichever way the grammar was obtained.
The end that the parser puts behind the input is no part of the word. -/
theorem parse_accepted_iff {p : Parser} (obtained : g.Obtained) (h : ofGrammar g = .ok p)
    (input : List Char) :
    (p.parse input).verdict = .accepted ↔ g.Generates g.start (tokens input) :=
  accepted_iff_generates obtained.wellFormed h input

/-- A list that may be empty, the end of the input as a terminal of the body, and one more. -/
def listThenEnd : Grammar :=
  ⟨"S", [⟨"S", [[.variable "A", .terminal .endOfInput, .terminal (.named "b")]]⟩,
    ⟨"A", [[.terminal (.named "a"), .variable "A"], [.epsilon]]⟩]⟩

theorem listThenEnd_obtained : listThenEnd.Obtained :=
  @Grammar.Obtained.read .default "S -> A $ b\nA -> a A | ε".toList _ (by decide)

/-- The parser of `listThenEnd`. -/
def listThenEndParser : Parser :=
  ⟨"S", ⟨OrderedMap.ofList
    [(("S", .named "a"), ⟨0, [.variable "A", .terminal .endOfInput, .terminal (.named "b")]⟩),
      (("S", .endOfInput), ⟨0, [.variable "A", .terminal .endOfInput, .terminal (.named "b")]⟩),
      (("A", .named "a"), ⟨0, [.terminal (.named "a"), .variable "A"]⟩),
      (("A", .endOfInput), ⟨1, [.epsilon]⟩)]⟩⟩

/-- `A` vanishes before the `$` that the input writes. -/
theorem parse_accepted_iff_listThenEnd :
    listThenEnd.Obtained ∧ ofGrammar listThenEnd = .ok listThenEndParser ∧
      (listThenEndParser.parse "a a $ b".toList).verdict = .accepted ∧
      listThenEnd.Generates "S" [.named "a", .named "a", .endOfInput, .named "b"] := by
  have hparser : ofGrammar listThenEnd = .ok listThenEndParser := by decide
  have haccepted : (listThenEndParser.parse "a a $ b".toList).verdict = .accepted := by decide
  exact ⟨listThenEnd_obtained, hparser, haccepted,
    (parse_accepted_iff listThenEnd_obtained hparser _).mp haccepted⟩

end Parser

end FormalLang
