import FormalLang.Proofs.Grammar.Productive
import FormalLang.Proofs.Predictive.Trace

/-!
# Errors are found at the earliest token

Let a parser fail at a token, because it expected another terminal or has no cell for the token.
Then what it matched up to there is the beginning of a word of the grammar with the end of the input
behind, and with that token it is none (`Parser.parse_fails_earliest`).

* **No wrong token is matched.**  A run derives what it matched with the stack behind, and where
  every variable derives a word, the stack can be worked off to one (`Faithful.exists_prefix`).
* **No right token is refused.**  Suppose that a word goes on with the token.  Up to the token the
  parser makes the choices by which the word is derived, even where variables vanish, since it has
  seen no more than that (`Faithful.yieldsBy_of_runs`).  So the stack before the failure derives the
  rest of the word, which is why the token is on top of it or has a cell (`Faithful.not_yields`).
-/

namespace FormalLang

/-- The token at which a parser finds that it cannot go on. -/
def ParseError.found? : ParseError → Option Terminal
  | .mismatch _ found => some found
  | .noProduction _ terminal => some terminal
  | .leftoverInput _ => none
  | .unexpectedEnd _ => none

namespace ParseTable

variable {g : Grammar} {first : FirstSets} {follow : FollowSets} {t : ParseTable}
  {last : Configuration} {steps ending : List TraceStep} {e : ParseError} {a : Terminal}
  {terminals : List Terminal}

/-- A failure at a token is recorded, and the token is ahead. -/
theorem Stops.of_found (h : t.Stops last ending (.rejected e)) (hfound : e.found? = some a) :
    ending = [⟨last, .failed e⟩] ∧ ∃ later, last.input = a :: later := by
  rcases h with _ | _ | _ | _ | _
  · contradiction
  · contradiction
  · obtain rfl := Option.some.inj hfound
    exact ⟨rfl, _, rfl⟩
  · obtain rfl := Option.some.inj hfound
    exact ⟨rfl, _, rfl⟩

section Faithful

variable (faithful : Faithful g first follow t)

include faithful

/-- **No wrong token is matched**: what was matched is the beginning of a word with the end of the
input behind, if every variable derives a word. -/
theorem Faithful.exists_prefix (wellFormed : g.WellFormed) (productive : g.Productive)
    (run : t.Runs ⟨[.variable g.start, .terminal .endOfInput], terminals⟩ steps last) :
    ∃ u, g.Generates g.start u ∧ matchedIn steps <+: u ++ [.endOfInput] := by
  have hderives := (faithful.derivesLeftmost run).derives
  have hstart : g.Declared [.variable g.start, .terminal .endOfInput] :=
    Grammar.declared_variable_cons_iff.mpr ⟨wellFormed.start_mem, by simp [Grammar.Declared]⟩
  have hstack := wellFormed.declared_of_derives hderives hstart
  obtain ⟨v, hv⟩ := productive.exists_yields (Grammar.declared_append_iff.mp hstack).2
  have hword : g.Derives [.variable g.start, .terminal .endOfInput]
      ((matchedIn steps ++ v).map .terminal) := by
    rw [List.map_append]
    exact hderives.trans (.append (.refl _) hv.derives)
  obtain ⟨u, hu, hgenerates⟩ := Grammar.yields_initial_iff.mp (hword.yields rfl)
  exact ⟨u, hgenerates, v, hu⟩

/-- **No right token is refused**: where a table fails at a token, the stack yields no word that
begins with it. -/
theorem Faithful.not_yields (h : t.Stops last ending (.rejected e)) (hfound : e.found? = some a)
    (guarded : Guarded g follow last.stack) {word : List Terminal} :
    ¬ g.Yields last.stack (a :: word) := by
  rcases h with _ | _ | _ | hne | hcell
  · contradiction
  · contradiction
  · obtain rfl := Option.some.inj hfound
    intro hyields
    obtain ⟨_, heq, -⟩ := Grammar.yields_terminal_cons_iff.mp hyields
    exact hne (List.cons.inj heq).1.symm
  · obtain rfl := Option.some.inj hfound
    rcases guarded with _ | _ | ⟨known, -⟩
    intro hyields
    obtain ⟨body, rule, hbody⟩ := Grammar.yields_variable_cons_iff.mp hyields
    obtain ⟨cell, hsome, -⟩ := faithful.cells _ body rule _
      (predicts_of_yields faithful.closedFirst known hbody)
    rw [hcell] at hsome
    contradiction

/-- What was matched and the token at which a table fails are no beginning of a word. -/
theorem Faithful.not_prefix
    (run : t.Runs ⟨[.variable g.start, .terminal .endOfInput], terminals⟩ steps last)
    (stops : t.Stops last ending (.rejected e)) (hfound : e.found? = some a) {u : List Terminal}
    (hu : g.Generates g.start u) : ¬ matchedIn steps ++ [a] <+: u ++ [.endOfInput] := by
  rintro ⟨other, heq⟩
  obtain ⟨-, later, hlater⟩ := stops.of_found hfound
  have hyields := Grammar.yields_initial_iff.mpr ⟨u, rfl, hu⟩
  rw [← heq, List.append_assoc, List.singleton_append] at hyields
  obtain ⟨choices, hchoices⟩ := Grammar.exists_yieldsBy_iff.mpr hyields
  have hhead : (a :: other).head? = last.input.head? := by rw [hlater]; rfl
  obtain ⟨guarded, _, -, hrest⟩ :=
    faithful.yieldsBy_of_runs run (guarded_initial faithful.closed) hhead hchoices
  exact faithful.not_yields stops hfound guarded hrest.yields

end Faithful

end ParseTable

namespace Parser

variable {g : Grammar} {p : Parser}

/-- **Errors are found at the earliest token**, whichever way the grammar was obtained, if every
variable derives a word.  Where a parser fails at a token, the token comes right behind what was
matched; that is the beginning of a word with the end of the input behind, and with the token it is
not. -/
theorem parse_fails_earliest (obtained : g.Obtained) (productive : g.Productive)
    (h : ofGrammar g = .ok p) (input : List Char) {e : ParseError} {a : Terminal}
    (hverdict : (p.parse input).verdict = .rejected e) (hfound : e.found? = some a) :
    (∃ later, tokens input ++ [.endOfInput] = matchedIn (p.parse input).trace ++ a :: later) ∧
    (∃ u, g.Generates g.start u ∧
      matchedIn (p.parse input).trace <+: u ++ [.endOfInput]) ∧
    ∀ u, g.Generates g.start u →
      ¬ matchedIn (p.parse input).trace ++ [a] <+: u ++ [.endOfInput] := by
  have wellFormed := obtained.wellFormed
  obtain ⟨first, follow, faithful⟩ := exists_faithful wellFormed h
  obtain ⟨steps, last, ending, htrace, run, stops⟩ := exists_runs_of_parse wellFormed h input
  rw [hverdict] at stops
  obtain ⟨rfl, later, hlater⟩ := stops.of_found hfound
  have hmatched : matchedIn (p.parse input).trace = matchedIn steps := by
    rw [htrace, matchedIn, List.filterMap_append]
    exact List.append_nil _
  rw [hmatched]
  refine ⟨⟨later, ?_⟩, faithful.exists_prefix wellFormed productive run,
    fun u hu => faithful.not_prefix run stops hfound hu⟩
  rw [← hlater]
  exact run.input_eq

/-- `A` may vanish before `c` in one body of `S` and before `d` in the other. -/
def twoContexts : Grammar :=
  ⟨"S", [⟨"S", [[.variable "A", .terminal (.named "c")],
      [.terminal (.named "b"), .variable "A", .terminal (.named "d")]]⟩,
    ⟨"A", [[.terminal (.named "a")], [.epsilon]]⟩]⟩

theorem twoContexts_obtained : twoContexts.Obtained :=
  @Grammar.Obtained.read .default "S -> A c | b A d\nA -> a | ε".toList _ (by decide)

/-- The parser of `twoContexts`. -/
def twoContextsParser : Parser :=
  ⟨"S", ⟨OrderedMap.ofList
    [(("S", .named "a"), ⟨0, [.variable "A", .terminal (.named "c")]⟩),
      (("S", .named "c"), ⟨0, [.variable "A", .terminal (.named "c")]⟩),
      (("S", .named "b"), ⟨1, [.terminal (.named "b"), .variable "A", .terminal (.named "d")]⟩),
      (("A", .named "a"), ⟨0, [.terminal (.named "a")]⟩),
      (("A", .named "c"), ⟨1, [.epsilon]⟩), (("A", .named "d"), ⟨1, [.epsilon]⟩)]⟩⟩

theorem twoContexts_productive : twoContexts.Productive := by
  have ruleS : [.variable "A", .terminal (.named "c")] ∈ twoContexts.bodiesOf "S" := by decide
  have ruleA : [.epsilon] ∈ twoContexts.bodiesOf "A" := by decide
  have hA : twoContexts.Yields [.variable "A"] [] := .of_rule ruleA .nil
  have hS : twoContexts.Yields [.variable "S"] [.named "c"] :=
    .of_rule ruleS (hA.append (.take .nil))
  have hnames : twoContexts.variableNames = ["S", "A"] := rfl
  intro name hname
  rw [hnames] at hname
  simp only [Grammar.generates_iff_yields]
  rcases List.mem_pair.mp hname with rfl | rfl
  · exact ⟨_, hS⟩
  · exact ⟨_, hA⟩

/-- Behind `b` the parser makes `A` vanish before `c`, which is only right in the other body, and
yet it matches nothing wrong. -/
theorem parse_fails_earliest_twoContexts :
    twoContexts.Obtained ∧ twoContexts.Productive ∧
      ofGrammar twoContexts = .ok twoContextsParser ∧
      (twoContextsParser.parse "b c".toList).verdict =
        .rejected (.mismatch (.named "d") (.named "c")) ∧
      (ParseError.mismatch (.named "d") (.named "c")).found? = some (.named "c") ∧
      (∃ u, twoContexts.Generates "S" u ∧ [.named "b"] <+: u ++ [.endOfInput]) ∧
      ∀ u, twoContexts.Generates "S" u →
        ¬ [.named "b", .named "c"] <+: u ++ [.endOfInput] := by
  have hparser : ofGrammar twoContexts = .ok twoContextsParser := by decide
  have hverdict : (twoContextsParser.parse "b c".toList).verdict =
    .rejected (.mismatch (.named "d") (.named "c")) := by decide
  have hmatched : matchedIn (twoContextsParser.parse "b c".toList).trace = [.named "b"] := by decide
  obtain ⟨-, hbefore, hwith⟩ := parse_fails_earliest twoContexts_obtained twoContexts_productive
    hparser "b c".toList hverdict rfl
  rw [hmatched] at hbefore hwith
  exact ⟨twoContexts_obtained, twoContexts_productive, hparser, hverdict, rfl, hbefore, hwith⟩

end Parser

end FormalLang
