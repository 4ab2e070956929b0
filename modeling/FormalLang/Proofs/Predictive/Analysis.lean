import FormalLang.Predictive.Analysis
import FormalLang.Proofs.Grammar.Introduced
import FormalLang.Proofs.Predictive.Termination

/-!
# An analysis parses the grammar it was given

The parser of an analysis belongs to the grammar without left recursion, but what it accepts are the
words of the grammar that was analyzed (`Analysis.accepted_iff_generates_original`).  The removal
keeps the words of the start variable, and the parser is exact.

The introduced variables do not show: a word of the input is a terminal whatever its spelling, and
one that is spelled like an introduced variable stands in no body, so that an input with it is
rejected.
-/

namespace FormalLang.Analysis

variable {g : Grammar} {options : GrammarOptions} {a : Analysis}

/-- An analysis holds the grammar without left recursion and its parser. -/
theorem ofGrammar_eq_ok (h : ofGrammar options g = .ok a) :
    a.grammar = (g.removeLeftRecursion options.suffix).grammar ∧
      Parser.ofGrammar a.grammar = .ok a.parser := by
  unfold ofGrammar at h
  dsimp only at h
  split at h
  · contradiction
  · rename_i first hfirst
    split at h
    · contradiction
    · rename_i follow hfollow
      split at h
      · contradiction
      · rename_i table htable
        obtain rfl := Except.ok.inj h
        refine ⟨rfl, ?_⟩
        simp only [Parser.ofGrammar, hfirst, hfollow, htable]

/-- **An analysis accepts exactly the words of the original grammar**, whichever way that was
obtained and whatever options were set.  No word of the input is taken for an introduced variable:
where one is spelled like it, the input is rejected. -/
theorem accepted_iff_generates_original (obtained : g.Obtained) (reachable : options.Reachable)
    (h : ofGrammar options g = .ok a) (input : List Char) :
    ((a.parse input).verdict = .accepted ↔ g.Generates g.start (Parser.tokens input)) ∧
    ∀ name ∈ a.grammar.variableNames, name ∉ g.variableNames →
      .named name ∈ Parser.tokens input → ∃ e, (a.parse input).verdict = .rejected e := by
  have hsuffix := reachable.suffix_ne_empty
  have original := obtained.wellFormed
  obtain ⟨hgrammar, hparser⟩ := ofGrammar_eq_ok h
  have hkeeps : g.Keeps a.grammar := hgrammar ▸ original.keeps_removeLeftRecursion hsuffix
  have wellFormed : a.grammar.WellFormed := hgrammar ▸ original.removeLeftRecursion (.inl hsuffix)
  have hexact := Parser.accepted_iff_generates wellFormed hparser input
  constructor
  · rw [parse, hexact, hkeeps.start, Grammar.generates_iff_yields, Grammar.generates_iff_yields]
    exact hkeeps.yields g.start original.start_mem _
  · intro name hname hnew htoken
    have hnot : (a.parse input).verdict ≠ .accepted := by
      intro haccepted
      have hyields := Grammar.generates_iff_yields.mp (hexact.mp haccepted)
      rcases hyields.mentions htoken with hform | hmentions
      · cases List.mem_singleton.mp hform
      · rw [hgrammar] at hname hmentions
        exact original.not_mentions_introduced hsuffix hname hnew hmentions
    have hends := Parser.verdict_ne_unfinished wellFormed hparser input
    cases hverdict : (a.parse input).verdict with
    | accepted => exact absurd hverdict hnot
    | rejected e => exact ⟨e, rfl⟩
    | unfinished => exact absurd hverdict hends

/-- Sums, with the operator to the left: `E -> E + a | a`. -/
def sums : Grammar :=
  ⟨"E", [⟨"E", [[.variable "E", .terminal (.named "+"), .terminal (.named "a")],
    [.terminal (.named "a")]]⟩]⟩

theorem sums_obtained : sums.Obtained :=
  @Grammar.Obtained.read .default "E -> E + a | a".toList _ (by decide)

/-- `E'` is introduced, and as a word of the input it is no variable. -/
theorem accepted_iff_generates_original_sums : ∃ a, sums.Obtained ∧
    GrammarOptions.default.Reachable ∧ ofGrammar .default sums = .ok a ∧
      sums.Generates "E" [.named "a", .named "+", .named "a"] ∧
        "E'" ∈ a.grammar.variableNames ∧ ∃ e, (a.parse "a E'".toList).verdict = .rejected e := by
  have hanalysis : ∃ a, ofGrammar .default sums = .ok a ∧
      (a.parse "a + a".toList).verdict = .accepted ∧ "E'" ∈ a.grammar.variableNames :=
    ⟨_, rfl, by decide, by decide⟩
  obtain ⟨a, ha, haccepted, hfresh⟩ := hanalysis
  exact ⟨a, sums_obtained, .default, ha,
    (accepted_iff_generates_original sums_obtained .default ha _).1.mp haccepted, hfresh,
    (accepted_iff_generates_original sums_obtained .default ha _).2 "E'" hfresh (by decide)
      (by decide)⟩

end FormalLang.Analysis
