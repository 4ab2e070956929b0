import FormalLang.Predictive.Analysis
import FormalLang.Proofs.Grammar.Introduced
import FormalLang.Proofs.Rounds
import Mathlib.Order.Bounds.Basic

/-!
# Fresh names are found

A fresh name is looked for by appending the suffix until the name is not used.  Nothing in this
search bounds its length.  It ends because a suffix that is not empty makes the name longer every
time, and the used names are finitely many; the name that it ends with has the fewest copies of the
suffix (`Grammar.freshVariable_isLeast`).  An empty suffix leaves the name as it is, and if that is
used, the search never ends (`Grammar.searchFresh_empty_not_dom`).

**Why no analysis is caught in a search.**  Options take no empty suffix
(`GrammarOptions.Reachable.suffix_ne_empty`).  Here the removal of left recursion is written out
with searches that may not end, and under such options an analysis by way of it comes to the same as
the analysis (`Analysis.searchOfText_eq`).
-/

namespace FormalLang

/-! ## 1. The search for a name -/

namespace Grammar

/-- A name with a number of copies of a suffix behind it. -/
def extended (name suffix : String) (copies : Nat) : String :=
  name ++ String.join (List.replicate copies suffix)

/-- Whether a name is that of a variable or of a terminal. -/
def Uses (g : Grammar) (name : String) : Prop :=
  name ∈ g.variableNames ∨ .named name ∈ g.terminals

instance (g : Grammar) (name : String) : Decidable (g.Uses name) :=
  inferInstanceAs (Decidable (_ ∨ _))

/-- Appends a suffix to a name that is used. -/
def lengthen (g : Grammar) (suffix name : String) : Option String :=
  if g.Uses name then some (name ++ suffix) else none

/-- **The search for a fresh name**: from the name with the suffix on, the suffix is appended until
the name is not used.  There is no result if that never happens. -/
def searchFresh (g : Grammar) (suffix : String) : String →. String := fun name =>
  StateTransition.eval (g.lengthen suffix) (name ++ suffix)

variable {g : Grammar} {name suffix : String}

theorem extended_zero : extended name suffix 0 = name := String.append_empty

theorem extended_succ (copies : Nat) :
    extended name suffix (copies + 1) = extended (name ++ suffix) suffix copies := by
  rw [extended, extended, List.replicate_succ, String.join_cons, String.append_assoc]

theorem mem_usedNames_iff : name ∈ g.usedNames ↔ g.Uses name := by
  rw [usedNames, List.mem_append, Uses, List.mem_filterMap]
  refine or_congr_right ⟨?_, fun h => ⟨_, h, rfl⟩⟩
  rintro ⟨t, ht, hname⟩
  cases t with
  | named _ => exact Option.some.inj hname ▸ ht
  | endOfInput => contradiction

theorem lengthen_eq_none : g.lengthen suffix name = none ↔ ¬ g.Uses name := by
  simp [lengthen]

theorem avoid_eq_iterate : ∀ (n : Nat) (name : String),
    avoid g.usedNames suffix n name = iterate (g.lengthen suffix) n name
  | 0, _ => rfl
  | n + 1, name => by
    rw [avoid, iterate, lengthen]
    by_cases h : g.Uses name
    · rw [if_pos (mem_usedNames_iff.mpr h), if_pos h]
      exact avoid_eq_iterate n (name ++ suffix)
    · rw [if_neg (mt mem_usedNames_iff.mp h), if_neg h]

/-- **After some rounds the name has some copies of the suffix**, and with fewer copies it was
used. -/
theorem exists_iterate_lengthen : ∀ (n : Nat) (name : String),
    ∃ k, iterate (g.lengthen suffix) n name = extended name suffix k ∧
      ∀ j < k, g.Uses (extended name suffix j)
  | 0, _ => ⟨0, extended_zero.symm, fun j hj => absurd hj (Nat.not_lt_zero j)⟩
  | n + 1, name => by
    rw [iterate, lengthen]
    by_cases h : g.Uses name
    · rw [if_pos h]
      obtain ⟨k, hlast, hused⟩ := exists_iterate_lengthen n (name ++ suffix)
      refine ⟨k + 1, hlast.trans (extended_succ k).symm, fun j hj => ?_⟩
      cases j with
      | zero => rwa [extended_zero]
      | succ j =>
        rw [extended_succ]
        exact hused j (by omega)
    · rw [if_neg h]
      exact ⟨0, extended_zero.symm, fun j hj => absurd hj (Nat.not_lt_zero j)⟩

theorem not_uses_freshVariable (hsuffix : suffix ≠ "") (g : Grammar) (name : String) :
    ¬ g.Uses (g.freshVariable name suffix) :=
  mt mem_usedNames_iff.mpr (freshVariable_not_mem hsuffix g name)

/-- **The search for a fresh name ends.** -/
theorem searchFresh_eq (hsuffix : suffix ≠ "") (g : Grammar) (name : String) :
    g.searchFresh suffix name = .some (g.freshVariable name suffix) := by
  have hlast : g.freshVariable name suffix =
      iterate (g.lengthen suffix) g.usedNames.length (name ++ suffix) := avoid_eq_iterate _ _
  rw [hlast]
  refine eval_eq_some_iterate ?_
  rw [← hlast, lengthen_eq_none]
  exact not_uses_freshVariable hsuffix g name

/-- **A fresh name has the fewest copies of the suffix**, at least one. -/
theorem freshVariable_isLeast (hsuffix : suffix ≠ "") (g : Grammar) (name : String) :
    ∃ k, IsLeast {k | 1 ≤ k ∧ ¬ g.Uses (extended name suffix k)} k ∧
      g.freshVariable name suffix = extended name suffix k := by
  obtain ⟨k, hlast, hused⟩ :=
    @exists_iterate_lengthen g suffix g.usedNames.length (name ++ suffix)
  have hfresh : g.freshVariable name suffix = extended name suffix (k + 1) :=
    (avoid_eq_iterate _ _).trans (hlast.trans (extended_succ k).symm)
  refine ⟨k + 1, ⟨⟨Nat.le_add_left 1 k, ?_⟩, fun j hj => ?_⟩, hfresh⟩
  · rw [← hfresh]
    exact not_uses_freshVariable hsuffix g name
  · obtain ⟨hpos, hunused⟩ := hj
    by_contra hlt
    -- with fewer copies the search would have gone on
    obtain ⟨i, rfl⟩ := Nat.exists_eq_add_of_le' hpos
    rw [extended_succ] at hunused
    exact hunused (hused i (by omega))

/-- **With an empty suffix the search for a name that is used never ends.** -/
theorem searchFresh_empty_not_dom (h : g.Uses name) : ¬ (g.searchFresh "" name).Dom := by
  intro hdom
  obtain ⟨n, hlast, hdone⟩ := exists_iterate_of_mem_eval (Part.get_mem hdom)
  have hstays : iterate (g.lengthen "") n (name ++ "") = name := by
    refine iterate_invariant (P := fun s => s = name) ?_ n _ String.append_empty
    rintro s s' rfl hs
    rw [lengthen, if_pos h, String.append_empty] at hs
    exact (Option.some.inj hs).symm
  rw [← hlast, hstays, lengthen_eq_none] at hdone
  exact hdone h

/-! ## 2. The removal of left recursion -/

namespace Removal

/-- What becomes of a variable with bodies that begin with it, given a name for another variable. -/
def splitWith (r : Removal) (head fresh : String) : Removal :=
  let recursive := (r.grammar.bodiesOf head).filter (Body.beginsWith head)
  let dropped := (recursive.filter fun body => body.tail.isEmpty).map fun _ =>
    RecursionEvent.dropped head
  if (r.grammar.recursiveTails head).isEmpty then
    ⟨r.grammar.setBodies head (r.grammar.foundedBodies head), r.events ++ dropped⟩
  else
    let unfounded :=
      if (r.grammar.foundedBodies head).isEmpty then [RecursionEvent.unfounded head] else []
    ⟨r.grammar.splitRecursion head fresh,
      r.events ++ dropped ++ unfounded ++ [.introduced head fresh]⟩

/-- Replaces the bodies of a variable that begin with it.  If there are any, a name is looked for,
even if it turns out that none is needed. -/
def searchDirect (suffix head : String) : Removal →. Removal := fun r =>
  if ((r.grammar.bodiesOf head).filter (Body.beginsWith head)).isEmpty then .some r
  else (r.grammar.searchFresh suffix head).map (r.splitWith head)

/-- Takes variables in order, after those that were taken before. -/
def searchVisitAll (suffix : String) : List String → List String → Removal →. Removal
  | _, [] => fun r => .some r
  | earlier, head :: rest => fun r =>
    (searchDirect suffix head (earlier.foldl (substitute head) r)).bind fun r =>
      searchVisitAll suffix (earlier ++ [head]) rest r

theorem removeDirect_eq_splitWith {r : Removal} {suffix head : String}
    (h : ¬ ((r.grammar.bodiesOf head).filter (Body.beginsWith head)).isEmpty) :
    r.removeDirect suffix head = r.splitWith head (r.grammar.freshVariable head suffix) := by
  simp only [removeDirect, if_neg h]
  rfl

variable (hsuffix : suffix ≠ "")

include hsuffix

theorem searchDirect_eq (r : Removal) (head : String) :
    searchDirect suffix head r = .some (r.removeDirect suffix head) := by
  rw [searchDirect]
  split
  · rename_i hnone
    simp only [removeDirect, if_pos hnone]
  · rename_i hsome
    rw [searchFresh_eq hsuffix, Part.map_some, removeDirect_eq_splitWith hsome]

theorem searchVisitAll_eq : ∀ (later earlier : List String) (r : Removal),
    searchVisitAll suffix earlier later r = .some (visitAll suffix r earlier later)
  | [], _, _ => rfl
  | head :: later, earlier, r => by
    rw [searchVisitAll]
    dsimp only
    rw [searchDirect_eq hsuffix, Part.bind_some]
    exact searchVisitAll_eq later _ _

end Removal

/-- **The removal of left recursion with searches that may not end.** -/
def searchRemoval (suffix : String) : Grammar →. Removal := fun g =>
  Removal.searchVisitAll suffix [] g.variableNames ⟨g, []⟩

theorem searchRemoval_eq (hsuffix : suffix ≠ "") (g : Grammar) :
    g.searchRemoval suffix = .some (g.removeLeftRecursion suffix) :=
  Removal.searchVisitAll_eq hsuffix g.variableNames [] ⟨g, []⟩

end Grammar

/-! ## 3. The analysis -/

namespace Analysis

/-- What an analysis does with a grammar whose left recursion is removed. -/
def ofRemoval (removal : Grammar.Removal) : Except TableError Analysis :=
  match FirstSets.ofGrammar removal.grammar with
  | .error f => .error (.fault f)
  | .ok first =>
    match FollowSets.ofGrammar removal.grammar first with
    | .error f => .error (.fault f)
    | .ok follow =>
      match ParseTable.build removal.grammar first follow with
      | .error e => .error e
      | .ok table =>
        .ok ⟨removal.grammar, removal.events, first, follow, ⟨removal.grammar.start, table⟩⟩

/-- The analysis of a grammar with searches that may not end. -/
def searchOfGrammar (options : GrammarOptions) : Grammar →. Except TableError Analysis := fun g =>
  (g.searchRemoval options.suffix).map ofRemoval

/-- The analysis of the grammar that a text describes, with searches that may not end. -/
def searchOfText (options : GrammarOptions) : List Char →. Except AnalysisError Analysis := fun cs =>
  match Grammar.ofText options cs with
  | .error e => .some (.error (.grammar e))
  | .ok g => (searchOfGrammar options g).map (Except.mapError .table)

variable {options : GrammarOptions}

theorem searchOfGrammar_eq (hsuffix : options.suffix ≠ "") (g : Grammar) :
    searchOfGrammar options g = .some (ofGrammar options g) := by
  rw [searchOfGrammar, Grammar.searchRemoval_eq hsuffix, Part.map_some]
  rfl

theorem searchOfText_eq (hsuffix : options.suffix ≠ "") (cs : List Char) :
    searchOfText options cs = .some (ofText options cs) := by
  rw [searchOfText, ofText]
  cases Grammar.ofText options cs with
  | error e => rfl
  | ok g =>
    dsimp only
    rw [searchOfGrammar_eq hsuffix, Part.map_some]
    cases ofGrammar options g with
    | error e => rfl
    | ok a => rfl

end Analysis

/-- **Fresh names are found, and no analysis is caught in a search for one.**

With a suffix that is not empty the search for a fresh name ends, with the fewest copies of the
suffix, at least one, that make a name of no variable and no terminal.  With an empty suffix it does
not end if the name is used.  Setting options one after the other never leads to an empty suffix, so
that the searches of an analysis of a grammar or of a text all end. -/
theorem fresh_names_found :
    (∀ (g : Grammar) (name suffix : String), suffix ≠ "" →
      g.searchFresh suffix name = .some (g.freshVariable name suffix) ∧
      ∃ k, IsLeast {k | 1 ≤ k ∧ ¬ g.Uses (Grammar.extended name suffix k)} k ∧
        g.freshVariable name suffix = Grammar.extended name suffix k) ∧
    (∀ (g : Grammar) (name : String), g.Uses name → ¬ (g.searchFresh "" name).Dom) ∧
    ∀ options : GrammarOptions, options.Reachable → options.suffix ≠ "" ∧
      (∀ g, Analysis.searchOfGrammar options g = .some (Analysis.ofGrammar options g)) ∧
      ∀ cs, Analysis.searchOfText options cs = .some (Analysis.ofText options cs) := by
  refine ⟨fun g name suffix hsuffix => ?_, fun g name h => ?_, fun options reachable => ?_⟩
  · exact ⟨Grammar.searchFresh_eq hsuffix g name, Grammar.freshVariable_isLeast hsuffix g name⟩
  · exact Grammar.searchFresh_empty_not_dom h
  · have hsuffix := reachable.suffix_ne_empty
    exact ⟨hsuffix, Analysis.searchOfGrammar_eq hsuffix, Analysis.searchOfText_eq hsuffix⟩

/-- A variable that begins with itself, beside a variable and a terminal that are spelled like it
with one and two quotes. -/
def crowded : Grammar :=
  ⟨"E", [⟨"E", [[.variable "E", .terminal (.named "E''")], [.variable "E'"]]⟩,
    ⟨"E'", [[.terminal (.named "x")]]⟩]⟩

/-- Options that were asked for an empty suffix after another one. -/
def patientOptions : GrammarOptions :=
  (((GrammarOptions.default.addMarker "eps").setSuffix "_").setStart "E").setSuffix ""

/-- The name `E` needs three quotes, and options that were asked for an empty suffix do not stop an
analysis. -/
theorem fresh_names_found_crowded :
    "'" ≠ "" ∧ crowded.searchFresh "'" "E" = .some "E'''" ∧
    IsLeast {k | 1 ≤ k ∧ ¬ crowded.Uses (Grammar.extended "E" "'" k)} 3 ∧
    crowded.Uses "E" ∧ ¬ (crowded.searchFresh "" "E").Dom ∧
    patientOptions.Reachable ∧ patientOptions.suffix = "_" ∧
    Analysis.searchOfGrammar patientOptions crowded =
      .some (Analysis.ofGrammar patientOptions crowded) ∧
    Analysis.searchOfText patientOptions "E -> E E_ | eps".toList =
      .some (Analysis.ofText patientOptions "E -> E E_ | eps".toList) := by
  obtain ⟨hfresh, hempty, hoptions⟩ := fresh_names_found
  have hsuffix : "'" ≠ "" := by decide
  have huses : crowded.Uses "E" := by decide
  have reachable : patientOptions.Reachable := (((GrammarOptions.Reachable.default.addMarker
    "eps").setSuffix "_").setStart "E").setSuffix ""
  have hname : crowded.freshVariable "E" "'" = "E'''" := by decide
  obtain ⟨hsearch, k, hleast, hcopies⟩ := hfresh crowded "E" "'" hsuffix
  obtain ⟨-, hgrammar, htext⟩ := hoptions patientOptions reachable
  have hk : k = 3 := by
    refine hleast.unique ⟨⟨by decide, by decide⟩, ?_⟩
    rintro j ⟨hpos, hunused⟩
    by_contra hlt
    obtain rfl | rfl : j = 1 ∨ j = 2 := by omega
    · exact hunused (by decide)
    · exact hunused (by decide)
  subst hk
  exact ⟨hsuffix, hname ▸ hsearch, hleast, huses, hempty crowded "E" huses, reachable, by decide,
    hgrammar crowded, htext _⟩

end FormalLang
