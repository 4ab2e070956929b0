import FormalLang.Proofs.Grammar.Obtained
import FormalLang.Proofs.Grammar.Yield
import FormalLang.Proofs.Repetition

/-!
# Removing left recursion keeps the words of every variable

The removal is a sequence of two kinds of changes, and each of them keeps what the declared
variables yield (`Keeps`):

* **A leading earlier variable is replaced by its bodies** (`keeps_substituteLeading`).  A body of
  the new grammar takes two steps in the old one, and the first two steps of an old derivation are
  one step in the new one.
* **A fresh variable takes over the recursion of another** (`keeps_splitRecursion`).  In both
  grammars the words of the variable are a founded word and then any number of tails.  The old
  grammar makes them from the right, the new one from the left, with the fresh variable standing for
  the repeated tails; so the new grammar is read in the old one with that language for the fresh
  variable.

Neither needs the grammar to be free of cycles or of empty bodies, nor a variable to have bodies.
-/

namespace FormalLang.Grammar

open scoped Computability

/-! ## 1. Keeping words -/

/-- Whether a grammar keeps the start, the variables and the words of another one. -/
structure Keeps (g g' : Grammar) : Prop where
  start : g'.start = g.start
  declared : ∀ name ∈ g.variableNames, name ∈ g'.variableNames
  yields : ∀ name ∈ g.variableNames, ∀ word,
    g'.Yields [.variable name] word ↔ g.Yields [.variable name] word

theorem Keeps.refl (g : Grammar) : g.Keeps g := ⟨rfl, fun _ h => h, fun _ _ _ => Iff.rfl⟩

theorem Keeps.trans {g g' g'' : Grammar} (h : g.Keeps g') (h' : g'.Keeps g'') : g.Keeps g'' where
  start := h'.start.trans h.start
  declared name hname := h'.declared name (h.declared name hname)
  yields name hname word :=
    (h'.yields name (h.declared name hname) word).trans (h.yields name hname word)

/-- Changed bodies of one variable keep all words if each grammar admits the rules of the other. -/
theorem keeps_setBodies {g : Grammar} {head : String} (hhead : head ∈ g.variableNames)
    {bodies : List Body}
    (sound : ∀ body ∈ bodies, ∀ word, g.Yields body.goals word → g.Yields [.variable head] word)
    (complete : ∀ body ∈ g.bodiesOf head, ∀ word, (g.setBodies head bodies).Yields body.goals word →
      (g.setBodies head bodies).Yields [.variable head] word) :
    g.Keeps (g.setBodies head bodies) where
  start := rfl
  declared name hname := by simpa using hname
  yields name _ word := by
    constructor
    · refine Yields.transfer fun name body hbody word hword => ?_
      rw [bodiesOf_setBodies hhead] at hbody
      split at hbody
      · rename_i heq
        subst heq
        exact sound body hbody word hword
      · exact .of_rule hbody hword
    · refine Yields.transfer fun name body hbody word hword => ?_
      by_cases hname : name = head
      · subst hname
        exact complete body hbody word hword
      · refine .of_rule ?_ hword
        rw [bodiesOf_setBodies hhead, if_neg hname]
        exact hbody

/-! ## 2. Replacing a leading variable -/

theorem goals_variable_cons (name : String) (tail : Body) :
    Body.goals (.variable name :: tail) = .variable name :: tail.goals := rfl

/-- **Replacing a leading variable by its bodies keeps all words.** -/
theorem keeps_substituteLeading {g : Grammar} {earlier head : String} (hne : earlier ≠ head)
    (hhead : head ∈ g.variableNames) : g.Keeps (g.substituteLeading earlier head) := by
  refine keeps_setBodies hhead ?_ ?_
  · intro body hbody word hword
    obtain ⟨old, hold, hbody⟩ := List.mem_flatMap.mp hbody
    rw [Body.substitute] at hbody
    split at hbody
    · rename_i hbegins
      obtain ⟨tail, rfl⟩ := Body.beginsWith_iff.mp hbegins
      obtain ⟨replacement, hreplacement, rfl⟩ := List.mem_map.mp hbody
      rw [Body.goals_bodyAppend] at hword
      exact .of_rule hold (.expand hreplacement hword)
    · obtain rfl := List.mem_singleton.mp hbody
      exact .of_rule hold hword
  · intro body hbody word hword
    have hrule : ∀ new ∈ Body.substitute earlier (g.bodiesOf earlier) body,
        new ∈ (g.substituteLeading earlier head).bodiesOf head := by
      intro new hnew
      rw [substituteLeading, bodiesOf_setBodies hhead, if_pos rfl]
      exact List.mem_flatMap.mpr ⟨body, hbody, hnew⟩
    rw [Body.substitute] at hrule
    split at hrule
    · rename_i hbegins
      obtain ⟨tail, rfl⟩ := Body.beginsWith_iff.mp hbegins
      -- the leading variable is replaced first, by a body that it has in both grammars
      rw [goals_variable_cons] at hword
      obtain ⟨replacement, hreplacement, hword⟩ := yields_variable_cons_iff.mp hword
      rw [bodiesOf_setBodies hhead, if_neg hne] at hreplacement
      refine .of_rule (hrule _ (List.mem_map_of_mem hreplacement)) ?_
      rw [Body.goals_bodyAppend]
      exact hword
    · exact .of_rule (hrule _ (List.mem_singleton_self body)) hword

/-! ## 3. Taking over the recursion -/

/-- The words that the recursive tails of a variable yield in another grammar. -/
def tailWords (g : Grammar) (head : String) (within : Grammar) : Language Terminal :=
  {word | ∃ tail ∈ g.recursiveTails head, within.Yields tail.goals word}

/-- A variable can be followed by any number of its recursive tails. -/
theorem Yields.append_kstar {g : Grammar} {head : String} {u : List Terminal}
    (hu : g.Yields [.variable head] u) {v : List Terminal} (hv : v ∈ (g.tailWords head g)∗) :
    g.Yields [.variable head] (u ++ v) := by
  induction hv using kstar_induction generalizing u with
  | nil => simpa using hu
  | cons part rest hpart _ ih =>
    obtain ⟨tail, htail, hpart⟩ := hpart
    have hstep : g.Yields [.variable head] (u ++ part) :=
      .of_rule (mem_recursiveTails.mp htail).2 (hu.append hpart)
    rw [← List.append_assoc]
    exact ih hstep

section Split

variable {g : Grammar} {head fresh : String}

theorem goals_append_fresh (body : Body) (fresh : String) :
    (Body.append body [.variable fresh]).goals = body.goals ++ [.variable fresh] :=
  Body.goals_bodyAppend _ _

/-- The fresh variable yields any number of tails. -/
theorem yields_fresh_of_kstar (hhead : head ∈ g.variableNames) (hfresh : fresh ∉ g.variableNames)
    {word : List Terminal}
    (h : word ∈ (g.tailWords head (g.splitRecursion head fresh))∗) :
    (g.splitRecursion head fresh).Yields [.variable fresh] word := by
  have hbodies := bodiesOf_splitRecursion hhead hfresh fresh
  rw [if_pos rfl] at hbodies
  induction h using kstar_induction with
  | nil =>
    have hrule : [.epsilon] ∈ (g.splitRecursion head fresh).bodiesOf fresh := by
      rw [hbodies]
      exact List.mem_append_right _ (List.mem_singleton_self _)
    exact .of_rule hrule .nil
  | cons part rest hpart _ ih =>
    obtain ⟨tail, htail, hpart⟩ := hpart
    have hrule : Body.append tail [.variable fresh] ∈
        (g.splitRecursion head fresh).bodiesOf fresh := by
      rw [hbodies]
      exact List.mem_append_left _ (List.mem_map_of_mem htail)
    refine .of_rule hrule ?_
    rw [goals_append_fresh]
    exact hpart.append ih

/-- A reading of the grammar after the split: the fresh variable stands for any number of tails, and
the others for what they yield in some grammar. -/
def splitReading (g : Grammar) (head fresh : String) (within : Grammar) : Reading :=
  fun name word =>
  if name = fresh then word ∈ (g.tailWords head within)∗ else within.Yields [.variable name] word

/-- A form without the fresh variable spells what it yields. -/
theorem Spells.yields_of_not_mem {within : Grammar} {form : List Goal} {word : List Terminal}
    (h : Spells (splitReading g head fresh within) form word)
    (hform : Goal.variable fresh ∉ form) : within.Yields form word := by
  refine (h.mono ?_).yields
  intro name hname u hu
  have hne : name ≠ fresh := fun e => hform (e ▸ hname)
  simpa only [splitReading, if_neg hne] using hu

/-- What a body and the fresh variable behind it spell. -/
theorem Spells.split_fresh {within : Grammar} {body : Body} {word : List Terminal}
    (hbody : Symbol.variable fresh ∉ body)
    (h : Spells (splitReading g head fresh within) (body.goals ++ [.variable fresh]) word) :
    ∃ u v, word = u ++ v ∧ within.Yields body.goals u ∧ v ∈ (g.tailWords head within)∗ := by
  obtain ⟨u, v, rfl, hu, hv⟩ := h.split
  refine ⟨u, v, rfl, hu.yields_of_not_mem fun h => hbody (Body.variable_mem_goals.mp h), ?_⟩
  rcases hv with _ | _ | ⟨hv, rest⟩
  rcases rest with ⟨⟩
  rw [List.append_nil]
  simpa only [splitReading, if_pos] using hv

theorem WellFormed.not_mem_body (wellFormed : g.WellFormed) (hfresh : fresh ∉ g.variableNames)
    {name : String} {body : Body} (hbody : body ∈ g.bodiesOf name) :
    Symbol.variable fresh ∉ body :=
  fun h => hfresh ((wellFormed.rule hbody).2 fresh h)

variable (wellFormed : g.WellFormed) (hhead : head ∈ g.variableNames)
  (hfresh : fresh ∉ g.variableNames)

include wellFormed hhead hfresh

/-- The reading respects the rules of the fresh variable, whatever grammar the others are read
in. -/
theorem splitReading_fresh {within : Grammar} {body : Body} {word : List Terminal}
    (hbody : body ∈ (g.splitRecursion head fresh).bodiesOf fresh)
    (h : Spells (splitReading g head fresh within) body.goals word) :
    word ∈ (g.tailWords head within)∗ := by
  rw [bodiesOf_splitRecursion hhead hfresh, if_pos rfl] at hbody
  rcases List.mem_append.mp hbody with hbody | hbody
  · obtain ⟨tail, htail, rfl⟩ := List.mem_map.mp hbody
    have hmem := wellFormed.not_mem_body hfresh (mem_recursiveTails.mp htail).2
    rw [goals_append_fresh] at h
    obtain ⟨u, v, rfl, hu, hv⟩ := h.split_fresh fun h => hmem (List.mem_cons_of_mem _ h)
    exact kstar_cons ⟨tail, htail, hu⟩ hv
  · obtain rfl := List.mem_singleton.mp hbody
    rcases h with ⟨⟩
    exact Language.nil_mem_kstar _

/-- **The fresh variable stands for the repeated tails.** -/
theorem yields_fresh_iff {word : List Terminal} :
    (g.splitRecursion head fresh).Yields [.variable fresh] word ↔
      word ∈ (g.tailWords head (g.splitRecursion head fresh))∗ := by
  constructor
  · intro h
    have hspells : Spells (splitReading g head fresh (g.splitRecursion head fresh))
        [.variable fresh] word := by
      refine h.spells fun name body hbody word hword => ?_
      by_cases hname : name = fresh
      · subst hname
        simpa only [splitReading, if_pos] using
          splitReading_fresh wellFormed hhead hfresh hbody hword
      · simp only [splitReading, if_neg hname]
        refine .of_rule hbody (hword.mono ?_).yields
        intro v _ u hu
        by_cases hv : v = fresh
        · subst hv
          exact yields_fresh_of_kstar hhead hfresh (by simpa only [splitReading, if_pos] using hu)
        · simpa only [splitReading, if_neg hv] using hu
    have hnil : Symbol.variable fresh ∉ ([] : Body) := List.not_mem_nil
    obtain ⟨u, v, rfl, hu, hv⟩ := hspells.split_fresh hnil
    obtain rfl := yields_nil_iff.mp hu
    exact hv
  · exact yields_fresh_of_kstar hhead hfresh

/-- After the split a variable yields no more than before. -/
theorem Yields.of_splitRecursion {name : String} (hname : name ∈ g.variableNames)
    {word : List Terminal} (h : (g.splitRecursion head fresh).Yields [.variable name] word) :
    g.Yields [.variable name] word := by
  have hspells : Spells (splitReading g head fresh g) [.variable name] word := by
    refine h.spells fun name body hbody word hword => ?_
    by_cases hfreshName : name = fresh
    · subst hfreshName
      simpa only [splitReading, if_pos] using
        splitReading_fresh wellFormed hhead hfresh hbody hword
    · simp only [splitReading, if_neg hfreshName]
      rw [bodiesOf_splitRecursion hhead hfresh, if_neg hfreshName] at hbody
      split at hbody
      · rename_i heq
        subst heq
        obtain ⟨old, hold, rfl⟩ := List.mem_map.mp hbody
        have hbodies := (mem_foundedBodies.mp hold).1
        have hmem := wellFormed.not_mem_body hfresh hbodies
        rw [goals_append_fresh] at hword
        obtain ⟨u, v, rfl, hu, hv⟩ := hword.split_fresh hmem
        exact (Yields.of_rule hbodies hu).append_kstar hv
      · have hmem := wellFormed.not_mem_body hfresh hbody
        exact .of_rule hbody
          (hword.yields_of_not_mem fun h => hmem (Body.variable_mem_goals.mp h))
  refine hspells.yields_of_not_mem ?_
  rw [List.mem_singleton]
  rintro ⟨⟩
  exact hfresh hname

/-- After the split a variable yields no less than before. -/
theorem Yields.splitRecursion {form : List Goal} {word : List Terminal} (h : g.Yields form word) :
    (g.splitRecursion head fresh).Yields form word := by
  refine h.transfer fun name body hbody word hword => ?_
  have hname : name ≠ fresh := by
    rintro rfl
    exact hfresh (mem_variableNames_of_mem_bodiesOf hbody)
  by_cases heq : name = head
  · subst heq
    have hrule : ∀ old ∈ g.foundedBodies name,
        Body.append old [.variable fresh] ∈ (g.splitRecursion name fresh).bodiesOf name := by
      intro old hold
      rw [bodiesOf_splitRecursion hhead hfresh, if_neg hname, if_pos rfl]
      exact List.mem_map_of_mem hold
    by_cases hbegins : ∃ tail, body = .variable name :: tail
    · obtain ⟨tail, rfl⟩ := hbegins
      rw [goals_variable_cons] at hword
      rcases tail with _ | ⟨s, tail⟩
      · exact hword
      -- what the leading variable yields ends in tails, and one more is behind it
      obtain ⟨new, hnew, hword⟩ := yields_variable_cons_iff.mp hword
      rw [bodiesOf_splitRecursion hhead hfresh, if_neg hname, if_pos rfl] at hnew
      obtain ⟨old, hold, rfl⟩ := List.mem_map.mp hnew
      rw [goals_append_fresh, List.append_assoc] at hword
      obtain ⟨u, rest, rfl, hu, hrest⟩ := yields_append_iff.mp hword
      obtain ⟨v, t, rfl, hv, ht⟩ := yields_append_iff.mp hrest
      have htail : (s :: tail) ∈ g.recursiveTails name :=
        mem_recursiveTails.mpr ⟨List.cons_ne_nil _ _, hbody⟩
      have hstar := kstar_concat ((yields_fresh_iff wellFormed hhead hfresh).mp hv)
        (show t ∈ g.tailWords name (g.splitRecursion name fresh) from ⟨_, htail, ht⟩)
      refine .of_rule (hrule old hold) ?_
      rw [goals_append_fresh]
      exact hu.append (yields_fresh_of_kstar hhead hfresh hstar)
    · have hfounded : body ∈ g.foundedBodies name :=
        mem_foundedBodies.mpr ⟨hbody, fun tail h => hbegins ⟨tail, h⟩⟩
      refine .of_rule (hrule body hfounded) ?_
      rw [goals_append_fresh]
      have hnil := yields_fresh_of_kstar hhead hfresh
        (Language.nil_mem_kstar (g.tailWords name (g.splitRecursion name fresh)))
      simpa using hword.append hnil
  · refine .of_rule ?_ hword
    rw [bodiesOf_splitRecursion hhead hfresh, if_neg hname, if_neg heq]
    exact hbody

/-- **Taking over the recursion of a variable keeps all words.** -/
theorem keeps_splitRecursion : g.Keeps (g.splitRecursion head fresh) where
  start := rfl
  declared name hname := by simp [Grammar.splitRecursion, hname]
  yields _ hname _ :=
    ⟨fun h => h.of_splitRecursion wellFormed hhead hfresh hname,
      fun h => h.splitRecursion wellFormed hhead hfresh⟩

end Split

/-- Dropping the bodies of a variable that are just the variable keeps all words. -/
theorem keeps_dropLoops {g : Grammar} {head : String} (hhead : head ∈ g.variableNames)
    (htails : g.recursiveTails head = []) :
    g.Keeps (g.setBodies head (g.foundedBodies head)) := by
  refine keeps_setBodies hhead ?_ ?_
  · exact fun body hbody word hword => .of_rule (mem_foundedBodies.mp hbody).1 hword
  · intro body hbody word hword
    by_cases hbegins : ∃ tail, body = .variable head :: tail
    · obtain ⟨tail, rfl⟩ := hbegins
      have hnil : tail = [] := by
        by_contra hne
        have := mem_recursiveTails.mpr ⟨hne, hbody⟩
        rw [htails] at this
        exact List.not_mem_nil this
      subst hnil
      exact hword
    · refine .of_rule ?_ hword
      rw [bodiesOf_setBodies hhead, if_pos rfl]
      exact mem_foundedBodies.mpr ⟨hbody, fun tail h => hbegins ⟨tail, h⟩⟩

/-! ## 4. The whole removal -/

theorem keeps_substitute (r : Removal) {earlier head : String} (hne : earlier ≠ head) :
    r.grammar.Keeps (r.substitute head earlier).grammar := by
  rcases r.substitute_cases earlier head with ⟨-, heq⟩ | ⟨hhead, heq⟩
  · rw [heq]
    exact .refl _
  · rw [heq]
    exact keeps_substituteLeading hne hhead

theorem keeps_removeDirect {r : Removal} (wellFormed : r.grammar.WellFormed) {suffix : String}
    (hsuffix : suffix ≠ "") (head : String) :
    r.grammar.Keeps (r.removeDirect suffix head).grammar := by
  rcases r.removeDirect_cases suffix head with ⟨-, heq⟩ | ⟨hhead, ⟨htails, heq⟩ | heq⟩
  · rw [heq]
    exact .refl _
  · rw [heq]
    exact keeps_dropLoops hhead htails
  · rw [heq]
    exact keeps_splitRecursion wellFormed hhead (freshVariable_not_mem_variableNames hsuffix _ _)

theorem WellFormed.keeps_removeLeftRecursion {g : Grammar} (wellFormed : g.WellFormed)
    {suffix : String} (hsuffix : suffix ≠ "") :
    g.Keeps (g.removeLeftRecursion suffix).grammar := by
  have hboth : (g.removeLeftRecursion suffix).grammar.WellFormed ∧
      g.Keeps (g.removeLeftRecursion suffix).grammar := by
    refine Removal.visitAll_induction (P := fun r => r.grammar.WellFormed ∧ g.Keeps r.grammar)
      ?_ ?_ g.variableNames [] ⟨g, []⟩ wellFormed.nodup ⟨wellFormed, .refl g⟩
    · intro r earlier head hne h
      exact ⟨h.1.substitute earlier head, h.2.trans (keeps_substitute r hne)⟩
    · intro r head h
      exact ⟨h.1.removeDirect hsuffix head, h.2.trans (keeps_removeDirect h.1 hsuffix head)⟩
  exact hboth.2

/-- **Removing left recursion keeps the language of every declared variable, and the start.** -/
theorem removeLeftRecursion_generates_iff {g : Grammar} (obtained : g.Obtained) {suffix : String}
    (nonempty : suffix ≠ "") :
    (g.removeLeftRecursion suffix).grammar.start = g.start ∧
      ∀ name ∈ g.variableNames, name ∈ (g.removeLeftRecursion suffix).grammar.variableNames ∧
        ∀ word, (g.removeLeftRecursion suffix).grammar.Generates name word ↔
          g.Generates name word := by
  have hkeeps := obtained.wellFormed.keeps_removeLeftRecursion nonempty
  refine ⟨hkeeps.start, fun name hname => ⟨hkeeps.declared name hname, fun word => ?_⟩⟩
  rw [generates_iff_yields, generates_iff_yields]
  exact hkeeps.yields name hname word

/-- A variable with a loop, a recursive body and an empty body: `A -> A | A a | ε`. -/
def loopingList : Grammar :=
  ⟨"A", [⟨"A", [[.variable "A"], [.variable "A", .terminal (.named "a")], [.epsilon]]⟩]⟩

theorem loopingList_obtained : loopingList.Obtained :=
  .build (b := GrammarBuilder.empty.addRules "A"
    [[.variable "A"], [.variable "A", .terminal (.named "a")], []]) (.addRules _ _ .empty) (by rfl)

/-- `A` becomes `A'`, and `A'` becomes `a A' | ε`. -/
theorem removeLeftRecursion_generates_iff_loopingList :
    loopingList.Obtained ∧ "'" ≠ "" ∧
      (loopingList.removeLeftRecursion "'").grammar.start = loopingList.start ∧
      ∀ name ∈ loopingList.variableNames,
        name ∈ (loopingList.removeLeftRecursion "'").grammar.variableNames ∧
        ∀ word, (loopingList.removeLeftRecursion "'").grammar.Generates name word ↔
          loopingList.Generates name word :=
  ⟨loopingList_obtained, by decide,
    removeLeftRecursion_generates_iff loopingList_obtained (by decide)⟩

example : (loopingList.removeLeftRecursion "'").grammar =
    ⟨"A", [⟨"A", [[.variable "A'"]]⟩,
      ⟨"A'", [[.terminal (.named "a"), .variable "A'"], [.epsilon]]⟩]⟩ := by decide

end FormalLang.Grammar
