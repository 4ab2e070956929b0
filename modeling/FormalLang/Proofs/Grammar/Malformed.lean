import FormalLang.Grammar.Reader
import FormalLang.Proofs.Text.Lines

/-!
# The first bad line of a grammar

The reader stops at the first line that it cannot make a rule of.  What makes a line bad is said
here without the reader (`Malformed`), and the reader stops there and nowhere else: an error that
names a line names the first bad one, and there is such an error if there is a bad line
(`Grammar.line_of_ofText`, `Grammar.exists_line_of_ofText`).  Errors that are found when all lines
are read name no line.

The arrow that divides a line is the first one.  It is unique (`ArrowBetween.unique`), so that a
line is malformed for one division into head and bodies or for none.
-/

namespace FormalLang

open Text

variable {options : GrammarOptions} {line before after : List Char} {number : Nat}

/-! ## 1. Malformed lines -/

/-- Whether the first arrow of a line stands between two texts. -/
def ArrowBetween (line before after : List Char) : Prop :=
  line = before ++ '-' :: '>' :: after ∧ ¬['-', '>'] <:+: before

/-- Whether a text cannot be the head of a rule. -/
inductive BadHead (options : GrammarOptions) : List Char → Prop where
  | empty : BadHead options []
  | broken {head : List Char} {c : Char} (hc : c ∈ head) (hblank : isBlank c = true) :
      BadHead options head
  | endOfInput : BadHead options ['$']
  | marker {head : List Char} (h : options.isEpsilon (String.ofList head) = true) :
      BadHead options head

/-- **Whether no rule can be made of a line**: it has no arrow, something else than a head before it,
or nothing in one of the places between the bars behind it. -/
inductive Malformed (options : GrammarOptions) (line : List Char) : Prop where
  | noArrow (h : ¬['-', '>'] <:+: line)
  | badHead {before after : List Char} (harrow : ArrowBetween line before after)
      (h : BadHead options (trim before))
  | emptyBody {before after alternative : List Char} (harrow : ArrowBetween line before after)
      (h : alternative ∈ splitAt '|' after) (hblank : ∀ c ∈ alternative, isBlank c = true)

/-- Whether a line is to hold a rule: it is neither blank nor a comment. -/
structure HoldsRule (line : List Char) : Prop where
  content : trim line ≠ []
  comment : ¬['#'] <+: trim line
  slashes : ¬['/', '/'] <+: trim line

/-- **Whether a line spoils a grammar.** -/
def IsBadLine (options : GrammarOptions) (line : List Char) : Prop :=
  HoldsRule line ∧ Malformed options (trim line)

/-! ## 2. Reading a line -/

theorem splitArrow_eq_some_iff : splitArrow line = some (before, after) ↔
    ArrowBetween line before after :=
  ⟨eq_append_of_splitArrow, fun ⟨hline, hfirst⟩ => hline ▸ splitArrow_append after hfirst⟩

theorem ArrowBetween.unique {before' after' : List Char} (h : ArrowBetween line before after)
    (h' : ArrowBetween line before' after') : before = before' ∧ after = after' := by
  rw [← splitArrow_eq_some_iff] at h h'
  rw [h] at h'
  exact Prod.mk.inj (Option.some.inj h')

theorem ArrowBetween.arrow (h : ArrowBetween line before after) : ['-', '>'] <:+: line :=
  ⟨before, after, by rw [h.1, List.append_assoc]; rfl⟩

theorem not_infix_of_splitArrow : ∀ {line : List Char}, splitArrow line = none →
    ¬['-', '>'] <:+: line
  | [], _ => by simp
  | [c], _ => by simp [List.infix_cons_iff]
  | c :: d :: cs, h => by
    rw [splitArrow] at h
    split at h
    · contradiction
    · rename_i hnot
      rw [List.infix_cons_iff]
      rintro (⟨rest, hfront⟩ | hbehind)
      · obtain ⟨hc, htail⟩ := List.cons.inj hfront
        exact hnot ⟨hc.symm, (List.cons.inj htail).1.symm⟩
      · exact not_infix_of_splitArrow (Option.map_eq_none_iff.mp h) hbehind

theorem badHead_iff {head : List Char} : BadHead options head ↔
    head.isEmpty = true ∨ (head.any isBlank || String.ofList head = endOfInputText ||
      options.isEpsilon (String.ofList head)) = true := by
  rw [List.isEmpty_iff, Bool.or_eq_true, Bool.or_eq_true, List.any_eq_true, decide_eq_true_eq]
  constructor
  · rintro (_ | ⟨hc, hblank⟩ | _ | hmarker)
    · exact .inl rfl
    · exact .inr (.inl (.inl ⟨_, hc, hblank⟩))
    · exact .inr (.inl (.inr rfl))
    · exact .inr (.inr hmarker)
  · rintro (rfl | (⟨c, hc, hblank⟩ | hend) | hmarker)
    · exact .empty
    · exact .broken hc hblank
    · have hdollar : head = ['$'] := by
        rw [← String.toList_ofList (l := head), hend]
        rfl
      rw [hdollar]
      exact .endOfInput
    · exact .marker hmarker

theorem words_eq_nil_iff : ∀ {cs : List Char}, words cs = [] ↔ ∀ c ∈ cs, isBlank c = true
  | [] => ⟨fun _ => nofun, fun _ => rfl⟩
  | c :: cs => by
    rw [List.forall_mem_cons]
    cases hc : isBlank c with
    | true =>
      rw [words, if_pos hc, words_eq_nil_iff]
      exact (and_iff_right rfl).symm
    | false =>
      refine ⟨fun h => absurd h (words_ne_nil hc), fun h => ?_⟩
      cases h.1

/-- Some place between the bars is empty exactly if a body without symbols is read. -/
theorem any_isEmpty_iff : (((splitAt '|' after).map fun body =>
      (words body).map String.ofList).any List.isEmpty) = true ↔
    ∃ alternative ∈ splitAt '|' after, ∀ c ∈ alternative, isBlank c = true := by
  rw [List.any_map, List.any_eq_true]
  refine exists_congr fun alternative => and_congr_right fun _ => ?_
  rw [Function.comp_apply, List.isEmpty_iff, List.map_eq_nil_iff, words_eq_nil_iff]

namespace WrittenRule

/-- **A line is malformed or a rule is made of it**, and an error names the line. -/
theorem ofLine_cases (options : GrammarOptions) (number : Nat) (line : List Char) :
    (∃ rule, ofLine options number line = .ok rule ∧ ¬ Malformed options line) ∨
      ∃ e, ofLine options number line = .error e ∧ e.line? = some number ∧
        Malformed options line := by
  cases hcut : splitArrow line with
  | none =>
    refine .inr ⟨.missingArrow number, ?_, rfl, .noArrow (not_infix_of_splitArrow hcut)⟩
    rw [ofLine, hcut]
  | some division =>
    obtain ⟨before, after⟩ := division
    have harrow := splitArrow_eq_some_iff.mp hcut
    rw [ofLine, hcut]
    dsimp only
    split
    · rename_i hempty
      exact .inr ⟨_, rfl, rfl, .badHead harrow (badHead_iff.mpr (.inl hempty))⟩
    · rename_i hhead
      split
      · rename_i hinvalid
        exact .inr ⟨_, rfl, rfl, .badHead harrow (badHead_iff.mpr (.inr hinvalid))⟩
      · rename_i hvalid
        split
        · rename_i hbody
          obtain ⟨alternative, hmem, hblank⟩ := any_isEmpty_iff.mp hbody
          exact .inr ⟨_, rfl, rfl, .emptyBody harrow hmem hblank⟩
        · rename_i hbodies
          refine .inl ⟨_, rfl, ?_⟩
          rintro (hnone | ⟨harrow', hbad⟩ | ⟨harrow', hmem, hblank⟩)
          · exact hnone harrow.arrow
          · obtain ⟨rfl, rfl⟩ := harrow.unique harrow'
            exact (badHead_iff.mp hbad).elim hhead hvalid
          · obtain ⟨rfl, rfl⟩ := harrow.unique harrow'
            exact hbodies (any_isEmpty_iff.mpr ⟨_, hmem, hblank⟩)

/-! ## 3. Reading lines -/

theorem isSkipped_eq_false_iff : isSkipped (trim line) = false ↔ HoldsRule line := by
  have hcomment : (trim line).head? = some '#' ↔ ['#'] <+: trim line := by
    rw [List.head?_eq_some_iff]
    exact exists_congr fun rest => eq_comm
  have hslashes : (trim line).take 2 = ['/', '/'] ↔ ['/', '/'] <+: trim line := by
    rw [List.prefix_iff_eq_take, eq_comm]
    rfl
  rw [isSkipped, Bool.or_eq_false_iff, Bool.or_eq_false_iff, decide_eq_false_iff_not,
    decide_eq_false_iff_not, hcomment, hslashes, List.isEmpty_eq_false_iff]
  exact ⟨fun ⟨⟨h, h'⟩, h''⟩ => ⟨h, h', h''⟩, fun h => ⟨⟨h.content, h.comment⟩, h.slashes⟩⟩

theorem ofLines_cons_of_bad (h : IsBadLine options line) (number : Nat) (lines : List (List Char)) :
    ∃ e, ofLines options number (line :: lines) = .error e ∧ e.line? = some number := by
  rcases ofLine_cases options number (trim line) with ⟨_, -, hgood⟩ | ⟨e, he, hnumber, -⟩
  · exact absurd h.2 hgood
  · refine ⟨e, ?_, hnumber⟩
    rw [ofLines, if_neg (Bool.not_eq_true _ ▸ isSkipped_eq_false_iff.mpr h.1), he]

/-- A line that is not bad leaves the verdict to those behind it. -/
theorem ofLines_cons_of_not_bad (h : ¬ IsBadLine options line) (number : Nat)
    (lines : List (List Char)) : ∃ add, ofLines options number (line :: lines) =
      (ofLines options (number + 1) lines).map add := by
  rw [ofLines]
  split
  · refine ⟨id, ?_⟩
    cases ofLines options (number + 1) lines with
    | error e => rfl
    | ok rules => rfl
  · rename_i hskipped
    have hholds := isSkipped_eq_false_iff.mp (Bool.not_eq_true _ ▸ hskipped)
    rcases ofLine_cases options number (trim line) with ⟨rule, hrule, -⟩ | ⟨_, -, -, hbad⟩
    · refine ⟨(rule :: ·), ?_⟩
      rw [hrule]
      cases ofLines options (number + 1) lines with
      | error e => rfl
      | ok rules => rfl
    · exact absurd ⟨hholds, hbad⟩ h

/-- **The reader stops at the first bad line**, and only there. -/
theorem ofLines_cases (options : GrammarOptions) : ∀ (lines : List (List Char)) (number : Nat),
    (∃ rules, ofLines options number lines = .ok rules ∧
        ∀ line ∈ lines, ¬ IsBadLine options line) ∨
      ∃ e front line rest, ofLines options number lines = .error e ∧
        lines = front ++ line :: rest ∧ e.line? = some (number + front.length) ∧
          IsBadLine options line ∧ ∀ other ∈ front, ¬ IsBadLine options other
  | [], _ => .inl ⟨[], rfl, nofun⟩
  | line :: lines, number => by
    by_cases hbad : IsBadLine options line
    · obtain ⟨e, he, hnumber⟩ := ofLines_cons_of_bad hbad number lines
      exact .inr ⟨e, [], line, lines, he, rfl, hnumber, hbad, nofun⟩
    · obtain ⟨add, hadd⟩ := ofLines_cons_of_not_bad hbad number lines
      rcases ofLines_cases options lines (number + 1) with
        ⟨rules, hrules, hgood⟩ | ⟨e, front, next, rest, he, rfl, hnumber, hnext, hfront⟩
      · rw [hrules] at hadd
        exact .inl ⟨_, hadd, List.forall_mem_cons.mpr ⟨hbad, hgood⟩⟩
      · rw [he] at hadd
        refine .inr ⟨e, line :: front, next, rest, hadd, rfl, ?_, hnext,
          List.forall_mem_cons.mpr ⟨hbad, hfront⟩⟩
        rw [hnumber, List.length_cons, Nat.add_assoc, Nat.add_comm 1]

/-- **A line is read with its break as without.** -/
theorem ofLines_lines (options : GrammarOptions) (cs : List Char) : ∀ number,
    ofLines options number (lines cs) = ofLines options number (linesWithBreaks cs) := by
  induction cs using lines_induction with
  | last cs h =>
    intro number
    rcases cs with _ | ⟨c, cs⟩
    · rfl
    · rw [linesWithBreaks_of_not_mem (List.cons_ne_nil c cs) h, lines, splitAt_of_not_mem h]
  | cons line rest h ih =>
    intro number
    rw [lines_append h, linesWithBreaks_append h, ofLines, ofLines,
      trim_append_blanks isBlank_of_mem_break, ih]

end WrittenRule

/-! ## 4. Reading a text -/

/-- What is found when all lines are read is in no line. -/
theorem GrammarBuilder.line?_of_build {b : GrammarBuilder} {e : GrammarError}
    (h : b.build = .error e) : e.line? = none := by
  rw [build] at h
  split at h
  · obtain rfl := Except.error.inj h
    rfl
  · split at h
    · split at h
      · contradiction
      · obtain rfl := Except.error.inj h
        rfl
    · obtain rfl := Except.error.inj h
      rfl
    · contradiction

namespace Grammar

/-- **An error that names a line names the first bad one.** -/
theorem line_of_ofText {cs : List Char} {e : GrammarError} (h : ofText options cs = .error e)
    (hline : e.line? = some number) : ∃ front line rest,
      linesWithBreaks cs = front ++ line :: rest ∧ number = front.length + 1 ∧
        IsBadLine options line ∧ ∀ other ∈ front, ¬ IsBadLine options other := by
  rw [ofText, WrittenRule.ofText, WrittenRule.ofLines_lines] at h
  rcases WrittenRule.ofLines_cases options (linesWithBreaks cs) 1 with
    ⟨rules, hrules, -⟩ | ⟨e', front, line, rest, he, hlines, hnumber, hbad, hfront⟩
  · rw [hrules] at h
    rw [GrammarBuilder.line?_of_build h] at hline
    contradiction
  · rw [he] at h
    obtain rfl := Except.error.inj h
    rw [hnumber, Nat.add_comm] at hline
    exact ⟨front, line, rest, hlines, (Option.some.inj hline).symm, hbad, hfront⟩

/-- **If there is a bad line, there is an error that names one.** -/
theorem exists_line_of_ofText {cs : List Char}
    (h : ∃ line ∈ linesWithBreaks cs, IsBadLine options line) :
    ∃ e number, ofText options cs = .error e ∧ e.line? = some number := by
  obtain ⟨line, hline, hbad⟩ := h
  rw [ofText, WrittenRule.ofText, WrittenRule.ofLines_lines]
  rcases WrittenRule.ofLines_cases options (linesWithBreaks cs) 1 with
    ⟨rules, hrules, hgood⟩ | ⟨e, front, line, rest, he, -, hnumber, -, -⟩
  · exact absurd hbad (hgood line hline)
  · exact ⟨e, _, by rw [he], hnumber⟩

end Grammar

end FormalLang
