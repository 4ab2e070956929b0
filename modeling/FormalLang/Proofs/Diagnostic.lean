import FormalLang.Proofs.Grammar.Malformed
import FormalLang.Proofs.Regex.Blame

/-!
# Diagnostics mark what is wrong

A label counts bytes of the UTF-8 form of a source, while the front ends count characters and lines.
`SourceLabel.Marks` is the meaning of a label: the part that it marks is a part of the text, so that
it begins and ends between characters.

* **Expressions.**  An error is at a character, and the label marks this character
  (`Diagnostic.ofRegexError_marks`).
* **Grammars.**  An error that names a line names the first bad one, and the label marks its content
  (`Diagnostic.ofAnalysisError_marks`).  The spans count the lines with their breaks, as the reader
  does (`Diagnostic.lineSpan?_succ`).
-/

namespace FormalLang

/-- **Whether a label marks a part of a source**, given what comes before the part. -/
structure SourceLabel.Marks (label : SourceLabel) (cs before part : List Char) : Prop where
  inside : before ++ part <+: cs
  offset : label.offset = (String.ofList before).utf8ByteSize
  length : label.length = (String.ofList part).utf8ByteSize

namespace Diagnostic

variable {cs : List Char}

/-! ## 1. Expressions -/

/-- The span of a character is the character. -/
theorem marks_charSpan {c : Char} {p : Nat} (h : cs[p]? = some c) (text : String) :
    SourceLabel.Marks ⟨text, (charSpan cs p).1, (charSpan cs p).2⟩ cs (cs.take p) [c] := by
  obtain ⟨hp, hc⟩ := List.getElem?_eq_some_iff.mp h
  have hspan : charSpan cs p = (Text.byteLength (cs.take p), c.utf8Size) := by rw [charSpan, h]
  rw [hspan]
  refine ⟨?_, Text.byteLength_eq _, ?_⟩
  · rw [← hc, List.take_concat_get' cs p hp]
    exact List.take_prefix _ _
  · exact Text.byteLength_eq [c]

/-- **An error in an expression points at the right character.**

The text is blamed for the first thing that is wrong, with the passes of the front end in their
order, at a character of the text, and the label marks exactly this character. -/
theorem ofRegexError_marks {e : RegexError} (h : thompson cs = .error e ∨ syntaxTree cs = .error e)
    (hne : e ≠ .emptyExpression) :
    Blames cs e ∧ ∃ p c label, e.position? = some p ∧ p < cs.length ∧ cs[p]? = some c ∧
      (ofRegexError cs e).label = some label ∧ label.Marks cs (cs.take p) [c] := by
  have hblames := blames_of_error h hne
  obtain ⟨p, c, hposition, hc⟩ := hblames.exists_position
  refine ⟨hblames, p, c, _, hposition, (List.getElem?_eq_some_iff.mp hc).1, hc, ?_,
    marks_charSpan hc "here"⟩
  rw [ofRegexError, hposition]
  rfl

/-- The concatenation in front of an empty group is reported at the group, which begins behind two
bytes. -/
theorem ofRegexError_marks_emptyGroup :
    thompson "ä()".toList = .error (.missingOperand '.' 1) ∧
      Blames "ä()".toList (.missingOperand '.' 1) ∧
      ∃ label, (ofRegexError "ä()".toList (.missingOperand '.' 1)).label = some label ∧
        label.Marks "ä()".toList ['ä'] ['('] ∧ label.offset = 2 ∧ label.length = 1 := by
  have hread : Postfix.ofText "ä()".toList = .error (.missingOperand '.' 1) := by decide
  have hrejected : thompson "ä()".toList = .error (.missingOperand '.' 1) := by
    rw [thompson, hread]
  obtain ⟨hblames, p, c, label, hp, -, hc, hlabel, hmarks⟩ :=
    ofRegexError_marks (.inl hrejected) (by decide)
  obtain rfl := Option.some.inj hp
  obtain rfl := Option.some.inj hc
  exact ⟨hrejected, hblames, label, hlabel, hmarks, hmarks.offset, hmarks.length⟩

/-! ## 2. Grammars -/

/-- The span of a line has the content of the line. -/
theorem marks_lineSpan {front rest : List (List Char)} {line : List Char}
    (hlines : Text.linesWithBreaks cs = front ++ line :: rest) :
    ∃ span, lineSpan? cs (front.length + 1) = some span ∧ ∀ text,
      SourceLabel.Marks ⟨text, span.1, span.2⟩ cs front.flatten (Text.trimEnd line) := by
  have hline : (Text.linesWithBreaks cs)[front.length]? = some line := by
    rw [hlines, List.getElem?_append_right (Nat.le_refl _), Nat.sub_self]
    rfl
  have hfront : (Text.linesWithBreaks cs).take front.length = front := by
    rw [hlines, List.take_left]
  have hspan := lineSpan?_succ cs front.length
  rw [hline, hfront] at hspan
  refine ⟨_, hspan, fun text => ⟨?_, Text.byteLength_eq _, Text.byteLength_eq _⟩⟩
  obtain ⟨blanks, hcontent, -⟩ := Text.exists_eq_trimEnd_append line
  refine ⟨blanks ++ rest.flatten, ?_⟩
  calc front.flatten ++ Text.trimEnd line ++ (blanks ++ rest.flatten)
      = front.flatten ++ ((Text.trimEnd line ++ blanks) ++ rest.flatten) := by
        simp only [List.append_assoc]
    _ = (front ++ line :: rest).flatten := by
        rw [← hcontent, List.flatten_append, List.flatten_cons]
    _ = cs := by rw [← hlines, Text.flatten_linesWithBreaks]

/-- **An error in a grammar points at the first bad line.**

An error that names a line names the first one that is to hold a rule and is malformed, counted from
one, and there is such an error if there is such a line.  The label marks a part of the text right
behind the lines before it, which has the content of the line and is not empty. -/
theorem ofAnalysisError_marks (options : GrammarOptions) (name : String) (cs : List Char) :
    (∀ e number, Grammar.ofText options cs = .error e → e.line? = some number →
      ∃ front line rest, Text.linesWithBreaks cs = front ++ line :: rest ∧
        number = front.length + 1 ∧ IsBadLine options line ∧
        (∀ other ∈ front, ¬ IsBadLine options other) ∧
        ∃ label part, (ofAnalysisError name cs (.grammar e)).label = some label ∧
          label.Marks cs front.flatten part ∧ Text.trim part = Text.trim line ∧
          Text.trim line ≠ []) ∧
    ((∃ line ∈ Text.linesWithBreaks cs, IsBadLine options line) →
      ∃ e number, Grammar.ofText options cs = .error e ∧ e.line? = some number) := by
  refine ⟨fun e number he hnumber => ?_, Grammar.exists_line_of_ofText⟩
  obtain ⟨front, line, rest, hlines, rfl, hbad, hfront⟩ := Grammar.line_of_ofText he hnumber
  obtain ⟨span, hspan, hmarks⟩ := marks_lineSpan hlines
  refine ⟨front, line, rest, hlines, rfl, hbad, hfront, _, _, ?_, hmarks "this line",
    Text.trim_trimEnd line, hbad.1.content⟩
  rw [ofAnalysisError, ofGrammarError, hnumber, Option.bind_some, hspan]
  rfl

/-- A grammar whose lines end in one character, in two, and in none. -/
def mixedBreaks : List Char := "// ä\r\n\nA -> x\r\n ü -> | y".toList

/-- The last line is marked, behind a comment, an empty line and a rule. -/
theorem ofAnalysisError_marks_mixedBreaks :
    Grammar.ofText .default mixedBreaks = .error (.emptyBody 4) ∧ ∃ label part,
      (ofAnalysisError "stdin" mixedBreaks (.grammar (.emptyBody 4))).label = some label ∧
        label.Marks mixedBreaks "// ä\r\n\nA -> x\r\n".toList part ∧
        Text.trim part = "ü -> | y".toList := by
  have hread : Grammar.ofText .default mixedBreaks = .error (.emptyBody 4) := by decide
  have hcut : Text.linesWithBreaks mixedBreaks =
      ["// ä\r\n".toList, ['\n'], "A -> x\r\n".toList] ++ [" ü -> | y".toList] := by decide
  obtain ⟨hfirst, -⟩ := ofAnalysisError_marks .default "stdin" mixedBreaks
  obtain ⟨front, line, rest, hlines, hnumber, -, -, label, part, hlabel, hmarks, htrim, -⟩ :=
    hfirst _ _ hread rfl
  rw [hcut] at hlines
  obtain ⟨rfl, hline⟩ := List.append_inj hlines (Nat.succ.inj hnumber)
  obtain ⟨rfl, -⟩ := List.cons.inj hline
  exact ⟨hread, label, part, hlabel, hmarks, htrim⟩

end Diagnostic

end FormalLang
