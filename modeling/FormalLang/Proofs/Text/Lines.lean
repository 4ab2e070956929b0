import FormalLang.Diagnostic
import FormalLang.Proofs.Text.Pieces
import Mathlib.Data.List.TakeWhile

/-!
# Lines and the breaks between them

The reader of a grammar counts the pieces between the line breaks, and the diagnostics add up the
lengths of what comes before a line.  Here both are related to one way of cutting a text: behind
each line break (`linesWithBreaks`), so that the pieces make up the text again
(`flatten_linesWithBreaks`).

A line has the same content with its break as without, because a line break, and a carriage return
before it, is white space.  What is said of all texts is proved from the last line backwards
(`lines_induction`): a text has no line break, or its first line comes before another text.
-/

namespace FormalLang

namespace Text

variable {cs line rest : List Char}

/-! ## 1. Lines with their breaks -/

/-- The lines of a text, each one with the line break that ends it, if one does. -/
def linesWithBreaks : List Char → List (List Char)
  | [] => []
  | c :: cs => if c = '\n' then [c] :: linesWithBreaks cs else extendFirst c (linesWithBreaks cs)

theorem flatten_extendFirst (c : Char) (pieces : List (List Char)) :
    (extendFirst c pieces).flatten = c :: pieces.flatten := by
  cases pieces with
  | nil => rfl
  | cons piece pieces => rfl

/-- **The lines make up the text.** -/
theorem flatten_linesWithBreaks : ∀ cs : List Char, (linesWithBreaks cs).flatten = cs
  | [] => rfl
  | c :: cs => by
    rw [linesWithBreaks]
    split
    · exact congrArg (c :: ·) (flatten_linesWithBreaks cs)
    · rw [flatten_extendFirst, flatten_linesWithBreaks cs]

theorem linesWithBreaks_of_not_mem : ∀ {cs : List Char}, cs ≠ [] → '\n' ∉ cs →
    linesWithBreaks cs = [cs]
  | [c], _, h => by
    rw [linesWithBreaks, if_neg (List.ne_of_not_mem_cons h).symm]
    rfl
  | c :: d :: cs, _, h => by
    rw [linesWithBreaks, if_neg (List.ne_of_not_mem_cons h).symm,
      linesWithBreaks_of_not_mem (List.cons_ne_nil d cs) (List.not_mem_of_not_mem_cons h)]
    rfl

/-- **The first line and the others.** -/
theorem linesWithBreaks_append : ∀ {line : List Char}, '\n' ∉ line → ∀ rest,
    linesWithBreaks (line ++ '\n' :: rest) = (line ++ ['\n']) :: linesWithBreaks rest
  | [], _, rest => by
    rw [List.nil_append, linesWithBreaks, if_pos rfl]
    rfl
  | c :: line, h, rest => by
    rw [List.cons_append, linesWithBreaks, if_neg (List.ne_of_not_mem_cons h).symm,
      linesWithBreaks_append (List.not_mem_of_not_mem_cons h) rest]
    rfl

theorem lines_append (h : '\n' ∉ line) (rest : List Char) :
    lines (line ++ '\n' :: rest) = line :: lines rest := by
  rw [lines, splitAt_append, splitAt_of_not_mem h]
  rfl

/-- What holds of texts in one line, and of a text if it holds behind its first line, holds of all
texts. -/
theorem lines_induction {P : List Char → Prop} (last : ∀ cs, '\n' ∉ cs → P cs)
    (cons : ∀ line rest, '\n' ∉ line → P rest → P (line ++ '\n' :: rest)) (cs : List Char) :
    P cs := by
  by_cases h : '\n' ∈ cs
  · obtain ⟨line, rest, hcs, hline⟩ := List.eq_append_cons_of_mem h
    have hshorter : rest.length < cs.length := by
      rw [hcs, List.length_append, List.length_cons]
      omega
    rw [hcs]
    exact cons line rest hline (lines_induction last cons rest)
  · exact last cs h
termination_by cs.length

/-! ## 2. Content -/

theorem trimEnd_append_blanks {blanks : List Char} (h : ∀ c ∈ blanks, isBlank c = true)
    (cs : List Char) : trimEnd (cs ++ blanks) = trimEnd cs := by
  have hreverse : ∀ c ∈ blanks.reverse, isBlank c = true :=
    fun c hc => h c (List.mem_reverse.mp hc)
  rw [trimEnd, trimEnd, List.reverse_append, List.dropWhile_append_of_pos hreverse]

/-- **White space at the end does not belong to the content.** -/
theorem trim_append_blanks {blanks : List Char} (h : ∀ c ∈ blanks, isBlank c = true)
    (cs : List Char) : trim (cs ++ blanks) = trim cs := by
  rw [trim, trim, trimStart, trimStart, List.dropWhile_append]
  split
  · rename_i hnothing
    rw [List.isEmpty_iff.mp hnothing, List.dropWhile_eq_nil_iff.mpr h]
  · exact trimEnd_append_blanks h _

theorem exists_eq_trimEnd_append (cs : List Char) :
    ∃ blanks, cs = trimEnd cs ++ blanks ∧ ∀ c ∈ blanks, isBlank c = true := by
  refine ⟨(cs.reverse.takeWhile isBlank).reverse, ?_, fun c hc => ?_⟩
  · rw [trimEnd, ← List.reverse_append, List.takeWhile_append_dropWhile, List.reverse_reverse]
  · exact List.mem_takeWhile_imp (List.mem_reverse.mp hc)

theorem trim_trimEnd (cs : List Char) : trim (trimEnd cs) = trim cs := by
  obtain ⟨blanks, hcs, hblanks⟩ := exists_eq_trimEnd_append cs
  have htrim := trim_append_blanks hblanks (trimEnd cs)
  rwa [← hcs, eq_comm] at htrim

theorem isBlank_of_mem_break : ∀ c ∈ ['\n'], isBlank c = true :=
  List.forall_mem_singleton.mpr (by decide)

/-- The length of a text in UTF-8 is that of the string. -/
theorem byteLength_eq (cs : List Char) : byteLength cs = (String.ofList cs).utf8ByteSize := by
  induction cs with
  | nil => rfl
  | cons c cs ih =>
    rw [byteLength, ih, String.ofList_cons, String.utf8ByteSize_append, String.utf8ByteSize_singleton]

theorem byteLength_append (cs ds : List Char) :
    byteLength (cs ++ ds) = byteLength cs + byteLength ds := by
  rw [byteLength_eq, byteLength_eq, byteLength_eq, String.ofList_append, String.utf8ByteSize_append]

end Text

/-! ## 3. The spans of lines -/

namespace Diagnostic

open Text

theorem sourceLines_append {line : List Char} (h : '\n' ∉ line) (rest : List Char) :
    sourceLines (line ++ '\n' :: rest) = line :: sourceLines rest := by
  have hne : lines rest ≠ [] := splitAt_ne_nil _ _
  have hlast : (line :: lines rest).getLast? = (lines rest).getLast? := by
    obtain ⟨next, others, hnext⟩ := List.exists_cons_of_ne_nil hne
    rw [hnext, List.getLast?_cons_cons]
  rw [sourceLines, sourceLines, lines_append h, hlast]
  split
  · exact List.dropLast_cons_of_ne_nil hne
  · rfl

/-- The spans behind the first line are moved by its length. -/
theorem lineSpan?_append {line : List Char} (h : '\n' ∉ line) (rest : List Char) (n : Nat) :
    lineSpan? (line ++ '\n' :: rest) (n + 2) = (lineSpan? rest (n + 1)).map fun span =>
      (byteLength (line ++ ['\n']) + span.1, span.2) := by
  rw [lineSpan?, lineSpan?, sourceLines_append h, List.getElem?_cons_succ, Option.map_map]
  refine congrArg (fun f => Option.map f _) (funext fun piece => ?_)
  rw [List.take_succ_cons, List.flatMap_cons, byteLength_append]
  rfl

/-- **The span of a line** begins behind the lines before it and ends with its content. -/
theorem lineSpan?_succ (cs : List Char) : ∀ n, lineSpan? cs (n + 1) =
    (linesWithBreaks cs)[n]?.map fun line =>
      (byteLength ((linesWithBreaks cs).take n).flatten, byteLength (trimEnd line)) := by
  induction cs using lines_induction with
  | last cs h =>
    intro n
    rcases cs with _ | ⟨c, cs⟩
    · rfl
    · have hlines : lines (c :: cs) = [c :: cs] := splitAt_of_not_mem h
      have hsource : sourceLines (c :: cs) = [c :: cs] := by
        rw [sourceLines, hlines]
        rfl
      rw [lineSpan?, linesWithBreaks_of_not_mem (List.cons_ne_nil c cs) h, hsource]
      cases n with
      | zero => rfl
      | succ n => rfl
  | cons line rest h ih =>
    intro n
    rw [linesWithBreaks_append h]
    cases n with
    | zero =>
      rw [lineSpan?, sourceLines_append h]
      simp only [List.getElem?_cons_zero, Option.map_some, trimEnd_append_blanks
        isBlank_of_mem_break]
      rfl
    | succ n =>
      rw [lineSpan?_append h, ih, List.getElem?_cons_succ, Option.map_map]
      refine congrArg (fun f => Option.map f _) (funext fun piece => ?_)
      rw [List.take_succ_cons, List.flatten_cons, byteLength_append (line ++ ['\n'])]
      rfl

end Diagnostic

end FormalLang
