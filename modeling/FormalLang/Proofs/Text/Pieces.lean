import FormalLang.Text.Blank
import FormalLang.Text.Layout
import Mathlib.Data.List.Infix

/-!
# Cutting undoes joining

A text that is put together from pieces is cut into the same pieces again: words joined by blanks
(`words_joinWith`), texts joined by bars (`map_words_splitAt_joinWith`), lines (`lines_unlines`),
and the two sides of an arrow (`splitArrow_append`).

**What a piece must not contain.**  A piece comes back unchanged only if the cut does not fall into
it, so that each statement asks that it has no separator.  In the other direction each cut says what
its pieces do not contain (`unbroken_of_mem_words`, `not_mem_of_mem_splitAt`,
`eq_append_of_splitArrow`).
-/

namespace FormalLang.Text

variable {c separator : Char} {cs ds w piece before after : List Char}

/-! ## 1. Pieces -/

theorem extendFirst_append {pieces : List (List Char)} (h : pieces ≠ []) (c : Char)
    (rest : List (List Char)) : extendFirst c (pieces ++ rest) = extendFirst c pieces ++ rest := by
  obtain ⟨piece, pieces, rfl⟩ := List.exists_cons_of_ne_nil h
  rfl

theorem mem_extendFirst_iff {pieces : List (List Char)} (h : pieces ≠ []) :
    piece ∈ extendFirst c pieces ↔ piece = c :: pieces.head h ∨ piece ∈ pieces.tail := by
  obtain ⟨first, pieces, rfl⟩ := List.exists_cons_of_ne_nil h
  exact List.mem_cons

theorem splitAt_ne_nil (separator : Char) : ∀ cs : List Char, splitAt separator cs ≠ []
  | [] => List.cons_ne_nil _ _
  | c :: cs => by
    rw [splitAt]
    split
    · exact List.cons_ne_nil _ _
    · obtain ⟨piece, pieces, h⟩ := List.exists_cons_of_ne_nil (splitAt_ne_nil separator cs)
      rw [h]
      exact List.cons_ne_nil _ _

/-- **A separator cuts a text in two.** -/
theorem splitAt_append (separator : Char) : ∀ cs ds : List Char,
    splitAt separator (cs ++ separator :: ds) = splitAt separator cs ++ splitAt separator ds
  | [], ds => by simp [splitAt]
  | c :: cs, ds => by
    rw [List.cons_append, splitAt, splitAt, splitAt_append separator cs ds]
    split
    · rfl
    · exact extendFirst_append (splitAt_ne_nil separator cs) c _

theorem splitAt_of_not_mem : ∀ {cs : List Char}, separator ∉ cs → splitAt separator cs = [cs]
  | [], _ => rfl
  | c :: cs, h => by
    rw [List.mem_cons, not_or] at h
    rw [splitAt, if_neg fun heq => h.1 heq.symm, splitAt_of_not_mem h.2]
    rfl

/-- The separator is in none of the pieces, and they have the characters of the text. -/
theorem not_mem_of_mem_splitAt : ∀ {cs piece : List Char}, piece ∈ splitAt separator cs →
    separator ∉ piece ∧ ∀ c ∈ piece, c ∈ cs
  | [], piece, h => by
    obtain rfl := List.mem_singleton.mp h
    exact ⟨List.not_mem_nil, nofun⟩
  | d :: cs, piece, h => by
    have hne := splitAt_ne_nil separator cs
    rw [splitAt] at h
    split at h
    · rcases List.mem_cons.mp h with rfl | h
      · exact ⟨List.not_mem_nil, nofun⟩
      · obtain ⟨hnot, hsub⟩ := not_mem_of_mem_splitAt h
        exact ⟨hnot, fun c hc => List.mem_cons_of_mem _ (hsub c hc)⟩
    · rename_i hd
      rcases (mem_extendFirst_iff hne).mp h with rfl | h
      · obtain ⟨hnot, hsub⟩ := not_mem_of_mem_splitAt (List.head_mem hne)
        refine ⟨?_, fun c hc => ?_⟩
        · rw [List.mem_cons, not_or]
          exact ⟨fun heq => hd heq.symm, hnot⟩
        · rcases List.mem_cons.mp hc with rfl | hc
          · exact List.mem_cons_self
          · exact List.mem_cons_of_mem _ (hsub c hc)
      · obtain ⟨hnot, hsub⟩ := not_mem_of_mem_splitAt (List.mem_of_mem_tail h)
        exact ⟨hnot, fun c hc => List.mem_cons_of_mem _ (hsub c hc)⟩

/-! ## 2. Words -/

/-- Whether a text is a word: it is not empty and has no white space. -/
def Unbroken (cs : List Char) : Prop := cs ≠ [] ∧ ∀ c ∈ cs, isBlank c = false

theorem words_cons_of_unbroken (hc : isBlank c = false) (cs : List Char) : words (c :: cs) =
    if cs.head?.all isBlank then [c] :: words cs else extendFirst c (words cs) := by
  rw [words, if_neg (by simp [hc])]

theorem words_ne_nil : ∀ {cs : List Char}, cs.head?.all isBlank = false → words cs ≠ []
  | [], h => nomatch h
  | c :: cs, h => by
    rw [words_cons_of_unbroken h]
    split
    · exact List.cons_ne_nil _ _
    · rename_i hnext
      obtain ⟨w, ws, hw⟩ := List.exists_cons_of_ne_nil (words_ne_nil (Bool.not_eq_true _ ▸ hnext))
      rw [hw]
      exact List.cons_ne_nil _ _

/-- **White space separates words.** -/
theorem words_append (hblank : isBlank c = true) (ds : List Char) :
    ∀ cs : List Char, words (cs ++ c :: ds) = words cs ++ words ds
  | [] => by simp [words, hblank]
  | d :: cs => by
    have ih := words_append hblank ds cs
    have hnext : (cs ++ c :: ds).head?.all isBlank = cs.head?.all isBlank := by
      cases cs with
      | nil => exact hblank
      | cons e cs => rfl
    cases hd : isBlank d with
    | true => simp [words, hd, ih]
    | false =>
      rw [List.cons_append, words_cons_of_unbroken hd, words_cons_of_unbroken hd, hnext, ih]
      split
      · rfl
      · rename_i hstarts
        exact extendFirst_append (words_ne_nil (Bool.not_eq_true _ ▸ hstarts)) d _

theorem words_of_unbroken : ∀ {w : List Char}, Unbroken w → words w = [w]
  | [], h => absurd rfl h.1
  | [c], h => by
    rw [words_cons_of_unbroken (h.2 c List.mem_cons_self)]
    rfl
  | c :: d :: w, h => by
    have hrest : Unbroken (d :: w) :=
      ⟨List.cons_ne_nil _ _, fun c hc => h.2 c (List.mem_cons_of_mem _ hc)⟩
    have hd : isBlank d = false := hrest.2 d List.mem_cons_self
    rw [words_cons_of_unbroken (h.2 c List.mem_cons_self), words_of_unbroken hrest]
    simp [hd, extendFirst]

/-- The pieces between white space are words, with the characters of the text. -/
theorem unbroken_of_mem_words : ∀ {cs w : List Char}, w ∈ words cs →
    Unbroken w ∧ ∀ c ∈ w, c ∈ cs
  | c :: cs, w, h => by
    have hrest : ∀ {w : List Char}, w ∈ words cs → Unbroken w ∧ ∀ d ∈ w, d ∈ c :: cs := by
      intro w hw
      obtain ⟨hunbroken, hsub⟩ := unbroken_of_mem_words hw
      exact ⟨hunbroken, fun d hd => List.mem_cons_of_mem _ (hsub d hd)⟩
    cases hc : isBlank c with
    | true =>
      rw [words, if_pos hc] at h
      exact hrest h
    | false =>
      rw [words_cons_of_unbroken hc] at h
      split at h
      · rcases List.mem_cons.mp h with rfl | h
        · exact ⟨⟨List.cons_ne_nil _ _, by simpa using hc⟩, by simp⟩
        · exact hrest h
      · rename_i hstarts
        have hne := words_ne_nil (Bool.not_eq_true _ ▸ hstarts)
        rcases (mem_extendFirst_iff hne).mp h with rfl | h
        · obtain ⟨⟨-, hfirst⟩, hsub⟩ := hrest (List.head_mem hne)
          refine ⟨⟨List.cons_ne_nil _ _, fun d hd => ?_⟩, fun d hd => ?_⟩
          · rcases List.mem_cons.mp hd with rfl | hd
            · exact hc
            · exact hfirst d hd
          · rcases List.mem_cons.mp hd with rfl | hd
            · exact List.mem_cons_self
            · exact hsub d hd
        · exact hrest (List.mem_of_mem_tail h)

/-! ## 3. Both ends -/

theorem trimStart_of_head (h : ∀ c ∈ cs.head?, isBlank c = false) : trimStart cs = cs := by
  cases cs with
  | nil => rfl
  | cons c cs => exact List.dropWhile_cons_of_neg (by simp [h c rfl])

theorem trimEnd_append (hblank : isBlank c = true) (cs : List Char) :
    trimEnd (cs ++ [c]) = trimEnd cs := by
  simp [trimEnd, hblank]

theorem trimEnd_of_getLast (h : ∀ c ∈ cs.getLast?, isBlank c = false) : trimEnd cs = cs := by
  have hreverse : trimStart cs.reverse = cs.reverse :=
    trimStart_of_head (by rwa [List.head?_reverse])
  rw [trimStart] at hreverse
  rw [trimEnd, hreverse, List.reverse_reverse]

/-- A text with no white space at its ends is trimmed. -/
theorem trim_eq_self (hfirst : ∀ c ∈ cs.head?, isBlank c = false)
    (hlast : ∀ c ∈ cs.getLast?, isBlank c = false) : trim cs = cs := by
  rw [trim, trimStart_of_head hfirst, trimEnd_of_getLast hlast]

/-- One blank behind a word is cut off. -/
theorem trim_append_blank (hblank : isBlank c = true) (h : Unbroken cs) :
    trim (cs ++ [c]) = cs := by
  have hfirst : ∀ d ∈ (cs ++ [c]).head?, isBlank d = false := by
    intro d hd
    rw [List.head?_append_of_ne_nil _ h.1] at hd
    exact h.2 d (List.mem_of_head? hd)
  rw [trim, trimStart_of_head hfirst, trimEnd_append hblank]
  exact trimEnd_of_getLast fun d hd => h.2 d (List.mem_of_getLast? hd)

/-- What is left at the front is no white space. -/
theorem head_trim_of_mem (h : c ∈ (trim cs).head?) : isBlank c = false := by
  have hfront : trim cs <+: trimStart cs := by
    rw [trim, trimEnd, ← List.reverse_suffix, List.reverse_reverse]
    exact List.dropWhile_suffix _
  have hhead : c ∈ (trimStart cs).head? := by
    obtain ⟨rest, hrest⟩ := hfront
    rw [← hrest]
    exact List.mem_head?_append_of_mem_head? h
  rw [trimStart] at hhead
  have := List.head?_dropWhile_not isBlank cs
  grind

/-- White space at the end alone is cut off from a text that begins with something else. -/
theorem trim_prefix (h : ∀ c ∈ cs.head?, isBlank c = false) : trim cs <+: cs := by
  rw [trim, trimStart_of_head h, trimEnd, ← List.reverse_suffix, List.reverse_reverse]
  exact List.dropWhile_suffix _

/-! ## 4. Arrows -/

/-- **The first arrow divides a text.** -/
theorem splitArrow_append (after : List Char) : ∀ {before : List Char},
    ¬['-', '>'] <:+: before → splitArrow (before ++ '-' :: '>' :: after) = some (before, after)
  | [], _ => rfl
  | [c], _ => by simp [splitArrow]
  | c :: d :: before, h => by
    rw [List.infix_cons_iff, not_or] at h
    have hnot : ¬(c = '-' ∧ d = '>') := by
      rintro ⟨rfl, rfl⟩
      exact h.1 ⟨before, rfl⟩
    have hrest := splitArrow_append after h.2
    rw [List.cons_append, List.cons_append, splitArrow, if_neg hnot, ← List.cons_append, hrest]
    rfl

/-- A text is divided at an arrow, and there is none before it. -/
theorem eq_append_of_splitArrow : ∀ {cs before after : List Char},
    splitArrow cs = some (before, after) →
      cs = before ++ '-' :: '>' :: after ∧ ¬['-', '>'] <:+: before
  | [], _, _, h => nomatch h
  | [_], _, _, h => nomatch h
  | c :: d :: cs, before, after, h => by
    rw [splitArrow] at h
    split at h
    · rename_i harrow
      obtain ⟨rfl, rfl⟩ := harrow
      obtain ⟨rfl, rfl⟩ := Prod.mk.inj (Option.some.inj h)
      exact ⟨rfl, by simp⟩
    · rename_i hnot
      obtain ⟨⟨front, back⟩, hrest, heq⟩ := Option.map_eq_some_iff.mp h
      obtain ⟨rfl, rfl⟩ := Prod.mk.inj heq
      obtain ⟨hcs, hfront⟩ := eq_append_of_splitArrow hrest
      refine ⟨congrArg (c :: ·) hcs, ?_⟩
      rw [List.infix_cons_iff, not_or]
      refine ⟨fun ⟨rest, hrest⟩ => hnot ?_, hfront⟩
      obtain ⟨rfl, rfl⟩ := List.cons.inj hrest
      exact ⟨rfl, (List.cons.inj hcs).1⟩

/-- A character other than the tip does not complete an arrow. -/
theorem not_arrow_append (hc : c ≠ '>') (h : ¬['-', '>'] <:+: cs) : ¬['-', '>'] <:+: cs ++ [c] := by
  rw [List.infix_concat_iff, not_or]
  refine ⟨fun ⟨front, hfront⟩ => hc ?_, h⟩
  have hlast : front ++ ['-'] ++ ['>'] = cs ++ [c] := by
    rw [← hfront, List.append_assoc]
    rfl
  exact (List.cons.inj (List.append_inj' hlast rfl).2).1.symm

/-! ## 5. Joined texts -/

theorem toList_joinWith_cons (separator part next : String) (rest : List String) :
    (joinWith separator (part :: next :: rest)).toList =
      part.toList ++ separator.toList ++ (joinWith separator (next :: rest)).toList := by
  rw [joinWith, String.toList_append, String.toList_append]
  exact nofun

theorem mem_joinWith {c : Char} {separator : String} : ∀ {parts : List String},
    c ∈ (joinWith separator parts).toList →
      c ∈ separator.toList ∨ ∃ part ∈ parts, c ∈ part.toList
  | [], h => nomatch h
  | [part], h => .inr ⟨part, List.mem_cons_self, h⟩
  | part :: next :: rest, h => by
    rw [toList_joinWith_cons, List.mem_append, List.mem_append] at h
    rcases h with (h | h) | h
    · exact .inr ⟨part, List.mem_cons_self, h⟩
    · exact .inl h
    · exact (mem_joinWith h).imp_right fun ⟨other, hother, h⟩ =>
        ⟨other, List.mem_cons_of_mem _ hother, h⟩

/-- **Words that are joined by blanks are found again.** -/
theorem words_joinWith : ∀ {parts : List String}, (∀ part ∈ parts, Unbroken part.toList) →
    words (joinWith " " parts).toList = parts.map String.toList
  | [], _ => rfl
  | [part], h => words_of_unbroken (h part List.mem_cons_self)
  | part :: next :: rest, h => by
    have hblank : isBlank ' ' = true := by decide
    have hrest := words_joinWith fun part hpart => h part (List.mem_cons_of_mem _ hpart)
    have hcut : (joinWith " " (part :: next :: rest)).toList =
        part.toList ++ ' ' :: (joinWith " " (next :: rest)).toList := by
      rw [toList_joinWith_cons]
      simp
    rw [hcut, words_append hblank, words_of_unbroken (h part List.mem_cons_self), hrest]
    rfl

/-- **Texts that are joined by bars are found again**, up to the white space around them. -/
theorem map_words_splitAt_joinWith : ∀ {parts : List String}, parts ≠ [] →
    (∀ part ∈ parts, '|' ∉ part.toList) →
    (splitAt '|' (' ' :: (joinWith " | " parts).toList)).map words =
      parts.map fun part => words part.toList
  | [], h, _ => absurd rfl h
  | [part], _, h => by
    have hpart : '|' ∉ ' ' :: part.toList := by
      simpa using h part List.mem_cons_self
    rw [joinWith, splitAt_of_not_mem hpart]
    rfl
  | part :: next :: rest, _, h => by
    have hblank : isBlank ' ' = true := by decide
    have hpart : '|' ∉ ' ' :: part.toList ++ [' '] := by
      simpa using h part List.mem_cons_self
    have hrest := map_words_splitAt_joinWith (List.cons_ne_nil next rest) fun part hpart =>
      h part (List.mem_cons_of_mem _ hpart)
    have hcut : ' ' :: (joinWith " | " (part :: next :: rest)).toList =
        (' ' :: part.toList ++ [' ']) ++ '|' :: ' ' :: (joinWith " | " (next :: rest)).toList := by
      rw [toList_joinWith_cons]
      simp
    have hwords : words (' ' :: part.toList ++ [' ']) = words part.toList := by
      rw [words_append hblank [] _]
      simp [words, hblank]
    rw [hcut, splitAt_append, splitAt_of_not_mem hpart, List.map_append, hrest, List.map_singleton,
      hwords]
    rfl

/-- **Lines are found again**, and behind the last line break there is an empty one. -/
theorem lines_unlines : ∀ {parts : List String}, (∀ part ∈ parts, '\n' ∉ part.toList) →
    lines (unlines parts).toList = parts.map String.toList ++ [[]]
  | [], _ => rfl
  | part :: rest, h => by
    have hrest := lines_unlines fun part hpart => h part (List.mem_cons_of_mem _ hpart)
    have hcut : (unlines (part :: rest)).toList = part.toList ++ '\n' :: (unlines rest).toList := by
      rw [unlines, String.toList_append, String.toList_append, List.append_assoc]
      rfl
    rw [lines, hcut, splitAt_append, splitAt_of_not_mem (h part List.mem_cons_self)]
    exact congrArg _ hrest

end FormalLang.Text
