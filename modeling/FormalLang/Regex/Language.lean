import FormalLang.Regex.Basic

/-!
# The language of a regular expression

`Regex.Matches e w` says that the word `w` belongs to the language of `e`: a leaf denotes its word,
juxtaposition concatenates, `|` is the union and `*` repeats any number of times.  It is a relation
and not a matcher, so that the automata can be compared with it.
-/

namespace FormalLang

/-- Whether a word belongs to the language of an expression. -/
inductive Regex.Matches : Regex → List Char → Prop where
  | leaf (s : Leaf) : Matches (.leaf s) s.word
  | concat {l r : Regex} {u v : List Char} (hl : Matches l u) (hr : Matches r v) :
      Matches (.concat l r) (u ++ v)
  | unionLeft {l r : Regex} {w : List Char} (h : Matches l w) : Matches (.union l r) w
  | unionRight {l r : Regex} {w : List Char} (h : Matches r w) : Matches (.union l r) w
  | starNil {e : Regex} : Matches (.star e) []
  | starCons {e : Regex} {u v : List Char} (h : Matches e u) (hs : Matches (.star e) v) :
      Matches (.star e) (u ++ v)

namespace Regex

theorem matches_leaf_iff {s : Leaf} {w : List Char} : Matches (.leaf s) w ↔ w = s.word := by
  constructor
  · rintro ⟨⟩
    rfl
  · rintro rfl
    exact .leaf s

theorem matches_concat_iff {l r : Regex} {w : List Char} :
    Matches (.concat l r) w ↔ ∃ u v, w = u ++ v ∧ Matches l u ∧ Matches r v := by
  constructor
  · rintro (_ | ⟨hl, hr⟩)
    exact ⟨_, _, rfl, hl, hr⟩
  · rintro ⟨u, v, rfl, hl, hr⟩
    exact .concat hl hr

theorem matches_union_iff {l r : Regex} {w : List Char} :
    Matches (.union l r) w ↔ Matches l w ∨ Matches r w := by
  constructor
  · rintro (_ | _ | h | h)
    · exact .inl h
    · exact .inr h
  · rintro (h | h)
    · exact .unionLeft h
    · exact .unionRight h

theorem matches_star_iff {e : Regex} {w : List Char} :
    Matches (.star e) w ↔
      w = [] ∨ ∃ u v, w = u ++ v ∧ Matches e u ∧ Matches (.star e) v := by
  constructor
  · rintro (_ | _ | _ | _ | _ | ⟨h, hs⟩)
    · exact .inl rfl
    · exact .inr ⟨_, _, rfl, h, hs⟩
  · rintro (rfl | ⟨u, v, rfl, h, hs⟩)
    · exact .starNil
    · exact .starCons h hs

end Regex

end FormalLang
