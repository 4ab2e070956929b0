import FormalLang.Grammar.Derivation

/-!
# What a sentential form yields

`Derives` replaces variables anywhere in a form and in any order.  For words of terminals the order
does not matter, and `Yields` fixes it: it reads a form from the left, takes a terminal off the word
or replaces the variable in front.

* `generates_iff_yields`: the two say the same about the words of a variable.
* `yields_append_iff`: a form yields a word exactly if its parts yield parts of the word.
* `Yields.spells`: what a variable yields is the **least** solution of the rules.  Whoever assigns a
  language to every variable and respects every rule has assigned at least what is yielded.

The last one is how grammars are compared: to bound the words of one grammar, read its variables as
languages that another grammar defines.
-/

namespace FormalLang.Grammar

/-! ## 1. Reading a form from the left -/

/-- Whether a form yields a word: variables are replaced from the left. -/
inductive Yields (g : Grammar) : List Goal → List Terminal → Prop where
  | nil : Yields g [] []
  | take {t : Terminal} {form : List Goal} {word : List Terminal} (rest : Yields g form word) :
      Yields g (.terminal t :: form) (t :: word)
  | expand {name : String} {body : Body} {form : List Goal} {word : List Terminal}
      (rule : body ∈ g.bodiesOf name) (rest : Yields g (body.goals ++ form) word) :
      Yields g (.variable name :: form) word

variable {g : Grammar}

theorem yields_nil_iff {word : List Terminal} : g.Yields [] word ↔ word = [] := by
  constructor
  · rintro ⟨⟩
    rfl
  · rintro rfl
    exact .nil

theorem yields_terminal_cons_iff {t : Terminal} {form : List Goal} {word : List Terminal} :
    g.Yields (.terminal t :: form) word ↔ ∃ rest, word = t :: rest ∧ g.Yields form rest := by
  constructor
  · rintro (_ | h | _)
    exact ⟨_, rfl, h⟩
  · rintro ⟨rest, rfl, h⟩
    exact .take h

theorem yields_variable_cons_iff {name : String} {form : List Goal} {word : List Terminal} :
    g.Yields (.variable name :: form) word ↔
      ∃ body ∈ g.bodiesOf name, g.Yields (body.goals ++ form) word := by
  constructor
  · rintro (_ | _ | ⟨rule, h⟩)
    exact ⟨_, rule, h⟩
  · rintro ⟨body, rule, h⟩
    exact .expand rule h

/-- A form of terminals yields itself. -/
theorem yields_map_terminal : ∀ word : List Terminal, g.Yields (word.map .terminal) word
  | [] => .nil
  | _ :: word => .take (yields_map_terminal word)

/-! ## 2. Parts of a form -/

theorem Yields.append {front back : List Goal} {u v : List Terminal} (hu : g.Yields front u)
    (hv : g.Yields back v) : g.Yields (front ++ back) (u ++ v) := by
  induction hu with
  | nil => exact hv
  | take _ ih => exact .take ih
  | expand rule _ ih =>
    rw [List.append_assoc] at ih
    exact .expand rule ih

theorem Yields.split {form : List Goal} {word : List Terminal} (h : g.Yields form word) :
    ∀ front back : List Goal, form = front ++ back →
      ∃ u v, word = u ++ v ∧ g.Yields front u ∧ g.Yields back v := by
  induction h with
  | nil =>
    intro front back heq
    obtain ⟨rfl, rfl⟩ := List.nil_eq_append_iff.mp heq
    exact ⟨[], [], rfl, .nil, .nil⟩
  | @take t form word rest ih =>
    intro front back heq
    rcases front with _ | ⟨goal, front⟩
    · subst heq
      exact ⟨[], t :: word, rfl, .nil, .take rest⟩
    · obtain ⟨rfl, rfl⟩ := List.cons.inj heq
      obtain ⟨u, v, rfl, hu, hv⟩ := ih front back rfl
      exact ⟨t :: u, v, rfl, .take hu, hv⟩
  | @expand name body form word rule rest ih =>
    intro front back heq
    rcases front with _ | ⟨goal, front⟩
    · subst heq
      exact ⟨[], word, rfl, .nil, .expand rule rest⟩
    · obtain ⟨rfl, rfl⟩ := List.cons.inj heq
      obtain ⟨u, v, rfl, hu, hv⟩ := ih (body.goals ++ front) back (List.append_assoc _ _ _).symm
      exact ⟨u, v, rfl, .expand rule hu, hv⟩

theorem yields_append_iff {front back : List Goal} {word : List Terminal} :
    g.Yields (front ++ back) word ↔
      ∃ u v, word = u ++ v ∧ g.Yields front u ∧ g.Yields back v := by
  constructor
  · intro h
    exact h.split front back rfl
  · rintro ⟨u, v, rfl, hu, hv⟩
    exact hu.append hv

/-- A rule of a variable passes on what its body yields. -/
theorem Yields.of_rule {name : String} {body : Body} {word : List Terminal}
    (rule : body ∈ g.bodiesOf name) (h : g.Yields body.goals word) :
    g.Yields [.variable name] word := by
  refine .expand rule ?_
  rw [List.append_nil]
  exact h

/-! ## 3. Derivations -/

theorem Expands.cons {form next : List Goal} (goal : Goal) (h : g.Expands form next) :
    g.Expands (goal :: form) (goal :: next) := by
  obtain ⟨before, after, rule⟩ := h
  exact .replace (goal :: before) after rule

theorem Derives.cons {form last : List Goal} (goal : Goal) (h : g.Derives form last) :
    g.Derives (goal :: form) (goal :: last) := by
  induction h with
  | refl form => exact .refl _
  | step first _ ih => exact .step (first.cons goal) ih

theorem Yields.derives {form : List Goal} {word : List Terminal} (h : g.Yields form word) :
    g.Derives form (word.map .terminal) := by
  induction h with
  | nil => exact .refl _
  | take _ ih => exact ih.cons _
  | expand rule _ ih => exact .step (.replace [] _ rule) ih

/-- A replacement anywhere in a form can be undone from the left. -/
theorem Expands.yields {form next : List Goal} {word : List Terminal} (h : g.Expands form next)
    (hw : g.Yields next word) : g.Yields form word := by
  obtain ⟨before, after, rule⟩ := h
  rw [List.append_assoc] at hw
  obtain ⟨u, v, rfl, hu, hv⟩ := yields_append_iff.mp hw
  exact hu.append (.expand rule hv)

theorem Derives.yields {form last : List Goal} (h : g.Derives form last) :
    ∀ {word : List Terminal}, last = word.map .terminal → g.Yields form word := by
  induction h with
  | refl form =>
    rintro word rfl
    exact yields_map_terminal word
  | step first _ ih => exact fun heq => first.yields (ih heq)

/-- **The words of a variable are what it yields.** -/
theorem generates_iff_yields {name : String} {word : List Terminal} :
    g.Generates name word ↔ g.Yields [.variable name] word :=
  ⟨fun h => Derives.yields h rfl, fun h => h.derives⟩

/-! ## 4. The least solution of the rules -/

/-- A language for every variable. -/
abbrev Reading := String → List Terminal → Prop

/-- Whether a form spells a word, if every variable stands for any word of its language. -/
inductive Spells (L : Reading) : List Goal → List Terminal → Prop where
  | nil : Spells L [] []
  | take {t : Terminal} {form : List Goal} {word : List Terminal} (rest : Spells L form word) :
      Spells L (.terminal t :: form) (t :: word)
  | expand {name : String} {form : List Goal} {u v : List Terminal} (head : L name u)
      (rest : Spells L form v) : Spells L (.variable name :: form) (u ++ v)

/-- Whether a reading respects every rule of a grammar. -/
def Respects (g : Grammar) (L : Reading) : Prop :=
  ∀ name, ∀ body ∈ g.bodiesOf name, ∀ word, Spells L body.goals word → L name word

variable {L : Reading}

theorem Spells.split {front back : List Goal} : ∀ {word : List Terminal},
    Spells L (front ++ back) word → ∃ u v, word = u ++ v ∧ Spells L front u ∧ Spells L back v := by
  induction front with
  | nil => exact fun h => ⟨[], _, rfl, .nil, h⟩
  | cons goal front ih =>
    intro word h
    rcases h with _ | h | ⟨head, h⟩
    · obtain ⟨u, v, rfl, hu, hv⟩ := ih h
      exact ⟨_ :: u, v, rfl, .take hu, hv⟩
    · obtain ⟨u, v, rfl, hu, hv⟩ := ih h
      exact ⟨_ ++ u, v, (List.append_assoc _ _ _).symm, .expand head hu, hv⟩

/-- Only the languages of the variables in a form matter. -/
theorem Spells.mono {L' : Reading} {form : List Goal} {word : List Terminal}
    (h : Spells L form word) :
    (∀ name, Goal.variable name ∈ form → ∀ u, L name u → L' name u) → Spells L' form word := by
  induction h with
  | nil => exact fun _ => .nil
  | take _ ih =>
    exact fun sub => .take (ih fun name hn => sub name (List.mem_cons_of_mem _ hn))
  | expand head _ ih =>
    exact fun sub => .expand (sub _ List.mem_cons_self _ head)
      (ih fun name hn => sub name (List.mem_cons_of_mem _ hn))

/-- The languages of the variables in a form that spells a word are not empty. -/
theorem Spells.exists_of_mem {name : String} {form : List Goal} {word : List Terminal}
    (h : Spells L form word) (hmem : Goal.variable name ∈ form) : ∃ u, L name u := by
  induction h with
  | nil => exact absurd hmem List.not_mem_nil
  | take _ ih => exact ih ((List.mem_cons.mp hmem).resolve_left nofun)
  | expand head _ ih =>
    rcases List.mem_cons.mp hmem with heq | hmem
    · obtain rfl := Goal.variable.inj heq
      exact ⟨_, head⟩
    · exact ih hmem

/-- **What is yielded is the least solution of the rules.** -/
theorem Yields.spells (respects : g.Respects L) {form : List Goal} {word : List Terminal}
    (h : g.Yields form word) : Spells L form word := by
  induction h with
  | nil => exact .nil
  | take _ ih => exact .take ih
  | expand rule _ ih =>
    obtain ⟨u, v, rfl, hu, hv⟩ := ih.split
    exact .expand (respects _ _ rule _ hu) hv

theorem Spells.yields {form : List Goal} {word : List Terminal}
    (h : Spells (fun name => g.Yields [.variable name]) form word) : g.Yields form word := by
  induction h with
  | nil => exact .nil
  | take _ ih => exact .take ih
  | expand head _ ih => exact head.append ih

/-- What a form yields in one grammar it yields in another in which every rule of the first one
holds. -/
theorem Yields.transfer {g' : Grammar}
    (admissible : ∀ name, ∀ body ∈ g.bodiesOf name, ∀ word, g'.Yields body.goals word →
      g'.Yields [.variable name] word)
    {form : List Goal} {word : List Terminal} (h : g.Yields form word) : g'.Yields form word := by
  refine Spells.yields (h.spells ?_)
  intro name body rule word hw
  exact admissible name body rule word hw.yields

end FormalLang.Grammar
