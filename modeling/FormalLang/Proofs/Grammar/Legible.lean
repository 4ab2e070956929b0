import FormalLang.Proofs.Grammar.Introduced
import FormalLang.Proofs.Text.Pieces

/-!
# Grammars that can be written down

Not every grammar has a text: a name with white space, a head that begins like a comment, or a
terminal that is spelled like a variable would be read as something else.  `Printable` rules these
out.  A grammar that was read from a text is printable (`printable_of_ofText`), and so is what the
removal of left recursion makes of it (`Printable.removeLeftRecursion`).

**Heads and symbols are not alike.**  A head may contain a bar, because the line is cut at its arrow
first; a symbol in a body may contain an arrow, and may begin like a comment, because it stands
behind the first arrow.  A variable that occurs in a body has to do both, and only such a variable
gets a companion when left recursion is removed.

**What is read as a variable is declared**, as it is the head of some line, and every line declares
its head (`undefined?_toBuilder`).  So no text is refused because of an undefined variable
(`ofText_ne_undefinedVariable`).
-/

namespace FormalLang

open Text

/-! ## 1. Names -/

/-- Whether a text is one symbol of a body. -/
structure IsWord (text : String) : Prop where
  unbroken : Unbroken text.toList
  bar : '|' ∉ text.toList

/-- Whether a text is the head of a line. -/
structure IsHead (name : String) : Prop where
  unbroken : Unbroken name.toList
  arrow : ¬['-', '>'] <:+: name.toList
  comment : name.toList.head? ≠ some '#'
  slashes : name.toList.take 2 ≠ ['/', '/']
  ne_end : name ≠ endOfInputText
  ne_epsilon : name ≠ epsilonText

theorem isWord_epsilonText : IsWord epsilonText :=
  ⟨⟨by decide, List.forall_mem_singleton.mpr (by decide)⟩, by decide⟩

theorem unbroken_append_quote {cs : List Char} (h : Unbroken cs) : Unbroken (cs ++ ['\'']) := by
  refine ⟨by simp, fun c hc => ?_⟩
  rcases List.mem_append.mp hc with hc | hc
  · exact h.2 c hc
  · rw [List.mem_singleton.mp hc]
    decide

theorem toList_append_quote (name : String) : (name ++ "'").toList = name.toList ++ ['\''] :=
  String.toList_append

theorem IsWord.append_quote {text : String} (h : IsWord text) : IsWord (text ++ "'") where
  unbroken := by
    rw [toList_append_quote]
    exact unbroken_append_quote h.unbroken
  bar := by
    rw [toList_append_quote]
    simpa using h.bar

theorem IsHead.append_quote {name : String} (h : IsHead name) : IsHead (name ++ "'") := by
  obtain ⟨c, rest, hname⟩ := List.exists_cons_of_ne_nil h.unbroken.1
  have hlong : ∀ text : String, text.toList.length = 1 → name ++ "'" ≠ text := by
    rintro text htext rfl
    simp [hname] at htext
  refine ⟨?_, ?_, ?_, ?_, hlong _ rfl, hlong _ rfl⟩
  · rw [toList_append_quote]
    exact unbroken_append_quote h.unbroken
  · rw [toList_append_quote]
    exact not_arrow_append (by decide) h.arrow
  · have hcomment := h.comment
    rw [hname] at hcomment
    rw [toList_append_quote, hname]
    exact hcomment
  · have hslashes := h.slashes
    rw [hname] at hslashes
    rw [toList_append_quote, hname]
    cases rest with
    | nil => simp
    | cons d rest => exact hslashes

/-- **Fresh names are as legible as the name that they come from.** -/
theorem Grammar.freshVariable_induction {P : String → Prop}
    (append : ∀ name, P name → P (name ++ "'")) (g : Grammar) {name : String} (h : P name) :
    P (g.freshVariable name "'") := by
  have havoid : ∀ (n : Nat) (name : String), P name → P (avoid g.usedNames "'" n name) := by
    intro n
    induction n with
    | zero => exact fun _ h => h
    | succ n ih =>
      intro name h
      rw [avoid]
      split
      · exact ih _ (append name h)
      · exact h
  exact havoid _ _ (append name h)

/-! ## 2. What is read from a line -/

namespace WrittenRule

variable {options : GrammarOptions} {rule : WrittenRule} {number : Nat}

/-- What holds of every rule that is read: its head and its words are legible, and it has a body. -/
structure Legible (rule : WrittenRule) : Prop where
  head : IsHead rule.head
  bodies : rule.bodies ≠ []
  words : ∀ body ∈ rule.bodies, ∀ word ∈ body, IsWord word

/-- The head stands at the beginning of its line. -/
theorem isHead_of_prefix {line head : List Char} (hskipped : isSkipped line = false)
    (hfront : head <+: line) (hne : head ≠ []) (hblank : head.any isBlank = false)
    (harrow : ¬['-', '>'] <:+: head) (hend : String.ofList head ≠ endOfInputText)
    (hepsilon : String.ofList head ≠ epsilonText) : IsHead (String.ofList head) := by
  obtain ⟨c, rest, rfl⟩ := List.exists_cons_of_ne_nil hne
  obtain ⟨behind, rfl⟩ := hfront
  simp only [isSkipped, List.cons_append, List.isEmpty_cons, Bool.false_or, List.head?_cons,
    Bool.or_eq_false_iff, decide_eq_false_iff_not] at hskipped
  obtain ⟨hcomment, hslashes⟩ := hskipped
  refine ⟨?_, ?_, ?_, ?_, hend, hepsilon⟩
  · rw [String.toList_ofList]
    refine ⟨hne, fun d hd => ?_⟩
    simpa using List.any_eq_false.mp hblank d hd
  · rwa [String.toList_ofList]
  · rw [String.toList_ofList]
    exact of_decide_eq_false hcomment
  · rw [String.toList_ofList]
    cases rest with
    | nil => simp
    | cons d rest => exact hslashes

/-- What a line is from which a rule is read. -/
theorem exists_of_ofLine {line : List Char} (h : ofLine options number line = .ok rule) :
    ∃ before after, splitArrow line = some (before, after) ∧ trim before ≠ [] ∧
      (trim before).any isBlank = false ∧ String.ofList (trim before) ≠ endOfInputText ∧
      options.isEpsilon (String.ofList (trim before)) = false ∧
      rule = ⟨String.ofList (trim before),
        (splitAt '|' after).map fun body => (words body).map String.ofList⟩ := by
  unfold ofLine at h
  split at h
  · contradiction
  · rename_i before after hcut
    dsimp only at h
    split at h
    · contradiction
    · rename_i hne
      split at h
      · contradiction
      · rename_i hvalid
        simp only [Bool.or_eq_true, decide_eq_true_eq, not_or, Bool.not_eq_true] at hvalid
        obtain ⟨⟨hblank, hend⟩, hnot⟩ := hvalid
        split at h
        · contradiction
        · exact ⟨before, after, hcut, fun heq => hne (List.isEmpty_iff.mpr heq), hblank, hend, hnot,
            (Except.ok.inj h).symm⟩

theorem bodies_ne_nil_of_ofLine {line : List Char} (h : ofLine options number line = .ok rule) :
    rule.bodies ≠ [] := by
  obtain ⟨before, after, -, -, -, -, -, rfl⟩ := exists_of_ofLine h
  simp [splitAt_ne_nil]

theorem legible_of_ofLine (hmarker : options.isEpsilon epsilonText = true) {line : List Char}
    (hfirst : ∀ c ∈ line.head?, isBlank c = false) (hskipped : isSkipped line = false)
    (h : ofLine options number line = .ok rule) : rule.Legible := by
  have hbodies := bodies_ne_nil_of_ofLine h
  obtain ⟨before, after, hcut, hne, hblank, hend, hnot, rfl⟩ := exists_of_ofLine h
  obtain ⟨rfl, harrow⟩ := eq_append_of_splitArrow hcut
  have hbefore : before ≠ [] := by
    rintro rfl
    exact hne rfl
  have hfront : trim before <+: before := by
    refine trim_prefix fun c hc => hfirst c ?_
    obtain ⟨d, rest, rfl⟩ := List.exists_cons_of_ne_nil hbefore
    exact hc
  refine ⟨?_, hbodies, fun body hbody word hword => ?_⟩
  · refine isHead_of_prefix hskipped (hfront.trans (List.prefix_append _ _)) hne hblank
      (fun hwithin => harrow (hwithin.trans hfront.isInfix)) hend ?_
    intro heq
    rw [heq, hmarker] at hnot
    contradiction
  · obtain ⟨piece, hpiece, rfl⟩ := List.mem_map.mp hbody
    obtain ⟨w, hw, rfl⟩ := List.mem_map.mp hword
    obtain ⟨hunbroken, hsub⟩ := unbroken_of_mem_words hw
    have hbar := (not_mem_of_mem_splitAt hpiece).1
    exact ⟨by rwa [String.toList_ofList],
      by rw [String.toList_ofList]; exact fun hmem => hbar (hsub _ hmem)⟩

/-- What holds of every rule that is read from a line holds of the rules of a text. -/
theorem forall_of_ofLines {P : WrittenRule → Prop}
    (hline : ∀ {number : Nat} {line : List Char} {rule : WrittenRule},
      (∀ c ∈ line.head?, isBlank c = false) → isSkipped line = false →
        ofLine options number line = .ok rule → P rule) :
    ∀ {lines : List (List Char)} {number : Nat} {rules : List WrittenRule},
      ofLines options number lines = .ok rules → ∀ rule ∈ rules, P rule
  | [], _, _, h => by
    obtain rfl := Except.ok.inj h
    exact nofun
  | line :: lines, number, rules, h => by
    rw [ofLines] at h
    split at h
    · exact forall_of_ofLines hline h
    · rename_i hskipped
      split at h
      · contradiction
      · rename_i rule hrule
        split at h
        · contradiction
        · rename_i rest hrest
          obtain rfl := Except.ok.inj h
          have hfirst := hline (fun c => head_trim_of_mem) (Bool.not_eq_true _ ▸ hskipped) hrule
          exact List.forall_mem_cons.mpr ⟨hfirst, forall_of_ofLines hline hrest⟩

/-! ## 3. What the rules make together -/

variable {heads : List String}

/-- What holds of the productions while rules are added: they come from the heads and the words of
the rules, and none is without a body. -/
structure Stems (options : GrammarOptions) (heads : List String) (productions : List Production) :
    Prop where
  declared : ∀ p ∈ productions, p.head ∈ heads
  bodies : ∀ p ∈ productions, p.bodies ≠ []
  symbols : ∀ p ∈ productions, ∀ body ∈ p.bodies, ∀ s ∈ body,
    s = .epsilon ∨ ∃ word, IsWord word ∧ s = classify options heads word

theorem mem_addBody {head : String} {body : Body} {p : Production} :
    ∀ {productions : List Production}, p ∈ GrammarBuilder.addBody head body productions →
      p = ⟨head, [body]⟩ ∨ p ∈ productions ∨
        ∃ q ∈ productions, p = ⟨q.head, q.bodies ++ [body]⟩
  | [], h => .inl (List.mem_singleton.mp h)
  | q :: rest, h => by
    rw [GrammarBuilder.addBody] at h
    split at h
    · rcases List.mem_cons.mp h with rfl | h
      · exact .inr (.inr ⟨q, List.mem_cons_self, rfl⟩)
      · exact .inr (.inl (List.mem_cons_of_mem _ h))
    · rcases List.mem_cons.mp h with rfl | h
      · exact .inr (.inl List.mem_cons_self)
      · rcases mem_addBody h with h | h | ⟨r, hr, h⟩
        · exact .inl h
        · exact .inr (.inl (List.mem_cons_of_mem _ h))
        · exact .inr (.inr ⟨r, List.mem_cons_of_mem _ hr, h⟩)

theorem Stems.addRule {b : GrammarBuilder} (h : Stems options heads b.productions) {head : String}
    (hhead : head ∈ heads) {body : Body}
    (hbody : ∀ s ∈ body, ∃ word, IsWord word ∧ s = classify options heads word) :
    Stems options heads (b.addRule head body).productions := by
  have hnormal : ∀ s ∈ body.normalize,
      s = .epsilon ∨ ∃ word, IsWord word ∧ s = classify options heads word := by
    intro s hs
    by_cases hepsilon : s = .epsilon
    · exact .inl hepsilon
    · exact .inr (hbody s ((Body.mem_normalize hepsilon).mp hs))
  refine ⟨fun p hp => ?_, fun p hp => ?_, fun p hp other hother => ?_⟩
  · rcases mem_addBody hp with rfl | hp | ⟨q, hq, rfl⟩
    · exact hhead
    · exact h.declared p hp
    · exact h.declared q hq
  · rcases mem_addBody hp with rfl | hp | ⟨q, hq, rfl⟩
    · exact List.cons_ne_nil _ _
    · exact h.bodies p hp
    · exact List.append_ne_nil_of_right_ne_nil _ (List.cons_ne_nil _ _)
  · rcases mem_addBody hp with rfl | hp | ⟨q, hq, rfl⟩
    · obtain rfl := List.mem_singleton.mp hother
      exact hnormal
    · exact h.symbols p hp other hother
    · rcases List.mem_append.mp hother with hother | hother
      · exact h.symbols q hq other hother
      · obtain rfl := List.mem_singleton.mp hother
        exact hnormal

theorem Stems.addRules {head : String} (hhead : head ∈ heads) : ∀ {bodies : List Body}
    {b : GrammarBuilder}, Stems options heads b.productions →
    (∀ body ∈ bodies, ∀ s ∈ body, ∃ word, IsWord word ∧ s = classify options heads word) →
      Stems options heads (b.addRules head bodies).productions
  | [], _, h, _ => h
  | _ :: _, _, h, hbodies =>
    (h.addRule hhead (hbodies _ List.mem_cons_self)).addRules hhead fun body hbody =>
      hbodies body (List.mem_cons_of_mem _ hbody)

/-- **The productions stem from the rules.** -/
theorem stems_toBuilder (options : GrammarOptions) {rules : List WrittenRule}
    (hrules : ∀ rule ∈ rules, rule.Legible) :
    Stems options (rules.map WrittenRule.head) (toBuilder options rules).productions := by
  refine toBuilder_induction
    (P := fun _ b => Stems options (rules.map WrittenRule.head) b.productions)
    ⟨nofun, nofun, nofun⟩ (fun _ rule b hrule h => ?_) fun _ _ h => h
  refine h.addRules (List.mem_map_of_mem hrule) fun body hbody s hs => ?_
  obtain ⟨written, hwritten, rfl⟩ := List.mem_map.mp hbody
  obtain ⟨word, hword, rfl⟩ := List.mem_map.mp hs
  exact ⟨word, (hrules rule hrule).words written hwritten word hword, rfl⟩

/-! ## 4. Every variable of a text is declared -/

theorem ofLine_ne_undefinedVariable {line : List Char} {name : String} :
    ofLine options number line ≠ .error (.undefinedVariable name) := by
  unfold ofLine
  split
  · nofun
  · dsimp only
    split
    · nofun
    · split
      · nofun
      · split
        · nofun
        · nofun

theorem ofLines_ne_undefinedVariable {name : String} : ∀ {lines : List (List Char)}
    {number : Nat}, ofLines options number lines ≠ .error (.undefinedVariable name)
  | [], _ => nofun
  | line :: lines, number => by
    rw [ofLines]
    split
    · exact ofLines_ne_undefinedVariable
    · split
      · rename_i e he
        intro h
        obtain rfl := Except.error.inj h
        exact ofLine_ne_undefinedVariable he
      · split
        · rename_i e he
          intro h
          obtain rfl := Except.error.inj h
          exact ofLines_ne_undefinedVariable he
        · nofun

theorem mem_of_classify_eq_variable {word name : String}
    (h : classify options heads word = .variable name) : name ∈ heads := by
  unfold classify at h
  split at h
  · contradiction
  · split at h
    · contradiction
    · split at h
      · rename_i hmem
        obtain rfl := Symbol.variable.inj h
        exact hmem
      · contradiction

theorem mem_heads_addRule {b : GrammarBuilder} {head name : String} {body : Body} :
    name ∈ (b.addRule head body).heads ↔ name = head ∨ name ∈ b.heads := by
  rw [GrammarBuilder.heads, GrammarBuilder.addRule, GrammarBuilder.map_head_addBody]
  split
  · rename_i hmem
    constructor
    · exact .inr
    · rintro (rfl | h)
      · exact hmem
      · exact h
  · rw [List.mem_append, List.mem_singleton, or_comm]
    rfl

/-- What holds of a builder while the rules of a text are added: the variables in bodies are heads
of rules, and the heads of the rules added so far are declared. -/
structure Declares (heads : List String) (added : List WrittenRule) (b : GrammarBuilder) :
    Prop where
  closed : ∀ p ∈ b.productions, ∀ body ∈ p.bodies, ∀ v, .variable v ∈ body → v ∈ heads
  declared : ∀ rule ∈ added, rule.head ∈ b.heads

theorem Declares.addRules {added : List WrittenRule} (head : String) : ∀ {bodies : List Body}
    {b : GrammarBuilder}, Declares heads added b →
    (∀ body ∈ bodies, ∀ v, .variable v ∈ body → v ∈ heads) →
      Declares heads added (b.addRules head bodies) ∧
        (bodies ≠ [] ∨ head ∈ b.heads → head ∈ (b.addRules head bodies).heads)
  | [], _, h, _ => ⟨h, fun hhead => hhead.resolve_left (absurd rfl)⟩
  | body :: bodies, b, h, hbodies => by
    have hone : Declares heads added (b.addRule head body) := by
      refine ⟨fun p hp other hother v hv => ?_, fun rule hrule => ?_⟩
      · rcases GrammarBuilder.mem_bodies_addBody hp hother with rfl | ⟨q, hq, hother⟩
        · have hbody := (Body.mem_normalize (s := .variable v) nofun).mp hv
          exact hbodies body List.mem_cons_self v hbody
        · exact h.closed q hq other hother v hv
      · exact mem_heads_addRule.mpr (.inr (h.declared rule hrule))
    obtain ⟨hall, hhead⟩ :=
      hone.addRules head fun other hother => hbodies other (List.mem_cons_of_mem _ hother)
    exact ⟨hall, fun _ => hhead (.inr (mem_heads_addRule.mpr (.inl rfl)))⟩

/-- A symbol is read as a variable only if it is a head, and a rule that has a body declares its
head. -/
theorem Declares.addRule {heads : List String} {added : List WrittenRule} {b : GrammarBuilder}
    (h : Declares heads added b) {rule : WrittenRule} (hrule : rule.bodies ≠ []) :
    Declares heads (added ++ [rule]) (b.addRules rule.head (rule.classified options heads)) := by
  have hclosed : ∀ body ∈ rule.classified options heads, ∀ v, .variable v ∈ body → v ∈ heads := by
    intro body hbody v hv
    obtain ⟨written, -, rfl⟩ := List.mem_map.mp hbody
    obtain ⟨word, -, hword⟩ := List.mem_map.mp hv
    exact mem_of_classify_eq_variable hword
  obtain ⟨hadded, hhead⟩ := h.addRules rule.head hclosed
  refine ⟨hadded.closed, fun other hother => ?_⟩
  rcases List.mem_append.mp hother with hother | hother
  · exact hadded.declared other hother
  · obtain rfl := List.mem_singleton.mp hother
    exact hhead (.inl fun hnil => hrule (List.map_eq_nil_iff.mp hnil))

/-- **The rules of a text leave no variable undefined**, because each of them has a body. -/
theorem undefined?_toBuilder (options : GrammarOptions) {rules : List WrittenRule}
    (hrules : ∀ rule ∈ rules, rule.bodies ≠ []) : (toBuilder options rules).undefined? = none := by
  have hdeclares : Declares (rules.map WrittenRule.head) rules (toBuilder options rules) :=
    toBuilder_induction (P := Declares (rules.map WrittenRule.head)) ⟨nofun, nofun⟩
      (fun _ rule _ hrule h => h.addRule (hrules rule hrule)) fun _ _ h => ⟨h.closed, h.declared⟩
  refine GrammarBuilder.undefined?_eq_none fun p hp body hbody name hname => ?_
  obtain ⟨rule, hrule, rfl⟩ := List.mem_map.mp (hdeclares.closed p hp body hbody name hname)
  exact hdeclares.declared rule hrule

/-- **No text is refused because of an undefined variable.** -/
theorem ofText_ne_undefinedVariable (options : GrammarOptions) (cs : List Char)
    (name : String) : Grammar.ofText options cs ≠ .error (.undefinedVariable name) := by
  rw [Grammar.ofText]
  split
  · rename_i e he
    intro h
    obtain rfl := Except.error.inj h
    exact ofLines_ne_undefinedVariable he
  · rename_i rules hrules
    have hdefined := undefined?_toBuilder options (forall_of_ofLines
      (fun _ _ h => bodies_ne_nil_of_ofLine h) hrules)
    rw [GrammarBuilder.build, hdefined]
    dsimp only
    split
    · split
      · simp
      · simp
    · simp
    · simp

end WrittenRule

/-! ## 5. Printable grammars -/

namespace WrittenRule

/-- What a word is read as is written like the word, or it is `ε`. -/
theorem classify_cases (options : GrammarOptions) (heads : List String) (word : String) :
    classify options heads word = .epsilon ∨ (classify options heads word).text = word ∧
      ∀ name, classify options heads word = .terminal (.named name) →
        options.isEpsilon name = false ∧ name ≠ endOfInputText ∧ name ∉ heads := by
  unfold classify
  split
  · exact .inl rfl
  · rename_i hmarker
    refine .inr ?_
    split
    · rename_i hend
      exact ⟨hend.symm, nofun⟩
    · rename_i hend
      split
      · exact ⟨rfl, nofun⟩
      · rename_i hhead
        refine ⟨rfl, ?_⟩
        rintro name ⟨⟩
        exact ⟨Bool.not_eq_true _ ▸ hmarker, hend, hhead⟩

theorem isWord_text_classify {word : String} (h : IsWord word) :
    IsWord (classify options heads word).text := by
  rcases classify_cases options heads word with heq | ⟨htext, -⟩
  · rw [heq]
    exact isWord_epsilonText
  · rwa [htext]

/-- Terminals are spelled like nothing else. -/
theorem name_of_classify (hmarker : options.isEpsilon epsilonText = true) {word name : String}
    (h : classify options heads word = .terminal (.named name)) :
    name ≠ epsilonText ∧ name ≠ endOfInputText ∧ name ∉ heads := by
  rcases classify_cases options heads word with heq | ⟨-, hterminal⟩
  · rw [heq] at h
    contradiction
  · obtain ⟨hnot, hend, hhead⟩ := hterminal name h
    refine ⟨?_, hend, hhead⟩
    rintro rfl
    rw [hmarker] at hnot
    contradiction

end WrittenRule

namespace Grammar

/-- **Whether a grammar can be written down** so that it is read back: the names are legible, no
terminal is spelled like something else, and the first variable is the start. -/
structure Printable (g : Grammar) : Prop where
  wellFormed : g.WellFormed
  start : g.variableNames.head? = some g.start
  heads : ∀ name ∈ g.variableNames, IsHead name
  words : ∀ s, g.Occurs s → IsWord s.text
  terminals : ∀ name, g.Occurs (.terminal (.named name)) →
    name ≠ epsilonText ∧ name ≠ endOfInputText ∧ name ∉ g.variableNames

end Grammar

/-- The start is the given one, or the first variable. -/
theorem GrammarBuilder.start_of_build {b : GrammarBuilder} {g : Grammar} (h : b.build = .ok g) :
    some g.start = b.start.or b.heads.head? := by
  rw [build] at h
  split at h
  · contradiction
  · split at h
    · rename_i name _ hname
      split at h
      · obtain rfl := Except.ok.inj h
        rw [hname]
        rfl
      · contradiction
    · contradiction
    · rename_i hnone hproductions
      obtain rfl := Except.ok.inj h
      rw [hnone, heads, hproductions]
      rfl

theorem WrittenRule.start_toBuilder (options : GrammarOptions) (rules : List WrittenRule) :
    (toBuilder options rules).start = options.start := by
  have haddRules : ∀ (bodies : List Body) (b : GrammarBuilder) (head : String),
      (b.addRules head bodies).start = b.start := by
    intro bodies
    induction bodies with
    | nil => exact fun _ _ => rfl
    | cons body bodies ih => exact fun b head => ih _ head
  have hfold : ∀ (heads : List String) (rules : List WrittenRule) (b : GrammarBuilder),
      (rules.foldl (fun b rule =>
        b.addRules rule.head (rule.classified options heads)) b).start = b.start := by
    intro heads rules
    induction rules with
    | nil => exact fun _ => rfl
    | cons rule rules ih => exact fun b => (ih _).trans (haddRules _ _ _)
  rw [toBuilder]
  split
  · rename_i hstart
    exact (hfold _ _ _).trans hstart.symm
  · rename_i name hstart
    exact hstart.symm

namespace Grammar

variable {options : GrammarOptions} {cs : List Char} {g : Grammar}

/-- **What is read consists of heads and words.**  No terminal is spelled like the empty word, the
end of the input or a variable, and no variable is without a body. -/
theorem legible_of_ofText (reachable : options.Reachable) (h : Grammar.ofText options cs = .ok g) :
    (∀ name ∈ g.variableNames, IsHead name) ∧ (∀ s, g.Occurs s → IsWord s.text) ∧
    (∀ name, g.Occurs (.terminal (.named name)) →
      name ≠ epsilonText ∧ name ≠ endOfInputText ∧ name ∉ g.variableNames) ∧
    ∀ p ∈ g.productions, p.bodies ≠ [] := by
  have wellFormed := wellFormed_of_ofText h
  have hmarker := reachable.isEpsilon_epsilonText
  rw [Grammar.ofText] at h
  split at h
  · contradiction
  · rename_i rules hrules
    have hlegible := WrittenRule.forall_of_ofLines (WrittenRule.legible_of_ofLine hmarker) hrules
    have hstems := WrittenRule.stems_toBuilder options hlegible
    obtain ⟨-, hproductions, -⟩ := GrammarBuilder.build_eq_ok h
    rw [← hproductions] at hstems
    have hsymbols : ∀ s, g.Occurs s → s = .epsilon ∨ ∃ word, IsWord word ∧
        s = WrittenRule.classify options (rules.map WrittenRule.head) word := by
      rintro s ⟨head, body, hbody, hs⟩
      obtain ⟨p, hp, -, hbody⟩ := (mem_bodiesOf_iff wellFormed.nodup).mp hbody
      exact hstems.symbols p hp body hbody s hs
    have hnames : ∀ name ∈ g.variableNames, name ∈ rules.map WrittenRule.head := by
      intro name hname
      obtain ⟨p, hp, rfl⟩ := List.mem_map.mp hname
      exact hstems.declared p hp
    refine ⟨fun name hname => ?_, fun s hs => ?_, fun name hname => ?_, hstems.bodies⟩
    · obtain ⟨rule, hrule, rfl⟩ := List.mem_map.mp (hnames name hname)
      exact (hlegible rule hrule).head
    · rcases hsymbols s hs with rfl | ⟨word, hword, rfl⟩
      · exact isWord_epsilonText
      · exact WrittenRule.isWord_text_classify hword
    · rcases hsymbols _ hname with heq | ⟨word, -, heq⟩
      · contradiction
      · obtain ⟨hepsilon, hend, hhead⟩ := WrittenRule.name_of_classify hmarker heq.symm
        exact ⟨hepsilon, hend, fun hmem => hhead (hnames name hmem)⟩

theorem start_of_ofText (h : Grammar.ofText options cs = .ok g) :
    some g.start = options.start.or g.variableNames.head? := by
  rw [Grammar.ofText] at h
  split at h
  · contradiction
  · obtain ⟨-, hproductions, -⟩ := GrammarBuilder.build_eq_ok h
    have hbuilt := GrammarBuilder.start_of_build h
    rw [WrittenRule.start_toBuilder, GrammarBuilder.heads, ← hproductions] at hbuilt
    exact hbuilt

/-- **What is read is printable**, if the first variable is the start, and no variable is without a
body. -/
theorem printable_of_ofText (reachable : options.Reachable) (h : Grammar.ofText options cs = .ok g)
    (hstart : options.start = none ∨ options.start = g.variableNames.head?) :
    g.Printable ∧ ∀ p ∈ g.productions, p.bodies ≠ [] := by
  obtain ⟨hheads, hwords, hterminals, hbodies⟩ := legible_of_ofText reachable h
  have hread := start_of_ofText h
  refine ⟨⟨wellFormed_of_ofText h, ?_, hheads, hwords, hterminals⟩, hbodies⟩
  rcases hstart with hstart | hstart
  · rw [hstart] at hread
    exact hread.symm
  · rw [hstart, Option.or_self] at hread
    exact hread.symm

/-! ## 6. Printable grammars without left recursion -/

namespace Removal

/-- The recursion of a variable is changed only if the variable stands in one of its bodies. -/
theorem removeDirect_eq_or_occurs (r : Removal) (suffix head : String) :
    r.removeDirect suffix head = r ∨ r.grammar.Occurs (.variable head) := by
  simp only [removeDirect]
  split
  · exact .inl rfl
  · rename_i hrecursive
    rw [List.isEmpty_iff] at hrecursive
    obtain ⟨body, hbody⟩ := List.exists_mem_of_ne_nil _ hrecursive
    obtain ⟨hmem, hbegins⟩ := List.mem_filter.mp hbody
    obtain ⟨tail, rfl⟩ := Body.beginsWith_iff.mp hbegins
    exact .inr ⟨head, _, hmem, List.mem_cons_self⟩

end Removal

theorem Printable.substitute {r : Removal} (h : r.grammar.Printable) (earlier head : String) :
    (r.substitute head earlier).grammar.Printable where
  wellFormed := h.wellFormed.substitute earlier head
  start := by
    rw [Removal.variableNames_substitute, Removal.start_substitute]
    exact h.start
  heads name hname := by
    rw [Removal.variableNames_substitute] at hname
    exact h.heads name hname
  words s hs := by
    by_cases hepsilon : s = .epsilon
    · rw [hepsilon]
      exact isWord_epsilonText
    · exact h.words s (hs.of_substitute hepsilon)
  terminals name hname := by
    rw [Removal.variableNames_substitute]
    exact h.terminals name (Occurs.of_substitute nofun hname)

theorem Printable.removeDirect {r : Removal} (h : r.grammar.Printable) (head : String) :
    (r.removeDirect "'" head).grammar.Printable := by
  have hsuffix : "'" ≠ "" := by decide
  rcases r.removeDirect_eq_or_occurs "'" head with heq | hoccurs
  · rwa [heq]
  · have hhead : head ∈ r.grammar.variableNames := by
      obtain ⟨name, body, hbody, hmem⟩ := hoccurs
      exact (h.wellFormed.rule hbody).2 head hmem
    have hfreshHead : IsHead (r.grammar.freshVariable head "'") :=
      freshVariable_induction (fun _ => IsHead.append_quote) _ (h.heads head hhead)
    have hfreshWord : IsWord (r.grammar.freshVariable head "'") :=
      freshVariable_induction (fun _ => IsWord.append_quote) _ (h.words _ hoccurs)
    refine ⟨h.wellFormed.removeDirect hsuffix head, ?_, fun name hname => ?_, fun s hs => ?_,
      fun name hname => ?_⟩
    · rw [Removal.start_removeDirect, ← h.start]
      rcases r.variableNames_removeDirect "'" head with heq | heq
      · rw [heq]
      · rw [heq, List.head?_append, h.start]
        rfl
    · rcases Removal.mem_variableNames_removeDirect hname with hname | rfl
      · exact h.heads name hname
      · exact hfreshHead
    · by_cases hepsilon : s = .epsilon
      · rw [hepsilon]
        exact isWord_epsilonText
      · rcases hs.of_removeDirect hepsilon hsuffix with hs | rfl
        · exact h.words s hs
        · exact hfreshWord
    · have hbefore : r.grammar.Occurs (.terminal (.named name)) :=
        (Occurs.of_removeDirect (s := .terminal _) nofun hsuffix hname).resolve_right nofun
      obtain ⟨hepsilon, hend, hnot⟩ := h.terminals name hbefore
      refine ⟨hepsilon, hend, fun hmem => ?_⟩
      rcases Removal.mem_variableNames_removeDirect hmem with hmem | rfl
      · exact hnot hmem
      · exact not_mentions_freshVariable h.wellFormed.nodup hsuffix head hbefore

/-- **Without left recursion a printable grammar is still printable.** -/
theorem Printable.removeLeftRecursion (h : g.Printable) :
    (g.removeLeftRecursion "'").grammar.Printable :=
  Removal.visitAll_induction (P := fun r => r.grammar.Printable)
    (fun _ earlier head _ h => h.substitute earlier head) (fun _ head h => h.removeDirect head)
    g.variableNames [] ⟨g, []⟩ h.wellFormed.nodup h

end Grammar

end FormalLang
