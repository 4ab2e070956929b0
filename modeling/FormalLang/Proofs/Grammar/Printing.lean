import FormalLang.Proofs.Grammar.Legible

/-!
# A printed grammar is read back

The text of a printable grammar describes that grammar: the same start, the same variables in the
same order, the same bodies (`Grammar.Printable.ofText_text`).  This holds of every grammar that was
read, and of what the removal of left recursion makes of it as long as no variable has lost all its
bodies (`Grammar.ofText_text_of_ofText`); a variable without bodies is printed as a comment.

**Line by line.**  The line of a variable begins with its head and ends with a symbol, so that
nothing is trimmed, and its first arrow is the printed one (`ofLine_line`).  The symbols are told
apart by all heads, and these are the variables (`classify_text`).  Each head has one line, so that
the builder puts the bodies where they were (`productions_foldl_addRules`).
-/

namespace FormalLang

open Text

/-! ## 1. Lines -/

namespace Text

/-- Whether a text ends in something that is no white space. -/
def EndsSolid (text : String) : Prop :=
  text.toList ≠ [] ∧ ∀ c ∈ text.toList.getLast?, isBlank c = false

theorem endsSolid_of_unbroken {text : String} (h : Unbroken text.toList) : EndsSolid text :=
  ⟨h.1, fun c hc => h.2 c (List.mem_of_getLast? hc)⟩

theorem EndsSolid.append {text : String} (h : EndsSolid text) (cs : List Char) :
    ∀ c ∈ (cs ++ text.toList).getLast?, isBlank c = false := by
  rw [List.getLast?_append_of_ne_nil _ h.1]
  exact h.2

theorem endsSolid_joinWith (separator : String) : ∀ {parts : List String}, parts ≠ [] →
    (∀ part ∈ parts, EndsSolid part) → EndsSolid (joinWith separator parts)
  | [], hne, _ => absurd rfl hne
  | [part], _, h => h part List.mem_cons_self
  | part :: next :: rest, _, h => by
    have hrest := endsSolid_joinWith separator (List.cons_ne_nil next rest) fun part hpart =>
      h part (List.mem_cons_of_mem _ hpart)
    rw [EndsSolid, toList_joinWith_cons]
    exact ⟨List.append_ne_nil_of_right_ne_nil _ hrest.1, hrest.append _⟩

end Text

namespace Grammar

variable {g : Grammar} {p : Production} {number : Nat}

theorem Printable.isWord (h : g.Printable) (hp : p ∈ g.productions) {body : Body}
    (hbody : body ∈ p.bodies) {s : Symbol} (hs : s ∈ body) : IsWord s.text :=
  h.words s ⟨p.head, body, (mem_bodiesOf_iff h.wellFormed.nodup).mpr ⟨p, hp, rfl, hbody⟩, hs⟩

theorem Printable.unbroken (h : g.Printable) (hp : p ∈ g.productions) {body : Body}
    (hbody : body ∈ p.bodies) : ∀ text ∈ body.map Symbol.text, Unbroken text.toList := by
  intro text htext
  obtain ⟨s, hs, rfl⟩ := List.mem_map.mp htext
  exact (h.isWord hp hbody hs).unbroken

/-- The text of a body is cut into its symbols. -/
theorem Printable.words_text (h : g.Printable) (hp : p ∈ g.productions) {body : Body}
    (hbody : body ∈ p.bodies) :
    (Text.words body.text.toList).map String.ofList = body.map Symbol.text := by
  rw [Body.text, words_joinWith (h.unbroken hp hbody), List.map_map]
  simp

theorem Printable.bar_not_mem (h : g.Printable) (hp : p ∈ g.productions) :
    ∀ text ∈ p.bodies.map Body.text, '|' ∉ text.toList := by
  intro text htext hmem
  obtain ⟨body, hbody, rfl⟩ := List.mem_map.mp htext
  rcases mem_joinWith hmem with hmem | ⟨_, htext, hmem⟩
  · exact absurd hmem (by decide)
  · obtain ⟨s, hs, rfl⟩ := List.mem_map.mp htext
    exact (h.isWord hp hbody hs).bar hmem

/-- The characters of a line. -/
theorem toList_line (hne : p.bodies ≠ []) : p.line.toList =
    p.head.toList ++ ' ' :: '-' :: '>' :: ' ' ::
      (joinWith " | " (p.bodies.map Body.text)).toList := by
  obtain ⟨body, bodies, hbodies⟩ := List.exists_cons_of_ne_nil hne
  rw [Production.line, hbodies]
  simp

/-- **The line of a variable is read as its rule.** -/
theorem Printable.ofLine_line (h : g.Printable) (hp : p ∈ g.productions) (hne : p.bodies ≠ []) :
    WrittenRule.ofLine .default number p.line.toList =
      .ok ⟨p.head, p.bodies.map fun body => body.map Symbol.text⟩ := by
  have hhead := h.heads p.head (List.mem_map_of_mem hp)
  have hcut : splitArrow p.line.toList = some (p.head.toList ++ [' '],
      ' ' :: (joinWith " | " (p.bodies.map Body.text)).toList) := by
    rw [toList_line hne, ← splitArrow_append _ (not_arrow_append (by decide) hhead.arrow)]
    simp
  have hwritten : (splitAt '|' (' ' :: (joinWith " | " (p.bodies.map Body.text)).toList)).map
      (fun body => (Text.words body).map String.ofList) =
      p.bodies.map fun body => body.map Symbol.text := by
    have hpieces := map_words_splitAt_joinWith (by simpa using hne) (h.bar_not_mem hp)
    have hlists := congrArg (List.map (List.map String.ofList)) hpieces
    rw [List.map_map, List.map_map, List.map_map] at hlists
    exact hlists.trans (List.map_congr_left fun body hbody => h.words_text hp hbody)
  have hvalid : (p.head.toList.any isBlank || p.head = endOfInputText ||
      GrammarOptions.default.isEpsilon p.head) = false := by
    have hblank : p.head.toList.any isBlank = false :=
      List.any_eq_false.mpr fun c hc => by simpa using hhead.unbroken.2 c hc
    simp [hblank, hhead.ne_end, GrammarOptions.isEpsilon, GrammarOptions.default, hhead.ne_epsilon]
  have hnonempty : (p.bodies.map fun body => body.map Symbol.text).any List.isEmpty = false := by
    rw [List.any_eq_false]
    intro written hwritten
    obtain ⟨body, hbody, rfl⟩ := List.mem_map.mp hwritten
    simpa using (h.wellFormed.normal p hp body hbody).1
  rw [WrittenRule.ofLine, hcut]
  dsimp only
  rw [trim_append_blank (by decide) hhead.unbroken, String.ofList_toList, hwritten, hnonempty,
    hvalid]
  simp [hhead.unbroken.1]

/-- A printed line is no comment, and nothing is trimmed from it. -/
theorem Printable.line_solid (h : g.Printable) (hp : p ∈ g.productions) (hne : p.bodies ≠ []) :
    trim p.line.toList = p.line.toList ∧ WrittenRule.isSkipped p.line.toList = false := by
  have hhead := h.heads p.head (List.mem_map_of_mem hp)
  have hsolid : EndsSolid (joinWith " | " (p.bodies.map Body.text)) := by
    refine endsSolid_joinWith _ (by simpa using hne) fun text htext => ?_
    obtain ⟨body, hbody, rfl⟩ := List.mem_map.mp htext
    refine endsSolid_joinWith _ ?_ fun word hword => ?_
    · simpa using (h.wellFormed.normal p hp body hbody).1
    · exact endsSolid_of_unbroken (h.unbroken hp hbody word hword)
  obtain ⟨c, rest, hname⟩ := List.exists_cons_of_ne_nil hhead.unbroken.1
  rw [toList_line hne]
  constructor
  · refine trim_eq_self (fun d hd => ?_) ?_
    · rw [hname] at hd
      obtain rfl := Option.some.inj hd
      exact hhead.unbroken.2 c (hname ▸ List.mem_cons_self)
    · have hlast := hsolid.append (p.head.toList ++ [' ', '-', '>', ' '])
      rwa [List.append_assoc] at hlast
  · have hcomment := hhead.comment
    have hslashes := hhead.slashes
    rw [hname] at hcomment hslashes ⊢
    have hnot : ∀ tail : List Char, List.take 2 (c :: rest ++ ' ' :: tail) ≠ ['/', '/'] := by
      cases rest with
      | nil => simp
      | cons d rest => exact fun _ => hslashes
    rw [WrittenRule.isSkipped, decide_eq_false (hnot _), Bool.or_false]
    simpa using hcomment

/-- **The lines of a grammar are read as its rules.** -/
theorem Printable.ofLines_lines (h : g.Printable) : ∀ {ps : List Production} (number : Nat),
    (∀ p ∈ ps, p ∈ g.productions ∧ p.bodies ≠ []) →
    WrittenRule.ofLines .default number ((ps.map Production.line).map String.toList ++ [[]]) =
      .ok (ps.map fun p => ⟨p.head, p.bodies.map fun body => body.map Symbol.text⟩)
  | [], _, _ => rfl
  | p :: ps, number, hps => by
    obtain ⟨hp, hne⟩ := hps p List.mem_cons_self
    obtain ⟨htrim, hskipped⟩ := h.line_solid hp hne
    have hrest := h.ofLines_lines (number + 1) fun q hq =>
      hps q (List.mem_cons_of_mem _ hq)
    rw [List.map_cons, List.map_cons, List.cons_append, WrittenRule.ofLines]
    simp only [htrim, hskipped, Bool.false_eq_true, if_false, h.ofLine_line hp hne, hrest,
      List.map_cons]

/-! ## 2. Symbols -/

/-- **Every symbol is told apart by its text.** -/
theorem Printable.classify_text (h : g.Printable) {s : Symbol} (hs : g.Occurs s) :
    WrittenRule.classify .default g.variableNames s.text = s := by
  have hepsilon : ∀ name, name ≠ epsilonText → GrammarOptions.default.isEpsilon name = false := by
    intro name hname
    simpa [GrammarOptions.isEpsilon, GrammarOptions.default] using hname
  unfold WrittenRule.classify
  rcases s with (name | _) | name | _
  · obtain ⟨hne, hend, hnot⟩ := h.terminals name hs
    simp [Symbol.text, Terminal.text, hepsilon name hne, hend, hnot]
  · rfl
  · have hname : name ∈ g.variableNames := by
      obtain ⟨head, body, hbody, hmem⟩ := hs
      exact (h.wellFormed.rule hbody).2 name hmem
    have hhead := h.heads name hname
    simp [Symbol.text, hepsilon name hhead.ne_epsilon, hhead.ne_end, hname]
  · rfl

/-! ## 3. Building -/

theorem addBody_of_not_mem {head : String} {body : Body} : ∀ {productions : List Production},
    head ∉ productions.map Production.head →
      GrammarBuilder.addBody head body productions = productions ++ [⟨head, [body]⟩]
  | [], _ => rfl
  | p :: rest, h => by
    rw [List.map_cons, List.mem_cons, not_or] at h
    rw [GrammarBuilder.addBody, if_neg fun heq => h.1 heq.symm, addBody_of_not_mem h.2]
    rfl

theorem addBody_append {head : String} {body : Body} {bodies : List Body} :
    ∀ {productions : List Production}, head ∉ productions.map Production.head →
      GrammarBuilder.addBody head body (productions ++ [⟨head, bodies⟩]) =
        productions ++ [⟨head, bodies ++ [body]⟩]
  | [], _ => by simp [GrammarBuilder.addBody]
  | p :: rest, h => by
    rw [List.map_cons, List.mem_cons, not_or] at h
    rw [List.cons_append, GrammarBuilder.addBody, if_neg fun heq => h.1 heq.symm,
      addBody_append h.2]
    rfl

theorem normalize_of_normal {body : Body} (h : body.Normal) : body.normalize = body := by
  by_cases hepsilon : Symbol.epsilon ∈ body
  · rw [h.2 hepsilon]
    rfl
  · have hfilter : body.filter (fun s => s ≠ .epsilon) = body :=
      List.filter_eq_self.mpr fun s hs => decide_eq_true fun heq => hepsilon (heq ▸ hs)
    rcases Body.normalize_eq_or body with ⟨-, hnil⟩ | ⟨heq, -⟩
    · exact absurd (hfilter.symm.trans hnil) h.1
    · rw [heq, hfilter]

/-- The bodies of a new head come behind all others. -/
theorem productions_addRules {head : String} {bodies : List Body} {b : GrammarBuilder}
    (hhead : head ∉ b.heads) (hne : bodies ≠ []) (hnormal : ∀ body ∈ bodies, body.Normal) :
    (b.addRules head bodies).productions = b.productions ++ [⟨head, bodies⟩] := by
  have hmore : ∀ (later earlier : List Body) (b' : GrammarBuilder),
      (∀ body ∈ later, body.Normal) → b'.productions = b.productions ++ [⟨head, earlier⟩] →
      (b'.addRules head later).productions = b.productions ++ [⟨head, earlier ++ later⟩] := by
    intro later
    induction later with
    | nil => exact fun earlier b' _ hb' => by rw [List.append_nil]; exact hb'
    | cons body later ih =>
      intro earlier b' hlater hb'
      rw [List.forall_mem_cons] at hlater
      have hadded : (b'.addRule head body).productions =
          b.productions ++ [⟨head, earlier ++ [body]⟩] := by
        rw [GrammarBuilder.addRule, normalize_of_normal hlater.1, hb']
        exact addBody_append hhead
      have hall := ih (earlier ++ [body]) _ hlater.2 hadded
      rwa [List.append_assoc] at hall
  obtain ⟨body, later, rfl⟩ := List.exists_cons_of_ne_nil hne
  rw [List.forall_mem_cons] at hnormal
  refine hmore later [body] (b.addRule head body) hnormal.2 ?_
  rw [GrammarBuilder.addRule, normalize_of_normal hnormal.1]
  exact addBody_of_not_mem hhead

/-- **Productions with different heads are built one by one.** -/
theorem productions_foldl_addRules : ∀ {ps : List Production} {b : GrammarBuilder},
    (b.heads ++ ps.map Production.head).Nodup →
    (∀ p ∈ ps, p.bodies ≠ [] ∧ ∀ body ∈ p.bodies, body.Normal) →
      (ps.foldl (fun b p => b.addRules p.head p.bodies) b).productions = b.productions ++ ps
  | [], b, _, _ => (List.append_nil _).symm
  | p :: ps, b, hnodup, h => by
    obtain ⟨hne, hnormal⟩ := h p List.mem_cons_self
    have hhead : p.head ∉ b.heads := fun hmem =>
      (List.nodup_append.mp hnodup).2.2 _ hmem _ List.mem_cons_self rfl
    have hadded := productions_addRules hhead hne hnormal
    have hheads : (b.addRules p.head p.bodies).heads = b.heads ++ [p.head] := by
      rw [GrammarBuilder.heads, hadded, List.map_append]
      rfl
    rw [List.foldl_cons, productions_foldl_addRules ?_ fun q hq => h q (List.mem_cons_of_mem _ hq),
      hadded, List.append_assoc]
    · rfl
    · rwa [hheads, List.append_assoc]

/-! ## 4. Reading back -/

/-- The builder of the printed rules has the productions of the grammar. -/
theorem Printable.toBuilder_rules (h : g.Printable) (hne : ∀ p ∈ g.productions, p.bodies ≠ []) :
    WrittenRule.toBuilder .default (g.productions.map fun p =>
      ⟨p.head, p.bodies.map fun body => body.map Symbol.text⟩) = ⟨none, g.productions⟩ := by
  have hheads : (g.productions.map fun p => (⟨p.head, p.bodies.map fun body =>
      body.map Symbol.text⟩ : WrittenRule)).map WrittenRule.head = g.variableNames := by
    rw [List.map_map]
    rfl
  have hsame : ∀ (b : GrammarBuilder), ∀ p ∈ g.productions,
      b.addRules p.head ((p.bodies.map fun body => body.map Symbol.text).map fun body =>
        body.map (WrittenRule.classify .default g.variableNames)) = b.addRules p.head p.bodies := by
    intro b p hp
    rw [List.map_map]
    refine congrArg _ ((List.map_congr_left fun body hbody => ?_).trans (List.map_id _))
    refine List.map_map.trans ((List.map_congr_left fun s hs => ?_).trans (List.map_id _))
    exact h.classify_text
      ⟨p.head, body, (mem_bodiesOf_iff h.wellFormed.nodup).mpr ⟨p, hp, rfl, hbody⟩, hs⟩
  have hbuilder : WrittenRule.toBuilder .default (g.productions.map fun p =>
      ⟨p.head, p.bodies.map fun body => body.map Symbol.text⟩) =
      g.productions.foldl (fun b p => b.addRules p.head p.bodies) .empty := by
    rw [WrittenRule.toBuilder, hheads, List.foldl_map]
    exact List.foldl_ext _ _ _ hsame
  have hstart := WrittenRule.start_toBuilder .default (g.productions.map fun p =>
    ⟨p.head, p.bodies.map fun body => body.map Symbol.text⟩)
  have hnodup : (GrammarBuilder.empty.heads ++ g.productions.map Production.head).Nodup :=
    h.wellFormed.nodup
  have hproductions := productions_foldl_addRules hnodup fun p hp =>
    ⟨hne p hp, h.wellFormed.normal p hp⟩
  rw [hbuilder] at hstart ⊢
  exact congrArg₂ GrammarBuilder.mk hstart hproductions

/-- No line contains a line break. -/
theorem Printable.newline_not_mem (h : g.Printable) (hne : ∀ p ∈ g.productions, p.bodies ≠ []) :
    ∀ line ∈ g.productions.map Production.line, '\n' ∉ line.toList := by
  have hunbroken : ∀ {cs : List Char}, Unbroken cs → '\n' ∉ cs := fun hcs hmem =>
    absurd (hcs.2 _ hmem) (by decide)
  intro line hline hmem
  obtain ⟨p, hp, rfl⟩ := List.mem_map.mp hline
  rw [toList_line (hne p hp)] at hmem
  rcases List.mem_append.mp hmem with hmem | hmem
  · exact hunbroken (h.heads p.head (List.mem_map_of_mem hp)).unbroken hmem
  · have hbodies : '\n' ∈ (joinWith " | " (p.bodies.map Body.text)).toList := by
      simpa using hmem
    rcases mem_joinWith hbodies with hmem | ⟨_, htext, hmem⟩
    · exact absurd hmem (by decide)
    · obtain ⟨body, hbody, rfl⟩ := List.mem_map.mp htext
      rcases mem_joinWith hmem with hmem | ⟨word, hword, hmem⟩
      · exact absurd hmem (by decide)
      · exact hunbroken (h.unbroken hp hbody word hword) hmem

/-- **The text of a printable grammar describes it**, if no variable is without a body. -/
theorem Printable.ofText_text (h : g.Printable) (hne : ∀ p ∈ g.productions, p.bodies ≠ []) :
    Grammar.ofText .default g.text.toList = .ok g := by
  have hlines := h.ofLines_lines 1 fun p hp => ⟨hp, hne p hp⟩
  have hclosed : (⟨none, g.productions⟩ : GrammarBuilder).undefined? = none :=
    GrammarBuilder.undefined?_eq_none h.wellFormed.closed
  rw [Grammar.ofText, WrittenRule.ofText, Grammar.text, lines_unlines (h.newline_not_mem hne),
    hlines]
  dsimp only
  rw [h.toBuilder_rules hne, GrammarBuilder.build, hclosed]
  have hstart := h.start
  obtain ⟨start, productions⟩ := g
  cases productions with
  | nil => contradiction
  | cons p rest =>
    obtain rfl := Option.some.inj hstart
    rfl

/-- **Printing a grammar and reading it back is the identity**, for every grammar that was read with
its first variable as the start, and after the removal of left recursion if every variable still has
a body. -/
theorem ofText_text_of_ofText (options : GrammarOptions) (reachable : options.Reachable)
    (cs : List Char) (g : Grammar) (h : Grammar.ofText options cs = .ok g)
    (hstart : options.start = none ∨ options.start = g.variableNames.head?) :
    Grammar.ofText .default g.text.toList = .ok g ∧
      ((∀ p ∈ (g.removeLeftRecursion "'").grammar.productions, p.bodies ≠ []) →
        Grammar.ofText .default (g.removeLeftRecursion "'").grammar.text.toList =
          .ok (g.removeLeftRecursion "'").grammar) := by
  obtain ⟨printable, hne⟩ := printable_of_ofText reachable h hstart
  exact ⟨printable.ofText_text hne, printable.removeLeftRecursion.ofText_text⟩

/-- Lists with a comma, an arrow, a comment sign and bars in its names. -/
def awkward : Grammar :=
  ⟨"E|x", [⟨"E|x", [[.variable "E,", .terminal (.named "a->b")], [.epsilon]]⟩,
    ⟨"E,", [[.variable "E,", .terminal (.named "//"), .terminal .endOfInput],
      [.terminal (.named "#")]]⟩]⟩

/-- The variable `E,'` is introduced, and it is read back as a variable. -/
theorem ofText_text_of_ofText_awkward :
    Grammar.ofText (GrammarOptions.default.addMarker "eps")
      "E|x -> E, a->b | eps\n# lists\n E, -> E, // $\nE, -> # ε".toList = .ok awkward ∧
    Grammar.ofText .default awkward.text.toList = .ok awkward ∧
    "E,'" ∈ (awkward.removeLeftRecursion "'").grammar.variableNames ∧
    Grammar.ofText .default (awkward.removeLeftRecursion "'").grammar.text.toList =
      .ok (awkward.removeLeftRecursion "'").grammar := by
  have hread : Grammar.ofText (GrammarOptions.default.addMarker "eps")
      "E|x -> E, a->b | eps\n# lists\n E, -> E, // $\nE, -> # ε".toList = .ok awkward := by decide
  obtain ⟨hback, hremoved⟩ :=
    ofText_text_of_ofText _ (.addMarker "eps" .default) _ awkward hread (.inl rfl)
  exact ⟨hread, hback, by decide, hremoved (by decide)⟩

end Grammar

end FormalLang
