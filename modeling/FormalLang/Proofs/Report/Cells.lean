import FormalLang.Proofs.Grammar.FollowMeaning
import FormalLang.Proofs.Grammar.Legible
import FormalLang.Proofs.Grammar.Store
import FormalLang.Proofs.Predictive.Exactness
import FormalLang.Report.Grammar

/-!
# The fields of a table

In the structured value of a table the field of a cell is named by its variable and its terminal,
with a comma between them.  Names of symbols may have commas of their own, so that two cells can
have fields of one name.  This happens exactly where they overlap: the variable of one cell is that
of the other, a comma and some text, and the terminal of the other is this text, a comma and the
terminal of the one (`ParseTable.fields_apart`).

* **The symbols of a cell** are those of the grammar, or the end of the input
  (`Parser.mem_of_cell`), because FIRST and FOLLOW sets have no others.  In a grammar that was read,
  no two of them are spelled alike (`Grammar.spelled_of_ofText`).
* **No overlap.**  If no variable has a comma, or no terminal has, then the fields tell for every
  variable and terminal whether there is a cell and what is in it.
* **The text of a table** has a blank behind the comma.  No symbol has one, so that cells are kept
  apart there whatever the names.
-/

namespace FormalLang

/-! ## 1. Names with a comma between them -/

namespace ParseTable

/-- **Whether one cell overlaps another**: the variable of the second is that of the first, a comma
and some text, and the terminal of the first is this text, a comma and the terminal of the second. -/
def Overlap (k k' : String × Terminal) : Prop :=
  ∃ shared, k'.1 = k.1 ++ "," ++ shared ∧ k.2.text = shared ++ "," ++ k'.2.text

theorem toList_cellName (k : String × Terminal) :
    (cellName k).toList = k.1.toList ++ ',' :: k.2.text.toList := by
  simp [cellName]

theorem overlap_iff {k k' : String × Terminal} : Overlap k k' ↔ ∃ shared,
    k'.1.toList = k.1.toList ++ ',' :: shared ∧
      k.2.text.toList = shared ++ ',' :: k'.2.text.toList := by
  constructor
  · rintro ⟨shared, hvariable, hterminal⟩
    exact ⟨shared.toList, by simp [hvariable], by simp [hterminal]⟩
  · rintro ⟨shared, hvariable, hterminal⟩
    refine ⟨String.ofList shared, ?_, ?_⟩
    · exact String.toList_inj.mp (by simp [hvariable])
    · exact String.toList_inj.mp (by simp [hterminal])

/-- **Fields have one name** if they are spelled alike, or if one cell overlaps the other. -/
theorem cellName_eq_iff {k k' : String × Terminal} : cellName k = cellName k' ↔
    (k.1 = k'.1 ∧ k.2.text = k'.2.text) ∨ Overlap k k' ∨ Overlap k' k := by
  rw [← String.toList_inj, toList_cellName, toList_cellName, overlap_iff, overlap_iff]
  constructor
  · intro h
    rcases append_eq_append_cons h with ⟨mid, hk, hk'⟩ | ⟨mid, hk', hk⟩
    · exact .inr (.inr ⟨mid, hk, hk'⟩)
    · rcases mid with _ | ⟨c, mid⟩
      · obtain ⟨-, hterminal⟩ := List.cons.inj hk
        rw [List.append_nil] at hk'
        exact .inl ⟨String.toList_inj.mp hk'.symm, String.toList_inj.mp hterminal⟩
      · obtain ⟨rfl, hterminal⟩ := List.cons.inj hk
        exact .inr (.inl ⟨mid, hk', hterminal⟩)
  · rintro (⟨hvariable, hterminal⟩ | ⟨shared, hvariable, hterminal⟩ |
      ⟨shared, hvariable, hterminal⟩)
    · rw [hvariable, hterminal]
    · rw [hvariable, hterminal]
      simp
    · rw [hvariable, hterminal]
      simp

end ParseTable

/-! ## 2. The symbols of a cell -/

namespace Grammar

variable {g : Grammar} {t : Terminal}

/-- The terminals of a derived form come from the form before or from bodies. -/
theorem Derives.mentions {form last : List Goal} (h : g.Derives form last) :
    .terminal t ∈ last → .terminal t ∈ form ∨ g.Mentions t := by
  induction h with
  | refl form => exact .inl
  | step expands _ ih =>
    intro ht
    obtain @⟨name, body, before, after, rule⟩ := expands
    rcases ih ht with hform | hmentions
    · simp only [List.mem_append, List.mem_cons] at hform ⊢
      rcases hform with (hfront | hbody) | hback
      · exact .inl (.inl hfront)
      · exact .inr ⟨name, body, rule, Body.terminal_mem_goals.mp hbody⟩
      · exact .inl (.inr (.inr hback))
    · exact .inr hmentions

theorem Follows.mentions {name : String} (h : g.Follows name t) :
    t = .endOfInput ∨ g.Mentions t := by
  rcases h with ⟨v, -, before, after, hderives⟩ | ⟨hend, -⟩
  · rcases hderives.mentions (t := t) (by simp) with hform | hmentions
    · simp at hform
    · exact .inr hmentions
  · exact .inl hend

end Grammar

/-- **A cell belongs to a variable and a terminal of the grammar.** -/
theorem Parser.mem_of_cell {g : Grammar} {p : Parser} (wellFormed : g.WellFormed)
    (h : Parser.ofGrammar g = .ok p) {name : String} {t : Terminal} {cell : Cell}
    (hcell : p.table.get? name t = some cell) : name ∈ g.variableNames ∧ t ∈ g.terminals := by
  obtain ⟨-, first, follow, hfirst, hfollow, hbuild⟩ := ofGrammar_eq_ok h
  have closed := FirstSets.closed_of_ofGrammar wellFormed hfirst
  have grounded : FirstSets.Grounded g first := FirstSets.grounded_of_compute hfirst
  obtain ⟨-, last, -, -, -, hlast, meant⟩ := FollowSets.exists_last_meant wellFormed closed grounded
    fun name => Iff.rfl
  obtain rfl : last.follow = follow := Except.ok.inj (hlast.symm.trans hfollow)
  have hbody := ParseTable.mem_bodiesOf_of_build wellFormed.nodup hbuild hcell
  obtain ⟨-, hpredicts⟩ := (ParseTable.build_cell_iff wellFormed.nodup hbuild).mp hcell
  refine ⟨Grammar.mem_variableNames_of_mem_bodiesOf hbody, ?_⟩
  rw [Grammar.mem_terminals_iff wellFormed.nodup]
  rcases hpredicts with hbegins | ⟨-, hfollows⟩
  · have hcan := grounded.canBegin_of_begins hbegins
    obtain ⟨rest, hderives⟩ := (FirstSets.derives_of_canBegin hcan).2 t rfl
    rcases hderives.mentions List.mem_cons_self with hgoal | hmentions
    · exact .inr ⟨name, cell.body, hbody, Body.terminal_mem_goals.mp hgoal⟩
    · exact .inr hmentions
  · exact ((meant.follows name t).mp hfollows).mentions

/-- **How the symbols of a grammar are spelled**: without blanks, and no two terminals alike. -/
structure Grammar.Spelled (g : Grammar) : Prop where
  names : ∀ name ∈ g.variableNames, ' ' ∉ name.toList
  terminals : ∀ t ∈ g.terminals, ' ' ∉ t.text.toList
  apart : ∀ t ∈ g.terminals, ∀ t' ∈ g.terminals, t.text = t'.text → t = t'

theorem Text.Unbroken.blank_not_mem {cs : List Char} (h : Text.Unbroken cs) : ' ' ∉ cs :=
  fun hmem => absurd (h.2 ' ' hmem) (by decide)

/-- A word `$` is read as the end of the input, so no other terminal is spelled like it. -/
theorem Grammar.spelled_of_ofText {options : GrammarOptions} {cs : List Char} {g : Grammar}
    (reachable : options.Reachable) (h : Grammar.ofText options cs = .ok g) : g.Spelled := by
  obtain ⟨hheads, hwords, hterminals, -⟩ := legible_of_ofText reachable h
  have hoccurs : ∀ name, .named name ∈ g.terminals → g.Occurs (.terminal (.named name)) := by
    intro name hname
    rcases (mem_terminals_iff (wellFormed_of_ofText h).nodup).mp hname with hend | hmentions
    · contradiction
    · exact hmentions
  have hnamed : ∀ name, .named name ∈ g.terminals → name ≠ endOfInputText :=
    fun name hname => (hterminals name (hoccurs name hname)).2.1
  refine ⟨fun name hname => ?_, fun t ht => ?_, fun t ht t' ht' heq => ?_⟩
  · exact (hheads name hname).unbroken.blank_not_mem
  · cases t with
    | named name => exact (hwords _ (hoccurs name ht)).unbroken.blank_not_mem
    | endOfInput => decide
  · cases t with
    | named name =>
      cases t' with
      | named name' => exact congrArg Terminal.named heq
      | endOfInput => exact absurd heq (hnamed name ht)
    | endOfInput =>
      cases t' with
      | named name' => exact absurd heq.symm (hnamed name' ht')
      | endOfInput => rfl

/-! ## 3. Fields and lines -/

/-- Whether no names of a grammar make cells overlap. -/
def Grammar.KeepsCellsApart (g : Grammar) : Prop :=
  ∀ v ∈ g.variableNames, ∀ v' ∈ g.variableNames, ∀ t ∈ g.terminals, ∀ t' ∈ g.terminals,
    ¬ ParseTable.Overlap (v, t) (v', t')

/-- An overlap takes a comma on both sides. -/
theorem Grammar.keepsCellsApart_of_comma {g : Grammar}
    (h : (∀ v ∈ g.variableNames, ',' ∉ v.toList) ∨ ∀ t ∈ g.terminals, ',' ∉ t.text.toList) :
    g.KeepsCellsApart := by
  intro v _ v' hv' t ht t' _ hoverlap
  obtain ⟨shared, hvariable, hterminal⟩ := ParseTable.overlap_iff.mp hoverlap
  rcases h with hcomma | hcomma
  · refine hcomma v' hv' ?_
    rw [hvariable]
    simp
  · refine hcomma t ht ?_
    rw [hterminal]
    simp

/-- What stands before the first blank, and what stands behind it. -/
theorem eq_of_append_blank {front front' back back' : List Char} (h : ' ' ∉ front)
    (h' : ' ' ∉ front') (heq : front ++ ' ' :: back = front' ++ ' ' :: back') :
    front = front' ∧ back = back' := by
  rcases append_eq_append_cons heq with ⟨mid, rfl, -⟩ | ⟨mid, rfl, hback⟩
  · simp at h
  · rcases mid with _ | ⟨c, mid⟩
    · exact ⟨(List.append_nil _).symm, (List.cons.inj hback).2⟩
    · obtain ⟨rfl, -⟩ := List.cons.inj hback
      simp at h'

namespace ParseTable

theorem toList_cellLine (entry : (String × Terminal) × Cell) : ∃ rest, (cellLine entry).toList =
    ('M' :: '[' :: entry.1.1.toList ++ [',']) ++ ' ' :: ((entry.1.2.text.toList ++ [']']) ++
      ' ' :: rest) := by
  exact ⟨_, by simp [cellLine]; rfl⟩

variable {g : Grammar} {v v' : String} {t t' : Terminal}

/-- **The line of a cell tells which cell it is.** -/
theorem eq_of_cellLine_eq (spelled : g.Spelled) (hv : v ∈ g.variableNames) (ht : t ∈ g.terminals)
    (hv' : v' ∈ g.variableNames) (ht' : t' ∈ g.terminals) {cell cell' : Cell}
    (h : cellLine ((v, t), cell) = cellLine ((v', t'), cell')) : (v, t) = (v', t') := by
  obtain ⟨rest, hline⟩ := toList_cellLine ((v, t), cell)
  obtain ⟨rest', hline'⟩ := toList_cellLine ((v', t'), cell')
  rw [h, hline'] at hline
  obtain ⟨hvariable, hbehind⟩ := eq_of_append_blank (by simp [spelled.names v' hv'])
    (by simp [spelled.names v hv]) hline
  obtain ⟨hterminal, -⟩ := eq_of_append_blank (by simp [spelled.terminals t' ht'])
    (by simp [spelled.terminals t ht]) hbehind
  have hname : v' = v := String.toList_inj.mp (by simpa using hvariable)
  have htext : t'.text = t.text := String.toList_inj.mp (by simpa using hterminal)
  rw [hname, spelled.apart t' ht' t ht htext]

/-- Cells with fields of one name are the same or overlap. -/
theorem cellName_eq_iff_of_ne (spelled : g.Spelled) (ht : t ∈ g.terminals) (ht' : t' ∈ g.terminals)
    (hne : (v, t) ≠ (v', t')) : cellName (v, t) = cellName (v', t') ↔
      Overlap (v, t) (v', t') ∨ Overlap (v', t') (v, t) := by
  rw [cellName_eq_iff, or_iff_right]
  rintro ⟨rfl, htext⟩
  exact hne (by rw [spelled.apart t ht t' ht' htext])

theorem eq_of_cellName_eq (spelled : g.Spelled) (apart : g.KeepsCellsApart)
    (hv : v ∈ g.variableNames) (ht : t ∈ g.terminals) (hv' : v' ∈ g.variableNames)
    (ht' : t' ∈ g.terminals) (h : cellName (v, t) = cellName (v', t')) : (v, t) = (v', t') := by
  by_contra hne
  rcases (cellName_eq_iff_of_ne spelled ht ht' hne).mp h with hoverlap | hoverlap
  · exact apart v hv v' hv' t ht t' ht' hoverlap
  · exact apart v' hv' v hv t' ht' t ht hoverlap

section Fields

variable {table : ParseTable} (spelled : g.Spelled) (apart : g.KeepsCellsApart)
  (within : ∀ v t cell, table.get? v t = some cell → v ∈ g.variableNames ∧ t ∈ g.terminals)

include spelled apart within

/-- No name is given to two fields. -/
theorem nodup_map_cellName : (table.cells.keys.map cellName).Nodup := by
  refine table.cells.nodup_keys.map_on fun k hk k' hk' hname => ?_
  obtain ⟨⟨⟨v, t⟩, cell⟩, hcell, rfl⟩ := List.mem_map.mp hk
  obtain ⟨⟨⟨v', t'⟩, cell'⟩, hcell', rfl⟩ := List.mem_map.mp hk'
  obtain ⟨hv, ht⟩ := within v t cell (OrderedMap.mem_toList.mp hcell)
  obtain ⟨hv', ht'⟩ := within v' t' cell' (OrderedMap.mem_toList.mp hcell')
  exact eq_of_cellName_eq spelled apart hv ht hv' ht' hname

/-- **A field tells of its own cell.** -/
theorem mem_fields_iff (hv : v ∈ g.variableNames) (ht : t ∈ g.terminals) {s : String} :
    (cellName (v, t), Json.text s) ∈
        (table.cells.toList.map fun entry => (cellName entry.1, Json.text entry.2.body.text)) ↔
      ∃ cell, table.get? v t = some cell ∧ cell.body.text = s := by
  constructor
  · intro hfield
    obtain ⟨⟨⟨v', t'⟩, cell⟩, hcell, hpair⟩ := List.mem_map.mp hfield
    obtain ⟨hname, hbody⟩ := Prod.mk.inj hpair
    have hget : table.get? v' t' = some cell := OrderedMap.mem_toList.mp hcell
    obtain ⟨hv', ht'⟩ := within v' t' cell hget
    obtain ⟨rfl, rfl⟩ := Prod.mk.inj (eq_of_cellName_eq spelled apart hv' ht' hv ht hname)
    exact ⟨cell, hget, Json.text.inj hbody⟩
  · rintro ⟨cell, hcell, rfl⟩
    exact List.mem_map.mpr ⟨((v, t), cell), OrderedMap.mem_toList.mpr hcell, rfl⟩

end Fields

/-- **Which cells of a table share a field.**

In the text of a table different cells have different lines.  In its structured value they have
fields of one name exactly if they overlap.  If no names of the grammar make cells overlap, then no
name is given to two fields, and for every variable and terminal there is a field exactly if there
is a cell, with the text of the body in it. -/
theorem fields_apart {options : GrammarOptions} {cs : List Char} {p : Parser}
    (reachable : options.Reachable) (h : Grammar.ofText options cs = .ok g)
    (hp : Parser.ofGrammar g = .ok p) :
    (∀ v t cell v' t' cell', p.table.get? v t = some cell → p.table.get? v' t' = some cell' →
      (v, t) ≠ (v', t') →
        cellLine ((v, t), cell) ≠ cellLine ((v', t'), cell') ∧
        (cellName (v, t) = cellName (v', t') ↔
          Overlap (v, t) (v', t') ∨ Overlap (v', t') (v, t))) ∧
    ∃ fields, p.table.toJson = .object fields ∧ fields.length = p.table.size ∧
      (g.KeepsCellsApart → (fields.map Prod.fst).Nodup ∧
        ∀ v ∈ g.variableNames, ∀ t ∈ g.terminals, ∀ s, (cellName (v, t), Json.text s) ∈ fields ↔
          ∃ cell, p.table.get? v t = some cell ∧ cell.body.text = s) := by
  have wellFormed := Grammar.wellFormed_of_ofText h
  have spelled := Grammar.spelled_of_ofText reachable h
  have within : ∀ v t cell, p.table.get? v t = some cell →
      v ∈ g.variableNames ∧ t ∈ g.terminals :=
    fun v t cell hcell => Parser.mem_of_cell wellFormed hp hcell
  refine ⟨fun v t cell v' t' cell' hcell hcell' hne => ?_, _, rfl, List.length_map _,
    fun apart => ⟨?_, fun v hv t ht s => mem_fields_iff spelled apart within hv ht⟩⟩
  · obtain ⟨hv, ht⟩ := within v t cell hcell
    obtain ⟨hv', ht'⟩ := within v' t' cell' hcell'
    exact ⟨fun hline => hne (eq_of_cellLine_eq spelled hv ht hv' ht' hline),
      cellName_eq_iff_of_ne spelled ht ht' hne⟩
  · have hnodup := nodup_map_cellName spelled apart within
    rw [OrderedMap.keys, List.map_map] at hnodup
    rw [List.map_map]
    exact hnodup

/-- Terminals with commas are told apart next to a variable without: there is a field for `x,y` and
none for `,`. -/
theorem fields_apart_commas : ∃ g p fields,
    Grammar.ofText .default "S -> ( S , S ) | x,y".toList = .ok g ∧ Parser.ofGrammar g = .ok p ∧
      p.table.toJson = .object fields ∧ (fields.map Prod.fst).Nodup ∧
      (cellName ("S", .named "x,y"), Json.text "x,y") ∈ fields ∧
      ∀ s, (cellName ("S", .named ","), Json.text s) ∉ fields := by
  have hread : ∃ g p, Grammar.ofText .default "S -> ( S , S ) | x,y".toList = .ok g ∧
      Parser.ofGrammar g = .ok p ∧ (∀ v ∈ g.variableNames, ',' ∉ v.toList) ∧
      "S" ∈ g.variableNames ∧ .named "x,y" ∈ g.terminals ∧ .named "," ∈ g.terminals ∧
      p.table.get? "S" (.named "x,y") = some ⟨1, [.terminal (.named "x,y")]⟩ ∧
      p.table.get? "S" (.named ",") = none :=
    ⟨_, _, rfl, rfl, by decide, by decide, by decide, by decide, by decide, by decide⟩
  obtain ⟨g, p, hg, hp, hcomma, hv, ht, ht', hcell, hnone⟩ := hread
  obtain ⟨-, fields, hfields, -, htells⟩ := fields_apart .default hg hp
  obtain ⟨hnodup, hcells⟩ := htells (Grammar.keepsCellsApart_of_comma (.inl hcomma))
  refine ⟨g, p, fields, hg, hp, hfields, hnodup, (hcells "S" hv _ ht _).mpr ⟨_, hcell, by decide⟩,
    fun s hfield => ?_⟩
  obtain ⟨cell, hsome, -⟩ := (hcells "S" hv _ ht' s).mp hfield
  rw [hnone] at hsome
  contradiction

/-- In this grammar two cells overlap, and both fields are named `A,b,c`. -/
theorem fields_not_apart : ∃ g p, Grammar.ofText .default "A -> b,c A,b\nA,b -> c".toList = .ok g ∧
    Parser.ofGrammar g = .ok p ∧ (p.table.get? "A" (.named "b,c")).isSome ∧
    (p.table.get? "A,b" (.named "c")).isSome ∧
    cellName ("A", .named "b,c") = cellName ("A,b", .named "c") ∧
    p.table.toJson = .object [("A,b,c", .text "b,c A,b"), ("A,b,c", .text "c")] :=
  ⟨_, _, rfl, rfl, by decide, by decide, by decide, rfl⟩

end ParseTable

end FormalLang
