import FormalLang.Grammar.Leading
import FormalLang.Proofs.Grammar.WellFormed
import FormalLang.Proofs.Ordered.Growth

/-!
# Two searches for what a variable can begin with

`Grammar.leaders` adds round after round what the members of a set lead to.  It ends in the least
set that is closed under leading (`spread_closed`, `spread_subset`).

The same question is answered by a walk with a stack and a set of visited variables, which looks up
in a table what a variable leads to, and stops where the variable that it started from comes up
again (`Grammar.tryHasLeftRecursion`).  For a grammar in order every look-up finds an entry, and the
answers agree (`Grammar.tryHasLeftRecursion_eq`): what the walk has visited at the end is closed, so
that it has passed everything in the least closed set.
-/

namespace FormalLang

/-! ## 1. Spreading -/

section Spread

variable {α : Type} [Ordered α] [DecidableEq α] {next : α → OrderedSet α} {s : OrderedSet α}

theorem subset_spread : ∀ {n : Nat} {s : OrderedSet α} {x : α}, x ∈ s → x ∈ spread next n s
  | 0, _, _, h => h
  | n + 1, s, x, h => by
    rw [spread]
    split
    · exact h
    · exact subset_spread (OrderedSet.mem_union.mpr (.inl h))

/-- **Spreading stays in every closed set** that it begins in. -/
theorem spread_subset {P : α → Prop} (closed : ∀ x, P x → ∀ y ∈ next x, P y) :
    ∀ {n : Nat} {s : OrderedSet α}, (∀ x ∈ s, P x) → ∀ x ∈ spread next n s, P x
  | 0, _, h => h
  | n + 1, s, h => by
    rw [spread]
    split
    · exact h
    · refine spread_subset closed fun x hx => ?_
      rcases OrderedSet.mem_union.mp hx with hx | hx
      · exact h x hx
      · obtain ⟨y, hy, hx⟩ := OrderedSet.mem_unionOf.mp hx
        exact closed y (h y hy) x hx

/-- **Spreading ends in a closed set**, after as many rounds as elements can be added. -/
theorem spread_closed {l : List α} (closed : ∀ x ∈ l, ∀ y ∈ next x, y ∈ l) :
    ∀ {n : Nat} {s : OrderedSet α}, (∀ x ∈ s, x ∈ l) → l.length ≤ s.size + n →
      ∀ x ∈ spread next n s, ∀ y ∈ next x, y ∈ spread next n s := by
  have hgrown : ∀ {s : OrderedSet α}, (∀ x ∈ s, x ∈ l) →
      ∀ x ∈ s ∪ OrderedSet.unionOf next s.toList, x ∈ l := by
    intro s hs x hx
    rcases OrderedSet.mem_union.mp hx with hx | hx
    · exact hs x hx
    · obtain ⟨y, hy, hx⟩ := OrderedSet.mem_unionOf.mp hx
      exact closed y (hs y hy) x hx
  have hfixed : ∀ {s : OrderedSet α}, s ∪ OrderedSet.unionOf next s.toList = s →
      ∀ x ∈ s, ∀ y ∈ next x, y ∈ s := by
    intro s heq x hx y hy
    rw [← heq]
    exact OrderedSet.mem_union.mpr (.inr (OrderedSet.mem_unionOf.mpr ⟨x, hx, hy⟩))
  have hsub : ∀ s : OrderedSet α, ∀ x ∈ s, x ∈ s ∪ OrderedSet.unionOf next s.toList :=
    fun s x hx => OrderedSet.mem_union.mpr (.inl hx)
  intro n
  induction n with
  | zero =>
    intro s hs hlength
    have hsize := OrderedSet.size_le_length (hgrown hs)
    exact hfixed (OrderedSet.eq_of_subset_of_size_le (hsub s) (by omega)).symm
  | succ n ih =>
    intro s hs hlength
    rw [spread]
    split
    · exact hfixed ‹_›
    · rename_i hne
      refine ih (hgrown hs) ?_
      have hlt : s.size < (s ∪ OrderedSet.unionOf next s.toList).size := by
        by_contra hle
        exact hne (OrderedSet.eq_of_subset_of_size_le (hsub s) (Nat.not_lt.mp hle)).symm
      omega

end Spread

namespace Grammar

variable {g : Grammar} {first : FirstSets} {name : String}

theorem variable_mem_of_mem_leadingOf : ∀ {body : List Symbol},
    name ∈ leadingOf first body → .variable name ∈ body
  | .epsilon :: _, h => List.mem_cons_of_mem _ (variable_mem_of_mem_leadingOf h)
  | .variable v :: rest, h => by
    rw [leadingOf] at h
    split at h
    · rcases List.mem_cons.mp h with rfl | h
      · exact List.mem_cons_self
      · exact List.mem_cons_of_mem _ (variable_mem_of_mem_leadingOf h)
    · rw [List.mem_singleton.mp h]
      exact List.mem_cons_self

/-- What a variable leads to are variables. -/
theorem WellFormed.mem_variableNames_of_mem_leading (wellFormed : g.WellFormed) {v : String}
    (h : v ∈ g.leading first name) : v ∈ g.variableNames := by
  obtain ⟨-, -, rules⟩ := wellFormed_iff.mp wellFormed
  obtain ⟨body, hbody, hv⟩ := List.mem_flatMap.mp (OrderedSet.mem_ofList.mp h)
  exact (rules name body hbody).2 v (variable_mem_of_mem_leadingOf hv)

/-- **The leaders of a variable are closed under leading.** -/
theorem WellFormed.leaders_closed (wellFormed : g.WellFormed) :
    ∀ x ∈ g.leaders first name, ∀ y ∈ g.leading first x, y ∈ g.leaders first name :=
  spread_closed (fun _ _ _ hy => wellFormed.mem_variableNames_of_mem_leading hy)
    (fun _ hx => wellFormed.mem_variableNames_of_mem_leading hx) (by omega)

/-! ## 2. The walk -/

/-- What each of some variables leads to. -/
def tryLeadingTable (g : Grammar) (first : FirstSets) :
    List String → Except Fault (OrderedMap String (OrderedSet String))
  | [] => .ok ∅
  | name :: rest =>
    match g.getBodies name with
    | .error f => .error f
    | .ok bodies =>
      match g.tryLeadingTable first rest with
      | .error f => .error f
      | .ok table =>
        .ok (table.insert name (OrderedSet.ofList (bodies.flatMap (leadingOf first))))

/-- A walk in progress. -/
structure Walk where
  visited : OrderedSet String
  /-- The variables to be looked at, the next one first. -/
  pending : List String

/-- Looks at the next variable, and stops where that is the target. -/
def Walk.tryStep (table : OrderedMap String (OrderedSet String)) (target : String) (w : Walk) :
    Except Fault (Option Walk) :=
  match w.pending with
  | [] => .ok none
  | name :: rest =>
    if name = target then .ok none
    else if name ∈ w.visited then .ok (some { w with pending := rest })
    else
      match table.find? name with
      | none => .error .missingVariable
      | some more => .ok (some ⟨w.visited.insert name, more.toList ++ rest⟩)

/-- A number of rounds that suffices for a walk through so many variables. -/
def Walk.rounds (size : Nat) : Nat := (size + 1) * (size + 1)

/-- Whether a walk from what a variable leads to comes to the variable itself. -/
def tryLeadsItself (table : OrderedMap String (OrderedSet String)) (size : Nat) (name : String) :
    Except Fault Bool :=
  match table.find? name with
  | none => .error .missingVariable
  | some more =>
    match iterateE (Walk.tryStep table name) (Walk.rounds size) ⟨∅, more.toList⟩ with
    | .error f => .error f
    | .ok w => .ok !w.pending.isEmpty

/-- Whether one of some variables leads to itself; the first one that does ends the search. -/
def tryAnyLeadsItself (table : OrderedMap String (OrderedSet String)) (size : Nat) :
    List String → Except Fault Bool
  | [] => .ok false
  | name :: rest =>
    match tryLeadsItself table size name with
    | .error f => .error f
    | .ok true => .ok true
    | .ok false => tryAnyLeadsItself table size rest

/-- Whether some variable derives a form that begins with itself, found by walks. -/
def tryHasLeftRecursion (g : Grammar) : Except Fault Bool :=
  match FirstSets.ofGrammar g with
  | .error f => .error f
  | .ok first =>
    match g.tryLeadingTable first g.variableNames with
    | .error f => .error f
    | .ok table => tryAnyLeadsItself table g.variableNames.length g.variableNames

/-! ## 3. The walk finds what spreading finds -/

/-- The table has an entry for every variable. -/
theorem exists_tryLeadingTable (g : Grammar) (first : FirstSets) :
    ∀ {names : List String}, (∀ name ∈ names, name ∈ g.variableNames) →
      ∃ table, g.tryLeadingTable first names = .ok table ∧ ∀ name, table.find? name =
        if name ∈ names then some (g.leading first name) else none
  | [], _ => ⟨∅, rfl, fun _ => rfl⟩
  | v :: names, h => by
    obtain ⟨table, htable, hfind⟩ :=
      exists_tryLeadingTable g first fun u hu => h u (List.mem_cons_of_mem _ hu)
    refine ⟨_, by rw [tryLeadingTable, getBodies_eq_ok (h v List.mem_cons_self), htable],
      fun name => ?_⟩
    rw [OrderedMap.find?_insert, hfind]
    by_cases hname : name = v
    · simp [hname, leading]
    · simp [hname]

/-- What holds of a walk at any time. -/
structure Walk.Sound (g : Grammar) (first : FirstSets) (target : String) (w : Walk) : Prop where
  visited : ∀ x ∈ w.visited, x ∈ g.leaders first target
  pending : ∀ x ∈ w.pending, x ∈ g.leaders first target
  avoided : target ∉ w.visited
  started : ∀ y ∈ g.leading first target, y ∈ w.visited ∨ y ∈ w.pending
  settled : ∀ x ∈ w.visited, ∀ y ∈ g.leading first x, y ∈ w.visited ∨ y ∈ w.pending

/-- What a walk can still cost: the stack, and all that variables not yet visited put on it. -/
def Walk.weight (g : Grammar) (w : Walk) : Nat :=
  w.pending.length + (g.variableNames.length - w.visited.size) * (g.variableNames.length + 1)

variable {table : OrderedMap String (OrderedSet String)} {target : String} {w : Walk}

theorem Walk.tryStep_cons {visited : OrderedSet String} {rest : List String} :
    Walk.tryStep table target ⟨visited, name :: rest⟩ =
      if name = target then .ok none
      else if name ∈ visited then .ok (some ⟨visited, rest⟩)
      else
        match table.find? name with
        | none => .error .missingVariable
        | some more => .ok (some ⟨visited.insert name, more.toList ++ rest⟩) := rfl

theorem WellFormed.mem_variableNames_of_mem_leaders (wellFormed : g.WellFormed) {v : String}
    (h : v ∈ g.leaders first name) : v ∈ g.variableNames :=
  spread_subset (P := fun v => v ∈ g.variableNames)
    (fun _ _ _ hy => wellFormed.mem_variableNames_of_mem_leading hy)
    (fun _ hx => wellFormed.mem_variableNames_of_mem_leading hx) v h

section Round

variable {visited : OrderedSet String} {rest : List String}

/-- A variable that has been visited is dropped from the stack. -/
theorem Walk.Sound.drop (h : Walk.Sound g first target ⟨visited, name :: rest⟩)
    (hvisited : name ∈ visited) : Walk.Sound g first target ⟨visited, rest⟩ := by
  have hkeep : ∀ y, y ∈ visited ∨ y ∈ name :: rest → y ∈ visited ∨ y ∈ rest := by
    rintro y (hy | hy)
    · exact .inl hy
    · rcases List.mem_cons.mp hy with rfl | hy
      · exact .inl hvisited
      · exact .inr hy
  exact ⟨h.visited, fun x hx => h.pending x (List.mem_cons_of_mem _ hx), h.avoided,
    fun y hy => hkeep y (h.started y hy), fun x hx y hy => hkeep y (h.settled x hx y hy)⟩

/-- A variable that is not the target is visited, and what it leads to is put on the stack. -/
theorem Walk.Sound.visit (wellFormed : g.WellFormed)
    (h : Walk.Sound g first target ⟨visited, name :: rest⟩) (hne : name ≠ target) :
    Walk.Sound g first target ⟨visited.insert name, (g.leading first name).toList ++ rest⟩ := by
  have hleader := h.pending name List.mem_cons_self
  have hkeep : ∀ y, y ∈ visited ∨ y ∈ name :: rest →
      y ∈ visited.insert name ∨ y ∈ (g.leading first name).toList ++ rest := by
    rintro y (hy | hy)
    · exact .inl (OrderedSet.mem_insert.mpr (.inr hy))
    · rcases List.mem_cons.mp hy with rfl | hy
      · exact .inl (OrderedSet.mem_insert.mpr (.inl rfl))
      · exact .inr (List.mem_append_right _ hy)
  refine ⟨fun x hx => ?_, fun x hx => ?_, fun hmem => ?_, fun y hy => hkeep y (h.started y hy),
    fun x hx y hy => ?_⟩
  · rcases OrderedSet.mem_insert.mp hx with rfl | hx
    · exact hleader
    · exact h.visited x hx
  · rcases List.mem_append.mp hx with hx | hx
    · exact wellFormed.leaders_closed name hleader x hx
    · exact h.pending x (List.mem_cons_of_mem _ hx)
  · rcases OrderedSet.mem_insert.mp hmem with heq | hmem
    · exact hne heq.symm
    · exact h.avoided hmem
  · rcases OrderedSet.mem_insert.mp hx with rfl | hx
    · exact .inr (List.mem_append_left _ hy)
    · exact hkeep y (h.settled x hx y hy)

/-- What a variable puts on the stack is less than what it could put there before it was visited. -/
theorem Walk.weight_visit_lt (wellFormed : g.WellFormed) (hnew : name ∉ visited)
    (hvariables : ∀ x ∈ visited.insert name, x ∈ g.variableNames) :
    Walk.weight g ⟨visited.insert name, (g.leading first name).toList ++ rest⟩ <
      Walk.weight g ⟨visited, name :: rest⟩ := by
  have hmore : (g.leading first name).size ≤ g.variableNames.length :=
    OrderedSet.size_le_length fun _ hy => wellFormed.mem_variableNames_of_mem_leading hy
  have hsize := OrderedSet.size_le_length hvariables
  rw [OrderedSet.size_insert hnew] at hsize
  obtain ⟨room, hroom⟩ := Nat.exists_eq_add_of_le hsize
  simp only [Walk.weight, List.length_append, List.length_cons, OrderedSet.size_insert hnew]
  rw [OrderedSet.size] at hmore
  have hbefore : g.variableNames.length - visited.size = room + 1 := by omega
  have hafter : g.variableNames.length - (visited.size + 1) = room := by omega
  rw [hbefore, hafter, Nat.add_mul, Nat.one_mul]
  omega

end Round

/-- **A round of a walk finds its entry, keeps the invariant and lowers the weight.** -/
theorem Walk.Sound.step (wellFormed : g.WellFormed)
    (hfind : ∀ name ∈ g.variableNames, table.find? name = some (g.leading first name))
    (h : w.Sound g first target) : Walk.tryStep table target w = .ok none ∨
      ∃ w', Walk.tryStep table target w = .ok (some w') ∧ w'.Sound g first target ∧
        w'.weight g < w.weight g := by
  obtain ⟨visited, pending⟩ := w
  cases pending with
  | nil => exact .inl rfl
  | cons name rest =>
    by_cases htarget : name = target
    · exact .inl (if_pos htarget)
    by_cases hvisited : name ∈ visited
    · refine .inr ⟨⟨visited, rest⟩, by rw [Walk.tryStep_cons, if_neg htarget, if_pos hvisited],
        h.drop hvisited, ?_⟩
      simp only [Walk.weight, List.length_cons]
      omega
    · have hsound := h.visit wellFormed htarget
      have hvariables : ∀ x ∈ visited.insert name, x ∈ g.variableNames :=
        fun x hx => wellFormed.mem_variableNames_of_mem_leaders (hsound.visited x hx)
      have hname := hvariables name (OrderedSet.mem_insert.mpr (.inl rfl))
      exact .inr ⟨_, by rw [Walk.tryStep_cons, if_neg htarget, if_neg hvisited, hfind name hname],
        hsound, Walk.weight_visit_lt wellFormed hvisited hvariables⟩

theorem Walk.weight_start_lt (wellFormed : g.WellFormed) :
    Walk.weight g ⟨∅, (g.leading first name).toList⟩ < Walk.rounds g.variableNames.length := by
  have hmore : (g.leading first name).size ≤ g.variableNames.length :=
    OrderedSet.size_le_length fun _ hy => wellFormed.mem_variableNames_of_mem_leading hy
  have hempty : (∅ : OrderedSet String).size = 0 := rfl
  rw [OrderedSet.size] at hmore
  simp only [Walk.weight, Walk.rounds, hempty, Nat.sub_zero]
  rw [Nat.add_mul (g.variableNames.length) 1]
  omega

/-- **A walk comes to its own variable exactly if spreading does.** -/
theorem WellFormed.tryLeadsItself_eq (wellFormed : g.WellFormed)
    (hfind : ∀ name ∈ g.variableNames, table.find? name = some (g.leading first name))
    (hname : name ∈ g.variableNames) :
    tryLeadsItself table g.variableNames.length name =
      .ok (decide (name ∈ g.leaders first name)) := by
  have hstart : Walk.Sound g first name ⟨∅, (g.leading first name).toList⟩ :=
    ⟨nofun, fun _ hx => subset_spread hx, nofun, fun _ hy => .inr hy, nofun⟩
  obtain ⟨last, hlast, sound, hdone⟩ := iterateE_done (Walk.weight g)
    (fun w h => Walk.Sound.step wellFormed hfind h) _ _ hstart (Walk.weight_start_lt wellFormed)
  rw [tryLeadsItself, hfind name hname]
  simp only [hlast]
  refine congrArg Except.ok ?_
  obtain ⟨visited, pending⟩ := last
  cases pending with
  | nil =>
    -- what was visited is closed, so that nothing else is led to
    have hclosed : ∀ x ∈ g.leaders first name, x ∈ visited :=
      spread_subset (P := fun x => x ∈ visited)
        (fun x hx y hy => (sound.settled x hx y hy).resolve_right List.not_mem_nil)
        (fun y hy => (sound.started y hy).resolve_right List.not_mem_nil)
    exact (decide_eq_false fun hmem => sound.avoided (hclosed name hmem)).symm
  | cons next rest =>
    have htarget : next = name := by
      by_contra hne
      rw [Walk.tryStep_cons, if_neg hne] at hdone
      have hnext := wellFormed.mem_variableNames_of_mem_leaders
        (sound.pending next List.mem_cons_self)
      split at hdone
      · exact absurd (Except.ok.inj hdone) (Option.some_ne_none _)
      · rw [hfind next hnext] at hdone
        exact absurd (Except.ok.inj hdone) (Option.some_ne_none _)
    exact (decide_eq_true (htarget ▸ sound.pending next List.mem_cons_self)).symm

/-- **The walks look up what is there, and they detect left recursion.** -/
theorem WellFormed.tryHasLeftRecursion_eq (wellFormed : g.WellFormed) :
    g.tryHasLeftRecursion = g.hasLeftRecursion := by
  rw [tryHasLeftRecursion, hasLeftRecursion]
  cases hfirst : FirstSets.ofGrammar g with
  | error f => rfl
  | ok first =>
    obtain ⟨table, htable, hfind⟩ := exists_tryLeadingTable g first fun _ h => h
    have hentry : ∀ name ∈ g.variableNames, table.find? name = some (g.leading first name) :=
      fun name hname => by rw [hfind, if_pos hname]
    have hany : ∀ {names : List String}, (∀ name ∈ names, name ∈ g.variableNames) →
        tryAnyLeadsItself table g.variableNames.length names =
          .ok (names.any fun name => decide (name ∈ g.leaders first name)) := by
      intro names
      induction names with
      | nil => exact fun _ => rfl
      | cons name names ih =>
        intro h
        rw [tryAnyLeadsItself, wellFormed.tryLeadsItself_eq hentry (h name List.mem_cons_self),
          List.any_cons]
        by_cases hleads : name ∈ g.leaders first name
        · simp [hleads]
        · simp [hleads, ih fun v hv => h v (List.mem_cons_of_mem _ hv)]
    simp only [htable]
    exact hany fun _ h => h

end Grammar

end FormalLang
