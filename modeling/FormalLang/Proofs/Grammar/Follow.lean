import FormalLang.Grammar.Follow
import FormalLang.Proofs.Grammar.First

/-!
# The FOLLOW sets are closed under the rules

A terminal follows a variable if what stands behind the variable in a body can begin with it, and
if all of that can vanish, everything that follows the head of the body follows the variable too.
Sets for which this holds, with the end of the input behind the start, are closed
(`FollowSets.Closed`).

* `Seeds.addHeads_spec`: the pass over the bodies finds exactly what stands behind each variable and
  exactly which variables end a body.
* `exists_compute_closed`: handing the sets on ends in closed sets.

**Why handing on ends.**  A variable leaves the queue for good, or comes back because its set grew.
Sets only take up what some set held at first, so that the room left in them pays for every return
(`Search.weight`).
-/

namespace FormalLang

/-- What stands behind an occurrence of a variable in a sequence of symbols. -/
inductive Behind (name : String) : List Symbol → List Symbol → Prop where
  | here (after : List Symbol) : Behind name (.variable name :: after) after
  | there {rest after : List Symbol} (s : Symbol) (h : Behind name rest after) :
      Behind name (s :: rest) after

theorem behind_nil_iff {name : String} {after : List Symbol} : Behind name [] after ↔ False :=
  ⟨nofun, False.elim⟩

theorem behind_variable_cons_iff {name v : String} {rest after : List Symbol} :
    Behind name (.variable v :: rest) after ↔ name = v ∧ after = rest ∨ Behind name rest after := by
  constructor
  · rintro (_ | ⟨_, h⟩)
    · exact .inl ⟨rfl, rfl⟩
    · exact .inr h
  · rintro (⟨rfl, rfl⟩ | h)
    · exact .here _
    · exact .there _ h

theorem behind_cons_iff {name : String} {s : Symbol} {rest after : List Symbol}
    (hs : ∀ v, s ≠ .variable v) : Behind name (s :: rest) after ↔ Behind name rest after := by
  constructor
  · rintro (_ | ⟨_, h⟩)
    · exact absurd rfl (hs name)
    · exact h
  · exact .there s

theorem Behind.variable_mem {name : String} {body after : List Symbol}
    (h : Behind name body after) : .variable name ∈ body := by
  induction h with
  | here after => exact List.mem_cons_self
  | there s _ ih => exact List.mem_cons_of_mem _ ih

/-- What is behind a symbol is behind its goal. -/
theorem Behind.exists_goals {name : String} {body after : List Symbol}
    (h : Behind name body after) :
    ∃ before, Body.goals body = before ++ .variable name :: Body.goals after := by
  induction h with
  | here after => exact ⟨[], rfl⟩
  | there s _ ih =>
    obtain ⟨before, hgoals⟩ := ih
    rcases s with t | v | _
    · exact ⟨.terminal t :: before, congrArg (List.cons (Goal.terminal t)) hgoals⟩
    · exact ⟨.variable v :: before, congrArg (List.cons (Goal.variable v)) hgoals⟩
    · exact ⟨before, hgoals⟩

/-- What is behind a goal of a body is behind its symbol. -/
theorem exists_behind_of_suffix {name : String} {back : List Goal} : ∀ {body : List Symbol},
    .variable name :: back <:+ Body.goals body → ∃ after, Behind name body after ∧
      Body.goals after = back
  | [], h => by cases List.suffix_nil.mp h
  | .epsilon :: rest, h => by
    change .variable name :: back <:+ Body.goals rest at h
    obtain ⟨after, hafter, hback⟩ := exists_behind_of_suffix h
    exact ⟨after, .there _ hafter, hback⟩
  | .terminal e :: rest, h => by
    change .variable name :: back <:+ .terminal e :: Body.goals rest at h
    rcases List.suffix_cons_iff.mp h with heq | h
    · cases heq
    · obtain ⟨after, hafter, hback⟩ := exists_behind_of_suffix h
      exact ⟨after, .there _ hafter, hback⟩
  | .variable v :: rest, h => by
    change .variable name :: back <:+ .variable v :: Body.goals rest at h
    rcases List.suffix_cons_iff.mp h with heq | h
    · obtain ⟨hname, rfl⟩ := List.cons.inj heq
      obtain rfl := Goal.variable.inj hname
      exact ⟨rest, .here rest, rfl⟩
    · obtain ⟨after, hafter, hback⟩ := exists_behind_of_suffix h
      exact ⟨after, .there _ hafter, hback⟩

theorem mem_filterMap_terminal?_iff {l : List Symbol} {t : Terminal} :
    t ∈ l.filterMap Symbol.terminal? ↔ .terminal t ∈ l := by
  rw [List.mem_filterMap]
  constructor
  · rintro ⟨x, hx, h⟩
    cases x <;> simp_all [Symbol.terminal?]
  · exact fun h => ⟨_, h, rfl⟩

namespace FollowSets

/-! ## 1. Closed sets -/

/-- **Sets are closed under a grammar**: the end of the input follows the start, and what stands
behind a variable passes on what it can begin with and, if it can vanish, what follows the head. -/
structure Closed (g : Grammar) (first : FirstSets) (follow : FollowSets) : Prop where
  start : .endOfInput ∈ follow.getD g.start
  behind : ∀ head, ∀ body ∈ g.bodiesOf head, ∀ name after, Behind name body after →
    ∀ t, first.Begins (Body.goals after) (.terminal t) → t ∈ follow.getD name
  heirs : ∀ head, ∀ body ∈ g.bodiesOf head, ∀ name after, Behind name body after →
    first.Begins (Body.goals after) .epsilon → ∀ t ∈ follow.getD head, t ∈ follow.getD name

/-! ## 2. The pass over the bodies -/

theorem getD_insert {sets : OrderedMap String (OrderedSet Terminal)} {name v : String}
    {s : OrderedSet Terminal} : FollowSets.getD ⟨sets.insert name s⟩ v =
      if v = name then s else FollowSets.getD ⟨sets⟩ v := by
  rw [getD, get?, OrderedMap.find?_insert]
  split
  · rfl
  · rfl

theorem mem_terminalsOf_iff {s : OrderedSet Symbol} {t : Terminal} :
    t ∈ terminalsOf s ↔ .terminal t ∈ s := by
  rw [terminalsOf, OrderedSet.mem_ofList, mem_filterMap_terminal?_iff]
  exact Iff.rfl

/-- Whether a name is an heir of a head. -/
def Inherits (heirs : OrderedMap String (OrderedSet String)) (head name : String) : Prop :=
  ∃ s, heirs.find? head = some s ∧ name ∈ s

theorem inherits_alter_iff {heirs : OrderedMap String (OrderedSet String)}
    {head name h v : String} :
    Inherits (heirs.alter head fun s => (s.getD ∅).insert name) h v ↔
      Inherits heirs h v ∨ h = head ∧ v = name := by
  simp only [Inherits, OrderedMap.find?_alter]
  split
  · rename_i heq
    subst heq
    cases heirs.find? h with
    | none => simp
    | some s =>
      simp only [Option.some.injEq, exists_eq_left', Option.getD_some, OrderedSet.mem_insert,
        true_and]
      exact or_comm
  · rename_i hne
    simp [hne]

namespace Seeds

variable {first : FirstSets}

/-- What some bodies of a head add to the seeds: what can stand behind each variable, and the
variables behind which everything can vanish. -/
structure Adds (first : FirstSets) (head : String) (bodies : List (List Symbol))
    (seeds seeds' : Seeds) : Prop where
  follow : ∀ name t, t ∈ seeds'.follow.getD name ↔ t ∈ seeds.follow.getD name ∨
    ∃ body ∈ bodies, ∃ after, Behind name body after ∧
      first.Begins (Body.goals after) (.terminal t)
  heirs : ∀ h name, Inherits seeds'.heirs h name ↔ Inherits seeds.heirs h name ∨
    h = head ∧ name ≠ head ∧ ∃ body ∈ bodies, ∃ after, Behind name body after ∧
      first.Begins (Body.goals after) .epsilon
  known : ∀ name, (seeds'.follow.get? name).isSome ↔ (seeds.follow.get? name).isSome

theorem Adds.nil (head : String) (seeds : Seeds) : Adds first head [] seeds seeds :=
  ⟨by simp, by simp, fun _ => Iff.rfl⟩

theorem Adds.append {head : String} {bodies bodies' : List (List Symbol)}
    {seeds seeds' seeds'' : Seeds} (h : Adds first head bodies seeds seeds')
    (h' : Adds first head bodies' seeds' seeds'') :
    Adds first head (bodies ++ bodies') seeds seeds'' where
  follow name t := by
    rw [h'.follow, h.follow]
    simp only [List.mem_append, or_and_right, exists_or, or_assoc]
  heirs hd name := by
    rw [h'.heirs, h.heirs]
    simp only [List.mem_append, or_and_right, exists_or, or_assoc, and_or_left]
  known name := (h'.known name).trans (h.known name)

/-- A symbol that is no variable adds nothing. -/
theorem Adds.cons_of_ne {head : String} {s : Symbol} {rest : List Symbol} {seeds seeds' : Seeds}
    (hs : ∀ v, s ≠ .variable v) (h : Adds first head [rest] seeds seeds') :
    Adds first head [s :: rest] seeds seeds' where
  follow name t := by
    rw [h.follow]
    simp only [List.mem_singleton, exists_eq_left, behind_cons_iff hs]
  heirs hd name := by
    rw [h.heirs]
    simp only [List.mem_singleton, exists_eq_left, behind_cons_iff hs]
  known := h.known

/-- The seeds after one occurrence of a variable. -/
def afterVariable (head name : String) (behind : OrderedSet Symbol) (known : OrderedSet Terminal)
    (seeds : Seeds) : Seeds where
  follow := ⟨seeds.follow.sets.insert name (known ∪ terminalsOf behind)⟩
  heirs :=
    if .epsilon ∈ behind ∧ name ≠ head then
      seeds.heirs.alter head fun s => (s.getD ∅).insert name
    else seeds.heirs

/-- A variable adds what its own place says, and then what the rest says. -/
theorem Adds.cons {head v : String} {rest : List Symbol} {behind : OrderedSet Symbol}
    {known : OrderedSet Terminal} {seeds seeds' : Seeds} (hbehind : first.ofBody rest = .ok behind)
    (hknown : seeds.follow.get? v = some known)
    (h : Adds first head [rest] (seeds.afterVariable head v behind known) seeds') :
    Adds first head [.variable v :: rest] seeds seeds' where
  follow name t := by
    rw [h.follow, afterVariable, getD_insert]
    simp only [List.mem_singleton, exists_eq_left, behind_variable_cons_iff, or_and_right,
      exists_or]
    by_cases hname : name = v
    · subst hname
      have hgetD : seeds.follow.getD name = known := by rw [getD, hknown, Option.getD_some]
      rw [if_pos rfl, OrderedSet.mem_union, mem_terminalsOf_iff,
        FirstSets.mem_ofBody_iff hbehind, hgetD]
      simp [or_assoc]
    · rw [if_neg hname]
      simp [hname]
  heirs hd name := by
    rw [h.heirs]
    simp only [List.mem_singleton, exists_eq_left, behind_variable_cons_iff, or_and_right,
      exists_or, afterVariable]
    split
    · rename_i hvanish
      obtain ⟨hε, hne⟩ := hvanish
      rw [inherits_alter_iff]
      rw [FirstSets.mem_ofBody_iff hbehind] at hε
      grind
    · rename_i hvanish
      rw [FirstSets.mem_ofBody_iff hbehind] at hvanish
      grind
  known name := by
    rw [h.known, afterVariable, get?, get?, OrderedMap.find?_insert]
    split
    · rename_i heq
      subst heq
      rw [get?] at hknown
      simp [hknown]
    · rfl

theorem addBody_spec {head : String} : ∀ {body : List Symbol} {seeds : Seeds},
    (∀ v, .variable v ∈ body → (first.get? v).isSome ∧ (seeds.follow.get? v).isSome) →
      ∃ seeds', addBody first head seeds body = .ok seeds' ∧ Adds first head [body] seeds seeds'
  | [], seeds, _ =>
    ⟨seeds, rfl, by simp [behind_nil_iff], by simp [behind_nil_iff], fun _ => Iff.rfl⟩
  | .epsilon :: rest, seeds, h => by
    obtain ⟨seeds', hok, adds⟩ := addBody_spec fun v hv => h v (List.mem_cons_of_mem _ hv)
    exact ⟨seeds', hok, adds.cons_of_ne (by simp)⟩
  | .terminal t :: rest, seeds, h => by
    obtain ⟨seeds', hok, adds⟩ := addBody_spec fun v hv => h v (List.mem_cons_of_mem _ hv)
    exact ⟨seeds', hok, adds.cons_of_ne (by simp)⟩
  | .variable v :: rest, seeds, h => by
    obtain ⟨behind, hbehind⟩ :=
      FirstSets.exists_ofBody fun v hv => (h v (List.mem_cons_of_mem _ hv)).1
    obtain ⟨known, hknown⟩ := Option.isSome_iff_exists.mp (h v List.mem_cons_self).2
    have hrest : ∀ u, .variable u ∈ rest → (first.get? u).isSome ∧
        ((seeds.afterVariable head v behind known).follow.get? u).isSome := by
      intro u hu
      refine ⟨(h u (List.mem_cons_of_mem _ hu)).1, ?_⟩
      rw [afterVariable, get?, OrderedMap.find?_insert]
      split
      · rfl
      · exact (h u (List.mem_cons_of_mem _ hu)).2
    obtain ⟨seeds', hok, adds⟩ := addBody_spec hrest
    refine ⟨seeds', ?_, adds.cons hbehind hknown⟩
    rw [addBody, hbehind, hknown]
    exact hok

theorem addBodies_spec {head : String} : ∀ {bodies : List Body} {seeds : Seeds},
    (∀ body ∈ bodies, ∀ v, .variable v ∈ body →
      (first.get? v).isSome ∧ (seeds.follow.get? v).isSome) →
      ∃ seeds', addBodies first head seeds bodies = .ok seeds' ∧ Adds first head bodies seeds seeds'
  | [], seeds, _ => ⟨seeds, rfl, .nil head seeds⟩
  | body :: rest, seeds, h => by
    obtain ⟨next, hnext, adds⟩ := @addBody_spec first head body seeds (h body List.mem_cons_self)
    have hrest : ∀ b ∈ rest, ∀ v, .variable v ∈ b →
        (first.get? v).isSome ∧ (next.follow.get? v).isSome := by
      intro b hb v hv
      obtain ⟨hfirst, hfollow⟩ := h b (List.mem_cons_of_mem _ hb) v hv
      exact ⟨hfirst, (adds.known v).mpr hfollow⟩
    obtain ⟨seeds', hok, adds'⟩ := addBodies_spec hrest
    refine ⟨seeds', ?_, adds.append adds'⟩
    rw [addBodies, hnext]
    exact hok

/-- What the bodies of some heads add to the seeds. -/
structure Collects (g : Grammar) (first : FirstSets) (heads : List String)
    (seeds seeds' : Seeds) : Prop where
  follow : ∀ name t, t ∈ seeds'.follow.getD name ↔ t ∈ seeds.follow.getD name ∨
    ∃ head ∈ heads, ∃ body ∈ g.bodiesOf head, ∃ after, Behind name body after ∧
      first.Begins (Body.goals after) (.terminal t)
  heirs : ∀ head name, Inherits seeds'.heirs head name ↔ Inherits seeds.heirs head name ∨
    head ∈ heads ∧ name ≠ head ∧ ∃ body ∈ g.bodiesOf head, ∃ after, Behind name body after ∧
      first.Begins (Body.goals after) .epsilon
  known : ∀ name, (seeds'.follow.get? name).isSome ↔ (seeds.follow.get? name).isSome

theorem Collects.cons {g : Grammar} {head : String} {heads : List String}
    {seeds seeds' seeds'' : Seeds} (h : Adds first head (g.bodiesOf head) seeds seeds')
    (h' : Collects g first heads seeds' seeds'') :
    Collects g first (head :: heads) seeds seeds'' where
  follow name t := by
    rw [h'.follow, h.follow]
    simp only [List.mem_cons, exists_eq_or_imp, or_assoc]
  heirs hd name := by
    rw [h'.heirs, h.heirs, or_assoc, List.mem_cons]
    refine or_congr_right ?_
    constructor
    · rintro (⟨rfl, hrest⟩ | ⟨hmem, hrest⟩)
      · exact ⟨.inl rfl, hrest⟩
      · exact ⟨.inr hmem, hrest⟩
    · rintro ⟨rfl | hmem, hrest⟩
      · exact .inl ⟨rfl, hrest⟩
      · exact .inr ⟨hmem, hrest⟩
  known name := (h'.known name).trans (h.known name)

/-- **The pass over the bodies finds what stands behind each variable**, and no more. -/
theorem addHeads_spec {g : Grammar} (wellFormed : g.WellFormed)
    (total : ∀ name ∈ g.variableNames, (first.get? name).isSome) :
    ∀ {heads : List String} {seeds : Seeds}, (∀ head ∈ heads, head ∈ g.variableNames) →
      (∀ name ∈ g.variableNames, (seeds.follow.get? name).isSome) →
      ∃ seeds', addHeads g first seeds heads = .ok seeds' ∧ Collects g first heads seeds seeds'
  | [], seeds, _, _ => ⟨seeds, rfl, by simp, by simp, fun _ => Iff.rfl⟩
  | head :: heads, seeds, known, hseeds => by
    obtain ⟨-, -, rules⟩ := Grammar.wellFormed_iff.mp wellFormed
    have hvariables : ∀ body ∈ g.bodiesOf head, ∀ v, .variable v ∈ body →
        (first.get? v).isSome ∧ (seeds.follow.get? v).isSome := by
      intro body hbody v hv
      have hmem := (rules head body hbody).2 v hv
      exact ⟨total v hmem, hseeds v hmem⟩
    obtain ⟨next, hnext, adds⟩ := addBodies_spec hvariables
    obtain ⟨seeds', hok, collects⟩ := addHeads_spec wellFormed total
      (fun h hh => known h (List.mem_cons_of_mem _ hh))
      (fun name hname => (adds.known name).mpr (hseeds name hname))
    refine ⟨seeds', ?_, .cons adds collects⟩
    rw [addHeads, Grammar.getBodies_eq_ok (known head List.mem_cons_self)]
    simp only [hnext]
    exact hok

end Seeds

/-! ## 3. Handing a set on -/

/-- How many terminals follow a name. -/
def sizeOf (follow : FollowSets) (name : String) : Nat := (follow.getD name).size

namespace Search

/-- What the search can still cost: the queue, and all that growing sets can add to it. -/
def weight (names : List String) (bound : Nat) (s : Search) : Nat :=
  s.pending.length + room bound s.follow.sizeOf names

/-- What happens when a set is handed on to some heirs: they take it up, and those that grow wait
for their turn. -/
structure Handed (names : List String) (all : List Terminal) (handed : OrderedSet Terminal)
    (heirs : List String) (s s' : Search) : Prop where
  taken : ∀ v t, t ∈ s'.follow.getD v ↔ t ∈ s.follow.getD v ∨ v ∈ heirs ∧ t ∈ handed
  waits : ∀ v, v ∈ s.pending → v ∈ s'.pending
  grown : ∀ v, v ∉ s'.pending → s'.follow.getD v = s.follow.getD v
  weight : s'.weight names all.length ≤ s.weight names all.length

variable {names heirs : List String} {all : List Terminal} {handed : OrderedSet Terminal}
  {s s' : Search}

/-- A set that grows makes up for its place in the queue. -/
theorem weight_insert_le {heir : String} (hheir : heir ∈ names) {grown : OrderedSet Terminal}
    (hlt : (s.follow.getD heir).size < grown.size) (hgrown : ∀ t ∈ grown, t ∈ all) :
    weight names all.length ⟨⟨s.follow.sets.insert heir grown⟩,
      if heir ∈ s.pending then s.pending else s.pending ++ [heir]⟩ ≤ s.weight names all.length := by
  have hsizes : ∀ v, FollowSets.sizeOf ⟨s.follow.sets.insert heir grown⟩ v =
      if v = heir then grown.size else s.follow.sizeOf v := by
    intro v
    rw [sizeOf, getD_insert]
    split
    · rfl
    · rfl
  have hroom : room all.length (FollowSets.sizeOf ⟨s.follow.sets.insert heir grown⟩) names <
      room all.length s.follow.sizeOf names := by
    refine room_lt (fun v => ?_) ?_ ?_ hheir
    · rw [hsizes]
      split
      · rename_i heq
        subst heq
        exact Nat.le_of_lt hlt
      · exact Nat.le_refl _
    · rw [hsizes, if_pos rfl]
      exact hlt
    · rw [hsizes, if_pos rfl]
      exact OrderedSet.size_le_length hgrown
  have hpending : (if heir ∈ s.pending then s.pending else s.pending ++ [heir]).length ≤
      s.pending.length + 1 := by
    split
    · exact Nat.le_succ _
    · simp
  simp only [weight]
  omega

theorem handed_handTo {heir : String} (hheir : heir ∈ names) (hhanded : ∀ t ∈ handed, t ∈ all)
    (hbound : ∀ t ∈ s.follow.getD heir, t ∈ all) :
    Handed names all handed [heir] s (handTo handed s heir) := by
  have hsub : ∀ t ∈ s.follow.getD heir, t ∈ s.follow.getD heir ∪ handed :=
    fun t ht => OrderedSet.mem_union.mpr (.inl ht)
  unfold handTo
  dsimp only
  split
  · rename_i hsize
    have hsame := OrderedSet.eq_of_subset_of_size_le hsub (Nat.le_of_eq hsize)
    refine ⟨fun v t => ?_, fun _ h => h, fun _ _ => rfl, Nat.le_refl _⟩
    constructor
    · exact .inl
    · rintro (ht | ⟨hv, ht⟩)
      · exact ht
      · rw [List.mem_singleton.mp hv, hsame]
        exact OrderedSet.mem_union.mpr (.inr ht)
  · rename_i hsize
    have hlt := OrderedSet.size_lt_of_subset hsub hsize
    refine ⟨fun v t => ?_, fun v hv => ?_, fun v hv => ?_, ?_⟩
    · dsimp only
      rw [getD_insert]
      split
      · rename_i heq
        subst heq
        simp
      · rename_i hne
        simp [hne]
    · dsimp only
      split
      · exact hv
      · exact List.mem_append_left _ hv
    · have hne : v ≠ heir := by
        rintro rfl
        dsimp only at hv
        split at hv
        · contradiction
        · simp at hv
      dsimp only
      rw [getD_insert, if_neg hne]
    · refine weight_insert_le hheir hlt fun t ht => ?_
      rcases OrderedSet.mem_union.mp ht with ht | ht
      · exact hbound t ht
      · exact hhanded t ht

theorem Handed.trans {heirs' : List String} {s'' : Search}
    (h : Handed names all handed heirs s s') (h' : Handed names all handed heirs' s' s'') :
    Handed names all handed (heirs ++ heirs') s s'' where
  taken v t := by
    rw [h'.taken, h.taken, List.mem_append, or_and_right, or_assoc]
  waits v hv := h'.waits v (h.waits v hv)
  grown v hv := (h'.grown v hv).trans (h.grown v fun hv' => hv (h'.waits v hv'))
  weight := Nat.le_trans h'.weight h.weight

theorem handed_foldl (hhanded : ∀ t ∈ handed, t ∈ all) : ∀ {heirs : List String} {s : Search},
    (∀ heir ∈ heirs, heir ∈ names) → (∀ v, ∀ t ∈ s.follow.getD v, t ∈ all) →
      Handed names all handed heirs s (heirs.foldl (handTo handed) s)
  | [], s, _, _ => ⟨by simp, fun _ h => h, fun _ _ => rfl, Nat.le_refl _⟩
  | heir :: heirs, s, hnames, hbound => by
    have hone : Handed names all handed [heir] s (handTo handed s heir) :=
      handed_handTo (hnames heir List.mem_cons_self) hhanded (hbound heir)
    refine hone.trans (handed_foldl hhanded (fun v hv => hnames v (List.mem_cons_of_mem _ hv)) ?_)
    intro v t ht
    rcases (hone.taken v t).mp ht with ht | ⟨-, ht⟩
    · exact hbound v t ht
    · exact hhanded t ht

/-! ## 4. The whole search -/

/-- What holds of the search at any time. -/
structure Sound (links : OrderedMap String (OrderedSet String)) (base : FollowSets)
    (all : List Terminal) (s : Search) : Prop where
  above : ∀ v, ∀ t ∈ base.getD v, t ∈ s.follow.getD v
  bounded : ∀ v, ∀ t ∈ s.follow.getD v, t ∈ all
  settled : ∀ head, head ∉ s.pending → ∀ v, Inherits links head v →
    ∀ t ∈ s.follow.getD head, t ∈ s.follow.getD v

/-- **A round keeps the invariant and lowers the weight.** -/
theorem Sound.step {links : OrderedMap String (OrderedSet String)} {base : FollowSets}
    (known : ∀ head v, Inherits links head v → v ∈ names) (h : Sound links base all s)
    (hs : Search.step links s = some s') :
    Sound links base all s' ∧ s'.weight names all.length < s.weight names all.length := by
  unfold Search.step at hs
  split at hs
  · contradiction
  · rename_i head rest hpending
    have hsettled : ∀ v, v ≠ head → v ∉ rest → v ∉ s.pending := by
      intro v hne hrest
      rw [hpending, List.mem_cons, not_or]
      exact ⟨hne, hrest⟩
    have hpop : weight names all.length { s with pending := rest } <
        s.weight names all.length := by
      simp only [weight, hpending, List.length_cons]
      omega
    split at hs
    · rename_i hnone
      obtain rfl := Option.some.inj hs
      refine ⟨⟨h.above, h.bounded, fun v hv u hu => ?_⟩, hpop⟩
      by_cases hne : v = head
      · obtain ⟨_, hsome, -⟩ := hu
        rw [hne, hnone] at hsome
        contradiction
      · exact h.settled v (hsettled v hne hv) u hu
    · rename_i heirs hheirs
      obtain rfl := Option.some.inj hs
      have hnames : ∀ v ∈ heirs.toList, v ∈ names :=
        fun v hv => known head v ⟨heirs, hheirs, hv⟩
      have hhanded : Handed names all (s.follow.getD head) heirs.toList { s with pending := rest }
          (heirs.toList.foldl (handTo (s.follow.getD head)) { s with pending := rest }) :=
        handed_foldl (h.bounded head) hnames h.bounded
      refine ⟨⟨fun v t ht => ?_, fun v t ht => ?_, fun v hv u hu t ht => ?_⟩, ?_⟩
      · exact (hhanded.taken v t).mpr (.inl (h.above v t ht))
      · rcases (hhanded.taken v t).mp ht with ht | ⟨-, ht⟩
        · exact h.bounded v t ht
        · exact h.bounded head t ht
      · rw [hhanded.grown v hv] at ht
        by_cases hne : v = head
        · -- the heirs have just taken up the whole set
          subst hne
          obtain ⟨_, hsome, hu⟩ := hu
          obtain rfl := Option.some.inj (hheirs.symm.trans hsome)
          exact (hhanded.taken u t).mpr (.inr ⟨hu, ht⟩)
        · have hrest : v ∉ rest := fun hmem => hv (hhanded.waits v hmem)
          exact (hhanded.taken u t).mpr (.inl (h.settled v (hsettled v hne hrest) u hu t ht))
      · exact Nat.lt_of_le_of_lt hhanded.weight hpop

/-- Every terminal of a set is among the terminals of all sets. -/
theorem mem_values_of_mem_getD {follow : FollowSets} {name : String} {t : Terminal}
    (h : t ∈ follow.getD name) : t ∈ follow.sets.values.flatMap OrderedSet.toList := by
  rw [getD] at h
  cases hget : follow.get? name with
  | none =>
    rw [hget] at h
    exact absurd h OrderedSet.not_mem_empty
  | some s =>
    rw [hget] at h
    exact List.mem_flatMap.mpr ⟨s, List.mem_map_of_mem (OrderedMap.mem_toList.mpr hget), h⟩

theorem sound_start {links : OrderedMap String (OrderedSet String)} {base : FollowSets}
    {order : List String} (waiting : ∀ head v, Inherits links head v → head ∈ order) :
    Sound links base (base.sets.values.flatMap OrderedSet.toList) ⟨base, order⟩ where
  above _ _ ht := ht
  bounded _ _ ht := mem_values_of_mem_getD ht
  settled head hhead v hv := absurd (waiting head v hv) hhead

theorem weight_start_lt {base : FollowSets} {order : List String} :
    weight base.sets.keys (base.sets.values.flatMap OrderedSet.toList).length ⟨base, order⟩ <
      rounds base order := by
  have hroom := @room_le (base.sets.values.flatMap OrderedSet.toList).length base.sizeOf
    base.sets.keys
  have hkeys : base.sets.keys.length = base.sets.size := List.length_map _
  rw [hkeys] at hroom
  rw [weight, rounds]
  dsimp only
  omega

theorem pending_eq_nil {links : OrderedMap String (OrderedSet String)}
    (h : Search.step links s = none) : s.pending = [] := by
  unfold Search.step at h
  split at h
  · assumption
  · split at h
    · contradiction
    · contradiction

/-- **The search ends with every set handed on**, if all that hand something on wait at first. -/
theorem sound_iterate {links : OrderedMap String (OrderedSet String)} {base : FollowSets}
    {order : List String} (waiting : ∀ head v, Inherits links head v → head ∈ order)
    (known : ∀ head v, Inherits links head v → v ∈ base.sets.keys) {last : Search}
    (hlast : iterate (Search.step links) (rounds base order) ⟨base, order⟩ = last) :
    Sound links base (base.sets.values.flatMap OrderedSet.toList) last ∧ last.pending = [] := by
  have hsound : Sound links base (base.sets.values.flatMap OrderedSet.toList) ⟨base, order⟩ :=
    sound_start waiting
  have hdone := iterate_done _ (fun s s' h hs => Sound.step known h hs) _ _ hsound weight_start_lt
  have hkept := iterate_invariant (fun s s' h hs => (Sound.step known h hs).1)
    (rounds base order) _ hsound
  rw [hlast] at hdone hkept
  exact ⟨hkept, pending_eq_nil hdone⟩

end Search

theorem get?_blank {g : Grammar} {name : String} : (blank g).get? name =
    if name = g.start then some (OrderedSet.insert ∅ .endOfInput)
    else if name ∈ g.variableNames then some ∅ else none := by
  rw [get?, blank, OrderedMap.find?_alter, OrderedMap.find?_ofList_const,
    OrderedMap.find?_ofList_const]
  split
  · congr 2
    split
    · rfl
    · rfl
  · rfl

theorem mem_getD_blank_iff {g : Grammar} {name : String} {t : Terminal} :
    t ∈ (blank g).getD name ↔ name = g.start ∧ t = .endOfInput := by
  rw [getD, get?_blank]
  split
  · rename_i heq
    simp [heq]
  · rename_i hne
    split
    · simp [hne]
    · simp [hne]

/-- What the pass over the bodies of all variables finds: what stands behind each variable, and the
variables behind which everything can vanish. -/
structure Seeds.Exact (g : Grammar) (first : FirstSets) (seeds : Seeds) : Prop where
  follow : ∀ name t, t ∈ seeds.follow.getD name ↔ name = g.start ∧ t = .endOfInput ∨
    ∃ head, ∃ body ∈ g.bodiesOf head, ∃ after, Behind name body after ∧
      first.Begins (Body.goals after) (.terminal t)
  heirs : ∀ head name, Inherits seeds.heirs head name ↔ name ≠ head ∧
    ∃ body ∈ g.bodiesOf head, ∃ after, Behind name body after ∧
      first.Begins (Body.goals after) .epsilon
  known : ∀ name, (seeds.follow.get? name).isSome ↔ name ∈ g.variableNames

/-- Links lead from variables to variables. -/
theorem Seeds.Exact.mem_variableNames {g : Grammar} {first : FirstSets} {seeds : Seeds}
    (exact : seeds.Exact g first) (wellFormed : g.WellFormed) {head name : String}
    (h : Inherits seeds.heirs head name) : head ∈ g.variableNames ∧ name ∈ g.variableNames := by
  obtain ⟨-, -, rules⟩ := Grammar.wellFormed_iff.mp wellFormed
  obtain ⟨-, body, hbody, _, hbehind, -⟩ := (exact.heirs head name).mp h
  exact ⟨Grammar.mem_variableNames_of_mem_bodiesOf hbody,
    (rules head body hbody).2 name hbehind.variable_mem⟩

section Computing

variable {g : Grammar} {first : FirstSets} (wellFormed : g.WellFormed)
  (total : ∀ name ∈ g.variableNames, (first.get? name).isSome) {order : List String}
  (known : ∀ name ∈ order, name ∈ g.variableNames) (all : ∀ name ∈ g.variableNames, name ∈ order)

include wellFormed total known all

/-- **The pass over the bodies is exact**, whatever the order of the variables. -/
theorem exists_seeds :
    ∃ seeds, Seeds.addHeads g first ⟨blank g, ∅⟩ order = .ok seeds ∧ seeds.Exact g first := by
  have hblank : ∀ name, ((blank g).get? name).isSome ↔ name ∈ g.variableNames := by
    intro name
    rw [get?_blank]
    split
    · rename_i hstart
      simp [hstart, wellFormed.start_mem]
    · split
      · simp [*]
      · simp [*]
  obtain ⟨seeds, hseeds, collects⟩ := @Seeds.addHeads_spec first g wellFormed total order
    ⟨blank g, ∅⟩ known fun name => (hblank name).mpr
  have hheads : ∀ head, ∀ body ∈ g.bodiesOf head, head ∈ order :=
    fun head body hbody => all head (Grammar.mem_variableNames_of_mem_bodiesOf hbody)
  refine ⟨seeds, hseeds, fun name t => ?_, fun head name => ?_,
    fun name => (collects.known name).trans (hblank name)⟩
  · rw [collects.follow, mem_getD_blank_iff]
    refine or_congr_right ⟨?_, ?_⟩
    · rintro ⟨head, -, body, hbody, hafter⟩
      exact ⟨head, body, hbody, hafter⟩
    · rintro ⟨head, body, hbody, hafter⟩
      exact ⟨head, hheads head body hbody, body, hbody, hafter⟩
  · rw [collects.heirs]
    constructor
    · rintro (⟨_, hnone, -⟩ | ⟨-, hne, hafter⟩)
      · contradiction
      · exact ⟨hne, hafter⟩
    · rintro ⟨hne, body, hbody, hafter⟩
      exact .inr ⟨hheads head body hbody, hne, body, hbody, hafter⟩

/-- **Handing on ends**, whatever the order in which the variables wait at first. -/
theorem exists_last :
    ∃ seeds last, Seeds.addHeads g first ⟨blank g, ∅⟩ order = .ok seeds ∧ seeds.Exact g first ∧
      iterate (Search.step seeds.heirs) (rounds seeds.follow order) ⟨seeds.follow, order⟩ = last ∧
      Search.Sound seeds.heirs seeds.follow (seeds.follow.sets.values.flatMap OrderedSet.toList)
        last ∧ last.pending = [] := by
  obtain ⟨seeds, hseeds, exact⟩ := exists_seeds wellFormed total known all
  refine ⟨seeds, _, hseeds, exact, rfl, Search.sound_iterate (fun head name h => ?_)
    (fun head name h => ?_) rfl⟩
  · exact all head (exact.mem_variableNames wellFormed h).1
  · exact OrderedMap.mem_keys.mpr
      ((exact.known name).mpr (exact.mem_variableNames wellFormed h).2)

/-- **Handing on ends in closed sets.** -/
theorem exists_compute_closed :
    ∃ follow, compute g first order = .ok follow ∧ Closed g first follow := by
  obtain ⟨seeds, last, hseeds, exact, hlast, sound, hpending⟩ :=
    exists_last wellFormed total known all
  refine ⟨last.follow, by rw [compute, hseeds, ← hlast], ?_,
    fun head body hbody name after hbehind t ht => ?_,
    fun head body hbody name after hbehind hvanish t ht => ?_⟩
  · exact sound.above _ _ ((exact.follow _ _).mpr (.inl ⟨rfl, rfl⟩))
  · exact sound.above _ _ ((exact.follow _ _).mpr (.inr ⟨head, body, hbody, after, hbehind, ht⟩))
  · by_cases hne : name = head
    · exact hne ▸ ht
    · refine sound.settled head ?_ name ((exact.heirs _ _).mpr
        ⟨hne, body, hbody, after, hbehind, hvanish⟩) t ht
      rw [hpending]
      exact List.not_mem_nil

end Computing

theorem closed_of_ofGrammar {g : Grammar} {first : FirstSets} {follow : FollowSets}
    (wellFormed : g.WellFormed) (closedFirst : FirstSets.Closed g first)
    (h : ofGrammar g first = .ok follow) : Closed g first follow := by
  obtain ⟨found, hfound, closed⟩ :=
    exists_compute_closed wellFormed closedFirst.total (fun _ h => h) (fun _ h => h)
  rw [ofGrammar, hfound] at h
  exact Except.ok.inj h ▸ closed

end FollowSets

end FormalLang
