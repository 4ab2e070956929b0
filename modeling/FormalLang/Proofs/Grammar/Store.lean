import FormalLang.Proofs.Grammar.Introduced

/-!
# Rules kept in two parts

A grammar can be kept as a list of variables beside a map from variables to bodies.  The two parts
are changed separately, and a variable that the list has and the map lacks is a fault of whoever
asks for its bodies.  Here this store is set beside the list of productions: adding rules
(`RuleStore.run_eq_store`), listing them (`Grammar.listing_store`) and removing left recursion
(`Grammar.tryRemoveLeftRecursion_store`) keep both parts in step, and no look-up fails.

**What keeps them in step.**  A rule is entered under a key that is listed already, or the key is
listed in the same call.  The removal of left recursion asks for the bodies of declared variables
only, and enters the bodies of a new variable under a key that the map does not have: with a name
that is in use it would overwrite bodies, and the list would name the variable twice.
-/

namespace FormalLang

/-! ## 1. The store -/

/-- **The rules of a grammar in two parts.** -/
structure RuleStore where
  /-- The variables in the order of their declaration. -/
  listed : List String
  rules : OrderedMap String (List Body)
  deriving DecidableEq

namespace RuleStore

/-- The store without rules. -/
def empty : RuleStore := ⟨[], ∅⟩

/-- Adds a rule; its body is brought into normal form.  The head is listed if it has no bodies. -/
def addRule (s : RuleStore) (head : String) (body : Body) : RuleStore :=
  ⟨if s.rules.contains head then s.listed else s.listed ++ [head],
    s.rules.alter head fun bodies => bodies.getD [] ++ [body.normalize]⟩

/-- The bodies of a variable. -/
def getBodies (s : RuleStore) (name : String) : Except Fault (List Body) :=
  match s.rules.find? name with
  | none => .error .missingVariable
  | some bodies => .ok bodies

/-- Some variables with their bodies. -/
def listFrom (s : RuleStore) : List String → Except Fault (List Production)
  | [] => .ok []
  | name :: rest =>
    match s.getBodies name with
    | .error f => .error f
    | .ok bodies =>
      match s.listFrom rest with
      | .error f => .error f
      | .ok productions => .ok (⟨name, bodies⟩ :: productions)

/-- All variables with their bodies. -/
def listing (s : RuleStore) : Except Fault (List Production) := s.listFrom s.listed

/-- The terminals in bodies, and the end of the input. -/
def terminals (s : RuleStore) : OrderedSet Terminal :=
  OrderedSet.ofList (.endOfInput ::
    s.rules.values.flatMap fun bodies => bodies.flatMap fun body => body.filterMap Symbol.terminal?)

/-- The names that a new variable must avoid. -/
def usedNames (s : RuleStore) : List String :=
  s.rules.keys ++ s.terminals.toList.filterMap fun
    | .named name => some name
    | .endOfInput => none

/-- A name that is not used: the variable followed by the fewest copies of the suffix. -/
def freshVariable (s : RuleStore) (name suffix : String) : String :=
  Grammar.avoid s.usedNames suffix s.usedNames.length (name ++ suffix)

/-- **Whether a store is in order, with a start**: no variable is listed twice, exactly the listed
variables have an entry, the start and all variables in bodies are listed, and every body is in
normal form. -/
structure InOrder (s : RuleStore) (start : String) : Prop where
  nodup : s.listed.Nodup
  keys : ∀ name, name ∈ s.listed ↔ name ∈ s.rules.keys
  start_mem : start ∈ s.listed
  closed : ∀ name bodies, s.rules.find? name = some bodies → ∀ body ∈ bodies,
    ∀ v, .variable v ∈ body → v ∈ s.listed
  normal : ∀ name bodies, s.rules.find? name = some bodies → ∀ body ∈ bodies,
    body ≠ [] ∧ (.epsilon ∈ body → body = [.epsilon])

/-- The store of some productions. -/
def ofProductions (ps : List Production) : RuleStore :=
  ⟨ps.map Production.head, .ofList ((ps.map Production.head).map fun name =>
    (name, (Grammar.mk "" ps).bodiesOf name))⟩

end RuleStore

/-- The store of a grammar. -/
def Grammar.store (g : Grammar) : RuleStore := .ofProductions g.productions

namespace Grammar

variable {g : Grammar} {name : String}

theorem find?_store : g.store.rules.find? name =
    if name ∈ g.variableNames then some (g.bodiesOf name) else none :=
  OrderedMap.find?_ofList_keyed

theorem mem_keys_store : name ∈ g.store.rules.keys ↔ name ∈ g.variableNames := by
  rw [OrderedMap.mem_keys, OrderedMap.contains, find?_store]
  split
  · simpa
  · simpa

theorem getBodies_store (h : name ∈ g.variableNames) :
    g.store.getBodies name = .ok (g.bodiesOf name) := by
  rw [RuleStore.getBodies, find?_store, if_pos h]

/-- **A grammar is in order exactly if its store is.** -/
theorem wellFormed_iff_store : g.WellFormed ↔ g.store.InOrder g.start := by
  rw [wellFormed_iff]
  constructor
  · rintro ⟨nodup, start_mem, rules⟩
    have hrule : ∀ name bodies, g.store.rules.find? name = some bodies →
        ∀ body ∈ bodies, body.Normal ∧ ∀ v, .variable v ∈ body → v ∈ g.variableNames := by
      intro name bodies hfind body hbody
      rw [find?_store] at hfind
      split at hfind
      · obtain rfl := Option.some.inj hfind
        exact rules name body hbody
      · contradiction
    exact ⟨nodup, fun name => mem_keys_store.symm, start_mem,
      fun name bodies hfind body hbody => (hrule name bodies hfind body hbody).2,
      fun name bodies hfind body hbody => (hrule name bodies hfind body hbody).1⟩
  · intro h
    refine ⟨h.nodup, h.start_mem, fun name body hbody => ?_⟩
    have hfind : g.store.rules.find? name = some (g.bodiesOf name) := by
      rw [find?_store, if_pos (mem_variableNames_of_mem_bodiesOf hbody)]
    exact ⟨h.normal name _ hfind body hbody, h.closed name _ hfind body hbody⟩

/-- **The store lists the productions**, since every listed variable has an entry. -/
theorem listing_store (nodup : g.variableNames.Nodup) : g.store.listing = .ok g.productions := by
  have hlist : ∀ ps : List Production, (∀ p ∈ ps, p ∈ g.productions) →
      g.store.listFrom (ps.map Production.head) = .ok ps := by
    intro ps
    induction ps with
    | nil => exact fun _ => rfl
    | cons p ps ih =>
      intro hps
      have hp := hps p List.mem_cons_self
      rw [List.map_cons, RuleStore.listFrom, getBodies_store (List.mem_map_of_mem hp),
        bodiesOf_eq_of_mem nodup hp]
      dsimp only
      rw [ih fun q hq => hps q (List.mem_cons_of_mem _ hq)]
  exact hlist g.productions fun _ h => h

end Grammar

/-! ## 2. Adding rules -/

/-- What can be asked of a builder. -/
inductive BuilderCall where
  | addRule (head : String) (body : Body)
  | addRules (head : String) (bodies : List Body)
  | setStart (name : String)

namespace BuilderCall

/-- A call, answered by a builder. -/
def onBuilder (b : GrammarBuilder) : BuilderCall → GrammarBuilder
  | addRule head body => b.addRule head body
  | addRules head bodies => b.addRules head bodies
  | setStart name => b.setStart name

/-- A call, answered by a store, which does not keep the start. -/
def onStore (s : RuleStore) : BuilderCall → RuleStore
  | addRule head body => s.addRule head body
  | addRules head bodies => bodies.foldl (fun s body => s.addRule head body) s
  | setStart _ => s

end BuilderCall

/-- The builder after some calls. -/
def GrammarBuilder.run (calls : List BuilderCall) : GrammarBuilder :=
  calls.foldl BuilderCall.onBuilder .empty

/-- The store after some calls. -/
def RuleStore.run (calls : List BuilderCall) : RuleStore :=
  calls.foldl BuilderCall.onStore .empty

theorem GrammarBuilder.reachable_run (calls : List BuilderCall) : (run calls).Reachable := by
  have hfold : ∀ (calls : List BuilderCall) (b : GrammarBuilder), b.Reachable →
      (calls.foldl BuilderCall.onBuilder b).Reachable := by
    intro calls
    induction calls with
    | nil => exact fun _ h => h
    | cons call calls ih =>
      intro b h
      refine ih _ ?_
      cases call with
      | addRule head body => exact .addRule head body h
      | addRules head bodies => exact .addRules head bodies h
      | setStart name => exact .setStart name h
  exact hfold calls .empty .empty

theorem Grammar.bodiesOf_addBody (start head : String) (body : Body) (name : String) :
    ∀ ps : List Production, (Grammar.mk start (GrammarBuilder.addBody head body ps)).bodiesOf name =
      if name = head then (Grammar.mk start ps).bodiesOf head ++ [body]
      else (Grammar.mk start ps).bodiesOf name
  | [] => by
    by_cases h : head = name
    · simp [GrammarBuilder.addBody, bodiesOf, h]
    · simp [GrammarBuilder.addBody, bodiesOf, h, Ne.symm h]
  | p :: ps => by
    have ih := bodiesOf_addBody start head body name ps
    simp only [bodiesOf] at ih ⊢
    rw [GrammarBuilder.addBody]
    by_cases hp : p.head = head
    · by_cases h : name = head
      · simp [hp, h]
      · simp [hp, h, Ne.symm h]
    · by_cases h : p.head = name
      · have hne : name ≠ head := fun e => hp (h.trans e)
        simp [h, hne]
      · simpa [hp, h] using ih

namespace RuleStore

/-- **One more rule keeps the two parts in step.** -/
theorem ofProductions_addBody (ps : List Production) (head : String) (body : Body) :
    ofProductions (GrammarBuilder.addBody head body.normalize ps) =
      (ofProductions ps).addRule head body := by
  have hfind : ∀ (ps : List Production) (name : String), (ofProductions ps).rules.find? name =
      if name ∈ ps.map Production.head then some ((Grammar.mk "" ps).bodiesOf name) else none :=
    fun ps name => @Grammar.find?_store ⟨"", ps⟩ name
  have hlisted : (ofProductions (GrammarBuilder.addBody head body.normalize ps)).listed =
      ((ofProductions ps).addRule head body).listed := by
    rw [addRule, OrderedMap.contains, hfind]
    refine (GrammarBuilder.map_head_addBody head _ ps).trans ?_
    split
    · rfl
    · rfl
  have hrules : (ofProductions (GrammarBuilder.addBody head body.normalize ps)).rules =
      ((ofProductions ps).addRule head body).rules := by
    refine OrderedMap.ext fun name => ?_
    rw [hfind, addRule, OrderedMap.find?_alter, hfind, hfind, Grammar.bodiesOf_addBody,
      GrammarBuilder.map_head_addBody]
    by_cases hname : name = head
    · subst hname
      by_cases hmem : name ∈ ps.map Production.head
      · simp [hmem]
      · have hnone := @Grammar.bodiesOf_eq_nil ⟨"", ps⟩ name hmem
        simp [hmem, hnone]
    · by_cases hmem : head ∈ ps.map Production.head
      · simp [hmem, hname]
      · simp [hmem, hname]
  exact congrArg₂ RuleStore.mk hlisted hrules

/-- **Whatever is asked of a builder, the store keeps the same rules.** -/
theorem run_eq_store (calls : List BuilderCall) :
    run calls = .ofProductions (GrammarBuilder.run calls).productions := by
  have hrules : ∀ (head : String) (bodies : List Body) (b : GrammarBuilder),
      bodies.foldl (fun s body => s.addRule head body) (ofProductions b.productions) =
        ofProductions (b.addRules head bodies).productions := by
    intro head bodies
    induction bodies with
    | nil => exact fun _ => rfl
    | cons body bodies ih =>
      intro b
      rw [List.foldl_cons, ← ofProductions_addBody]
      exact ih (b.addRule head body)
  have hfold : ∀ (calls : List BuilderCall) (b : GrammarBuilder),
      calls.foldl BuilderCall.onStore (ofProductions b.productions) =
        ofProductions (calls.foldl BuilderCall.onBuilder b).productions := by
    intro calls
    induction calls with
    | nil => exact fun _ => rfl
    | cons call calls ih =>
      intro b
      rw [List.foldl_cons, List.foldl_cons, ← ih (call.onBuilder b)]
      congr 1
      cases call with
      | addRule head body => exact (ofProductions_addBody _ head body).symm
      | addRules head bodies => exact hrules head bodies b
      | setStart name => rfl
  exact hfold calls .empty

end RuleStore

/-! ## 3. Fresh names -/

namespace Grammar

variable {g : Grammar}

theorem avoid_congr {used used' : List String} (h : ∀ name, name ∈ used ↔ name ∈ used')
    (suffix : String) : ∀ (n : Nat) (name : String),
      avoid used suffix n name = avoid used' suffix n name
  | 0, _ => rfl
  | n + 1, name => by
    simp only [avoid, h name, avoid_congr h suffix n]

theorem mem_terminals_iff (nodup : g.variableNames.Nodup) {t : Terminal} :
    t ∈ g.terminals ↔ t = .endOfInput ∨ g.Mentions t := by
  constructor
  · intro h
    rcases List.mem_cons.mp (OrderedSet.mem_ofList.mp h) with rfl | h
    · exact .inl rfl
    · obtain ⟨r, hr, ht⟩ := List.mem_flatMap.mp h
      obtain ⟨s, hs, hst⟩ := List.mem_filterMap.mp ht
      obtain rfl : s = .terminal t := by
        cases s <;> simp_all [Symbol.terminal?]
      exact .inr ⟨r.head, r.body, List.mem_of_getElem? ((mem_rules_iff nodup).mp hr), hs⟩
  · rintro (rfl | ⟨head, body, hbody, ht⟩)
    · exact OrderedSet.mem_ofList.mpr List.mem_cons_self
    · exact mem_terminals_of_mem_bodiesOf nodup hbody ht

theorem terminals_store (nodup : g.variableNames.Nodup) : g.store.terminals = g.terminals := by
  refine OrderedSet.ext fun t => ?_
  rw [mem_terminals_iff nodup, RuleStore.terminals, OrderedSet.mem_ofList, List.mem_cons]
  refine or_congr_right ?_
  constructor
  · intro h
    obtain ⟨bodies, hbodies, h⟩ := List.mem_flatMap.mp h
    obtain ⟨body, hbody, ht⟩ := List.mem_flatMap.mp h
    obtain ⟨s, hs, hst⟩ := List.mem_filterMap.mp ht
    obtain rfl : s = .terminal t := by
      cases s <;> simp_all [Symbol.terminal?]
    obtain ⟨⟨name, _⟩, hentry, rfl⟩ := List.mem_map.mp hbodies
    have hfind := OrderedMap.mem_toList.mp hentry
    rw [find?_store] at hfind
    split at hfind
    · obtain rfl := Option.some.inj hfind
      exact ⟨name, body, hbody, hs⟩
    · contradiction
  · rintro ⟨head, body, hbody, ht⟩
    have hfind : g.store.rules.find? head = some (g.bodiesOf head) := by
      rw [find?_store, if_pos (mem_variableNames_of_mem_bodiesOf hbody)]
    exact List.mem_flatMap.mpr ⟨g.bodiesOf head,
      List.mem_map.mpr ⟨_, OrderedMap.mem_toList.mpr hfind, rfl⟩,
      List.mem_flatMap.mpr ⟨body, hbody, List.mem_filterMap.mpr ⟨_, ht, rfl⟩⟩⟩

/-- The keys of the store are the variables in another order. -/
theorem keys_store_perm (nodup : g.variableNames.Nodup) :
    g.store.rules.keys.Perm g.variableNames :=
  (List.perm_ext_iff_of_nodup g.store.rules.nodup_keys nodup).mpr fun _ => mem_keys_store

/-- **Both ways of keeping the rules lead to the same fresh names.** -/
theorem freshVariable_store (nodup : g.variableNames.Nodup) (name suffix : String) :
    g.store.freshVariable name suffix = g.freshVariable name suffix := by
  have hperm : g.store.usedNames.Perm g.usedNames := by
    rw [RuleStore.usedNames, usedNames, terminals_store nodup]
    exact (keys_store_perm nodup).append_right _
  rw [RuleStore.freshVariable, freshVariable, hperm.length_eq]
  exact avoid_congr (fun _ => hperm.mem_iff) suffix _ _

end Grammar

/-! ## 4. Removing left recursion -/

namespace RuleStore

/-- A store and the events that led to it. -/
structure Removal where
  store : RuleStore
  events : List RecursionEvent
  deriving DecidableEq

namespace Removal

/-- Replaces the leading occurrences of an earlier variable in the bodies of another. -/
def trySubstitute (head : String) (r : Removal) (earlier : String) : Except Fault Removal :=
  match r.store.getBodies earlier with
  | .error f => .error f
  | .ok replacements =>
    match r.store.getBodies head with
    | .error f => .error f
    | .ok bodies =>
      .ok ⟨⟨r.store.listed, r.store.rules.insert head
          (bodies.flatMap (Body.substitute earlier replacements))⟩,
        if bodies.any (Body.beginsWith earlier) then r.events ++ [.substituted earlier head]
        else r.events⟩

/-- Replaces the leading occurrences of some earlier variables, one after the other. -/
def trySubstituteAll (head : String) : Removal → List String → Except Fault Removal
  | r, [] => .ok r
  | r, earlier :: rest =>
    match r.trySubstitute head earlier with
    | .error f => .error f
    | .ok r => trySubstituteAll head r rest

/-- Replaces the bodies of a variable that begin with it. -/
def tryRemoveDirect (suffix : String) (r : Removal) (head : String) : Except Fault Removal :=
  match r.store.getBodies head with
  | .error f => .error f
  | .ok bodies =>
    let recursive := bodies.filter (Body.beginsWith head)
    if recursive.isEmpty then .ok r
    else
      let fresh := r.store.freshVariable head suffix
      let others := bodies.filter fun body => !body.beginsWith head
      let tails := (recursive.map List.tail).filter fun tail => !tail.isEmpty
      let dropped := (recursive.filter fun body => body.tail.isEmpty).map fun _ =>
        RecursionEvent.dropped head
      if tails.isEmpty then
        .ok ⟨⟨r.store.listed, r.store.rules.insert head others⟩, r.events ++ dropped⟩
      else
        let unfounded := if others.isEmpty then [RecursionEvent.unfounded head] else []
        let rules := r.store.rules.insert head
          (others.map fun body => Body.append body [.variable fresh])
        .ok ⟨⟨r.store.listed ++ [fresh], rules.insert fresh
            ((tails.map fun tail => Body.append tail [.variable fresh]) ++ [[.epsilon]])⟩,
          r.events ++ dropped ++ unfounded ++ [.introduced head fresh]⟩

/-- Takes variables in order, after those that were taken before. -/
def tryVisitAll (suffix : String) : Removal → List String → List String → Except Fault Removal
  | r, _, [] => .ok r
  | r, earlier, head :: rest =>
    match trySubstituteAll head r earlier with
    | .error f => .error f
    | .ok r =>
      match r.tryRemoveDirect suffix head with
      | .error f => .error f
      | .ok r => tryVisitAll suffix r (earlier ++ [head]) rest

end Removal

/-- The store without left recursion, with the events of its removal. -/
def tryRemoveLeftRecursion (s : RuleStore) (suffix : String) : Except Fault Removal :=
  Removal.tryVisitAll suffix ⟨s, []⟩ [] s.listed

end RuleStore

namespace Grammar

variable {g : Grammar} {suffix : String}

theorem store_setBodies {name : String} (h : name ∈ g.variableNames) (bodies : List Body) :
    (g.setBodies name bodies).store = ⟨g.store.listed, g.store.rules.insert name bodies⟩ := by
  refine congrArg₂ RuleStore.mk (variableNames_setBodies g name bodies)
    (OrderedMap.ext fun x => find?_store.trans ?_)
  rw [OrderedMap.find?_insert, find?_store, variableNames_setBodies, bodiesOf_setBodies h]
  by_cases hx : x = name
  · simp [hx, h]
  · simp [hx]

theorem store_declare {p : Production} (h : p.head ∉ g.variableNames) :
    (g.declare p).store = ⟨g.store.listed ++ [p.head], g.store.rules.insert p.head p.bodies⟩ := by
  refine congrArg₂ RuleStore.mk (variableNames_declare g p)
    (OrderedMap.ext fun x => find?_store.trans ?_)
  rw [OrderedMap.find?_insert, find?_store, variableNames_declare, bodiesOf_declare h]
  by_cases hx : x = p.head
  · simp [hx]
  · simp [hx]

namespace Removal

/-- The removal of left recursion from the store of a grammar. -/
def stored (r : Removal) : RuleStore.Removal := ⟨r.grammar.store, r.events⟩

variable {r : Removal}

theorem trySubstitute_stored {earlier head : String} (hearlier : earlier ∈ r.grammar.variableNames)
    (hhead : head ∈ r.grammar.variableNames) :
    r.stored.trySubstitute head earlier = .ok (r.substitute head earlier).stored := by
  rw [RuleStore.Removal.trySubstitute, stored, getBodies_store hearlier, getBodies_store hhead]
  simp only [substitute]
  split
  · rw [stored, store_setBodies hhead]
  · rename_i hnone
    -- the bodies are entered again as they are
    have hsame : (r.grammar.bodiesOf head).flatMap
        (Body.substitute earlier (r.grammar.bodiesOf earlier)) = r.grammar.bodiesOf head := by
      have hone : ∀ body ∈ r.grammar.bodiesOf head,
          Body.substitute earlier (r.grammar.bodiesOf earlier) body = [body] := by
        intro body hbody
        rw [Body.substitute, if_neg fun h => hnone (List.any_eq_true.mpr ⟨body, hbody, h⟩)]
      rw [List.flatMap_congr hone, List.flatMap_singleton']
    have hrules : r.grammar.store.rules.insert head (r.grammar.bodiesOf head) =
        r.grammar.store.rules := by
      refine OrderedMap.ext fun x => ?_
      rw [OrderedMap.find?_insert, find?_store]
      split
      · rename_i hx
        rw [hx, if_pos hhead]
      · rfl
    rw [hsame, hrules]
    rfl

theorem tryRemoveDirect_stored (nodup : r.grammar.variableNames.Nodup) (hsuffix : suffix ≠ "")
    {head : String} (hhead : head ∈ r.grammar.variableNames) :
    r.stored.tryRemoveDirect suffix head = .ok (r.removeDirect suffix head).stored := by
  have hfresh := freshVariable_not_mem_variableNames hsuffix r.grammar head
  rw [RuleStore.Removal.tryRemoveDirect, stored, getBodies_store hhead]
  simp only [removeDirect, freshVariable_store nodup]
  split
  · rfl
  · split
    · rw [stored, store_setBodies hhead]
    · refine congrArg Except.ok (congrArg₂ RuleStore.Removal.mk ?_ rfl)
      refine ((store_declare (by simpa using hfresh)).trans ?_).symm
      rw [store_setBodies hhead]

theorem trySubstituteAll_stored {head : String} : ∀ {earlier : List String} {r : Removal},
    (∀ v ∈ earlier, v ∈ r.grammar.variableNames) → head ∈ r.grammar.variableNames →
      r.stored.trySubstituteAll head earlier = .ok (earlier.foldl (substitute head) r).stored
  | [], _, _, _ => rfl
  | v :: earlier, r, hearlier, hhead => by
    have hnames := r.variableNames_substitute v head
    rw [RuleStore.Removal.trySubstituteAll,
      trySubstitute_stored (hearlier v List.mem_cons_self) hhead]
    dsimp only
    rw [trySubstituteAll_stored ?_ (hnames ▸ hhead)]
    · rfl
    · intro u hu
      rw [hnames]
      exact hearlier u (List.mem_cons_of_mem _ hu)

theorem variableNames_foldl_substitute (head : String) : ∀ (earlier : List String) (r : Removal),
    (earlier.foldl (substitute head) r).grammar.variableNames = r.grammar.variableNames
  | [], _ => rfl
  | v :: earlier, r => by
    rw [List.foldl_cons, variableNames_foldl_substitute, variableNames_substitute]

theorem wellFormed_foldl_substitute (head : String) : ∀ (earlier : List String) {r : Removal},
    r.grammar.WellFormed → (earlier.foldl (substitute head) r).grammar.WellFormed
  | [], _, h => h
  | v :: earlier, _, h => wellFormed_foldl_substitute head earlier (h.substitute v head)

/-- **The visits find every variable that they ask for.** -/
theorem tryVisitAll_stored (hsuffix : suffix ≠ "") : ∀ {later earlier : List String} {r : Removal},
    r.grammar.WellFormed → (∀ v ∈ earlier ++ later, v ∈ r.grammar.variableNames) →
      r.stored.tryVisitAll suffix earlier later = .ok (visitAll suffix r earlier later).stored
  | [], _, _, _, _ => rfl
  | head :: later, earlier, r, wellFormed, hmem => by
    have hhead := hmem head (List.mem_append_right _ List.mem_cons_self)
    have hnames := variableNames_foldl_substitute head earlier r
    have hfolded := wellFormed_foldl_substitute head earlier wellFormed
    rw [RuleStore.Removal.tryVisitAll,
      trySubstituteAll_stored (fun v hv => hmem v (List.mem_append_left _ hv)) hhead]
    dsimp only
    rw [tryRemoveDirect_stored hfolded.nodup hsuffix (hnames ▸ hhead)]
    dsimp only
    refine tryVisitAll_stored hsuffix (hfolded.removeDirect hsuffix head) fun v hv => ?_
    rw [List.append_assoc] at hv
    have hv : v ∈ (earlier.foldl (substitute head) r).grammar.variableNames := hnames ▸ hmem v hv
    rcases variableNames_removeDirect (earlier.foldl (substitute head) r) suffix head with
      heq | heq
    · rwa [heq]
    · rw [heq]
      exact List.mem_append_left _ hv

end Removal

/-- **The removal of left recursion keeps the two parts in step**, and it asks for no bodies that
are not there. -/
theorem tryRemoveLeftRecursion_store (wellFormed : g.WellFormed) (hsuffix : suffix ≠ "") :
    g.store.tryRemoveLeftRecursion suffix = .ok (g.removeLeftRecursion suffix).stored :=
  Removal.tryVisitAll_stored (r := ⟨g, []⟩) hsuffix wellFormed fun _ h => h

/-! ## 5. The variables at the end -/

end Grammar

/-- The variable that an event declares. -/
def RecursionEvent.introduced? : RecursionEvent → Option String
  | .introduced _ fresh => some fresh
  | _ => none

namespace Grammar

variable {g : Grammar}

theorem Removal.introduced_substitute (r : Removal) (earlier head : String) :
    (r.substitute head earlier).events.filterMap RecursionEvent.introduced? =
      r.events.filterMap RecursionEvent.introduced? := by
  rw [substitute]
  split
  · rw [List.filterMap_append]
    exact List.append_nil _
  · rfl

/-- Removing direct recursion declares a variable exactly if it says so. -/
theorem Removal.variableNames_removeDirect_eq {names : List String} {r : Removal}
    (h : r.grammar.variableNames = names ++ r.events.filterMap RecursionEvent.introduced?)
    (suffix head : String) :
    (r.removeDirect suffix head).grammar.variableNames =
      names ++ (r.removeDirect suffix head).events.filterMap RecursionEvent.introduced? := by
  have hdropped : ∀ bodies : List Body, (bodies.map fun _ =>
      RecursionEvent.dropped head).filterMap RecursionEvent.introduced? = [] := by
    intro bodies
    rw [List.filterMap_map]
    exact List.filterMap_eq_nil_iff.mpr fun _ _ => rfl
  simp only [removeDirect]
  split
  · exact h
  · split
    · rw [List.filterMap_append, hdropped, List.append_nil, variableNames_setBodies, h]
    · have hunfounded : ∀ others : List Body, (if others.isEmpty then
          [RecursionEvent.unfounded head] else []).filterMap RecursionEvent.introduced? = [] := by
        intro others
        split
        · rfl
        · rfl
      rw [List.filterMap_append, List.filterMap_append, List.filterMap_append, hdropped,
        hunfounded, List.append_nil, List.append_nil, ← List.append_assoc, ← h]
      exact (variableNames_declare _ _).trans (by rw [variableNames_setBodies]; rfl)

/-- **The variables after the removal of left recursion** are the declared ones, followed by the
introduced ones in the order of their introduction. -/
theorem WellFormed.variableNames_removeLeftRecursion (wellFormed : g.WellFormed)
    (suffix : String) :
    (g.removeLeftRecursion suffix).grammar.variableNames = g.variableNames ++
      (g.removeLeftRecursion suffix).events.filterMap RecursionEvent.introduced? := by
  refine Removal.visitAll_induction (P := fun r => r.grammar.variableNames =
    g.variableNames ++ r.events.filterMap RecursionEvent.introduced?) ?_ ?_ g.variableNames []
    ⟨g, []⟩ wellFormed.nodup (List.append_nil _).symm
  · intro r earlier head _ h
    rw [Removal.variableNames_substitute, Removal.introduced_substitute, h]
  · exact fun r head h => Removal.variableNames_removeDirect_eq h suffix head

end Grammar

end FormalLang
