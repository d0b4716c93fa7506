import SelectChain.Proofs.RelevantBindings
import Mathlib.Tactic

/-!
# The history of a scope

A scope starts with its parameter and grows by attempts to bind a name, of which
any number may be refused.  Whatever the attempts were, the scope is a record of
them: behind the parameter stand the bindings that were accepted, in their order
and under different names, and a name means what its first attempt gave it.

`Scope.Records` is the invariant; one attempt keeps it, accepted or refused, and
so does a run of them.  That the parameter comes first and alone is no matter of
how scopes are built: a plain `Table` of entries, searched for the first match, goes
through the same attempts in the same way (`table_attempts`).
-/

namespace SelectChain

namespace Scope

/-! ## Attempts -/

/-- An attempt to bind a name, and the scope behind it.  A refused attempt has no
scope of its own, and the one in front of it stays in use. -/
def attempt (scope : Scope) (call : String × Fragment) :
    Except ScopeError Unit × Scope :=
  match scope.bind call.1 call.2 with
  | .ok extended => (.ok (), extended)
  | .error error => (.error error, scope)

/-- The outcomes of a number of attempts, and the scope behind the last. -/
def attempts (scope : Scope) :
    List (String × Fragment) → List (Except ScopeError Unit) × Scope
  | [] => ([], scope)
  | call :: calls =>
      ((scope.attempt call).1 :: ((scope.attempt call).2.attempts calls).1,
        ((scope.attempt call).2.attempts calls).2)

/-- The attempts with a good outcome, in their order. -/
def accepted (calls : List (String × Fragment))
    (outcomes : List (Except ScopeError Unit)) : List (String × Fragment) :=
  ((calls.zip outcomes).filter fun answered => answered.2.isOk).map Prod.fst

/-- How a scope answers an attempt to bind `name`: it refuses exactly a name that
is present, with an error of its own for the parameter, and then stays as it
is. -/
structure Answered (parameter : String) (earlier later : Scope) (name : String)
    (outcome : Except ScopeError Unit) : Prop where
  refused_iff :
    (∃ error, outcome = .error error) ↔ name ∈ earlier.entries.map Prod.fst
  rebound_iff :
    outcome = .error (.parameterRebound name) ↔ name = parameter
  duplicate_iff :
    outcome = .error (.duplicateBinding name) ↔
      name ∈ earlier.entries.map Prod.fst ∧ name ≠ parameter
  unchanged : (∃ error, outcome = .error error) → later = earlier

/-- What a scope has kept of the attempts made so far. -/
structure Records (scope : Scope) (parameter : String)
    (calls : List (String × Fragment))
    (outcomes : List (Except ScopeError Unit)) : Prop where
  answered : outcomes.length = calls.length
  entries_eq :
    scope.entries = (parameter, .parameter) ::
      (accepted calls outcomes).map fun call => (call.1, .value call.2)
  distinct : (scope.entries.map Prod.fst).Nodup
  lookup_eq : ∀ name, scope.lookup? name =
    if name = parameter then some .parameter
    else (calls.lookup name).map .value

/-! ## One attempt -/

theorem keys_entries (scope : Scope) :
    scope.entries.map Prod.fst = scope.parameter :: scope.names := by
  simp [entries, names]

theorem entries_append_singleton
    (scope : Scope) (name : String) (fragment : Fragment) :
    (scope.append [(name, fragment)]).entries =
      scope.entries ++ [(name, .value fragment)] := by
  simp [entries, append]

/-- An attempt binds a new name, or is refused for one of two reasons. -/
theorem attempt_cases (scope : Scope) (name : String) (fragment : Fragment) :
    (name ∉ scope.entries.map Prod.fst ∧
        scope.attempt (name, fragment) =
          (.ok (), scope.append [(name, fragment)])) ∨
      (name = scope.parameter ∧
        scope.attempt (name, fragment) =
          (.error (.parameterRebound name), scope)) ∨
      (name ≠ scope.parameter ∧ name ∈ scope.names ∧
        scope.attempt (name, fragment) =
          (.error (.duplicateBinding name), scope)) := by
  rw [keys_entries, List.mem_cons, attempt, bind]
  rcases scope.lookup?_cases name with
    ⟨hlookup, hname⟩ | ⟨value, hlookup, hname, hmem⟩ |
      ⟨hlookup, hname, hmem⟩
  · rw [hlookup]
    exact Or.inr (Or.inl ⟨hname, rfl⟩)
  · rw [hlookup]
    exact Or.inr (Or.inr ⟨hname, hmem, rfl⟩)
  · rw [hlookup]
    exact Or.inl ⟨not_or.mpr ⟨hname, hmem⟩, rfl⟩

theorem attempt_answered (scope : Scope) (name : String) (fragment : Fragment) :
    Answered scope.parameter scope (scope.attempt (name, fragment)).2 name
      (scope.attempt (name, fragment)).1 := by
  rcases scope.attempt_cases name fragment with
    ⟨hnew, hattempt⟩ | ⟨hname, hattempt⟩ | ⟨hname, hmem, hattempt⟩
  · rw [hattempt]
    rw [keys_entries, List.mem_cons, not_or] at hnew
    constructor <;> simp [keys_entries, hnew]
  · rw [hattempt]
    constructor <;> simp [keys_entries, hname]
  · rw [hattempt]
    constructor <;> simp [keys_entries, hname, hmem]

theorem accepted_append_singleton
    {calls : List (String × Fragment)}
    {outcomes : List (Except ScopeError Unit)}
    (hlength : outcomes.length = calls.length)
    (call : String × Fragment) (outcome : Except ScopeError Unit) :
    accepted (calls ++ [call]) (outcomes ++ [outcome]) =
      accepted calls outcomes ++ if outcome.isOk then [call] else [] := by
  rw [accepted, accepted, List.zip_append hlength.symm, List.filter_append,
    List.map_append]
  cases hok : outcome.isOk <;> simp [hok]

namespace Records

variable {scope : Scope} {parameter : String}
  {calls : List (String × Fragment)} {outcomes : List (Except ScopeError Unit)}

theorem parameter_eq (h : scope.Records parameter calls outcomes) :
    scope.parameter = parameter := by
  have hentries := h.entries_eq
  rw [entries] at hentries
  exact congrArg Prod.fst (List.cons.inj hentries).1

theorem lookup_append_of_mem
    (h : scope.Records parameter calls outcomes) {name : String}
    (hmem : name ∈ scope.entries.map Prod.fst) (fragment : Fragment)
    {used : String} (hused : used ≠ parameter) :
    (calls ++ [(name, fragment)]).lookup used = calls.lookup used := by
  rw [List.lookup_append]
  by_cases hname : used = name
  · subst hname
    -- A name that is present was attempted before, and the older attempt counts.
    have hlookup : scope.lookup? used ≠ none := by
      rw [Ne, lookup?_eq_none_iff]
      rw [keys_entries, List.mem_cons] at hmem
      tauto
    rw [h.lookup_eq, if_neg hused] at hlookup
    cases hcalls : calls.lookup used with
    | none =>
        rw [hcalls] at hlookup
        exact absurd rfl hlookup
    | some first => rfl
  · simp [List.lookup_cons, beq_false_of_ne hname]

theorem accept
    (h : scope.Records parameter calls outcomes) {name : String}
    (hnew : name ∉ scope.entries.map Prod.fst) (fragment : Fragment) :
    (scope.append [(name, fragment)]).Records parameter
      (calls ++ [(name, fragment)]) (outcomes ++ [.ok ()]) where
  answered := by simp [h.answered]
  entries_eq := by
    rw [entries_append_singleton, h.entries_eq,
      accepted_append_singleton h.answered]
    simp [Except.isOk, Except.toBool]
  distinct := by
    rw [entries_append_singleton, List.map_append]
    exact h.distinct.append (List.nodup_singleton name)
      (by simpa using hnew)
  lookup_eq := by
    intro used
    rw [lookup?_append, h.lookup_eq, List.lookup_append]
    by_cases hused : used = parameter
    · simp [hused]
    · simp only [hused, if_false]
      cases calls.lookup used <;> rfl

theorem refuse
    (h : scope.Records parameter calls outcomes) {name : String}
    (hmem : name ∈ scope.entries.map Prod.fst) (fragment : Fragment)
    (error : ScopeError) :
    scope.Records parameter
      (calls ++ [(name, fragment)]) (outcomes ++ [.error error]) where
  answered := by simp [h.answered]
  entries_eq := by
    rw [h.entries_eq, accepted_append_singleton h.answered]
    simp [Except.isOk, Except.toBool]
  distinct := h.distinct
  lookup_eq := by
    intro used
    rw [h.lookup_eq]
    by_cases hused : used = parameter
    · simp [hused]
    · rw [h.lookup_append_of_mem hmem fragment hused]

theorem attempt
    (h : scope.Records parameter calls outcomes) (call : String × Fragment) :
    (scope.attempt call).2.Records parameter
      (calls ++ [call]) (outcomes ++ [(scope.attempt call).1]) := by
  obtain ⟨name, fragment⟩ := call
  rcases scope.attempt_cases name fragment with
    ⟨hnew, hattempt⟩ | ⟨hname, hattempt⟩ | ⟨-, hmem, hattempt⟩
  · rw [hattempt]
    exact h.accept hnew fragment
  · rw [hattempt]
    exact h.refuse (by simp [keys_entries, hname]) fragment _
  · rw [hattempt]
    exact h.refuse (by simp [keys_entries, hmem]) fragment _

theorem attempts
    (h : scope.Records parameter calls outcomes)
    (more : List (String × Fragment)) :
    (scope.attempts more).2.Records parameter
      (calls ++ more) (outcomes ++ (scope.attempts more).1) := by
  induction more generalizing scope calls outcomes with
  | nil => simpa [Scope.attempts] using h
  | cons call more ih => simpa [Scope.attempts] using ih (h.attempt call)

end Records

theorem records_ofParameter (parameter : String) :
    (ofParameter parameter).Records parameter [] [] where
  answered := rfl
  entries_eq := rfl
  distinct := List.nodup_singleton parameter
  lookup_eq := by
    intro name
    by_cases hname : name = parameter
    · subst hname
      simp [lookup?, ofParameter]
    · simp [hname]

theorem records_attempts
    (parameter : String) (calls : List (String × Fragment)) :
    ((ofParameter parameter).attempts calls).2.Records parameter calls
      ((ofParameter parameter).attempts calls).1 := by
  simpa using (records_ofParameter parameter).attempts calls

/-! ## Attempts by position -/

theorem attempts_append
    (scope : Scope) (calls more : List (String × Fragment)) :
    scope.attempts (calls ++ more) =
      ((scope.attempts calls).1 ++ ((scope.attempts calls).2.attempts more).1,
        ((scope.attempts calls).2.attempts more).2) := by
  induction calls generalizing scope with
  | nil => rfl
  | cons call calls ih => simp [attempts, ih]

/-- Each attempt is answered by the scope behind the attempts in front of it. -/
theorem attempts_answered
    (parameter : String) (before behind : List (String × Fragment))
    (name : String) (fragment : Fragment) :
    ∃ outcome,
      ((ofParameter parameter).attempts
          (before ++ (name, fragment) :: behind)).1[before.length]? =
        some outcome ∧
      Answered parameter
        ((ofParameter parameter).attempts before).2
        ((ofParameter parameter).attempts (before ++ [(name, fragment)])).2
        name outcome := by
  have hrecords := records_attempts parameter before
  have hanswered := attempt_answered
    ((ofParameter parameter).attempts before).2 name fragment
  rw [hrecords.parameter_eq] at hanswered
  refine ⟨(attempt ((ofParameter parameter).attempts before).2
    (name, fragment)).1, ?_, ?_⟩
  · rw [attempts_append, List.getElem?_append_right hrecords.answered.le,
      hrecords.answered, Nat.sub_self]
    rfl
  · rw [attempts_append]
    exact hanswered

/-! ## Plain tables -/

end Scope

/-- Names with their meanings as they come.  Nothing keeps a table from having two
parameters, or two meanings of a name. -/
structure Table where
  entries : List (String × Binding)
  deriving DecidableEq

namespace Table

def ofParameter (parameter : String) : Table :=
  ⟨[(parameter, .parameter)]⟩

def parameter? (table : Table) : Option String :=
  (table.entries.find? fun entry => entry.2 = .parameter).map Prod.fst

/-- The first entry of a name counts. -/
def lookup? (table : Table) (name : String) : Option Binding :=
  (table.entries.find? fun entry => entry.1 = name).map Prod.snd

def bind (table : Table) (name : String) (fragment : Fragment) :
    Except ScopeError Table :=
  match table.lookup? name with
  | some .parameter => .error (.parameterRebound name)
  | some (.value _) => .error (.duplicateBinding name)
  | none => .ok ⟨table.entries ++ [(name, .value fragment)]⟩

def attempts (table : Table) :
    List (String × Fragment) → List (Except ScopeError Unit) × Table
  | [] => ([], table)
  | call :: calls =>
      match table.bind call.1 call.2 with
      | .ok extended =>
          (.ok () :: (extended.attempts calls).1, (extended.attempts calls).2)
      | .error error =>
          (.error error :: (table.attempts calls).1, (table.attempts calls).2)

end Table

namespace Scope

def table (scope : Scope) : Table :=
  ⟨scope.entries⟩

theorem table_parameter? (scope : Scope) :
    scope.table.parameter? = some scope.parameter := by
  simp [Table.parameter?, table, entries]

theorem table_lookup? (scope : Scope) (name : String) :
    scope.table.lookup? name = scope.lookup? name := by
  rw [Table.lookup?, table, entries, lookup?]
  by_cases hname : name = scope.parameter
  · simp [hname]
  · rw [List.find?_cons_of_neg (by simpa using Ne.symm hname), if_neg hname]
    induction scope.values with
    | nil => rfl
    | cons value values ih =>
        obtain ⟨bound, fragment⟩ := value
        by_cases hbound : name = bound
        · simp [hbound]
        · simpa [List.lookup_cons, Ne.symm hbound, beq_false_of_ne hbound]
            using ih

theorem table_bind (scope : Scope) (name : String) (fragment : Fragment) :
    scope.table.bind name fragment =
      (scope.bind name fragment).map table := by
  rw [Table.bind, table_lookup?, bind]
  rcases scope.lookup? name with _ | (_ | value)
  · exact congrArg Except.ok
      (congrArg Table.mk (scope.entries_append_singleton name fragment).symm)
  · rfl
  · rfl

/-- A scope does to its entries what is done to a plain table of them. -/
theorem table_attempts (scope : Scope) (calls : List (String × Fragment)) :
    scope.table.attempts calls =
      ((scope.attempts calls).1, (scope.attempts calls).2.table) := by
  induction calls generalizing scope with
  | nil => rfl
  | cons call calls ih =>
      rw [Table.attempts, table_bind, attempts, attempt]
      cases scope.bind call.1 call.2 with
      | ok extended => simp [Except.map, ih]
      | error error => simp [Except.map, ih]

/-! ## Whole histories -/

/-- Whatever attempts were made on a fresh scope, its first entry is the
parameter, and no other entry is one; all names are different; the other entries
are the accepted attempts in their order; each attempt was refused exactly for a
name that was present then, and changed nothing in that case; and a name means
what its first attempt gave it, unless it is the parameter.  A plain table of
entries answers the same attempts alike and comes to the entries of the scope. -/
theorem scope_history_exact
    (parameter : String) (calls : List (String × Fragment)) :
    let outcomes := ((ofParameter parameter).attempts calls).1
    let scope := ((ofParameter parameter).attempts calls).2
    (scope.entries[0]? = some (parameter, .parameter) ∧
        ∀ i name, scope.entries[i]? = some (name, .parameter) → i = 0) ∧
      (scope.entries.map Prod.fst).Nodup ∧
      scope.entries.tail =
        (accepted calls outcomes).map (fun call => (call.1, .value call.2)) ∧
      (∀ before name fragment behind,
        calls = before ++ (name, fragment) :: behind →
        ∃ outcome, outcomes[before.length]? = some outcome ∧
          Answered parameter
            ((ofParameter parameter).attempts before).2
            ((ofParameter parameter).attempts (before ++ [(name, fragment)])).2
            name outcome) ∧
      (∀ name, scope.lookup? name =
        if name = parameter then some .parameter
        else (calls.lookup name).map .value) ∧
      (Table.ofParameter parameter).attempts calls = (outcomes, scope.table) ∧
      scope.table.parameter? = some parameter ∧
      ∀ name, scope.table.lookup? name = scope.lookup? name := by
  intro outcomes scope
  have hrecords : scope.Records parameter calls outcomes :=
    records_attempts parameter calls
  have hentries := hrecords.entries_eq
  refine ⟨⟨by rw [hentries]; rfl, ?_⟩, hrecords.distinct,
    by rw [hentries]; rfl, ?_, hrecords.lookup_eq,
    (ofParameter parameter).table_attempts calls,
    scope.table_parameter?.trans (congrArg some hrecords.parameter_eq),
    scope.table_lookup?⟩
  · intro i name hentry
    cases i with
    | zero => rfl
    | succ i =>
        rw [hentries, List.getElem?_cons_succ, List.getElem?_map] at hentry
        obtain ⟨call, -, hcall⟩ := Option.map_eq_some_iff.mp hentry
        cases hcall
  · intro before name fragment behind hcalls
    simp only [outcomes, hcalls]
    exact attempts_answered parameter before behind name fragment

/-- A rebound parameter and a second value for a name, between two names that are
new. -/
theorem second_value_refused :
    let sum : Fragment := ⟨"_1 + 1", true⟩
    let copy : Fragment := ⟨"_1", false⟩
    let calls := [("y", sum), ("x", sum), ("y", copy), ("z", copy)]
    let outcomes := ((ofParameter "x").attempts calls).1
    let scope := ((ofParameter "x").attempts calls).2
    outcomes = [.ok (), .error (.parameterRebound "x"),
        .error (.duplicateBinding "y"), .ok ()] ∧
      ((ofParameter "x").attempts (calls.take 3)).2 =
        ((ofParameter "x").attempts (calls.take 2)).2 ∧
      scope.entries.tail = [("y", .value sum), ("z", .value copy)] ∧
      scope.lookup? "y" = some (.value sum) := by
  intro sum copy calls outcomes scope
  obtain ⟨-, -, htail, hanswered, hlookup, -⟩ := scope_history_exact "x" calls
  have houtcomes : outcomes = [.ok (), .error (.parameterRebound "x"),
      .error (.duplicateBinding "y"), .ok ()] := by
    decide
  obtain ⟨outcome, -, hsecond⟩ :=
    hanswered [("y", sum), ("x", sum)] "y" copy [("z", copy)] rfl
  have hrefused : outcome = .error (.duplicateBinding "y") :=
    hsecond.duplicate_iff.mpr (by decide)
  exact ⟨houtcomes, hsecond.unchanged ⟨_, hrefused⟩,
    htail.trans (by decide), (hlookup "y").trans (by decide)⟩

end Scope

end SelectChain
