import SelectChain.Proofs.OutputText
import Mathlib.Data.List.Perm.Basic
import Mathlib.Tactic

/-!
# The contents of reports

The listing of a chain writes names and texts as they are, and its JSON report
orders the bindings of a scope by name.  Both can still be taken apart: names have
no comma in them, texts have no line break, and no name is bound twice.  Each part
of a listing is taken off its beginning, whatever follows it; the sorted bindings
are a permutation of those of the scope.
-/

namespace SelectChain

open Grammar Lexeme

/-- The bound names with the texts that stand for them, in binding order. -/
def Scope.substitutions (scope : Scope) : List (String × String) :=
  scope.values.map fun value => (value.1, value.2.text)

/-- What makes the reports of a scope readable. -/
structure Scope.Legible (scope : Scope) : Prop where
  names : ∀ name ∈ scope.parameter :: scope.names,
    ∀ c ∈ name.toList, isNamePart c = true
  texts : ∀ value ∈ scope.values, '\n' ∉ value.2.text.toList
  nodup : scope.names.Nodup

/-! ## Lowered scopes -/

namespace Grammar

theorem Name.isNamePart_of_mem (name : Name) {c : Char}
    (h : c ∈ name.text.toList) : isNamePart c = true :=
  isNamePart_of_isIdentifier (isIdentifier_of_classify name.valid) h

theorem nodup_of_bindAll
    {assignments : List (Assignment Expression)} {scope extended : Scope}
    (hscope : scope.names.Nodup) (h : bindAll assignments scope = .ok extended) :
    extended.names.Nodup := by
  induction assignments generalizing scope with
  | nil =>
      cases h
      exact hscope
  | cons assignment rest ih =>
      rw [bindAll] at h
      rcases assignment.outcome_cases scope with
        ⟨houtcome, hscoped⟩ | ⟨error, houtcome, -⟩
      · rw [houtcome, ok_bind] at h
        apply ih _ h
        have hfresh := hscoped.fresh
        simp only [Scope.names, List.map_append, List.map_cons, List.map_nil]
          at hscope hfresh ⊢
        exact List.Nodup.append hscope (List.nodup_singleton _)
          (List.disjoint_singleton.mpr hfresh)
      · rw [houtcome] at h
        cases h

theorem Body.bindAll_of_outcome
    {parameter : String} {body : Body Expression} {stage : Stage}
    (h : body.outcome parameter = .ok stage) :
    bindAll body.assignments (.ofParameter parameter) = .ok stage.scope := by
  unfold outcome at h
  cases hbind : bindAll body.assignments (.ofParameter parameter) with
  | error error =>
      rw [hbind] at h
      cases h
  | ok scope =>
      rw [hbind, ok_bind] at h
      cases hcheck : checkElements scope body.elements with
      | error error =>
          rw [hcheck] at h
          cases h
      | ok _ =>
          rw [hcheck] at h
          cases h
          rfl

/-- The scope of a stage has the names of its assignments, and it is legible. -/
theorem Transformation.scope_of_outcome
    {transformation : Transformation} {stage : Stage}
    (h : transformation.outcome = .ok stage) :
    stage.scope.names = boundNames transformation.body.assignments ∧
      stage.scope.Legible := by
  have hbind := Body.bindAll_of_outcome h
  obtain ⟨hparameter, hnames⟩ :
      stage.scope.parameter = transformation.parameter.text ∧
        stage.scope.names = boundNames transformation.body.assignments := by
    rcases bindAll_cases transformation.body.assignments
        (.ofParameter transformation.parameter.text) with
      ⟨extended, hextended, hparameter, hnames, -⟩ | ⟨error, _, _, _, herror, -⟩
    · rw [hbind] at hextended
      cases hextended
      exact ⟨hparameter, hnames⟩
    · rw [hbind] at herror
      cases herror
  have hempty : (Scope.ofParameter transformation.parameter.text).names.Nodup :=
    List.nodup_nil
  refine ⟨hnames, ?_, ?_, nodup_of_bindAll hempty hbind⟩
  · intro name hmem c hc
    rw [hparameter, hnames, boundNames, List.mem_cons, List.mem_map] at hmem
    rcases hmem with rfl | ⟨assignment, -, rfl⟩
    · exact transformation.parameter.isNamePart_of_mem hc
    · exact assignment.name.isNamePart_of_mem hc
  · intro value hmem hbreak
    obtain ⟨hscope, -⟩ := Body.outcome_eq_ok h
    rw [hscope, scopeOf, List.mem_map] at hmem
    obtain ⟨lowered, -, rfl⟩ := hmem
    have hquotable := List.all_eq_true.mp lowered.2.tree.quotable _ hbreak
    simp [isQuotable] at hquotable

end Grammar

/-! ## Listings -/

/-- A part without the character that ends it can be taken off. -/
theorem append_cons_cancel
    {α : Type} {stop : α} {part other rest rest' : List α}
    (hpart : stop ∉ part) (hother : stop ∉ other)
    (h : part ++ stop :: rest = other ++ stop :: rest') :
    part = other ∧ rest = rest' := by
  induction part generalizing other with
  | nil =>
      cases other with
      | nil => exact ⟨rfl, (List.cons.inj h).2⟩
      | cons first more =>
          obtain rfl := (List.cons.inj h).1
          exact absurd (List.mem_cons_self ..) hother
  | cons first part ih =>
      cases other with
      | nil =>
          obtain rfl := (List.cons.inj h).1
          exact absurd (List.mem_cons_self ..) hpart
      | cons first' other =>
          obtain ⟨rfl, hrest⟩ := List.cons.inj h
          obtain ⟨rfl, hbehind⟩ := ih
            (fun hmem => hpart (List.mem_cons_of_mem _ hmem))
            (fun hmem => hother (List.mem_cons_of_mem _ hmem)) hrest
          exact ⟨rfl, hbehind⟩

namespace Scope

/-- A line of a listing, up to its line break. -/
def entryLine (name text : String) : List Char :=
  ("key: " ++ name ++ ", val: " ++ text).toList

theorem entryLine_eq (name text : String) :
    entryLine name text =
      "key: ".toList ++
        (name.toList ++ ',' :: (" val: ".toList ++ text.toList)) := by
  simp [entryLine]

/-- A name without a comma ends where the comma is. -/
theorem entryLine_injective
    {name name' text text' : String} (hname : ',' ∉ name.toList)
    (hname' : ',' ∉ name'.toList)
    (h : entryLine name text = entryLine name' text') :
    name = name' ∧ text = text' := by
  rw [entryLine_eq, entryLine_eq] at h
  obtain ⟨hnames, htexts⟩ :=
    append_cons_cancel hname hname' (List.append_cancel_left h)
  exact ⟨String.toList_inj.mp hnames,
    String.toList_inj.mp (List.append_cancel_left htexts)⟩

/-- The lines of entries, in front of what follows. -/
def linesBefore (rest : List Char) : List (String × String) → List Char
  | [] => rest
  | (name, text) :: entries =>
      entryLine name text ++ '\n' :: linesBefore rest entries

theorem head?_linesBefore_cons
    (rest : List Char) (entry : String × String)
    (entries : List (String × String)) :
    (linesBefore rest (entry :: entries)).head? = some 'k' := by
  simp [linesBefore, entryLine_eq]

/-- What can be written on a line of its own. -/
structure Listable (entry : String × String) : Prop where
  comma : ',' ∉ entry.1.toList
  lineBreak : '\n' ∉ entryLine entry.1 entry.2

/-- Lines are taken off one by one, up to what does not start like one. -/
theorem linesBefore_cancel
    {entries others : List (String × String)}
    (hentries : ∀ entry ∈ entries, Listable entry)
    (hothers : ∀ entry ∈ others, Listable entry)
    {rest rest' : List Char} (hrest : rest.head? ≠ some 'k')
    (hrest' : rest'.head? ≠ some 'k')
    (h : linesBefore rest entries = linesBefore rest' others) :
    entries = others ∧ rest = rest' := by
  induction entries generalizing others with
  | nil =>
      cases others with
      | nil => exact ⟨rfl, h⟩
      | cons entry others =>
          rw [linesBefore] at h
          rw [h, head?_linesBefore_cons] at hrest
          exact absurd rfl hrest
  | cons entry entries ih =>
      cases others with
      | nil =>
          have hlines : linesBefore rest (entry :: entries) = rest' := h
          rw [← hlines, head?_linesBefore_cons] at hrest'
          exact absurd rfl hrest'
      | cons other others =>
          have hentry := hentries entry (List.mem_cons_self ..)
          have hother := hothers other (List.mem_cons_self ..)
          obtain ⟨hline, hlines⟩ :=
            append_cons_cancel hentry.lineBreak hother.lineBreak h
          obtain ⟨hname, htext⟩ :=
            entryLine_injective hentry.comma hother.comma hline
          obtain ⟨rfl, hbehind⟩ := ih
            (fun entry hmem => hentries entry (List.mem_cons_of_mem _ hmem))
            (fun entry hmem => hothers entry (List.mem_cons_of_mem _ hmem))
            hlines
          exact ⟨by rw [Prod.ext hname htext], hbehind⟩

/-- The names of a scope with what its listing has for them. -/
def listed (scope : Scope) : List (String × String) :=
  (scope.parameter, "<parameter>") :: scope.substitutions

theorem describe_append (scope : Scope) (rest : List Char) :
    scope.describe.toList ++ rest = linesBefore rest scope.listed := by
  have hvalues : ∀ values : List (String × Fragment),
      ((values.map fun value => (value.1, Binding.value value.2)).map
          describeEntry).flatMap String.toList ++ rest =
        linesBefore rest (values.map fun value => (value.1, value.2.text)) := by
    intro values
    induction values with
    | nil => rfl
    | cons value values ih =>
        simp only [List.map_cons, List.flatMap_cons, List.append_assoc, ih,
          linesBefore]
        simp [describeEntry, entryLine]
  rw [describe, String.toList_join, entries, listed, substitutions,
    List.map_cons, List.flatMap_cons, List.append_assoc, hvalues, linesBefore]
  simp [describeEntry, entryLine]

theorem Legible.listable
    {scope : Scope} (h : scope.Legible) :
    ∀ entry ∈ scope.listed, Listable entry := by
  have hlistable : ∀ name ∈ scope.parameter :: scope.names, ∀ text : String,
      '\n' ∉ text.toList → Listable (name, text) := by
    intro name hname text htext
    have hfree : ∀ c, isNamePart c = false → c ∉ name.toList := by
      intro c hc hmem
      exact ne_of_isNamePart (h.names name hname c hmem) hc rfl
    refine ⟨hfree ',' (by decide), ?_⟩
    simp [entryLine, hfree '\n' (by decide), htext]
  intro entry hentry
  rw [listed, substitutions, List.mem_cons, List.mem_map] at hentry
  rcases hentry with rfl | ⟨value, hvalue, rfl⟩
  · exact hlistable _ (List.mem_cons_self ..) _ (by decide)
  · exact hlistable _ (List.mem_cons_of_mem _ (List.mem_map_of_mem hvalue)) _
      (h.texts value hvalue)

end Scope

namespace Chain

/-- A listing is a heading and the lines of a scope, in front of the others. -/
theorem toList_listingsFrom_cons
    (number : Nat) (scope : Scope) (more : List Scope) :
    (String.join (listingsFrom number (scope :: more))).toList =
      ("Symbol Table " ++ toString number ++ ":\n").toList ++
        Scope.linesBefore
          (String.join (listingsFrom (number + 1) more)).toList scope.listed := by
  rw [listingsFrom, String.toList_join, List.flatMap_cons, ← String.toList_join,
    String.toList_append, List.append_assoc, scope.describe_append]

theorem head?_listingsFrom (number : Nat) (scopes : List Scope) :
    (String.join (listingsFrom number scopes)).toList.head? ≠ some 'k' := by
  cases scopes with
  | nil => simp [listingsFrom]
  | cons scope more =>
      rw [toList_listingsFrom_cons]
      simp

/-- Equal listings under equal numbers are of scopes with equal contents. -/
theorem listingsFrom_cancel
    {scopes others : List Scope} (hscopes : ∀ scope ∈ scopes, scope.Legible)
    (hothers : ∀ scope ∈ others, scope.Legible) {number : Nat}
    (h : String.join (listingsFrom number scopes) =
      String.join (listingsFrom number others)) :
    scopes.map Scope.listed = others.map Scope.listed := by
  rw [← String.toList_inj] at h
  induction scopes generalizing others number with
  | nil =>
      cases others with
      | nil => rfl
      | cons other others =>
          rw [toList_listingsFrom_cons] at h
          simp [listingsFrom] at h
  | cons scope scopes ih =>
      cases others with
      | nil =>
          rw [toList_listingsFrom_cons] at h
          simp [listingsFrom] at h
      | cons other others =>
          -- The headings are equal, and what follows the lines of a scope is
          -- another heading or nothing.
          rw [toList_listingsFrom_cons, toList_listingsFrom_cons] at h
          obtain ⟨hlisted, hrest⟩ := Scope.linesBefore_cancel
            (hscopes scope (List.mem_cons_self ..)).listable
            (hothers other (List.mem_cons_self ..)).listable
            (head?_listingsFrom _ _) (head?_listingsFrom _ _)
            (List.append_cancel_left h)
          rw [List.map_cons, List.map_cons, hlisted, ih
            (fun scope hmem => hscopes scope (List.mem_cons_of_mem _ hmem))
            (fun scope hmem => hothers scope (List.mem_cons_of_mem _ hmem))
            hrest]

end Chain

/-! ## Sorted members -/

namespace Json

theorem insertMember_perm
    {member : String × Json} {members : List (String × Json)}
    (h : member.1 ∉ members.map Prod.fst) :
    (insertMember member members).Perm (member :: members) := by
  induction members with
  | nil => exact .refl _
  | cons head rest ih =>
      rw [List.map_cons, List.mem_cons, not_or] at h
      rw [insertMember]
      split_ifs
      next => exact .refl _
      next heq => exact absurd heq h.1
      next => exact ((ih h.2).cons head).trans (.swap ..)

/-- Sorting drops a member only for another one with its key. -/
theorem foldl_insertMember_perm
    {members sorted : List (String × Json)}
    (h : ((sorted ++ members).map Prod.fst).Nodup) :
    (members.foldl (fun sorted member => insertMember member sorted)
      sorted).Perm (sorted ++ members) := by
  induction members generalizing sorted with
  | nil => simp
  | cons member members ih =>
      have hfresh : member.1 ∉ sorted.map Prod.fst := by
        rw [List.map_append, List.map_cons, List.nodup_middle,
          List.nodup_cons] at h
        exact fun hmem => h.1 (List.mem_append_left _ hmem)
      have hmoved : (insertMember member sorted ++ members).Perm
          (sorted ++ member :: members) :=
        ((insertMember_perm hfresh).append_right members).trans
          List.perm_middle.symm
      exact (ih ((hmoved.map Prod.fst).nodup_iff.mpr h)).trans hmoved

end Json

/-- The bindings of a scope as they are reported, by name. -/
def Scope.bindingMembers (scope : Scope) : List (String × Json) :=
  scope.substitutions.map fun entry => (entry.1, .str entry.2)

theorem Scope.toJson_eq (scope : Scope) :
    scope.toJson = .obj [("bindings", .object scope.bindingMembers),
      ("parameter", .str scope.parameter)] := by
  have hless : "bindings" < "parameter" := by decide
  simp [toJson, Json.object, Json.insertMember, hless, bindingMembers,
    substitutions, Function.comp_def]

theorem Chain.toJson_eq (target : Target) (chain : Chain) :
    chain.toJson target = .obj [("output", .str (chain.text target)),
      ("symbol_tables", .arr (chain.scopes.map Scope.toJson))] := by
  have hless : ¬ "symbol_tables" < "output" := by decide
  simp [toJson, members, Json.object, Json.insertMember, hless]

theorem Scope.keys_bindingMembers (scope : Scope) :
    scope.bindingMembers.map Prod.fst = scope.names := by
  simp [bindingMembers, substitutions, names, Function.comp_def]

/-- No binding is lost in the report of a scope. -/
theorem Scope.Legible.exists_members
    {scope : Scope} (h : scope.Legible) :
    ∃ members, scope.toJson = .obj [("bindings", .obj members),
        ("parameter", .str scope.parameter)] ∧
      members.Perm scope.bindingMembers := by
  refine ⟨_, scope.toJson_eq, Json.foldl_insertMember_perm ?_⟩
  rw [List.nil_append, scope.keys_bindingMembers]
  exact h.nodup

/-- Equal reports are of scopes with equal bindings, but for their order. -/
theorem Scope.Legible.perm_of_toJson
    {scope other : Scope} (h : scope.Legible) (hother : other.Legible)
    (hjson : scope.toJson = other.toJson) :
    scope.parameter = other.parameter ∧
      scope.substitutions.Perm other.substitutions := by
  obtain ⟨members, hmembers, hperm⟩ := h.exists_members
  obtain ⟨members', hmembers', hperm'⟩ := hother.exists_members
  rw [hmembers, hmembers'] at hjson
  obtain ⟨rfl, hparameter⟩ :
      members = members' ∧ scope.parameter = other.parameter := by
    simpa using hjson
  have hinjective : Function.Injective
      fun entry : String × String => (entry.1, Json.str entry.2) := by
    rintro ⟨name, text⟩ ⟨name', text'⟩ heq
    simpa using heq
  exact ⟨hparameter,
    (List.map_perm_map_iff hinjective).mp (hperm.symm.trans hperm')⟩

/-! ## Reports of chains -/

theorem stages_of_program
    {source : String} {tokens : List Token}
    (htokens : tokenize source = .ok tokens) {program : Program}
    (hwords : program.words = grammarWords tokens) {chain : Chain}
    (h : lower source = .ok chain) :
    List.Forall₂ (fun stage transformation => transformation.outcome = .ok stage)
      chain.stages program.transformations := by
  have houtcome := lower_of_program htokens hwords
  rw [h, Program.outcome] at houtcome
  cases hstages : program.transformations.mapM Transformation.outcome with
  | error error =>
      rw [hstages] at houtcome
      cases houtcome
  | ok stages =>
      rw [hstages] at houtcome
      cases houtcome
      exact forall₂_of_mapM hstages

theorem legible_of_lower
    {source : String} {chain : Chain} (h : lower source = .ok chain) :
    ∀ scope ∈ chain.scopes, scope.Legible := by
  obtain ⟨tokens, htokens⟩ := exists_tokens_of_lower h
  obtain ⟨program, hwords⟩ := exists_program_of_lower htokens h
  intro scope hscope
  obtain ⟨stage, hstage, rfl⟩ := List.mem_map.mp hscope
  have hstages : List.Forall₂ (fun stage transformation =>
      stage.scope.Legible ∧ Transformation.outcome transformation = .ok stage)
      chain.stages program.transformations :=
    (stages_of_program htokens hwords h).imp fun _ _ houtcome =>
      ⟨(Transformation.scope_of_outcome houtcome).2, houtcome⟩
  exact ((List.forall₂_and_left _ _).mp hstages).1 stage hstage

theorem forall₂_of_map_eq
    {α β : Type} {f : α → β} {elements others : List α}
    (h : elements.map f = others.map f) :
    List.Forall₂ (fun element other => f element = f other) elements others := by
  rw [← List.forall₂_eq_eq_eq] at h
  simpa [List.forall₂_map_left_iff, List.forall₂_map_right_iff] using h

/-- The listing of a chain has the contents of all scopes, and its JSON report
has them and the text.  No two bindings of a body share a member. -/
theorem reports_lose_nothing
    {source source' : String} {chain chain' : Chain}
    (h : lower source = .ok chain) (h' : lower source' = .ok chain')
    (target target' : Target) :
    (chain.report = chain'.report →
        List.Forall₂
          (fun scope scope' => scope.parameter = scope'.parameter ∧
            scope.substitutions = scope'.substitutions)
          chain.scopes chain'.scopes) ∧
      (chain.toJson target = chain'.toJson target' →
        chain.text target = chain'.text target' ∧
        List.Forall₂
          (fun scope scope' => scope.parameter = scope'.parameter ∧
            scope.substitutions.Perm scope'.substitutions)
          chain.scopes chain'.scopes) ∧
      ∃ tokens, tokenize source = .ok tokens ∧
        (∃ program : Program, program.words = grammarWords tokens) ∧
        ∀ program : Program, program.words = grammarWords tokens →
          List.Forall₂
            (fun scope transformation => ∃ members,
              scope.toJson = .obj [("bindings", .obj members),
                ("parameter", .str scope.parameter)] ∧
              members.Perm (scope.substitutions.map fun entry =>
                (entry.1, .str entry.2)) ∧
              (members.map Prod.fst).Perm
                (boundNames transformation.body.assignments) ∧
              (members.map Prod.fst).Nodup)
            chain.scopes program.transformations := by
  have hlegible := legible_of_lower h
  have hlegible' := legible_of_lower h'
  refine ⟨?_, ?_, ?_⟩
  · intro hreport
    have hlisted := Chain.listingsFrom_cancel hlegible hlegible' hreport
    apply (forall₂_of_map_eq hlisted).imp
    intro scope scope' hscope
    simpa [Scope.listed] using hscope
  · intro hjson
    rw [Chain.toJson_eq, Chain.toJson_eq] at hjson
    obtain ⟨htext, hscopes⟩ : chain.text target = chain'.text target' ∧
        chain.scopes.map Scope.toJson = chain'.scopes.map Scope.toJson := by
      simpa using hjson
    obtain ⟨hlength, hequal⟩ :=
      List.forall₂_iff_zip.mp (forall₂_of_map_eq hscopes)
    refine ⟨htext, List.forall₂_iff_zip.mpr ⟨hlength, ?_⟩⟩
    intro scope scope' hmem
    obtain ⟨hscope, hscope'⟩ := List.of_mem_zip hmem
    exact (hlegible scope hscope).perm_of_toJson (hlegible' scope' hscope')
      (hequal hmem)
  · obtain ⟨tokens, htokens⟩ := exists_tokens_of_lower h
    refine ⟨tokens, htokens, exists_program_of_lower htokens h, ?_⟩
    intro program hwords
    rw [Chain.scopes, List.forall₂_map_left_iff]
    apply (stages_of_program htokens hwords h).imp
    intro stage transformation houtcome
    obtain ⟨hnames, hscope⟩ := Transformation.scope_of_outcome houtcome
    obtain ⟨members, hmembers, hperm⟩ := hscope.exists_members
    have hkeys : (members.map Prod.fst).Perm stage.scope.names := by
      rw [← stage.scope.keys_bindingMembers]
      exact hperm.map Prod.fst
    rw [← hnames]
    exact ⟨members, hmembers, hperm, hkeys, hkeys.nodup_iff.mpr hscope.nodup⟩

/-- The order of bindings shows in the listing only. -/
theorem reordered_bindings_reported :
    let sum : String × Fragment := ("y", ⟨"_1 + 1", true⟩)
    let copy : String × Fragment := ("a", ⟨"_1", false⟩)
    let chain : Chain := ⟨"1", "3", [⟨⟨"x", [sum, copy]⟩, ["_1"]⟩]⟩
    let other : Chain := ⟨"1", "3", [⟨⟨"x", [copy, sum]⟩, ["_1"]⟩]⟩
    lower ("sc.range(1,3).map(x => \x7b val y = x + 1; val a = x; a \x7d)" ++
        ".collect()") = .ok chain ∧
      lower ("sc.range(1,3).map(x => \x7b val a = x; val y = x + 1; a \x7d)" ++
        ".collect()") = .ok other ∧
      chain.toJson .standard = other.toJson .standard ∧
      List.Forall₂
        (fun scope scope' => scope.parameter = scope'.parameter ∧
          scope.substitutions.Perm scope'.substitutions)
        chain.scopes other.scopes ∧
      chain.report ≠ other.report := by
  intro sum copy chain other
  have hchain : lower ("sc.range(1,3).map(x => \x7b val y = x + 1; " ++
      "val a = x; a \x7d).collect()") = .ok chain := by
    decide +kernel
  have hother : lower ("sc.range(1,3).map(x => \x7b val a = x; " ++
      "val y = x + 1; a \x7d).collect()") = .ok other := by
    decide +kernel
  obtain ⟨hlisting, hjson, -⟩ :=
    reports_lose_nothing hchain hother .standard .standard
  have hsame : chain.toJson .standard = other.toJson .standard := by
    have hless : "a" < "y" := by decide
    have hgreater : ¬ "y" < "a" := by decide
    have hscope : Scope.toJson ⟨"x", [sum, copy]⟩ =
        Scope.toJson ⟨"x", [copy, sum]⟩ := by
      simp [Scope.toJson_eq, Scope.bindingMembers, Scope.substitutions,
        Json.object, Json.insertMember, hless, hgreater, sum, copy]
    rw [Chain.toJson_eq, Chain.toJson_eq]
    simp only [Chain.scopes, List.map_cons, List.map_nil, hscope, chain, other]
    rfl
  refine ⟨hchain, hother, hsame, (hjson hsame).2, ?_⟩
  intro hreport
  obtain ⟨⟨-, horder⟩, -⟩ := List.forall₂_cons.mp (hlisting hreport)
  exact absurd horder (by decide)

end SelectChain
