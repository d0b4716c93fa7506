import SelectChain.FileLowering
import SelectChain.Proofs.OutputNames
import Mathlib.Tactic

/-!
# Whole files

Lowering a file has a single effect, and it comes last: the output is written, or
nothing is.  This is so on every world of files whose writes are whole, and on
which only names lead to files.  The second condition is what gives every file
that can be read an output path: a path without one is empty or ends with the
root, a single dot or a double dot, so it leads to a directory if anywhere.
-/

open SelectChain.Path (Component components)

namespace SelectChain

/-! ## Worlds of files -/

/-- What one written file makes of a world: a site that was not a directory has
the content, and no other site has changed. -/
structure Replaced {σ site : Type} (node? : σ → site → Option Node)
    (before after : σ) (place : site) (content : ByteArray) : Prop where
  free : node? before place ≠ some .directory
  content : node? after place = some (.file content)
  others : ∀ other, other ≠ place → node? after other = node? before other

/-- What is taken for granted of a world of files: where its paths lead, what is
there, and what reading and writing do to it. -/
structure FileSystem (σ site : Type) [FileStore (StateM σ)] where
  resolve : σ → String → Except FileFault site
  node? : σ → site → Option Node
  /-- Reading has no effect and gives what is at the end of the path. -/
  read : ∀ state path, ∃ result,
    (FileStore.read path : StateM σ _).run state = (result, state) ∧
      ∀ content, result = .ok content → ∃ place,
        resolve state path = .ok place ∧
          node? state place = some (.file content)
  /-- Writing has no effect, or it replaces or creates one file. -/
  write : ∀ state path content,
    (∃ fault, (FileStore.write path content : StateM σ _).run state =
        (.error fault, state)) ∨
      ∃ after place, (FileStore.write path content : StateM σ _).run state =
          (.ok (), after) ∧
        resolve after path = .ok place ∧
        Replaced node? state after place content
  empty_path : ∀ state place, resolve state "" ≠ .ok place
  /-- Only a name can lead to anything but a directory. -/
  directory : ∀ state path place,
    (components path.toList).getLast? ∈
        [some Component.root, some .current, some .parent] →
      resolve state path = .ok place → node? state place = some .directory

theorem run_bind
    {σ α β : Type} {first : StateM σ α} {next : α → StateM σ β}
    {state after : σ} {value : α} (h : first.run state = (value, after)) :
    (first >>= next).run state = (next value).run after := by
  rw [StateT.run_bind, h]
  rfl

section Reading

variable {σ site : Type} [FileStore (StateM σ)]

/-- The text that reading a path gives. -/
def sourceOf (state : σ) (path : String) : Except FileFault String :=
  match ((FileStore.read path : StateM σ _).run state).1 with
  | .error fault => .error fault
  | .ok content => textOf content

namespace FileSystem

variable (system : FileSystem σ site)

/-- A path leads to a file with the given text. -/
def Holds (state : σ) (path source : String) : Prop :=
  ∃ place content, system.resolve state path = .ok place ∧
    system.node? state place = some (.file content) ∧
    textOf content = .ok source

include system in
theorem run_readSource (state : σ) (path : String) :
    (readSource path : StateM σ _).run state =
      ((sourceOf state path).mapError (.read path), state) := by
  obtain ⟨result, hrun, -⟩ := system.read state path
  rw [readSource, run_bind hrun, sourceOf, hrun]
  cases result with
  | error fault => rfl
  | ok content =>
      simp only
      cases textOf content <;> rfl

theorem holds_of_sourceOf
    {state : σ} {path source : String} (h : sourceOf state path = .ok source) :
    system.Holds state path source := by
  obtain ⟨result, hrun, hresult⟩ := system.read state path
  rw [sourceOf, hrun] at h
  cases result with
  | error fault => cases h
  | ok content =>
      obtain ⟨place, hplace, hnode⟩ := hresult content rfl
      exact ⟨place, content, hplace, hnode, h⟩

/-- A file is at the end of a path only if the path ends with a name. -/
theorem Holds.exists_name
    {state : σ} {path source : String} (h : system.Holds state path source) :
    ∃ name, (components path.toList).getLast? = some (.normal name) := by
  obtain ⟨place, content, hplace, hnode, -⟩ := h
  have hfile : system.node? state place ≠ some .directory := by simp [hnode]
  cases hlast : (components path.toList).getLast? with
  | none =>
      have hnil := Path.eq_nil_of_components (List.getLast?_eq_none_iff.mp hlast)
      obtain rfl : path = "" := by simpa using hnil
      exact absurd hplace (system.empty_path state place)
  | some component =>
      cases component with
      | normal name => exact ⟨name, rfl⟩
      | _ =>
          exact absurd
            (system.directory state path place (by simp [hlast]) hplace) hfile

end FileSystem

end Reading

/-! ## Endings -/

section Endings

variable {σ site : Type} [FileStore (StateM σ)] (system : FileSystem σ site)
  (options : FileOptions) (input : String) (state : σ)

/-- The ways in which lowering a file can end.  None of them is for a missing
name. -/
inductive Ending : Except FileError FileOutcome → σ → Prop
  | unread {fault : FileFault} (hsource : sourceOf state input = .error fault) :
      Ending (.error (.read input fault)) state
  | refused {source : String} {fault : Fault}
      (hsource : sourceOf state input = .ok source)
      (hlower : lower source = .error fault) :
      Ending (.error (.lower input fault)) state
  | shown {source : String} {chain : Chain}
      (hsource : sourceOf state input = .ok source)
      (hlower : lower source = .ok chain) (hstdout : options.toStdout = true) :
      Ending (.ok ⟨input, none, chain⟩) state
  | unwritten {source output : String} {chain : Chain} {fault : FileFault}
      (hsource : sourceOf state input = .ok source)
      (hlower : lower source = .ok chain) (hstdout : options.toStdout = false)
      (houtput : outputPath options.suffix input = .ok output)
      (hwrite : (FileStore.write output (chain.text options.target).toUTF8 :
        StateM σ _).run state = (.error fault, state)) :
      Ending (.error (.write output fault)) state
  | written {source output : String} {chain : Chain} {after : σ} {place : site}
      (hsource : sourceOf state input = .ok source)
      (hlower : lower source = .ok chain) (hstdout : options.toStdout = false)
      (houtput : outputPath options.suffix input = .ok output)
      (hwrite : (FileStore.write output (chain.text options.target).toUTF8 :
        StateM σ _).run state = (.ok (), after))
      (hplace : system.resolve after output = .ok place)
      (hreplaced : Replaced system.node? state after place
        (chain.text options.target).toUTF8) :
      Ending (.ok ⟨input, some output, chain⟩) after

variable {input}

/-- A chain that has an output path is shown, or it is written or not. -/
theorem writeChain_ends
    {name : Segment}
    (hname : (components input.toList).getLast? = some (.normal name))
    (chain : Chain) :
    (options.toStdout = true ∧
        (writeChain options input chain : StateM σ _).run state =
          (.ok none, state)) ∨
      ∃ output, options.toStdout = false ∧
        outputPath options.suffix input = .ok output ∧
        ((∃ fault,
            (FileStore.write output (chain.text options.target).toUTF8 :
              StateM σ _).run state = (.error fault, state) ∧
            (writeChain options input chain : StateM σ _).run state =
              (.error (.write output fault), state)) ∨
          ∃ after place,
            (FileStore.write output (chain.text options.target).toUTF8 :
              StateM σ _).run state = (.ok (), after) ∧
            system.resolve after output = .ok place ∧
            Replaced system.node? state after place
              (chain.text options.target).toUTF8 ∧
            (writeChain options input chain : StateM σ _).run state =
              (.ok (some output), after)) := by
  rw [writeChain]
  cases hstdout : options.toStdout with
  | true => exact Or.inl ⟨rfl, rfl⟩
  | false =>
      right
      obtain ⟨output, houtput⟩ := Path.exists_outputPath options.suffix hname
      refine ⟨output, rfl, houtput, ?_⟩
      rw [if_neg Bool.false_ne_true, houtput]
      simp only
      rcases system.write state output (chain.text options.target).toUTF8 with
        ⟨fault, hrun⟩ | ⟨after, place, hrun, hplace, hreplaced⟩
      · left
        refine ⟨fault, hrun, ?_⟩
        rw [run_bind hrun]
        rfl
      · right
        refine ⟨after, place, hrun, hplace, hreplaced, ?_⟩
        rw [run_bind hrun]
        rfl

variable (input)

theorem lowerFile_ends :
    ∃ result events after,
      (lowerFile options input : StateM σ _).run state =
          ((result, events), after) ∧
        Ending system options input state result after := by
  rw [lowerFile, run_bind (system.run_readSource state input)]
  cases hsource : sourceOf state input with
  | error fault => exact ⟨_, _, _, rfl, .unread hsource⟩
  | ok source =>
      simp only [Except.mapError]
      cases hlower : (Lowering.ofSource source).outcome with
      | error fault => exact ⟨_, _, _, rfl, .refused hsource hlower⟩
      | ok chain =>
          obtain ⟨name, hname⟩ :=
            (system.holds_of_sourceOf hsource).exists_name
          simp only
          rcases writeChain_ends system options state hname chain with
            ⟨hstdout, hrun⟩ | ⟨output, hstdout, houtput,
              ⟨fault, hwrite, hrun⟩ |
                ⟨after, place, hwrite, hplace, hreplaced, hrun⟩⟩
          · rw [run_bind hrun]
            exact ⟨_, _, _, rfl, .shown hsource hlower hstdout⟩
          · rw [run_bind hrun]
            exact ⟨_, _, _, rfl,
              .unwritten hsource hlower hstdout houtput hwrite⟩
          · rw [run_bind hrun]
            exact ⟨_, _, _, rfl,
              .written hsource hlower hstdout houtput hwrite hplace hreplaced⟩

/-- What lowering a file comes to: an error and the world as it was, or the
lowered text of the file where it is asked for and the rest of the world as it
was. -/
structure AllOrNothing (result : Except FileError FileOutcome) (after : σ) :
    Prop where
  failed : ∀ error, result = .error error →
    after = state ∧ ∀ path, error ≠ .unnamed path
  unread : ∀ fault, result = .error (.read input fault) ↔
    sourceOf state input = .error fault
  unnamed : (∀ name, (components input.toList).getLast? ≠ some (.normal name)) →
    ∃ fault, result = .error (.read input fault)
  refused : ∀ source, sourceOf state input = .ok source → ∀ fault,
    result = .error (.lower input fault) ↔ lower source = .error fault
  /-- A file that is read and lowered fails only with its output. -/
  completed : ∀ source chain, sourceOf state input = .ok source →
    lower source = .ok chain →
      (∃ output, result = .ok ⟨input, output, chain⟩) ∨
        options.toStdout = false ∧ ∃ output fault,
          result = .error (.write output fault) ∧
          outputPath options.suffix input = .ok output ∧
          (FileStore.write output (chain.text options.target).toUTF8 :
            StateM σ _).run state = (.error fault, state)
  lowered : ∀ outcome, result = .ok outcome → outcome.input = input ∧
    ∃ source, system.Holds state input source ∧
      lower source = .ok outcome.chain
  shown : ∀ outcome, result = .ok outcome → options.toStdout = true →
    after = state ∧ outcome.output = none
  written : ∀ outcome, result = .ok outcome → options.toStdout = false →
    ∃ output place, outputPath options.suffix input = .ok output ∧
      outcome.output = some output ∧ system.resolve after output = .ok place ∧
      Replaced system.node? state after place
        (outcome.chain.text options.target).toUTF8

variable {input state} {system} {options}

/-- A path without a name cannot be read. -/
theorem Ending.exists_fault
    {result : Except FileError FileOutcome} {after : σ}
    (h : Ending system options input state result after)
    (hname : ∀ name,
      (components input.toList).getLast? ≠ some (.normal name)) :
    ∃ fault, result = .error (.read input fault) := by
  have hunread : ∀ source, sourceOf state input ≠ .ok source := by
    intro source hsource
    obtain ⟨name, hlast⟩ := (system.holds_of_sourceOf hsource).exists_name
    exact hname name hlast
  cases h with
  | unread => exact ⟨_, rfl⟩
  | refused hsource => exact absurd hsource (hunread _)
  | shown hsource => exact absurd hsource (hunread _)
  | unwritten hsource => exact absurd hsource (hunread _)
  | written hsource => exact absurd hsource (hunread _)

/-- A source that was read is refused, or it fails only with its output. -/
theorem Ending.cases_of_source
    {result : Except FileError FileOutcome} {after : σ}
    (h : Ending system options input state result after) {source : String}
    (hread : sourceOf state input = .ok source) :
    (∃ fault, lower source = .error fault ∧
        result = .error (.lower input fault)) ∨
      ∃ chain, lower source = .ok chain ∧
        ((∃ output, result = .ok ⟨input, output, chain⟩) ∨
          options.toStdout = false ∧ ∃ output fault,
            result = .error (.write output fault) ∧
            outputPath options.suffix input = .ok output ∧
            (FileStore.write output (chain.text options.target).toUTF8 :
              StateM σ _).run state = (.error fault, state)) := by
  cases h with
  | unread hsource =>
      rw [hsource] at hread
      cases hread
  | refused hsource hlower =>
      obtain rfl := Except.ok.inj (hsource.symm.trans hread)
      exact Or.inl ⟨_, hlower, rfl⟩
  | shown hsource hlower =>
      obtain rfl := Except.ok.inj (hsource.symm.trans hread)
      exact Or.inr ⟨_, hlower, Or.inl ⟨_, rfl⟩⟩
  | unwritten hsource hlower hstdout houtput hwrite =>
      obtain rfl := Except.ok.inj (hsource.symm.trans hread)
      exact Or.inr ⟨_, hlower,
        Or.inr ⟨hstdout, _, _, rfl, houtput, hwrite⟩⟩
  | written hsource hlower =>
      obtain rfl := Except.ok.inj (hsource.symm.trans hread)
      exact Or.inr ⟨_, hlower, Or.inl ⟨_, rfl⟩⟩

theorem Ending.allOrNothing
    {result : Except FileError FileOutcome} {after : σ}
    (h : Ending system options input state result after) :
    AllOrNothing system options input state result after where
  failed := by
    rintro error rfl
    cases h <;> exact ⟨rfl, by simp⟩
  unread := by
    intro fault
    cases h with
    | unread hsource => simp [hsource]
    | refused hsource => simp [hsource]
    | shown hsource => simp [hsource]
    | unwritten hsource => simp [hsource]
    | written hsource => simp [hsource]
  unnamed := h.exists_fault
  refused := by
    intro source hread fault
    rcases h.cases_of_source hread with
      ⟨error, hlower, rfl⟩ |
        ⟨chain, hlower, ⟨output, rfl⟩ | ⟨-, output, error, rfl, -⟩⟩
    · simp [hlower]
    · simp [hlower]
    · simp [hlower]
  completed := by
    intro source chain hread hchain
    rcases h.cases_of_source hread with
      ⟨fault, hlower, -⟩ | ⟨chain', hlower, hresult⟩
    · rw [hchain] at hlower
      cases hlower
    · obtain rfl := Except.ok.inj (hchain.symm.trans hlower)
      exact hresult
  lowered := by
    rintro outcome rfl
    cases h with
    | shown hsource hlower =>
        exact ⟨rfl, _, system.holds_of_sourceOf hsource, hlower⟩
    | written hsource hlower =>
        exact ⟨rfl, _, system.holds_of_sourceOf hsource, hlower⟩
  shown := by
    rintro outcome rfl hshown
    cases h with
    | shown => exact ⟨rfl, rfl⟩
    | written _ _ hstdout =>
        rw [hshown] at hstdout
        cases hstdout
  written := by
    rintro outcome rfl hwritten
    cases h with
    | shown _ _ hstdout =>
        rw [hwritten] at hstdout
        cases hstdout
    | written _ _ _ houtput _ hplace hreplaced =>
        exact ⟨_, _, houtput, rfl, hplace, hreplaced⟩

end Endings

/-! ## Trees as worlds -/

namespace FileTree

def SameDirectories (tree other : FileTree) : Prop :=
  ∀ place, tree.node? place = some .directory ↔
    other.node? place = some .directory

theorem SameDirectories.symm {tree other : FileTree}
    (h : tree.SameDirectories other) : other.SameDirectories tree :=
  fun place => (h place).symm

theorem names_ne_nil {tree : FileTree} {place : Place}
    (h : tree.node? place ≠ some .directory) : place.names ≠ [] := by
  intro hnil
  apply h
  rw [node?, if_pos hnil]

/-- Files are written where no directory is. -/
theorem sameDirectories_set
    {tree : FileTree} {place : Place} (h : tree.node? place ≠ some .directory)
    (content : ByteArray) :
    tree.SameDirectories (tree.set place (.file content)) := by
  intro other
  by_cases hother : other = place
  · subst hother
    rw [tree.node?_set_self _ (names_ne_nil h)]
    simp [h]
  · rw [tree.node?_set_of_ne _ hother]

theorem step_eq_ok_iff
    {tree : FileTree} {place next : Place} {segment : Segment} :
    tree.step place segment = .ok next ↔
      tree.node? place = some .directory ∧
        Path.byteLength segment ≤ nameLimit ∧ place.follow segment = next := by
  unfold step
  split
  next hnode => simp [hnode]
  next hnode => simp [hnode]
  next hnode =>
    split
    next hlong => simp; omega
    next hshort => simp [hnode]; omega

theorem walk_cons_eq_ok_iff
    {tree : FileTree} {place last : Place} {segment : Segment}
    {more : List Segment} :
    tree.walk place (segment :: more) = .ok last ↔
      ∃ next, tree.step place segment = .ok next ∧
        tree.walk next more = .ok last := by
  rw [walk]
  cases tree.step place segment <;> simp

section Directories

variable {tree other : FileTree} (h : tree.SameDirectories other)

include h

theorem SameDirectories.walk
    {place last : Place} {segments : List Segment}
    (hwalk : tree.walk place segments = .ok last) :
    other.walk place segments = .ok last := by
  induction segments generalizing place with
  | nil => exact hwalk
  | cons segment more ih =>
      rw [walk_cons_eq_ok_iff] at hwalk ⊢
      obtain ⟨next, hstep, hwalk⟩ := hwalk
      refine ⟨next, ?_, ih hwalk⟩
      rw [step_eq_ok_iff] at hstep ⊢
      exact ⟨(h place).mp hstep.1, hstep.2⟩

/-- A path leads to the same place on all trees with the same directories. -/
theorem SameDirectories.resolve
    {path : List Char} {place : Place} (hpath : tree.resolve path = .ok place) :
    other.resolve path = .ok place := by
  unfold FileTree.resolve at hpath ⊢
  split_ifs at hpath ⊢
  exact h.walk hpath

end Directories

theorem read_eq_ok_iff
    {tree : FileTree} {path : String} {content : ByteArray} :
    tree.read path = .ok content ↔
      ∃ place, tree.resolve path.toList = .ok place ∧
        tree.node? place = some (.file content) := by
  unfold read
  cases tree.resolve path.toList with
  | error fault => simp
  | ok place =>
      simp only [Except.ok.injEq, exists_eq_left']
      split <;> simp_all

theorem write_cases (tree : FileTree) (path : String) (content : ByteArray) :
    (∃ place, tree.resolve path.toList = .ok place ∧
        tree.node? place ≠ some .directory ∧
        tree.write path content = .ok (tree.set place (.file content))) ∨
      ∃ fault, tree.write path content = .error fault ∧
        ∀ place, tree.resolve path.toList = .ok place →
          tree.node? place = some .directory := by
  unfold write
  cases tree.resolve path.toList with
  | error fault =>
      right
      exact ⟨fault, rfl, by simp⟩
  | ok place =>
      simp only
      split
      next hnode =>
        right
        refine ⟨_, rfl, ?_⟩
        rintro _ ⟨⟩
        exact hnode
      next hnode =>
        left
        exact ⟨place, rfl, hnode, rfl⟩

theorem run_read (tree : FileTree) (path : String) :
    (FileStore.read path : StateM FileTree _).run tree =
      (tree.read path, tree) :=
  rfl

theorem run_write (tree : FileTree) (path : String) (content : ByteArray) :
    (FileStore.write path content : StateM FileTree _).run tree =
      match tree.write path content with
      | .ok after => (.ok (), after)
      | .error fault => (.error fault, tree) :=
  rfl

variable {tree : FileTree}

/-- All directories that a place is in are there. -/
def Grounded (tree : FileTree) (place : Place) : Prop :=
  ∀ names, names <+: place.names → names ≠ place.names →
    tree.node? { place with names := names } = some .directory

theorem grounded_of_names_eq_nil {place : Place} (h : place.names = []) :
    tree.Grounded place := by
  intro names hnames hne
  rw [h, List.prefix_nil] at hnames
  exact absurd (hnames.trans h.symm) hne

theorem Grounded.node?_parent
    {place : Place} (h : tree.Grounded place) :
    tree.node? place.parent = some .directory := by
  unfold Place.parent
  split
  next hnames _ => rw [node?, if_pos hnames]
  next hnames _ => rw [node?, if_pos rfl]
  next first more hnames =>
    apply h _ (List.dropLast_prefix _)
    rw [hnames]
    intro hsame
    have hlength := congrArg List.length hsame
    simp at hlength

theorem Grounded.parent {place : Place} (h : tree.Grounded place) :
    tree.Grounded place.parent := by
  unfold Place.parent
  split
  next => exact h
  next => exact grounded_of_names_eq_nil rfl
  next =>
    intro names hnames hne
    apply h names (hnames.trans (List.dropLast_prefix _))
    rintro rfl
    exact hne (hnames.eq_of_length_le (List.dropLast_prefix _).length_le)

theorem Grounded.child
    {place : Place} (h : tree.Grounded place)
    (hplace : tree.node? place = some .directory) (name : Segment) :
    tree.Grounded (place.child name) := by
  intro names hnames hne
  rcases List.prefix_concat_iff.mp hnames with hself | hbefore
  · exact absurd hself hne
  · by_cases hsame : names = place.names
    · rw [hsame]
      exact hplace
    · exact h names hbefore hsame

/-- Segments are followed from directories only, so none is missing above the
place that they lead to. -/
theorem Grounded.step
    {place next : Place} {segment : Segment} (h : tree.Grounded place)
    (hstep : tree.step place segment = .ok next) : tree.Grounded next := by
  obtain ⟨hplace, -, rfl⟩ := step_eq_ok_iff.mp hstep
  unfold Place.follow
  split_ifs
  · exact h
  · exact h.parent
  · exact h.child hplace segment

theorem Grounded.walk
    {place last : Place} {segments : List Segment} (h : tree.Grounded place)
    (hwalk : tree.walk place segments = .ok last) : tree.Grounded last := by
  induction segments generalizing place with
  | nil =>
      cases hwalk
      exact h
  | cons segment more ih =>
      obtain ⟨next, hstep, hwalk⟩ := walk_cons_eq_ok_iff.mp hwalk
      exact ih (h.step hstep) hwalk

theorem walk_append
    {place last : Place} {segments more : List Segment}
    (h : tree.walk place (segments ++ more) = .ok last) :
    ∃ between, tree.walk place segments = .ok between ∧
      tree.walk between more = .ok last := by
  induction segments generalizing place with
  | nil => exact ⟨place, rfl, h⟩
  | cons segment segments ih =>
      obtain ⟨next, hstep, hwalk⟩ := walk_cons_eq_ok_iff.mp h
      obtain ⟨between, hbefore, hbehind⟩ := ih hwalk
      exact ⟨between, walk_cons_eq_ok_iff.mpr ⟨next, hstep, hbefore⟩, hbehind⟩

theorem eq_of_walk_voids
    {place last : Place} {segments : List Segment}
    (hvoids : ∀ segment ∈ segments, Path.isVoid segment = true)
    (h : tree.walk place segments = .ok last) : last = place := by
  induction segments generalizing place with
  | nil =>
      cases h
      rfl
  | cons segment more ih =>
      obtain ⟨next, hstep, hwalk⟩ := walk_cons_eq_ok_iff.mp h
      obtain ⟨-, -, rfl⟩ := step_eq_ok_iff.mp hstep
      have hself : place.follow segment = place := by
        rw [Place.follow, if_pos (hvoids segment (List.mem_cons_self ..))]
      rw [hself] at hwalk
      exact ih (fun other hmem => hvoids other (List.mem_cons_of_mem _ hmem))
        hwalk

theorem names_startOf (path : List Char) : (Place.startOf path).names = [] := by
  unfold Place.startOf
  split <;> rfl

theorem resolve_eq_ok
    {path : List Char} {place : Place} (h : tree.resolve path = .ok place) :
    path ≠ [] ∧
      tree.walk (Place.startOf path) (Path.segments path) = .ok place := by
  unfold resolve at h
  split_ifs at h with _ hempty
  exact ⟨hempty, h⟩

/-- Only a name can lead to anything but a directory. -/
theorem node?_of_resolve
    {path : List Char} {place : Place}
    (hpath : ∀ name, (components path).getLast? ≠ some (.normal name))
    (h : tree.resolve path = .ok place) : tree.node? place = some .directory := by
  obtain ⟨-, hwalk⟩ := resolve_eq_ok h
  have hstart := names_startOf path
  rcases List.eq_nil_or_concat' (Path.trimmed (Path.segments path)) with
    hnil | ⟨before, name, hname⟩
  · have hvoids : ∀ segment ∈ Path.segments path,
        Path.isVoid segment = true := by
      simpa [Path.trimmed] using hnil
    rw [eq_of_walk_voids hvoids hwalk, node?, if_pos hstart]
  · have hvoid := Path.isVoid_of_trimmed hname
    have hparent : name = Path.parentSegment := by
      by_contra hne
      apply hpath name
      rw [Path.components_of_trimmed hname]
      simp [Component.ofSegment?, hvoid, hne]
    -- The walk goes to some directory, up from there, and then stays.
    obtain ⟨voids, hsplit, hvoids⟩ := Path.exists_voids hname
    rw [hsplit] at hwalk
    obtain ⟨between, hbefore, hbehind⟩ := walk_append hwalk
    obtain ⟨next, hstep, hrest⟩ := walk_cons_eq_ok_iff.mp hbehind
    obtain ⟨-, -, rfl⟩ := step_eq_ok_iff.mp hstep
    have hfollow : between.follow name = between.parent := by
      rw [Place.follow, hvoid, if_neg Bool.false_ne_true, if_pos hparent]
    have hgrounded : tree.Grounded between :=
      (grounded_of_names_eq_nil hstart).walk hbefore
    rw [eq_of_walk_voids hvoids hrest, hfollow]
    exact hgrounded.node?_parent

/-- A tree of plain values is a world of files. -/
def system : FileSystem FileTree Place where
  resolve tree path := tree.resolve path.toList
  node? := node?
  read tree path :=
    ⟨tree.read path, tree.run_read path, fun _ => read_eq_ok_iff.mp⟩
  write tree path content := by
    have hrun := tree.run_write path content
    rcases tree.write_cases path content with
      ⟨place, hplace, hfree, hwrite⟩ | ⟨fault, hwrite, -⟩
    · right
      rw [hwrite] at hrun
      refine ⟨_, place, hrun, (sameDirectories_set hfree content).resolve hplace,
        hfree, ?_, ?_⟩
      · exact tree.node?_set_self _ (names_ne_nil hfree)
      · exact fun other hother => tree.node?_set_of_ne _ hother
    · left
      rw [hwrite] at hrun
      exact ⟨fault, hrun⟩
  empty_path tree place h := (resolve_eq_ok h).1 rfl
  directory tree path place hlast h := by
    apply node?_of_resolve _ h
    intro name hname
    rw [hname] at hlast
    simp at hlast

end FileTree

/-- What was written can be read again. -/
theorem textOf_toUTF8 (source : String) : textOf source.toUTF8 = .ok source := by
  have hsome : String.fromUTF8? source.toUTF8 = some source :=
    dif_pos source.isValidUTF8
  rw [textOf, hsome]

/-! ## One file -/

/-- Lowering a file gives its whole output or leaves the world as it was, and no
file that can be read is without an output path. -/
theorem whole_output_or_nothing
    {σ site : Type} [FileStore (StateM σ)] (system : FileSystem σ site)
    (options : FileOptions) (input : String) (state : σ) :
    ∃ result events after,
      (lowerFile options input : StateM σ _).run state =
          ((result, events), after) ∧
        AllOrNothing system options input state result after := by
  obtain ⟨result, events, after, hrun, hending⟩ :=
    lowerFile_ends system options input state
  exact ⟨result, events, after, hrun, hending.allOrNothing⟩

/-- A range is written beside its file, which the path does not lead to
directly. -/
theorem range_written_whole :
    ∃ outcome events after place,
      (lowerFile ⟨.standard, Path.standardSuffix, false⟩ "sub/../sub//job.scala" :
        StateM FileTree _).run
        (FileTree.empty.withFile "sub/job.scala"
          "sc.range(0,3).collect()".toUTF8) = ((.ok outcome, events), after) ∧
      outcome.output = some "sub/../sub/job_output_in_dataframe.scala" ∧
      FileTree.system.resolve after
        "sub/../sub/job_output_in_dataframe.scala" = .ok place ∧
      Replaced FileTree.node?
        (FileTree.empty.withFile "sub/job.scala"
          "sc.range(0,3).collect()".toUTF8) after place
        ("spark.range(0,3).selectExpr(\x22id as _1\x22)" ++
          "\n     .collect()").toUTF8 := by
  let options : FileOptions := ⟨.standard, Path.standardSuffix, false⟩
  let tree := FileTree.empty.withFile "sub/job.scala"
    "sc.range(0,3).collect()".toUTF8
  have hread : tree.read "sub/../sub//job.scala" =
      .ok "sc.range(0,3).collect()".toUTF8 := by
    decide +kernel
  have hsource : sourceOf tree "sub/../sub//job.scala" =
      .ok "sc.range(0,3).collect()" := by
    rw [sourceOf, tree.run_read, hread]
    exact textOf_toUTF8 _
  have hlower : lower "sc.range(0,3).collect()" = .ok ⟨"0", "3", []⟩ := by
    decide +kernel
  have houtput : outputPath options.suffix "sub/../sub//job.scala" =
      .ok "sub/../sub/job_output_in_dataframe.scala" := by
    decide +kernel
  have hwritten : ∀ content fault,
      tree.write "sub/../sub/job_output_in_dataframe.scala" content ≠
        .error fault := by
    intro content fault
    have hresolve :
        tree.resolve "sub/../sub/job_output_in_dataframe.scala".toList =
          .ok ⟨.ancestor 0,
            ["sub".toList, "job_output_in_dataframe.scala".toList]⟩ := by
      decide +kernel
    have hnode : tree.node? ⟨.ancestor 0,
        ["sub".toList, "job_output_in_dataframe.scala".toList]⟩ = none := rfl
    rcases tree.write_cases "sub/../sub/job_output_in_dataframe.scala"
        content with ⟨_, -, -, hwrite⟩ | ⟨_, -, hdirectory⟩
    · simp [hwrite]
    · have hoccupied := hdirectory _ hresolve
      rw [hnode] at hoccupied
      cases hoccupied
  obtain ⟨result, events, after, hrun, hwhole⟩ :=
    whole_output_or_nothing FileTree.system options "sub/../sub//job.scala" tree
  rcases hwhole.completed _ _ hsource hlower with
    ⟨output, rfl⟩ | ⟨-, output, fault, -, houtput', hfailed⟩
  · obtain ⟨output', place, houtput', hsome, hplace, hreplaced⟩ :=
      hwhole.written _ rfl rfl
    obtain rfl := Except.ok.inj (houtput'.symm.trans houtput)
    exact ⟨_, events, after, place, hrun, hsome, hplace, hreplaced⟩
  · obtain rfl := Except.ok.inj (houtput'.symm.trans houtput)
    rw [tree.run_write] at hfailed
    split at hfailed
    next => cases hfailed
    next heq => exact absurd heq (hwritten _ _)

end SelectChain
