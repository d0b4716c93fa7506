import SelectChain.Command.Run
import SelectChain.Proofs.WholeFiles
import Mathlib.Data.List.Perm.Basic
import Mathlib.Tactic

/-!
# Settled worlds

Files are lowered one after the other, each on the world that the earlier ones have
left.  If no output is the file of another output or of an input, then each of them
is lowered as if it were alone: writing a file leads no path elsewhere, and no input
is changed before it is read.  `Settles` says what the files so far have made of the
first world; one more file keeps it, and `lowerEach_settles` carries it through a
batch.

One thing is asked for apart, since the laws of a world do not give it: that an
output can be written does not depend on the outputs before it (`Undisturbed`).
-/

namespace SelectChain

section Runs

variable {σ : Type} [FileStore (StateM σ)]

/-- What lowering a file gives on a world. -/
def outcomeOf (options : FileOptions) (state : σ) (file : String) :
    Except FileError FileOutcome :=
  ((lowerFile options file : StateM σ _).run state).1.1

/-- The number of files that cannot be lowered. -/
def failures (options : FileOptions) (state : σ) (files : List String) : Nat :=
  files.countP fun file => !(outcomeOf options state file).isOk

/-- A world takes a file. -/
def Takes (state : σ) (path : String) (content : ByteArray) : Prop :=
  ((FileStore.write path content : StateM σ _).run state).1 = .ok ()

theorem failures_ne_zero_iff
    (options : FileOptions) (state : σ) (files : List String) :
    failures options state files ≠ 0 ↔
      ∃ file ∈ files, ∃ error, outcomeOf options state file = .error error := by
  rw [failures, ← Nat.pos_iff_ne_zero, List.countP_pos_iff]
  refine exists_congr fun file => and_congr_right fun _ => ?_
  cases outcomeOf options state file <;> simp [Except.isOk, Except.toBool]

end Runs

theorem Batch.failed_ofFile
    (report : ReportOptions) (options : FileOptions)
    (result : Except FileError FileOutcome × List Event) :
    (ofFile report options result).failed = if result.1.isOk then 0 else 1 := by
  obtain ⟨error | outcome, events⟩ := result <;> rfl

namespace FileSystem

section Worlds

variable {σ site : Type} [FileStore (StateM σ)]

/-! ## What a batch asks of a world -/

/-- A write changes one file.  Paths lead where they led, and what has not changed
is read as before. -/
structure WritesOneFile (system : FileSystem σ site) : Prop where
  paths : ∀ {state after : σ} {path : String} {content : ByteArray},
    (FileStore.write path content : StateM σ _).run state = (.ok (), after) →
      ∀ other place, system.resolve after other = .ok place ↔
        system.resolve state other = .ok place
  reads : ∀ {state after : σ} {path : String} {content : ByteArray},
    (FileStore.write path content : StateM σ _).run state = (.ok (), after) →
      ∀ other place, system.resolve state other = .ok place →
        system.node? after place = system.node? state place →
          ((FileStore.read other : StateM σ _).run after).1 =
            ((FileStore.read other : StateM σ _).run state).1

variable (system : FileSystem σ site)

/-- Two paths to one place. -/
def SameFile (state : σ) (path other : String) : Prop :=
  ∃ place, system.resolve state path = .ok place ∧
    system.resolve state other = .ok place

/-- The outputs of a batch are different files, and none of them is an input of
it. -/
structure Independent (options : FileOptions) (state : σ)
    (files : List String) : Prop where
  outputs : files.Pairwise fun file other => ∀ output output',
    outputPath options.suffix file = .ok output →
    outputPath options.suffix other = .ok output' →
      ¬ system.SameFile state output output'
  inputs : ∀ file ∈ files, ∀ other ∈ files, ∀ output,
    outputPath options.suffix file = .ok output →
      ¬ system.SameFile state output other

/-- The content of a file is lowered to `chain`, and the world takes its text at
`output`, which leads to `place`. -/
structure Delivers (options : FileOptions) (state : σ) (file output : String)
    (place : site) (chain : Chain) : Prop where
  lowered : ∃ source, sourceOf state file = .ok source ∧
    lower source = .ok chain
  named : outputPath options.suffix file = .ok output
  placed : system.resolve state output = .ok place
  taken : Takes state output (chain.text options.target).toUTF8

/-- The worlds that come of writing the outputs of some of the files. -/
inductive Reached (options : FileOptions) (state : σ) (files : List String) :
    σ → Prop
  | start : Reached options state files state
  | written {between after : σ} {file output : String} {place : site}
      {chain : Chain} (hbetween : Reached options state files between)
      (hfile : file ∈ files)
      (hdelivers : system.Delivers options state file output place chain)
      (hwrite : (FileStore.write output (chain.text options.target).toUTF8 :
        StateM σ _).run between = (.ok (), after)) :
      Reached options state files after

/-- Whether an output can be written does not depend on the other outputs. -/
def Undisturbed (options : FileOptions) (state : σ) (files : List String) :
    Prop :=
  ∀ file ∈ files, ∀ between,
    system.Reached options state (files.erase file) between →
    ∀ source chain output, sourceOf state file = .ok source →
      lower source = .ok chain →
      outputPath options.suffix file = .ok output →
        (Takes between output (chain.text options.target).toUTF8 ↔
          Takes state output (chain.text options.target).toUTF8)

variable {system} {options : FileOptions} {state : σ} {files : List String}

theorem SameFile.symm
    {path other : String} (h : system.SameFile state path other) :
    system.SameFile state other path := by
  obtain ⟨place, hpath, hother⟩ := h
  exact ⟨place, hother, hpath⟩

theorem Independent.perm
    {order : List String} (h : system.Independent options state files)
    (hperm : order.Perm files) : system.Independent options state order where
  outputs := by
    apply h.outputs.perm hperm.symm
    intro file other hdistinct output output' houtput houtput' hsame
    exact hdistinct output' output houtput' houtput hsame.symm
  inputs file hfile other hother :=
    h.inputs file (hperm.subset hfile) other (hperm.subset hother)

theorem Reached.mono
    {more : List String} (hfiles : files ⊆ more) {between : σ}
    (h : system.Reached options state files between) :
    system.Reached options state more between := by
  induction h with
  | start => exact .start
  | written _ hfile hdelivers hwrite ih =>
      exact .written ih (hfiles hfile) hdelivers hwrite

theorem Undisturbed.perm
    {order : List String} (h : system.Undisturbed options state files)
    (hperm : order.Perm files) : system.Undisturbed options state order :=
  fun file hfile between hreached =>
    h file (hperm.subset hfile) between
      (hreached.mono (hperm.erase file).subset)

/-! ## One file -/

theorem Delivers.unique
    {file output output' : String} {place place' : site} {chain chain' : Chain}
    (h : system.Delivers options state file output place chain)
    (h' : system.Delivers options state file output' place' chain') :
    output = output' ∧ place = place' ∧ chain = chain' := by
  obtain ⟨source, hsource, hlower⟩ := h.lowered
  obtain ⟨source', hsource', hlower'⟩ := h'.lowered
  obtain rfl := Except.ok.inj (h.named.symm.trans h'.named)
  obtain rfl := Except.ok.inj (hsource.symm.trans hsource')
  exact ⟨rfl, Except.ok.inj (h.placed.symm.trans h'.placed),
    Except.ok.inj (hlower.symm.trans hlower')⟩

variable (hone : system.WritesOneFile)

include hone

/-- What is written is where its path led before. -/
theorem WritesOneFile.replaced
    {after : σ} {path : String} {place : site} {content : ByteArray}
    (hwrite : (FileStore.write path content : StateM σ _).run state =
      (.ok (), after)) (hplace : system.resolve state path = .ok place) :
    Replaced system.node? state after place content := by
  rcases system.write state path content with
    ⟨fault, hrun⟩ | ⟨after', place', hrun, hplace', hreplaced⟩
  · rw [hwrite] at hrun
    cases hrun
  · rw [hwrite] at hrun
    cases hrun
    have hsame := (hone.paths hwrite path place').mp hplace'
    obtain rfl := Except.ok.inj (hplace.symm.trans hsame)
    exact hreplaced

/-- Lowering a file writes its chain where it is delivered, or it fails and leaves
the world alone. -/
theorem lowerFile_cases
    (hstdout : options.toStdout = false) (state : σ) (file : String) :
    (∃ outcome events output place after,
        (lowerFile options file : StateM σ _).run state =
          ((.ok outcome, events), after) ∧
        system.Delivers options state file output place outcome.chain ∧
        (FileStore.write output
          (outcome.chain.text options.target).toUTF8 : StateM σ _).run state =
            (.ok (), after)) ∨
      ∃ error events, (lowerFile options file : StateM σ _).run state =
          ((.error error, events), state) ∧
        ∀ output place chain,
          ¬ system.Delivers options state file output place chain := by
  obtain ⟨result, events, after, hrun, hending⟩ :=
    lowerFile_ends system options file state
  cases hending with
  | shown _ _ hshown =>
      rw [hstdout] at hshown
      cases hshown
  | written hsource hlower _ houtput hwrite hplace _ =>
      left
      exact ⟨_, events, _, _, after, hrun, ⟨⟨_, hsource, hlower⟩, houtput,
        (hone.paths hwrite _ _).mp hplace, congrArg Prod.fst hwrite⟩, hwrite⟩
  | unread hsource =>
      right
      refine ⟨_, events, hrun, ?_⟩
      rintro output place chain ⟨⟨source, hsource', -⟩, -, -, -⟩
      rw [hsource] at hsource'
      cases hsource'
  | refused hsource hlower =>
      right
      refine ⟨_, events, hrun, ?_⟩
      rintro output place chain ⟨⟨source, hsource', hlower'⟩, -, -, -⟩
      obtain rfl := Except.ok.inj (hsource.symm.trans hsource')
      rw [hlower] at hlower'
      cases hlower'
  | unwritten hsource hlower _ houtput hwrite =>
      right
      refine ⟨_, events, hrun, ?_⟩
      rintro output place chain ⟨⟨source, hsource', hlower'⟩, hnamed, -, htaken⟩
      obtain rfl := Except.ok.inj (hsource.symm.trans hsource')
      obtain rfl := Except.ok.inj (hlower.symm.trans hlower')
      obtain rfl := Except.ok.inj (houtput.symm.trans hnamed)
      rw [Takes, hwrite] at htaken
      cases htaken

theorem isOk_outcomeOf_iff
    (hstdout : options.toStdout = false) (state : σ) (file : String) :
    (outcomeOf options state file).isOk = true ↔
      ∃ output place chain,
        system.Delivers options state file output place chain := by
  rcases lowerFile_cases hone hstdout state file with
    ⟨outcome, events, output, place, after, hrun, hdelivers, -⟩ |
      ⟨error, events, hrun, hnone⟩
  · rw [outcomeOf, hrun]
    exact iff_of_true rfl ⟨output, place, outcome.chain, hdelivers⟩
  · rw [outcomeOf, hrun]
    simp [hnone, Except.isOk, Except.toBool]

theorem delivers_of_outcomeOf
    (hstdout : options.toStdout = false) {file : String} {outcome : FileOutcome}
    (h : outcomeOf options state file = .ok outcome) :
    ∃ output place,
      system.Delivers options state file output place outcome.chain := by
  rcases lowerFile_cases hone hstdout state file with
    ⟨outcome', events, output, place, after, hrun, hdelivers, -⟩ |
      ⟨error, events, hrun, -⟩
  · rw [outcomeOf, hrun] at h
    cases h
    exact ⟨output, place, hdelivers⟩
  · rw [outcomeOf, hrun] at h
    cases h

/-! ## Worlds on the way -/

section Between

variable {between : σ} (h : system.Reached options state files between)

include h

theorem Reached.resolve_iff (path : String) (place : site) :
    system.resolve between path = .ok place ↔
      system.resolve state path = .ok place := by
  induction h with
  | start => exact Iff.rfl
  | written _ _ _ hwrite ih => exact (hone.paths hwrite path place).trans ih

/-- Nothing has changed where nothing is delivered. -/
theorem Reached.node?_eq
    {place : site} (hplace : ∀ file ∈ files, ∀ output chain,
      ¬ system.Delivers options state file output place chain) :
    system.node? between place = system.node? state place := by
  induction h with
  | start => rfl
  | @written between after file output other chain hbetween hfile hdelivers
      hwrite ih =>
      have hled := (hbetween.resolve_iff hone output other).mpr hdelivers.placed
      have hne : place ≠ other := by
        rintro rfl
        exact hplace file hfile output chain hdelivers
      exact ((hone.replaced hwrite hled).others place hne).trans ih

/-- A file is read as on the first world if no output has taken its place. -/
theorem Reached.sourceOf_iff
    {file : String} (hfile : ∀ place, system.resolve state file = .ok place →
      ∀ other ∈ files, ∀ output chain,
        ¬ system.Delivers options state other output place chain)
    (source : String) :
    sourceOf between file = .ok source ↔ sourceOf state file = .ok source := by
  cases hplace : system.resolve state file with
  | error fault =>
      -- A path that leads nowhere cannot be read on either world.
      have hunread : ∀ world : σ, (∀ place,
          system.resolve world file ≠ .ok place) →
            sourceOf world file ≠ .ok source := by
        intro world hworld hsource
        obtain ⟨place, -, hresolve, -⟩ := system.holds_of_sourceOf hsource
        exact hworld place hresolve
      refine iff_of_false (hunread between ?_) (hunread state (by simp [hplace]))
      intro place hresolve
      rw [h.resolve_iff hone, hplace] at hresolve
      cases hresolve
  | ok place =>
      have hnone := hfile place hplace
      have hread : ((FileStore.read file : StateM σ _).run between).1 =
          ((FileStore.read file : StateM σ _).run state).1 := by
        induction h with
        | start => rfl
        | written hbetween hmem hdelivers hwrite ih =>
            have hled := (hbetween.resolve_iff hone file place).mpr hplace
            have hafter := (Reached.written hbetween hmem hdelivers
              hwrite).node?_eq hone hnone
            have hbefore := hbetween.node?_eq hone hnone
            exact (hone.reads hwrite file place hled
              (hafter.trans hbefore.symm)).trans ih
      rw [sourceOf, sourceOf, hread]

end Between

/-- Outputs of other files make no difference to a file. -/
theorem Independent.delivers_iff
    (h : system.Independent options state files)
    (hundisturbed : system.Undisturbed options state files)
    {file : String} (hfile : file ∈ files) {between : σ}
    (hreached : system.Reached options state (files.erase file) between)
    (output : String) (place : site) (chain : Chain) :
    system.Delivers options between file output place chain ↔
      system.Delivers options state file output place chain := by
  have hapart : ∀ input, system.resolve state file = .ok input →
      ∀ other ∈ files.erase file, ∀ output chain,
        ¬ system.Delivers options state other output input chain := by
    intro input hinput other hother output chain hdelivers
    exact h.inputs other (List.mem_of_mem_erase hother) file hfile output
      hdelivers.named ⟨input, hdelivers.placed, hinput⟩
  have hread := hreached.sourceOf_iff hone hapart
  have hresolve := hreached.resolve_iff hone output place
  constructor
  · rintro ⟨⟨source, hsource, hlower⟩, hnamed, hplaced, htaken⟩
    rw [hread] at hsource
    exact ⟨⟨source, hsource, hlower⟩, hnamed, hresolve.mp hplaced,
      (hundisturbed file hfile between hreached source chain output hsource
        hlower hnamed).mp htaken⟩
  · rintro ⟨⟨source, hsource, hlower⟩, hnamed, hplaced, htaken⟩
    exact ⟨⟨source, (hread source).mpr hsource, hlower⟩, hnamed,
      hresolve.mpr hplaced,
      (hundisturbed file hfile between hreached source chain output hsource
        hlower hnamed).mpr htaken⟩

/-! ## Batches -/

omit hone

variable (system options state files) in
/-- What a batch leaves of a world: outputs of its files have been written, and
each that can be delivered is in its place. -/
structure Settles (after : σ) : Prop where
  reached : system.Reached options state files after
  delivered : ∀ file ∈ files, ∀ output place chain,
    system.Delivers options state file output place chain →
      system.node? after place =
        some (.file (chain.text options.target).toUTF8)

theorem settles_nil : system.Settles options state [] state :=
  ⟨.start, by simp⟩

theorem Settles.perm
    {order : List String} {after : σ}
    (h : system.Settles options state order after)
    (hperm : order.Perm files) : system.Settles options state files after where
  reached := h.reached.mono hperm.subset
  delivered file hfile := h.delivered file (hperm.mem_iff.mpr hfile)

include hone

/-- Batches of the same files leave the same. -/
theorem Settles.node?_eq
    {after other : σ} (h : system.Settles options state files after)
    (h' : system.Settles options state files other) (place : site) :
    system.node? after place = system.node? other place := by
  by_cases hplace : ∃ file ∈ files, ∃ output chain,
      system.Delivers options state file output place chain
  · obtain ⟨file, hfile, output, chain, hdelivers⟩ := hplace
    rw [h.delivered file hfile output place chain hdelivers,
      h'.delivered file hfile output place chain hdelivers]
  · have hnone : ∀ file ∈ files, ∀ output chain,
        ¬ system.Delivers options state file output place chain :=
      fun file hfile output chain hdelivers =>
        hplace ⟨file, hfile, output, chain, hdelivers⟩
    rw [h.reached.node?_eq hone hnone, h'.reached.node?_eq hone hnone]

section Steps

variable {file : String} {between : σ}
  (hsettles : system.Settles options state files between)

include hsettles

/-- One more file is delivered, to a place of its own. -/
theorem Settles.concat_of_delivers
    {output : String} {place : site} {chain : Chain} {after : σ}
    (hdelivers : system.Delivers options state file output place chain)
    (hwrite : (FileStore.write output (chain.text options.target).toUTF8 :
      StateM σ _).run between = (.ok (), after))
    (hown : ∀ other ∈ files, ∀ output' chain',
      ¬ system.Delivers options state other output' place chain') :
    system.Settles options state (files ++ [file]) after where
  reached := .written (hsettles.reached.mono (List.subset_append_left ..))
    (List.mem_append_right _ (.head _)) hdelivers hwrite
  delivered := by
    intro other hother output' place' chain' hdelivers'
    have hreplaced := hone.replaced hwrite
      ((hsettles.reached.resolve_iff hone output place).mpr hdelivers.placed)
    rcases List.mem_append.mp hother with hother | hother
    · have hne : place' ≠ place := by
        rintro rfl
        exact hown other hother output' chain' hdelivers'
      rw [hreplaced.others place' hne]
      exact hsettles.delivered other hother output' place' chain' hdelivers'
    · obtain rfl := List.mem_singleton.mp hother
      obtain ⟨rfl, rfl, rfl⟩ := hdelivers.unique hdelivers'
      exact hreplaced.content

omit hone in
theorem Settles.concat_of_not_delivers
    (hnone : ∀ output place chain,
      ¬ system.Delivers options state file output place chain) :
    system.Settles options state (files ++ [file]) between where
  reached := hsettles.reached.mono (List.subset_append_left ..)
  delivered := by
    intro other hother output place chain hdelivers
    rcases List.mem_append.mp hother with hother | hother
    · exact hsettles.delivered other hother output place chain hdelivers
    · obtain rfl := List.mem_singleton.mp hother
      exact absurd hdelivers (hnone output place chain)

end Steps

omit hone in
/-- No two files of a batch are delivered to one place. -/
theorem Independent.not_delivers
    {done rest : List String} {file other output output' : String}
    {place : site} {chain chain' : Chain}
    (h : system.Independent options state (done ++ file :: rest))
    (hdelivers : system.Delivers options state file output place chain)
    (hother : other ∈ done) :
    ¬ system.Delivers options state other output' place chain' := by
  intro hdelivers'
  have hpairs := (List.pairwise_append.mp h.outputs).2.2
  exact hpairs other hother file (.head _) output' output hdelivers'.named
    hdelivers.named ⟨place, hdelivers'.placed, hdelivers.placed⟩

section Lowering

variable (hstdout : options.toStdout = false)

include hstdout

/-- The next file fails exactly if it does on the first world, and the batch is
settled up to and with it. -/
theorem lowerFile_settles
    {done rest : List String} {file : String} {between : σ}
    (h : system.Independent options state (done ++ file :: rest))
    (hundisturbed : system.Undisturbed options state (done ++ file :: rest))
    (hsettles : system.Settles options state done between) :
    ∃ result after,
      (lowerFile options file : StateM σ _).run between = (result, after) ∧
      result.1.isOk = (outcomeOf options state file).isOk ∧
      system.Settles options state (done ++ [file]) after := by
  -- What was written so far are outputs of other files of the batch.
  have herase : done ⊆ (done ++ file :: rest).erase file := by
    have hmiddle : (done ++ file :: rest).Perm (file :: (done ++ rest)) :=
      List.perm_middle
    have hperm := hmiddle.erase file
    rw [List.erase_cons_head] at hperm
    exact fun other hother =>
      hperm.mem_iff.mpr (List.mem_append_left _ hother)
  have hiff := h.delivers_iff hone hundisturbed (by simp)
    (hsettles.reached.mono herase)
  have hisOk : (outcomeOf options between file).isOk =
      (outcomeOf options state file).isOk := by
    rw [Bool.eq_iff_iff, isOk_outcomeOf_iff hone hstdout,
      isOk_outcomeOf_iff hone hstdout]
    simp only [hiff]
  rcases lowerFile_cases hone hstdout between file with
    ⟨outcome, events, output, place, after, hrun, hdelivers, hwrite⟩ |
      ⟨error, events, hrun, hnone⟩
  · rw [outcomeOf, hrun] at hisOk
    rw [hiff] at hdelivers
    exact ⟨_, after, hrun, hisOk, hsettles.concat_of_delivers hone hdelivers
      hwrite fun other hother output' chain' =>
        h.not_delivers hdelivers hother⟩
  · rw [outcomeOf, hrun] at hisOk
    exact ⟨_, between, hrun, hisOk, hsettles.concat_of_not_delivers
      fun output place chain hdelivers =>
        hnone output place chain ((hiff ..).mpr hdelivers)⟩

theorem lowerEach_settles
    (h : system.Independent options state files)
    (hundisturbed : system.Undisturbed options state files)
    (report : ReportOptions) {done rest : List String}
    (hfiles : done ++ rest = files) {between : σ}
    (hsettles : system.Settles options state done between) :
    ∃ batch after,
      (lowerEach report options rest : StateM σ _).run between =
        (batch, after) ∧
      batch.failed = failures options state rest ∧
      system.Settles options state files after := by
  induction rest generalizing done between with
  | nil =>
      rw [List.append_nil] at hfiles
      exact ⟨.empty, between, rfl, rfl, hfiles ▸ hsettles⟩
  | cons file rest ih =>
      subst hfiles
      obtain ⟨result, after, hrun, hisOk, hnext⟩ :=
        lowerFile_settles hone hstdout h hundisturbed hsettles
      obtain ⟨batch, last, hmore, hfailed, hall⟩ := ih (by simp) hnext
      rw [lowerEach, run_bind hrun, run_bind hmore]
      refine ⟨_, last, rfl, ?_, hall⟩
      change (Batch.ofFile report options result).failed + batch.failed = _
      rw [Batch.failed_ofFile, hisOk, hfailed, failures, failures,
        List.countP_cons, Nat.add_comm]
      cases (outcomeOf options state file).isOk <;> rfl

end Lowering

end Worlds

end FileSystem

end SelectChain
