import SelectChain.Proofs.SettledWorlds
import Mathlib.Tactic

/-!
# Batches of files

A run over a number of files leaves each output that can be written in its place and
nothing else changed, whatever the order, and tells how many files failed.  On a tree
of plain values no output is in the way of another.  That is not so of every world:
in a `QuotaTree` all files share what room there is, and the first file of a batch can
take it from the second.
-/

namespace SelectChain

/-! ## What a batch tells -/

/-- The errors of the failing files, one behind the other. -/
def Batch.Tells (batch : Batch) (errors : List FileError) : Prop :=
  errors.length = batch.failed ∧
    batch.stderr = String.join (errors.map fun error => error.message ++ "\n")

theorem Batch.exists_tells_ofFile
    (report : ReportOptions) (options : FileOptions)
    (result : Except FileError FileOutcome × List Event) :
    ∃ errors, (ofFile report options result).Tells errors := by
  obtain ⟨error | outcome, events⟩ := result
  · exact ⟨[error], rfl, by simp [ofFile, CommandError.message]⟩
  · exact ⟨[], rfl, rfl⟩

theorem Batch.Tells.append
    {first second : Batch} {errors more : List FileError}
    (h : first.Tells errors) (hmore : second.Tells more) :
    (first.append second).Tells (errors ++ more) := by
  obtain ⟨hlength, hstderr⟩ := h
  obtain ⟨hlength', hstderr'⟩ := hmore
  exact ⟨by simp [Batch.append, hlength, hlength'],
    by simp [Batch.append, hstderr, hstderr']⟩

theorem exists_tells_lowerEach
    {σ : Type} [FileStore (StateM σ)] (report : ReportOptions)
    (options : FileOptions) (files : List String) (state : σ) :
    ∃ errors, Batch.Tells
      ((lowerEach report options files : StateM σ _).run state).1 errors := by
  induction files generalizing state with
  | nil => exact ⟨[], rfl, rfl⟩
  | cons file files ih =>
      obtain ⟨errors, hfirst⟩ := Batch.exists_tells_ofFile report options
        ((lowerFile options file : StateM σ _).run state).1
      obtain ⟨more, hrest⟩ :=
        ih ((lowerFile options file : StateM σ _).run state).2
      exact ⟨errors ++ more, hfirst.append hrest⟩

/-- How a run ends in which `failed` of `total` files failed: with one message for
each of these, and a line that counts them. -/
structure Transcript.Counts (transcript : Transcript) (failed total : Nat) :
    Prop where
  exitCode : transcript.exitCode = if failed = 0 then 0 else 1
  stderr : ∃ errors : List FileError, errors.length = failed ∧
    transcript.stderr =
      String.join (errors.map fun error => error.message ++ "\n") ++
        if failed = 0 then "" else
          toString failed ++ " of " ++ toString total ++
            " file(s) failed to translate\n"

theorem Transcript.Counts.exitCode_ne_zero_iff
    {transcript : Transcript} {failed total : Nat}
    (h : transcript.Counts failed total) :
    transcript.exitCode ≠ 0 ↔ failed ≠ 0 := by
  rw [h.exitCode]
  by_cases hzero : failed = 0 <;> simp [hzero]

theorem Batch.transcript_counts
    {batch : Batch} {errors : List FileError} (h : batch.Tells errors)
    (total : Nat) : (batch.transcript total).Counts batch.failed total := by
  obtain ⟨hlength, hstderr⟩ := h
  unfold transcript
  split
  next hzero =>
    exact ⟨by simp [hzero], errors, hlength, by simp [hzero, hstderr]⟩
  next hne =>
    refine ⟨by simp [hne], errors, hlength, ?_⟩
    simp [hne, hstderr, CommandError.message, String.append_assoc]

/-! ## Trees as worlds of batches -/

namespace FileTree

variable {tree after : FileTree} {path : String} {content : ByteArray}

theorem write_of_run
    (h : (FileStore.write path content : StateM FileTree _).run tree =
      (.ok (), after)) :
    ∃ place, tree.resolve path.toList = .ok place ∧
      tree.node? place ≠ some .directory ∧
      after = tree.set place (.file content) := by
  rw [run_write] at h
  rcases tree.write_cases path content with
    ⟨place, hplace, hfree, hwrite⟩ | ⟨fault, hwrite, -⟩
  · rw [hwrite] at h
    cases h
    exact ⟨place, hplace, hfree, rfl⟩
  · rw [hwrite] at h
    cases h

theorem sameDirectories_of_run
    (h : (FileStore.write path content : StateM FileTree _).run tree =
      (.ok (), after)) : tree.SameDirectories after := by
  obtain ⟨place, -, hfree, rfl⟩ := write_of_run h
  exact sameDirectories_set hfree content

theorem takes_iff :
    Takes tree path content ↔ ∃ place, tree.resolve path.toList = .ok place ∧
      tree.node? place ≠ some .directory := by
  rw [Takes, run_write]
  rcases tree.write_cases path content with
    ⟨place, hplace, hfree, hwrite⟩ | ⟨fault, hwrite, hdirectory⟩
  · rw [hwrite]
    exact iff_of_true rfl ⟨place, hplace, hfree⟩
  · rw [hwrite]
    refine iff_of_false (by simp) ?_
    rintro ⟨place, hplace, hfree⟩
    exact hfree (hdirectory place hplace)

theorem writesOneFile : FileTree.system.WritesOneFile where
  paths hwrite other place :=
    ⟨(sameDirectories_of_run hwrite).symm.resolve,
      (sameDirectories_of_run hwrite).resolve⟩
  reads := by
    intro tree after path content hwrite other place hplace hnode
    have hplace' : after.resolve other.toList = .ok place :=
      (sameDirectories_of_run hwrite).resolve hplace
    have hnode' : after.node? place = tree.node? place := hnode
    have hplace : tree.resolve other.toList = .ok place := hplace
    rw [run_read, run_read, read, read, hplace, hplace']
    simp only [hnode']

/-- No output is in the way of another. -/
theorem undisturbed
    (tree : FileTree) (options : FileOptions) (files : List String) :
    FileTree.system.Undisturbed options tree files := by
  intro file _ between hreached source chain output _ _ _
  have hsame : tree.SameDirectories between := by
    induction hreached with
    | start => exact fun _ => Iff.rfl
    | written _ _ _ hwrite ih =>
        exact fun place =>
          (ih place).trans (sameDirectories_of_run hwrite place)
  rw [takes_iff, takes_iff]
  refine exists_congr fun place => and_congr ?_ (not_congr (hsame place).symm)
  exact ⟨hsame.symm.resolve, hsame.resolve⟩

end FileTree

/-! ## Whole batches -/

/-- The files of a batch are independent if no output is in the way of another.
Each is lowered as on the first world; those that can be have their text at their
output, and nothing else changes.  The run fails if and only if one of them does,
and tells how many did.  The order of the files is of no account. -/
theorem files_lowered_independently
    {σ site : Type} [FileStore (StateM σ)] {system : FileSystem σ site}
    (hone : system.WritesOneFile) {options : FileOptions}
    (hstdout : options.toStdout = false) {state : σ} {files : List String}
    (h : system.Independent options state files)
    (hundisturbed : system.Undisturbed options state files)
    (report : ReportOptions) (readInput : StateM σ (Option ByteArray)) :
    ∃ transcript after,
      ((Command.lowerFiles files options report).run readInput).run state =
        (transcript, after) ∧
      (∀ file ∈ files, ∀ outcome, outcomeOf options state file = .ok outcome →
        ∃ source output place, system.Holds state file source ∧
          lower source = .ok outcome.chain ∧
          outputPath options.suffix file = .ok output ∧
          system.resolve after output = .ok place ∧
          system.node? after place =
            some (.file (outcome.chain.text options.target).toUTF8)) ∧
      (∀ place, (∀ file ∈ files, ∀ outcome,
          outcomeOf options state file = .ok outcome →
            ∀ output, outputPath options.suffix file = .ok output →
              system.resolve state output ≠ .ok place) →
        system.node? after place = system.node? state place) ∧
      (∀ path place, system.resolve after path = .ok place ↔
        system.resolve state path = .ok place) ∧
      (transcript.exitCode ≠ 0 ↔
        ∃ file ∈ files, ∃ error, outcomeOf options state file = .error error) ∧
      transcript.Counts (failures options state files) files.length ∧
      ∀ order, order.Perm files → ∃ transcript' after',
        ((Command.lowerFiles order options report).run readInput).run state =
          (transcript', after') ∧
        (∀ place, system.node? after' place = system.node? after place) ∧
        (∀ path place, system.resolve after' path = .ok place ↔
          system.resolve after path = .ok place) ∧
        transcript'.Counts (failures options state files) files.length := by
  -- What a world is settled to depends on the files as a set, so all orders can
  -- be compared with the first.
  have hall : ∀ order, order.Perm files → ∃ transcript' after',
      ((Command.lowerFiles order options report).run readInput).run state =
        (transcript', after') ∧
      system.Settles options state files after' ∧
      transcript'.Counts (failures options state files) files.length := by
    intro order hperm
    obtain ⟨batch, after, hrun, hfailed, hsettles⟩ :=
      FileSystem.lowerEach_settles hone hstdout (h.perm hperm)
        (hundisturbed.perm hperm) report (List.nil_append order)
        FileSystem.settles_nil
    obtain ⟨errors, htells⟩ :=
      exists_tells_lowerEach report options order state
    rw [hrun] at htells
    have hcounts := Batch.transcript_counts htells order.length
    rw [hfailed, failures, hperm.countP_eq, hperm.length_eq] at hcounts
    refine ⟨batch.transcript order.length, after, ?_, hsettles.perm hperm, ?_⟩
    · rw [Command.run, run_bind hrun]
      rfl
    · rw [hperm.length_eq]
      exact hcounts
  obtain ⟨transcript, after, hrun, hsettles, hcounts⟩ := hall files (.refl _)
  have hpaths := hsettles.reached.resolve_iff hone
  refine ⟨transcript, after, hrun, ?_, ?_, hpaths, ?_, hcounts, ?_⟩
  · intro file hfile outcome houtcome
    obtain ⟨output, place, hdelivers⟩ :=
      FileSystem.delivers_of_outcomeOf hone hstdout houtcome
    obtain ⟨source, hsource, hlower⟩ := hdelivers.lowered
    exact ⟨source, output, place, system.holds_of_sourceOf hsource, hlower,
      hdelivers.named, (hpaths output place).mpr hdelivers.placed,
      hsettles.delivered file hfile output place outcome.chain hdelivers⟩
  · intro place hplace
    apply hsettles.reached.node?_eq hone
    intro file hfile output chain hdelivers
    have hisOk := (FileSystem.isOk_outcomeOf_iff hone hstdout state file).mpr
      ⟨output, place, chain, hdelivers⟩
    cases houtcome : outcomeOf options state file with
    | error error =>
        rw [houtcome] at hisOk
        cases hisOk
    | ok outcome =>
        exact hplace file hfile outcome houtcome output hdelivers.named
          hdelivers.placed
  · rw [hcounts.exitCode_ne_zero_iff, failures_ne_zero_iff]
  · intro order hperm
    obtain ⟨transcript', after', hrun', hsettles', hcounts'⟩ := hall order hperm
    refine ⟨transcript', after', hrun', hsettles'.node?_eq hone hsettles, ?_,
      hcounts'⟩
    intro path place
    rw [hpaths, hsettles'.reached.resolve_iff hone]

/-- Two files are independent where all paths lead to places of their own. -/
theorem FileSystem.independent_pair
    {σ site : Type} [FileStore (StateM σ)] {system : FileSystem σ site}
    {options : FileOptions} {state : σ}
    {first second output output' : String} {place : String → site}
    (hfirst : outputPath options.suffix first = .ok output)
    (hsecond : outputPath options.suffix second = .ok output')
    (hresolve : ∀ path ∈ [first, second, output, output'],
      system.resolve state path = .ok (place path))
    (houtputs : place output ≠ place output')
    (hinputs : ∀ written ∈ [output, output'], ∀ input ∈ [first, second],
      place written ≠ place input) :
    system.Independent options state [first, second] := by
  have hsame : ∀ path ∈ [first, second, output, output'],
      ∀ other ∈ [first, second, output, output'],
        system.SameFile state path other → place path = place other := by
    rintro path hpath other hother ⟨common, hled, hled'⟩
    rw [hresolve path hpath] at hled
    rw [hresolve other hother] at hled'
    cases hled
    exact (Except.ok.inj hled').symm
  constructor
  · rw [List.pairwise_pair]
    intro written written' hwritten hwritten' hfile
    obtain rfl := Except.ok.inj (hfirst.symm.trans hwritten)
    obtain rfl := Except.ok.inj (hsecond.symm.trans hwritten')
    exact houtputs (hsame _ (by simp) _ (by simp) hfile)
  · intro file hfile input hinput written hwritten hshared
    have hmem : written ∈ [output, output'] := by
      rcases List.mem_pair.mp hfile with rfl | rfl
      · simp [Except.ok.inj (hfirst.symm.trans hwritten)]
      · simp [Except.ok.inj (hsecond.symm.trans hwritten)]
    exact hinputs written hmem input hinput
      (hsame written (by simp at hmem ⊢; tauto) input
        (by simp at hinput ⊢; tauto) hshared)

/-- A range is lowered although the file in front of it is missing. -/
theorem range_lowered_behind_missing_file :
    ∃ transcript after shown,
      ((Command.lowerFiles ["gone.scala", "job.scala"]
          ⟨.standard, Path.standardSuffix, false⟩ ⟨false, false⟩).run
        (pure none : StateM FileTree (Option ByteArray))).run
        (FileTree.empty.withFile "job.scala" "sc.range(0,3).collect()".toUTF8) =
          (transcript, after) ∧
      transcript.exitCode = 1 ∧
      transcript.stderr =
        shown ++ "\n1 of 2 file(s) failed to translate\n" ∧
      after.node? ⟨.ancestor 0, ["job_output_in_dataframe.scala".toList]⟩ =
        some (.file ("spark.range(0,3).selectExpr(\x22id as _1\x22)" ++
          "\n     .collect()").toUTF8) := by
  let options : FileOptions := ⟨.standard, Path.standardSuffix, false⟩
  let tree :=
    FileTree.empty.withFile "job.scala" "sc.range(0,3).collect()".toUTF8
  have hgone : outputPath options.suffix "gone.scala" =
      .ok "gone_output_in_dataframe.scala" := by
    decide +kernel
  have hjob : outputPath options.suffix "job.scala" =
      .ok "job_output_in_dataframe.scala" := by
    decide +kernel
  have hresolve : ∀ path ∈ ["gone.scala", "job.scala",
      "gone_output_in_dataframe.scala", "job_output_in_dataframe.scala"],
        FileTree.system.resolve tree path =
          .ok ⟨.ancestor 0, [path.toList]⟩ := by
    decide +kernel
  have hindependent := FileSystem.independent_pair hgone hjob hresolve
    (by decide) (by decide)
  have houtcome : outcomeOf options tree "job.scala" =
      .ok ⟨"job.scala", some "job_output_in_dataframe.scala",
        ⟨"0", "3", []⟩⟩ := by
    decide +kernel
  have hfailures : failures options tree ["gone.scala", "job.scala"] = 1 := by
    decide +kernel
  obtain ⟨transcript, after, hrun, hwritten, -, hpaths, -, hcounts, -⟩ :=
    files_lowered_independently FileTree.writesOneFile rfl hindependent
      (tree.undisturbed options _) ⟨false, false⟩ (pure none)
  rw [hfailures] at hcounts
  obtain ⟨errors, hlength, hstderr⟩ := hcounts.stderr
  obtain ⟨error, rfl⟩ := List.length_eq_one_iff.mp hlength
  refine ⟨transcript, after, error.message, hrun, hcounts.exitCode, ?_, ?_⟩
  · have hline : "\n" ++ (toString 1 ++ " of " ++ toString 2 ++
        " file(s) failed to translate\n") =
          "\n1 of 2 file(s) failed to translate\n" := by
      decide +kernel
    rw [hstderr, ← hline]
    simp [String.append_assoc]
  · obtain ⟨_, output, place, -, -, houtput, hplace, hnode⟩ :=
      hwritten "job.scala" (by decide) _ houtcome
    obtain rfl := Except.ok.inj (hjob.symm.trans houtput)
    have hled := (hpaths _ place).mp hplace
    rw [hresolve _ (by decide)] at hled
    cases hled
    exact hnode

/-! ## A store that is too small -/

/-- A tree with a number of bytes that can still be written, whatever file they are
for. -/
structure QuotaTree where
  tree : FileTree
  room : Nat

namespace QuotaTree

def write (store : QuotaTree) (path : String) (content : ByteArray) :
    Except FileFault QuotaTree :=
  if store.room < content.size then
    .error (.system "No space left on device" 28)
  else
    match store.tree.write path content with
    | .ok tree => .ok ⟨tree, store.room - content.size⟩
    | .error fault => .error fault

instance : FileStore (StateM QuotaTree) where
  read path := fun store => (store.tree.read path, store)
  write path content := fun store =>
    match store.write path content with
    | .ok after => (.ok (), after)
    | .error fault => (.error fault, store)

/-- A write is one to the tree, or it is refused. -/
theorem run_write_cases
    (store : QuotaTree) (path : String) (content : ByteArray) :
    (∃ fault, (FileStore.write path content : StateM QuotaTree _).run store =
        (.error fault, store)) ∨
      ∃ tree, (FileStore.write path content : StateM FileTree _).run
          store.tree = (.ok (), tree) ∧
        (FileStore.write path content : StateM QuotaTree _).run store =
          (.ok (), ⟨tree, store.room - content.size⟩) := by
  have hrun : (FileStore.write path content : StateM QuotaTree _).run store =
      match store.write path content with
      | .ok after => (.ok (), after)
      | .error fault => (.error fault, store) := rfl
  rw [hrun, write, store.tree.run_write]
  split_ifs
  · exact Or.inl ⟨_, rfl⟩
  · cases store.tree.write path content with
    | error fault => exact Or.inl ⟨fault, rfl⟩
    | ok tree => exact Or.inr ⟨tree, rfl, rfl⟩

theorem tree_of_run
    {store after : QuotaTree} {path : String} {content : ByteArray}
    (h : (FileStore.write path content : StateM QuotaTree _).run store =
      (.ok (), after)) :
    (FileStore.write path content : StateM FileTree _).run store.tree =
      (.ok (), after.tree) := by
  rcases store.run_write_cases path content with
    ⟨fault, hrun⟩ | ⟨tree, htree, hrun⟩
  · rw [hrun] at h
    cases h
  · rw [hrun] at h
    cases h
    exact htree

def system : FileSystem QuotaTree Place where
  resolve store := FileTree.system.resolve store.tree
  node? store := store.tree.node?
  read store path :=
    ⟨store.tree.read path, rfl, fun _ => FileTree.read_eq_ok_iff.mp⟩
  write store path content := by
    rcases store.run_write_cases path content with
      hrefused | ⟨tree, hwrite, hrun⟩
    · exact Or.inl hrefused
    · obtain ⟨place, hplace, -⟩ := FileTree.write_of_run hwrite
      have hreplaced := FileTree.writesOneFile.replaced hwrite hplace
      exact Or.inr ⟨_, place, hrun,
        (FileTree.sameDirectories_of_run hwrite).resolve hplace,
        hreplaced.free, hreplaced.content, hreplaced.others⟩
  empty_path store := FileTree.system.empty_path store.tree
  directory store := FileTree.system.directory store.tree

theorem writesOneFile : system.WritesOneFile where
  paths hwrite := FileTree.writesOneFile.paths (tree_of_run hwrite)
  reads hwrite := FileTree.writesOneFile.reads (tree_of_run hwrite)

end QuotaTree

/-- Each of two files can be lowered, but there is room for one output only, so the
second file of the batch fails, whichever it is. -/
theorem second_output_without_room :
    let options : FileOptions := ⟨.standard, Path.standardSuffix, false⟩
    let source := "sc.range(0,3).collect()".toUTF8
    let store : QuotaTree :=
      ⟨(FileTree.empty.withFile "job.scala" source).withFile "twin.scala" source,
        60⟩
    let run := fun files : List String =>
      ((Command.lowerFiles files options ⟨false, false⟩).run
        (pure none : StateM QuotaTree (Option ByteArray))).run store
    let output : Place :=
      ⟨.ancestor 0, ["twin_output_in_dataframe.scala".toList]⟩
    QuotaTree.system.WritesOneFile ∧
      QuotaTree.system.Independent options store ["job.scala", "twin.scala"] ∧
      failures options store ["job.scala", "twin.scala"] = 0 ∧
      (run ["job.scala", "twin.scala"]).1.exitCode = 1 ∧
      ((run ["job.scala", "twin.scala"]).2.tree.node? output).isNone = true ∧
      (run ["twin.scala", "job.scala"]).1.exitCode = 1 ∧
      ((run ["twin.scala", "job.scala"]).2.tree.node? output).isSome = true := by
  intro options source store run output
  have hjob : outputPath options.suffix "job.scala" =
      .ok "job_output_in_dataframe.scala" := by
    decide +kernel
  have htwin : outputPath options.suffix "twin.scala" =
      .ok "twin_output_in_dataframe.scala" := by
    decide +kernel
  have hresolve : ∀ path ∈ ["job.scala", "twin.scala",
      "job_output_in_dataframe.scala", "twin_output_in_dataframe.scala"],
        QuotaTree.system.resolve store path =
          .ok ⟨.ancestor 0, [path.toList]⟩ := by
    decide +kernel
  refine ⟨QuotaTree.writesOneFile,
    FileSystem.independent_pair hjob htwin hresolve (by decide) (by decide), ?_⟩
  decide +kernel

end SelectChain
