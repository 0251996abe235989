/-
The tally of a run that makes the artifacts of all transactions. What becomes of a directory is told by
the tree that the run starts on: making artifacts changes no transaction file, so a directory fails just
if its transaction is not admitted at first, whatever became of those before it. The run reports on every
selected directory in order, and counts them.
-/
import Parley.Proofs.Artifact.Gate
import Parley.Proofs.Files.Order

namespace Parley

open Parley.Tree (Extends LinkFree NoLink)

/-! ## Admitted directories -/

/-- The directory has a transaction that is admitted. -/
def Tree.Admits (t : Tree) (directory : String) : Prop := ∃ tx, Admitted t directory tx

instance (t : Tree) (directory : String) : Decidable (t.Admits directory) :=
  decidable_of_iff ((transactionIn t directory).toOption.any fun tx => (errorsOf tx.issues).isEmpty) <| by
    simp only [Tree.Admits, admitted_iff]
    cases transactionIn t directory <;> simp [Except.toOption]

namespace Command

variable (options : RegenerateOptions)

/-- What becomes of an artifact in a run on a tree, and what is written on it. -/
def outcome (t : Tree) (directory : String) (artifact : Artifact) : Bool × Output :=
  match artifact.textIn t directory with
  | .ok _ =>
    (true, if options.verbose then .line ("  Generated: " ++ artifact.outputPath directory none options.protocol) else .empty)
  | .error e => (false, .errLine ("  Error generating " ++ artifact.label ++ ": " ++ e.message))

/-- What a run on a tree writes on a directory. -/
def account (t : Tree) (directory : String) : Output :=
  .line ("Processing: " ++ Artifact.directoryName directory) ++
    .concat ((wantedBy options).map fun artifact => (outcome options t directory artifact).2) ++ .line ""

/-- The artifacts that a run makes, in its order. -/
def turns (directories : List String) : List (String × Artifact) :=
  directories.flatMap fun directory => (wantedBy options).map fun artifact => (directory, artifact)

/-- No write fails when artifacts are made one after the other. -/
def Unhindered (protocol : Protocol) : List (String × Artifact) → Tree → Prop
  | [], _ => True
  | (directory, artifact) :: rest, t =>
    let run := (artifact.generate directory (artifact.outputPath directory none protocol) :
      StateM Tree (Except GenerateError Unit)) t
    (∀ path cause, run.1 ≠ .error (.unwritable path cause)) ∧ Unhindered protocol rest run.2

variable {options} {t₀ t : Tree} {directory : String}

theorem outcome_of_admits (h : t.Admits directory) (artifact : Artifact) : outcome options t directory artifact =
    (true, if options.verbose then .line ("  Generated: " ++ artifact.outputPath directory none options.protocol) else .empty) := by
  obtain ⟨text, htext⟩ := (exists_admitted_iff artifact).1 h
  unfold outcome
  rw [htext]

theorem outcome_of_not_admits (h : ¬ t.Admits directory) (artifact : Artifact) :
    ∃ message, outcome options t directory artifact = (false, .errLine message) := by
  unfold outcome
  cases htext : artifact.textIn t directory with
  | ok text => exact absurd ((exists_admitted_iff artifact).2 ⟨text, htext⟩) h
  | error e => exact ⟨_, rfl⟩

theorem outcome_iff (artifact : Artifact) : (outcome options t directory artifact).1 = true ↔ t.Admits directory := by
  by_cases h : t.Admits directory
  · rw [outcome_of_admits h artifact]
    exact iff_of_true rfl h
  · obtain ⟨message, hmessage⟩ := @outcome_of_not_admits options _ _ h artifact
    rw [hmessage]
    exact iff_of_false Bool.false_ne_true h

theorem outcome_all (hflags : ¬ (options.markdownOnly = true ∧ options.pythonOnly = true)) :
    ((wantedBy options).map (outcome options t directory)).all Prod.fst = decide (t.Admits directory) := by
  obtain ⟨artifact, hwanted⟩ : ∃ artifact, artifact ∈ wantedBy options := by
    unfold wantedBy wanted
    cases hmarkdown : options.markdownOnly <;> cases hpython : options.pythonOnly <;> simp_all
  rw [Bool.eq_iff_iff, decide_eq_true_iff, List.all_map, List.all_eq_true]
  constructor
  · exact fun h => (outcome_iff artifact).1 (h artifact hwanted)
  · exact fun h a _ => (outcome_iff a).2 h

/-! ## One directory -/

/-- The names of the artifacts of a directory, if it is admitted. -/
def Touched (t : Tree) (artifacts : List Artifact) (directory name : String) : Prop :=
  t.Admits directory ∧ ∃ artifact ∈ artifacts, name = artifact.fileName directory

/-- The artifact of an admitted directory is in its place. -/
def InPlace (protocol : Protocol) (t₀ t : Tree) (directory : String) (artifact : Artifact) : Prop :=
  ∀ tx, Admitted t₀ directory tx →
    t.LeadsTo (artifact.outputPath directory none protocol) (artifact.fileName directory) (artifact.render tx)

theorem refresh_outcome (hname : IsEntry (Artifact.directoryName directory)) (hlink : t.LinkFree)
    (hsame : transactionIn t directory = transactionIn t₀ directory) (artifact : Artifact) {rest : List (String × Artifact)}
    (hfree : Unhindered options.protocol ((directory, artifact) :: rest) t) :
    let run := (refresh options directory artifact : StateM Tree (Bool × Output)) t
    run.1 = outcome options t₀ directory artifact ∧ Extends (Touched t₀ [artifact] directory) t run.2 ∧
      InPlace options.protocol t₀ run.2 directory artifact ∧ Unhindered options.protocol rest run.2 := by
  have htext : artifact.textIn t directory = artifact.textIn t₀ directory := by
    unfold Artifact.textIn
    rw [hsame]
  obtain ⟨hwritten, hfree⟩ := hfree
  have h := generates artifact t directory (artifact.outputPath directory none options.protocol)
  obtain ⟨hext, hmade⟩ := writes_generate artifact directory (artifact.defaultDirectory directory options.protocol)
    (artifact.isEntry_fileName hname) (hlink.noLink _)
  have hpath : Path.join (artifact.defaultDirectory directory options.protocol) (artifact.fileName directory) =
      artifact.outputPath directory none options.protocol := rfl
  rw [hpath] at hext hmade
  unfold refresh outcome
  rw [Tree.bind_apply, ← htext]
  generalize (artifact.generate directory (artifact.outputPath directory none options.protocol) :
    StateM Tree (Except GenerateError Unit)) t = run at *
  cases h with
  | refused hrefused =>
    rw [hrefused]
    refine ⟨rfl, .refl _ t, fun tx hadmitted => ?_, hfree⟩
    have hok := (exists_admitted_iff artifact).1 ⟨tx, hadmitted⟩
    rw [← htext, hrefused] at hok
    exact nomatch hok
  | made hok =>
    rw [hok]
    refine ⟨rfl, hext.mono fun name hname => ⟨?_, artifact, List.mem_singleton_self _, hname⟩, fun tx hadmitted => ?_, hfree⟩
    · exact (exists_admitted_iff artifact).2 ⟨_, htext ▸ hok⟩
    · obtain ⟨tx', hload, hleads⟩ := hmade rfl
      rw [hsame, (admitted_iff.1 hadmitted).1] at hload
      rwa [Except.ok.inj hload]
  | unwritten => exact absurd rfl (hwritten _ _)

theorem Touched.mono {artifacts artifacts' : List Artifact} (h : artifacts ⊆ artifacts') {name : String}
    (htouched : Touched t artifacts directory name) : Touched t artifacts' directory name := by
  obtain ⟨hadmits, artifact, hmem, hname⟩ := htouched
  exact ⟨hadmits, artifact, h hmem, hname⟩

theorem Touched.ne_transactionFile {artifacts : List Artifact} {name : String} (h : Touched t artifacts directory name) :
    name ≠ transactionFile := by
  obtain ⟨-, artifact, -, rfl⟩ := h
  exact fun heq => not_artifactName_transactionFile [directory] ⟨directory, List.mem_singleton_self _, artifact, heq.symm⟩

/-- The transaction of the directory is still the one that it had at first. -/
def SourceKept (t₀ t : Tree) (directory : String) : Prop :=
  SourceApart (· ≠ transactionFile) t directory ∧ transactionIn t directory = transactionIn t₀ directory

theorem SourceKept.extends {touched : String → Prop} {t' : Tree} (h : SourceKept t₀ t directory) (hext : Extends touched t t')
    (hmono : ∀ name, touched name → name ≠ transactionFile) : SourceKept t₀ t' directory := by
  obtain ⟨hsource, hsame⟩ := h.1.extends hext hmono
  exact ⟨hsource, hsame.trans h.2⟩

theorem InPlace.extends {protocol : Protocol} {artifact : Artifact} {touched : String → Prop} {t' : Tree}
    (h : InPlace protocol t₀ t directory artifact) (hext : Extends touched t t')
    (huntouched : ¬ touched (artifact.fileName directory)) : InPlace protocol t₀ t' directory artifact :=
  fun tx hadmitted => (h tx hadmitted).extends hext huntouched

/-- The artifacts of a directory come to what the tree at first says of them. -/
theorem refreshAll_outcome (hname : IsEntry (Artifact.directoryName directory)) {artifacts : List Artifact}
    (hnodup : artifacts.Nodup) (hlink : t.LinkFree) (hsource : SourceKept t₀ t directory) {rest : List (String × Artifact)}
    (hfree : Unhindered options.protocol (artifacts.map (fun artifact => (directory, artifact)) ++ rest) t) :
    let run := (artifacts.mapM (refresh options directory) : StateM Tree (List (Bool × Output))) t
    run.1 = artifacts.map (outcome options t₀ directory) ∧ Extends (Touched t₀ artifacts directory) t run.2 ∧
      (∀ artifact ∈ artifacts, InPlace options.protocol t₀ run.2 directory artifact) ∧
      Unhindered options.protocol rest run.2 := by
  induction artifacts generalizing t with
  | nil => exact ⟨rfl, .refl _ t, nofun, hfree⟩
  | cons artifact artifacts ih =>
    obtain ⟨hfirst, hnodup⟩ := List.nodup_cons.1 hnodup
    obtain ⟨hresult, hext, hplace, hfree⟩ := refresh_outcome hname hlink hsource.2 artifact hfree
    rw [mapM_cons_apply]
    generalize (refresh options directory artifact : StateM Tree (Bool × Output)) t = run at *
    obtain ⟨hresults, hext', hplaces, hfree⟩ := ih hnodup (hlink.extends hext)
      (hsource.extends hext fun name => Touched.ne_transactionFile) hfree
    generalize (artifacts.mapM (refresh options directory) : StateM Tree (List (Bool × Output))) run.2 = runs at *
    refine ⟨by rw [List.map_cons, hresult, hresults], ?_, List.forall_mem_cons.2 ⟨?_, hplaces⟩, hfree⟩
    · exact (hext.mono fun name => Touched.mono (by simp)).trans (hext'.mono fun name => Touched.mono (by simp))
    · -- the artifacts after the first have other names
      refine hplace.extends hext' ?_
      rintro ⟨-, a, ha, hsame⟩
      rw [(Artifact.fileName_eq_iff.1 hsame).1] at hfirst
      exact hfirst ha

/-! ## All directories -/

/-- A run on a directory writes what the tree at first says of it. -/
theorem regenerateDirectory_account (hflags : ¬ (options.markdownOnly = true ∧ options.pythonOnly = true))
    (hname : IsEntry (Artifact.directoryName directory)) (hlink : t.LinkFree) (hsource : SourceKept t₀ t directory)
    {rest : List (String × Artifact)} (hfree : Unhindered options.protocol (turns options [directory] ++ rest) t) :
    let run := (regenerateDirectory options directory : StateM Tree (Bool × Output)) t
    run.1 = (decide (t₀.Admits directory), account options t₀ directory) ∧
      Extends (Touched t₀ (wantedBy options) directory) t run.2 ∧
      (∀ artifact ∈ wantedBy options, InPlace options.protocol t₀ run.2 directory artifact) ∧
      Unhindered options.protocol rest run.2 := by
  rw [turns, List.flatMap_singleton] at hfree
  obtain ⟨hresults, hext, hplaces, hfree⟩ := refreshAll_outcome hname (wantedBy_nodup options) hlink hsource hfree
  have hrun : ((regenerateDirectory options directory : StateM Tree (Bool × Output)) t).1 =
      let results := (((wantedBy options).mapM (refresh options directory) : StateM Tree (List (Bool × Output))) t).1
      (results.all Prod.fst, Output.line ("Processing: " ++ Artifact.directoryName directory) ++
        Output.concat (results.map Prod.snd) ++ Output.line "") := rfl
  refine ⟨?_, hext, hplaces, hfree⟩
  rw [hrun, hresults]
  dsimp only
  rw [outcome_all hflags, List.map_map]
  rfl

/-- A run over directories writes what the tree at first says of each, and counts them by it. -/
theorem regenerateEach_account (hflags : ¬ (options.markdownOnly = true ∧ options.pythonOnly = true)) {directories : List String}
    (hnames : ∀ d ∈ directories, IsEntry (Artifact.directoryName d))
    (hapart : directories.Pairwise fun d e => Artifact.directoryName d ≠ Artifact.directoryName e) (hlink : t.LinkFree)
    (hsources : ∀ d ∈ directories, SourceKept t₀ t d) (hfree : Unhindered options.protocol (turns options directories) t) :
    let run := (directories.mapM (regenerateDirectory options) : StateM Tree (List (Bool × Output))) t
    run.1 = directories.map (fun d => (decide (t₀.Admits d), account options t₀ d)) ∧
      Extends (fun name => ∃ d ∈ directories, Touched t₀ (wantedBy options) d name) t run.2 ∧
      (Artifact.markdown ∈ wantedBy options → ∀ d ∈ directories, InPlace options.protocol t₀ run.2 d .markdown) := by
  induction directories generalizing t with
  | nil => exact ⟨rfl, .refl _ t, nofun⟩
  | cons d ds ih =>
    rw [List.forall_mem_cons] at hnames hsources
    obtain ⟨hother, hapart⟩ := List.pairwise_cons.1 hapart
    have hsplit : turns options (d :: ds) = turns options [d] ++ turns options ds := by simp [turns]
    rw [hsplit] at hfree
    obtain ⟨hresult, hext, hplace, hfree⟩ := regenerateDirectory_account hflags hnames.1 hlink hsources.1 hfree
    rw [mapM_cons_apply]
    generalize (regenerateDirectory options d : StateM Tree (Bool × Output)) t = run at *
    have hsources' : ∀ e ∈ ds, SourceKept t₀ run.2 e := fun e he =>
      (hsources.2 e he).extends hext fun name => Touched.ne_transactionFile
    obtain ⟨hresults, hext', hplaces⟩ := ih hnames.2 hapart (hlink.extends hext) hsources' hfree
    generalize (ds.mapM (regenerateDirectory options) : StateM Tree (List (Bool × Output))) run.2 = runs at *
    refine ⟨by rw [List.map_cons, hresult, hresults], ?_, fun hwanted => List.forall_mem_cons.2 ⟨?_, hplaces hwanted⟩⟩
    · refine (hext.mono fun name hname => ⟨d, List.mem_cons_self, hname⟩).trans (hext'.mono ?_)
      exact fun name ⟨e, he, hname⟩ => ⟨e, List.mem_cons_of_mem _ he, hname⟩
    · -- the Markdown of a later directory has its name
      refine (hplace _ hwanted).extends hext' ?_
      rintro ⟨e, he, -, a, -, hsame⟩
      obtain ⟨rfl, hkey⟩ := Artifact.fileName_eq_iff.1 hsame
      exact hother e he hkey

/-! ## Markdown -/

/-- The content at a path is that of the file with its last name, below where the rest of it leads. -/
theorem content?_join {base name : String} {above : List String} (hname : IsEntry name) (hlink : NoLink name t)
    (hwalk : t.walk true false Tree.maxLinks [] (Tree.steps base) = .ok above) :
    t.content? (Path.join base name) = (t.file? (above ++ [name])).map Prod.fst := by
  rw [Tree.content?_eq, Tree.resolve_join base hname, Tree.walk_snoc hname hlink, hwalk]
  dsimp only
  split
  · rename_i entries mode hdir
    split
    · rfl
    · rename_i hnone
      rw [Tree.file?, Tree.find?_step hdir, Option.not_isSome_iff_eq_none.1 hnone]
      rfl
  · rename_i hdir
    cases hfile : t.file? (above ++ [name]) with
    | none => rfl
    | some file =>
      obtain ⟨above', name', entries, mode, heq, hfind, -⟩ := Tree.exists_above (Tree.file?_eq_some_iff.1 hfile)
      rw [(List.append_inj' heq rfl).1] at hdir
      exact absurd hfind (hdir _ _)

section Found

variable {directories : List String} (ht : t.Proper) (hfound : Discovery.directoriesIn options.protocol t = .ok directories)

include ht hfound

theorem sourceKept_of_found (hlink : t.LinkFree) {d : String} (hd : d ∈ directories) : SourceKept t t d := by
  refine ⟨sourceApart_of_found ht hfound hd fun names hresolve name hname => ?_, rfl⟩
  -- without links the path leads to a file with the name of transaction files
  rw [Tree.resolve_join d (by decide), Tree.walk_snoc_eq_ok_iff (by decide) (hlink.noLink _)] at hresolve
  obtain ⟨above, entries, mode, -, -, -, rfl⟩ := hresolve
  simpa [eq_comm] using hname

theorem outputPath_of_found {d : String} (hd : d ∈ directories) :
    Artifact.markdown.outputPath d none options.protocol = d ++ ".md" ∧
      d ++ ".md" = Path.join options.protocol.transactions (Artifact.markdown.fileName d) := by
  have hentry := isEntry_directoryName ht hfound hd
  obtain ⟨name, hname, rfl, -⟩ := Discovery.mem_directories ht hfound hd
  have hfile : Artifact.markdown.fileName (Path.join options.protocol.transactions name) = name ++ ".md" := by
    rw [Artifact.fileName, Artifact.directoryName_join _ hname]
  have hpath : Path.join options.protocol.transactions (name ++ ".md") = Path.join options.protocol.transactions name ++ ".md" :=
    Path.join_append hname (hfile ▸ Artifact.markdown.isEntry_fileName hentry)
  rw [hfile]
  exact ⟨(Artifact.outputPath_markdown _ hname).trans hpath, hpath.symm⟩

/-- Where the names of files are not touched, Markdown stays as it is. -/
theorem content?_of_untouched (hlink : t.LinkFree) {touched : String → Prop} {t' : Tree} (hext : Extends touched t t') {d : String}
    (hd : d ∈ directories) (huntouched : ¬ touched (Artifact.markdown.fileName d)) :
    t'.content? (d ++ ".md") = t.content? (d ++ ".md") := by
  have hname := Artifact.markdown.isEntry_fileName (isEntry_directoryName ht hfound hd)
  obtain ⟨above, habove⟩ : ∃ above, t.walk true false Tree.maxLinks [] (Tree.steps options.protocol.transactions) = .ok above := by
    have hkind := Discovery.kind_of_mem hfound hd
    have hentry : IsEntry "transactions" := by decide
    rw [Tree.kind_eq, Protocol.transactions, Tree.resolve_join _ hentry, ← Tree.steps_join _ hentry] at hkind
    cases hwalk : t.walk true false Tree.maxLinks [] (Tree.steps (Path.join options.protocol.directory "transactions")) with
    | error e =>
      rw [hwalk] at hkind
      cases hkind
    | ok above => exact ⟨above, hwalk⟩
  rw [(outputPath_of_found ht hfound hd).2, content?_join hname (hlink.noLink _) habove,
    content?_join hname ((hlink.extends hext).noLink _) (hext.walk habove), hext.file?_eq fun name hlast => ?_]
  rw [List.getLast?_concat, Option.mem_some_iff] at hlast
  rwa [← hlast]

end Found

/-- Beside the directories of transactions a file can be written unless a directory has its name. -/
theorem writable_beside {protocol : Protocol} {name : String} (hlink : t.LinkFree) (hname : IsEntry name)
    (hdir : t.kind protocol.transactions = some .directory)
    (hfree : t.kind (Path.join protocol.transactions name) ≠ some .directory) :
    t.Writable (Path.join protocol.transactions name) := by
  intro text
  obtain ⟨cs, hcs⟩ := Artifact.reverse_transactions protocol
  have hentry : IsEntry "transactions" := by decide
  have hparent := Path.parent?_join hname hcs (by decide) (by decide)
  have hne : protocol.transactions ≠ "" := Tree.join_ne_empty _ hentry
  have hthere : t.createDirectories protocol.transactions = .ok t :=
    Tree.createDirectories_of_kind hentry (hlink.noLink _) hdir
  obtain ⟨u, hreplace⟩ : ∃ u, t.replace (Path.join protocol.transactions name) text = .ok u :=
    Tree.exists_replace hentry hname hlink hparent hdir hfree text
  unfold writeArtifact
  simp only [hparent, Option.getD_some, hne, if_false]
  rw [Tree.bind_apply, createDirectories_apply, hthere]
  dsimp only
  rw [replace_apply, hreplace]

/-! ## The run -/

theorem runRegenerate_of_none {directories : List String}
    (hfound : Discovery.directoriesIn options.protocol t = .ok directories) (hnone : selected options directories = []) :
    let run := (runRegenerate options : StateM Tree CommandResult) t
    run.2 = t ∧ run.1.code = 1 := by
  unfold runRegenerate
  rw [Tree.bind_apply, Discovery.transactionDirectories_eq, hfound]
  unfold selected at hnone
  cases directories with
  | nil => exact ⟨rfl, rfl⟩
  | cons d ds =>
    cases htransaction : options.transaction with
    | none =>
      rw [htransaction] at hnone
      cases hnone
    | some name =>
      rw [htransaction] at hnone
      simp only [hnone]
      exact ⟨rfl, rfl⟩

theorem markdown_mem_wantedBy : Artifact.markdown ∈ wantedBy options ↔ options.pythonOnly = false := by
  unfold wantedBy wanted
  cases options.pythonOnly <;> cases options.markdownOnly <;> decide

theorem length_admits_add (t : Tree) (directories : List String) :
    (directories.filter fun d => t.Admits d).length + (directories.filter fun d => ¬ t.Admits d).length = directories.length := by
  rw [directories.length_eq_length_filter_add fun d => decide (t.Admits d)]
  simp only [decide_not]

/-- The counts of a run are those of the directories by what the tree at first says of them. -/
theorem regenerateAll_tally {directories : List String}
    (hresults : ((directories.mapM (regenerateDirectory options) : StateM Tree (List (Bool × Output))) t).1 =
      directories.map fun d => (decide (t₀.Admits d), account options t₀ d)) :
    let succeeded := directories.filter fun d => t₀.Admits d
    let failed := directories.filter fun d => ¬ t₀.Admits d
    let run := (regenerateAll options directories : StateM Tree CommandResult) t
    run.1.code = (if 0 < failed.length then 1 else 0) ∧
    run.1.output = .line ("Found " ++ toString directories.length ++ " transaction(s)") ++ .line "" ++
      .concat (directories.map (account options t₀)) ++
      .line ("Done: " ++ toString succeeded.length ++ " succeeded, " ++ toString failed.length ++ " failed") := by
  intro succeeded failed run
  have hfailed : ((directories.map fun d => (decide (t₀.Admits d), account options t₀ d)).filter fun r => !r.1).length =
      failed.length := by
    rw [List.filter_map, List.length_map]
    exact congrArg List.length (List.filter_congr fun d _ => (decide_not (p := t₀.Admits d)).symm)
  have hrun : run.1 =
      let results := ((directories.mapM (regenerateDirectory options) : StateM Tree (List (Bool × Output))) t).1
      let failed := (results.filter fun r => !r.1).length
      ⟨if failed > 0 then 1 else 0,
        .line ("Found " ++ toString directories.length ++ " transaction(s)") ++ .line "" ++
          .concat (results.map Prod.snd) ++
          .line ("Done: " ++ toString (results.length - failed) ++ " succeeded, " ++ toString failed ++ " failed")⟩ := rfl
  have hcount : succeeded.length + failed.length = directories.length := length_admits_add t₀ directories
  have hsucceeded : directories.length - failed.length = succeeded.length := by omega
  rw [hrun, hresults]
  dsimp only
  rw [hfailed, List.length_map, hsucceeded, List.map_map]
  exact ⟨rfl, rfl⟩

/-- A run over the transactions of a protocol succeeds for the directories that have an admitted transaction when it starts,
and fails for the others, each in its turn. It writes what it finds, one account of each selected directory in order, and
the two counts; it fails as a whole if it selects nothing, which changes nothing, or if one directory fails. Beside each
directory for which it succeeds there is its Markdown, if that is wanted, and no other Markdown changes. -/
theorem regenerate_tally (options : RegenerateOptions) {t : Tree} (ht : t.Proper) (hlink : t.LinkFree)
    (hflags : ¬ (options.markdownOnly = true ∧ options.pythonOnly = true)) :
    ∃ directories, Discovery.directoriesIn options.protocol t = .ok directories ∧
      (directories.Pairwise fun a b => Path.le a b = true) ∧
      let chosen := selected options directories
      let succeeded := chosen.filter fun d => t.Admits d
      let failed := chosen.filter fun d => ¬ t.Admits d
      let run := (runRegenerate options : StateM Tree CommandResult) t
      (chosen = [] → run.2 = t ∧ run.1.code = 1) ∧
      (chosen ≠ [] → Unhindered options.protocol (turns options chosen) t →
        succeeded.length + failed.length = chosen.length ∧
        run.1.output = .line ("Found " ++ toString chosen.length ++ " transaction(s)") ++ .line "" ++
          .concat (chosen.map (account options t)) ++
          .line ("Done: " ++ toString succeeded.length ++ " succeeded, " ++ toString failed.length ++ " failed") ∧
        run.1.code = (if 0 < failed.length then 1 else 0) ∧
        (options.pythonOnly = false → ∀ d ∈ chosen, ∀ tx, Admitted t d tx →
          run.2.read (d ++ ".md") = .ok (Markdown.render tx)) ∧
        ∀ d ∈ directories, options.pythonOnly = true ∨ d ∉ succeeded →
          run.2.content? (d ++ ".md") = t.content? (d ++ ".md")) := by
  obtain ⟨directories, hfound, hsorted⟩ := Discovery.exists_directories options.protocol t
  refine ⟨directories, hfound, hsorted, runRegenerate_of_none hfound, fun hsome hfree => ?_⟩
  have hsub := selected_sublist options directories
  have hnames : ∀ d ∈ selected options directories, IsEntry (Artifact.directoryName d) := fun d hd =>
    isEntry_directoryName ht hfound (hsub.subset hd)
  have hapart : (selected options directories).Pairwise fun d e => Artifact.directoryName d ≠ Artifact.directoryName e :=
    (hsub.nodup (Discovery.directories_nodup ht hfound)).pairwise_of_forall_ne fun d hd e he hne hsame =>
      hne (directoryName_injective ht hfound (hsub.subset hd) (hsub.subset he) hsame)
  have hsources : ∀ d ∈ selected options directories, SourceKept t t d := fun d hd =>
    sourceKept_of_found ht hfound hlink (hsub.subset hd)
  obtain ⟨hresults, hext, hplaces⟩ := regenerateEach_account hflags hnames hapart hlink hsources hfree
  obtain ⟨hcode, houtput⟩ := regenerateAll_tally hresults
  rw [runRegenerate_selected options hfound hsome]
  refine ⟨length_admits_add t _, houtput, hcode, fun hpython d hd tx hadmitted => ?_, fun d hd hnot => ?_⟩
  · have hread := (hplaces (markdown_mem_wantedBy.2 hpython) d hd tx hadmitted).read
    rwa [(outputPath_of_found ht hfound (hsub.subset hd)).1] at hread
  · refine content?_of_untouched ht hfound hlink hext hd ?_
    rintro ⟨e, he, hadmits, a, ha, hsame⟩
    obtain ⟨rfl, hkey⟩ := Artifact.fileName_eq_iff.1 hsame
    obtain rfl := directoryName_injective ht hfound hd (hsub.subset he) hkey
    rcases hnot with hpython | hnot
    · rw [markdown_mem_wantedBy, hpython] at ha
      cases ha
    · exact hnot (List.mem_filter.2 ⟨he, decide_eq_true hadmits⟩)

/-- A protocol with `transaction T{}` in one directory and a sound transaction in the next. -/
def emptyThenSound : Tree :=
  let directory (source : String) : Node := .directory [(transactionFile, .file (.text source) none)] none
  ⟨[("protocol", .directory [("transactions", .directory
    [("00_empty", directory "transaction T\x7b\x7d"),
      ("01_sound", directory "transaction T\x7bactor A\x7b\x7dmessage M A->A\x7b\x7d\x7d")] none)] none)]⟩

theorem read_emptyThenSound :
    emptyThenSound.read "protocol/transactions/00_empty/transaction.omt" = .ok "transaction T\x7b\x7d" ∧
    emptyThenSound.read "protocol/transactions/01_sound/transaction.omt" =
      .ok "transaction T\x7bactor A\x7b\x7dmessage M A->A\x7b\x7d\x7d" := by
  constructor
  · exact Tree.read_of_find? (by decide) rfl (by decide) rfl
  · exact Tree.read_of_find? (by decide) rfl (by decide) rfl

theorem emptyThenSound_proper : emptyThenSound.Proper ∧ emptyThenSound.LinkFree := by
  constructor
  · apply Tree.every_of_all
    have hnames : IsEntry "protocol" ∧ IsEntry "transactions" ∧ IsEntry "00_empty" ∧ IsEntry "01_sound" ∧ IsEntry transactionFile := by
      decide
    simp [Tree.root, emptyThenSound, Node.All, Node.AllIn, Node.HasProperEntries, hnames]
  · apply Tree.linkFree_of_all
    simp [Tree.root, emptyThenSound, Node.All, Node.AllIn]

theorem directories_of_emptyThenSound : Discovery.directoriesIn ⟨"protocol", "stubs"⟩ emptyThenSound =
    .ok ["protocol/transactions/00_empty", "protocol/transactions/01_sound"] := by
  have hkind : emptyThenSound.kind "protocol/transactions" = some .directory :=
    Tree.kind_of_find? (by decide) rfl (by decide) rfl rfl
  have hlist : emptyThenSound.list "protocol/transactions" = .ok ["00_empty", "01_sound"] := by
    unfold Tree.list
    rw [Tree.get_of_find? (by decide) rfl (by decide) rfl rfl]
    rfl
  have hholds : ∀ name ∈ ["00_empty", "01_sound"],
      Discovery.holdsTransaction emptyThenSound "protocol/transactions" name = true := by
    simp only [List.forall_mem_cons, Discovery.holdsTransaction, Bool.and_eq_true, beq_iff_eq]
    refine ⟨⟨⟨by decide, ?_⟩, ?_⟩, ⟨⟨by decide, ?_⟩, ?_⟩, List.forall_mem_nil _⟩ <;>
      exact Tree.kind_of_find? (by decide) rfl (by decide) rfl rfl
  unfold Discovery.directoriesIn
  rw [show Protocol.transactions ⟨"protocol", "stubs"⟩ = "protocol/transactions" from rfl, hkind, hlist]
  simp only [beq_self_eq_true, if_true, List.filter_eq_self.2 hholds]
  refine congrArg Except.ok (List.mergeSort_of_pairwise (List.pairwise_pair.2 ?_))
  exact (Path.le_join_iff "protocol/transactions" (by decide) (by decide)).2 (by decide)

theorem walk_emptyThenSound : emptyThenSound.walk true false Tree.maxLinks [] (Tree.steps "protocol/transactions") =
    .ok ["protocol", "transactions"] :=
  Tree.walk_of_find? (n := .directory _ _) true false Tree.maxLinks (by decide) rfl rfl

theorem writable_emptyThenSound : emptyThenSound.Writable "protocol/transactions/01_sound.md" := by
  have hfree := emptyThenSound_proper.2
  have hname : IsEntry "01_sound.md" := by decide
  refine @writable_beside _ ⟨"protocol", "stubs"⟩ "01_sound.md" hfree hname ?_ fun hkind => ?_
  · exact Tree.kind_of_find? (by decide) rfl (by decide) rfl rfl
  · obtain ⟨above, entries, mode, n, hwalk, hdir, hlookup, -⟩ := Tree.walk_of_kind hname (hfree.noLink _) hkind
    obtain rfl := Except.ok.inj (walk_emptyThenSound.symm.trans hwalk)
    cases hdir
    cases hlookup

theorem unhindered_emptyThenSound : Unhindered ⟨"protocol", "stubs"⟩
    (turns ⟨false, none, ⟨"protocol", "stubs"⟩, true, false⟩ ["protocol/transactions/00_empty", "protocol/transactions/01_sound"])
    emptyThenSound := by
  obtain ⟨e, hempty, hrefused⟩ := (generates .markdown emptyThenSound "protocol/transactions/00_empty"
    "protocol/transactions/00_empty.md").of_not_admitted (not_admitted_emptyTransaction read_emptyThenSound.1)
  have hsound := ((generates .markdown emptyThenSound "protocol/transactions/01_sound"
    "protocol/transactions/01_sound.md").ok_iff writable_emptyThenSound).2 ⟨_, admitted_selfMessage read_emptyThenSound.2⟩
  -- the first directory is refused, which leaves the tree as it is for the second
  refine ⟨fun path cause h => ?_, fun path cause h => ?_, trivial⟩
  · cases (congrArg Prod.fst hempty).symm.trans h
    exact hrefused _ _ rfl
  · have hnext : ((Artifact.markdown.generate "protocol/transactions/01_sound" "protocol/transactions/01_sound.md" :
        StateM Tree (Except GenerateError Unit)) ((Artifact.markdown.generate "protocol/transactions/00_empty"
          "protocol/transactions/00_empty.md" : StateM Tree (Except GenerateError Unit)) emptyThenSound).2).1 =
        .error (.unwritable path cause) := h
    rw [hempty, hsound] at hnext
    cases hnext

/-- The empty transaction fails, and the sound one behind it gets its Markdown. -/
theorem tally_of_empty_then_sound :
    let options : RegenerateOptions := ⟨false, none, ⟨"protocol", "stubs"⟩, true, false⟩
    let run := (runRegenerate options : StateM Tree CommandResult) emptyThenSound
    emptyThenSound.Proper ∧ emptyThenSound.LinkFree ∧
      Discovery.directoriesIn options.protocol emptyThenSound =
        .ok ["protocol/transactions/00_empty", "protocol/transactions/01_sound"] ∧
      Unhindered options.protocol
        (turns options ["protocol/transactions/00_empty", "protocol/transactions/01_sound"]) emptyThenSound ∧
      run.1.code = 1 ∧
      run.1.output.out = "Found 2 transaction(s)\n\nProcessing: 00_empty\n\nProcessing: 01_sound\n\nDone: 1 succeeded, 1 failed\n" ∧
      run.2.read "protocol/transactions/01_sound.md" = .ok (Markdown.render selfMessage.first.transaction) ∧
      run.2.content? "protocol/transactions/00_empty.md" = none := by
  intro options run
  obtain ⟨hproper, hfree⟩ := emptyThenSound_proper
  obtain ⟨directories, hfound, -, -, hrun⟩ := regenerate_tally options hproper hfree (by decide)
  obtain rfl := Except.ok.inj (directories_of_emptyThenSound.symm.trans hfound)
  obtain ⟨-, houtput, hcode, hmade, hkept⟩ := hrun (List.cons_ne_nil _ _) unhindered_emptyThenSound
  have hempty : ¬ emptyThenSound.Admits "protocol/transactions/00_empty" := not_admitted_emptyTransaction read_emptyThenSound.1
  have hsound : Admitted emptyThenSound "protocol/transactions/01_sound" selfMessage.first.transaction :=
    admitted_selfMessage read_emptyThenSound.2
  have hsound' : emptyThenSound.Admits "protocol/transactions/01_sound" := ⟨_, hsound⟩
  have hsucceeded : (selected options ["protocol/transactions/00_empty", "protocol/transactions/01_sound"]).filter
      (fun d => decide (emptyThenSound.Admits d)) = ["protocol/transactions/01_sound"] := by
    simp [selected, options, hempty, hsound']
  have hfailed : (selected options ["protocol/transactions/00_empty", "protocol/transactions/01_sound"]).filter
      (fun d => decide (¬ emptyThenSound.Admits d)) = ["protocol/transactions/00_empty"] := by
    simp [selected, options, hempty, hsound']
  refine ⟨hproper, hfree, hfound, unhindered_emptyThenSound, ?_, ?_, hmade rfl _ (by simp [selected, options]) _ hsound, ?_⟩
  · rw [hcode, hfailed]
    rfl
  · obtain ⟨message, hmessage⟩ : ∃ message, outcome options emptyThenSound "protocol/transactions/00_empty" .markdown =
        (false, .errLine message) := outcome_of_not_admits hempty _
    have hquiet : outcome options emptyThenSound "protocol/transactions/01_sound" .markdown = (true, .empty) :=
      outcome_of_admits hsound' _
    have haccount : ∀ d, account options emptyThenSound d = .line ("Processing: " ++ Artifact.directoryName d) ++
        .concat [(outcome options emptyThenSound d .markdown).2] ++ .line "" := fun _ => rfl
    have hchosen : selected options ["protocol/transactions/00_empty", "protocol/transactions/01_sound"] =
        ["protocol/transactions/00_empty", "protocol/transactions/01_sound"] := rfl
    have hout : ∀ a b : Output, (a ++ b).out = a.out ++ b.out := fun _ _ => rfl
    have hout' : ∀ a b : Output, (a.append b).out = a.out ++ b.out := hout
    rw [houtput, hsucceeded, hfailed, hchosen]
    simp only [List.map_cons, List.map_nil, haccount, hmessage, hquiet, hout, hout', Output.concat, List.foldr_cons,
      List.foldr_nil, Output.line, Output.errLine, Output.empty]
    rfl
  · rw [hsucceeded] at hkept
    refine (hkept "protocol/transactions/00_empty" List.mem_cons_self (.inr (by decide))).trans ?_
    have hname : IsEntry "00_empty.md" := by decide
    exact (content?_join hname (hfree.noLink _) walk_emptyThenSound).trans rfl

end Command

end Parley
