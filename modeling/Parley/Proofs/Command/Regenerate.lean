/-
The command that makes artifacts of all transactions of a protocol, on a tree. A run extends the tree
and touches only files with the names of artifacts, so an artifact that was written holds what was
written unless a later one goes to the same file; that happens when two directories have names with
one stem.
-/
import Parley.Command.Generate
import Parley.Proofs.Artifact.Place
import Parley.Proofs.Files.Grow
import Parley.Proofs.Files.Order

namespace Parley

open Parley.Tree (Extends NoLink)

/-! ## One artifact -/

/-- The first transaction of a directory. -/
def transactionIn (t : Tree) (directory : String) : Except SourceError Transaction :=
  match t.read (Path.join directory transactionFile) with
  | .error e => .error (.unreadable (Path.join directory transactionFile) e)
  | .ok source =>
    match parse source with
    | .error e => .error (.malformed e)
    | .ok schema => schema.transactions.head?.elim (.error noTransaction) .ok

theorem loadTransaction_eq (directory : String) (t : Tree) :
    (loadTransaction directory : StateM Tree (Except SourceError Transaction)) t = (transactionIn t directory, t) := by
  unfold loadTransaction parseFile transactionIn
  simp only [bind, StateT.bind, FileAccess.read]
  cases t.read (Path.join directory transactionFile) with
  | error e => rfl
  | ok source => cases hparse : parse source <;> simp [Tree.pure_apply, hparse, Except.mapError]

/-- The directory has a transaction file whose name is none of those to avoid. -/
def SourceApart (avoid : String → Prop) (t : Tree) (directory : String) : Prop :=
  ∃ names content mode, t.resolve (Path.join directory transactionFile) = .ok names ∧
    t.find? names = some (.file content mode) ∧ ∀ name ∈ names.getLast?, ¬ avoid name

/-- The transaction of a directory is the same after files were written whose names its own file does not have. -/
theorem SourceApart.extends {avoid touched : String → Prop} {t t' : Tree} {directory : String}
    (h : SourceApart avoid t directory) (hext : Extends touched t t') (hmono : ∀ name, touched name → avoid name) :
    SourceApart avoid t' directory ∧ transactionIn t' directory = transactionIn t directory := by
  obtain ⟨names, content, mode, hresolve, hfind, havoid⟩ := h
  have hresolve' := hext.resolve hresolve
  have hfind' := hext.file hfind fun name hname htouched => havoid name hname (hmono name htouched)
  refine ⟨⟨names, content, mode, hresolve', hfind', havoid⟩, ?_⟩
  have hread : t'.read (Path.join directory transactionFile) = t.read (Path.join directory transactionFile) := by
    rw [Tree.read_eq hresolve', Tree.read_eq hresolve, hfind', hfind]
  unfold transactionIn
  rw [hread]

/-- What a run does that writes a file: it touches files of one name only, and if it succeeds the path leads
to a file with the text. -/
def Writes {ε : Type} (t : Tree) (path name text : String) (run : Except ε Unit × Tree) : Prop :=
  Extends (· = name) t run.2 ∧ (run.1 = .ok () → run.2.LeadsTo path name text)

section Write

variable {t : Tree} {name : String}

theorem replace_apply (path text : String) (t : Tree) :
    (FileAccess.replace path text : StateM Tree (Except FileError Unit)) t =
      match t.replace path text with
      | .ok u => (.ok (), u)
      | .error e => (.error e, t) := rfl

theorem createDirectories_apply (path : String) (t : Tree) :
    (FileAccess.createDirectories path : StateM Tree (Except FileError Unit)) t =
      match t.createDirectories path with
      | .ok u => (.ok (), u)
      | .error e => (.error e, t) := rfl

theorem writes_replace (base : String) (hname : IsEntry name) (hlink : NoLink name t) (text : String) :
    Writes t (Path.join base name) name text
      ((FileAccess.replace (Path.join base name) text : StateM Tree (Except FileError Unit)) t) := by
  rw [replace_apply]
  cases hreplace : t.replace (Path.join base name) text with
  | error e => exact ⟨.refl _ t, nofun⟩
  | ok u =>
    obtain ⟨hext, hleads⟩ := Tree.leadsTo_replace hname hlink hreplace
    exact ⟨hext, fun _ => hleads⟩

theorem writes_writeArtifact (base : String) (hname : IsEntry name) (hlink : NoLink name t) (text : String) :
    Writes t (Path.join base name) name text
      ((writeArtifact (Path.join base name) text : StateM Tree (Except FileError Unit)) t) := by
  unfold writeArtifact
  by_cases habove : (Path.parent? (Path.join base name)).getD "" = ""
  · simp only [habove, if_true]
    rw [Tree.bind_apply, Tree.pure_apply]
    exact writes_replace base hname hlink text
  · simp only [habove, if_false]
    rw [Tree.bind_apply, createDirectories_apply]
    cases hcreate : t.createDirectories ((Path.parent? (Path.join base name)).getD "") with
    | error e => exact ⟨.refl _ t, nofun⟩
    | ok u =>
      have hext := Tree.extends_createDirectories hcreate
      obtain ⟨hext', hleads⟩ := writes_replace base hname (hlink.extends hext) text
      exact ⟨(hext.mono fun _ => False.elim).trans hext', hleads⟩

theorem eq_of_renderValid {artifact : Artifact} {directory text : String} {tx : Transaction}
    (h : artifact.renderValid directory tx = .ok text) : text = artifact.render tx := by
  unfold Artifact.renderValid at h
  cases herrors : errorsOf tx.issues with
  | nil => simp only [herrors] at h; exact (Except.ok.inj h).symm
  | cons first more => simp only [herrors] at h; cases h

/-- An artifact that is made holds what the transaction of its directory is rendered to. -/
theorem writes_generate (artifact : Artifact) (directory base : String) (hname : IsEntry name) (hlink : NoLink name t) :
    let run := (artifact.generate directory (Path.join base name) : StateM Tree (Except GenerateError Unit)) t
    Extends (· = name) t run.2 ∧ (run.1 = .ok () → ∃ tx, transactionIn t directory = .ok tx ∧
      run.2.LeadsTo (Path.join base name) name (artifact.render tx)) := by
  unfold Artifact.generate
  rw [Tree.bind_apply, loadTransaction_eq]
  cases transactionIn t directory with
  | error e => exact ⟨.refl _ t, nofun⟩
  | ok tx =>
    cases hvalid : artifact.renderValid directory tx with
    | error e => simp only [hvalid]; exact ⟨.refl _ t, nofun⟩
    | ok text =>
      obtain rfl := eq_of_renderValid hvalid
      simp only [hvalid]
      rw [Tree.bind_apply]
      obtain ⟨hext, hleads⟩ := writes_writeArtifact base hname hlink (artifact.render tx)
      generalize (writeArtifact (Path.join base name) (artifact.render tx) : StateM Tree (Except FileError Unit)) t = run at *
      obtain ⟨result, u⟩ := run
      cases result with
      | error e => exact ⟨hext, nofun⟩
      | ok => exact ⟨hext, fun _ => ⟨tx, rfl, hleads rfl⟩⟩

end Write

/-! ## All artifacts -/

theorem mapM_cons_apply {α β : Type} (f : α → StateM Tree β) (x : α) (xs : List α) (t : Tree) :
    ((x :: xs).mapM f) t = ((f x t).1 :: (xs.mapM f (f x t).2).1, (xs.mapM f (f x t).2).2) := by
  rw [List.mapM_cons]
  rfl

/-- The artifact of a directory is in its place, made from the transaction that the tree `t` has there. -/
def Artifact.Made (protocol : Protocol) (t t' : Tree) (directory : String) (artifact : Artifact) : Prop :=
  ∃ tx, transactionIn t directory = .ok tx ∧
    t'.LeadsTo (artifact.outputPath directory none protocol) (artifact.fileName directory) (artifact.render tx)

/-- A name that a file of an artifact of one of the directories has. -/
def ArtifactName (directories : List String) (name : String) : Prop :=
  ∃ directory ∈ directories, ∃ artifact : Artifact, name = artifact.fileName directory

/-- No artifact has the name of a transaction file. -/
theorem not_artifactName_transactionFile (directories : List String) : ¬ ArtifactName directories transactionFile := by
  rintro ⟨directory, -, artifact, hname⟩
  have hlast : transactionFile.toList.getLast? = some 't' := rfl
  cases artifact with
  | markdown =>
    rw [hname, Artifact.getLast?_markdown] at hlast
    cases hlast
  | python =>
    rw [hname, Artifact.getLast?_python] at hlast
    cases hlast

namespace Command

variable (options : RegenerateOptions) {t : Tree} {directory : String}

theorem refresh_makes (hname : IsEntry (Artifact.directoryName directory)) (artifact : Artifact)
    (hlink : NoLink (artifact.fileName directory) t) :
    let run := (refresh options directory artifact : StateM Tree (Bool × Output)) t
    Extends (· = artifact.fileName directory) t run.2 ∧
      (run.1.1 = true → artifact.Made options.protocol t run.2 directory) := by
  unfold refresh
  rw [Tree.bind_apply]
  obtain ⟨hext, hmade⟩ := writes_generate artifact directory (artifact.defaultDirectory directory options.protocol)
    (artifact.isEntry_fileName hname) hlink
  have hpath : Path.join (artifact.defaultDirectory directory options.protocol) (artifact.fileName directory) =
      artifact.outputPath directory none options.protocol := rfl
  rw [hpath] at hext hmade
  generalize (artifact.generate directory (artifact.outputPath directory none options.protocol) :
    StateM Tree (Except GenerateError Unit)) t = run at *
  obtain ⟨result, u⟩ := run
  cases result with
  | error e => exact ⟨hext, nofun⟩
  | ok => exact ⟨hext, fun _ => hmade rfl⟩

/-- The artifacts of one directory: each touches files of its own name only, so that all of them are in place. -/
theorem refreshAll_makes {avoid : String → Prop} (hname : IsEntry (Artifact.directoryName directory))
    (havoid : ∀ artifact : Artifact, avoid (artifact.fileName directory)) {artifacts : List Artifact} (hnodup : artifacts.Nodup)
    (hlinks : ∀ artifact : Artifact, NoLink (artifact.fileName directory) t) (hsource : SourceApart avoid t directory) :
    let run := (artifacts.mapM (refresh options directory) : StateM Tree (List (Bool × Output))) t
    Extends (fun name => ∃ artifact ∈ artifacts, name = artifact.fileName directory) t run.2 ∧
      (run.1.all Prod.fst = true → ∀ artifact ∈ artifacts, artifact.Made options.protocol t run.2 directory) := by
  induction artifacts generalizing t with
  | nil => exact ⟨.refl _ t, nofun⟩
  | cons artifact artifacts ih =>
    obtain ⟨hfirst, hnodup⟩ := List.nodup_cons.1 hnodup
    obtain ⟨hext, hmade⟩ := refresh_makes options hname artifact (hlinks artifact)
    rw [mapM_cons_apply]
    generalize (refresh options directory artifact : StateM Tree (Bool × Output)) t = run at *
    obtain ⟨hsource', htx⟩ := hsource.extends hext fun name hname => hname ▸ havoid artifact
    obtain ⟨hext', hmade'⟩ := ih hnodup (fun artifact => (hlinks artifact).extends hext) hsource'
    generalize (artifacts.mapM (refresh options directory) : StateM Tree (List (Bool × Output))) run.2 = runs at *
    refine ⟨?_, fun hall => ?_⟩
    · refine (hext.mono fun name hname => ⟨artifact, List.mem_cons_self, hname⟩).trans (hext'.mono ?_)
      exact fun name ⟨a, ha, hname⟩ => ⟨a, List.mem_cons_of_mem _ ha, hname⟩
    · rw [List.all_cons, Bool.and_eq_true] at hall
      refine List.forall_mem_cons.2 ⟨?_, fun a ha => ?_⟩
      · -- the artifacts after the first have other names
        obtain ⟨tx, hload, hleads⟩ := hmade hall.1
        refine ⟨tx, hload, hleads.extends hext' ?_⟩
        rintro ⟨a, ha, hsame⟩
        rw [(Artifact.fileName_eq_iff.1 hsame).1] at hfirst
        exact hfirst ha
      · obtain ⟨tx, hload, hleads⟩ := hmade' hall.2 a ha
        exact ⟨tx, htx ▸ hload, hleads⟩

/-- The artifacts that a run makes of each directory. -/
def wantedBy (options : RegenerateOptions) : List Artifact := wanted (!options.pythonOnly) (!options.markdownOnly)

theorem wantedBy_nodup : (wantedBy options).Nodup := by
  unfold wantedBy wanted
  cases options.pythonOnly <;> cases options.markdownOnly <;> decide

theorem regenerateDirectory_makes {avoid : String → Prop} (hname : IsEntry (Artifact.directoryName directory))
    (havoid : ∀ artifact : Artifact, avoid (artifact.fileName directory))
    (hlinks : ∀ artifact : Artifact, NoLink (artifact.fileName directory) t) (hsource : SourceApart avoid t directory) :
    let run := (regenerateDirectory options directory : StateM Tree (Bool × Output)) t
    Extends (fun name => ∃ artifact : Artifact, name = artifact.fileName directory) t run.2 ∧
      (run.1.1 = true → ∀ artifact ∈ wantedBy options, artifact.Made options.protocol t run.2 directory) := by
  obtain ⟨hext, hmade⟩ := refreshAll_makes options hname havoid (wantedBy_nodup options) hlinks hsource
  unfold regenerateDirectory
  rw [Tree.bind_apply]
  exact ⟨hext.mono fun name ⟨artifact, _, hname⟩ => ⟨artifact, hname⟩, hmade⟩

/-- Directory after directory: what was made of one is not touched when the files of those after it have other names. -/
theorem regenerateEach_makes {avoid : String → Prop} (t₀ : Tree) {directories : List String}
    (hnames : ∀ d ∈ directories, IsEntry (Artifact.directoryName d))
    (havoid : ∀ d ∈ directories, ∀ artifact : Artifact, avoid (artifact.fileName d))
    (hlinks : ∀ d ∈ directories, ∀ artifact : Artifact, NoLink (artifact.fileName d) t)
    (hsources : ∀ d ∈ directories, SourceApart avoid t d ∧ transactionIn t d = transactionIn t₀ d)
    (hapart : directories.Pairwise fun d e => ∀ a b : Artifact, a.fileName d ≠ b.fileName e) :
    let run := (directories.mapM (regenerateDirectory options) : StateM Tree (List (Bool × Output))) t
    Extends (ArtifactName directories) t run.2 ∧ List.Forall₂ (fun directory result => result.1 = true →
      ∀ artifact ∈ wantedBy options, artifact.Made options.protocol t₀ run.2 directory) directories run.1 := by
  induction directories generalizing t with
  | nil => exact ⟨.refl _ t, .nil⟩
  | cons directory directories ih =>
    rw [List.forall_mem_cons] at hnames havoid hlinks hsources
    obtain ⟨hother, hapart⟩ := List.pairwise_cons.1 hapart
    obtain ⟨hext, hmade⟩ := regenerateDirectory_makes options hnames.1 havoid.1 hlinks.1 hsources.1.1
    rw [mapM_cons_apply]
    generalize (regenerateDirectory options directory : StateM Tree (Bool × Output)) t = run at *
    have hsources' : ∀ d ∈ directories, SourceApart avoid run.2 d ∧ transactionIn run.2 d = transactionIn t₀ d := by
      intro d hd
      obtain ⟨hsource, hsame⟩ := hsources.2 d hd
      obtain ⟨hsource', hsame'⟩ := hsource.extends hext fun name ⟨artifact, hname⟩ => hname ▸ havoid.1 artifact
      exact ⟨hsource', hsame'.trans hsame⟩
    obtain ⟨hext', hmade'⟩ := ih hnames.2 havoid.2 (fun d hd artifact => (hlinks.2 d hd artifact).extends hext) hsources' hapart
    generalize (directories.mapM (regenerateDirectory options) : StateM Tree (List (Bool × Output))) run.2 = runs at *
    refine ⟨?_, .cons (fun hok artifact hartifact => ?_) hmade'⟩
    · refine (hext.mono fun name ⟨a, hname⟩ => ⟨directory, List.mem_cons_self, a, hname⟩).trans (hext'.mono ?_)
      exact fun name ⟨d, hd, a, hname⟩ => ⟨d, List.mem_cons_of_mem _ hd, a, hname⟩
    · obtain ⟨tx, hload, hleads⟩ := hmade hok artifact hartifact
      refine ⟨tx, hsources.1.2 ▸ hload, hleads.extends hext' ?_⟩
      rintro ⟨d, hd, a, hsame⟩
      exact hother d hd artifact a hsame

/-- The directories of which artifacts are made. -/
def selected (options : RegenerateOptions) (directories : List String) : List String :=
  match options.transaction with
  | none => directories
  | some name => Discovery.named name directories

theorem selected_sublist (directories : List String) :
    (selected options directories).Sublist directories := by
  unfold selected Discovery.named
  split
  · exact .refl _
  · exact List.filter_sublist

theorem runRegenerate_selected {directories : List String}
    (hfound : Discovery.directoriesIn options.protocol t = .ok directories) (hsome : selected options directories ≠ []) :
    (runRegenerate options : StateM Tree CommandResult) t =
      (regenerateAll options (selected options directories) : StateM Tree CommandResult) t := by
  unfold runRegenerate
  rw [Tree.bind_apply, Discovery.transactionDirectories_eq, hfound]
  unfold selected at hsome ⊢
  cases directories with
  | nil => cases htransaction : options.transaction <;> simp [htransaction, Discovery.named] at hsome
  | cons d ds =>
    cases htransaction : options.transaction with
    | none => rfl
    | some name =>
      rw [htransaction] at hsome
      obtain ⟨first, more, hnamed⟩ := List.exists_cons_of_ne_nil hsome
      simp only [hnamed]

/-- The run reports on the selected directories, and leaves the tree that making their artifacts leaves. -/
theorem runRegenerate_apply {directories : List String}
    (hfound : Discovery.directoriesIn options.protocol t = .ok directories) (hsome : selected options directories ≠ []) :
    let run := (runRegenerate options : StateM Tree CommandResult) t
    let each := ((selected options directories).mapM (regenerateDirectory options) : StateM Tree (List (Bool × Output))) t
    run.2 = each.2 ∧ ∃ report, run.1.output.out = report ++ "Done: " ++ toString (each.1.filter Prod.fst).length ++
      " succeeded, " ++ toString (each.1.filter fun r => !r.1).length ++ " failed\n" := by
  rw [runRegenerate_selected options hfound hsome]
  unfold regenerateAll
  rw [Tree.bind_apply]
  generalize ((selected options directories).mapM (regenerateDirectory options) : StateM Tree (List (Bool × Output))) t = each
  obtain ⟨results, u⟩ := each
  have hcount : results.length - (results.filter fun r => !r.1).length = (results.filter Prod.fst).length := by
    have := List.length_eq_length_filter_add (l := results) Prod.fst
    omega
  have hout : ∀ a b : Output, (a ++ b).out = a.out ++ b.out := fun _ _ => rfl
  refine ⟨rfl, (Output.line ("Found " ++ toString (selected options directories).length ++ " transaction(s)") ++ .line "" ++
    .concat (results.map Prod.snd)).out, ?_⟩
  rw [← hcount, Tree.pure_apply, hout]
  simp only [Output.line, String.append_assoc]
  rfl

/-! ## Artifacts of different transactions -/

/-- Where the artifacts of directories cannot meet: the names of the directories have different stems, no link stands
where an artifact goes, and no transaction file is a link to one. -/
structure KeptApart (t : Tree) (directories : List String) : Prop where
  stems : ∀ d ∈ directories, ∀ e ∈ directories,
    Artifact.stem (Artifact.directoryName d) = Artifact.stem (Artifact.directoryName e) → d = e
  links : ∀ name, ArtifactName directories name → NoLink name t
  sources : ∀ d ∈ directories, ∀ names, t.resolve (Path.join d transactionFile) = .ok names →
    ∀ name ∈ names.getLast?, ¬ ArtifactName directories name

section Found

variable {options} {directories : List String} (ht : t.Proper)
  (hfound : Discovery.directoriesIn options.protocol t = .ok directories)

include ht hfound

theorem isEntry_directoryName {d : String} (hd : d ∈ directories) : IsEntry (Artifact.directoryName d) := by
  obtain ⟨name, hname, rfl, -⟩ := Discovery.mem_directories ht hfound hd
  rwa [Artifact.directoryName_join _ hname]

theorem directoryName_injective {d e : String} (hd : d ∈ directories) (he : e ∈ directories)
    (h : Artifact.directoryName d = Artifact.directoryName e) : d = e := by
  obtain ⟨name, hname, rfl, -⟩ := Discovery.mem_directories ht hfound hd
  obtain ⟨name', hname', rfl, -⟩ := Discovery.mem_directories ht hfound he
  rw [Artifact.directoryName_join _ hname, Artifact.directoryName_join _ hname'] at h
  rw [h]

/-- Directories whose names have different stems have artifacts with different names. -/
theorem fileName_injective {d e : String} (hd : d ∈ directories) (he : e ∈ directories)
    (hstem : Artifact.stem (Artifact.directoryName d) = Artifact.stem (Artifact.directoryName e) → d = e) {a b : Artifact}
    (h : a.fileName d = b.fileName e) : a = b ∧ d = e := by
  obtain ⟨rfl, hkey⟩ := Artifact.fileName_eq_iff.1 h
  cases a with
  | markdown => exact ⟨rfl, directoryName_injective ht hfound hd he hkey⟩
  | python => exact ⟨rfl, hstem hkey⟩

/-- The artifacts of the transactions of a protocol have different paths exactly when the names of their directories have
different stems. -/
theorem outputPaths_apart_iff :
    (∀ d ∈ directories, ∀ e ∈ directories, ∀ a b : Artifact,
      Path.components (a.outputPath d none options.protocol) = Path.components (b.outputPath e none options.protocol) →
        a = b ∧ d = e) ↔
    ∀ d ∈ directories, ∀ e ∈ directories,
      Artifact.stem (Artifact.directoryName d) = Artifact.stem (Artifact.directoryName e) → d = e := by
  constructor
  · intro h d hd e he hstem
    -- the stubs go to one directory, under the stem
    refine (h d hd e he .python .python (congrArg Path.components ?_)).2
    simp only [Artifact.outputPath, Artifact.fileName, hstem]
    rfl
  · intro h d hd e he a b hpath
    have hlast := congrArg List.getLast? hpath
    rw [a.getLast?_outputPath (isEntry_directoryName ht hfound hd), b.getLast?_outputPath (isEntry_directoryName ht hfound he),
      Option.some_inj, Path.Component.name.injEq] at hlast
    exact fileName_injective ht hfound hd he (h d hd e he) hlast

theorem sourceApart_of_found {d : String} (hd : d ∈ directories) {avoid : String → Prop}
    (havoid : ∀ names, t.resolve (Path.join d transactionFile) = .ok names → ∀ name ∈ names.getLast?, ¬ avoid name) :
    SourceApart avoid t d := by
  obtain ⟨-, -, -, hkind⟩ := Discovery.mem_directories ht hfound hd
  rw [Tree.kind_eq] at hkind
  obtain ⟨names, hresolve, hkind⟩ := Option.bind_eq_some_iff.1 hkind
  obtain ⟨n, hfind, hkind⟩ := Option.bind_eq_some_iff.1 hkind
  have hresolve : t.resolve (Path.join d transactionFile) = .ok names := by
    cases hnames : t.resolve (Path.join d transactionFile) <;> rw [hnames] at hresolve <;> cases hresolve
    rfl
  cases n with
  | file content mode => exact ⟨names, content, mode, hresolve, hfind, havoid names hresolve⟩
  | link | directory => cases hkind

end Found

/-! ### A protocol with two transactions -/

/-- A protocol with two transactions, in directories with the given names. -/
def twoTransactions (first second : String) : Tree :=
  let source (name : String) : String :=
    "transaction " ++ name ++ " \x7bactor A \x7b\x7d message M A -> A \x7b\x7d entry block S \x7bsend M\x7d\x7d"
  let directory (name : String) : Node := .directory [(transactionFile, .file (.text (source name)) none)] none
  ⟨[("protocol", .directory [("transactions", .directory
    [(first, directory "Lock"), (second, directory "Settle")] none)] none)]⟩

def twoTransactionsProtocol : Protocol := ⟨"protocol", "stubs"⟩

theorem twoTransactions_proper {first second : String} (hfirst : IsEntry first) (hsecond : IsEntry second)
    (hne : first ≠ second) : (twoTransactions first second).Proper := by
  refine Tree.every_of_all ?_
  have hfixed : IsEntry "protocol" ∧ IsEntry "transactions" ∧ IsEntry transactionFile := by decide
  simp [Tree.root, twoTransactions, Node.All, Node.AllIn, Node.HasProperEntries, hfirst, hsecond, hne, hfixed]

theorem twoTransactions_noLink (first second name : String) : NoLink name (twoTransactions first second) := by
  have hnodes : (twoTransactions first second).Every fun n => ∀ target, n ≠ .link target := by
    refine Tree.every_of_all ?_
    simp [Tree.root, twoTransactions, Node.All, Node.AllIn]
  exact fun above target hfind => hnodes _ _ hfind target rfl

/-- Both directories are found, with a transaction file each. -/
theorem resolve_twoTransactions (first second : String) {name : String} (hname : IsEntry name)
    (hmem : name = first ∨ name = second) :
    (twoTransactions first second).kind (Path.join "protocol/transactions" name) = some .directory ∧
      (twoTransactions first second).resolve (Path.join (Path.join "protocol/transactions" name) transactionFile) =
        .ok ["protocol", "transactions", name, transactionFile] ∧
      (twoTransactions first second).kind (Path.join (Path.join "protocol/transactions" name) transactionFile) =
        some .file := by
  have hfile : IsEntry transactionFile := by decide
  have hsteps : Tree.steps "protocol/transactions" = ["protocol", "transactions"] := rfl
  have hdirectories : ∀ step ∈ ["protocol", "transactions", name], IsEntry step := by
    simp only [List.forall_mem_cons]
    exact ⟨by decide, by decide, hname, nofun⟩
  have hall : ∀ step ∈ ["protocol", "transactions", name, transactionFile], IsEntry step := by
    simp only [List.forall_mem_cons] at hdirectories ⊢
    exact ⟨hdirectories.1, hdirectories.2.1, hname, hfile, nofun⟩
  obtain ⟨⟨entries, hdirectory⟩, content, hcontent⟩ :
      (∃ entries, (twoTransactions first second).find? ["protocol", "transactions", name] = some (.directory entries none)) ∧
      ∃ content, (twoTransactions first second).find? ["protocol", "transactions", name, transactionFile] =
        some (.file content none) := by
    by_cases hfirst : name = first
    · simp [twoTransactions, Tree.find?, Tree.findFrom, Tree.root, hfirst]
    · obtain rfl := hmem.resolve_left hfirst
      simp [twoTransactions, Tree.find?, Tree.findFrom, Tree.root, List.lookup_cons, beq_false_of_ne hfirst]
  have hpath := Tree.allSteps_join "protocol/transactions" hname
  have hpath' := Tree.allSteps_join (Path.join "protocol/transactions" name) hfile
  rw [hsteps] at hpath
  rw [Tree.steps_join _ hname, hsteps] at hpath'
  refine ⟨?_, ?_, ?_⟩
  · exact Tree.kind_of_find? (Tree.join_ne_empty _ hname) hpath hdirectories hdirectory rfl
  · exact Tree.resolve_of_find? (Tree.join_ne_empty _ hfile) hpath' hall hcontent rfl
  · exact Tree.kind_of_find? (Tree.join_ne_empty _ hfile) hpath' hall hcontent rfl

theorem directories_of_twoTransactions {first second : String} (hfirst : IsEntry first) (hsecond : IsEntry second)
    (hdrawings : first ≠ drawingsDirectory ∧ second ≠ drawingsDirectory) (hle : first ≤ second) :
    Discovery.directoriesIn twoTransactionsProtocol (twoTransactions first second) =
      .ok [Path.join "protocol/transactions" first, Path.join "protocol/transactions" second] := by
  have htransactions : twoTransactionsProtocol.transactions = "protocol/transactions" := rfl
  obtain ⟨hkind, -, hfile⟩ := resolve_twoTransactions first second hfirst (.inl rfl)
  obtain ⟨hkind', -, hfile'⟩ := resolve_twoTransactions first second hsecond (.inr rfl)
  have hdirectory : (twoTransactions first second).kind "protocol/transactions" = some .directory :=
    Tree.kind_of_find? (by decide) rfl (by decide) rfl rfl
  have hlist : (twoTransactions first second).list "protocol/transactions" = .ok [first, second] := by
    unfold Tree.list
    rw [Tree.get_of_find? (by decide) rfl (by decide) rfl rfl]
    rfl
  unfold Discovery.directoriesIn
  rw [htransactions, hdirectory, hlist]
  have hholds : ∀ name ∈ [first, second],
      Discovery.holdsTransaction (twoTransactions first second) "protocol/transactions" name = true := by
    simp [Discovery.holdsTransaction, hdrawings, hkind, hkind', hfile, hfile']
  simp only [beq_self_eq_true, if_true, List.filter_eq_self.2 hholds]
  refine congrArg Except.ok (List.mergeSort_of_pairwise (List.pairwise_pair.2 ?_))
  exact (Path.le_join_iff _ hfirst hsecond).2 hle

theorem keptApart_twoTransactions {first second : String} (hfirst : IsEntry first) (hsecond : IsEntry second)
    (hstem : Artifact.stem first ≠ Artifact.stem second) :
    KeptApart (twoTransactions first second)
      [Path.join "protocol/transactions" first, Path.join "protocol/transactions" second] := by
  constructor
  case stems =>
    intro d hd e he hsame
    rcases List.mem_pair.1 hd with rfl | rfl <;> rcases List.mem_pair.1 he with rfl | rfl
    · rfl
    · rw [Artifact.directoryName_join _ hfirst, Artifact.directoryName_join _ hsecond] at hsame
      exact absurd hsame hstem
    · rw [Artifact.directoryName_join _ hfirst, Artifact.directoryName_join _ hsecond] at hsame
      exact absurd hsame.symm hstem
    · rfl
  case links => exact fun name _ => twoTransactions_noLink first second name
  case sources =>
    intro d hd names hresolve last hlast
    obtain ⟨name, hname, hmem, rfl⟩ : ∃ name, IsEntry name ∧ (name = first ∨ name = second) ∧
        d = Path.join "protocol/transactions" name := by
      rcases List.mem_pair.1 hd with rfl | rfl
      · exact ⟨first, hfirst, .inl rfl, rfl⟩
      · exact ⟨second, hsecond, .inr rfl, rfl⟩
    rw [(resolve_twoTransactions first second hname hmem).2.1] at hresolve
    cases hresolve
    obtain rfl : transactionFile = last := by simpa using hlast
    exact not_artifactName_transactionFile _

/-! ### Runs -/

/-- From the results of a list, those of its members whose result is a success. -/
theorem exists_sublist_of_forall₂ {α β : Type} {P : α → Prop} (ok : β → Bool) {xs : List α} {ys : List β}
    (h : List.Forall₂ (fun x y => ok y = true → P x) xs ys) :
    ∃ zs : List α, zs.Sublist xs ∧ zs.length = (ys.filter ok).length ∧ ∀ z ∈ zs, P z := by
  induction h with
  | nil => exact ⟨[], .slnil, rfl, nofun⟩
  | @cons x y xs ys hxy _ ih =>
    obtain ⟨zs, hsub, hlength, hzs⟩ := ih
    cases hok : ok y with
    | false => exact ⟨zs, hsub.cons x, by rw [List.filter_cons_of_neg (by simp [hok]), hlength], hzs⟩
    | true =>
      refine ⟨x :: zs, hsub.cons_cons x, ?_, List.forall_mem_cons.2 ⟨hxy hok, hzs⟩⟩
      rw [List.filter_cons_of_pos hok, List.length_cons, List.length_cons, hlength]

/-- The artifacts of the transactions of a protocol have different paths exactly when the names of their directories have
different stems. If they do, and no link makes two files one, the artifacts that a run makes are different files, each of
which holds its own transaction: as many of every kind as the run reports to have succeeded. -/
theorem regenerate_keeps_artifacts_apart {directories : List String} (ht : t.Proper)
    (hfound : Discovery.directoriesIn options.protocol t = .ok directories) :
    ((∀ d ∈ directories, ∀ e ∈ directories, ∀ a b : Artifact,
      Path.components (a.outputPath d none options.protocol) = Path.components (b.outputPath e none options.protocol) →
        a = b ∧ d = e) ↔
      ∀ d ∈ directories, ∀ e ∈ directories,
        Artifact.stem (Artifact.directoryName d) = Artifact.stem (Artifact.directoryName e) → d = e) ∧
    (selected options directories ≠ [] → KeptApart t (selected options directories) →
      let run := (runRegenerate options : StateM Tree CommandResult) t
      ∃ made : List String, made.Sublist (selected options directories) ∧ made.Nodup ∧
        (∃ report, run.1.output.out = report ++ "Done: " ++ toString made.length ++ " succeeded, " ++
          toString ((selected options directories).length - made.length) ++ " failed\n") ∧
        (∀ d ∈ made, ∀ a ∈ wantedBy options, ∃ tx, transactionIn t d = .ok tx ∧
          run.2.read (a.outputPath d none options.protocol) = .ok (a.render tx)) ∧
        ∀ d ∈ made, ∀ e ∈ made, ∀ a ∈ wantedBy options, ∀ b ∈ wantedBy options,
          run.2.resolve (a.outputPath d none options.protocol) = run.2.resolve (b.outputPath e none options.protocol) →
            a = b ∧ d = e) := by
  refine ⟨outputPaths_apart_iff ht hfound, fun hsome hkept => ?_⟩
  have hsub := selected_sublist options directories
  have hnodup := hsub.nodup (Discovery.directories_nodup ht hfound)
  have hnames : ∀ d ∈ selected options directories, ∀ e ∈ selected options directories, ∀ a b : Artifact,
      a.fileName d = b.fileName e → a = b ∧ d = e := fun d hd e he a b =>
    fileName_injective ht hfound (hsub.subset hd) (hsub.subset he) (hkept.stems d hd e he)
  -- the conditions under which making the artifacts of one directory after the other keeps them apart
  have hsources : ∀ d ∈ selected options directories,
      SourceApart (ArtifactName (selected options directories)) t d ∧ transactionIn t d = transactionIn t d :=
    fun d hd => ⟨sourceApart_of_found ht hfound (hsub.subset hd) (hkept.sources d hd), rfl⟩
  have heach := regenerateEach_makes options t (fun d hd => isEntry_directoryName ht hfound (hsub.subset hd))
    (fun d hd artifact => ⟨d, hd, artifact, rfl⟩) (fun d hd artifact => hkept.links _ ⟨d, hd, artifact, rfl⟩) hsources
    (hnodup.pairwise_of_forall_ne fun d hd e he hne a b hsame => hne (hnames d hd e he a b hsame).2)
  obtain ⟨htree, report, hreport⟩ := runRegenerate_apply options hfound hsome
  obtain ⟨-, hresults⟩ := heach
  obtain ⟨made, hmade, hlength, hartifacts⟩ := exists_sublist_of_forall₂ Prod.fst hresults
  have hcount := hresults.length_eq
  generalize ((selected options directories).mapM (regenerateDirectory options) : StateM Tree (List (Bool × Output))) t =
    each at *
  have hfailed : (each.1.filter fun r => !r.1).length = (selected options directories).length - made.length := by
    have := List.length_eq_length_filter_add (l := each.1) Prod.fst
    omega
  refine ⟨made, hmade, hmade.nodup hnodup, ⟨report, ?_⟩, fun d hd a ha => ?_, fun d hd e he a ha b hb hresolve => ?_⟩
  · rw [hreport, hfailed, hlength]
  · obtain ⟨tx, hload, hleads⟩ := hartifacts d hd a ha
    exact ⟨tx, hload, htree ▸ hleads.read⟩
  · obtain ⟨-, -, above, -, hplace, -⟩ := hartifacts d hd a ha
    obtain ⟨-, -, above', -, hplace', -⟩ := hartifacts e he b hb
    rw [htree, hplace, hplace', Except.ok.injEq] at hresolve
    refine hnames d (hmade.subset hd) e (hmade.subset he) a b ?_
    simpa using congrArg List.getLast? hresolve

/-- The directories `00_lock` and `01_settle` have different stems: what a run makes of them is in place. -/
theorem regenerate_of_lock_and_settle :
    let t := twoTransactions "00_lock" "01_settle"
    let directories := ["protocol/transactions/00_lock", "protocol/transactions/01_settle"]
    let options : RegenerateOptions := ⟨false, none, twoTransactionsProtocol, false, false⟩
    t.Proper ∧ Discovery.directoriesIn options.protocol t = .ok directories ∧ KeptApart t directories ∧
      let run := (runRegenerate options : StateM Tree CommandResult) t
      ∃ made : List String, made.Sublist directories ∧
        (∃ report, run.1.output.out = report ++ "Done: " ++ toString made.length ++ " succeeded, " ++
          toString (2 - made.length) ++ " failed\n") ∧
        ∀ d ∈ made, ∀ a : Artifact, ∃ tx, transactionIn t d = .ok tx ∧
          run.2.read (a.outputPath d none options.protocol) = .ok (a.render tx) := by
  have hproper : (twoTransactions "00_lock" "01_settle").Proper :=
    twoTransactions_proper (by decide) (by decide) (by decide)
  have hfound : Discovery.directoriesIn twoTransactionsProtocol (twoTransactions "00_lock" "01_settle") =
      .ok ["protocol/transactions/00_lock", "protocol/transactions/01_settle"] :=
    directories_of_twoTransactions (by decide) (by decide) (by decide) (by decide)
  have hkept : KeptApart (twoTransactions "00_lock" "01_settle")
      ["protocol/transactions/00_lock", "protocol/transactions/01_settle"] :=
    keptApart_twoTransactions (by decide) (by decide) (by decide)
  obtain ⟨-, hrun⟩ := regenerate_keeps_artifacts_apart ⟨false, none, twoTransactionsProtocol, false, false⟩ hproper hfound
  obtain ⟨made, hmade, -, hreport, hartifacts, -⟩ := hrun (List.cons_ne_nil _ _) hkept
  refine ⟨hproper, hfound, hkept, made, hmade, hreport, fun d hd a => hartifacts d hd a ?_⟩
  cases a <;> decide

/-- The stubs of `00_escrow` and `01_escrow` go to one file. -/
theorem stubs_of_two_escrows :
    Discovery.directoriesIn twoTransactionsProtocol (twoTransactions "00_escrow" "01_escrow") =
      .ok ["protocol/transactions/00_escrow", "protocol/transactions/01_escrow"] ∧
    Artifact.python.outputPath "protocol/transactions/00_escrow" none twoTransactionsProtocol =
      Artifact.python.outputPath "protocol/transactions/01_escrow" none twoTransactionsProtocol := by
  exact ⟨directories_of_twoTransactions (by decide) (by decide) (by decide) (by decide), rfl⟩

end Command

end Parley
