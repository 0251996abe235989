/-
The command that checks files, on a tree. It changes the tree by checking the files only: finding
them and reporting on them just reads. Which files are found depends on the names in the tree and
not on what files hold.
-/
import Parley.Command.Lint
import Parley.Proofs.Files.Replace

namespace Parley

namespace Tree

theorem pure_apply {α : Type} (x : α) (t : Tree) : (pure x : StateM Tree α) t = (x, t) := rfl

theorem bind_apply {α β : Type} (a : StateM Tree α) (f : α → StateM Tree β) (t : Tree) :
    (a >>= f) t = f (a t).1 (a t).2 := rfl

/-- An operation that changes nothing. -/
def ReadsOnly {α : Type} (a : StateM Tree α) : Prop := ∀ t, (a t).2 = t

section ReadsOnly

variable {α β : Type}

theorem readsOnly_pure (x : α) : ReadsOnly (pure x : StateM Tree α) := fun _ => rfl

theorem ReadsOnly.bind {a : StateM Tree α} {f : α → StateM Tree β} (ha : ReadsOnly a) (hf : ∀ x, ReadsOnly (f x)) :
    ReadsOnly (a >>= f) := by
  intro t
  rw [bind_apply, hf, ha]

theorem ReadsOnly.mapM {f : α → StateM Tree β} (hf : ∀ x, ReadsOnly (f x)) (xs : List α) : ReadsOnly (xs.mapM f) := by
  induction xs with
  | nil => exact readsOnly_pure []
  | cons x xs ih =>
    rw [List.mapM_cons]
    exact (hf x).bind fun _ => ih.bind fun _ => readsOnly_pure _

end ReadsOnly

end Tree

namespace Discovery

/-- The transaction files that a tree holds. -/
def found (protocol : Protocol) (t : Tree) : Except DiscoveryError (List String) :=
  if t.kind protocol.transactions == some .directory then
    match t.survey protocol.transactions with
    | .error e => .error ⟨protocol.transactions, e⟩
    | .ok entries => .ok (Path.sort (filesBelow protocol.transactions entries))
  else .ok []

theorem found_congr {t t' : Tree} (h : Tree.SameNames t t') (protocol : Protocol) : found protocol t' = found protocol t := by
  unfold found
  rw [h.kind, h.survey]

theorem transactionFiles_eq (protocol : Protocol) (t : Tree) :
    (transactionFiles protocol : StateM Tree (Except DiscoveryError (List String))) t = (found protocol t, t) := by
  unfold transactionFiles isDirectory found
  simp only [bind, StateT.bind, FileAccess.kind, FileAccess.survey, Tree.pure_apply]
  cases t.kind protocol.transactions == some .directory with
  | false => rfl
  | true =>
    simp only [if_true, StateT.bind]
    generalize t.survey protocol.transactions = entries
    cases entries with
    | error e => rfl
    | ok entries => rfl

end Discovery

namespace Command

theorem readsOnly_sourceFor (pretty : Bool) (path : String) :
    Tree.ReadsOnly (sourceFor pretty path : StateM Tree (Option String)) := by
  unfold sourceFor
  split
  · exact Tree.ReadsOnly.bind (fun _ => rfl) fun _ => Tree.readsOnly_pure _
  · exact Tree.readsOnly_pure _

theorem readsOnly_reportFiles (pretty : Bool) (reports : List FileReport) :
    Tree.ReadsOnly (reportFiles pretty reports : StateM Tree String) := by
  unfold reportFiles
  refine Tree.ReadsOnly.bind (Tree.ReadsOnly.mapM (fun r => ?_) reports) fun _ => Tree.readsOnly_pure _
  refine (readsOnly_sourceFor pretty r.path).bind fun source => ?_
  apply Tree.readsOnly_pure

theorem readsOnly_report (options : LintOptions) (files : List String) (reports : List FileReport) :
    Tree.ReadsOnly (report options files reports : StateM Tree String) := by
  unfold report
  split
  · exact Tree.readsOnly_pure _
  · exact (readsOnly_reportFiles options.pretty reports).bind fun _ => Tree.readsOnly_pure _

/-- The tree that checking files and reporting on them leaves is the one that checking them leaves. -/
theorem lintAndReport_tree (options : LintOptions) (files : List String) (t : Tree) :
    ((lintAndReport options files : StateM Tree CommandResult) t).2 =
      ((lintFiles files options.fix : StateM Tree (List FileReport)) t).2 := by
  unfold lintAndReport
  generalize (lintFiles files options.fix : StateM Tree (List FileReport)) = check
  exact (readsOnly_report options files (check t).1).bind (fun _ => Tree.readsOnly_pure _) (check t).2

/-- The files that the command checks on a tree. -/
def filesOf (options : LintOptions) (t : Tree) : List String :=
  if options.all then
    (Discovery.found { Protocol.default with directory := options.protocolDirectory } t).toOption.getD []
  else options.files

theorem filesOf_congr {t t' : Tree} (h : Tree.SameNames t t') (options : LintOptions) :
    filesOf options t' = filesOf options t := by
  unfold filesOf
  rw [Discovery.found_congr h]

theorem lintFiles_nil (fix : Bool) (t : Tree) : ((lintFiles [] fix : StateM Tree (List FileReport)) t).2 = t := by
  unfold lintFiles Path.sort
  rw [List.mergeSort_nil]
  rfl

/-- The command checks its files and reports on them if it has any. -/
theorem runLint_of_files (environment : Option String) {options : LintOptions} {t : Tree} (hfiles : filesOf options t ≠ []) :
    (runLint environment options : StateM Tree CommandResult) t =
      (lintAndReport options (filesOf options t) : StateM Tree CommandResult) t := by
  unfold runLint
  unfold filesOf at hfiles ⊢
  by_cases hall : options.all = true
  · rw [if_pos hall] at hfiles
    rw [if_pos hall, if_pos hall, Tree.bind_apply, Discovery.transactionFiles_eq]
    cases hfound : Discovery.found { Protocol.default with directory := options.protocolDirectory } t with
    | error e => exact absurd (by rw [hfound]; rfl) hfiles
    | ok found =>
      cases found with
      | nil => exact absurd (by rw [hfound]; rfl) hfiles
      | cons file files => rfl
  · rw [if_neg hall] at hfiles
    rw [if_neg hall, if_neg hall, if_neg (by simpa using hfiles)]

/-- The command leaves the tree that checking its files leaves. -/
theorem runLint_tree (environment : Option String) (options : LintOptions) (t : Tree) :
    ((runLint environment options : StateM Tree CommandResult) t).2 =
      ((lintFiles (filesOf options t) options.fix : StateM Tree (List FileReport)) t).2 := by
  unfold runLint filesOf
  by_cases hall : options.all = true
  · rw [if_pos hall, if_pos hall]
    simp only [bind, StateT.bind, Discovery.transactionFiles_eq]
    rcases Discovery.found _ t with e | (_ | ⟨file, files⟩)
    · exact (lintFiles_nil options.fix t).symm
    · exact (lintFiles_nil options.fix t).symm
    · exact lintAndReport_tree options (file :: files) t
  · rw [if_neg hall, if_neg hall]
    split
    · rename_i hnone
      rw [List.isEmpty_iff.1 hnone, lintFiles_nil]
      rfl
    · exact lintAndReport_tree options options.files t

end Command

end Parley
