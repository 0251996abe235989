/-
Where artifacts go. The artifacts of the transaction directories of a protocol go to different files,
unless two directories have names with one stem: then their Python stubs go to the same file.
-/
import Parley.Artifact.Basic
import Parley.Proofs.Files.Name

namespace Parley

namespace Artifact

theorem directoryName_join (base : String) {name : String} (h : IsEntry name) : directoryName (Path.join base name) = name := by
  rw [directoryName, Path.fileName?_join base h, Option.getD_some]

theorem mem_stem {name : String} {c : Char} (h : c ∈ (stem name).toList) : c ∈ name.toList := by
  unfold stem at h
  split at h
  · exact h
  · rename_i d rest hrest
    rw [String.toList_ofList] at h
    exact (List.dropWhile_suffix _).mem (hrest ▸ List.mem_cons_of_mem d h)

/-- A text with an ending that has no slash and is longer than two characters is a name. -/
theorem isEntry_append {name ending : String} (hname : '/' ∉ name.toList) (hending : '/' ∉ ending.toList)
    (hlength : 2 < ending.toList.length) : IsEntry (name ++ ending) := by
  have hlong : 2 < (name ++ ending).toList.length := by
    rw [String.toList_append, List.length_append]
    omega
  constructor
  case ne_nil => exact List.ne_nil_of_length_pos (by omega)
  case no_slash => rw [String.toList_append, List.mem_append, not_or]; exact ⟨hname, hending⟩
  case ne_current => rintro heq; rw [heq] at hlong; exact absurd hlong (by decide)
  case ne_parent => rintro heq; rw [heq] at hlong; exact absurd hlong (by decide)

theorem isEntry_fileName (artifact : Artifact) {directory : String} (h : IsEntry (directoryName directory)) :
    IsEntry (artifact.fileName directory) := by
  cases artifact with
  | markdown => exact isEntry_append h.no_slash (by decide) (by decide)
  | python => exact isEntry_append (mt mem_stem h.no_slash) (by decide) (by decide)

/-- What the name of an artifact's file tells of the directory. -/
def key : Artifact → String → String
  | markdown => directoryName
  | python => stem ∘ directoryName

theorem getLast?_markdown (directory : String) : (markdown.fileName directory).toList.getLast? = some 'd' := by
  rw [fileName, String.toList_append, List.getLast?_append]
  rfl

theorem getLast?_python (directory : String) : (python.fileName directory).toList.getLast? = some 'y' := by
  rw [fileName, String.toList_append, List.getLast?_append]
  rfl

/-- The file of an artifact tells by its name which artifact it is, and the key of its directory. -/
theorem fileName_eq_iff {a b : Artifact} {d e : String} : a.fileName d = b.fileName e ↔ a = b ∧ a.key d = b.key e := by
  have hne : ∀ d e, markdown.fileName d ≠ python.fileName e := by
    intro d e h
    have hlast := getLast?_markdown d
    rw [h, getLast?_python] at hlast
    cases hlast
  cases a <;> cases b
  · simp [fileName, key]
  · exact ⟨fun h => absurd h (hne d e), fun h => by cases h.1⟩
  · exact ⟨fun h => absurd h.symm (hne e d), fun h => by cases h.1⟩
  · simp [fileName, key]

/-- The components of a path to an artifact end in the name of its file. -/
theorem getLast?_outputPath (artifact : Artifact) {directory : String} (h : IsEntry (directoryName directory))
    (output : Option String) (protocol : Protocol) :
    (Path.components (artifact.outputPath directory output protocol)).getLast? = some (.name (artifact.fileName directory)) :=
  Path.getLast?_components_join _ (artifact.isEntry_fileName h)

/-- The directory of transactions ends in a name. -/
theorem reverse_transactions (protocol : Protocol) : ∃ cs, protocol.transactions.toList.reverse = 's' :: cs := by
  have hentry : IsEntry "transactions" := by decide
  have hreverse : "transactions".toList.reverse = 's' :: "noitcasnart".toList := by decide
  rcases Path.toList_join protocol.directory hentry with ⟨-, hchars⟩ | ⟨cs, -, hchars⟩
  · exact ⟨_, (congrArg List.reverse hchars).trans hreverse⟩
  · refine ⟨"noitcasnart".toList ++ (cs ++ ['/']).reverse, ?_⟩
    rw [Protocol.transactions, hchars, List.append_cons, List.reverse_append, hreverse, List.cons_append]

/-- The Markdown of a transaction lies beside its directory. -/
theorem outputPath_markdown (protocol : Protocol) {name : String} (h : IsEntry name) :
    markdown.outputPath (Path.join protocol.transactions name) none protocol = Path.join protocol.transactions (name ++ ".md") := by
  obtain ⟨cs, hcs⟩ := reverse_transactions protocol
  rw [outputPath, fileName, directoryName_join _ h, Option.getD_none, defaultDirectory,
    Path.parent?_join h hcs (by decide) (by decide), Option.getD_some]

end Artifact

end Parley
