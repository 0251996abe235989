/-
The blocks of a stub. The member for a block is made of the words of its name in capitals, so blocks with
the same words get the same member, and a member is an identifier if the name leads with a letter. When
Python runs the part of a stub that is about blocks it gets back the blocks, the entry blocks and the `goto`
edges of the transaction, if no two blocks share their words and all lead with a letter; otherwise it fails.
-/
import Parley.Artifact.Stub
import Parley.Proofs.Analysis.Repair
import Parley.Proofs.Grammar.Parts
import Parley.Proofs.Text.Casing
import Mathlib

namespace Parley.Stub

open Casing

/-! ## Members -/

theorem toList_member (name : String) :
    (member name).toList = (['_'].intercalate (words name.toList)).map Char.toUpper := by
  rw [member, String.toUpper, String.toList_map, respell, String.toList_ofList]

section Names

variable {name : String} (hname : ∀ c ∈ name.toList, CharClass.continuesName c = true)

include hname

/-- Words joined by underscores have small letters, digits and underscores only. -/
theorem mem_joined {c : Char} (hc : c ∈ ['_'].intercalate (words name.toList)) : isSmall c = true ∨ c = '_' := by
  have hwords := forall_words hname
  cases hcase : words name.toList with
  | nil => rw [hcase] at hc; cases hc
  | cons w ws =>
    rw [hcase] at hc hwords
    rw [intercalate_cons] at hc
    rcases List.mem_append.1 hc with hc | hc
    · exact .inl ((hwords w List.mem_cons_self).2 c hc)
    · obtain ⟨v, hv, hc⟩ := List.mem_flatMap.1 hc
      exact (List.mem_cons.1 hc).symm.imp_left ((hwords v (List.mem_cons_of_mem _ hv)).2 c)

/-- The words of a name are told by its member. -/
theorem words_of_member : words ((member name).toList.map Char.toLower) = words name.toList := by
  have hsmall : (member name).toList.map Char.toLower = ['_'].intercalate (words name.toList) := by
    rw [toList_member, List.map_map]
    refine (List.map_congr_left fun c hc => ?_).trans (List.map_id _)
    rcases mem_joined hname hc with hc | rfl
    · exact (toUpper_spec hc).1
    · rfl
  rw [hsmall, words_intercalate (forall_words hname)]

end Names

theorem member_eq_iff {a b : String} (ha : ∀ c ∈ a.toList, CharClass.continuesName c = true)
    (hb : ∀ c ∈ b.toList, CharClass.continuesName c = true) : member a = member b ↔ words a.toList = words b.toList := by
  constructor
  · intro h
    rw [← words_of_member ha, ← words_of_member hb, h]
  · intro h
    rw [← String.toList_inj, toList_member, toList_member, h]

/-- The reserved words of Python. -/
def reserved : List String :=
  ["False", "None", "True", "and", "as", "assert", "async", "await", "break", "class", "continue", "def", "del", "elif",
    "else", "except", "finally", "for", "from", "global", "if", "import", "in", "is", "lambda", "nonlocal", "not", "or",
    "pass", "raise", "return", "try", "while", "with", "yield"]

/-- Whether Python takes a text for a name. -/
def isPythonName (text : String) : Bool :=
  text.toList.head?.any CharClass.startsName && text.toList.all CharClass.continuesName && !reserved.contains text

/-- A member is a name just when the first character of the block's name other than an underscore is a letter. -/
theorem isPythonName_member {name : String} (hname : ∀ c ∈ name.toList, CharClass.continuesName c = true) :
    isPythonName (member name) = true ↔ LeadsWithLetter name.toList := by
  have hchars : ∀ c ∈ (member name).toList, c.isLower = false ∧ CharClass.continuesName c = true := by
    intro c hc
    rw [toList_member] at hc
    obtain ⟨d, hd, rfl⟩ := List.mem_map.1 hc
    rcases mem_joined hname hd with hd | rfl
    · obtain ⟨-, hlower, halphanum, -⟩ := toUpper_spec hd
      exact ⟨hlower, continues_of_isAlphanum halphanum⟩
    · exact ⟨rfl, rfl⟩
  -- every reserved word has a small letter
  have hfree : reserved.contains (member name) = false := by
    have hlower : ∀ word ∈ reserved, word.toList.any Char.isLower = true := by decide
    rw [List.contains_eq_mem, decide_eq_false_iff_not]
    intro hmem
    obtain ⟨c, hc, hcl⟩ := List.any_eq_true.1 (hlower _ hmem)
    rw [(hchars c hc).1] at hcl
    cases hcl
  rw [isPythonName, hfree, List.all_eq_true.2 fun c hc => (hchars c hc).2, Bool.and_true, Bool.not_false, Bool.and_true]
  rcases words_cases hname with ⟨hnone, hfind⟩ | ⟨c, w, ws, hsome, hfind, hc⟩
  · have hempty : (member name).toList = [] := by rw [toList_member, hnone]; rfl
    simp [hempty, not_leadsWithLetter hfind]
  · have hhead : (member name).toList.head? = some c.toLower.toUpper := by
      rw [toList_member, hsome, intercalate_cons]
      rfl
    rw [hhead, leadsWithLetter_iff hfind, ← (toLower_spec hc).2.2.2.2.1]
    rfl

/-! ## What is written -/

/-- The part of a stub that is about blocks: the members of the enumeration with their values, the entry
blocks, and for each block a row with the members it goes to. -/
structure Flow where
  members : List (String × String)
  entries : List String
  rows : List (String × List String)
deriving DecidableEq, Repr

def Flow.lines (f : Flow) : List String :=
  ["", "", "class Block(Enum):"] ++ f.members.map (fun m => indent ++ m.1 ++ " = " ++ quoted m.2) ++
    ["", "", "ENTRY_BLOCKS = [" ++ commaSeparated (f.entries.map ("Block." ++ ·)) ++ "]", "", "TRANSITIONS = \x7b"] ++
    f.rows.map (fun r => indent ++ ("Block." ++ r.1) ++ ": [" ++ commaSeparated (r.2.map ("Block." ++ ·)) ++ "],") ++
    ["\x7d"]

/-- The blocks that a block goes to. -/
def targets (b : Block) : List String := b.statements.filterMap (·.action.gotoTarget?)

def flowOf (bs : List Block) : Flow where
  members := bs.map fun b => (member b.name, b.name)
  entries := (bs.filter (·.entry)).map fun b => member b.name
  rows := bs.map fun b => (member b.name, (targets b).map member)

theorem blocks_eq {bs : List Block} (h : bs ≠ []) : blocks bs = (flowOf bs).lines := by
  have hrow : ∀ b : Block, transitions b = indent ++ ("Block." ++ member b.name) ++ ": [" ++
      commaSeparated (((targets b).map member).map ("Block." ++ ·)) ++ "]," := fun b => by
    rw [List.map_map]
    rfl
  rw [blocks, if_neg (by simpa using h), Flow.lines, flowOf, List.map_map, List.map_map, List.map_map]
  exact congrArg (_ ++ · ++ _) (List.map_congr_left fun b _ => hrow b)

/-- A stub ends with the part about blocks. -/
theorem exists_render_flow {tx : Transaction} (h : tx.blocks ≠ []) :
    ∃ before, render tx = before ++ Lines.unlines (flowOf tx.blocks).lines := by
  refine ⟨Lines.unlines (opening tx ++ tx.messages.flatMap message ++ tx.functions.flatMap function), ?_⟩
  rw [render, blocks_eq h, Lines.unlines, List.map_append, String.join_append]
  rfl

/-! ## What Python makes of it -/

/-- What a stub says about blocks when it has been run: the blocks, those that are entries, and the targets
of each, all by the values of their members. -/
structure Machine where
  blocks : List String
  entries : List String
  transitions : List (String × List String)
deriving DecidableEq, Repr

/-- A key of a dictionary gets a value; a key that is there keeps its place. -/
def assign (d : List (String × List String)) (row : String × List String) : List (String × List String) :=
  if d.any (·.1 == row.1) then d.map fun entry => if entry.1 == row.1 then row else entry else d ++ [row]

namespace Flow

/-- What a member stands for. -/
def value? (f : Flow) (member : String) : Option String := f.members.lookup member

def row? (f : Flow) (row : String × List String) : Option (String × List String) := do
  let key ← f.value? row.1
  let targets ← row.2.mapM f.value?
  return (key, targets)

/-- Python refuses a member without a name, a member that there is already, and one that there is not. -/
def run (f : Flow) : Option Machine := do
  if f.members.all (fun m => isPythonName m.1) && decide (f.members.map Prod.fst).Nodup then
    let entries ← f.entries.mapM f.value?
    let rows ← f.rows.mapM f.row?
    return ⟨f.members.map Prod.snd, entries, rows.foldl assign []⟩
  else none

end Flow

/-- What a stub is to say about the blocks of a transaction. -/
def machineOf (tx : Transaction) : Machine where
  blocks := tx.blocks.map (·.name)
  entries := tx.entryNames
  transitions := tx.blocks.map fun b => (b.name, targets b)

/-- The rows of the transitions are the `goto` edges. -/
theorem gotoEdges_machineOf (tx : Transaction) :
    ((machineOf tx).transitions.flatMap fun row => row.2.map fun target => (row.1, target)) = tx.gotoEdges := by
  rw [machineOf, List.flatMap_map]
  rfl

theorem mapM_map_eq_some {α β γ : Type} {f : β → Option γ} {h : α → β} {g : α → γ} {xs : List α}
    (hf : ∀ x ∈ xs, f (h x) = some (g x)) : (xs.map h).mapM f = some (xs.map g) := by
  induction xs with
  | nil => rfl
  | cons x xs ih =>
    obtain ⟨hx, hxs⟩ := List.forall_mem_cons.1 hf
    rw [List.map_cons, List.mapM_cons, hx, ih hxs]
    rfl

/-- Rows with different keys are entries of their own. -/
theorem foldl_assign {rows d : List (String × List String)} (h : ((d ++ rows).map Prod.fst).Nodup) :
    rows.foldl assign d = d ++ rows := by
  induction rows generalizing d with
  | nil => rw [List.append_nil, List.foldl_nil]
  | cons row rows ih =>
    have hnew : ¬ d.any (·.1 == row.1) = true := by
      rw [List.map_append, List.map_cons, List.nodup_append] at h
      intro hany
      obtain ⟨entry, hentry, hkey⟩ := List.any_eq_true.1 hany
      exact h.2.2 _ (List.mem_map_of_mem hentry) _ List.mem_cons_self (eq_of_beq hkey)
    rw [List.append_cons] at h
    rw [List.foldl_cons, assign, if_neg hnew, ih h, List.append_assoc, List.singleton_append]

theorem lookup_of_mem {entries : List (String × String)} (h : (entries.map Prod.fst).Nodup) {key value : String}
    (hmem : (key, value) ∈ entries) : entries.lookup key = some value := by
  obtain ⟨us, vs, rfl⟩ := List.append_of_mem hmem
  rw [List.map_append, List.map_cons, List.nodup_append] at h
  refine List.lookup_eq_some_iff.2 ⟨us, vs, rfl, fun entry hentry => ?_⟩
  exact bne_iff_ne.2 (h.2.2 _ (List.mem_map_of_mem hentry) _ List.mem_cons_self).symm

/-! ## The blocks of a transaction -/

/-- No two blocks share the words of their names, and all names lead with a letter. -/
def Distinguished (bs : List Block) : Prop :=
  (bs.map fun b => words b.name.toList).Nodup ∧ ∀ b ∈ bs, LeadsWithLetter b.name.toList

section Blocks

variable {bs : List Block} (hnames : ∀ b ∈ bs, ∀ c ∈ b.name.toList, CharClass.continuesName c = true)

include hnames

theorem nodup_members_iff : (bs.map fun b => member b.name).Nodup ↔ (bs.map fun b => words b.name.toList).Nodup := by
  rw [List.nodup_iff_pairwise_ne, List.nodup_iff_pairwise_ne, List.pairwise_map, List.pairwise_map]
  exact List.Pairwise.iff_of_mem fun ha hb => not_congr (member_eq_iff (hnames _ ha) (hnames _ hb))

theorem proper_iff :
    ((flowOf bs).members.all fun m => isPythonName m.1) = true ∧ ((flowOf bs).members.map Prod.fst).Nodup ↔
      Distinguished bs := by
  have hfst : (flowOf bs).members.map Prod.fst = bs.map fun b => member b.name := List.map_map ..
  rw [hfst, nodup_members_iff hnames, flowOf, List.all_map, List.all_eq_true, Distinguished, and_comm]
  exact and_congr_right fun _ => forall₂_congr fun b hb => isPythonName_member (hnames b hb)

theorem run_of_not_distinguished (h : ¬Distinguished bs) : (flowOf bs).run = none := by
  rw [Flow.run, if_neg]
  rwa [Bool.and_eq_true, decide_eq_true_eq, proper_iff hnames]

/-- Every member is found, so the blocks are what they are in the transaction. -/
theorem run_of_distinguished (h : Distinguished bs)
    (htargets : ∀ b ∈ bs, ∀ target ∈ targets b, ∃ c ∈ bs, c.name = target) :
    (flowOf bs).run = some ⟨bs.map (·.name), (bs.filter (·.entry)).map (·.name),
      bs.map fun b => (b.name, targets b)⟩ := by
  have hproper := (proper_iff hnames).2 h
  have hvalue : ∀ c ∈ bs, (flowOf bs).value? (member c.name) = some c.name := by
    intro c hc
    have hmem : (member c.name, c.name) ∈ (flowOf bs).members := List.mem_map.2 ⟨c, hc, rfl⟩
    exact lookup_of_mem hproper.2 hmem
  have hentries : (flowOf bs).entries.mapM (flowOf bs).value? = some ((bs.filter (·.entry)).map (·.name)) := by
    have hentry : ∀ c ∈ bs.filter (·.entry), (flowOf bs).value? (member c.name) = some c.name := fun c hc =>
      hvalue c (List.mem_filter.1 hc).1
    exact mapM_map_eq_some (h := fun b : Block => member b.name) hentry
  have hrow : ∀ b ∈ bs, (flowOf bs).row? (member b.name, (targets b).map member) = some (b.name, targets b) := by
    intro b hb
    have hmoves : ((targets b).map member).mapM (flowOf bs).value? = some ((targets b).map id) := by
      refine mapM_map_eq_some fun target htarget => ?_
      obtain ⟨c, hc, rfl⟩ := htargets b hb target htarget
      exact hvalue c hc
    rw [Flow.row?, hvalue b hb, hmoves, List.map_id]
    rfl
  have hrows : (flowOf bs).rows.mapM (flowOf bs).row? = some (bs.map fun b => (b.name, targets b)) :=
    mapM_map_eq_some hrow
  have hkeys : (([] ++ bs.map fun b : Block => (b.name, targets b)).map Prod.fst).Nodup := by
    have hmembers : ((bs.map (·.name)).map member).Nodup := by
      rw [List.map_map]
      exact (nodup_members_iff hnames).2 h.1
    rw [List.nil_append, List.map_map]
    exact hmembers.of_map
  have hvalues : (flowOf bs).members.map Prod.snd = bs.map (·.name) := List.map_map ..
  rw [Flow.run, if_pos (by rw [Bool.and_eq_true, decide_eq_true_eq]; exact hproper), hentries, hrows, hvalues]
  simp only [Option.bind_eq_bind, Option.bind_some, Option.pure_def, foldl_assign hkeys, List.nil_append]

end Blocks

/-- In a valid transaction a block goes to blocks only. -/
theorem exists_target {tx : Transaction} (hvalid : errorsOf tx.issues = []) {b : Block} (hb : b ∈ tx.blocks)
    {target : String} (htarget : target ∈ targets b) : ∃ c ∈ tx.blocks, c.name = target := by
  obtain ⟨⟨action, guard, span⟩, hs, hgoto⟩ := List.mem_filterMap.1 htarget
  cases action with
  | send => cases hgoto
  | call => cases hgoto
  | goto ref =>
    obtain rfl : ref.name = target := Option.some.inj hgoto
    have href : (.block, ref) ∈ tx.references := Transaction.target_mem_references (List.mem_flatMap.2 ⟨b, hb, hs⟩)
    have hresolves : tx.symbols.resolves .block ref.name = true := by
      by_contra hno
      have hissue : (⟨.unresolved .block ref.name, ref.span⟩ : Issue) ∈ tx.issues := by
        have hreference : (⟨.unresolved .block ref.name, ref.span⟩ : Issue) ∈ tx.referenceIssues :=
          List.mem_filterMap.2 ⟨_, href, if_neg hno⟩
        simp [Transaction.issues, hreference]
      have herror := List.filter_eq_nil_iff.1 hvalid _ hissue
      exact herror rfl
    obtain ⟨d, hd, hname⟩ := Transaction.resolves_iff.1 hresolves
    rw [Transaction.declared_eq] at hd
    obtain ⟨c, hc, rfl⟩ := List.mem_map.1 hd
    exact ⟨c, hc, hname⟩

/-- Two blocks get the same member exactly when their names have the same words, and a member is a name
exactly when the first character of the block's name other than an underscore is a letter. When Python runs
what a stub says about the blocks of a valid transaction, it gets back its blocks, entry blocks and `goto`
edges exactly when no two blocks share their words and all lead with a letter; otherwise it fails. -/
theorem blocks_distinct_iff {tx : Transaction} (hnames : ∀ b ∈ tx.blocks, IsName b.name)
    (hvalid : errorsOf tx.issues = []) :
    (∀ b ∈ tx.blocks, ∀ c ∈ tx.blocks, member b.name = member c.name ↔ words b.name.toList = words c.name.toList) ∧
    (∀ b ∈ tx.blocks, isPythonName (member b.name) = true ↔ LeadsWithLetter b.name.toList) ∧
    (tx.blocks ≠ [] → ∃ before, render tx = before ++ Lines.unlines (flowOf tx.blocks).lines) ∧
    ((flowOf tx.blocks).run = some (machineOf tx) ↔ Distinguished tx.blocks) ∧
    ((flowOf tx.blocks).run = none ↔ ¬Distinguished tx.blocks) ∧
    ((machineOf tx).transitions.flatMap fun row => row.2.map fun target => (row.1, target)) = tx.gotoEdges := by
  have hchars : ∀ b ∈ tx.blocks, ∀ c ∈ b.name.toList, CharClass.continuesName c = true := fun b hb =>
    List.all_eq_true.1 (hnames b hb).2.1
  have hrun : Distinguished tx.blocks → (flowOf tx.blocks).run = some (machineOf tx) := fun h =>
    run_of_distinguished hchars h fun b hb target htarget => exists_target hvalid hb htarget
  have hfail : ¬Distinguished tx.blocks → (flowOf tx.blocks).run = none := run_of_not_distinguished hchars
  refine ⟨fun b hb c hc => member_eq_iff (hchars b hb) (hchars c hc), fun b hb => isPythonName_member (hchars b hb),
    exists_render_flow, ⟨fun h => ?_, hrun⟩, ⟨fun h hd => ?_, hfail⟩, gotoEdges_machineOf tx⟩
  · by_contra hd
    rw [hfail hd] at h
    cases h
  · rw [hrun hd] at h
    cases h

/-- The members of `Lock` and `SettleFunds` are told apart, and what is run is the transaction again. -/
theorem flow_of_lock_and_settle :
    let goto (name : String) : Statement := ⟨.goto ⟨name, .nowhere⟩, none, .nowhere⟩
    let tx : Transaction :=
      { name := "Escrow"
        description := none
        actors := [⟨"Buyer", none, .nowhere⟩]
        messages := [⟨"Offer", ⟨"Buyer", .nowhere⟩, ⟨"Buyer", .nowhere⟩, [], .nowhere⟩]
        blocks := [⟨"Lock", true, [goto "SettleFunds"], .nowhere⟩,
          ⟨"SettleFunds", false, [goto "Lock", goto "SettleFunds"], .nowhere⟩]
        functions := []
        span := .nowhere }
    (∀ b ∈ tx.blocks, IsName b.name) ∧ errorsOf tx.issues = [] ∧ Distinguished tx.blocks ∧
      (flowOf tx.blocks).run = some ⟨["Lock", "SettleFunds"], ["Lock"],
        [("Lock", ["SettleFunds"]), ("SettleFunds", ["Lock", "SettleFunds"])]⟩ := by
  intro goto tx
  have hnames : ∀ b ∈ tx.blocks, IsName b.name := by decide
  have hvalid : errorsOf tx.issues = [] := by cbv
  obtain ⟨-, hpython, -, hrun, -⟩ := blocks_distinct_iff hnames hvalid
  have hdistinct : Distinguished tx.blocks := by
    have hmembers : ∀ b ∈ tx.blocks, isPythonName (member b.name) = true :=
      List.forall_mem_cons.2 ⟨by cbv, List.forall_mem_singleton.2 (by cbv)⟩
    exact ⟨by decide, fun b hb => (hpython b hb).1 (hmembers b hb)⟩
  exact ⟨hnames, hvalid, hdistinct, hrun.2 hdistinct⟩

/-- A transaction with two blocks whose names have the same words. -/
def transfers : Transaction where
  name := "T"
  description := none
  actors := [⟨"A", none, ⟨20, 1, 1, 21⟩⟩, ⟨"B", none, ⟨29, 1, 1, 30⟩⟩]
  messages := [⟨"M", ⟨"A", ⟨42, 1, 1, 43⟩⟩, ⟨"B", ⟨45, 1, 1, 46⟩⟩, [], ⟨40, 1, 1, 41⟩⟩]
  blocks := [
    ⟨"ATransfer", true, [⟨.send ⟨"M", ⟨75, 1, 1, 76⟩⟩, none, ⟨70, 6, 1, 71⟩⟩,
      ⟨.goto ⟨"Atransfer", ⟨82, 9, 1, 83⟩⟩, none, ⟨77, 14, 1, 78⟩⟩], ⟨60, 9, 1, 61⟩⟩,
    ⟨"Atransfer", false, [], ⟨98, 9, 1, 99⟩⟩]
  functions := []
  span := ⟨12, 1, 1, 13⟩

/-- The derivation of a source of it. -/
def transfersTree : SchemaTree where
  first :=
    { header := ⟨.placed () "transaction" ⟨0, 11, 1, 1⟩, .placed "T" "T" ⟨12, 1, 1, 13⟩, none, .placed () "\x7b" ⟨13, 1, 1, 14⟩⟩
      declarations := [
        .actor ⟨.placed () "actor" ⟨14, 5, 1, 15⟩, .placed "A" "A" ⟨20, 1, 1, 21⟩, .placed () "\x7b" ⟨21, 1, 1, 22⟩,
          none, .placed () "\x7d" ⟨22, 1, 1, 23⟩⟩,
        .actor ⟨.placed () "actor" ⟨23, 5, 1, 24⟩, .placed "B" "B" ⟨29, 1, 1, 30⟩, .placed () "\x7b" ⟨30, 1, 1, 31⟩,
          none, .placed () "\x7d" ⟨31, 1, 1, 32⟩⟩,
        .message ⟨.placed () "message" ⟨32, 7, 1, 33⟩, .placed "M" "M" ⟨40, 1, 1, 41⟩, .placed "A" "A" ⟨42, 1, 1, 43⟩,
          .placed () "->" ⟨43, 2, 1, 44⟩, .placed "B" "B" ⟨45, 1, 1, 46⟩, .placed () "\x7b" ⟨46, 1, 1, 47⟩, [],
          .placed () "\x7d" ⟨47, 1, 1, 48⟩⟩,
        .block ⟨some (.placed () "entry" ⟨48, 5, 1, 49⟩), .placed () "block" ⟨54, 5, 1, 55⟩,
          .placed "ATransfer" "ATransfer" ⟨60, 9, 1, 61⟩, .placed () "\x7b" ⟨69, 1, 1, 70⟩,
          [(⟨.send (.placed () "send" ⟨70, 4, 1, 71⟩) (.placed "M" "M" ⟨75, 1, 1, 76⟩), none⟩, none),
            (⟨.goto (.placed () "goto" ⟨77, 4, 1, 78⟩) (.placed "Atransfer" "Atransfer" ⟨82, 9, 1, 83⟩), none⟩, none)],
          .placed () "\x7d" ⟨91, 1, 1, 92⟩⟩,
        .block ⟨none, .placed () "block" ⟨92, 5, 1, 93⟩, .placed "Atransfer" "Atransfer" ⟨98, 9, 1, 99⟩,
          .placed () "\x7b" ⟨107, 1, 1, 108⟩, [], .placed () "\x7d" ⟨108, 1, 1, 109⟩⟩]
      right := .placed () "\x7d" ⟨109, 1, 1, 110⟩ }
  more := []

theorem parse_transfers :
    parse "transaction T\x7bactor A\x7b\x7dactor B\x7b\x7dmessage M A->B\x7b\x7dentry block ATransfer\x7bsend M goto Atransfer\x7dblock Atransfer\x7b\x7d\x7d" =
      .ok ⟨[transfers]⟩ :=
  parse_ok_iff_derivation.2 ⟨transfersTree, by cbv, rfl⟩

/-- A source without flaws whose two blocks get one member, so that its stub fails; and names of blocks
without a letter get members that are no names. -/
theorem members_of_transfers :
    let source :=
      "transaction T\x7bactor A\x7b\x7dactor B\x7b\x7dmessage M A->B\x7b\x7dentry block ATransfer\x7bsend M goto Atransfer\x7dblock Atransfer\x7b\x7d\x7d"
    parse source = .ok ⟨[transfers]⟩ ∧ lint source = [] ∧
      transfers.blocks.map (fun b => (b.name, member b.name)) = [("ATransfer", "ATRANSFER"), ("Atransfer", "ATRANSFER")] ∧
      (flowOf transfers.blocks).run = none ∧
      (IsName "_" ∧ member "_" = "") ∧ IsName "_1" ∧ member "_1" = "1" := by
  intro source
  have hnames : ∀ b ∈ transfers.blocks, IsName b.name := by decide
  refine ⟨parse_transfers, ?_, by cbv, ?_, ⟨by decide, by cbv⟩, by decide, by cbv⟩
  · rw [lint_of_parse parse_transfers]
    cbv
  · have hsame : words "ATransfer".toList = words "Atransfer".toList := by cbv
    refine run_of_not_distinguished (fun b hb => List.all_eq_true.1 (hnames b hb).2.1) fun h => ?_
    exact absurd hsame (by simpa [transfers] using h.1)

end Parley.Stub
