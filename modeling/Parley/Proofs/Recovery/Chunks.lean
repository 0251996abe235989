/-
Chunks as sentences. A chunk of a text that is a schema is the opening of a transaction or a
declaration, followed by the brace that closes the transaction or by nothing. A text is a schema
exactly when its chunks drive the machine below from outside a transaction back to outside, and
the machine knows what comes next from the keyword that opens a chunk alone.
-/
import Parley.Parser.Recovery
import Parley.Proofs.Grammar.Language
import Mathlib.Data.List.SplitBy

namespace Parley

/-! ## Lexemes that open nothing -/

/-- None of the lexemes opens a transaction or a declaration. -/
def Quiet (ls : List Lexeme) : Prop := ∀ l ∈ ls, l.token.opensDeclaration = false

namespace Quiet

variable {τ : Type} {l : Lexeme} {ls ms : List Lexeme}

@[simp] theorem nil : Quiet [] := nofun

@[simp] theorem cons : Quiet (l :: ls) ↔ l.token.opensDeclaration = false ∧ Quiet ls := by simp [Quiet]

@[simp] theorem append : Quiet (ls ++ ms) ↔ Quiet ls ∧ Quiet ms := by
  simp only [Quiet, List.mem_append, or_imp, forall_and]

theorem flatMap {f : τ → List Lexeme} {ts : List τ} (h : ∀ t, Quiet (f t)) : Quiet (ts.flatMap f) := by
  intro l hl
  obtain ⟨t, -, hl⟩ := List.mem_flatMap.1 hl
  exact h t l hl

theorem optional {f : τ → List Lexeme} {o : Option τ} (h : ∀ t, Quiet (f t)) : Quiet (optionalLexemes f o) := by
  cases o with
  | none => exact nil
  | some t => exact h t

@[simp] theorem symbol {mark : Symbol} (s : SymbolLeaf mark) : s.lexeme.token.opensDeclaration = false := by
  rw [s.holds]; rfl

theorem keyword {word : Keyword} (k : KeywordLeaf word) (h : word.opensDeclaration = false) :
    k.lexeme.token.opensDeclaration = false := by rw [k.holds]; exact h

@[simp] theorem name (n : NameLeaf) : n.lexeme.token.opensDeclaration = false := by rw [n.holds]; rfl

@[simp] theorem string (s : StringLeaf) : s.lexeme.token.opensDeclaration = false := by rw [s.holds]; rfl

@[simp] theorem optionalSymbol {mark : Symbol} (o : Option (SymbolLeaf mark)) : Quiet (optionalLeaf o) :=
  optional fun s => by simp

@[simp] theorem optionalString (o : Option StringLeaf) : Quiet (optionalLeaf o) := optional fun s => by simp

theorem separated {f : τ → List Lexeme} {s : Separated τ} (h : ∀ t, Quiet (f t)) : Quiet (s.lexemes f) := by
  rw [Separated.lexemes, append]
  exact ⟨h _, flatMap fun x => by simp [h]⟩

theorem closed {f : τ → List Lexeme} {mark : Symbol} {x : τ × Option (SymbolLeaf mark)} (h : ∀ t, Quiet (f t)) :
    Quiet (closedLexemes f x) := by
  rw [closedLexemes, append]
  exact ⟨h _, optionalSymbol _⟩

mutual

theorem type : ∀ t : TypeTree, Quiet t.lexemes
  | .plain name => by simp [TypeTree.lexemes]
  | .applied name left first more right => by simp [TypeTree.lexemes, type first, types more]

theorem types : ∀ ts : TypeTrees, Quiet ts.lexemes
  | .none => by simp [TypeTrees.lexemes]
  | .more comma t rest => by simp [TypeTrees.lexemes, type t, types rest]

end

mutual

theorem operand : ∀ t : OperandTree, Quiet t.lexemes
  | .path head tail => by
    rw [OperandTree.lexemes, cons]
    exact ⟨name head, flatMap fun x => by simp⟩
  | .integer leaf => by simp [OperandTree.lexemes, leaf.holds, Token.opensDeclaration]
  | .string leaf => by simp [OperandTree.lexemes]
  | .yes leaf => by simp [OperandTree.lexemes, leaf.holds, Token.opensDeclaration, Keyword.opensDeclaration]
  | .no leaf => by simp [OperandTree.lexemes, leaf.holds, Token.opensDeclaration, Keyword.opensDeclaration]
  | .parenthesized left inner right => by simp [OperandTree.lexemes, expression inner]

theorem comparison : ∀ t : CmpTree, Quiet t.lexemes
  | .operand only => by simp [CmpTree.lexemes, operand only]
  | .compared left op right => by
    simp [CmpTree.lexemes, operand left, operand right, op.holds, Token.opensDeclaration]

theorem negation : ∀ t : UnaryTree, Quiet t.lexemes
  | .not mark inner => by simp [UnaryTree.lexemes, negation inner]
  | .cmp inner => by simp [UnaryTree.lexemes, comparison inner]

theorem conjunction : ∀ t : AndTree, Quiet t.lexemes
  | .mk head tail => by simp [AndTree.lexemes, negation head, andTail tail]

theorem andTail : ∀ t : AndTail, Quiet t.lexemes
  | .none => by simp [AndTail.lexemes]
  | .more mark item rest => by simp [AndTail.lexemes, negation item, andTail rest]

theorem expression : ∀ t : OrTree, Quiet t.lexemes
  | .mk head tail => by simp [OrTree.lexemes, conjunction head, orTail tail]

theorem orTail : ∀ t : OrTail, Quiet t.lexemes
  | .none => by simp [OrTail.lexemes]
  | .more mark item rest => by simp [OrTail.lexemes, conjunction item, orTail rest]

end

theorem statement (t : StatementTree) : Quiet t.lexemes := by
  rw [StatementTree.lexemes, append]
  constructor
  · rcases t with ⟨⟨word, target⟩ | ⟨word, target, left, args, right⟩ | ⟨word, target⟩, guard⟩
    · simp [ActionTree.lexemes, keyword word rfl]
    · simp [ActionTree.lexemes, keyword word rfl, optional fun s => separated expression]
    · simp [ActionTree.lexemes, keyword word rfl]
  · exact optional fun g => by simp [GuardTree.lexemes, keyword g.word rfl, expression]

theorem binding (t : BindingTree) : Quiet t.lexemes := by simp [BindingTree.lexemes, type]

theorem role (t : RoleTree) : Quiet t.lexemes := by
  rcases t with ⟨word, colon, s | n, comma⟩ <;> simp [RoleTree.lexemes, RoleValue.lexeme, keyword word rfl]

theorem params (t : ParamsTree) : Quiet t.lexemes := by simp [ParamsTree.lexemes, separated binding]

theorem returns (t : ReturnsTree) : Quiet t.lexemes := by simp [ReturnsTree.lexemes, type]

end Quiet

/-! ## Cutting into chunks -/

/-- What a chunk starts with. -/
inductive Opening : List Token → Prop
  | keyword (word : Keyword) (opens : word.opensDeclaration = true) (other : word ≠ .entry) : Opening [.keyword word]
  | entryBlock : Opening [.keyword .entry, .keyword .block]

/-- Tokens that are one chunk, whatever they mean. -/
def OneChunk (ts : List Token) : Prop :=
  ∃ head body, Opening head ∧ (∀ t ∈ body, t.opensDeclaration = false) ∧ ts = head ++ body

namespace Recovery

theorem chunks_ne_nil (l : Lexeme) (ls : List Lexeme) : chunks (l :: ls) ≠ [] := by
  cases ls with
  | nil => simp [chunks]
  | cons m ls =>
    rw [chunks]
    split
    · simp
    · split <;> simp

/-- Lexemes are cut apart where one starts a chunk after the other. -/
theorem chunks_eq_splitBy (ls : List Lexeme) :
    chunks ls = ls.splitBy fun a b => !startsChunk a.token b.token := by
  fun_induction chunks ls with
  | case1 => rfl
  | case2 l => rfl
  | case3 l next rest h ih =>
    rw [h] at ih
    exact absurd (List.splitBy_eq_nil.1 ih.symm) (List.cons_ne_nil _ _)
  | case4 l next rest chunk more h hstarts ih =>
    rw [h] at ih
    rw [show l :: next :: rest = [l] ++ next :: rest from rfl, List.splitBy_append_cons _ (by simp [hstarts]), ← ih]
    rfl
  | case5 l next rest chunk more h hstarts ih =>
    rw [h] at ih
    obtain ⟨hflatten, hnil, hchunks, hcuts⟩ := List.splitBy_eq_iff.1 ih.symm
    have hne : chunk ≠ [] := fun hc => hnil (by simp [hc])
    obtain ⟨_, chunk, rfl⟩ := List.exists_cons_of_ne_nil hne
    obtain ⟨rfl, -⟩ := List.cons.inj hflatten
    symm
    rw [List.splitBy_eq_iff]
    -- only the first chunk has changed, and not where it ends
    refine ⟨congrArg (l :: ·) hflatten, by simpa using hnil, ?_, ?_⟩
    · intro m hm
      rcases List.mem_cons.1 hm with rfl | hm
      · exact .cons_cons (by simp [hstarts]) (hchunks _ List.mem_cons_self)
      · exact hchunks m (List.mem_cons_of_mem _ hm)
    · rcases more with _ | ⟨c, more⟩
      · exact .singleton _
      · rw [List.isChain_cons_cons] at hcuts ⊢
        simpa [List.getLast_cons] using hcuts

theorem flatten_chunks (ls : List Lexeme) : (chunks ls).flatten = ls := by
  rw [chunks_eq_splitBy, List.flatten_splitBy]

theorem ne_nil_of_mem_chunks {ls w : List Lexeme} (h : w ∈ chunks ls) : w ≠ [] := by
  rw [chunks_eq_splitBy] at h
  exact List.ne_nil_of_mem_splitBy h

/-- A cut where a chunk starts does not change the chunks on its sides. -/
theorem chunks_append {l : Lexeme} {ls ms : List Lexeme} (h : ∀ a ∈ ls.getLast?, startsChunk a.token l.token = true) :
    chunks (ls ++ l :: ms) = chunks ls ++ chunks (l :: ms) := by
  simp only [chunks_eq_splitBy]
  exact List.splitBy_append_cons _ fun a ha => by simp [h a ha]

/-- Every chunk but the first starts with a token that starts a chunk after the one before. -/
theorem startsChunk_of_chunks {ls : List Lexeme} {as ds : List (List Lexeme)} {l : Lexeme} {b : List Lexeme}
    (h : chunks ls = as ++ (l :: b) :: ds) : ∀ a ∈ as.flatten.getLast?, startsChunk a.token l.token = true := by
  intro a ha
  rw [chunks_eq_splitBy] at h
  obtain ⟨-, -, -, hcuts⟩ := List.splitBy_eq_iff.1 h
  rcases List.eq_nil_or_concat as with rfl | ⟨as, w, rfl⟩
  · cases ha
  · rw [List.concat_eq_append, List.append_assoc, List.singleton_append] at hcuts
    obtain ⟨hw, _, hstarts⟩ := (List.isChain_cons_cons.1 hcuts.right_of_append).1
    rw [List.concat_eq_append, List.flatten_append, List.flatten_singleton, List.getLast?_append_of_ne_nil _ hw,
      List.getLast?_eq_some_getLast hw] at ha
    cases ha
    simpa using hstarts

/-- The chunks before the start of another are cut in the same way whatever follows there. -/
theorem chunks_cut {ls : List Lexeme} {as ds : List (List Lexeme)} {l : Lexeme} {b : List Lexeme}
    (h : chunks ls = as ++ (l :: b) :: ds) (more : List Lexeme) :
    chunks (as.flatten ++ l :: more) = as ++ chunks (l :: more) := by
  rw [chunks_append (startsChunk_of_chunks h)]
  congr 1
  rw [chunks_eq_splitBy] at h ⊢
  obtain ⟨-, hnil, hchunks, hcuts⟩ := List.splitBy_eq_iff.1 h
  exact List.splitBy_flatten (fun hn => hnil (List.mem_append_left _ hn))
    (fun w hw => hchunks w (List.mem_append_left _ hw)) hcuts.left_of_append

theorem chunks_quiet : ∀ (l : Lexeme) {ls : List Lexeme}, Quiet ls → chunks (l :: ls) = [l :: ls]
  | l, [], _ => rfl
  | l, m :: ls, h => by
    have ih := chunks_quiet m (Quiet.cons.1 h).2
    have hm : startsChunk l.token m.token = false := by simp [startsChunk, (Quiet.cons.1 h).1]
    simp [chunks, ih, hm]

end Recovery

namespace OneChunk

theorem tokens_quiet {ls : List Lexeme} (h : ∀ t ∈ tokensOf ls, t.opensDeclaration = false) : Quiet ls :=
  fun l hl => h l.token (List.mem_map_of_mem hl)

theorem of_keyword {word : Keyword} (k : KeywordLeaf word) (hopens : word.opensDeclaration = true)
    (hother : word ≠ .entry) {ls : List Lexeme} (h : Quiet ls) : OneChunk (tokensOf (k.lexeme :: ls)) :=
  ⟨[.keyword word], tokensOf ls, .keyword word hopens hother, by simpa [tokensOf, Quiet] using h, by simp [k.holds]⟩

theorem of_entryBlock (e : KeywordLeaf .entry) (k : KeywordLeaf .block) {ls : List Lexeme} (h : Quiet ls) :
    OneChunk (tokensOf (e.lexeme :: k.lexeme :: ls)) :=
  ⟨_, tokensOf ls, .entryBlock, by simpa [tokensOf, Quiet] using h, by simp [e.holds, k.holds]⟩

theorem chunks {ls : List Lexeme} (h : OneChunk (tokensOf ls)) : Recovery.chunks ls = [ls] := by
  obtain ⟨head, body, hhead, hbody, hls⟩ := h
  cases hhead with
  | keyword word _ _ =>
    obtain ⟨l, ms, rfl, hl, hms⟩ := List.map_eq_cons_iff.1 hls
    exact Recovery.chunks_quiet l (tokens_quiet (by rwa [tokensOf, hms]))
  | entryBlock =>
    obtain ⟨l, ms, rfl, hl, hms⟩ := List.map_eq_cons_iff.1 hls
    obtain ⟨m, ns, rfl, hm, hns⟩ := List.map_eq_cons_iff.1 hms
    have hquiet : Quiet ns := tokens_quiet (by rwa [tokensOf, hns])
    have hrest := Recovery.chunks_quiet m hquiet
    simp [Recovery.chunks, hrest, Recovery.startsChunk, hl, hm]

/-- A chunk starts with a token that opens something. -/
theorem head {ls : List Lexeme} (h : OneChunk (tokensOf ls)) :
    ∃ l ms, ls = l :: ms ∧ l.token.opensDeclaration = true := by
  obtain ⟨head, body, hhead, -, hls⟩ := h
  cases hhead with
  | keyword word hopens _ =>
    obtain ⟨l, ms, rfl, hl, -⟩ := List.map_eq_cons_iff.1 hls
    exact ⟨l, ms, rfl, by rw [hl]; exact hopens⟩
  | entryBlock =>
    obtain ⟨l, ms, rfl, hl, -⟩ := List.map_eq_cons_iff.1 hls
    exact ⟨l, ms, rfl, by rw [hl]; rfl⟩

/-- A chunk does not end with the first half of `entry block`. -/
theorem getLast {ls : List Lexeme} (h : OneChunk (tokensOf ls)) : ∀ a ∈ ls.getLast?, a.token ≠ .keyword .entry := by
  intro a ha hentry
  obtain ⟨head, body, hhead, hbody, hls⟩ := h
  have hlast : (head ++ body).getLast? = some (.keyword .entry) := by
    rw [← hls, tokensOf, List.getLast?_map, ha, Option.map_some, hentry]
  -- the last token is in the body, which opens nothing, or else the last of the opening
  rcases List.eq_nil_or_concat body with rfl | ⟨body, t, rfl⟩
  · cases hhead with
    | keyword word _ hother => simp at hlast; exact hother hlast
    | entryBlock => simp at hlast
  · have ht := hbody t (by simp)
    rw [List.concat_eq_append, ← List.append_assoc, List.getLast?_concat] at hlast
    cases hlast
    cases ht

end OneChunk

/-- Chunks one after the other are cut apart again. -/
theorem Recovery.chunks_flatten {ws : List (List Lexeme)} (h : ∀ w ∈ ws, OneChunk (tokensOf w)) :
    chunks ws.flatten = ws := by
  induction ws with
  | nil => rfl
  | cons w ws ih =>
    have hw := h w List.mem_cons_self
    have ih := ih fun v hv => h v (List.mem_cons_of_mem _ hv)
    rcases ws with _ | ⟨v, ws⟩
    · simp [hw.chunks]
    · obtain ⟨l, ms, rfl, hl⟩ := (h v (by simp)).head
      rw [List.flatten_cons, List.flatten_cons, List.cons_append, chunks_append, hw.chunks, ← List.cons_append,
        ← List.flatten_cons, ih]
      · rfl
      · intro a ha
        have hentry := hw.getLast a ha
        simp [startsChunk, hl, hentry]

/-! ## Chunks by themselves -/

/-- The opening of a transaction or a declaration, and then any closing braces. -/
structure StandaloneTree where
  start : HeaderTree ⊕ DeclarationTree
  closes : List (SymbolLeaf .closeBrace)

def StandaloneTree.lexemes (t : StandaloneTree) : List Lexeme :=
  t.start.elim HeaderTree.lexemes DeclarationTree.lexemes ++ t.closes.flatMap fun r => [r.lexeme]

namespace Grammar

open Parley.Parser

/-- A declaration is no opening of a transaction. -/
theorem header_refuses (d : DeclarationTree) (us : List Lexeme) : (header (d.lexemes ++ us)).result = none := by
  refine result_none_of_ne reads_header fun h vs hup => ?_
  obtain ⟨word, -, hword, hd⟩ := upcoming_declaration d us
  rw [hd, HeaderTree.lexemes, List.cons_append, upcoming_cons, h.word.holds] at hup
  cases hup
  exact hword rfl

theorem reads_standalone : Reads (orElse ((fun _ => ()) <$> header) ((fun _ => ()) <$> declaration) <* many (symbol .closeBrace))
    (.ofTree StandaloneTree.lexemes fun _ => ()) := by
  refine (((reads_header.map _).orElse (reads_declaration.map _)).before
    ((reads_symbol .closeBrace).trees fun _ => List.cons_ne_nil _ _)).mono ?_
  rintro w a ⟨_, _, _, rfl, ⟨_, ⟨h, rfl, rfl⟩, rfl⟩ | ⟨_, ⟨d, rfl, rfl⟩, rfl⟩, closes, rfl, -⟩
  · exact ⟨⟨.inl h, closes⟩, rfl, rfl⟩
  · exact ⟨⟨.inr d, closes⟩, rfl, rfl⟩

theorem complete_standalone (t : StandaloneTree) : (chunk t.lexemes).result = some ((), []) := by
  rcases t with ⟨start, closes⟩
  have hcloses : (many (symbol .closeBrace) ((closes.flatMap fun r => [r.lexeme]) ++ [])).result =
      some (closes.map fun _ => (), []) :=
    result_many_trees (fun _ => True) (fun _ => List.cons_ne_nil _ _) (fun r u _ => result_symbol_leaf r u)
      (fun _ _ => trivial) trivial rfl closes
  rw [List.append_nil] at hcloses
  unfold chunk
  rw [result_to_end]
  refine ⟨?_, rfl⟩
  rcases start with h | d
  · simp only [StandaloneTree.lexemes, Sum.elim_inl, result_seqLeft, result_orElse, result_map, complete_header,
      Option.map_some, Option.some_or, Option.bind_some, hcloses]
  · simp only [StandaloneTree.lexemes, Sum.elim_inr, result_seqLeft, result_orElse, result_map, header_refuses,
      complete_declaration, Option.map_none, Option.none_or, Option.map_some, Option.bind_some, hcloses]

/-- The lexemes that are read by themselves. -/
theorem chunk_accepts_iff {ls : List Lexeme} : (chunk ls).result ≠ none ↔ ∃ t : StandaloneTree, t.lexemes = ls := by
  constructor
  · intro h
    obtain ⟨x, hx⟩ := Option.ne_none_iff_exists'.1 h
    obtain ⟨w, rfl, t, ht, -⟩ := reads_standalone.sound (result_to_end.1 hx).1
    exact ⟨t, by rw [ht, List.append_nil]⟩
  · rintro ⟨t, rfl⟩
    rw [complete_standalone]
    exact Option.some_ne_none _

end Grammar

/-! ## Chunks of schemas -/

/-- A chunk of a schema: the opening of a transaction or a declaration, and the brace that closes
the transaction if nothing follows in it. -/
structure ChunkTree where
  start : HeaderTree ⊕ DeclarationTree
  close : Option (SymbolLeaf .closeBrace)

namespace ChunkTree

def lexemes (c : ChunkTree) : List Lexeme :=
  c.start.elim HeaderTree.lexemes DeclarationTree.lexemes ++ optionalLeaf c.close

/-- Whether the chunk stands inside a transaction. -/
def inside (c : ChunkTree) : Bool := c.start.isRight

theorem lexemes_ne_nil (c : ChunkTree) : c.lexemes ≠ [] := by
  rcases c with ⟨h | d, close⟩
  · exact List.append_ne_nil_of_left_ne_nil (List.cons_ne_nil _ _) _
  · exact List.append_ne_nil_of_left_ne_nil d.lexemes_ne_nil _

/-- The keyword that opens a chunk tells where it stands. -/
theorem upcoming_lexemes (c : ChunkTree) (us : List Lexeme) :
    c.inside = false ↔ upcoming (c.lexemes ++ us) = some (.keyword .transaction) := by
  rcases c with ⟨h | d, close⟩
  · exact iff_of_true rfl (congrArg some h.word.holds)
  · obtain ⟨word, -, hword, hup⟩ := Grammar.upcoming_declaration d (optionalLeaf close ++ us)
    refine iff_of_false Bool.noConfusion fun h => ?_
    rw [lexemes, List.append_assoc, Sum.elim_inr, hup] at h
    simp at h
    exact hword h

theorem oneChunk (c : ChunkTree) : OneChunk (tokensOf c.lexemes) := by
  rcases c with ⟨h | t | t | t | t, close⟩ <;>
    simp only [lexemes, Sum.elim_inl, Sum.elim_inr, DeclarationTree.lexemes]
  · exact .of_keyword h.word rfl (by decide) (by simp)
  · exact .of_keyword t.word rfl (by decide) (by simp [Quiet.optional Quiet.role])
  · exact .of_keyword t.word rfl (by decide) (by simp [Quiet.flatMap fun x => Quiet.closed Quiet.binding])
  · exact .of_keyword t.word rfl (by decide) (by simp [Quiet.optional Quiet.params, Quiet.optional Quiet.returns])
  · have hquiet : Quiet (t.name.lexeme :: t.left.lexeme :: (t.statements.flatMap (closedLexemes StatementTree.lexemes) ++
        [t.right.lexeme])) := by simp [Quiet.flatMap fun x => Quiet.closed Quiet.statement]
    rcases t with ⟨_ | e, word, name, left, statements, right⟩
    · exact .of_keyword word rfl (by decide) (by simpa using hquiet)
    · exact .of_entryBlock e word (by simpa using hquiet)

def standalone (c : ChunkTree) : StandaloneTree := ⟨c.start, c.close.toList⟩

theorem lexemes_standalone (c : ChunkTree) : c.standalone.lexemes = c.lexemes := by
  rcases c with ⟨start, _ | r⟩ <;> rfl

/-- A chunk is read by itself. -/
theorem complete (c : ChunkTree) : (Grammar.chunk c.lexemes).result = some ((), []) := by
  rw [← lexemes_standalone]
  exact Grammar.complete_standalone _

/-! ## Chunks in a row -/

/-- Where the text stands after a chunk, inside a transaction or not, if the chunk fits. -/
def step (inside : Bool) (c : ChunkTree) : Option Bool := if c.inside = inside then some c.close.isNone else none

def run : Bool → List ChunkTree → Option Bool
  | inside, [] => some inside
  | inside, c :: cs => (step inside c).bind fun next => run next cs

theorem run_append {inside : Bool} {cs ds : List ChunkTree} :
    run inside (cs ++ ds) = (run inside cs).bind fun next => run next ds := by
  induction cs generalizing inside with
  | nil => rfl
  | cons c cs ih => simp only [List.cons_append, run, ih, Option.bind_assoc]

/-- Only the first chunk tells where the text has to stand before it. -/
theorem run_cons {inside stop : Bool} {c : ChunkTree} {cs : List ChunkTree} (h : run inside (c :: cs) = some stop) :
    c.inside = inside := by
  by_contra hne
  simp [run, step, hne] at h

/-- From where two runs meet chunks that stand in the same place, one can go on like the other. -/
theorem run_swap {cs cs' ds ds' : List ChunkTree} {c d : ChunkTree} (hcd : c.inside = d.inside)
    (hc : run false (cs ++ c :: cs') = some false) (hd : run false (ds ++ d :: ds') = some false) :
    run false (cs ++ d :: ds') = some false := by
  rw [run_append, Option.bind_eq_some_iff] at hc hd ⊢
  obtain ⟨before, hcs, hc⟩ := hc
  obtain ⟨before', -, hd⟩ := hd
  obtain rfl := run_cons hc
  obtain rfl := run_cons hd
  exact ⟨c.inside, hcs, hcd ▸ hd⟩

/-- The declarations of a transaction are chunks; the last takes the closing brace. -/
theorem run_declarations (r : SymbolLeaf .closeBrace) : ∀ ds : List DeclarationTree, ds ≠ [] →
    ∃ cs, run true cs = some false ∧ cs.flatMap lexemes = ds.flatMap DeclarationTree.lexemes ++ [r.lexeme]
  | [], h => absurd rfl h
  | [d], _ => ⟨[⟨.inr d, some r⟩], rfl, by simp [lexemes, optionalLeaf, optionalLexemes]⟩
  | d :: d' :: ds, _ => by
    obtain ⟨cs, hrun, hcs⟩ := run_declarations r (d' :: ds) (List.cons_ne_nil _ _)
    refine ⟨⟨.inr d, none⟩ :: cs, hrun, ?_⟩
    rw [List.flatMap_cons, hcs]
    simp [lexemes, optionalLeaf, optionalLexemes]

theorem run_transaction (t : TransactionTree) :
    ∃ cs, cs ≠ [] ∧ run false cs = some false ∧ cs.flatMap lexemes = t.lexemes := by
  rcases t with ⟨h, ds, r⟩
  rcases ds with _ | ⟨d, ds⟩
  · exact ⟨[⟨.inl h, some r⟩], List.cons_ne_nil _ _, rfl, by
      simp [lexemes, TransactionTree.lexemes, optionalLeaf, optionalLexemes]⟩
  · obtain ⟨cs, hrun, hcs⟩ := run_declarations r (d :: ds) (List.cons_ne_nil _ _)
    refine ⟨⟨.inl h, none⟩ :: cs, List.cons_ne_nil _ _, hrun, ?_⟩
    rw [List.flatMap_cons, hcs]
    simp [lexemes, TransactionTree.lexemes, optionalLeaf, optionalLexemes]

theorem run_transactions (ts : List TransactionTree) :
    ∃ cs, (ts ≠ [] → cs ≠ []) ∧ run false cs = some false ∧ cs.flatMap lexemes = ts.flatMap TransactionTree.lexemes := by
  induction ts with
  | nil => exact ⟨[], fun h => absurd rfl h, rfl, rfl⟩
  | cons t ts ih =>
    obtain ⟨cs, hne, hrun, hcs⟩ := run_transaction t
    obtain ⟨ds, -, hrun', hds⟩ := ih
    exact ⟨cs ++ ds, fun _ => List.append_ne_nil_of_left_ne_nil hne _, by rw [run_append, hrun]; exact hrun', by simp [hcs, hds]⟩

/-- A schema is a run of its chunks. -/
theorem run_schema (t : SchemaTree) : ∃ cs, cs ≠ [] ∧ run false cs = some false ∧ cs.flatMap lexemes = t.lexemes := by
  obtain ⟨cs, hne, hrun, hcs⟩ := run_transactions t.transactions
  exact ⟨cs, hne (List.cons_ne_nil _ _), hrun, hcs⟩

/-- What is left of a schema: of its open transaction if it stands inside one, then further
transactions. -/
theorem trees_of_run : ∀ {inside : Bool} {cs : List ChunkTree}, run inside cs = some false →
    ∃ ts : List TransactionTree, if inside then
        ∃ (ds : List DeclarationTree) (r : SymbolLeaf .closeBrace), cs.flatMap lexemes =
          ds.flatMap DeclarationTree.lexemes ++ r.lexeme :: ts.flatMap TransactionTree.lexemes
      else cs.flatMap lexemes = ts.flatMap TransactionTree.lexemes
  | inside, [], h => by
    cases h
    exact ⟨[], rfl⟩
  | inside, c :: cs, h => by
    obtain rfl := run_cons h
    have hrun : run c.close.isNone cs = some false := by simpa [run, step] using h
    obtain ⟨ts, ih⟩ := trees_of_run hrun
    -- a header or a declaration, with or without the brace that closes the transaction
    rcases c with ⟨head | d, _ | r⟩ <;> dsimp only [Option.isNone, inside, Sum.isRight] at ih ⊢
    · obtain ⟨ds, r, hcs⟩ := ih
      refine ⟨⟨head, ds, r⟩ :: ts, ?_⟩
      simp [lexemes, optionalLeaf, optionalLexemes, hcs, TransactionTree.lexemes]
    · refine ⟨⟨head, [], r⟩ :: ts, ?_⟩
      simpa [lexemes, optionalLeaf, optionalLexemes, TransactionTree.lexemes] using ih
    · obtain ⟨ds, r, hcs⟩ := ih
      refine ⟨ts, d :: ds, r, ?_⟩
      simp [lexemes, optionalLeaf, optionalLexemes, hcs]
    · refine ⟨ts, [d], r, ?_⟩
      simpa [lexemes, optionalLeaf, optionalLexemes] using ih

/-- A run of chunks is a schema. -/
theorem schema_of_run {cs : List ChunkTree} (hne : cs ≠ []) (h : run false cs = some false) :
    ∃ t : SchemaTree, t.lexemes = cs.flatMap lexemes := by
  obtain ⟨ts, hts⟩ := trees_of_run h
  simp only [Bool.false_eq_true, if_false] at hts
  rcases ts with _ | ⟨t, ts⟩
  · obtain ⟨c, cs, rfl⟩ := List.exists_cons_of_ne_nil hne
    simp [c.lexemes_ne_nil] at hts
  · exact ⟨⟨t, ts⟩, hts.symm⟩

/-- The chunks of a run are those that its lexemes are cut into. -/
theorem chunks_run (cs : List ChunkTree) : Recovery.chunks (cs.flatMap lexemes) = cs.map lexemes := by
  rw [List.flatMap_def]
  refine Recovery.chunks_flatten fun w hw => ?_
  obtain ⟨c, -, rfl⟩ := List.mem_map.1 hw
  exact c.oneChunk

end ChunkTree

end Parley
