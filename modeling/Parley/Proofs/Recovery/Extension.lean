/-
Reading with recovery extends strict reading. A source that is parsed gives its schema, one that is
not made of tokens the error of reading them. Otherwise the strict error comes first, and after it
one error for each chunk behind the charged one that cannot be read by itself. Every chunk before
the charged one lies in a text that strict reading could have gone on with, so it can be read by
itself; and the error of a chunk lies behind its first token, so no two errors meet.
-/
import Parley.Proofs.Recovery.Charge
import Parley.Proofs.Recovery.Chunks
import Mathlib

namespace Parley

namespace Recovery

/-! ## Chunks by themselves -/

/-- A chunk that can be read by itself: the opening of a transaction or one declaration, then any
closing braces. -/
def Standalone (w : List Lexeme) : Prop := ∃ t : StandaloneTree, t.lexemes = w

theorem ownError?_eq_none_iff {x : List Lexeme × Span} : ownError? x = none ↔ Standalone x.1 := by
  rw [Standalone, ← Grammar.chunk_accepts_iff, ← Parser.readAll_ok_iff x.2]
  unfold ownError?
  cases Grammar.chunk.readAll x.1 x.2 <;> simp

/-- A name, as good as any other. -/
def anyName : NameLeaf := ⟨"", ⟨.name "", "", .nowhere⟩, rfl⟩

def anySymbol (mark : Symbol) : SymbolLeaf mark := ⟨(), ⟨.symbol mark, "", .nowhere⟩, rfl⟩

/-- Whatever opens something can be followed by what makes a chunk of it. -/
theorem exists_standalone {l : Lexeme} (h : l.token.opensDeclaration = true) :
    ∃ (t : StandaloneTree) (more : List Lexeme), t.lexemes = l :: more := by
  rcases l with ⟨token, text, span⟩
  rcases token with word | _ | _ | _ | _
  · cases word with
    | transaction => exact ⟨⟨.inl ⟨⟨(), _, rfl⟩, anyName, none, anySymbol _⟩, []⟩, _, rfl⟩
    | actor => exact ⟨⟨.inr (.actor ⟨⟨(), _, rfl⟩, anyName, anySymbol _, none, anySymbol _⟩), []⟩, _, rfl⟩
    | message =>
      exact ⟨⟨.inr (.message ⟨⟨(), _, rfl⟩, anyName, anyName, anySymbol _, anyName, anySymbol _, [], anySymbol _⟩), []⟩, _, rfl⟩
    | block => exact ⟨⟨.inr (.block ⟨none, ⟨(), _, rfl⟩, anyName, anySymbol _, [], anySymbol _⟩), []⟩, _, rfl⟩
    | function =>
      exact ⟨⟨.inr (.function ⟨⟨(), _, rfl⟩, anyName, anySymbol _, none, anySymbol _, none, anySymbol _, none, anySymbol _⟩), []⟩,
        _, rfl⟩
    | entry =>
      exact ⟨⟨.inr (.block ⟨some ⟨(), _, rfl⟩, ⟨(), ⟨.keyword .block, "", .nowhere⟩, rfl⟩, anyName, anySymbol _, [],
        anySymbol _⟩), []⟩, _, rfl⟩
    | _ => cases h
  all_goals cases h

/-- The error of a chunk stands behind its first token. -/
theorem ownError?_cut {l : Lexeme} {w : List Lexeme} {stop : Span} {e : ParseError}
    (hopens : l.token.opensDeclaration = true) (h : ownError? (l :: w, stop) = some e) :
    ∃ us vs, l :: w = us ++ vs ∧ us ≠ [] ∧ e.span = spanOf stop vs ∧ e.found = vs.head?.map (·.token) := by
  obtain ⟨us, vs, hcut, hrefused, hspan, hfound⟩ := Grammar.reads_standalone.readAll_error (readAll_of_ownError? h)
  refine ⟨us, vs, hcut, ?_, hspan, hfound⟩
  rintro rfl
  -- a chunk that starts with `l` is accepted, so the error does not stand at `l`
  obtain ⟨t, more, ht⟩ := exists_standalone hopens
  exact absurd (hrefused.refused l w hcut.symm more) (Grammar.chunk_accepts_iff.2 ⟨t, ht⟩)

/-- The error of a chunk lies behind its first token and not behind its end. -/
theorem ownError?_between {l : Lexeme} {w : List Lexeme} {stop : Span} {e : ParseError}
    (hopens : l.token.opensDeclaration = true) (horder : InOrder stop.offset (l :: w))
    (h : ownError? (l :: w, stop) = some e) : l.span.offset < e.span.offset ∧ e.span.offset ≤ stop.offset := by
  obtain ⟨us, vs, hcut, hus, hspan, -⟩ := ownError?_cut hopens h
  obtain ⟨u, us, rfl⟩ := List.exists_cons_of_ne_nil hus
  rw [hcut] at horder
  rw [hspan, offset_spanOf]
  obtain ⟨rfl, -⟩ := List.cons.inj hcut
  exact ⟨horder.lt List.mem_cons_self, horder.right.offsetOf_le_stop⟩

/-! ## The chunks before the charged one -/

theorem standalone_of_viable {ls : List Lexeme} {as ds : List (List Lexeme)} {us vs z : List Lexeme} {t : SchemaTree}
    (hcut : chunks ls = as ++ (us ++ vs) :: ds) (hus : as ≠ [] → us ≠ []) (ht : t.lexemes = as.flatten ++ us ++ z) :
    ∀ w ∈ as, Standalone w := by
  intro w hw
  obtain ⟨l, us, rfl⟩ := List.exists_cons_of_ne_nil (hus (List.ne_nil_of_mem hw))
  obtain ⟨cs, -, -, hcs⟩ := ChunkTree.run_schema t
  have hchunks : cs.map ChunkTree.lexemes = as ++ chunks (l :: (us ++ z)) := by
    rw [← ChunkTree.chunks_run, hcs, ht, List.append_assoc]
    exact chunks_cut hcut _
  obtain ⟨c, -, rfl⟩ := List.mem_map.1 (hchunks ▸ List.mem_append_left _ hw)
  exact ⟨c.standalone, c.lexemes_standalone⟩

/-- Every chunk but the first starts with a token that opens something. -/
theorem opens_of_chunks {ls : List Lexeme} {as ds : List (List Lexeme)} {d : List Lexeme} (h : chunks ls = as ++ d :: ds)
    (has : as ≠ []) : ∃ l ms, d = l :: ms ∧ l.token.opensDeclaration = true := by
  have hne : ∀ w ∈ as ++ d :: ds, w ≠ [] := fun w hw => ne_nil_of_mem_chunks (h ▸ hw)
  obtain ⟨l, ms, rfl⟩ := List.exists_cons_of_ne_nil (hne d (by simp))
  have hflatten : as.flatten ≠ [] := by
    obtain ⟨w, as, rfl⟩ := List.exists_cons_of_ne_nil has
    simp [hne w (by simp)]
  have hstarts := startsChunk_of_chunks h _ (List.getLast?_eq_some_getLast hflatten)
  rw [startsChunk, Bool.and_eq_true] at hstarts
  exact ⟨l, ms, rfl, hstarts.1⟩

/-- Each of these chunks starts with a token that opens something. -/
def AllOpen (ds : List (List Lexeme)) : Prop := ∀ d ∈ ds, ∃ l ms, d = l :: ms ∧ l.token.opensDeclaration = true

theorem AllOpen.ne_nil {ds : List (List Lexeme)} (h : AllOpen ds) : ∀ d ∈ ds, d ≠ [] := by
  intro d hd
  obtain ⟨l, ms, rfl, -⟩ := h d hd
  exact List.cons_ne_nil _ _

theorem allOpen_of_chunks {ls : List Lexeme} {as ds : List (List Lexeme)} {b : List Lexeme} (h : chunks ls = as ++ b :: ds) :
    AllOpen ds := by
  intro d hd
  obtain ⟨ds₁, ds₂, rfl⟩ := List.append_of_mem hd
  rw [List.append_cons, ← List.append_assoc] at h
  exact opens_of_chunks h (by simp)

/-! ## The errors of the other chunks -/

/-- The span at the end of a chunk starts where the next one does. -/
theorem offset_withEnds {stop : Span} {ds : List (List Lexeme)} (hne : ∀ d ∈ ds, d ≠ []) :
    ((ds.head?.bind List.head?).elim stop fun l => l.span.atStart).offset = offsetOf stop.offset ds.flatten := by
  rcases ds with _ | ⟨d, ds⟩
  · rfl
  · obtain ⟨l, ms, rfl⟩ := List.exists_cons_of_ne_nil (hne d (by simp))
    rfl

theorem otherErrors_charged (stop : Span) {as : List (List Lexeme)} (b : List Lexeme) (ds : List (List Lexeme))
    (h : ∀ w ∈ as, Standalone w) :
    otherErrors (withEnds stop (as ++ b :: ds)) as.length = (withEnds stop ds).filterMap ownError? := by
  have hquiet : ∀ w ∈ as, ∀ stop, ownError? (w, stop) = none := fun w hw stop => ownError?_eq_none_iff.2 (h w hw)
  rw [otherErrors_eq]
  simpa using ownErrors_charged stop b ds as 0 hquiet

/-- A chunk with its end is one of the chunks, and it ends where the next one starts. -/
theorem split_of_mem_withEnds {stop : Span} {ds : List (List Lexeme)} {x : List Lexeme × Span} (h : x ∈ withEnds stop ds) :
    ∃ as bs, ds = as ++ x.1 :: bs ∧ x.2 = (bs.head?.bind List.head?).elim stop fun l => l.span.atStart := by
  induction ds with
  | nil => cases h
  | cons d ds ih =>
    rcases List.mem_cons.1 h with rfl | h
    · exact ⟨[], ds, rfl, rfl⟩
    · obtain ⟨as, bs, rfl, hend⟩ := ih h
      exact ⟨d :: as, bs, rfl, hend⟩

theorem mem_of_mem_withEnds {stop : Span} {ds : List (List Lexeme)} {x : List Lexeme × Span} (h : x ∈ withEnds stop ds) :
    x.1 ∈ ds := by
  obtain ⟨as, bs, rfl, -⟩ := split_of_mem_withEnds h
  exact List.mem_append_right _ List.mem_cons_self

theorem ownError?_withEnds {stop : Span} {ds : List (List Lexeme)} (hopen : AllOpen ds) (horder : InOrder stop.offset ds.flatten)
    {x : List Lexeme × Span} (hx : x ∈ withEnds stop ds) {e : ParseError} (he : ownError? x = some e) :
    startOf x.1 < e.span.offset ∧ e.span.offset ≤ x.2.offset := by
  induction ds with
  | nil => cases hx
  | cons d ds ih =>
    have hds : AllOpen ds := fun w hw => hopen w (List.mem_cons_of_mem _ hw)
    rw [List.flatten_cons] at horder
    rcases List.mem_cons.1 hx with rfl | hx
    · obtain ⟨l, ms, rfl, hl⟩ := hopen d List.mem_cons_self
      have hchunk := horder.until
      rw [← offset_withEnds hds.ne_nil] at hchunk
      exact ownError?_between hl hchunk he
    · exact ih hds horder.right hx

/-- The errors of chunks in a row come one behind the other, and behind the start of the first chunk. -/
theorem pairwise_ownErrors {stop : Span} {ds : List (List Lexeme)} (hopen : AllOpen ds) (horder : InOrder stop.offset ds.flatten) :
    ((withEnds stop ds).filterMap ownError?).Pairwise (fun a b => a.span.offset < b.span.offset) ∧
      ∀ e ∈ (withEnds stop ds).filterMap ownError?, offsetOf stop.offset ds.flatten < e.span.offset := by
  induction ds with
  | nil => simp [withEnds]
  | cons d ds ih =>
    have hds : AllOpen ds := fun w hw => hopen w (List.mem_cons_of_mem _ hw)
    have hbetween := fun e he => ownError?_withEnds hopen horder (x := (d, _)) List.mem_cons_self (e := e) he
    have hstart := startOf_append (hopen.ne_nil d List.mem_cons_self) stop.offset ds.flatten
    rw [List.flatten_cons] at horder ⊢
    obtain ⟨hpair, hlater⟩ := ih hds horder.right
    have hle := horder.offsetOf_le
    rw [← hstart] at hle ⊢
    rw [withEnds, List.filterMap_cons]
    split
    · exact ⟨hpair, fun e he => Nat.lt_of_le_of_lt hle (hlater e he)⟩
    · rename_i e he
      obtain ⟨hbehind, hbefore⟩ := hbetween e he
      dsimp only at hbehind hbefore
      rw [offset_withEnds hds.ne_nil] at hbefore
      refine ⟨List.pairwise_cons.2 ⟨fun e' he' => Nat.lt_of_le_of_lt hbefore (hlater e' he'), hpair⟩, ?_⟩
      rintro e' (_ | ⟨_, he'⟩)
      · exact hbehind
      · exact Nat.lt_of_le_of_lt hle (hlater e' he')

/-! ## All errors -/

theorem dropRepeated_eq {es : List ParseError} (h : es.Pairwise fun a b => a.span.offset < b.span.offset) :
    dropRepeated es = es := by
  fun_induction dropRepeated es with
  | case1 a rest ih =>
    obtain ⟨ha, hrest⟩ := List.pairwise_cons.1 h
    have hkept : rest.dropWhile (fun b => b.span.offset == a.span.offset) = rest := by
      rcases rest with _ | ⟨b, rest⟩
      · rfl
      · have hlt := ha b List.mem_cons_self
        rw [List.dropWhile_cons_of_neg (by simp only [beq_iff_eq]; omega)]
    rw [hkept] at ih ⊢
    rw [ih hrest]
  | case2 => rfl

/-- Errors in order are neither moved nor dropped. -/
theorem dropRepeated_mergeSort {es : List ParseError} (h : es.Pairwise fun a b => a.span.offset < b.span.offset) :
    es.mergeSort (fun a b => decide (a.span.offset ≤ b.span.offset)) = es ∧
      dropRepeated (es.mergeSort fun a b => decide (a.span.offset ≤ b.span.offset)) = es := by
  have hsorted : es.mergeSort (fun a b => decide (a.span.offset ≤ b.span.offset)) = es :=
    List.mergeSort_of_pairwise (h.imp fun hab => decide_eq_true (Nat.le_of_lt hab))
  rw [hsorted]
  exact ⟨rfl, dropRepeated_eq h⟩

/-! ## The charged chunk -/

/-- The chunk the strict error is charged to has the place where strict reading stopped; the chunks
before it lie in a text that strict reading could have gone on with. -/
theorem exists_charged {source : String} {ls : List Lexeme} {strict : ParseError} (htokens : tokenize source = .ok ls)
    (hstrict : parseTokens source ls = .error strict) (hne : ls ≠ []) :
    ∃ as us vs ds, chunks ls = as ++ (us ++ vs) :: ds ∧ chargedChunk (chunks ls) strict.span.offset = as.length ∧
      strict.span.offset = offsetOf (Span.atEnd source).offset (vs ++ ds.flatten) ∧ ∀ w ∈ as, Standalone w := by
  obtain ⟨us, vs, hcut, hrefused, hspan, -⟩ := Grammar.reads_schemas.readAll_error hstrict
  have hchunks : chunks ls ≠ [] := by
    intro h
    exact hne (by rw [← flatten_chunks ls, h, List.flatten_nil])
  obtain ⟨as, ds, us, vs, hws, rfl, rfl, hus⟩ := cut_flatten hchunks (hcut.symm.trans (flatten_chunks ls).symm)
  have hoffset : strict.span.offset = offsetOf (Span.atEnd source).offset (vs ++ ds.flatten) := by
    rw [hspan, offset_spanOf]
  refine ⟨as, us, vs, ds, hws, ?_, hoffset, ?_⟩
  · have horder := inOrder_of_tokenize htokens
    rw [← flatten_chunks ls, hws] at horder
    rw [hws, hoffset]
    exact chargedChunk_cut (fun w hw => ne_nil_of_mem_chunks (hws ▸ hw)) horder hus
  · obtain ⟨z, -, t, ht, -⟩ := hrefused.viable
    exact standalone_of_viable hws hus ht

/-- How the errors of a text extend the strict one. -/
structure Extends (source : String) (ls : List Lexeme) (strict : ParseError) (errors : List ParseError) : Prop where
  /-- Bringing the errors in order and dropping those at one place loses nothing and moves nothing. -/
  kept : errors = strict :: otherErrors (withEnds (Span.atEnd source) (chunks ls))
    (chargedChunk (chunks ls) strict.span.offset)
  /-- The other errors are those of the chunks behind the charged one. -/
  behind : otherErrors (withEnds (Span.atEnd source) (chunks ls)) (chargedChunk (chunks ls) strict.span.offset) =
    ((withEnds (Span.atEnd source) (chunks ls)).drop (chargedChunk (chunks ls) strict.span.offset + 1)).filterMap ownError?
  /-- A chunk has an error of its own unless it can be read by itself. -/
  own : ∀ x ∈ withEnds (Span.atEnd source) (chunks ls), ownError? x = none ↔ Standalone x.1
  /-- The chunks before the charged one can be read by themselves. -/
  before : ∀ w ∈ (chunks ls).take (chargedChunk (chunks ls) strict.span.offset), Standalone w
  /-- The strict error lies in the charged chunk or where the next one starts. -/
  charged : ∀ w, (chunks ls)[chargedChunk (chunks ls) strict.span.offset]? = some w →
    startOf w ≤ strict.span.offset ∧ strict.span.offset ≤
      ((chunks ls)[chargedChunk (chunks ls) strict.span.offset + 1]?.map startOf).getD (byteLength source.toList)
  increasing : errors.Pairwise fun a b => a.span.offset < b.span.offset
  /-- An error of a later chunk stands behind the first token of its chunk, and not behind the start
  of the next one. -/
  placed : ∀ i x e, chargedChunk (chunks ls) strict.span.offset < i →
    (withEnds (Span.atEnd source) (chunks ls))[i]? = some x → ownError? x = some e →
      (∃ us vs, x.1 = us ++ vs ∧ us ≠ [] ∧ e.span = spanOf x.2 vs) ∧ startOf x.1 < e.span.offset ∧
        e.span.offset ≤ ((chunks ls)[i + 1]?.map startOf).getD (byteLength source.toList)

/-- Where the chunk after a place starts, or the text ends. -/
theorem offsetOf_flatten {stop : Nat} {ws : List (List Lexeme)} (hne : ∀ w ∈ ws, w ≠ []) :
    offsetOf stop ws.flatten = (ws.head?.map startOf).getD stop := by
  rcases ws with _ | ⟨w, ws⟩
  · rfl
  · exact (startOf_append (hne w List.mem_cons_self) stop ws.flatten).symm

theorem getElem?_withEnds {stop : Span} {ws : List (List Lexeme)} (hne : ∀ w ∈ ws, w ≠ []) {i : Nat} {x : List Lexeme × Span}
    (h : (withEnds stop ws)[i]? = some x) : x.2.offset = (ws[i + 1]?.map startOf).getD stop.offset := by
  induction ws generalizing i with
  | nil => cases h
  | cons w ws ih =>
    have hws : ∀ v ∈ ws, v ≠ [] := fun v hv => hne v (List.mem_cons_of_mem _ hv)
    rcases i with _ | i
    · cases h
      rw [List.getElem?_cons_succ, ← List.head?_eq_getElem?, ← offsetOf_flatten hws]
      exact offset_withEnds hws
    · exact ih hws h

theorem drop_withEnds (stop : Span) (as : List (List Lexeme)) (b : List Lexeme) (ds : List (List Lexeme)) :
    (withEnds stop (as ++ b :: ds)).drop (as.length + 1) = withEnds stop ds := by
  induction as with
  | nil => rfl
  | cons a as ih => exact ih

/-- The strict error comes before those of the chunks behind it. -/
theorem pairwise_errors {stop : Span} {ds : List (List Lexeme)} {strict : ParseError} (hopen : AllOpen ds)
    (horder : InOrder stop.offset ds.flatten) (hle : strict.span.offset ≤ offsetOf stop.offset ds.flatten) :
    (strict :: (withEnds stop ds).filterMap ownError?).Pairwise fun a b => a.span.offset < b.span.offset := by
  obtain ⟨hpair, hlater⟩ := pairwise_ownErrors hopen horder
  exact List.pairwise_cons.2 ⟨fun e he => Nat.lt_of_le_of_lt hle (hlater e he), hpair⟩

/-- The error of a chunk that has others before it stands behind the chunk's first token, and not
behind the start of the next one. -/
theorem ownError?_placed {ls : List Lexeme} {as ds : List (List Lexeme)} {b : List Lexeme} {stop : Span}
    (hws : chunks ls = as ++ b :: ds) (horder : InOrder stop.offset ds.flatten) {i : Nat} (hi : as.length < i)
    {x : List Lexeme × Span} (hx : (withEnds stop (chunks ls))[i]? = some x) {e : ParseError} (he : ownError? x = some e) :
    (∃ us vs, x.1 = us ++ vs ∧ us ≠ [] ∧ e.span = spanOf x.2 vs) ∧ startOf x.1 < e.span.offset ∧
      e.span.offset ≤ ((chunks ls)[i + 1]?.map startOf).getD stop.offset := by
  have hopen := allOpen_of_chunks hws
  have hend := getElem?_withEnds (fun w hw => ne_nil_of_mem_chunks hw) hx
  have hmem : x ∈ withEnds stop ds := by
    obtain ⟨j, rfl⟩ := Nat.exists_eq_add_of_lt hi
    rw [Nat.add_right_comm, ← List.getElem?_drop, hws, drop_withEnds] at hx
    exact List.mem_of_getElem? hx
  obtain ⟨hstart, hstop⟩ := ownError?_withEnds hopen horder hmem he
  obtain ⟨l, ms, hl, hopens⟩ := hopen x.1 (mem_of_mem_withEnds hmem)
  obtain ⟨us, vs, hcut, hus, hspan, -⟩ := ownError?_cut hopens (show ownError? (l :: ms, x.2) = some e by rw [← hl, he])
  rw [← hend]
  exact ⟨⟨us, vs, hl.trans hcut, hus, hspan⟩, hstart, hstop⟩

theorem extends_errorsAfter {source : String} {ls : List Lexeme} {strict : ParseError} (htokens : tokenize source = .ok ls)
    (hstrict : parseTokens source ls = .error strict) : Extends source ls strict (errorsAfter source ls strict) := by
  have hown : ∀ x ∈ withEnds (Span.atEnd source) (chunks ls), ownError? x = none ↔ Standalone x.1 :=
    fun x _ => ownError?_eq_none_iff
  by_cases hne : ls = []
  · subst hne
    have hone : errorsAfter source [] strict = [strict] := by
      simp [errorsAfter, chunks, withEnds, otherErrors, dropRepeated]
    exact ⟨hone, rfl, hown, fun w hw => (by cases hw), fun w hw => (by cases hw),
      by rw [hone]; exact List.pairwise_singleton _ _, fun i x e _ hx => by cases hx⟩
  obtain ⟨as, us, vs, ds, hws, hcharged, hoffset, hbefore⟩ := exists_charged htokens hstrict hne
  have horder := inOrder_of_tokenize htokens
  rw [← flatten_chunks ls, hws, List.flatten_append, List.flatten_cons, List.append_assoc] at horder
  have hopen := allOpen_of_chunks hws
  have hbehind := hws ▸ otherErrors_charged (Span.atEnd source) (us ++ vs) ds hbefore
  -- the strict error does not lie behind the start of the next chunk, the other errors do
  have hle : strict.span.offset ≤ offsetOf (Span.atEnd source).offset ds.flatten := by
    rw [hoffset]
    exact horder.right.right.offsetOf_le
  have hincreasing := pairwise_errors hopen horder.right.right.right hle
  have hkept : errorsAfter source ls strict = strict :: (withEnds (Span.atEnd source) ds).filterMap ownError? := by
    unfold errorsAfter
    simp only [hcharged, hbehind]
    exact (dropRepeated_mergeSort hincreasing).2
  constructor
  case kept => rw [hkept, hcharged, hbehind]
  case behind => rw [hcharged, hbehind, hws, drop_withEnds]
  case own => exact hown
  case before =>
    rw [hcharged, hws, List.take_left]
    exact hbefore
  case charged =>
    intro w hw
    rw [hcharged, hws, List.getElem?_append_right (Nat.le_refl _), Nat.sub_self] at hw
    cases hw
    rw [hcharged, hws, List.getElem?_append_right (Nat.le_add_right _ 1), Nat.add_sub_cancel_left, List.getElem?_cons_succ,
      ← List.head?_eq_getElem?, ← Span.offset_atEnd, ← offsetOf_flatten hopen.ne_nil]
    refine ⟨?_, hle⟩
    have hcut : us ++ vs ∈ chunks ls := by simp [hws]
    rw [hoffset, startOf_append (ne_nil_of_mem_chunks hcut) (Span.atEnd source).offset ds.flatten, List.append_assoc]
    exact horder.right.offsetOf_le
  case increasing =>
    rw [hkept]
    exact hincreasing
  case placed =>
    intro i x e hi hx he
    rw [hcharged] at hi
    rw [← Span.offset_atEnd]
    exact ownError?_placed hws horder.right.right.right hi hx he

end Recovery

open Recovery in
/-- Reading with recovery gives the schema of a source that is parsed, and of a source that is not
made of tokens the error of reading them. From any other source it gives the strict error, then one
error for each chunk behind the charged one that cannot be read by itself. -/
theorem recover_extends_parse (source : String) :
    (∀ s, parse source = .ok s → recover source = ⟨some s, []⟩) ∧
      (∀ e, tokenize source = .error e → recover source = ⟨none, [.lex e]⟩) ∧
      ∀ ls, tokenize source = .ok ls → (∀ s, parse source ≠ .ok s) →
        ∃ strict errors, parse source = .error (.parse strict) ∧ recover source = ⟨none, errors.map .parse⟩ ∧
          Extends source ls strict errors := by
  refine ⟨?_, ?_, ?_⟩
  · intro s hs
    obtain ⟨ls, htokens, hread⟩ := parse_ok_iff.1 hs
    unfold recover
    simp only [htokens, hread]
  · intro e he
    unfold recover
    simp only [he]
  · intro ls htokens hfail
    cases hread : parseTokens source ls with
    | ok s => exact absurd (parse_ok_iff.2 ⟨ls, htokens, hread⟩) (hfail s)
    | error strict =>
      refine ⟨strict, errorsAfter source ls strict, ?_, ?_, extends_errorsAfter htokens hread⟩
      · simp only [parse, htokens, hread, Except.mapError]
      · unfold recover
        simp only [htokens, hread]

open Recovery in
/-- Of three keywords that open something, the first has the strict error, each other its own. The
other sources are one that is parsed and one that is not made of tokens. -/
theorem recover_of_bare_keywords :
    recover "transaction T\x7b\x7d" = ⟨some emptyTransaction.schema, []⟩ ∧
      recover "@" = ⟨none, [.lex ⟨'@', "@", ⟨0, 1, 1, 1⟩⟩]⟩ ∧
      ∃ (strict : ParseError) (errors : List ParseError),
        recover "transaction actor message" = ⟨none, errors.map .parse⟩ ∧
          parse "transaction actor message" = .error (.parse strict) ∧ errors.head? = some strict ∧
          errors.map (·.span.offset) = [12, 18, 25] := by
  have hempty : tokenize "transaction T\x7b\x7d" = .ok emptyTransaction.lexemes := by cbv
  have hread : parse "transaction T\x7b\x7d" = .ok emptyTransaction.schema :=
    parse_ok_iff_derivation.2 ⟨emptyTransaction, hempty, rfl⟩
  have hjunk : tokenize "@" = .error ⟨'@', "@", ⟨0, 1, 1, 1⟩⟩ := by cbv
  have htokens : tokenize "transaction actor message" = .ok [⟨.keyword .transaction, "transaction", ⟨0, 11, 1, 1⟩⟩,
      ⟨.keyword .actor, "actor", ⟨12, 5, 1, 13⟩⟩, ⟨.keyword .message, "message", ⟨18, 7, 1, 19⟩⟩] := by cbv
  have hfail : ∀ s, parse "transaction actor message" ≠ .ok s := by
    intro s hs
    rw [parse, htokens] at hs
    cases hs
  refine ⟨(recover_extends_parse _).1 _ hread, (recover_extends_parse _).2.1 _ hjunk, ?_⟩
  obtain ⟨strict, errors, hparse, hrecover, hextends⟩ := (recover_extends_parse _).2.2 _ htokens hfail
  refine ⟨strict, errors, hrecover, hparse, by rw [hextends.kept]; rfl, ?_⟩
  rw [hextends.kept, hextends.behind]
  rw [parse, htokens] at hparse
  cases hparse
  rfl

end Parley
