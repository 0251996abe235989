/-
Recovery does not cascade. Take a schema and replace in some of its chunks everything but the
keyword by tokens that open nothing: reading with recovery reports at most one error for each
damaged chunk, and every error lies in a damaged chunk or on the first token after it. The error
that stops strict reading speaks for a damaged chunk, since after an undamaged chunk that could be
read so far the text could have gone on as it did in the schema; every other undamaged chunk can be
read by itself.
-/
import Parley.Proofs.Recovery.Charge
import Parley.Proofs.Recovery.Chunks

namespace Parley

namespace Recovery

/-! ## Damage -/

/-- What a chunk starts with: a keyword, `entry block` counting as one. -/
def leading : List Token → List Token
  | .keyword .entry :: .keyword .block :: _ => [.keyword .entry, .keyword .block]
  | t :: _ => [t]
  | [] => []

/-- A chunk after damage: as it was, or with other tokens for all but its keyword. -/
def damaged (chunk : List Token) : Option (List Token) → List Token
  | none => chunk
  | some junk => leading chunk ++ junk

theorem leading_append {head : List Token} (h : Opening head) (body : List Token) : leading (head ++ body) = head := by
  cases h with
  | keyword word _ hother => cases word <;> first | rfl | exact absurd rfl hother
  | entryBlock => rfl

theorem oneChunk_damaged {chunk : List Token} (h : OneChunk chunk) {damage : Option (List Token)}
    (hquiet : ∀ junk, damage = some junk → ∀ t ∈ junk, t.opensDeclaration = false) : OneChunk (damaged chunk damage) := by
  rcases damage with _ | junk
  · exact h
  · obtain ⟨head, body, hhead, -, rfl⟩ := h
    exact ⟨head, junk, hhead, hquiet junk rfl, by rw [damaged, leading_append hhead]⟩

/-- Damage leaves the first token. -/
theorem head?_damaged {chunk : List Token} (h : OneChunk chunk) (damage : Option (List Token)) :
    (damaged chunk damage).head? = chunk.head? := by
  rcases damage with _ | junk
  · rfl
  · obtain ⟨head, body, hhead, -, rfl⟩ := h
    rw [damaged, leading_append hhead]
    cases hhead <;> rfl

/-- A chunk of a schema, perhaps damaged, and the lexemes found in its place. -/
structure FoundChunk where
  original : ChunkTree
  damage : Option (List Token)
  found : List Lexeme
  quiet : ∀ junk, damage = some junk → ∀ t ∈ junk, t.opensDeclaration = false
  holds : tokensOf found = damaged (tokensOf original.lexemes) damage

namespace FoundChunk

theorem oneChunk (c : FoundChunk) : OneChunk (tokensOf c.found) := by
  rw [c.holds]
  exact oneChunk_damaged c.original.oneChunk c.quiet

theorem upcoming_found (c : FoundChunk) (us vs : List Lexeme) :
    upcoming (c.found ++ us) = upcoming (c.original.lexemes ++ vs) := by
  obtain ⟨l, ms, hl, -⟩ := c.oneChunk.head
  obtain ⟨l', ms', hl', -⟩ := c.original.oneChunk.head
  have hhead := head?_damaged c.original.oneChunk c.damage
  rw [← c.holds, hl, hl'] at hhead
  rw [hl, hl']
  exact hhead

/-- An undamaged chunk is read by itself. -/
theorem chunk_found (c : FoundChunk) (h : c.damage = none) : ∃ x, (Grammar.chunk c.found).result = some x := by
  have hblind := (Grammar.blind_chunk c.original.lexemes c.found (by rw [c.holds, h]; rfl)).2
  rw [c.original.complete] at hblind
  generalize (Grammar.chunk c.found).result = y at hblind ⊢
  cases hblind with
  | some _ => exact ⟨_, rfl⟩

theorem chunks_found (cs : List FoundChunk) : chunks (cs.flatMap (·.found)) = cs.map (·.found) := by
  rw [List.flatMap_def]
  refine chunks_flatten fun w hw => ?_
  obtain ⟨c, -, rfl⟩ := List.mem_map.1 hw
  exact c.oneChunk

end FoundChunk

/-! ## The chunk that the strict error speaks for -/

/-- A cut of the lexemes of some chunks lies in one of them, or behind its last lexeme; before the
first chunk only if nothing is on the left. -/
theorem cut_chunks {cs : List FoundChunk} {us vs : List Lexeme} (hne : cs ≠ []) (h : us ++ vs = cs.flatMap (·.found)) :
    ∃ as b ds us' vs', cs = as ++ b :: ds ∧ b.found = us' ++ vs' ∧ us = as.flatMap (·.found) ++ us' ∧
      vs = vs' ++ ds.flatMap (·.found) ∧ (as ≠ [] → us' ≠ []) := by
  rw [List.flatMap_def] at h
  obtain ⟨as, ds, us', vs', hws, rfl, rfl, hus⟩ := cut_flatten (by simpa using hne) h
  obtain ⟨as, cs, rfl, rfl, hcs⟩ := List.map_eq_append_iff.1 hws
  obtain ⟨b, ds, rfl, hb, rfl⟩ := List.map_eq_cons_iff.1 hcs
  exact ⟨as, b, ds, us', vs', rfl, hb, by rw [List.flatMap_def], by rw [List.flatMap_def], fun has => hus (by simpa using has)⟩

/-- A chunk that the text could be read into can be followed by what followed it in the schema. -/
theorem resumes {as ds : List FoundChunk} {b : FoundChunk} {us : List Lexeme} {z : List Lexeme} {t : SchemaTree}
    (hrun : ChunkTree.run false ((as ++ b :: ds).map (·.original)) = some false) (hus : as ≠ [] → us ≠ [])
    (hfront : ∃ vs, b.found = us ++ vs) (ht : as ≠ [] → t.lexemes = as.flatMap (·.found) ++ (us ++ z)) :
    ∃ t' : SchemaTree, t'.lexemes =
      as.flatMap (·.found) ++ (b.original.lexemes ++ (ds.map (·.original)).flatMap ChunkTree.lexemes) := by
  rw [List.map_append, List.map_cons] at hrun
  by_cases has : as = []
  · subst has
    obtain ⟨t', ht'⟩ := ChunkTree.schema_of_run (List.cons_ne_nil _ _) hrun
    exact ⟨t', by simpa using ht'⟩
  -- the schema that the text begins with is cut where `b` starts, and from there goes on as before
  obtain ⟨vs, hb⟩ := hfront
  obtain ⟨l, us, rfl⟩ := List.exists_cons_of_ne_nil (hus has)
  obtain ⟨cs, -, hcs, hlexemes⟩ := ChunkTree.run_schema t
  have hl : l.token.opensDeclaration = true := by
    obtain ⟨l', ms, hl', hopens⟩ := b.oneChunk.head
    rw [hb, List.cons_append] at hl'
    cases hl'; exact hopens
  have hstarts : ∀ a ∈ (as.flatMap (·.found)).getLast?, startsChunk a.token l.token = true := by
    intro a ha
    rcases List.eq_nil_or_concat as with rfl | ⟨as', a', rfl⟩
    · exact absurd rfl has
    · obtain ⟨l', ms, hl', -⟩ := a'.oneChunk.head
      rw [List.concat_eq_append, List.flatMap_append, List.flatMap_cons, List.flatMap_nil, List.append_nil,
        List.getLast?_append_of_ne_nil _ (by simp [hl'])] at ha
      simp [startsChunk, hl, a'.oneChunk.getLast a ha]
  have hchunks := ChunkTree.chunks_run cs
  rw [hlexemes, ht has, List.cons_append, chunks_append hstarts, FoundChunk.chunks_found] at hchunks
  obtain ⟨cs₁, cs₂, rfl, hcs₁, hcs₂⟩ := List.map_eq_append_iff.1 hchunks.symm
  have hflat : cs₁.flatMap ChunkTree.lexemes = as.flatMap (·.found) := by rw [List.flatMap_def, hcs₁, List.flatMap_def]
  rcases cs₂ with _ | ⟨c, cs₂⟩
  · exact absurd hcs₂.symm (chunks_ne_nil _ _)
  have hup : upcoming (c.lexemes ++ cs₂.flatMap ChunkTree.lexemes) = some l.token := by
    rw [List.flatMap_append, List.flatMap_cons, hflat, ht has, List.append_cancel_left_eq] at hlexemes
    rw [hlexemes]; rfl
  have hinside : c.inside = b.original.inside := by
    have hb' : upcoming (b.original.lexemes ++ []) = some l.token := by
      rw [← b.upcoming_found [] [], hb]; rfl
    rw [Bool.eq_iff_iff, ← not_iff_not, Bool.not_eq_true, Bool.not_eq_true, c.upcoming_lexemes, b.original.upcoming_lexemes,
      hup, hb']
  have hswap := ChunkTree.run_swap hinside hcs hrun
  obtain ⟨t', ht'⟩ := ChunkTree.schema_of_run (by simp) hswap
  exact ⟨t', by rw [ht', List.flatMap_append, List.flatMap_cons, hflat]⟩

/-- The furthest mismatch of a text that is refused lies in a damaged chunk or right behind it. -/
theorem mismatch_damaged {cs : List FoundChunk} (hne : cs ≠ [])
    (hrun : ChunkTree.run false (cs.map (·.original)) = some false) {m : Mismatch}
    (hfail : (Grammar.schema (cs.flatMap (·.found))).result = none)
    (hm : (Grammar.schema (cs.flatMap (·.found))).furthest = some m) :
    ∃ as b ds us vs, cs = as ++ b :: ds ∧ b.damage ≠ none ∧ b.found = us ++ vs ∧ (as ≠ [] → us ≠ []) ∧
      (vs ++ ds.flatMap (·.found)).length = m.left := by
  obtain ⟨w, rest, z, _, hcut, hrest, t, ht, -⟩ := Grammar.reads_schemas.viable_to_end hm
  obtain ⟨as, b, ds, us, vs, rfl, hb, rfl, rfl, hus⟩ := cut_chunks hne hcut.symm
  -- were `b` undamaged, a schema would agree with the text beyond the mismatch
  refine ⟨as, b, ds, us, vs, rfl, fun hdamage => ?_, hb, hus, hrest⟩
  obtain ⟨t', ht'⟩ := resumes hrun hus ⟨vs, hb⟩ fun _ => by rw [ht, List.append_assoc]
  have horiginal : tokensOf b.original.lexemes = tokensOf us ++ tokensOf vs := by
    rw [← tokensOf_append, ← hb, b.holds, hdamage]; rfl
  -- the text as it is up to the first token after the cut, and as the schema goes on from there
  have htokens : tokensOf t'.lexemes = tokensOf (as.flatMap (·.found) ++ us) ++
      tokensOf (vs ++ (ds.map (·.original)).flatMap ChunkTree.lexemes) := by
    simp [ht', horiginal]
  have hnext : upcoming (vs ++ ds.flatMap (·.found)) = upcoming (vs ++ (ds.map (·.original)).flatMap ChunkTree.lexemes) := by
    rcases vs with _ | ⟨l, vs⟩
    · rcases ds with _ | ⟨d, ds⟩
      · rfl
      · exact d.upcoming_found _ _
    · rfl
  rw [hcut] at hfail hm
  rcases hv : vs ++ ds.flatMap (·.found) with _ | ⟨l, r⟩
  · rw [hv] at hnext hfail
    rcases hv' : vs ++ (ds.map (·.original)).flatMap ChunkTree.lexemes with _ | ⟨l', r'⟩
    · refine Grammar.inLanguage_iff.1 ⟨t', ?_⟩ hfail
      rw [htokens, hv', List.append_nil]
      simp
    · rw [hv'] at hnext; cases hnext
  · rcases hv' : vs ++ (ds.map (·.original)).flatMap ChunkTree.lexemes with _ | ⟨l', r'⟩
    · rw [hv, hv'] at hnext; cases hnext
    · rw [hv, hv', upcoming_cons, upcoming_cons, Option.some.injEq] at hnext
      rw [hv, List.append_cons] at hfail hm
      -- nothing after `l` has been looked at, so the schema `t'` would be refused as well
      have hrefused := Grammar.reads_schemas.stays_refused hfail hm (by rw [hv] at hrest; simp at hrest; omega) r'
      refine Grammar.inLanguage_iff.1 ⟨t', ?_⟩ hrefused
      rw [htokens, hv']
      simp [hnext]

/-! ## Where the strict error is charged -/

theorem FoundChunk.found_ne_nil (c : FoundChunk) : c.found ≠ [] := by
  obtain ⟨l, ms, hl, -⟩ := c.oneChunk.head
  simp [hl]

/-- An error that lies in a chunk or right behind it is charged to the chunk; before the first chunk
there is none to charge instead. -/
theorem chargedChunk_eq {stop : Nat} {as ds : List FoundChunk} {b : FoundChunk} {us vs : List Lexeme}
    (horder : InOrder stop ((as ++ b :: ds).flatMap (·.found))) (hb : b.found = us ++ vs) (hus : as ≠ [] → us ≠ []) :
    chargedChunk ((as ++ b :: ds).map (·.found)) (offsetOf stop (vs ++ ds.flatMap (·.found))) = as.length := by
  have hne : ∀ w ∈ (as ++ b :: ds).map (·.found), w ≠ [] := by
    intro w hw
    obtain ⟨c, -, rfl⟩ := List.mem_map.1 hw
    exact c.found_ne_nil
  rw [List.flatMap_def] at horder ⊢
  rw [List.map_append, List.map_cons, hb] at horder hne ⊢
  rw [chargedChunk_cut hne horder fun has => hus (by simpa using has), List.length_map]

/-! ## The errors of the other chunks -/

/-- An undamaged chunk has no error of its own. -/
theorem ownError_undamaged {c : FoundChunk} (h : c.damage = none) (charged : Nat) (stop : Span) (i : Nat) :
    ownError charged ((c.found, stop), i) = none := by
  obtain ⟨⟨a, rest⟩, hx⟩ := c.chunk_found h
  have hread : Grammar.chunk.readAll c.found stop = .ok a := by
    unfold Parser.readAll
    rcases hc : Grammar.chunk c.found with ⟨r, m⟩
    rw [hc] at hx
    cases (hx : r = _)
    rfl
  simp [ownError, hread]

theorem length_ownErrors_cons (c : FoundChunk) (stop : Span) (charged i : Nat) (xs : List ((List Lexeme × Span) × Nat)) :
    ((((c.found, stop), i) :: xs).filterMap (ownError charged)).length ≤
      (xs.filterMap (ownError charged)).length + if c.damage.isSome then 1 else 0 := by
  cases hdamage : c.damage with
  | none =>
    rw [List.filterMap_cons_none (ownError_undamaged hdamage ..)]
    exact Nat.le_add_right _ _
  | some junk =>
    have hle := List.length_filterMap_le (ownError charged) [((c.found, stop), i)]
    rw [← List.singleton_append, List.filterMap_append, List.length_append]
    simp only [List.length_singleton, Option.isSome_some, if_true] at hle ⊢
    omega

theorem length_ownErrors (stop : Span) (charged : Nat) (cs : List FoundChunk) (i : Nat) :
    (((withEnds stop (cs.map (·.found))).zipIdx i).filterMap (ownError charged)).length ≤
      cs.countP (·.damage.isSome) := by
  induction cs generalizing i with
  | nil => simp [withEnds]
  | cons c cs ih =>
    rw [List.map_cons, withEnds, List.zipIdx_cons, List.countP_cons]
    exact Nat.le_trans (length_ownErrors_cons ..) (Nat.add_le_add_right (ih (i + 1)) _)

/-- The chunk that the strict error speaks for adds no error. -/
theorem length_otherErrors (stop : Span) {as ds : List FoundChunk} {b : FoundChunk} (hb : b.damage ≠ none) (i : Nat) :
    (((withEnds stop ((as ++ b :: ds).map (·.found))).zipIdx i).filterMap (ownError (i + as.length))).length + 1 ≤
      (as ++ b :: ds).countP (·.damage.isSome) := by
  induction as generalizing i with
  | nil =>
    have hrest := length_ownErrors stop i ds (i + 1)
    rw [List.nil_append, List.map_cons, withEnds, List.zipIdx_cons, List.countP_cons]
    rw [List.filterMap_cons_none (by simp [ownError])]
    simpa [Option.isSome_iff_ne_none, hb] using hrest
  | cons a as ih =>
    have hrest := ih (i + 1)
    have hindex : i + (a :: as).length = i + 1 + as.length := by simp only [List.length_cons]; omega
    rw [hindex, List.cons_append, List.map_cons, withEnds, List.zipIdx_cons, List.countP_cons]
    have hcons := length_ownErrors_cons a (((as ++ b :: ds).map (·.found)).head?.bind List.head? |>.elim stop
      fun l => l.span.atStart) (i + 1 + as.length) i ((withEnds stop ((as ++ b :: ds).map (·.found))).zipIdx (i + 1))
    omega

/-- An error lies in a damaged chunk, or on the first token after it or the end of the text. -/
def InDamage (stop : Nat) (cs : List FoundChunk) (e : ParseError) : Prop :=
  ∃ as b ds, cs = as ++ b :: ds ∧ b.damage ≠ none ∧ startOf b.found ≤ e.span.offset ∧
    e.span.offset ≤ offsetOf stop (ds.flatMap (·.found))

theorem errorAt_offset (us : List Lexeme) {vs : List Lexeme} (stop : Span) {m : Mismatch} (h : vs.length = m.left) :
    (Parser.errorAt (us ++ vs) stop (some m)).span.offset = offsetOf stop.offset vs := by
  rw [(Parser.errorAt_cut us vs stop h).1, offset_spanOf]

theorem ownError_place {charged : Nat} {w : List Lexeme} {stop : Span} {i : Nat} {e : ParseError}
    (h : ownError charged ((w, stop), i) = some e) : (∃ l ∈ w, e.span = l.span) ∨ e.span = stop := by
  rw [ownError_eq] at h
  split at h
  · cases h
  · rcases Parser.place_of_error (readAll_of_ownError? h) with ⟨l, hl, hspan, -⟩ | ⟨hspan, -⟩
    · exact .inl ⟨l, hl, hspan⟩
    · exact .inr hspan

/-- The error of a chunk read by itself lies in the chunk or where the next one starts. -/
theorem ownError_between {stop : Span} {charged i : Nat} {c : FoundChunk} {cs : List FoundChunk} {e : ParseError}
    (horder : InOrder stop.offset (c.found ++ cs.flatMap (·.found)))
    (h : ownError charged ((c.found,
      ((cs.map (·.found)).head?.bind List.head?).elim stop fun l => l.span.atStart), i) = some e) :
    startOf c.found ≤ e.span.offset ∧ e.span.offset ≤ offsetOf stop.offset (cs.flatMap (·.found)) := by
  have hnext : (((cs.map (·.found)).head?.bind List.head?).elim stop fun l => l.span.atStart).offset =
      offsetOf stop.offset (cs.flatMap (·.found)) := by
    rcases cs with _ | ⟨d, cs⟩
    · rfl
    · obtain ⟨l, ms, hl, -⟩ := d.oneChunk.head
      simp [hl, offsetOf, Span.atStart]
  rcases ownError_place h with ⟨l, hl, hspan⟩ | hspan
  · rw [hspan]
    refine ⟨?_, Nat.le_of_lt (horder.lt hl)⟩
    obtain ⟨l', ms, hc, -⟩ := c.oneChunk.head
    have hsorted := horder.left.1
    rw [hc] at hl hsorted ⊢
    rcases List.mem_cons.1 hl with rfl | hl
    · exact Nat.le_refl _
    · exact Nat.le_of_lt ((List.pairwise_cons.1 hsorted).1 l hl)
  · rw [hspan, hnext, startOf_append c.found_ne_nil stop.offset (cs.flatMap (·.found))]
    exact ⟨horder.offsetOf_le, Nat.le_refl _⟩

theorem inDamage_ownError {stop : Span} {charged : Nat} {cs : List FoundChunk}
    (horder : InOrder stop.offset (cs.flatMap (·.found))) (i : Nat) {e : ParseError}
    (he : e ∈ ((withEnds stop (cs.map (·.found))).zipIdx i).filterMap (ownError charged)) : InDamage stop.offset cs e := by
  induction cs generalizing i with
  | nil => simp [withEnds] at he
  | cons c cs ih =>
    rw [List.flatMap_cons] at horder
    have hlater : e ∈ ((withEnds stop (cs.map (·.found))).zipIdx (i + 1)).filterMap (ownError charged) →
        InDamage stop.offset (c :: cs) e := by
      intro he
      obtain ⟨as, b, ds, rfl, h⟩ := ih horder.right (i + 1) he
      exact ⟨c :: as, b, ds, rfl, h⟩
    rw [List.map_cons, withEnds, List.zipIdx_cons, List.filterMap_cons] at he
    split at he
    · exact hlater he
    · rename_i own hown
      rcases List.mem_cons.1 he with rfl | he
      · have hdamage : c.damage ≠ none := fun h => by simp [ownError_undamaged h] at hown
        exact ⟨[], c, cs, rfl, hdamage, ownError_between horder hown⟩
      · exact hlater he

theorem dropRepeated_sublist (es : List ParseError) : (dropRepeated es).Sublist es := by
  fun_induction dropRepeated es with
  | case1 a rest ih => exact (ih.trans (List.dropWhile_sublist _)).cons_cons a
  | case2 => exact List.Sublist.refl _

/-! ## All errors -/

/-- The errors of a damaged schema: at most one for each damaged chunk, each in its chunk. -/
theorem errorsAfter_damage {source : String} {cs : List FoundChunk} (hne : cs ≠ [])
    (hrun : ChunkTree.run false (cs.map (·.original)) = some false)
    (horder : InOrder (Span.atEnd source).offset (cs.flatMap (·.found)))
    (hfail : (Grammar.schema (cs.flatMap (·.found))).result = none) {strict : ParseError}
    (hstrict : strict = Parser.errorAt (cs.flatMap (·.found)) (Span.atEnd source)
      (Grammar.schema (cs.flatMap (·.found))).furthest) :
    (errorsAfter source (cs.flatMap (·.found)) strict).length ≤ cs.countP (·.damage.isSome) ∧
      ∀ e ∈ errorsAfter source (cs.flatMap (·.found)) strict, InDamage (Span.atEnd source).offset cs e := by
  obtain ⟨m, hm⟩ := Option.ne_none_iff_exists'.1 (Grammar.reads_schemas.explained_to_end hfail)
  obtain ⟨as, b, ds, us, vs, rfl, hb, hfound, hus, hleft⟩ := mismatch_damaged hne hrun hfail hm
  have hsplit : (as ++ b :: ds).flatMap (·.found) = as.flatMap (·.found) ++ us ++ (vs ++ ds.flatMap (·.found)) := by
    simp [hfound]
  have hplace : strict.span.offset = offsetOf (Span.atEnd source).offset (vs ++ ds.flatMap (·.found)) := by
    have hm : (Grammar.schema ((as ++ b :: ds).flatMap (·.found))).furthest = some m := hm
    rw [hstrict, hm, hsplit]
    exact errorAt_offset _ _ hleft
  have hcharged := chargedChunk_eq horder hfound hus
  rw [← hplace] at hcharged
  unfold errorsAfter
  simp only [FoundChunk.chunks_found, hcharged]
  constructor
  · -- one error is the strict one, charged to `b`; the others belong to damaged chunks besides `b`
    refine Nat.le_trans (dropRepeated_sublist _).length_le ?_
    rw [List.length_mergeSort, List.length_cons, otherErrors_eq]
    simpa using length_otherErrors (Span.atEnd source) hb 0
  · intro e he
    have he := (dropRepeated_sublist _).subset he
    rw [List.mem_mergeSort, List.mem_cons] at he
    rcases he with rfl | he
    · refine ⟨as, b, ds, rfl, hb, ?_, ?_⟩
      · rw [hplace, startOf_append b.found_ne_nil (Span.atEnd source).offset (ds.flatMap (·.found)), hfound,
          List.append_assoc]
        have hright : InOrder (Span.atEnd source).offset (us ++ (vs ++ ds.flatMap (·.found))) := by
          rw [hsplit, List.append_assoc] at horder
          exact horder.right
        exact hright.offsetOf_le
      · rw [hplace]
        exact (hsplit ▸ horder).right.offsetOf_le
    · exact inDamage_ownError horder 0 he

theorem exists_found : ∀ (cs : List ChunkTree) (damages : List (Option (List Token))) (ls : List Lexeme),
    damages.length = cs.length → (∀ junk, some junk ∈ damages → ∀ t ∈ junk, t.opensDeclaration = false) →
    tokensOf ls = (List.zipWith (fun c d => damaged (tokensOf c) d) (cs.map ChunkTree.lexemes) damages).flatten →
    ∃ fs : List FoundChunk, fs.map (·.original) = cs ∧ fs.map (·.damage) = damages ∧ fs.flatMap (·.found) = ls
  | [], [], ls, _, _, h => ⟨[], rfl, rfl, (List.map_eq_nil_iff.1 h).symm⟩
  | [], _ :: _, _, h, _, _ => by simp at h
  | _ :: _, [], _, h, _, _ => by simp at h
  | c :: cs, d :: damages, ls, hlength, hquiet, h => by
    obtain ⟨l₁, l₂, rfl, h₁, h₂⟩ := List.map_eq_append_iff.1 h
    obtain ⟨fs, rfl, rfl, rfl⟩ := exists_found cs damages l₂ (by simpa using hlength)
      (fun junk hjunk => hquiet junk (List.mem_cons_of_mem _ hjunk)) h₂
    exact ⟨⟨c, d, l₁, fun junk hjunk => hquiet junk (hjunk ▸ List.mem_cons_self), h₁⟩ :: fs, rfl, rfl, rfl⟩

end Recovery

open Recovery in
/-- Reading with recovery reports at most one error for each damaged chunk of a schema, each between
the first token of a damaged chunk and the first token of the next chunk or the end of the text. -/
theorem recovery_never_cascades {source₀ : String} {original : List Lexeme} {s : Schema}
    (haccepted : parseTokens source₀ original = .ok s) {damages : List (Option (List Token))}
    (hlength : damages.length = (chunks original).length)
    (hquiet : ∀ junk, some junk ∈ damages → ∀ t ∈ junk, t.opensDeclaration = false)
    {source : String} {ls : List Lexeme} (htokens : tokenize source = .ok ls)
    (hdamage : tokensOf ls = (List.zipWith (fun c d => damaged (tokensOf c) d) (chunks original) damages).flatten) :
    ∃ pieces : List (List Lexeme), pieces.flatten = ls ∧
      pieces.map tokensOf = List.zipWith (fun c d => damaged (tokensOf c) d) (chunks original) damages ∧
      (recover source).errors.length ≤ damages.countP Option.isSome ∧
      ∀ e ∈ (recover source).errors, ∃ (i : Nat) (piece : List Lexeme) (junk : List Token),
        pieces[i]? = some piece ∧ damages[i]? = some (some junk) ∧ startOf piece ≤ e.span.offset ∧
          e.span.offset ≤ (pieces[i + 1]?.map startOf).getD (byteLength source.toList) := by
  obtain ⟨t, rfl, rfl⟩ := parseTokens_ok_iff.1 haccepted
  obtain ⟨trees, hne, hrun, htrees⟩ := ChunkTree.run_schema t
  rw [← htrees, ChunkTree.chunks_run] at hlength hdamage ⊢
  obtain ⟨cs, rfl, rfl, rfl⟩ := exists_found trees damages ls (by simpa using hlength) hquiet hdamage
  have horder := inOrder_of_tokenize htokens
  refine ⟨cs.map (·.found), (List.flatMap_def ..).symm, ?_, ?_⟩
  · clear hlength hquiet hdamage hrun htrees hne htokens horder
    induction cs with
    | nil => rfl
    | cons c cs ih => simp only [List.map_cons, List.zipWith_cons_cons, c.holds, ih]
  have hcs : cs ≠ [] := by simpa using hne
  unfold recover
  rw [htokens]
  simp only
  cases hparse : parseTokens source (cs.flatMap (·.found)) with
  | ok s => exact ⟨Nat.zero_le _, nofun⟩
  | error strict =>
    have hread := hparse
    unfold parseTokens Parser.readAll at hread
    split at hread
    · cases hread
    · rename_i furthest heq
      cases hread
      obtain ⟨hcount, hplaces⟩ := errorsAfter_damage hcs hrun horder (by rw [heq]) (by rw [heq])
      simp only [List.length_map, List.countP_map]
      refine ⟨hcount, ?_⟩
      intro e he
      obtain ⟨e, hmem, rfl⟩ := List.mem_map.1 he
      obtain ⟨as, b, ds, rfl, hb, hle, hge⟩ := hplaces e hmem
      obtain ⟨junk, hjunk⟩ := Option.ne_none_iff_exists'.1 hb
      refine ⟨as.length, b.found, junk, by simp, by simp [hjunk], hle, ?_⟩
      rw [Span.offset_atEnd] at hge
      rcases ds with _ | ⟨d, ds⟩
      · simpa [offsetOf, SyntaxError.span] using hge
      · rw [List.flatMap_cons, ← startOf_append d.found_ne_nil] at hge
        simpa [SyntaxError.span] using hge

/-- The chunks of `transaction T { actor A {} }`. -/
def oneActor : SchemaTree where
  first :=
    { header := ⟨.placed () "transaction" ⟨0, 11, 1, 1⟩, .placed "T" "T" ⟨12, 1, 1, 13⟩, none, .placed () "\x7b" ⟨14, 1, 1, 15⟩⟩
      declarations := [.actor ⟨.placed () "actor" ⟨16, 5, 1, 17⟩, .placed "A" "A" ⟨22, 1, 1, 23⟩,
        .placed () "\x7b" ⟨24, 1, 1, 25⟩, none, .placed () "\x7d" ⟨25, 1, 1, 26⟩⟩]
      right := .placed () "\x7d" ⟨27, 1, 1, 28⟩ }
  more := []

/-- Without anything after the keyword of its actor the text has one error. -/
theorem recovery_of_unclosed_actor : (recover "transaction T\x7bactor").errors.length ≤ 1 := by
  have htokens : tokenize "transaction T\x7bactor" = .ok [⟨.keyword .transaction, "transaction", ⟨0, 11, 1, 1⟩⟩,
      ⟨.name "T", "T", ⟨12, 1, 1, 13⟩⟩, ⟨.symbol .openBrace, "\x7b", ⟨13, 1, 1, 14⟩⟩,
      ⟨.keyword .actor, "actor", ⟨14, 5, 1, 15⟩⟩] :=
    Scan.tokenize_ok_iff.2 ⟨[⟨some (.keyword .transaction), "transaction".toList⟩, ⟨none, [' ']⟩,
      ⟨some (.name "T"), ['T']⟩, ⟨some (.symbol .openBrace), ['\x7b']⟩, ⟨some (.keyword .actor), "actor".toList⟩],
      ⟨⟨'t', "ransaction".toList, by decide, by decide⟩, ⟨' ', [], rfl, by decide⟩, ⟨'T', [], rfl, by decide⟩,
        ⟨'\x7b', [], rfl, by decide⟩, ⟨'a', "ctor".toList, by decide, by decide⟩, trivial⟩, by decide, by decide⟩
  obtain ⟨-, -, -, hcount, -⟩ := @recovery_never_cascades "" oneActor.lexemes _
    (parseTokens_ok_iff.2 ⟨oneActor, rfl, rfl⟩) [none, some []] (by decide) (by simp) _ _ htokens (by decide)
  exact hcount

end Parley
